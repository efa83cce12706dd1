import Mathlib.Logic.ExistsUnique
import ChartParsing.Proofs.Grammar.Rules
import ChartParsing.Proofs.Rows

/-!
# What the buckets hold

An index sorts rules into buckets. Here it is said of each index which rules those
of a bucket are, without the keys it was built by, and that they come in increasing
order, each once.

Binary rules may be laid out in three ways. Each of them puts every binary rule into
one bucket and nothing else into any, so the three are partitions of one set.
-/

namespace ChartParsing

variable {S : Type}

/-- There are `count` buckets, and bucket `k` has the numbers of those rules that
belong there, in increasing order. -/
structure Buckets.Sorts (buckets : Buckets) (count : Nat) (rules : Array (Rule S))
    (belongs : Rule S → Nat → Prop) : Prop where
  size_eq : buckets.size = count
  increasing : ∀ k, (buckets.get k).toList.Pairwise fun a b => a.index < b.index
  mem_iff : ∀ k id, id ∈ buckets.get k ↔ ∃ r ∈ rules, r.id = id ∧ belongs r k

/-- The buckets of a layout. -/
def BinaryIndex.buckets : BinaryIndex → Buckets
  | .byPair buckets => buckets
  | .byLeftChild buckets => buckets
  | .byRightChild buckets => buckets

/-- How many buckets binary rules are laid out in, over `count` nonterminals. -/
def LoopOrder.bucketCount (count : Nat) : LoopOrder → Nat
  | .cartesianProduct => count * count
  | .leftChild => count
  | .rightChild => count

/-- The bucket a binary rule belongs to: that of its pair of children, row by row,
or that of one child. -/
def LoopOrder.Files (count : Nat) (order : LoopOrder) (r : Rule S) (k : Nat) : Prop :=
  ∃ y z, r.rhs = .binary y z ∧
    match order with
    | .cartesianProduct => y.index = k / count ∧ z.index = k % count
    | .leftChild => y.index = k
    | .rightChild => z.index = k

/-- A binary rule belongs to one bucket. -/
theorem LoopOrder.existsUnique_files {count : Nat} (order : LoopOrder) {r : Rule S} {y z : Symbol}
    (hrhs : r.rhs = .binary y z) (hz : z.index < count) : ∃! k, order.Files count r k := by
  cases order with
  | cartesianProduct =>
    refine ⟨y.index * count + z.index, ⟨y, z, hrhs, (Rows.place_eq_iff hz).mp rfl⟩, ?_⟩
    rintro k ⟨y', z', hrhs', hk⟩
    rw [hrhs] at hrhs'
    cases hrhs'
    exact ((Rows.place_eq_iff hz).mpr hk).symm
  | leftChild =>
    refine ⟨y.index, ⟨y, z, hrhs, rfl⟩, ?_⟩
    rintro k ⟨y', z', hrhs', hk⟩
    rw [hrhs] at hrhs'
    cases hrhs'
    exact hk.symm
  | rightChild =>
    refine ⟨z.index, ⟨y, z, hrhs, rfl⟩, ?_⟩
    rintro k ⟨y', z', hrhs', hk⟩
    rw [hrhs] at hrhs'
    cases hrhs'
    exact hk.symm

namespace Grammar

/-- Every index of a grammar holds what it is meant for. The binary rules do under
each loop order, the present one among them. -/
structure Filed (g : Grammar S) : Prop where
  number : ∀ (k : Nat) (r : Rule S), g.rules[k]? = some r → r.id.index = k
  lexical : g.lexicalByTerminal.Sorts g.terminalCount g.rules
    fun r k => ∃ t, r.rhs = .lexical t ∧ t.index = k
  unaryChild : g.unaryByChild.Sorts g.nonterminalCount g.rules
    fun r k => ∃ y, r.rhs = .unary y ∧ y.index = k
  unaryParent : g.unaryByParent.Sorts g.nonterminalCount g.rules
    fun r k => (∃ y, r.rhs = .unary y) ∧ r.parent.index = k
  binary : ∀ order, (g.reindex order).binary.buckets.Sorts (order.bucketCount g.nonterminalCount)
    g.rules (order.Files g.nonterminalCount)
  one_bucket : ∀ order, ∀ r ∈ g.rules, r.isBinary = true →
    ∃! k, r.id ∈ (g.reindex order).binary.buckets.get k
  isLeftChild_iff : ∀ y, g.isLeftChild y = true ↔ ∃ r ∈ g.rules, ∃ z, r.rhs = .binary y z
  isRightChild_iff : ∀ z, g.isRightChild z = true ↔ ∃ r ∈ g.rules, ∃ y, r.rhs = .binary y z

@[simp]
theorem reindex_loopOrder (g : Grammar S) : g.reindex g.loopOrder = g := if_pos rfl

namespace Indexed

variable {g : Grammar S}

/-- Buckets by a key sort the rules, if the key says where a rule belongs. -/
theorem sorts_ofRules (h : g.Indexed) {count : Nat} {key : Rule S → Option Nat}
    {belongs : Rule S → Nat → Prop} (hkey : ∀ r ∈ g.rules, ∀ k, key r = some k ↔ belongs r k)
    (hlt : ∀ r ∈ g.rules, ∀ k, belongs r k → k < count) :
    (Buckets.ofRules count key g.rules).Sorts count g.rules belongs := by
  have hget : ∀ k, ((Buckets.ofRules count key g.rules).get k).toList =
      (g.rules.toList.filter fun r => key r = some k).map Rule.id := by
    intro k
    rcases Nat.lt_or_ge k count with hk | hk
    · exact Buckets.toList_get_ofRules hk
    · rw [Buckets.get_ofRules_of_le hk, List.filter_eq_nil_iff.mpr]
      · rfl
      · intro r hr hkr
        have hr' := Array.mem_toList_iff.mp hr
        have := hlt r hr' k ((hkey r hr' k).mp (of_decide_eq_true hkr))
        omega
  refine ⟨Buckets.size_ofRules count key g.rules, ?_, ?_⟩
  · intro k
    rw [hget]
    exact List.pairwise_map.mpr (h.pairwise_number.filter _)
  · intro k id
    rw [← Array.mem_toList_iff, hget]
    simp only [List.mem_map, List.mem_filter, decide_eq_true_eq, Array.mem_toList_iff]
    refine ⟨?_, ?_⟩
    · rintro ⟨r, ⟨hr, hkr⟩, hid⟩
      exact ⟨r, hr, hid, (hkey r hr k).mp hkr⟩
    · rintro ⟨r, hr, hid, hb⟩
      exact ⟨r, ⟨hr, (hkey r hr k).mpr hb⟩, hid⟩

/-- The layout for another loop order is the one that building for it gives. -/
theorem reindex_binary (h : g.Indexed) (order : LoopOrder) :
    (g.reindex order).binary = .ofRules g.rules g.nonterminalCount order := by
  unfold reindex
  split
  · rename_i heq
    rw [h.binary_eq, heq]
  · rfl

/-- A layout sorts the binary rules. -/
theorem sorts_binary (h : g.Indexed) (order : LoopOrder) :
    (g.reindex order).binary.buckets.Sorts (order.bucketCount g.nonterminalCount) g.rules
      (order.Files g.nonterminalCount) := by
  rw [h.reindex_binary]
  cases order with
  | cartesianProduct =>
    refine h.sorts_ofRules ?_ ?_
    · intro r hr k
      rw [Rule.pairKey_eq_some]
      refine exists_congr fun y => exists_congr fun z => and_congr_right fun hrhs => ?_
      exact Rows.place_eq_iff (h.binary_lt r hr y z hrhs).2
    · rintro r hr k ⟨y, z, hrhs, hy, -⟩
      have hlt := (h.binary_lt r hr y z hrhs).1
      rw [hy] at hlt
      exact (Nat.div_lt_iff_lt_mul (by omega)).mp hlt
  | leftChild =>
    refine h.sorts_ofRules (fun r _ k => Rule.leftChildKey_eq_some) ?_
    rintro r hr k ⟨y, z, hrhs, rfl⟩
    exact (h.binary_lt r hr y z hrhs).1
  | rightChild =>
    refine h.sorts_ofRules (fun r _ k => Rule.rightChildKey_eq_some) ?_
    rintro r hr k ⟨y, z, hrhs, rfl⟩
    exact (h.binary_lt r hr y z hrhs).2

/-- A binary rule is in one bucket of a layout. -/
theorem existsUnique_bucket (h : g.Indexed) (order : LoopOrder) {r : Rule S} (hr : r ∈ g.rules)
    (hbinary : r.isBinary = true) : ∃! k, r.id ∈ (g.reindex order).binary.buckets.get k := by
  have hmem : ∀ k, r.id ∈ (g.reindex order).binary.buckets.get k ↔
      order.Files g.nonterminalCount r k := by
    intro k
    rw [(h.sorts_binary order).mem_iff]
    refine ⟨?_, fun hfiles => ⟨r, hr, rfl, hfiles⟩⟩
    rintro ⟨r', hr', hid, hfiles⟩
    rwa [← h.eq_of_id_eq hr' hr hid]
  simp only [hmem]
  obtain ⟨y, z, hrhs⟩ : ∃ y z, r.rhs = .binary y z := by
    unfold Rule.isBinary at hbinary
    cases hrhs : r.rhs with
    | lexical t => simp [hrhs] at hbinary
    | unary y => simp [hrhs] at hbinary
    | binary y z => exact ⟨y, z, rfl⟩
  exact LoopOrder.existsUnique_files order hrhs (h.binary_lt r hr y z hrhs).2

/-- **Every index of an accepted grammar holds what it is meant for.** -/
theorem filed (h : g.Indexed) : g.Filed where
  number := h.number
  lexical := by
    rw [h.lexicalByTerminal_eq]
    refine h.sorts_ofRules (fun r _ k => Rule.lexicalKey_eq_some) ?_
    rintro r hr k ⟨t, hrhs, rfl⟩
    exact h.lexical_lt r hr t hrhs
  unaryChild := by
    rw [h.unaryByChild_eq]
    refine h.sorts_ofRules (fun r _ k => Rule.unaryChildKey_eq_some) ?_
    rintro r hr k ⟨y, hrhs, rfl⟩
    exact h.unary_lt r hr y hrhs
  unaryParent := by
    rw [h.unaryByParent_eq]
    refine h.sorts_ofRules (fun r _ k => Rule.unaryParentKey_eq_some) ?_
    rintro r hr k ⟨-, rfl⟩
    exact h.parent_lt r hr
  binary := h.sorts_binary
  one_bucket := fun order _ hr hbinary => h.existsUnique_bucket order hr hbinary
  isLeftChild_iff := h.isLeftChild_iff
  isRightChild_iff := h.isRightChild_iff

end Indexed

end Grammar

end ChartParsing
