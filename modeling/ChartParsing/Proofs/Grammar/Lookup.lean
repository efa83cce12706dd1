import ChartParsing.Grammar
import ChartParsing.Proofs.Grammar.UnaryOrder

/-!
# Buckets and sets made from rules

The indices of a grammar are filled by one pass over its rules. Afterwards the
bucket of a key lists the numbers of the rules with the key, in the order of the
rules, and there is nothing past the last bucket. A set of symbols made from rules
has those that some rule has in the position asked for.
-/

namespace ChartParsing

variable {S : Type}

/-! ## Buckets -/

namespace Buckets

@[simp]
theorem size_add (key : Rule S → Option Nat) (buckets : Buckets) (rule : Rule S) :
    (add key buckets rule).size = buckets.size := by
  unfold add
  split
  · rw [Array.size_modify]
  · rfl

theorem get_add {key : Rule S → Option Nat} {buckets : Buckets} {k : Nat} (hk : k < buckets.size)
    (rule : Rule S) :
    (add key buckets rule).get k =
      if key rule = some k then (buckets.get k).push rule.id else buckets.get k := by
  unfold add get
  cases hkey : key rule with
  | none => rfl
  | some j =>
    simp only [Array.getElem?_modify, Option.some.injEq]
    split
    · simp [hk]
    · rfl

/-- A pass over rules puts the numbers of those with a key behind what its bucket
held before. -/
theorem toList_get_foldl_add {key : Rule S → Option Nat} {k : Nat} (rules : List (Rule S)) :
    ∀ {buckets : Buckets}, k < buckets.size →
      ((rules.foldl (add key) buckets).get k).toList =
        (buckets.get k).toList ++ (rules.filter fun r => key r = some k).map Rule.id := by
  induction rules with
  | nil => intro buckets _; simp
  | cons rule rules ih =>
    intro buckets hk
    rw [List.foldl_cons, ih (by rw [size_add]; exact hk), get_add hk]
    by_cases hkey : key rule = some k
    · simp [hkey]
    · simp [hkey]

theorem size_foldl_add (key : Rule S → Option Nat) (rules : List (Rule S)) :
    ∀ buckets : Buckets, (rules.foldl (add key) buckets).size = buckets.size := by
  induction rules with
  | nil => intro buckets; rfl
  | cons rule rules ih => intro buckets; rw [List.foldl_cons, ih, size_add]

/-- A bucket lists the numbers of the rules with its key, in their order. -/
theorem toList_get_ofRules {count : Nat} {key : Rule S → Option Nat} {rules : Array (Rule S)}
    {k : Nat} (hk : k < count) :
    ((ofRules count key rules).get k).toList =
      (rules.toList.filter fun r => key r = some k).map Rule.id := by
  unfold ofRules
  rw [← Array.foldl_toList, toList_get_foldl_add _ (by rw [Array.size_replicate]; exact hk)]
  simp [get, hk]

@[simp]
theorem size_ofRules (count : Nat) (key : Rule S → Option Nat) (rules : Array (Rule S)) :
    (ofRules count key rules).size = count := by
  unfold ofRules
  rw [← Array.foldl_toList, size_foldl_add, Array.size_replicate]

/-- There is nothing past the last bucket. -/
theorem get_ofRules_of_le {count : Nat} {key : Rule S → Option Nat} {rules : Array (Rule S)}
    {k : Nat} (hk : count ≤ k) : (ofRules count key rules).get k = #[] := by
  unfold get
  rw [Array.getElem?_eq_none (by rw [size_ofRules]; exact hk)]
  rfl

end Buckets

/-- A symbol is in the set made from rules if some rule has it in the position. -/
theorem SymbolSet.contains_ofRules {count : Nat} {position : Rule S → Option Symbol}
    {rules : Array (Rule S)} {sym : Symbol} :
    (SymbolSet.ofRules count position rules).contains sym = true ↔
      sym.index < count ∧ ∃ r ∈ rules, position r = some sym := by
  -- the pass starts from the empty set, but goes on from any
  suffices h : ∀ (rules : List (Rule S)) (set : SymbolSet),
      ((rules.foldl (fun set rule => ((position rule).map set.insert).getD set) set).contains sym
        = true ↔ set.contains sym = true ∨
          (sym.index < set.size ∧ ∃ r ∈ rules, position r = some sym)) by
    unfold ofRules
    rw [← Array.foldl_toList, h]
    by_cases hsym : sym.index < count
    · simp [replicate, contains, size, hsym]
    · simp [replicate, contains, size, hsym]
  intro rules
  induction rules with
  | nil => intro set; simp
  | cons rule rules ih =>
    intro set
    rw [List.foldl_cons, ih]
    cases hp : position rule with
    | none => simp [hp]
    | some other =>
      simp only [Option.map_some, Option.getD_some, insert, contains_assign, size_assign]
      by_cases ho : other = sym
      · subst ho
        by_cases hset : other.index < set.size
        · simp [hset, hp]
        · simp [hset]
      · simp [ho, hp]

end ChartParsing
