/-!
# Symbols and rule numbers

Nonterminals and terminals are numbered from zero, each kind in an alphabet of
its own, so one number may name a symbol of either kind. The rules of a grammar
are numbered by their position.

Both numbers are 32-bit words. `ofNat` keeps the low 32 bits, and `index` reads
the number back; below `2 ^ 32` the two undo each other.
-/

namespace ChartParsing

/-- A nonterminal or terminal, known by its number. -/
structure Symbol where
  code : UInt32
  deriving DecidableEq, Hashable, Inhabited

namespace Symbol

/-- The symbol numbered `n`, modulo `2 ^ 32`. -/
def ofNat (n : Nat) : Symbol := ⟨UInt32.ofNat n⟩

/-- The number of a symbol. -/
def index (sym : Symbol) : Nat := sym.code.toNat

/-- Symbols are ordered by number. -/
def le (a b : Symbol) : Bool := a.code ≤ b.code

/-- The symbols numbered below `n`, by number. There are `2 ^ 32` at most. -/
def below (n : Nat) : List Symbol := (List.range (min n UInt32.size)).map ofNat

theorem index_lt (sym : Symbol) : sym.index < UInt32.size := sym.code.toNat_lt_size

theorem index_ofNat (n : Nat) : (ofNat n).index = n % UInt32.size := by
  simp [ofNat, index]

theorem index_ofNat_of_lt {n : Nat} (h : n < UInt32.size) : (ofNat n).index = n := by
  rw [index_ofNat, Nat.mod_eq_of_lt h]

@[simp]
theorem ofNat_index (sym : Symbol) : ofNat sym.index = sym := by
  simp [ofNat, index]

theorem index_inj {a b : Symbol} : a.index = b.index ↔ a = b := by
  refine ⟨?_, ?_⟩
  · intro h
    rw [← ofNat_index a, h, ofNat_index]
  · intro heq
    subst heq
    rfl

theorem le_iff (a b : Symbol) : a.le b = true ↔ a.index ≤ b.index := by
  simp [le, index, UInt32.le_iff_toNat_le]

@[simp]
theorem mem_below {sym : Symbol} {n : Nat} : sym ∈ below n ↔ sym.index < n := by
  simp only [below, List.mem_map, List.mem_range, Nat.lt_min]
  refine ⟨?_, ?_⟩
  · intro hx
    rcases hx with ⟨k, ⟨hn, hk⟩, rfl⟩
    rwa [index_ofNat_of_lt hk]
  · intro h
    exact ⟨sym.index, ⟨h, sym.index_lt⟩, ofNat_index sym⟩

/-- The symbols below a number come in strictly increasing order. -/
theorem pairwise_below (n : Nat) : (below n).Pairwise fun a b => a.index < b.index := by
  refine List.pairwise_map.mpr (List.Pairwise.imp_of_mem ?_ List.pairwise_lt_range)
  intro i j hi hj hij
  have hi' := Nat.lt_min.mp (List.mem_range.mp hi)
  have hj' := Nat.lt_min.mp (List.mem_range.mp hj)
  rwa [index_ofNat_of_lt hi'.2, index_ofNat_of_lt hj'.2]

/-- Different symbols numbered below `n` are at most `n`. -/
theorem length_le_of_nodup {syms : List Symbol} {n : Nat} (hnodup : syms.Nodup)
    (hlt : ∀ sym ∈ syms, sym.index < n) : syms.length ≤ n := by
  have hsub : syms ⊆ (List.range n).map ofNat := by
    intro sym hsym
    exact List.mem_map.mpr ⟨sym.index, List.mem_range.mpr (hlt sym hsym), ofNat_index sym⟩
  simpa using hnodup.length_le_of_subset hsub

end Symbol

/-- The position of a rule in its grammar. -/
structure RuleId where
  code : UInt32
  deriving DecidableEq, Hashable, Inhabited

namespace RuleId

/-- The rule number `n`, modulo `2 ^ 32`. -/
def ofNat (n : Nat) : RuleId := ⟨UInt32.ofNat n⟩

/-- The position a rule number stands for. -/
def index (id : RuleId) : Nat := id.code.toNat

theorem index_ofNat (n : Nat) : (ofNat n).index = n % UInt32.size := by
  simp [ofNat, index]

theorem index_ofNat_of_lt {n : Nat} (h : n < UInt32.size) : (ofNat n).index = n := by
  rw [index_ofNat, Nat.mod_eq_of_lt h]

@[simp]
theorem ofNat_index (id : RuleId) : ofNat id.index = id := by
  simp [ofNat, index]

theorem index_inj {a b : RuleId} : a.index = b.index ↔ a = b := by
  refine ⟨?_, ?_⟩
  · intro h
    rw [← ofNat_index a, h, ofNat_index]
  · intro heq
    subst heq
    rfl

end RuleId

end ChartParsing
