import ChartParsing.Proofs.Cell.Touched

/-!
# What stores answer

Whatever the kind of store, an offer that is taken concerns the symbol of its
rule's parent alone, and emptying the store afterwards is emptying it before. The
three stores without ties hold exactly the merged entry. A store with ties holds
the offer's entry or still the one before.

A dense store takes an offer unless the symbol has no slot or the score is
undefined. The symbols of a store are those it holds something of, in strictly
increasing order.

All of this is said of stores in order: two maps that belong together, and dense
stores that have taken note of what they hold.
-/

namespace ChartParsing

variable {S J : Type}

/-! ## Stores with two maps -/

namespace SplitStore

/-- There is no back pointer without a score. -/
def Tidy (s : SplitStore S) : Prop :=
  ∀ sym : Symbol, s.scores[sym]? = none → s.backPointers[sym]? = none

theorem tidy_empty : (empty : SplitStore S).Tidy := by
  intro sym _
  simp [empty]

theorem tidy_put {s : SplitStore S} (h : s.Tidy) (sym : Symbol) (e : Entry S) :
    (s.put sym e).Tidy := by
  intro other hnone
  rw [put, Std.HashMap.getElem?_insert] at hnone
  by_cases ho : sym = other
  · rw [if_pos (beq_iff_eq.mpr ho)] at hnone
    cases hnone
  · rw [if_neg (by simpa using ho)] at hnone
    unfold put
    cases e.backPointer with
    | derivation rule mid =>
      simp only [Std.HashMap.getElem?_insert, beq_iff_eq, ho, if_false]
      exact h other hnone
    | untracked => exact h other hnone

/-- Writing an entry that is new, or that keeps the back pointer before it, is
reading it back. -/
theorem find?_put {s : SplitStore S} (h : s.Tidy) {sym : Symbol} {e : Entry S}
    (he : e.backPointer = .untracked → ∀ old, s.find? sym = some old → old.backPointer = .untracked)
    (other : Symbol) :
    (s.put sym e).find? other = if sym = other then some e else s.find? other := by
  by_cases ho : sym = other
  · subst ho
    rw [if_pos rfl]
    unfold find? put
    cases hb : e.backPointer with
    | derivation rule mid =>
      simp only [Std.HashMap.getElem?_insert_self, Option.map_some, Option.getD_some]
      rw [← hb]
    | untracked =>
      simp only [Std.HashMap.getElem?_insert_self, Option.map_some]
      -- no pointer is written over the one before, so that one has to be none as well
      have hold : s.backPointers[sym]?.getD .untracked = .untracked := by
        cases hs : s.scores[sym]? with
        | none => rw [h sym hs]; rfl
        | some score =>
          exact he hb ⟨score, s.backPointers[sym]?.getD .untracked⟩ (by rw [find?, hs]; rfl)
      rw [hold, ← hb]
  · rw [if_neg ho]
    unfold find? put
    cases e.backPointer <;> simp [Std.HashMap.getElem?_insert, ho]

theorem find?_offer [Score S] {s : SplitStore S} (h : s.Tidy) (aggregation : Aggregation)
    (o : Offer S) (sym : Symbol) :
    (s.offer aggregation o).find? sym =
      if o.rule.parent = sym then some (o.merge aggregation (s.find? sym)) else s.find? sym := by
  unfold offer
  rw [find?_put h]
  · split
    · rename_i heq
      rw [heq]
    · rfl
  · intro hb old hold
    rw [hold] at hb
    unfold Offer.merge at hb
    cases aggregation with
    | viterbi =>
      simp only at hb
      split at hb
      · cases hb
      · exact hb
    | inside => exact hb

theorem isSome_find? {s : SplitStore S} {sym : Symbol} :
    (s.find? sym).isSome = true ↔ sym ∈ s.scores.keys := by
  rw [find?, Option.isSome_map, Std.HashMap.mem_keys, Std.HashMap.isSome_getElem?_eq_contains,
    Std.HashMap.contains_iff_mem]

end SplitStore

/-! ## All stores -/

/-- Cells of the type have a slot for each symbol of the alphabet and for no other. -/
def CellType.isDense : CellType → Bool
  | .full | .tieBreaking => true
  | .hashed | .doubleHashed => false

/-- The offer brings a symbol an undefined score: its own, or the one it is pooled to. -/
def Offer.Spoils [Score S] (o : Offer S) (aggregation : Aggregation) (old : Option (Entry S)) :
    Prop :=
  Score.isUndefined o.score = true ∨ aggregation = .inside ∧
    ∃ e, old = some e ∧ Score.isUndefined (aggregation.plus e.score o.score) = true

/-- Merged into what is defined, an offer leaves something undefined only if it brings
it. -/
theorem Offer.spoils_of_merge [Score S] {o : Offer S} {aggregation : Aggregation}
    {old : Option (Entry S)} (hold : ∀ e, old = some e → Score.isUndefined e.score = false)
    (h : Score.isUndefined (o.merge aggregation old).score = true) : o.Spoils aggregation old := by
  cases old with
  | none => exact Or.inl h
  | some e =>
    cases aggregation with
    | inside => exact Or.inr ⟨rfl, e, rfl, h⟩
    | viterbi =>
      simp only [merge] at h
      split at h
      · exact Or.inl h
      · rw [hold e rfl] at h
        cases h

namespace CellStore

section

variable [Score S]

/-- The store is in order: what its parts hold belongs together. -/
def Tidy : CellStore S → Prop
  | .full store => store.Tidy
  | .hashed _ => True
  | .doubleHashed store => store.Tidy
  | .tieBreaking store => store.Tidy

theorem tidy_empty (size : Nat) (type : CellType) : (empty size type : CellStore S).Tidy := by
  cases type with
  | full => exact DenseStore.tidy_empty size
  | hashed => trivial
  | doubleHashed => exact SplitStore.tidy_empty
  | tieBreaking => exact TieStore.tidy_empty size

end

theorem clear_empty (size : Nat) (type : CellType) :
    (empty size type : CellStore S).clear = empty size type := by
  cases type with
  | full =>
    simp [empty, clear, DenseStore.clear, DenseStore.empty]
  | hashed => rfl
  | doubleHashed => rfl
  | tieBreaking =>
    simp [empty, clear, TieStore.clear, TieStore.empty, DenseStore.empty]

@[simp]
theorem find?_empty (size : Nat) (type : CellType) (sym : Symbol) :
    (empty size type : CellStore S).find? sym = none := by
  cases type <;> simp [empty, find?]

/-- A store with ties. -/
def BreaksTies : CellStore S → Prop
  | .tieBreaking _ => True
  | _ => False

/-- Only stores of one type break ties. Emptying a store does not change its type. -/
theorem breaksTies_iff {s : CellStore S} {size : Nat} {type : CellType}
    (hsize : s.clear = .empty size type) : s.BreaksTies ↔ type = .tieBreaking := by
  cases s <;> cases type <;> simp [clear, empty, BreaksTies] at hsize ⊢

/-- Emptied, a dense store has the slots it had. -/
theorem size_of_clear_full {store : DenseStore S} {size : Nat} {type : CellType}
    (hsize : (CellStore.full store).clear = .empty size type) :
    type = .full ∧ store.scores.size = size := by
  cases type with
  | full =>
    have hclear : store.clear = .empty size := CellStore.full.inj hsize
    refine ⟨rfl, ?_⟩
    rw [← store.size_clear, hclear]
    exact Array.size_replicate
  | hashed | doubleHashed | tieBreaking => simp [clear, empty] at hsize

/-- Emptied, a store with ties has the seats it had. -/
theorem size_of_clear_tieBreaking {store : TieStore S} {size : Nat} {type : CellType}
    (hsize : (CellStore.tieBreaking store).clear = .empty size type) :
    type = .tieBreaking ∧ store.best.scores.size = size := by
  cases type with
  | tieBreaking =>
    have hclear : store.clear = .empty size := CellStore.tieBreaking.inj hsize
    refine ⟨rfl, ?_⟩
    rw [← store.size_clear, hclear]
    exact Array.size_replicate
  | full | hashed | doubleHashed => simp [clear, empty] at hsize

/-- **What an offer that is taken does.** Emptied, the store is as before. Without
ties the symbol's entry is merged and no other changes. In any case no other
symbol's entry changes, and the symbol has one. -/
theorem offer_ok [Score S] [JitterSource J] {aggregation : Aggregation} {o : Offer S}
    {source source' : J} {s t : CellStore S}
    (h : s.offer aggregation o source = .ok (t, source')) (htidy : s.Tidy) :
    t.Tidy ∧ t.clear = s.clear ∧
      (¬ s.BreaksTies → ∀ sym, t.find? sym =
        if o.rule.parent = sym then some (o.merge aggregation (s.find? sym)) else s.find? sym) ∧
      (∀ sym, o.rule.parent ≠ sym → t.find? sym = s.find? sym) ∧
      (s.BreaksTies → t.find? o.rule.parent = some (o.entry .viterbi) ∨
        ∃ e, s.find? o.rule.parent = some e ∧ t.find? o.rule.parent = some e) := by
  have hexact : ∀ {t s : CellStore S}, (∀ sym, t.find? sym =
        if o.rule.parent = sym then some (o.merge aggregation (s.find? sym)) else s.find? sym) →
      ∀ sym, o.rule.parent ≠ sym → t.find? sym = s.find? sym := by
    intro t s hfind sym hne
    rw [hfind, if_neg hne]
  cases s with
  | full store =>
    obtain ⟨store', hoff, heq⟩ := bind_eq_ok h
    cases heq
    obtain ⟨htidy', hsize, hfind⟩ := DenseStore.Tidy.offer_ok htidy hoff
    refine ⟨htidy', ?_, fun _ => hfind, hexact (s := .full store) hfind, fun hb => hb.elim⟩
    rw [clear, clear, DenseStore.Tidy.clear_eq htidy', DenseStore.Tidy.clear_eq htidy, hsize]
  | hashed store =>
    cases h
    have hfind := HashedStore.find?_offer store aggregation o
    exact ⟨trivial, rfl, fun _ => hfind, hexact (s := .hashed store) hfind, fun hb => hb.elim⟩
  | doubleHashed store =>
    cases h
    have hfind := SplitStore.find?_offer htidy aggregation o
    exact ⟨SplitStore.tidy_put htidy _ _, rfl, fun _ => hfind,
      hexact (s := .doubleHashed store) hfind, fun hb => hb.elim⟩
  | tieBreaking store =>
    obtain ⟨⟨store', source₁⟩, hoff, heq⟩ := bind_eq_ok h
    cases heq
    obtain ⟨htidy', hsize, -, hseat⟩ := TieStore.Tidy.offer_ok htidy hoff
    refine ⟨htidy', ?_, fun hb => absurd trivial hb, fun sym hne => ?_, fun _ => ?_⟩
    · rw [clear, clear, TieStore.Tidy.clear_eq htidy', TieStore.Tidy.clear_eq htidy, hsize]
    · show store'.find? sym = store.find? sym
      rw [TieStore.find?_eq, TieStore.find?_eq, hseat, if_neg hne]
    · show store'.find? _ = _ ∨ ∃ e, store.find? _ = some e ∧ store'.find? _ = some e
      rw [TieStore.find?_eq, TieStore.find?_eq, hseat, if_pos rfl]
      cases store.incumbent? o.rule.parent with
      | none => exact Or.inl rfl
      | some i =>
        rcases o.challenge_entry source i with hentry | hentry
        · exact Or.inl (congrArg some hentry)
        · exact Or.inr ⟨i.entry, rfl, congrArg some hentry⟩

/-- Dense stores, with ties or without, hold defined scores only. -/
theorem Tidy.defined [Score S] {s : CellStore S} (h : s.Tidy) {size : Nat} {type : CellType}
    (hsize : s.clear = .empty size type) (hdense : type.isDense = true)
    {sym : Symbol} {e : Entry S} (he : s.find? sym = some e) :
    Score.isUndefined e.score = false := by
  cases s with
  | full store => exact DenseStore.Tidy.defined_of_find? h he
  | tieBreaking store => exact (TieStore.Tidy.best h).defined_of_find? he
  | hashed | doubleHashed =>
    -- maps empty to maps, which are not dense
    cases type <;> simp [clear, empty, CellType.isDense] at hsize hdense

/-- **Only a dense store refuses an offer, and only for an undefined score**, if it has a
slot for its symbol. -/
theorem offer_error [Score S] [JitterSource J] {aggregation : Aggregation} {o : Offer S}
    {source : J} {s : CellStore S} {fault : Fault} {size : Nat} {type : CellType}
    (h : s.offer aggregation o source = .error fault) (htidy : s.Tidy)
    (hsize : s.clear = .empty size type) (hlt : o.rule.parent.index < size) :
    fault = .undefinedScore ∧ type.isDense = true ∧
      o.Spoils aggregation (s.find? o.rule.parent) := by
  cases s with
  | full store =>
    obtain ⟨rfl, hslots⟩ := size_of_clear_full hsize
    have htaken := DenseStore.Tidy.offer_of_lt htidy aggregation (hslots ▸ hlt)
    split at htaken
    · rename_i hundef
      simp only [offer, htaken] at h
      cases h
      exact ⟨rfl, rfl, Offer.spoils_of_merge
        (fun _ he => DenseStore.Tidy.defined_of_find? htidy he) hundef⟩
    · obtain ⟨t, ht⟩ := htaken
      simp only [offer, ht] at h
      cases h
  | hashed store => cases h
  | doubleHashed store => cases h
  | tieBreaking store =>
    obtain ⟨rfl, hseats⟩ := size_of_clear_tieBreaking hsize
    cases hoff : store.offer o source with
    | ok result => simp only [offer, bind, Except.bind, hoff] at h; cases h
    | error f =>
      simp only [offer, bind, Except.bind, hoff] at h
      cases h
      obtain ⟨hfault, hundef⟩ := TieStore.Tidy.offer_error htidy hoff (hseats ▸ hlt)
      exact ⟨hfault, rfl, Or.inl hundef⟩

/-- The symbols of a store are those it holds something of. -/
theorem Tidy.mem_symbols [Score S] {s : CellStore S} (h : s.Tidy) {sym : Symbol} :
    sym ∈ s.symbols ↔ (s.find? sym).isSome = true := by
  cases s with
  | full store =>
    rw [symbols, DenseStore.Tidy.symbols_eq h, Slots.mem_symbols, DenseStore.find?_slots]
    rfl
  | hashed store =>
    rw [symbols, HashedStore.symbols, List.mem_mergeSort, Std.HashMap.mem_keys, find?,
      HashedStore.find?, Std.HashMap.isSome_getElem?_eq_contains, Std.HashMap.contains_iff_mem]
  | doubleHashed store =>
    rw [symbols, SplitStore.symbols, List.mem_mergeSort, find?, SplitStore.isSome_find?]
  | tieBreaking store =>
    rw [symbols, TieStore.symbols, (TieStore.Tidy.best h).symbols_eq, Slots.mem_symbols,
      DenseStore.find?_slots]
    rfl

/-- The symbols of a store come in strictly increasing order. -/
theorem Tidy.pairwise_symbols [Score S] {s : CellStore S} (h : s.Tidy) :
    s.symbols.Pairwise fun a b => a.index < b.index := by
  cases s with
  | full store =>
    rw [symbols, DenseStore.Tidy.symbols_eq h]
    exact Slots.pairwise_symbols _
  | hashed store => exact pairwise_mergeSort Std.HashMap.nodup_keys
  | doubleHashed store => exact pairwise_mergeSort Std.HashMap.nodup_keys
  | tieBreaking store =>
    rw [symbols, TieStore.symbols, (TieStore.Tidy.best h).symbols_eq]
    exact Slots.pairwise_symbols _

end CellStore

end ChartParsing
