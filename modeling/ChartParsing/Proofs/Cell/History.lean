import ChartParsing.Proofs.Cell.Store
import Mathlib.Data.List.Induction

/-!
# The history of a cell

`Cell.After` says that a cell is what an empty one has become by taking offers in
turn, whatever source ties were drawn from. Everything that is true of a cell
follows from its offers. A symbol is present if it was offered. Without ties its
entry is its offers merged in order, `gather`; the entry of a best derivation is
always that of one of the offers, ties or not.
-/

namespace ChartParsing

variable {S J : Type} [Score S]

/-- The cell is an empty one after the offers, taken in order. -/
inductive Cell.After (J : Type) [JitterSource J] (type : CellType) (aggregation : Aggregation)
    (size : Nat) : List (Offer S) → Cell S → Prop where
  | empty : After J type aggregation size [] (.empty type aggregation size)
  | offer {offers : List (Offer S)} {c c' : Cell S} {o : Offer S} {source source' : J} :
      After J type aggregation size offers c → c.offer o source = .ok (c', source') →
      After J type aggregation size (offers ++ [o]) c'

/-- The entry of a symbol from the offers for it, merged in order. -/
def gather (aggregation : Aggregation) (offers : List (Offer S)) (sym : Symbol) :
    Option (Entry S) :=
  offers.foldl (fun e o => if o.rule.parent = sym then some (o.merge aggregation e) else e) none

theorem gather_concat (aggregation : Aggregation) (offers : List (Offer S)) (o : Offer S)
    (sym : Symbol) :
    gather aggregation (offers ++ [o]) sym =
      if o.rule.parent = sym then some (o.merge aggregation (gather aggregation offers sym))
      else gather aggregation offers sym := by
  unfold gather
  rw [List.foldl_append]
  rfl

/-- A merged best entry is the offer's, or the one before it. -/
theorem Offer.merge_viterbi (o : Offer S) (e? : Option (Entry S)) :
    o.merge .viterbi e? = o.entry .viterbi ∨ ∃ e, e? = some e ∧ o.merge .viterbi e? = e := by
  cases e? with
  | none => exact Or.inl rfl
  | some e =>
    simp only [merge]
    split
    · exact Or.inl rfl
    · exact Or.inr ⟨e, rfl, rfl⟩

/-- **The merged best entry is that of an offer.** -/
theorem gather_viterbi {offers : List (Offer S)} {sym : Symbol} {e : Entry S}
    (h : gather .viterbi offers sym = some e) :
    ∃ o ∈ offers, o.rule.parent = sym ∧ e = o.entry .viterbi := by
  induction offers using List.reverseRecOn with
  | nil => cases h
  | append_singleton offers o ih =>
    have hold : gather .viterbi offers sym = some e →
        ∃ o' ∈ offers ++ [o], o'.rule.parent = sym ∧ e = o'.entry .viterbi := by
      intro hgather
      obtain ⟨o', ho', hrest⟩ := ih hgather
      exact ⟨o', List.mem_append_left _ ho', hrest⟩
    rw [gather_concat] at h
    split at h
    case isFalse => exact hold h
    rename_i hp
    have he := Option.some.inj h
    rcases o.merge_viterbi (gather .viterbi offers sym) with hmerge | ⟨e', hgather, hmerge⟩
    · exact ⟨o, by simp, hp, he.symm.trans hmerge⟩
    · exact hold (by rw [hgather, ← he, hmerge])

namespace Cell

/-- An offer that a cell takes goes to its store, and the cell stays open. -/
theorem offer_ok [JitterSource J] {c c' : Cell S} {o : Offer S} {source source' : J}
    (h : c.offer o source = .ok (c', source')) :
    c.isClosed = false ∧ c'.present = c.present ∧ c'.aggregation = c.aggregation ∧
      c.store.offer c.aggregation o source = .ok (c'.store, source') := by
  unfold offer at h
  split at h
  · cases h
  · rename_i hopen
    obtain ⟨⟨store, source₁⟩, hoff, heq⟩ := bind_eq_ok h
    cases heq
    exact ⟨by simpa using hopen, rfl, rfl, hoff⟩

variable [JitterSource J] {type : CellType} {aggregation : Aggregation} {size : Nat}
  {offers : List (Offer S)} {c : Cell S}

/-- What a cell in use keeps: it is open, it aggregates as it was made to, and
emptied it is as new. -/
theorem After.shape (h : c.After J type aggregation size offers) :
    c.present = none ∧ c.aggregation = aggregation ∧ c.store.Tidy ∧
      c.store.clear = .empty size type := by
  induction h with
  | empty =>
    exact ⟨rfl, rfl, CellStore.tidy_empty size type, CellStore.clear_empty size type⟩
  | offer _ hoff ih =>
    obtain ⟨_, hpresent, hagg, hstore⟩ := offer_ok hoff
    obtain ⟨htidy, hclear, _⟩ := CellStore.offer_ok hstore ih.2.2.1
    exact ⟨hpresent.trans ih.1, hagg.trans ih.2.1, htidy, hclear.trans ih.2.2.2⟩

/-- Emptied, a cell in use is as new. -/
theorem After.reset_eq (h : c.After J type aggregation size offers) :
    c.reset = .empty type aggregation size := by
  obtain ⟨_, hagg, _, hclear⟩ := h.shape
  rw [reset, hagg, hclear]
  rfl

/-- Only cells of one type break ties. -/
theorem After.breaksTies_iff (h : c.After J type aggregation size offers) :
    c.store.BreaksTies ↔ type = .tieBreaking :=
  CellStore.breaksTies_iff h.shape.2.2.2

/-- One more offer, seen from outside: the symbol of its parent is present, no
other changes. -/
theorem After.find?_offer {c' : Cell S} {o : Offer S} {source source' : J}
    (h : c.After J type aggregation size offers) (hoff : c.offer o source = .ok (c', source')) :
    (c'.find? o.rule.parent).isSome = true ∧
      ∀ sym, o.rule.parent ≠ sym → c'.find? sym = c.find? sym := by
  obtain ⟨_, _, _, hstore⟩ := offer_ok hoff
  obtain ⟨_, _, hexact, hother, hties⟩ := CellStore.offer_ok hstore h.shape.2.2.1
  refine ⟨?_, hother⟩
  by_cases hb : c.store.BreaksTies
  · rcases hties hb with h | ⟨e, _, h⟩
    · rw [find?, h]
      rfl
    · rw [find?, h]
      rfl
  · rw [find?, hexact hb, if_pos rfl]
    rfl

/-- **A symbol is present if it was offered.** -/
theorem After.contains_iff (h : c.After J type aggregation size offers) (sym : Symbol) :
    c.contains sym = true ↔ ∃ o ∈ offers, o.rule.parent = sym := by
  induction h with
  | empty => simp [contains, find?, Cell.empty]
  | @offer offers c c' o source source' hafter hoff ih =>
    obtain ⟨hself, hother⟩ := hafter.find?_offer hoff
    by_cases hp : o.rule.parent = sym
    · subst hp
      exact ⟨fun _ => ⟨o, by simp, rfl⟩, fun _ => hself⟩
    · rw [contains, hother sym hp]
      refine ih.trans ⟨?_, ?_⟩
      · intro hx
        rcases hx with ⟨o', ho', hp'⟩
        exact ⟨o', List.mem_append_left _ ho', hp'⟩
      · intro hx
        rcases hx with ⟨o', ho', hp'⟩
        rcases List.mem_append.mp ho' with ho' | ho'
        · exact ⟨o', ho', hp'⟩
        · rw [List.mem_singleton] at ho'
          subst ho'
          exact absurd hp' hp

/-- **Without ties an entry is its offers, merged in order.** -/
theorem After.find?_eq_gather (h : c.After J type aggregation size offers)
    (htype : type ≠ .tieBreaking) (sym : Symbol) :
    c.find? sym = gather aggregation offers sym := by
  induction h with
  | empty => simp [find?, Cell.empty, gather]
  | @offer offers c c' o source source' hafter hoff ih =>
    obtain ⟨_, _, _, hstore⟩ := offer_ok hoff
    obtain ⟨_, hagg, htidy, _⟩ := hafter.shape
    obtain ⟨_, _, hexact, _⟩ := CellStore.offer_ok hstore htidy
    rw [find?, hexact (fun hb => htype (hafter.breaksTies_iff.mp hb)), gather_concat, ← ih, hagg]
    rfl

/-- **A best entry is that of an offer**, however ties fell. -/
theorem After.exists_offer (h : c.After J type .viterbi size offers) {sym : Symbol} {e : Entry S}
    (he : c.find? sym = some e) :
    ∃ o ∈ offers, o.rule.parent = sym ∧ e = o.entry .viterbi := by
  -- the aggregation is an index of `After`, and the induction needs a variable there
  generalize hagg : Aggregation.viterbi = aggregation at h
  induction h with
  | empty => simp [find?, Cell.empty] at he
  | @offer offers c c' o source source' hafter hoff ih =>
    subst hagg
    have hold : c.find? sym = some e →
        ∃ o' ∈ offers ++ [o], o'.rule.parent = sym ∧ e = o'.entry .viterbi := by
      intro hc
      obtain ⟨o', ho', hrest⟩ := ih hc
      exact ⟨o', List.mem_append_left _ ho', hrest⟩
    by_cases hp : o.rule.parent = sym
    · subst hp
      have hnew : e = o.entry .viterbi →
          ∃ o' ∈ offers ++ [o], o'.rule.parent = o.rule.parent ∧ e = o'.entry .viterbi :=
        fun h => ⟨o, by simp, rfl, h⟩
      obtain ⟨_, _, _, hstore⟩ := offer_ok hoff
      obtain ⟨_, hagg, htidy, _⟩ := hafter.shape
      rw [hagg] at hstore
      obtain ⟨_, _, hexact, _, hties⟩ := CellStore.offer_ok hstore htidy
      by_cases hb : c.store.BreaksTies
      · rcases hties hb with hself | ⟨e', hc, hself⟩
        · rw [find?, hself] at he
          exact hnew (Option.some.inj he).symm
        · rw [find?, hself] at he
          exact hold (by rw [← he]; exact hc)
      · rw [find?, hexact hb, if_pos rfl] at he
        have he := Option.some.inj he
        rcases Offer.merge_viterbi o (c.store.find? o.rule.parent) with hm | ⟨e', hc, hm⟩
        · exact hnew (he.symm.trans hm)
        · exact hold (by rw [← he, hm]; exact hc)
    · rw [(hafter.find?_offer hoff).2 sym hp] at he
      exact hold he

/-- An open cell in use takes every offer for a symbol of the alphabet, unless it is dense
and the offer brings it an undefined score. -/
theorem After.offer_ends (h : c.After J type aggregation size offers) {o : Offer S}
    (hlt : o.rule.parent.index < size) (source : J) :
    (∃ c' source', c.offer o source = .ok (c', source')) ∨
      (c.offer o source = .error .undefinedScore ∧ type.isDense = true ∧
        o.Spoils aggregation (c.find? o.rule.parent)) := by
  obtain ⟨hpresent, rfl, htidy, hclear⟩ := h.shape
  have hopen : c.isClosed = false := by rw [isClosed, hpresent]; rfl
  unfold Cell.offer
  rw [hopen]
  cases hoff : c.store.offer c.aggregation o source with
  | ok result => exact Or.inl ⟨{ c with store := result.1 }, result.2, rfl⟩
  | error fault =>
    obtain ⟨rfl, hundef⟩ := CellStore.offer_error hoff htidy hclear hlt
    exact Or.inr ⟨rfl, hundef⟩

end Cell

end ChartParsing
