import ChartParsing.Cell.TieBreaking
import ChartParsing.Proofs.Outcome

/-!
# One slot per symbol

What a dense store does is said best without the way it is laid out. It is a row of
slots, one per symbol, which are filled or not. An offer writes to the slot of its
symbol, and nothing else is ever kept: the symbols are those of the filled slots, and an
emptied row is a new one.

In a row of best derivations with ties, each slot seats an incumbent. An offer
challenges it, and whoever holds the seat afterwards is written down.
-/

namespace ChartParsing

variable {S J E : Type}

/-! ## The order of symbols -/

/-- Sorting symbols that are all different puts them in strictly increasing
order. -/
theorem pairwise_mergeSort {syms : List Symbol} (h : syms.Nodup) :
    (syms.mergeSort Symbol.le).Pairwise fun a b => a.index < b.index := by
  have hsorted : (syms.mergeSort Symbol.le).Pairwise fun a b => a.le b = true :=
    List.pairwise_mergeSort
      (fun a b c hab hbc => by
        rw [Symbol.le_iff] at *
        omega)
      (fun a b => by
        rw [Bool.or_eq_true, Symbol.le_iff, Symbol.le_iff]
        omega)
      syms
  have hnodup : (syms.mergeSort Symbol.le).Nodup := (List.mergeSort_perm syms _).nodup_iff.mpr h
  refine (hsorted.and hnodup).imp ?_
  intro a b ⟨hle, hne⟩
  rw [Symbol.le_iff] at hle
  rw [Ne, ← Symbol.index_inj] at hne
  omega

/-- Strictly increasing lists with the same symbols are the same. -/
theorem eq_of_increasing {xs ys : List Symbol} (hxs : xs.Pairwise fun a b => a.index < b.index)
    (hys : ys.Pairwise fun a b => a.index < b.index) (hmem : ∀ sym, sym ∈ xs ↔ sym ∈ ys) :
    xs = ys := by
  have hnodup : ∀ {zs : List Symbol}, zs.Pairwise (fun a b => a.index < b.index) → zs.Nodup :=
    fun h => h.imp fun hlt heq => absurd (congrArg Symbol.index heq) (Nat.ne_of_lt hlt)
  have hperm : xs.Perm ys := (List.perm_ext_iff_of_nodup (hnodup hxs) (hnodup hys)).mpr hmem
  exact hperm.eq_of_pairwise (fun a b _ _ hab hba => absurd hab (Nat.lt_asymm hba)) hxs hys

/-! ## Rows of slots -/

/-- Who holds the seat after an offer, and the source it leaves. -/
def Offer.challenge [Score S] [JitterSource J] (o : Offer S) (source : J) :
    Option (Incumbent S) → Incumbent S × J
  | none => (⟨o.entry .viterbi, none⟩, source)
  | some i =>
    if Score.clearlyExceeds o.score i.entry.score then (⟨o.entry .viterbi, none⟩, source)
    else if Score.ties o.score i.entry.score then
      let (defence, source) := i.contest source
      let (attack, source) := JitterSource.draw source
      (if defence < attack then ⟨o.entry .viterbi, some attack⟩ else ⟨i.entry, some defence⟩,
        source)
    else (i, source)

/-- Whoever holds the seat afterwards is the challenger, or has the entry that was
there. -/
theorem Offer.challenge_entry [Score S] [JitterSource J] (o : Offer S) (source : J)
    (i : Incumbent S) :
    (o.challenge source (some i)).1.entry = o.entry .viterbi ∨
      (o.challenge source (some i)).1.entry = i.entry := by
  unfold challenge
  simp only
  split
  · exact Or.inl rfl
  split
  · split
    · exact Or.inl rfl
    · exact Or.inr rfl
  · exact Or.inr rfl

/-- A row of slots, one for each symbol numbered below its size. -/
structure Slots (E : Type) where
  row : Array (Option E)

namespace Slots

/-- Slots of which none is filled. -/
def empty (size : Nat) : Slots E := ⟨Array.replicate size none⟩

/-- What is in the slot of a symbol. -/
def find? (s : Slots E) (sym : Symbol) : Option E := s.row[sym.index]?.join

/-- The symbols whose slots are filled, by number. -/
def symbols (s : Slots E) : List Symbol :=
  (Symbol.below s.row.size).filter fun sym => (s.find? sym).isSome

/-- Fills the slot of a symbol. -/
def write (s : Slots E) (sym : Symbol) (e : E) : Slots E :=
  ⟨s.row.setIfInBounds sym.index (some e)⟩

/-- Merges an offer into the slot of its symbol, unless the score is undefined then. -/
def offer [Score S] (s : Slots (Entry S)) (aggregation : Aggregation) (o : Offer S) :
    Except Fault (Slots (Entry S)) :=
  match s.row[o.rule.parent.index]? with
  | none => .error .noSlot
  | some old =>
    let e := o.merge aggregation old
    if Score.isUndefined e.score then .error .undefinedScore else .ok (s.write o.rule.parent e)

/-- Lets an offer challenge the incumbent of its symbol, unless an undefined score would
be seated. -/
def contest [Score S] [JitterSource J] (s : Slots (Incumbent S)) (o : Offer S) (source : J) :
    Except Fault (Slots (Incumbent S) × J) :=
  match s.row[o.rule.parent.index]? with
  | none => .error .noSlot
  | some i? =>
    let (i, source) := o.challenge source i?
    if Score.isUndefined i.entry.score then .error .undefinedScore
    else .ok (s.write o.rule.parent i, source)

@[simp]
theorem size_write (s : Slots E) (sym : Symbol) (e : E) :
    (s.write sym e).row.size = s.row.size :=
  Array.size_setIfInBounds

theorem lt_of_isSome {s : Slots E} {sym : Symbol} (h : (s.find? sym).isSome = true) :
    sym.index < s.row.size := by
  rcases Nat.lt_or_ge sym.index s.row.size with hlt | hge
  · exact hlt
  · rw [find?, Array.getElem?_eq_none hge] at h
    cases h

theorem mem_symbols {s : Slots E} {sym : Symbol} :
    sym ∈ s.symbols ↔ (s.find? sym).isSome = true := by
  rw [symbols, List.mem_filter, Symbol.mem_below]
  exact ⟨fun h => h.2, fun h => ⟨lt_of_isSome h, h⟩⟩

/-- The symbols come in strictly increasing order. -/
theorem pairwise_symbols (s : Slots E) : s.symbols.Pairwise fun a b => a.index < b.index :=
  (Symbol.pairwise_below _).filter _

/-- **Filling a slot changes what is in it, and in no other.** -/
theorem find?_write {s : Slots E} {sym : Symbol} (hs : sym.index < s.row.size) (e : E)
    (other : Symbol) :
    (s.write sym e).find? other = if sym = other then some e else s.find? other := by
  by_cases ho : sym = other
  · subst ho
    simp [find?, write, hs]
  · simp [find?, write, Symbol.index_inj, ho]

/-- Slots with room for the parent take any offer with a defined outcome. -/
theorem offer_eq [Score S] {s : Slots (Entry S)} {o : Offer S}
    (h : o.rule.parent.index < s.row.size) (aggregation : Aggregation) :
    s.offer aggregation o =
      if Score.isUndefined (o.merge aggregation (s.find? o.rule.parent)).score then
        .error .undefinedScore
      else .ok (s.write o.rule.parent (o.merge aggregation (s.find? o.rule.parent))) := by
  simp [offer, find?, h]

theorem offer_ok [Score S] {s t : Slots (Entry S)} {aggregation : Aggregation} {o : Offer S}
    (h : s.offer aggregation o = .ok t) :
    o.rule.parent.index < s.row.size ∧
      t = s.write o.rule.parent (o.merge aggregation (s.find? o.rule.parent)) := by
  -- without a slot the offer is at fault
  rcases Nat.lt_or_ge o.rule.parent.index s.row.size with hlt | hge
  · rw [offer_eq hlt] at h
    split at h
    · cases h
    · exact ⟨hlt, (Except.ok.inj h).symm⟩
  · rw [offer, Array.getElem?_eq_none hge] at h
    cases h

variable [Score S] [JitterSource J]

/-- Slots with room for the parent let any offer challenge that leaves a defined score. -/
theorem contest_eq {s : Slots (Incumbent S)} {o : Offer S}
    (h : o.rule.parent.index < s.row.size) (source : J) :
    s.contest o source =
      if Score.isUndefined (o.challenge source (s.find? o.rule.parent)).1.entry.score then
        .error .undefinedScore
      else .ok (s.write o.rule.parent (o.challenge source (s.find? o.rule.parent)).1,
        (o.challenge source (s.find? o.rule.parent)).2) := by
  simp [contest, find?, h]

theorem contest_ok {s t : Slots (Incumbent S)} {o : Offer S} {source source' : J}
    (h : s.contest o source = .ok (t, source')) :
    o.rule.parent.index < s.row.size ∧
      t = s.write o.rule.parent (o.challenge source (s.find? o.rule.parent)).1 ∧
      source' = (o.challenge source (s.find? o.rule.parent)).2 := by
  rcases Nat.lt_or_ge o.rule.parent.index s.row.size with hlt | hge
  · rw [contest_eq hlt] at h
    split at h
    · cases h
    · cases h
      exact ⟨hlt, rfl, rfl⟩
  · rw [contest, Array.getElem?_eq_none hge] at h
    cases h

end Slots

end ChartParsing
