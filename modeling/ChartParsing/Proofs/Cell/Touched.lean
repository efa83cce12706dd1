import ChartParsing.Proofs.Cell.Slots
import ChartParsing.Proofs.Lockstep

/-!
# Slots that were touched

A dense store is emptied by resetting the slots it has taken note of. That empties it
only if it has taken note of every slot that is filled, and if what lies in the arrays
beside an unfilled slot is what was put there in the beginning: a slot passed over would
show up again under the next sentence, and so would a draw left in one.

Both hold of an empty store and are kept by every offer. So a store in use is emptied
to one that is equal to a new one, the symbols it lists are those of the filled slots,
by number, and offers do to it what they do to a plain row of slots.
-/

namespace ChartParsing

variable {S J : Type}

/-! ## Resetting some slots of an array -/

/-- The slots of the symbols reset, one after another. -/
def resetAll {α : Type} (blank : α) (slots : Array α) (syms : List Symbol) : Array α :=
  syms.foldl (fun slots sym => slots.setIfInBounds sym.index blank) slots

theorem getElem?_resetAll {α : Type} (blank : α) (slots : Array α) (syms : List Symbol) (i : Nat) :
    (resetAll blank slots syms)[i]? =
      if ∃ sym ∈ syms, sym.index = i then slots[i]?.map fun _ => blank else slots[i]? := by
  induction syms generalizing slots with
  | nil => simp [resetAll]
  | cons sym syms ih =>
    refine (ih _).trans ?_
    rw [Array.getElem?_setIfInBounds]
    by_cases hsym : sym.index = i
    · subst hsym
      rcases Nat.lt_or_ge sym.index slots.size with hlt | hge
      · simp [hlt]
      · simp [Nat.not_lt.mpr hge]
    · simp [hsym]

@[simp]
theorem size_resetAll {α : Type} (blank : α) (slots : Array α) (syms : List Symbol) :
    (resetAll blank slots syms).size = slots.size := by
  induction syms generalizing slots with
  | nil => rfl
  | cons sym syms ih => exact (ih _).trans Array.size_setIfInBounds

/-- Resetting every slot that is not blank makes the array a blank one. -/
theorem resetAll_eq_replicate {α : Type} {blank : α} {slots : Array α} {syms : List Symbol}
    (h : ∀ i, (¬ ∃ sym ∈ syms, sym.index = i) → ∀ x, slots[i]? = some x → x = blank) :
    resetAll blank slots syms = Array.replicate slots.size blank := by
  refine Array.ext_getElem? fun i => ?_
  rw [getElem?_resetAll, Array.getElem?_replicate]
  rcases Nat.lt_or_ge i slots.size with hlt | hge
  · rw [if_pos hlt, Array.getElem?_eq_getElem hlt, Option.map_some]
    split
    · rfl
    · rename_i hsym
      exact congrArg some (h i hsym _ (Array.getElem?_eq_getElem hlt))
  · rw [if_neg (Nat.not_lt.mpr hge), Array.getElem?_eq_none hge]
    simp

/-- Writing what is there already changes nothing. -/
theorem setIfInBounds_eq_self {α : Type} {slots : Array α} {i : Nat} {x : α}
    (h : slots[i]? = some x) : slots.setIfInBounds i x = slots := by
  refine Array.ext_getElem? fun j => ?_
  rw [Array.getElem?_setIfInBounds]
  split
  · rename_i hij
    rw [← hij, h, if_pos (Array.getElem?_eq_some_iff.mp h).1]
  · rfl

/-! ## Dense stores -/

namespace DenseStore

/-- The row of slots that a dense store is seen as. -/
def slots (s : DenseStore S) : Slots (Entry S) where
  row := s.scores.mapIdx fun i score? =>
    score?.map fun score => ⟨score, s.backPointers[i]?.getD .untracked⟩

@[simp]
theorem size_slots (s : DenseStore S) : s.slots.row.size = s.scores.size := Array.size_mapIdx

theorem getElem?_slots (s : DenseStore S) (i : Nat) :
    s.slots.row[i]? = s.scores[i]?.map fun score? =>
      score?.map fun score => ⟨score, s.backPointers[i]?.getD .untracked⟩ :=
  Array.getElem?_mapIdx

@[simp]
theorem find?_slots (s : DenseStore S) (sym : Symbol) : s.slots.find? sym = s.find? sym := by
  rw [Slots.find?, getElem?_slots, find?]
  cases s.scores[sym.index]? with
  | none => rfl
  | some score? => rfl

@[simp]
theorem slots_touch (s : DenseStore S) (sym : Symbol) : (s.touch sym).slots = s.slots := rfl

theorem slots_empty (size : Nat) : (empty size : DenseStore S).slots = .empty size := by
  refine congrArg Slots.mk (Array.ext_getElem? fun i => ?_)
  simp only [empty, Array.getElem?_mapIdx, Array.getElem?_replicate]
  split
  · rfl
  · rfl

/-- The store has taken note of the symbols whose slots are filled, of each of them once.
There is a back pointer for every score, and that of an unfilled slot is as it was made. No
score is undefined. -/
structure Tidy [Score S] (s : DenseStore S) : Prop where
  size_eq : s.backPointers.size = s.scores.size
  nodup : s.touched.toList.Nodup
  touched_iff : ∀ i : Nat, (∃ sym ∈ s.touched.toList, sym.index = i) ↔
    ∃ score, s.scores[i]? = some (some score)
  untracked : ∀ i : Nat, s.scores[i]? = some none → s.backPointers[i]? = some BackPointer.untracked
  defined : ∀ (i : Nat) score, s.scores[i]? = some (some score) → Score.isUndefined score = false

theorem tidy_empty [Score S] (size : Nat) : (empty size : DenseStore S).Tidy where
  size_eq := by simp [empty]
  nodup := by simp [empty]
  touched_iff i := by simp [empty, Array.getElem?_replicate]
  untracked i h := by
    simp only [empty, Array.getElem?_replicate] at h ⊢
    split at h
    · rename_i hlt
      rw [if_pos hlt]
    · cases h
  defined i score h := by
    simp only [empty, Array.getElem?_replicate] at h
    split at h
    · cases h
    · cases h

/-- A slot that was passed over is not filled. -/
theorem Tidy.eq_none_of_untouched [Score S] {s : DenseStore S} (h : s.Tidy) {i : Nat}
    (hi : ¬ ∃ sym ∈ s.touched.toList, sym.index = i) {score? : Option S}
    (hscore : s.scores[i]? = some score?) : score? = none := by
  cases score? with
  | none => rfl
  | some score => exact absurd ((h.touched_iff i).mpr ⟨score, hscore⟩) hi

/-- Arrays beside the scores that are blank where these are none are emptied as well. -/
theorem Tidy.resetAll_eq [Score S] {α : Type} {s : DenseStore S} (h : s.Tidy) {blank : α}
    {beside : Array α}
    (hsize : beside.size = s.scores.size)
    (hblank : ∀ i : Nat, s.scores[i]? = some none → beside[i]? = some blank) :
    resetAll blank beside s.touched.toList = Array.replicate s.scores.size blank := by
  rw [← hsize]
  refine resetAll_eq_replicate fun i hi x hx => ?_
  have hlt : i < s.scores.size := hsize ▸ (Array.getElem?_eq_some_iff.mp hx).1
  have hnone := Array.getElem?_eq_getElem hlt
  rw [h.eq_none_of_untouched hi hnone] at hnone
  exact Option.some.inj (hx.symm.trans (hblank i hnone))

/-- What the store holds is defined. -/
theorem Tidy.defined_of_find? [Score S] {s : DenseStore S} (h : s.Tidy) {sym : Symbol}
    {e : Entry S} (he : s.find? sym = some e) : Score.isUndefined e.score = false := by
  obtain ⟨score, hscore, rfl⟩ := Option.map_eq_some_iff.mp he
  exact h.defined sym.index score (Option.join_eq_some_iff.mp hscore)

theorem scores_foldl_wipe (syms : List Symbol) (s : DenseStore S) :
    (syms.foldl wipe s).scores = resetAll none s.scores syms := by
  induction syms generalizing s with
  | nil => rfl
  | cons sym syms ih => exact ih (s.wipe sym)

theorem backPointers_foldl_wipe (syms : List Symbol) (s : DenseStore S) :
    (syms.foldl wipe s).backPointers = resetAll .untracked s.backPointers syms := by
  induction syms generalizing s with
  | nil => rfl
  | cons sym syms ih => exact ih (s.wipe sym)

@[simp]
theorem size_clear (s : DenseStore S) : s.clear.scores.size = s.scores.size := by
  rw [clear, scores_foldl_wipe, size_resetAll]

/-- **Resetting the touched slots empties the store.** -/
theorem Tidy.clear_eq [Score S] {s : DenseStore S} (h : s.Tidy) :
    s.clear = empty s.scores.size := by
  rw [clear, scores_foldl_wipe, backPointers_foldl_wipe, h.resetAll_eq rfl fun _ => id,
    h.resetAll_eq h.size_eq h.untracked]
  rfl

/-- The emptied store is an empty row of slots. -/
theorem Tidy.slots_clear [Score S] {s : DenseStore S} (h : s.Tidy) :
    s.clear.slots = .empty s.slots.row.size := by
  rw [h.clear_eq, slots_empty, size_slots]

/-- **The symbols taken note of, sorted, are those of the filled slots.** -/
theorem Tidy.symbols_eq [Score S] {s : DenseStore S} (h : s.Tidy) :
    s.symbols = s.slots.symbols := by
  refine eq_of_increasing (pairwise_mergeSort h.nodup) s.slots.pairwise_symbols fun sym => ?_
  have hfind : (s.find? sym).isSome = true ↔ ∃ score, s.scores[sym.index]? = some (some score) := by
    rw [isSome_find?]
    cases s.scores[sym.index]? with
    | none => simp
    | some score? => cases score? <;> simp
  rw [symbols, List.mem_mergeSort, Slots.mem_symbols, find?_slots, hfind, ← h.touched_iff]
  refine ⟨fun hmem => ⟨sym, hmem, rfl⟩, ?_⟩
  rintro ⟨other, hmem, heq⟩
  exact Symbol.index_inj.mp heq ▸ hmem

/-! ### Writing to a slot -/

section

variable {s : DenseStore S} {sym : Symbol} {i : Nat}

theorem scores_write (h : sym.index < s.scores.size) (e : Entry S) :
    (s.write sym e).scores[i]? = if sym.index = i then some (some e.score) else s.scores[i]? := by
  simp only [write, Array.getElem?_setIfInBounds, h, if_true]

theorem backPointers_write (h : sym.index < s.backPointers.size) (e : Entry S) :
    (s.write sym e).backPointers[i]? =
      if sym.index = i then some e.backPointer else s.backPointers[i]? := by
  simp only [write, Array.getElem?_setIfInBounds, h, if_true]

/-- Writing to the store is writing to its row of slots. -/
theorem Tidy.slots_write [Score S] (htidy : s.Tidy) (h : sym.index < s.scores.size) (e : Entry S) :
    (s.write sym e).slots = s.slots.write sym e := by
  refine congrArg Slots.mk (Array.ext_getElem? fun i => ?_)
  refine (getElem?_slots _ i).trans ?_
  rw [scores_write h, backPointers_write (htidy.size_eq ▸ h), Array.getElem?_setIfInBounds,
    size_slots, if_pos h, getElem?_slots]
  split
  · rfl
  · rfl

/-- What is beside an unfilled slot stays as it is if the slot of a symbol is filled. -/
theorem open_of_write (h : sym.index < s.scores.size) {e : Entry S}
    (hnone : (s.write sym e).scores[i]? = some none) :
    sym.index ≠ i ∧ s.scores[i]? = some none := by
  rw [scores_write h] at hnone
  split at hnone
  · cases hnone
  · exact ⟨by assumption, hnone⟩

/-- A defined score that is written leaves all scores defined. -/
theorem Tidy.defined_write [Score S] (htidy : s.Tidy) (hlt : sym.index < s.scores.size)
    {e : Entry S} (hdefined : Score.isUndefined e.score = false) :
    ∀ (i : Nat) score, (s.write sym e).scores[i]? = some (some score) →
      Score.isUndefined score = false := by
  intro i score hscore
  rw [scores_write hlt] at hscore
  split at hscore
  · cases hscore
    exact hdefined
  · exact htidy.defined i score hscore

/-- Writing a defined score over another keeps the store tidy. -/
theorem Tidy.write [Score S] (htidy : s.Tidy) {score : S}
    (hfilled : s.scores[sym.index]? = some (some score)) {e : Entry S}
    (hdefined : Score.isUndefined e.score = false) : (s.write sym e).Tidy := by
  have hlt : sym.index < s.scores.size := (Array.getElem?_eq_some_iff.mp hfilled).1
  refine ⟨by simp [DenseStore.write, htidy.size_eq], htidy.nodup, fun i => ?_, fun i hnone => ?_,
    htidy.defined_write hlt hdefined⟩
  · refine (htidy.touched_iff i).trans ?_
    rw [scores_write hlt]
    split
    · rename_i hi
      rw [← hi, hfilled]
      exact ⟨fun _ => ⟨_, rfl⟩, fun _ => ⟨_, rfl⟩⟩
    · rfl
  · obtain ⟨hi, hold⟩ := open_of_write hlt hnone
    rw [backPointers_write (htidy.size_eq ▸ hlt), if_neg hi, htidy.untracked i hold]

/-- Filling a slot and taking note of it keeps the store tidy. -/
theorem Tidy.write_touch [Score S] (htidy : s.Tidy) (hopen : s.scores[sym.index]? = some none)
    {e : Entry S} (hdefined : Score.isUndefined e.score = false) :
    ((s.write sym e).touch sym).Tidy := by
  have hlt : sym.index < s.scores.size := (Array.getElem?_eq_some_iff.mp hopen).1
  -- the slot was open, so the symbol is none of those taken note of
  have hnew : sym ∉ s.touched.toList := by
    intro hmem
    obtain ⟨score, hscore⟩ := (htidy.touched_iff sym.index).mp ⟨sym, hmem, rfl⟩
    cases hopen.symm.trans hscore
  have htouched : ((s.write sym e).touch sym).touched.toList = s.touched.toList ++ [sym] :=
    Array.toList_push
  refine ⟨by simp [DenseStore.write, touch, htidy.size_eq], ?_, fun i => ?_, fun i hnone => ?_,
    htidy.defined_write hlt hdefined⟩
  · rw [htouched, List.nodup_append]
    refine ⟨htidy.nodup, by simp, fun a ha b hb heq => hnew ?_⟩
    rw [← List.mem_singleton.mp hb, ← heq]
    exact ha
  · have hscore : ((s.write sym e).touch sym).scores[i]? =
        if sym.index = i then some (some e.score) else s.scores[i]? := scores_write hlt e
    rw [htouched, hscore]
    split
    · rename_i hi
      exact ⟨fun _ => ⟨_, rfl⟩, fun _ => ⟨sym, by simp, hi⟩⟩
    · rename_i hi
      rw [← htidy.touched_iff]
      simp [or_and_right, exists_or, hi]
  · obtain ⟨hi, hold⟩ := open_of_write hlt hnone
    exact (backPointers_write (htidy.size_eq ▸ hlt) e).trans
      ((if_neg hi).trans (htidy.untracked i hold))

end

/-- **An offer does to a dense store what it does to its row of slots.** -/
theorem Tidy.offer [Score S] {s : DenseStore S} (h : s.Tidy) (aggregation : Aggregation)
    (o : Offer S) :
    Matched (fun _ => False) (fun t row => t.Tidy ∧ t.slots = row) (s.offer aggregation o)
      (s.slots.offer aggregation o) := by
  cases hslot : s.scores[o.rule.parent.index]? with
  | none =>
    rw [DenseStore.offer, Slots.offer, getElem?_slots, hslot]
    exact .error _
  | some score? =>
    have hlt : o.rule.parent.index < s.scores.size := (Array.getElem?_eq_some_iff.mp hslot).1
    rw [Slots.offer_eq (by rw [size_slots]; exact hlt), find?_slots]
    cases score? with
    | none =>
      have hnone : s.find? o.rule.parent = none := by
        rw [find?, hslot]
        rfl
      rw [hnone, Offer.merge_none]
      simp only [DenseStore.offer, hslot, put]
      split
      · exact .error _
      · rename_i hdefined
        exact .ok ⟨h.write_touch hslot (Bool.eq_false_iff.mpr hdefined), h.slots_write hlt _⟩
    | some score =>
      simp only [DenseStore.offer, hslot, put]
      split
      · exact .error _
      · rename_i hdefined
        exact .ok ⟨h.write hslot (Bool.eq_false_iff.mpr hdefined), h.slots_write hlt _⟩

section

variable [Score S] {s : DenseStore S} {aggregation : Aggregation} {o : Offer S}

/-- An offer that is taken concerns the symbol of its rule's parent alone, and leaves its
entry merged. -/
theorem Tidy.offer_ok {t : DenseStore S} (h : s.Tidy) (hoff : s.offer aggregation o = .ok t) :
    t.Tidy ∧ t.scores.size = s.scores.size ∧
      ∀ sym, t.find? sym =
        if o.rule.parent = sym then some (o.merge aggregation (s.find? sym)) else s.find? sym := by
  have hmatched := h.offer aggregation o
  rw [hoff] at hmatched
  obtain ⟨row, hrow, htidy, rfl⟩ := hmatched.of_ok
  obtain ⟨hlt, heq⟩ := Slots.offer_ok hrow
  refine ⟨htidy, ?_, fun sym => ?_⟩
  · rw [← size_slots, heq, Slots.size_write, size_slots]
  · rw [← find?_slots, heq, Slots.find?_write hlt, find?_slots, find?_slots]
    split
    · rename_i hsym
      rw [hsym]
    · rfl

/-- A store with a slot for the parent takes an offer unless the merged score is
undefined. -/
theorem Tidy.offer_of_lt (h : s.Tidy) (aggregation : Aggregation)
    (hlt : o.rule.parent.index < s.scores.size) :
    if Score.isUndefined (o.merge aggregation (s.find? o.rule.parent)).score then
      s.offer aggregation o = .error .undefinedScore
    else ∃ t, s.offer aggregation o = .ok t := by
  have hmatched := h.offer aggregation o
  rw [Slots.offer_eq (by rw [size_slots]; exact hlt), find?_slots] at hmatched
  split
  · rename_i hundef
    rw [if_pos hundef] at hmatched
    generalize s.offer aggregation o = result at hmatched
    cases hmatched with
    | error _ => rfl
    | stop hstop => exact hstop.elim
  · rename_i hdefined
    rw [if_neg hdefined] at hmatched
    generalize s.offer aggregation o = result at hmatched
    cases hmatched with
    | ok _ => exact ⟨_, rfl⟩
    | stop hstop => exact hstop.elim

end

/-- Writing the entry that a store has already changes nothing. -/
theorem Tidy.write_eq_self [Score S] {s : DenseStore S} (h : s.Tidy) {sym : Symbol} {e : Entry S}
    (he : s.find? sym = some e) : s.write sym e = s := by
  unfold find? at he
  cases hslot : s.scores[sym.index]? with
  | none =>
    rw [hslot] at he
    cases he
  | some score? =>
  cases score? with
  | none =>
    rw [hslot] at he
    cases he
  | some score =>
    have hlt : sym.index < s.backPointers.size :=
      h.size_eq ▸ (Array.getElem?_eq_some_iff.mp hslot).1
    rw [hslot, Array.getElem?_eq_getElem hlt] at he
    cases he
    simp only [DenseStore.write, setIfInBounds_eq_self hslot, Option.getD_some,
      setIfInBounds_eq_self (Array.getElem?_eq_getElem hlt)]

end DenseStore

/-! ## Stores with ties -/

namespace TieStore

/-- The row of seats that a store with ties is seen as. -/
def seats (s : TieStore S) : Slots (Incumbent S) where
  row := s.best.slots.row.mapIdx fun i entry? => entry?.map fun entry => ⟨entry, s.jitter[i]?.join⟩

@[simp]
theorem size_seats (s : TieStore S) : s.seats.row.size = s.best.scores.size := by
  simp [seats]

theorem getElem?_seats (s : TieStore S) (i : Nat) :
    s.seats.row[i]? = s.best.slots.row[i]?.map fun entry? =>
      entry?.map fun entry => ⟨entry, s.jitter[i]?.join⟩ :=
  Array.getElem?_mapIdx

@[simp]
theorem find?_seats (s : TieStore S) (sym : Symbol) : s.seats.find? sym = s.incumbent? sym := by
  rw [Slots.find?, getElem?_seats, incumbent?, find?, ← DenseStore.find?_slots, Slots.find?]
  cases s.best.slots.row[sym.index]? with
  | none => rfl
  | some entry? => rfl

theorem seats_empty (size : Nat) : (empty size : TieStore S).seats = .empty size := by
  refine congrArg Slots.mk (Array.ext_getElem? fun i => ?_)
  refine (getElem?_seats _ i).trans ?_
  rw [show (empty size : TieStore S).best.slots = .empty size from DenseStore.slots_empty size]
  simp only [Slots.empty, Array.getElem?_replicate]
  split
  · rfl
  · rfl

/-- The best derivations are a tidy store. There is room for a draw beside every score,
and none is left where there is no score. -/
structure Tidy [Score S] (s : TieStore S) : Prop where
  best : s.best.Tidy
  size_eq : s.jitter.size = s.best.scores.size
  undrawn : ∀ i : Nat, s.best.scores[i]? = some none → s.jitter[i]? = some none

theorem tidy_empty [Score S] (size : Nat) : (empty size : TieStore S).Tidy where
  best := DenseStore.tidy_empty size
  size_eq := by simp [empty, DenseStore.empty]
  undrawn i h := by
    simp only [empty, DenseStore.empty, Array.getElem?_replicate] at h ⊢
    split at h
    · rename_i hlt
      rw [if_pos hlt]
    · cases h

theorem best_foldl_wipe (syms : List Symbol) (s : TieStore S) :
    (syms.foldl wipe s).best = syms.foldl DenseStore.wipe s.best := by
  induction syms generalizing s with
  | nil => rfl
  | cons sym syms ih => exact ih (s.wipe sym)

theorem jitter_foldl_wipe (syms : List Symbol) (s : TieStore S) :
    (syms.foldl wipe s).jitter = resetAll none s.jitter syms := by
  induction syms generalizing s with
  | nil => rfl
  | cons sym syms ih => exact ih (s.wipe sym)

@[simp]
theorem size_clear (s : TieStore S) : s.clear.best.scores.size = s.best.scores.size := by
  rw [clear, best_foldl_wipe, DenseStore.scores_foldl_wipe, size_resetAll]

/-- **Resetting the touched slots empties the store**, draws included. -/
theorem Tidy.clear_eq [Score S] {s : TieStore S} (h : s.Tidy) :
    s.clear = empty s.best.scores.size := by
  have hbest : s.clear.best = .empty s.best.scores.size := by
    rw [← h.best.clear_eq, clear, best_foldl_wipe]
    rfl
  have hjitter : s.clear.jitter = Array.replicate s.best.scores.size none := by
    rw [← h.best.resetAll_eq h.size_eq h.undrawn]
    exact jitter_foldl_wipe _ s
  calc s.clear = ⟨s.clear.best, s.clear.jitter⟩ := rfl
    _ = empty s.best.scores.size := by rw [hbest, hjitter]; rfl

/-- The emptied store is an empty row of seats. -/
theorem Tidy.seats_clear [Score S] {s : TieStore S} (h : s.Tidy) :
    s.clear.seats = .empty s.seats.row.size := by
  rw [h.clear_eq, seats_empty, size_seats]

/-! ### Seating -/

/-- The store with an incumbent seated for a symbol. -/
def seat (s : TieStore S) (sym : Symbol) (i : Incumbent S) : TieStore S :=
  ⟨s.best.write sym i.entry, s.jitter.setIfInBounds sym.index i.jitter⟩

section

variable [Score S] {s : TieStore S} {sym : Symbol}

/-- Seating an incumbent is writing it to the row of seats. -/
theorem Tidy.seats_seat (h : s.Tidy) (hlt : sym.index < s.best.scores.size) (i : Incumbent S) :
    (s.seat sym i).seats = s.seats.write sym i := by
  refine congrArg Slots.mk (Array.ext_getElem? fun j => ?_)
  refine (getElem?_seats _ j).trans ?_
  rw [show (s.seat sym i).best.slots = s.best.slots.write sym i.entry from
      h.best.slots_write hlt i.entry,
    Array.getElem?_setIfInBounds, size_seats, if_pos hlt, getElem?_seats]
  simp only [seat, Slots.write, Array.getElem?_setIfInBounds, DenseStore.size_slots, h.size_eq, hlt,
    if_true]
  split
  · rfl
  · rfl

/-- Seating keeps the draws in order. -/
theorem Tidy.jitter_seat (h : s.Tidy) (hlt : sym.index < s.best.scores.size) (i : Incumbent S) :
    (s.seat sym i).jitter.size = (s.seat sym i).best.scores.size ∧
      ∀ j : Nat, (s.seat sym i).best.scores[j]? = some none →
        (s.seat sym i).jitter[j]? = some none := by
  refine ⟨by simp [seat, DenseStore.write, h.size_eq], fun j hnone => ?_⟩
  obtain ⟨hj, hold⟩ := DenseStore.open_of_write hlt hnone
  exact (Array.getElem?_setIfInBounds_ne hj).trans (h.undrawn j hold)

/-- Unseating an incumbent keeps the store tidy. -/
theorem Tidy.seat (h : s.Tidy) {score : S}
    (hfilled : s.best.scores[sym.index]? = some (some score)) {i : Incumbent S}
    (hdefined : Score.isUndefined i.entry.score = false) : (s.seat sym i).Tidy := by
  have hlt : sym.index < s.best.scores.size := (Array.getElem?_eq_some_iff.mp hfilled).1
  obtain ⟨hsize, hundrawn⟩ := h.jitter_seat hlt i
  exact ⟨h.best.write hfilled hdefined, hsize, hundrawn⟩

/-- Taking a seat that is empty, and taking note of it, keeps the store tidy. -/
theorem Tidy.seat_touch (h : s.Tidy) (hopen : s.best.scores[sym.index]? = some none)
    {i : Incumbent S} (hdefined : Score.isUndefined i.entry.score = false) :
    ({ s.seat sym i with best := (s.seat sym i).best.touch sym } : TieStore S).Tidy := by
  have hlt : sym.index < s.best.scores.size := (Array.getElem?_eq_some_iff.mp hopen).1
  obtain ⟨hsize, hundrawn⟩ := h.jitter_seat hlt i
  exact ⟨h.best.write_touch hopen hdefined, hsize, hundrawn⟩

end

/-- The entry of a symbol is that of its incumbent. -/
theorem find?_eq (s : TieStore S) (sym : Symbol) :
    s.find? sym = (s.incumbent? sym).map (·.entry) := by
  rw [incumbent?, Option.map_map]
  exact Option.map_id'.symm

/-- The draw of a symbol is that of its incumbent: none is left behind. -/
theorem Tidy.jitter?_eq [Score S] {s : TieStore S} (h : s.Tidy) (sym : Symbol) :
    s.jitter? sym = (s.incumbent? sym).bind (·.jitter) := by
  rw [incumbent?, find?, DenseStore.find?, jitter?]
  cases hslot : s.best.scores[sym.index]? with
  | none =>
    rw [Array.getElem?_eq_none (h.size_eq ▸ Array.getElem?_eq_none_iff.mp hslot)]
    rfl
  | some score? =>
  cases score? with
  | none =>
    rw [h.undrawn _ hslot]
    rfl
  | some score => rfl

variable [Score S] [JitterSource J] {s : TieStore S} {o : Offer S}

omit [JitterSource J] in
theorem replace_eq (s : TieStore S) (o : Offer S) :
    s.replace o =
      if Score.isUndefined o.score then .error .undefinedScore
      else .ok { s with best := s.best.write o.rule.parent (o.entry .viterbi) } := by
  unfold replace DenseStore.put
  by_cases hundef : Score.isUndefined o.score = true
  · rw [if_pos hundef, if_pos (show Score.isUndefined (o.entry .viterbi).score = true from hundef)]
    rfl
  · rw [if_neg hundef,
      if_neg (show ¬ Score.isUndefined (o.entry .viterbi).score = true from hundef)]
    rfl

/-- The first offer of a symbol takes its seat, which has no draw left in it. -/
theorem Tidy.offer_open (h : s.Tidy) (hopen : s.best.scores[o.rule.parent.index]? = some none)
    (source : J) :
    s.offer o source =
      if Score.isUndefined o.score then .error .undefinedScore
      else
        let t := s.seat o.rule.parent ⟨o.entry .viterbi, none⟩
        .ok ({ t with best := t.best.touch o.rule.parent }, source) := by
  have hjitter := setIfInBounds_eq_self (h.undrawn _ hopen)
  simp only [offer, hopen, replace_eq, TieStore.seat, hjitter]
  split
  · rfl
  · rfl

/-- Any other offer challenges the incumbent. -/
theorem Tidy.offer_filled (h : s.Tidy) {score : S}
    (hfilled : s.best.scores[o.rule.parent.index]? = some (some score)) {i : Incumbent S}
    (hi : s.incumbent? o.rule.parent = some i) (source : J) :
    s.offer o source =
      if Score.isUndefined (o.challenge source (some i)).1.entry.score then .error .undefinedScore
      else .ok (s.seat o.rule.parent (o.challenge source (some i)).1,
        (o.challenge source (some i)).2) := by
  obtain ⟨e, he, rfl⟩ := Option.map_eq_some_iff.mp hi
  have hself := h.best.write_eq_self he
  have hscore : e.score = score := by
    rw [find?, DenseStore.find?, hfilled] at he
    cases he
    rfl
  have hdefined : Score.isUndefined e.score = false := hscore ▸ h.best.defined _ _ hfilled
  have hlt : o.rule.parent.index < s.jitter.size :=
    h.size_eq ▸ (Array.getElem?_eq_some_iff.mp hfilled).1
  have hkept : s.jitter.setIfInBounds o.rule.parent.index (s.jitter? o.rule.parent) = s.jitter := by
    refine setIfInBounds_eq_self ?_
    rw [jitter?, Array.getElem?_eq_getElem hlt]
    rfl
  simp only [offer, hfilled, Offer.challenge, Incumbent.contest, replace_eq, ← hscore]
  by_cases hclear : Score.clearlyExceeds o.score e.score = true
  · simp only [hclear, if_true]
    by_cases hundef : Score.isUndefined o.score = true
    · rw [if_pos hundef]
      exact (if_pos hundef).symm
    · rw [if_neg hundef]
      exact (if_neg hundef).symm
  by_cases hties : Score.ties o.score e.score = true
  case neg =>
    -- the incumbent keeps its seat and its draw
    simp only [hclear, hties, if_false, hdefined, Bool.false_eq_true, TieStore.seat, hself, hkept]
  simp only [hclear, hties, if_true, if_false, Bool.false_eq_true]
  by_cases hattack : (JitterSource.drawOnce (s.jitter? o.rule.parent) source).1 <
      (JitterSource.draw (JitterSource.drawOnce (s.jitter? o.rule.parent) source).2).1
  · simp only [hattack, if_true]
    by_cases hundef : Score.isUndefined o.score = true
    · rw [if_pos hundef]
      exact (if_pos hundef).symm
    · rw [if_neg hundef]
      refine Eq.trans ?_ (if_neg hundef).symm
      -- the draw of the incumbent was written first
      simp only [setJitter, TieStore.seat, bind, Except.bind, pure, Except.pure,
        Array.setIfInBounds_setIfInBounds]
  · simp only [hattack, if_false, hdefined, Bool.false_eq_true, TieStore.seat, hself]
    rfl

/-- **An offer to a store with ties is a contest for a seat.** -/
theorem Tidy.offer (h : s.Tidy) (o : Offer S) (source : J) :
    Matched (fun _ => False) (fun a b => a.1.Tidy ∧ a.1.seats = b.1 ∧ a.2 = b.2)
      (s.offer o source) (s.seats.contest o source) := by
  cases hslot : s.best.scores[o.rule.parent.index]? with
  | none =>
    rw [TieStore.offer, Slots.contest, getElem?_seats, DenseStore.getElem?_slots, hslot]
    exact .error _
  | some score? =>
    have hlt : o.rule.parent.index < s.best.scores.size := (Array.getElem?_eq_some_iff.mp hslot).1
    rw [Slots.contest_eq (by rw [size_seats]; exact hlt), find?_seats]
    cases score? with
    | none =>
      have hnone : s.incumbent? o.rule.parent = none := by
        rw [incumbent?, find?, DenseStore.find?, hslot]
        rfl
      rw [h.offer_open hslot, hnone]
      have hchallenge : Score.isUndefined (o.challenge source none).1.entry.score =
          Score.isUndefined o.score := rfl
      rw [hchallenge]
      split
      · exact .error _
      · rename_i hdefined
        exact .ok ⟨h.seat_touch hslot (Bool.eq_false_iff.mpr hdefined), h.seats_seat hlt _, rfl⟩
    | some score =>
      have hsome : ∃ i, s.incumbent? o.rule.parent = some i := by
        rw [incumbent?, find?, DenseStore.find?, hslot]
        exact ⟨_, rfl⟩
      obtain ⟨i, hi⟩ := hsome
      rw [h.offer_filled hslot hi, hi]
      split
      · exact .error _
      · rename_i hdefined
        exact .ok ⟨h.seat hslot (Bool.eq_false_iff.mpr hdefined), h.seats_seat hlt _, rfl⟩

/-- An offer that is taken concerns the symbol of its rule's parent alone, and challenges
its incumbent. -/
theorem Tidy.offer_ok {t : TieStore S} {source source' : J} (h : s.Tidy)
    (hoff : s.offer o source = .ok (t, source')) :
    t.Tidy ∧ t.best.scores.size = s.best.scores.size ∧
      source' = (o.challenge source (s.incumbent? o.rule.parent)).2 ∧
      ∀ sym, t.incumbent? sym =
        if o.rule.parent = sym then some (o.challenge source (s.incumbent? sym)).1
        else s.incumbent? sym := by
  have hmatched := h.offer o source
  rw [hoff] at hmatched
  obtain ⟨⟨row, source₁⟩, hrow, htidy, hseats, hsource⟩ := hmatched.of_ok
  obtain ⟨hlt, heq, hdrawn⟩ := Slots.contest_ok hrow
  rw [find?_seats] at heq hdrawn
  simp only at hseats hsource
  refine ⟨htidy, ?_, hsource.trans hdrawn, fun sym => ?_⟩
  · rw [← size_seats, hseats, heq, Slots.size_write, size_seats]
  · rw [← find?_seats, hseats, heq, Slots.find?_write hlt, find?_seats]
    split
    · rename_i hsym
      rw [hsym]
    · rfl

/-- A store with a seat for the parent refuses an offer only for its own score. -/
theorem Tidy.offer_error {source : J} {fault : Fault} (h : s.Tidy)
    (hoff : s.offer o source = .error fault) (hlt : o.rule.parent.index < s.best.scores.size) :
    fault = .undefinedScore ∧ Score.isUndefined o.score = true := by
  cases hslot : s.best.scores[o.rule.parent.index]? with
  | none => exact absurd hlt (Nat.not_lt.mpr (Array.getElem?_eq_none_iff.mp hslot))
  | some score? =>
  cases score? with
  | none =>
    rw [h.offer_open hslot] at hoff
    split at hoff
    · rename_i hundef
      cases hoff
      exact ⟨rfl, hundef⟩
    · cases hoff
  | some score =>
    have hsome : s.incumbent? o.rule.parent =
        some ⟨⟨score, s.best.backPointers[o.rule.parent.index]?.getD .untracked⟩,
          s.jitter? o.rule.parent⟩ := by
      rw [incumbent?, find?, DenseStore.find?, hslot]
      rfl
    rw [h.offer_filled hslot hsome] at hoff
    split at hoff
    · rename_i hundef
      cases hoff
      refine ⟨rfl, ?_⟩
      -- whoever holds the seat has the score of the offer or the one before, which is defined
      rcases o.challenge_entry source _ with hentry | hentry
      · rw [hentry] at hundef
        exact hundef
      · rw [hentry, h.best.defined _ _ hslot] at hundef
        cases hundef
    · cases hoff

end TieStore

end ChartParsing
