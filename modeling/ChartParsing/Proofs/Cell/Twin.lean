import ChartParsing.Proofs.Cell.Store
import ChartParsing.Proofs.Lockstep
import Mathlib.Data.List.Sort

/-!
# Cells in step

All that parsing asks of a cell is how it aggregates, what it holds of a symbol
and, once it is closed, which symbols are present. Two cells that agree on this are
twins if they go on agreeing whatever they are offered. A cell is its own twin, and
a dense cell is a twin of any cell without ties, save that the dense one refuses
undefined scores.
-/

namespace ChartParsing

variable {S J : Type}

/-- What can be read of a cell, draws aside. -/
structure Reading (S : Type) where
  aggregation : Aggregation
  find? : Symbol → Option (Entry S)
  present : Option (List Symbol)

namespace Cell

/-- What can be read of the cell. -/
def reading (c : Cell S) : Reading S := ⟨c.aggregation, c.find?, c.present⟩

theorem reading_eq {c d : Cell S} (hagg : c.aggregation = d.aggregation)
    (hfind : ∀ sym, c.find? sym = d.find? sym) (hpresent : c.present = d.present) :
    c.reading = d.reading := by
  rw [reading, reading, hagg, hpresent, funext hfind]

section

variable {c d : Cell S} (h : c.reading = d.reading)

include h

theorem find?_congr (sym : Symbol) : c.find? sym = d.find? sym :=
  congrFun (congrArg Reading.find? h) sym

theorem contains_congr (sym : Symbol) : c.contains sym = d.contains sym := by
  rw [contains, contains, find?_congr h]

theorem backPointer?_congr (sym : Symbol) : c.backPointer? sym = d.backPointer? sym := by
  rw [backPointer?, backPointer?, find?_congr h]

theorem score_congr [Score S] (sym : Symbol) : c.score sym = d.score sym := by
  rw [score, score, find?_congr h, show c.aggregation = d.aggregation from
    congrArg Reading.aggregation h]

theorem symbols_congr : c.symbols = d.symbols := by
  rw [symbols, symbols, show c.present = d.present from congrArg Reading.present h]

theorem isClosed_congr : c.isClosed = d.isClosed := by
  rw [isClosed, isClosed, show c.present = d.present from congrArg Reading.present h]

end

end Cell

namespace CellStore

variable [Score S]

/-- Which symbols a store has, and in which order, follows from what it holds. -/
theorem Tidy.symbols_congr {s t : CellStore S} (hs : s.Tidy) (ht : t.Tidy)
    (h : s.find? = t.find?) : s.symbols = t.symbols :=
  eq_of_increasing hs.pairwise_symbols ht.pairwise_symbols fun sym => by
    rw [hs.mem_symbols, ht.mem_symbols, h]

variable [JitterSource J]

/-- A store without ties takes every offer, a dense one if and only if the merged score
is defined. -/
theorem offer_plain {type : CellType} (htype : type ≠ .tieBreaking) (aggregation : Aggregation)
    {o : Offer S} {s : CellStore S} {size : Nat} (htidy : s.Tidy)
    (hsize : s.clear = .empty size type) (hlt : o.rule.parent.index < size) (source : J) :
    if type = .full ∧
        Score.isUndefined (o.merge aggregation (s.find? o.rule.parent)).score = true then
      s.offer aggregation o source = .error .undefinedScore
    else ∃ t, s.offer aggregation o source = .ok (t, source) := by
  cases s with
  | full store =>
    obtain ⟨rfl, hslots⟩ := size_of_clear_full hsize
    have htaken := DenseStore.Tidy.offer_of_lt htidy aggregation (hslots ▸ hlt)
    simp only [true_and, find?]
    split
    · rename_i hundef
      rw [if_pos hundef] at htaken
      simp only [offer, htaken]
      rfl
    · rename_i hdefined
      rw [if_neg hdefined] at htaken
      obtain ⟨t, ht⟩ := htaken
      exact ⟨.full t, by simp only [offer, ht]; rfl⟩
  | hashed store =>
    cases type <;> simp [clear, empty] at hsize
    exact ⟨_, rfl⟩
  | doubleHashed store =>
    cases type <;> simp [clear, empty] at hsize
    exact ⟨_, rfl⟩
  | tieBreaking store => exact absurd (size_of_clear_tieBreaking hsize).1 htype

end CellStore

/-! ## Twins -/

/-- A relation between cells that read alike, kept by closing them and by offering
them the same. Only the first of two cells may refuse an offer for a fault among
`stops`. -/
structure Twinning (S J : Type) [Score S] [JitterSource J] (size : Nat) (stops : Fault → Prop) where
  Twins : Cell S → Cell S → Prop
  reading_eq : ∀ {c d : Cell S}, Twins c d → c.reading = d.reading
  close : ∀ {c d : Cell S}, Twins c d → Twins c.close d.close
  offer : ∀ {c d : Cell S} {o : Offer S}, Twins c d → o.rule.parent.index < size → ∀ source : J,
    Matched stops (fun a b => Twins a.1 b.1 ∧ a.2 = b.2) (c.offer o source) (d.offer o source)

namespace Twinning

variable [Score S] [JitterSource J]

/-- A cell is its own twin. -/
def same (size : Nat) : Twinning S J size fun _ => False where
  Twins c d := c = d
  reading_eq h := by rw [h]
  close h := by rw [h]
  offer h _ source := by
    subst h
    refine Matched.imp (.refl _) ?_
    intro a b heq
    subst heq
    exact ⟨rfl, rfl⟩

/-- The first cell is dense, the second of any type without ties, and they read
alike. -/
structure Plain (size : Nat) (c d : Cell S) : Prop where
  reading_eq : c.reading = d.reading
  full : c.store.clear = .empty size .full
  tidy_full : c.store.Tidy
  tidy : d.store.Tidy
  plain : ∃ type, type ≠ .tieBreaking ∧ d.store.clear = .empty size type

theorem Plain.not_breaksTies {size : Nat} {c d : Cell S} (h : Plain size c d) :
    ¬ c.store.BreaksTies ∧ ¬ d.store.BreaksTies := by
  obtain ⟨type, htype, hclear⟩ := h.plain
  refine ⟨fun hc => ?_, fun hd => htype ((CellStore.breaksTies_iff hclear).mp hd)⟩
  exact absurd ((CellStore.breaksTies_iff h.full).mp hc) (by decide)

/-- What a dense cell holds after an offer, a cell without ties holds as well. -/
theorem Plain.offer {size : Nat} {c d : Cell S} {o : Offer S} (h : Plain size c d)
    (hlt : o.rule.parent.index < size) (source : J) :
    Matched (· = .undefinedScore) (fun a b => Plain size a.1 b.1 ∧ a.2 = b.2) (c.offer o source)
      (d.offer o source) := by
  obtain ⟨type, htype, hclear⟩ := h.plain
  obtain ⟨hc, hd⟩ := h.not_breaksTies
  have hagg : c.aggregation = d.aggregation := congrArg Reading.aggregation h.reading_eq
  have hfind : ∀ sym, c.store.find? sym = d.store.find? sym := Cell.find?_congr h.reading_eq
  unfold Cell.offer
  rw [Cell.isClosed_congr h.reading_eq]
  split
  · exact .error _
  have hdense := CellStore.offer_plain (by decide) c.aggregation h.tidy_full h.full
    hlt source
  have hplain := CellStore.offer_plain htype d.aggregation h.tidy hclear hlt source
  split at hdense
  case isTrue =>
    rw [hdense]
    exact .stop rfl
  rename_i hdefined
  obtain ⟨s, hs⟩ := hdense
  rw [hagg, hfind] at hdefined
  rw [if_neg fun hundef => hdefined ⟨rfl, hundef.2⟩] at hplain
  obtain ⟨t, ht⟩ := hplain
  rw [hs, ht]
  obtain ⟨htidy₁, hclear₁, hexact₁, _⟩ := CellStore.offer_ok hs h.tidy_full
  obtain ⟨htidy₂, hclear₂, hexact₂, _⟩ := CellStore.offer_ok ht h.tidy
  refine .ok ⟨⟨?_, hclear₁.trans h.full, htidy₁, htidy₂, type, htype, hclear₂.trans hclear⟩, rfl⟩
  -- both hold the merged entry of the parent, and of others what they held before
  have hfind' : ∀ sym, s.find? sym = t.find? sym := by
    intro sym
    rw [hexact₁ hc, hexact₂ hd, hagg, hfind]
  exact Cell.reading_eq hagg hfind' (congrArg Reading.present h.reading_eq)

/-- A dense cell is a twin of any cell without ties that reads alike. -/
def plain (size : Nat) : Twinning S J size (· = .undefinedScore) where
  Twins := Plain size
  reading_eq h := h.reading_eq
  close {c d} h := by
    refine ⟨?_, h.full, h.tidy_full, h.tidy, h.plain⟩
    have hagg : c.aggregation = d.aggregation := congrArg Reading.aggregation h.reading_eq
    have hfind : c.store.find? = d.store.find? := congrArg Reading.find? h.reading_eq
    exact Cell.reading_eq hagg (congrFun hfind)
      (congrArg some (h.tidy_full.symbols_congr h.tidy hfind))
  offer h hlt source := h.offer hlt source

/-- Empty cells are twins. -/
theorem plain_empty {type : CellType} (htype : type ≠ .tieBreaking) (aggregation : Aggregation)
    (size : Nat) :
    (plain size : Twinning S J size _).Twins (.empty .full aggregation size)
      (.empty type aggregation size) := by
  refine ⟨?_, CellStore.clear_empty size .full, CellStore.tidy_empty size .full,
    CellStore.tidy_empty size type, type, htype, CellStore.clear_empty size type⟩
  refine Cell.reading_eq rfl ?_ rfl
  intro sym
  exact (CellStore.find?_empty size .full sym).trans (CellStore.find?_empty size type sym).symm

end Twinning

end ChartParsing
