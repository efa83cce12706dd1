import ChartParsing.Constraint.BitMatrix
import ChartParsing.Proofs.Constraint.BitStorage
import ChartParsing.Proofs.Outcome
import Mathlib.Data.Nat.Basic
import Mathlib.Order.Interval.Set.Basic

/-!
# Which spans are forbidden

A bracketing is made for a length, and from then on it is told sentences and forbids
spans. Its matrix is square, and stays so as it grows. As long as the spans to be
forbidden lie within the matrix of the time, the forbidden ones are those that were
asked for and those that cross a bracket, however often room was made for more.

Nothing checks that a span lies within the matrix. One that ends past the side of it
is written to a place that belongs to another span, or to none.
-/

namespace ChartParsing.Bracketing

open BitStorage

variable {M : Type} [BitStorage M] {b b' : Bracketing M} {maxLength start stop : Nat}
  {brackets : List (Nat × Nat)}

/-! ## Calls -/

/-- What a bracketing is asked to do. -/
inductive Call where
  | announce (sentence : List Symbol)
  | forbid (start stop : Nat)

/-- The bracketing after a call. -/
def Call.on (b : Bracketing M) : Call → Except Fault (Bracketing M)
  | .announce sentence => b.announce sentence
  | .forbid start stop => b.forbid start stop

/-- The bracketing after calls in a row, as long as none is at fault. -/
def run (b : Bracketing M) (calls : List Call) : Except Fault (Bracketing M) :=
  calls.foldlM Call.on b

theorem run_cons (b : Bracketing M) (call : Call) (calls : List Call) :
    b.run (call :: calls) = call.on b >>= fun b' => b'.run calls := List.foldlM_cons

/-- The bracketing was made for a length, with or without brackets, and has been called
since. -/
def Reachable (b : Bracketing M) : Prop :=
  ∃ maxLength brackets calls made,
    (empty? maxLength = .ok made ∨ ofBrackets? maxLength brackets = .ok made) ∧
      made.run calls = .ok b

/-! ## The matrix is square -/

/-- There is a row and a column for each gap of a sentence. -/
structure Square (b : Bracketing M) : Prop where
  columns_eq : columns b.forbidden = rows b.forbidden
  rows_pos : 0 < rows b.forbidden
  room : HasRoom (rows b.forbidden) (rows b.forbidden)

theorem Square.stride_pos (h : b.Square) : 0 < stride b.forbidden :=
  column_lt_stride (h.columns_eq ▸ h.rows_pos)

/-- A bracketing whose matrix is as large as a square one is square. -/
theorem Square.resized (h : b.Square) (hrows : rows b'.forbidden = rows b.forbidden)
    (hcolumns : columns b'.forbidden = columns b.forbidden) : b'.Square :=
  ⟨by rw [hcolumns, h.columns_eq, hrows], hrows ▸ h.rows_pos, hrows ▸ h.room⟩

/-- Forbidding a span writes the bit of its ends. -/
theorem forbid_eq_ok (h : b.forbid start stop = .ok b') :
    set? b.forbidden start stop = .ok b'.forbidden := by
  obtain ⟨m, hm, hb'⟩ := bind_eq_ok h
  cases hb'
  exact hm

/-- Spans forbidden one after another, those that pass a test, are bits written one after
another. -/
theorem foldlM_forbid (keep : Nat → Nat → Bool) (spans : List (Nat × Nat)) (b : Bracketing M) :
    spans.foldlM (fun b (start, stop) => if keep start stop then b.forbid start stop else pure b) b
      = do return { b with forbidden := ← setAll b.forbidden keep spans } := by
  induction spans generalizing b with
  | nil => rfl
  | cons span spans ih =>
    unfold setAll at ih ⊢
    simp only [List.foldlM_cons, ih]
    split
    · simp only [forbid, bind_assoc, pure_bind]
    · rfl

variable [LawfulBitStorage M]

/-- Telling a sentence makes the matrix large enough for it, and forbids and allows
nothing. -/
theorem announce_spec (h : b.Square) {sentence : List Symbol}
    (hannounce : b.announce sentence = .ok b') :
    b'.Square ∧ sentence.length < rows b'.forbidden ∧
      ∀ start stop, b'.isForbidden start stop = b.isForbidden start stop := by
  unfold announce at hannounce
  simp only at hannounce
  split at hannounce
  · rename_i hgrow
    obtain ⟨m, hm, hb'⟩ := bind_eq_ok hannounce
    cases hb'
    have hroom := hasRoom_of_grow hm
    obtain ⟨m', hm', hrows, hcolumns, hget⟩ := grow_spec (Nat.le_of_lt hgrow) hroom
    cases hm.symm.trans hm'
    refine ⟨⟨hcolumns.trans hrows.symm, ?_, by rwa [hrows]⟩, ?_, fun start stop => ?_⟩
    · rw [hrows]
      exact Nat.succ_pos _
    · rw [hrows]
      exact Nat.lt_succ_self _
    · -- where the old matrix has no bit the new one is off
      unfold isForbidden
      rw [hrows, hcolumns, h.columns_eq, Bool.eq_iff_iff]
      simp only [Bool.and_eq_true, decide_eq_true_eq]
      refine ⟨fun ⟨⟨h₁, h₂⟩, hon⟩ => (hget start stop h₁ h₂).mp hon, fun ⟨⟨h₁, h₂⟩, hon⟩ => ?_⟩
      have h₁' := Nat.lt_trans h₁ hgrow
      have h₂' := Nat.lt_trans h₂ hgrow
      exact ⟨⟨h₁', h₂'⟩, (hget start stop h₁' h₂').mpr ⟨⟨h₁, h₂⟩, hon⟩⟩
  · rename_i hfits
    cases hannounce
    exact ⟨⟨h.columns_eq, h.rows_pos, h.room⟩, Nat.not_lt.mp hfits, fun _ _ => rfl⟩

/-- A sentence can be told if there is room for it. -/
theorem exists_announce_iff (h : b.Square) (sentence : List Symbol) :
    (∃ b', b.announce sentence = .ok b') ↔
      HasRoom (sentence.length + 1) (sentence.length + 1) := by
  refine ⟨fun ⟨b', hb'⟩ => ?_, fun hroom => ?_⟩
  · obtain ⟨hsquare, hlt, -⟩ := announce_spec h hb'
    exact hsquare.room.mono hlt
  · unfold announce
    simp only
    split
    · rename_i hgrow
      obtain ⟨m', hm', -⟩ := grow_spec (Nat.le_of_lt hgrow) hroom
      exact ⟨_, by rw [hm']; rfl⟩
    · exact ⟨_, rfl⟩

theorem Square.call (h : b.Square) (call : Call) (hcall : call.on b = .ok b') : b'.Square := by
  cases call with
  | announce sentence => exact (announce_spec h hcall).1
  | forbid start stop =>
    have hset := forbid_eq_ok hcall
    exact h.resized (LawfulBitStorage.rows_set? hset) (LawfulBitStorage.columns_set? hset)

/-! ## Making a bracketing -/

/-- A bracketing without brackets forbids nothing. It has a row for each gap. -/
theorem empty?_spec (h : empty? maxLength = .ok b) :
    b.Square ∧ rows b.forbidden = maxLength + 1 ∧
      ∀ start stop, b.isForbidden start stop = false := by
  obtain ⟨m, hm, hb⟩ := bind_eq_ok h
  cases hb
  have hrows := LawfulBitStorage.rows_zero? hm
  have hcolumns := LawfulBitStorage.columns_zero? hm
  refine ⟨⟨hcolumns.trans hrows.symm, hrows ▸ Nat.succ_pos _, hrows ▸ exists_zero?_iff.mp ⟨m, hm⟩⟩,
    hrows, fun start stop => Bool.eq_false_iff.mpr fun hon => ?_⟩
  simp only [isForbidden, Bool.and_eq_true, decide_eq_true_eq, hrows, hcolumns] at hon
  cases hon.2.symm.trans (LawfulBitStorage.get_zero? hm hon.1.1 hon.1.2)

/-- A bracketing can be made if there is room for its matrix. -/
theorem exists_empty?_iff :
    (∃ b : Bracketing M, empty? maxLength = .ok b) ↔ HasRoom (maxLength + 1) (maxLength + 1) := by
  rw [← exists_zero?_iff (M := M)]
  refine ⟨fun ⟨b, hb⟩ => ?_, fun ⟨m, hm⟩ => ⟨⟨m, 0⟩, by rw [empty?, hm]; rfl⟩⟩
  obtain ⟨m, hm, -⟩ := bind_eq_ok hb
  exact ⟨m, hm⟩

/-- What a bracketing made from brackets forbids. -/
theorem ofBrackets?_spec (brackets : List (Nat × Nat)) {made : Bracketing M}
    (hmade : empty? maxLength = .ok made) :
    ∃ b : Bracketing M, ofBrackets? maxLength brackets = .ok b ∧ b.Square ∧
      rows b.forbidden = maxLength + 1 ∧
      ∀ start stop, b.isForbidden start stop = true ↔
        (start < stop ∧ stop ≤ maxLength) ∧ brackets.any (crosses start stop) = true := by
  obtain ⟨hsquare, hrows, hoff⟩ := empty?_spec hmade
  have hbits : ∀ span ∈ Span.all maxLength,
      span.1 < rows made.forbidden ∧ span.2 < columns made.forbidden := by
    rintro ⟨start, stop⟩ hmem
    obtain ⟨h₁, h₂⟩ := Span.mem_all.mp hmem
    rw [hsquare.columns_eq, hrows]
    exact ⟨by simp only; omega, Nat.lt_succ_of_le h₂⟩
  obtain ⟨m, hm, hon⟩ :=
    exists_setAll made.forbidden (fun start stop => brackets.any (crosses start stop)) hbits
  refine ⟨{ made with forbidden := m }, ?_, hsquare.resized hon.rows_eq hon.columns_eq,
    hon.rows_eq.trans hrows, fun start stop => ?_⟩
  · rw [ofBrackets?, hmade]
    show List.foldlM _ made _ = _
    rw [foldlM_forbid fun start stop => brackets.any (crosses start stop), hm]
    rfl
  · have hnone := hoff start stop
    unfold isForbidden at hnone ⊢
    rw [hon.rows_eq, hon.columns_eq]
    simp only [Bool.and_eq_true, decide_eq_true_eq, Bool.and_eq_false_iff] at hnone ⊢
    rw [← Span.mem_all]
    constructor
    · rintro ⟨⟨h₁, h₂⟩, hget⟩
      rcases (hon.get_iff start stop h₁ h₂).mp hget with hbefore | hcrossing
      · simp [h₁, h₂, hbefore] at hnone
      · exact hcrossing
    · intro hcrossing
      obtain ⟨h₁, h₂⟩ := hbits _ hcrossing.1
      exact ⟨⟨h₁, h₂⟩, (hon.get_iff start stop h₁ h₂).mpr (Or.inr hcrossing)⟩

/-- What is made of an empty bracketing has been made. -/
theorem of_ofBrackets? (h : ofBrackets? maxLength brackets = .ok b) :
    b.Square ∧ rows b.forbidden = maxLength + 1 ∧
      ∀ start stop, b.isForbidden start stop = true ↔
        (start < stop ∧ stop ≤ maxLength) ∧ brackets.any (crosses start stop) = true := by
  obtain ⟨made, hmade, -⟩ := bind_eq_ok h
  obtain ⟨b', hb', hspec⟩ := ofBrackets?_spec brackets hmade
  cases h.symm.trans hb'
  exact hspec

theorem square_made (h : empty? maxLength = .ok b ∨ ofBrackets? maxLength brackets = .ok b) :
    b.Square := by
  rcases h with h | h
  · exact (empty?_spec h).1
  · exact (of_ofBrackets? h).1

theorem Square.run (h : b.Square) {calls : List Call} (hrun : b.run calls = .ok b') :
    b'.Square := by
  induction calls generalizing b with
  | nil =>
    cases hrun
    exact h
  | cons call calls ih =>
    obtain ⟨next, hcall, hrest⟩ := bind_eq_ok hrun
    exact ih (h.call call hcall) hrest

theorem Reachable.square (h : b.Reachable) : b.Square := by
  obtain ⟨maxLength, brackets, calls, made, hmade, hrun⟩ := h
  exact (square_made hmade).run hrun

/-! ## Forbidding one span -/

/-- The span that is written is the one forbidden, where it lands, and no other. -/
theorem isForbidden_forbid (h : b.Square) (hforbid : b.forbid start stop = .ok b')
    (first last : Nat) :
    b'.isForbidden first last = true ↔ b.isForbidden first last = true ∨
      last < columns b.forbidden ∧ (first, last) = landing b.forbidden start stop := by
  have hset := forbid_eq_ok hforbid
  have hlands := (exists_set?_iff h.stride_pos).mp ⟨_, hset⟩
  unfold isForbidden
  rw [LawfulBitStorage.rows_set? hset, LawfulBitStorage.columns_set? hset]
  simp only [Bool.and_eq_true, decide_eq_true_eq]
  constructor
  · rintro ⟨⟨h₁, h₂⟩, hon⟩
    rcases (get_set?_landing hset h₁ h₂).mp hon with hbefore | heq
    · exact Or.inl ⟨⟨h₁, h₂⟩, hbefore⟩
    · exact Or.inr ⟨h₂, heq⟩
  · rintro (⟨⟨h₁, h₂⟩, hbefore⟩ | ⟨h₂, heq⟩)
    · exact ⟨⟨h₁, h₂⟩, (get_set?_landing hset h₁ h₂).mpr (Or.inl hbefore)⟩
    · have h₁ : first < rows b.forbidden := by rwa [← heq] at hlands
      exact ⟨⟨h₁, h₂⟩, (get_set?_landing hset h₁ h₂).mpr (Or.inr heq)⟩

/-- **Where a span that is forbidden lands.** Forbidding a span is refused if its bit
lands past the last row. Otherwise it forbids the span where the bit lands, or nothing
if the bit lands in the padding, and changes no other span. The span named is the only
one forbidden exactly if it ends within the matrix: one that ends past it is not
forbidden at all. -/
theorem forbid_lands (h : b.Reachable) (start stop : Nat) :
    ((∃ b', b.forbid start stop = .ok b') ↔
      (landing b.forbidden start stop).1 < rows b.forbidden) ∧
    ∀ b', b.forbid start stop = .ok b' →
      (∀ first last, b'.isForbidden first last = true ↔
        b.isForbidden first last = true ∨
          last < columns b.forbidden ∧ (first, last) = landing b.forbidden start stop) ∧
      ((∀ first last, b'.isForbidden first last = true ↔
        b.isForbidden first last = true ∨ (first, last) = (start, stop)) ↔
          stop < columns b.forbidden) := by
  have hsquare := h.square
  refine ⟨?_, fun b' hb' => ⟨isForbidden_forbid hsquare hb', fun hnamed => ?_, fun hlt => ?_⟩⟩
  · rw [← exists_set?_iff hsquare.stride_pos]
    refine ⟨fun ⟨b', hb'⟩ => ⟨_, forbid_eq_ok hb'⟩, fun ⟨m, hm⟩ => ⟨⟨m, b.sentenceLength⟩, ?_⟩⟩
    rw [forbid, hm]
    rfl
  · -- what is forbidden has been read in some column
    have hon := (hnamed start stop).mpr (Or.inr rfl)
    unfold isForbidden at hon
    simp only [Bool.and_eq_true, decide_eq_true_eq,
      LawfulBitStorage.columns_set? (forbid_eq_ok hb')] at hon
    exact hon.1.2
  · intro first last
    have hlanding := landing_of_lt start (column_lt_stride hlt)
    rw [isForbidden_forbid hsquare hb', hlanding]
    refine or_congr_right ⟨fun h => h.2, fun heq => ⟨?_, heq⟩⟩
    cases heq
    exact hlt

/-- Over sentences of two tokens there is room for ends up to two, and the rows are 32
places apart. So the span from 0 to 34 is not forbidden, but the one from 1 to 2 is. -/
theorem forbid_lands_elsewhere :
    ∃ b b' : Bracketing BitMatrix, empty? 2 = .ok b ∧ b.forbid 0 34 = .ok b' ∧
      b.isForbidden 1 2 = false ∧ b'.isForbidden 1 2 = true ∧ b'.isForbidden 0 34 = false := by
  have hmade : empty? 2 = .ok ⟨BitMatrix.zero 3 3, 0⟩ := rfl
  have hreach : (⟨BitMatrix.zero 3 3, 0⟩ : Bracketing BitMatrix).Reachable :=
    ⟨2, [], [], _, Or.inl hmade, rfl⟩
  obtain ⟨-, -, hoff⟩ := empty?_spec hmade
  obtain ⟨hreturns, heffect⟩ := forbid_lands hreach 0 34
  obtain ⟨b', hb'⟩ := hreturns.mpr (by decide)
  obtain ⟨hspans, -⟩ := heffect b' hb'
  refine ⟨_, b', hmade, hb', hoff 1 2, (hspans 1 2).mpr (Or.inr ⟨by decide, by decide⟩), ?_⟩
  rw [Bool.eq_false_iff, Ne, hspans, hoff 0 34]
  rintro (hbefore | ⟨hlt, -⟩)
  · cases hbefore
  · revert hlt
    decide

/-! ## Forbidding spans within the matrix -/

/-- The span and the bracket have a token in common, and neither lies within the
other. -/
def Crossing (start stop : Nat) (bracket : Nat × Nat) : Prop :=
  (Set.Ico start stop ∩ Set.Ico bracket.1 bracket.2).Nonempty ∧
    ¬ Set.Ico start stop ⊆ Set.Ico bracket.1 bracket.2 ∧
    ¬ Set.Ico bracket.1 bracket.2 ⊆ Set.Ico start stop

/-- The comparison of the ends is a test for crossing, and no bracket that ends where
it starts, or before, passes it. -/
theorem crosses_iff {bracket : Nat × Nat} :
    crosses start stop bracket = true ↔
      bracket.1 < bracket.2 ∧ Crossing start stop bracket := by
  obtain ⟨first, last⟩ := bracket
  simp only [crosses, Bool.or_eq_true, Bool.and_eq_true, decide_eq_true_eq, Crossing,
    Set.not_subset, Set.Nonempty, Set.mem_inter_iff, Set.mem_Ico]
  refine ⟨?_, ?_⟩
  · rintro (⟨⟨h₁, h₂⟩, h₃⟩ | ⟨⟨h₁, h₂⟩, h₃⟩)
    · exact ⟨by omega, ⟨first, by omega⟩, ⟨start, by omega⟩, ⟨stop, by omega⟩⟩
    · exact ⟨by omega, ⟨start, by omega⟩, ⟨last, by omega⟩, ⟨first, by omega⟩⟩
  · rintro ⟨_, ⟨x, _⟩, ⟨y, _⟩, ⟨z, _⟩⟩
    omega

/-- Every span that the calls forbid lies, when its turn comes, within the matrix. -/
def Within (b : Bracketing M) : List Call → Prop
  | [] => True
  | .announce sentence :: calls => ∀ b', b.announce sentence = .ok b' → b'.Within calls
  | .forbid start stop :: calls =>
    (start < rows b.forbidden ∧ stop < rows b.forbidden) ∧
      ∀ b', b.forbid start stop = .ok b' → b'.Within calls

/-- There is room for every sentence that the calls announce. -/
def Roomy (calls : List Call) : Prop :=
  ∀ sentence, .announce sentence ∈ calls → HasRoom (sentence.length + 1) (sentence.length + 1)

/-- A span within the matrix is forbidden, and no other. -/
theorem forbid_spec (h : b.Square) (hstart : start < rows b.forbidden)
    (hstop : stop < rows b.forbidden) :
    ∃ b', b.forbid start stop = .ok b' ∧ b'.Square ∧
      ∀ first last, b'.isForbidden first last = true ↔
        b.isForbidden first last = true ∨ (first, last) = (start, stop) := by
  have hcolumn : stop < columns b.forbidden := h.columns_eq ▸ hstop
  obtain ⟨m, hm, -⟩ := exists_set? hstart hcolumn
  have hforbid : b.forbid start stop = .ok { b with forbidden := m } := by
    rw [forbid, hm]
    rfl
  refine ⟨_, hforbid, h.call (.forbid start stop) hforbid, fun first last => ?_⟩
  rw [isForbidden_forbid h hforbid, landing_of_lt start (column_lt_stride hcolumn)]
  refine or_congr_right ⟨fun h => h.2, fun heq => ⟨?_, heq⟩⟩
  cases heq
  exact hcolumn

/-- Calls within the matrix are served if there is room for what they announce, and then
forbid the spans that they name and no others. -/
theorem run_spec (h : b.Square) {calls : List Call} (hcalls : b.Within calls) :
    ((∃ b', b.run calls = .ok b') ↔ Roomy calls) ∧
      ∀ b', b.run calls = .ok b' → ∀ start stop, b'.isForbidden start stop = true ↔
        .forbid start stop ∈ calls ∨ b.isForbidden start stop = true := by
  induction calls generalizing b with
  | nil =>
    refine ⟨iff_of_true ⟨b, rfl⟩ (by simp [Roomy]), fun b' hb' => ?_⟩
    cases hb'
    simp
  | cons call calls ih =>
    rw [run_cons]
    cases call with
    | announce sentence =>
      have htold := exists_announce_iff h sentence
      refine ⟨⟨fun ⟨b', hb'⟩ => ?_, fun hroomy => ?_⟩, fun b' hb' start stop => ?_⟩
      · obtain ⟨next, hnext, hrun⟩ := bind_eq_ok hb'
        have hrest := ((ih (announce_spec h hnext).1 (hcalls next hnext)).1).mp ⟨b', hrun⟩
        intro sentence' hmem
        rcases List.mem_cons.mp hmem with heq | hmem
        · cases heq
          exact htold.mp ⟨next, hnext⟩
        · exact hrest sentence' hmem
      · obtain ⟨next, hnext⟩ := htold.mpr (hroomy sentence List.mem_cons_self)
        obtain ⟨b', hrun⟩ := ((ih (announce_spec h hnext).1 (hcalls next hnext)).1).mpr
          fun sentence' hmem => hroomy sentence' (List.mem_cons_of_mem _ hmem)
        exact ⟨b', by rw [Call.on, hnext]; exact hrun⟩
      · obtain ⟨next, hnext, hrun⟩ := bind_eq_ok hb'
        obtain ⟨hsquare, -, hkeeps⟩ := announce_spec h hnext
        rw [(ih hsquare (hcalls next hnext)).2 b' hrun, hkeeps]
        simp
    | forbid first last =>
      obtain ⟨⟨hfirst, hlast⟩, hrest⟩ := hcalls
      obtain ⟨next, hforbid, hsquare, hnext⟩ := forbid_spec h hfirst hlast
      obtain ⟨hserved, hspans⟩ := ih hsquare (hrest next hforbid)
      rw [Call.on, hforbid]
      refine ⟨hserved.trans (by simp [Roomy]), fun b' hrun start stop => ?_⟩
      rw [hspans b' hrun, hnext, Prod.mk.injEq, List.mem_cons, Call.forbid.injEq, or_assoc]
      exact or_rotate.symm

/-- **Exactly the crossing spans are forbidden, besides those asked for.** A bracketing
is made for every length that there is room for. Then any sentences may be announced and
any spans forbidden that lie within the matrix of the time. All these calls are served,
exactly if there is room for every sentence announced. The spans forbidden after them are
those that they name and those of up to `maxLength` tokens that cross a bracket. No other
derivation is turned away. -/
theorem forbidden_after_calls (maxLength : Nat) (brackets : List (Nat × Nat)) :
    ((∃ made : Bracketing M, ofBrackets? maxLength brackets = .ok made) ↔
      HasRoom (maxLength + 1) (maxLength + 1)) ∧
    ∀ made : Bracketing M, ofBrackets? maxLength brackets = .ok made →
      ∀ calls, made.Within calls →
        ((∃ b, made.run calls = .ok b) ↔ Roomy calls) ∧
        ∀ b, made.run calls = .ok b → ∀ start stop,
          (b.isForbidden start stop = true ↔
            .forbid start stop ∈ calls ∨
              start < stop ∧ stop ≤ maxLength ∧
                ∃ bracket ∈ brackets, bracket.1 < bracket.2 ∧ Crossing start stop bracket) ∧
          ∀ {S : Type} (mid : Nat) (rule : Rule S) (score : S),
            CellConstraint.accepts b start stop mid rule score = .ok true ↔
              b.isForbidden start stop = false := by
  refine ⟨⟨?_, fun hroom => ?_⟩, fun made hmade calls hcalls => ?_⟩
  · rintro ⟨made, hmade⟩
    obtain ⟨empty, hempty, -⟩ := bind_eq_ok hmade
    exact exists_empty?_iff.mp ⟨empty, hempty⟩
  · obtain ⟨empty, hempty⟩ := (exists_empty?_iff (M := M)).mpr hroom
    obtain ⟨made, hmade, -⟩ := ofBrackets?_spec brackets hempty
    exact ⟨made, hmade⟩
  · obtain ⟨hsquare, -, hcrossing⟩ := of_ofBrackets? hmade
    obtain ⟨hserved, hspans⟩ := run_spec hsquare hcalls
    refine ⟨hserved, fun b hrun start stop => ⟨?_, fun mid rule score => ?_⟩⟩
    · rw [hspans b hrun, hcrossing, and_assoc, List.any_eq_true]
      simp only [crosses_iff]
    · show Except.ok (!b.isForbidden start stop) = Except.ok true ↔ _
      rw [Except.ok.injEq, Bool.not_eq_true']

/-- The bracket from 1 to 3 over four tokens. A span is forbidden, a sentence of forty
tokens makes room for more, and one of the spans that now fit is forbidden. -/
theorem forbidden_after_calls_small :
    ∃ made b : Bracketing BitMatrix, ofBrackets? 4 [(1, 3)] = .ok made ∧
      made.run [.forbid 1 4, .announce (.replicate 40 (.ofNat 0)), .forbid 5 33] = .ok b ∧
      b.isForbidden 0 2 = true ∧ b.isForbidden 1 4 = true ∧ b.isForbidden 5 33 = true ∧
      b.isForbidden 0 3 = false := by
  obtain ⟨hmakes, hafter⟩ := forbidden_after_calls (M := BitMatrix) 4 [(1, 3)]
  obtain ⟨made, hmade⟩ := hmakes.mpr (by decide)
  obtain ⟨hsquare, hrows, -⟩ := of_ofBrackets? hmade
  have hwithin : made.Within
      [.forbid 1 4, .announce (.replicate 40 (.ofNat 0)), .forbid 5 33] := by
    refine ⟨by omega, fun b hb b' hb' => ?_⟩
    have hroom := (announce_spec (hsquare.call (.forbid 1 4) hb) hb').2.1
    rw [List.length_replicate] at hroom
    exact ⟨by omega, fun _ _ => trivial⟩
  obtain ⟨hserved, hspans⟩ := hafter made hmade _ hwithin
  obtain ⟨b, hrun⟩ := hserved.mpr (by simp [Roomy, HasRoom, strideOf, UInt64.size])
  have hcrosses := fun start stop => (hspans b hrun start stop).1
  refine ⟨made, b, hmade, hrun, ?_, ?_, ?_, ?_⟩
  · refine (hcrosses 0 2).mpr (Or.inr ⟨by decide, by decide, (1, 3), by simp, ?_⟩)
    exact crosses_iff.mp rfl
  · exact (hcrosses 1 4).mpr (Or.inl (by simp))
  · exact (hcrosses 5 33).mpr (Or.inl (by simp))
  · rw [Bool.eq_false_iff, Ne, hcrosses]
    rintro (hnamed | ⟨-, -, bracket, hbracket, hcrossing⟩)
    · simp at hnamed
    · rw [List.mem_singleton.mp hbracket] at hcrossing
      cases crosses_iff.mpr hcrossing

end ChartParsing.Bracketing
