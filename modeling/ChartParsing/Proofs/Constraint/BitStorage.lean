import ChartParsing.Constraint.Bracketing
import ChartParsing.Proofs.Outcome
import ChartParsing.Proofs.Rows
import Mathlib.Data.List.Basic

/-!
# Where the bits of a matrix are

A place has one row and one position within the stride, so bits in different columns
have different places. A bit that is written past the stride lands in a later row, at
what is left of its column. Between the last column and the stride there is padding.

So of what can be read, writing turns on one bit at most, and bits that are written one
after another are on afterwards, those within the columns where they were meant to be.
All this follows from what lawful storage promises, and so does it that a matrix that
grows keeps all that could be read of it.
-/

namespace ChartParsing.BitStorage

variable {M : Type} [BitStorage M] {m m' : M} {row column row' column' side : Nat}

theorem columns_le_stride : columns m ≤ stride m := by
  unfold stride strideOf
  omega

theorem column_lt_stride (h : column < columns m) : column < stride m :=
  Nat.lt_of_lt_of_le h columns_le_stride

/-! ## Places -/

/-- Within the stride, a place is that of one row and column. -/
theorem place_eq_iff (row row' : Nat) (h : column < stride m) (h' : column' < stride m) :
    place m row column = place m row' column' ↔ (row, column) = (row', column') := by
  rw [Prod.mk.injEq]
  exact Rows.place_inj h h'

/-- Within the stride, a place is one of the matrix if its row is. -/
theorem place_lt_size_iff (row : Nat) (h : column < stride m) :
    place m row column < size m ↔ row < rows m :=
  Rows.place_lt_iff h

/-- The row and column where a bit lands that is written to any row and column. -/
def landing (m : M) (row column : Nat) : Nat × Nat :=
  (row + column / stride m, column % stride m)

theorem landing_of_lt (row : Nat) (h : column < stride m) :
    landing m row column = (row, column) := by
  rw [landing, Nat.div_eq_of_lt h, Nat.mod_eq_of_lt h, Nat.add_zero]

theorem landing_lt_stride (row column : Nat) (h : 0 < stride m) :
    (landing m row column).2 < stride m :=
  Nat.mod_lt _ h

/-- A bit is written to the place where it lands. -/
theorem place_landing :
    place m (landing m row column).1 (landing m row column).2 = place m row column := by
  have hsplit := Nat.div_add_mod column (stride m)
  unfold place landing
  rw [Nat.add_mul, Nat.mul_comm (column / stride m)]
  omega

/-- A smaller square has room where a larger one has. -/
theorem HasRoom.mono {side' : Nat} (h : HasRoom side side) (hle : side' ≤ side) :
    HasRoom side' side' := by
  refine Nat.lt_of_le_of_lt (Nat.mul_le_mul hle ?_) h
  unfold strideOf
  omega

/-! ## What has been turned on -/

/-- The matrix is as large as before, and of what can be read the bits with the property
have been turned on. -/
structure TurnedOn (m m' : M) (on : Nat → Nat → Prop) : Prop where
  rows_eq : rows m' = rows m
  columns_eq : columns m' = columns m
  get_iff : ∀ row column, row < rows m → column < columns m →
    (get m' row column = true ↔ get m row column = true ∨ on row column)

theorem TurnedOn.trans {m₀ m₁ m₂ : M} {on on' : Nat → Nat → Prop} (h : TurnedOn m₀ m₁ on)
    (h' : TurnedOn m₁ m₂ on') :
    TurnedOn m₀ m₂ fun row column => on row column ∨ on' row column where
  rows_eq := h'.rows_eq.trans h.rows_eq
  columns_eq := h'.columns_eq.trans h.columns_eq
  get_iff row column hrow hcolumn := by
    rw [h'.get_iff row column (h.rows_eq ▸ hrow) (h.columns_eq ▸ hcolumn),
      h.get_iff row column hrow hcolumn, or_assoc]

theorem TurnedOn.congr {on on' : Nat → Nat → Prop} (h : TurnedOn m m' on)
    (heq : ∀ row column, on row column ↔ on' row column) : TurnedOn m m' on' :=
  ⟨h.rows_eq, h.columns_eq, fun row column hrow hcolumn => by
    rw [h.get_iff row column hrow hcolumn, heq]⟩

theorem turnedOn_refl (m : M) : TurnedOn m m fun _ _ => False :=
  ⟨rfl, rfl, fun _ _ _ _ => by rw [or_false]⟩

variable [LawfulBitStorage M]

/-! ## Writing -/

/-- A matrix can be made if its places can be numbered. -/
theorem exists_zero?_iff {rows columns : Nat} :
    (∃ m : M, zero? rows columns = .ok m) ↔ HasRoom rows columns := by
  refine ⟨fun ⟨m, hm⟩ => ?_, LawfulBitStorage.zero?_ok⟩
  by_contra hroom
  cases hm.symm.trans (LawfulBitStorage.zero?_error hroom)

/-- A bit can be written if it lands in a row of the matrix. -/
theorem exists_set?_iff (hpos : 0 < stride m) :
    (∃ m', set? m row column = .ok m') ↔ (landing m row column).1 < rows m := by
  rw [← place_lt_size_iff _ (landing_lt_stride row column hpos), place_landing]
  refine ⟨fun ⟨m', hm'⟩ => ?_, LawfulBitStorage.set?_ok⟩
  by_contra hplace
  cases hm'.symm.trans (LawfulBitStorage.set?_error hplace)

/-- **Writing a bit turns on the bit where it lands**, if that can be read, and no
other. -/
theorem get_set?_landing (h : set? m row column = .ok m') (hrow : row' < rows m)
    (hcolumn : column' < columns m) :
    get m' row' column' = true ↔
      get m row' column' = true ∨ (row', column') = landing m row column := by
  have hstride : column' < stride m := column_lt_stride hcolumn
  have hlanding := landing_lt_stride row column (Nat.lt_of_le_of_lt (Nat.zero_le _) hstride)
  have hplace := place_eq_iff (landing m row column).1 row' hlanding hstride
  rw [place_landing] at hplace
  rw [LawfulBitStorage.get_set? h hrow hcolumn, hplace]
  exact or_congr_right eq_comm

/-- A bit that has a column is the one turned on. -/
theorem get_set?_of_lt (h : set? m row column = .ok m') (hlt : column < columns m)
    (hrow : row' < rows m) (hcolumn : column' < columns m) :
    get m' row' column' = true ↔
      get m row' column' = true ∨ (row', column') = (row, column) := by
  rw [get_set?_landing h hrow hcolumn, landing_of_lt row (column_lt_stride hlt)]

/-! ## Writing several bits -/

/-- A bit that has a row and a column can be written, and is the one turned on. -/
theorem exists_set? (hrow : row < rows m) (hcolumn : column < columns m) :
    ∃ m', set? m row column = .ok m' ∧
      TurnedOn m m' fun row' column' => (row', column') = (row, column) := by
  have hstride := column_lt_stride hcolumn
  obtain ⟨m', hm'⟩ := LawfulBitStorage.set?_ok ((place_lt_size_iff row hstride).mpr hrow)
  exact ⟨m', hm', LawfulBitStorage.rows_set? hm', LawfulBitStorage.columns_set? hm',
    fun _ _ => get_set?_of_lt hm' hcolumn⟩

/-- Bits written one after another, those that pass a test. -/
def setAll (m : M) (keep : Nat → Nat → Bool) (bits : List (Nat × Nat)) : Except Fault M :=
  bits.foldlM (fun m bit => if keep bit.1 bit.2 then set? m bit.1 bit.2 else pure m) m

/-- **Bits that have a row and a column can all be written**, and those that pass the test
are turned on. -/
theorem exists_setAll (m : M) (keep : Nat → Nat → Bool) {bits : List (Nat × Nat)}
    (hbits : ∀ bit ∈ bits, bit.1 < rows m ∧ bit.2 < columns m) :
    ∃ m', setAll m keep bits = .ok m' ∧
      TurnedOn m m' fun row column => (row, column) ∈ bits ∧ keep row column = true := by
  have hstep : ∀ done bit rest made, bits = done ++ bit :: rest →
      TurnedOn m made (fun row column => (row, column) ∈ done ∧ keep row column = true) →
      ∃ made', (if keep bit.1 bit.2 then set? made bit.1 bit.2 else pure made) = .ok made' ∧
        TurnedOn m made' fun row column =>
          (row, column) ∈ done ++ [bit] ∧ keep row column = true := by
    intro done bit rest made heq hmade
    obtain ⟨hrow, hcolumn⟩ := hbits bit (by simp [heq])
    by_cases hkeep : keep bit.1 bit.2 = true
    · rw [← hmade.rows_eq] at hrow
      rw [← hmade.columns_eq] at hcolumn
      obtain ⟨made', hset, hone⟩ := exists_set? hrow hcolumn
      refine ⟨made', by rw [if_pos hkeep, hset], (hmade.trans hone).congr fun row column => ?_⟩
      rw [List.mem_append, List.mem_singleton, or_and_right]
      refine or_congr_right ⟨fun hbit => ?_, fun hbit => hbit.1⟩
      cases hbit
      exact ⟨rfl, hkeep⟩
    · refine ⟨made, by rw [if_neg hkeep]; rfl, hmade.congr fun row column => ?_⟩
      rw [List.mem_append, List.mem_singleton, or_and_right, iff_self_or]
      rintro ⟨rfl, hk⟩
      exact absurd hk hkeep
  exact foldlM_eq_ok
    (fun done made =>
      TurnedOn m made fun row column => (row, column) ∈ done ∧ keep row column = true)
    ((turnedOn_refl m).congr fun _ _ => by simp) hstep

end ChartParsing.BitStorage

namespace ChartParsing.Bracketing

open BitStorage

variable {M : Type} [BitStorage M] [LawfulBitStorage M] {m m' : M} {side : Nat}

/-! ## Growing -/

/-- **A square matrix that grows keeps what is read of it.** It can grow if there is room
for what it is to become. -/
theorem grow_spec (hside : rows m ≤ side) (hroom : HasRoom side side) :
    ∃ m', grow m side = .ok m' ∧ rows m' = side ∧ columns m' = side ∧
      ∀ row column, row < side → column < side → (get m' row column = true ↔
        (row < rows m ∧ column < rows m) ∧ get m row column = true) := by
  obtain ⟨made, hmade⟩ : ∃ made : M, zero? side side = .ok made := exists_zero?_iff.mpr hroom
  have hrows := LawfulBitStorage.rows_zero? hmade
  have hcolumns := LawfulBitStorage.columns_zero? hmade
  -- the bits of the rows that are done have been turned on
  have hstep : ∀ done row rest grown, List.range (rows m) = done ++ row :: rest →
      TurnedOn made grown (fun r c => r ∈ done ∧ c < rows m ∧ get m r c = true) →
      ∃ grown', (List.range (rows m)).foldlM (fun grown column =>
          if get m row column then set? grown row column else pure grown) grown = .ok grown' ∧
        TurnedOn made grown' fun r c => r ∈ done ++ [row] ∧ c < rows m ∧ get m r c = true := by
    intro done row rest grown heq hgrown
    have hrow : row < rows m := List.mem_range.mp (by simp [heq])
    have hbits : ∀ bit ∈ (List.range (rows m)).map fun column => (row, column),
        bit.1 < rows grown ∧ bit.2 < columns grown := by
      rw [hgrown.rows_eq, hgrown.columns_eq, hrows, hcolumns]
      simp only [List.forall_mem_map, List.mem_range]
      intro column hcolumn
      omega
    obtain ⟨grown', hfold, hon⟩ := exists_setAll grown (get m) hbits
    rw [setAll, List.foldlM_map] at hfold
    refine ⟨grown', hfold, (hgrown.trans hon).congr fun r c => ?_⟩
    simp only [List.mem_map, List.mem_range, Prod.mk.injEq, List.mem_append, List.mem_singleton]
    constructor
    · rintro (⟨hdone, hon⟩ | ⟨⟨_, hc, rfl, rfl⟩, hon⟩)
      · exact ⟨Or.inl hdone, hon⟩
      · exact ⟨Or.inr rfl, hc, hon⟩
    · rintro ⟨hdone | rfl, hc, hon⟩
      · exact Or.inl ⟨hdone, hc, hon⟩
      · exact Or.inr ⟨⟨c, hc, rfl, rfl⟩, hon⟩
  obtain ⟨grown, hfold, hgrown⟩ := foldlM_eq_ok
    (fun done grown => TurnedOn made grown fun r c => r ∈ done ∧ c < rows m ∧ get m r c = true)
    ((turnedOn_refl made).congr fun _ _ => by simp) hstep
  refine ⟨grown, by rw [grow, hmade]; exact hfold, hgrown.rows_eq.trans hrows,
    hgrown.columns_eq.trans hcolumns, fun row column hrow hcolumn => ?_⟩
  have hoff := LawfulBitStorage.get_zero? hmade hrow hcolumn
  rw [hgrown.get_iff row column (hrows ▸ hrow) (hcolumns ▸ hcolumn), hoff, List.mem_range,
    and_assoc]
  simp

/-- Without room for it a matrix cannot grow. -/
theorem hasRoom_of_grow (h : grow m side = .ok m') : HasRoom side side := by
  obtain ⟨made, hmade, -⟩ := bind_eq_ok h
  exact exists_zero?_iff.mp ⟨made, hmade⟩

end ChartParsing.Bracketing
