import Std.Data.HashSet
import ChartParsing.Constraint.BitStorage

/-!
# Bit matrices

Storage that keeps the places of the bits that are on, so that a large matrix with
few of them takes little room.
-/

namespace ChartParsing

/-- Bits in `rows` rows of `columns` columns. -/
structure BitMatrix where
  rows : Nat
  columns : Nat
  /-- The places of the bits that are on. -/
  places : Std.HashSet Nat

namespace BitMatrix

/-- The matrix with all bits off. -/
def zero (rows columns : Nat) : BitMatrix := ⟨rows, columns, ∅⟩

/-- The place of a bit. -/
def place (m : BitMatrix) (row column : Nat) : Nat := row * strideOf m.columns + column

/-- The number of places, padding included. -/
def size (m : BitMatrix) : Nat := m.rows * strideOf m.columns

/-- The matrix with all bits off. Refuses one with more places than can be
numbered. -/
def zero? (rows columns : Nat) : Except Fault BitMatrix :=
  if BitStorage.HasRoom rows columns then .ok (zero rows columns) else .error .tableTooLarge

/-- The bit of a row and column. -/
def get (m : BitMatrix) (row column : Nat) : Bool := m.places.contains (m.place row column)

/-- Turns a bit on. Refuses a place past the last one. -/
def set? (m : BitMatrix) (row column : Nat) : Except Fault BitMatrix :=
  if m.place row column < m.size then
    .ok { m with places := m.places.insert (m.place row column) }
  else .error .noSlot

instance : BitStorage BitMatrix := ⟨rows, columns, zero?, get, set?⟩

theorem zero?_eq_ok {m : BitMatrix} {rows columns : Nat} (h : zero? rows columns = .ok m) :
    m = zero rows columns := by
  unfold zero? at h
  split at h
  · exact (Except.ok.inj h).symm
  · cases h

theorem set?_eq_ok {m m' : BitMatrix} {row column : Nat} (h : m.set? row column = .ok m') :
    m' = { m with places := m.places.insert (m.place row column) } := by
  unfold set? at h
  split at h
  · exact (Except.ok.inj h).symm
  · cases h

instance : LawfulBitStorage BitMatrix where
  zero?_ok h := ⟨_, if_pos h⟩
  zero?_error h := if_neg h
  rows_zero? h := by rw [zero?_eq_ok h]; rfl
  columns_zero? h := by rw [zero?_eq_ok h]; rfl
  get_zero? h _ _ := by
    rw [zero?_eq_ok h]
    simp [BitStorage.get, get, zero]
  set?_ok h := ⟨_, if_pos h⟩
  set?_error h := if_neg h
  rows_set? h := by rw [set?_eq_ok h]; rfl
  columns_set? h := by rw [set?_eq_ok h]; rfl
  get_set? {m _ row column row' column'} h _ _ := by
    rw [set?_eq_ok h]
    show (m.places.insert (m.place row column)).contains (m.place row' column') = true ↔
      m.places.contains (m.place row' column') = true ∨ m.place row column = m.place row' column'
    simp [or_comm]

end BitMatrix

end ChartParsing
