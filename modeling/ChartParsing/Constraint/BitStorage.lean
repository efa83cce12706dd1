import ChartParsing.Fault

/-!
# Storage for bits

The bits of a matrix have numbered places, row by row. Rows start at multiples
of 32, so a row may be followed by padding that belongs to no column.

Writing asks for a place, not for a column: past the last column a bit lands in
the padding or in a later row. What is read outside the rows and columns is up to
the storage.
-/

namespace ChartParsing

/-- The distance between rows: the number of columns, rounded up to a multiple
of 32. -/
def strideOf (columns : Nat) : Nat := (columns + 31) / 32 * 32

/-- Matrices of type `M`, whose bits can be read and turned on. -/
class BitStorage (M : Type) where
  rows : M → Nat
  columns : M → Nat
  /-- The matrix with all bits off, if there can be one. -/
  zero? : (rows columns : Nat) → Except Fault M
  /-- The bit of a row and column. -/
  get : M → (row column : Nat) → Bool
  /-- Turns the bit of a row and column on. -/
  set? : M → (row column : Nat) → Except Fault M

namespace BitStorage

variable {M : Type} [BitStorage M]

/-- The distance between the rows of a matrix. -/
def stride (m : M) : Nat := strideOf (columns m)

/-- The place of a bit. -/
def place (m : M) (row column : Nat) : Nat := row * stride m + column

/-- The number of places, padding included. -/
def size (m : M) : Nat := rows m * stride m

/-- There can be a matrix of so many rows and columns: its places can be numbered by 64
bits. -/
def HasRoom (rows columns : Nat) : Prop := rows * strideOf columns < UInt64.size

instance (rows columns : Nat) : Decidable (HasRoom rows columns) :=
  inferInstanceAs (Decidable (_ < _))

end BitStorage

open BitStorage in
/-- What storage promises. -/
class LawfulBitStorage (M : Type) [BitStorage M] : Prop where
  zero?_ok : ∀ {rows columns : Nat}, HasRoom rows columns →
    ∃ m : M, zero? rows columns = .ok m
  zero?_error : ∀ {rows columns : Nat}, ¬ HasRoom rows columns →
    (zero? rows columns : Except Fault M) = .error .tableTooLarge
  rows_zero? : ∀ {m : M} {rows columns : Nat}, zero? rows columns = .ok m →
    BitStorage.rows m = rows
  columns_zero? : ∀ {m : M} {rows columns : Nat}, zero? rows columns = .ok m →
    BitStorage.columns m = columns
  get_zero? : ∀ {m : M} {rows columns row column : Nat}, zero? rows columns = .ok m →
    row < rows → column < columns → get m row column = false
  set?_ok : ∀ {m : M} {row column : Nat}, place m row column < size m →
    ∃ m' : M, set? m row column = .ok m'
  set?_error : ∀ {m : M} {row column : Nat}, ¬ place m row column < size m →
    set? m row column = .error .noSlot
  rows_set? : ∀ {m m' : M} {row column : Nat}, set? m row column = .ok m' →
    rows m' = rows m
  columns_set? : ∀ {m m' : M} {row column : Nat}, set? m row column = .ok m' →
    columns m' = columns m
  /-- Turning a bit on turns on whatever is read at its place. -/
  get_set? : ∀ {m m' : M} {row column row' column' : Nat}, set? m row column = .ok m' →
    row' < rows m → column' < columns m →
    (get m' row' column' = true ↔
      get m row' column' = true ∨ place m row column = place m row' column')

end ChartParsing
