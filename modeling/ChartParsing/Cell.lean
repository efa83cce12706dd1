import ChartParsing.Cell.Dense
import ChartParsing.Cell.Hashed
import ChartParsing.Cell.TieBreaking

/-!
# Cells

A cell collects the derivations of one span. It starts out open and takes any
number of offers; closing it freezes the entries and fixes the list of symbols
present. An offer to a closed cell is a fault, and so is reading the symbols of
an open one. Resetting a cell empties and reopens it.

How entries are stored is a choice of the cell's type. All four stores answer
the same questions, and all but the tie-breaking one give the same answers.
-/

namespace ChartParsing

/-- The kinds of store. -/
inductive CellType where
  /-- One slot per nonterminal. -/
  | full
  /-- One map of entries. -/
  | hashed
  /-- A map of scores and a map of back pointers. -/
  | doubleHashed
  /-- One slot per nonterminal, with ties broken by chance. Only for best
  derivations. -/
  | tieBreaking
  deriving DecidableEq, Inhabited

namespace CellType

/-- The name of a cell type in messages. -/
def name : CellType → String
  | .full => "Full"
  | .hashed => "Hashed"
  | .doubleHashed => "DoubleHashed"
  | .tieBreaking => "TieBreaking"

/-- The cell type of a name. -/
def ofName? (text : String) : Option CellType :=
  [full, hashed, doubleHashed, tieBreaking].find? (·.name = text)

/-- Cells of this type can be made for `size` nonterminals. -/
def hasRoom (size : Nat) : CellType → Bool
  | .full | .tieBreaking => size < DenseStore.slotLimit
  | .hashed | .doubleHashed => true

/-- Cells of this type can hold scores aggregated this way. -/
def supports : CellType → Aggregation → Bool
  | .tieBreaking, .inside => false
  | _, _ => true

end CellType

/-- The entries of a cell. -/
inductive CellStore (S : Type) where
  | full (store : DenseStore S)
  | hashed (store : HashedStore S)
  | doubleHashed (store : SplitStore S)
  | tieBreaking (store : TieStore S)

namespace CellStore

variable {S J : Type}

/-- An empty store for `size` nonterminals. -/
def empty (size : Nat) : CellType → CellStore S
  | .full => .full (.empty size)
  | .hashed => .hashed .empty
  | .doubleHashed => .doubleHashed .empty
  | .tieBreaking => .tieBreaking (.empty size)

/-- What the store holds of a symbol. -/
def find? : CellStore S → Symbol → Option (Entry S)
  | .full store, sym => store.find? sym
  | .hashed store, sym => store.find? sym
  | .doubleHashed store, sym => store.find? sym
  | .tieBreaking store, sym => store.find? sym

/-- The symbols with an entry, by number. -/
def symbols : CellStore S → List Symbol
  | .full store => store.symbols
  | .hashed store => store.symbols
  | .doubleHashed store => store.symbols
  | .tieBreaking store => store.symbols

/-- The store without its entries. -/
def clear : CellStore S → CellStore S
  | .full store => .full store.clear
  | .hashed _ => .hashed .empty
  | .doubleHashed _ => .doubleHashed .empty
  | .tieBreaking store => .tieBreaking store.clear

/-- The draw of a symbol's incumbent, if ties are broken and it was contested.
-/
def jitter? : CellStore S → Symbol → Option Draw
  | .tieBreaking store, sym => store.jitter? sym
  | _, _ => none

/-- Takes an offer for the rule's parent. Only ties that are broken draw from
the source. -/
def offer [Score S] [JitterSource J] (aggregation : Aggregation) (o : Offer S) (source : J) :
    CellStore S → Except Fault (CellStore S × J)
  | .full store => do return (.full (← store.offer aggregation o), source)
  | .hashed store => .ok (.hashed (store.offer aggregation o), source)
  | .doubleHashed store => .ok (.doubleHashed (store.offer aggregation o), source)
  | .tieBreaking store => do
    let (store, source) ← store.offer o source
    return (.tieBreaking store, source)

end CellStore

/-- A cell: its entries, and the symbols present once it is closed. -/
structure Cell (S : Type) where
  aggregation : Aggregation
  store : CellStore S
  present : Option (List Symbol)

namespace Cell

variable {S J : Type}

/-- An open cell without entries, for `size` nonterminals. -/
def empty (type : CellType) (aggregation : Aggregation) (size : Nat) : Cell S :=
  ⟨aggregation, .empty size type, none⟩

/-- An open cell without entries. Refuses a number of nonterminals that cells of
the type have no room for. -/
def create (type : CellType) (aggregation : Aggregation) (size : Nat) : Except Fault (Cell S) :=
  if type.hasRoom size then .ok (empty type aggregation size) else .error .tableTooLarge

/-- The cell takes no more offers. -/
def isClosed (c : Cell S) : Bool := c.present.isSome

/-- Closes the cell. -/
def close (c : Cell S) : Cell S := { c with present := some c.store.symbols }

/-- Empties the cell and opens it again. -/
def reset (c : Cell S) : Cell S := { c with store := c.store.clear, present := none }

/-- What the cell holds of a symbol. -/
def find? (c : Cell S) (sym : Symbol) : Option (Entry S) := c.store.find? sym

/-- The symbol has been offered. -/
def contains (c : Cell S) (sym : Symbol) : Bool := (c.find? sym).isSome

/-- The score of a symbol. A symbol that was never offered cannot be derived. -/
def score [Score S] (c : Cell S) (sym : Symbol) : S :=
  match c.find? sym with
  | some e => e.score
  | none => c.aggregation.zero

/-- The back pointer of a symbol that has been offered. -/
def backPointer? (c : Cell S) (sym : Symbol) : Option BackPointer :=
  (c.find? sym).map (·.backPointer)

/-- The symbols that have been offered, by number. The cell has to be closed. -/
def symbols (c : Cell S) : Except Fault (List Symbol) :=
  match c.present with
  | some syms => .ok syms
  | none => .error .openCell

/-- The draw of a symbol's incumbent, if ties are broken and it was contested.
-/
def jitter? (c : Cell S) (sym : Symbol) : Option Draw := c.store.jitter? sym

/-- Takes an offer for the rule's parent. The cell has to be open. -/
def offer [Score S] [JitterSource J] (c : Cell S) (o : Offer S) (source : J) :
    Except Fault (Cell S × J) :=
  if c.isClosed then .error .closedCell
  else do
    let (store, source) ← c.store.offer c.aggregation o source
    return ({ c with store }, source)

/-! ## Closing and resetting -/

@[simp]
theorem isClosed_close (c : Cell S) : c.close.isClosed = true := rfl

@[simp]
theorem find?_close (c : Cell S) (sym : Symbol) : c.close.find? sym = c.find? sym := rfl

@[simp]
theorem symbols_close (c : Cell S) : c.close.symbols = .ok c.store.symbols := rfl

@[simp]
theorem isClosed_reset (c : Cell S) : c.reset.isClosed = false := rfl

/-- A closed cell takes no offer. -/
theorem offer_of_isClosed [Score S] [JitterSource J] {c : Cell S} (h : c.isClosed = true)
    (o : Offer S) (source : J) : c.offer o source = .error .closedCell := by
  simp [offer, h]

end Cell

end ChartParsing
