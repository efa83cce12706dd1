import ChartParsing.Cell.Entry

/-!
# Dense stores

One slot per nonterminal, which suits grammars with few of them. A dense store
has no slot for symbols past its end and refuses undefined scores.

Scores and back pointers lie in arrays of their own, and a slot is filled at the
first offer of its symbol. The store takes note of the symbols it has filled the
slots of: they are the ones it has, and emptying it resets their slots and no
others.
-/

namespace ChartParsing

/-- A slot for every symbol numbered below `scores.size`. -/
structure DenseStore (S : Type) where
  /-- No score before the first offer. -/
  scores : Array (Option S)
  backPointers : Array BackPointer
  /-- The symbols whose slots are filled, in the order of their first offers. -/
  touched : Array Symbol

namespace DenseStore

variable {S : Type}

/-- There are fewer slots than this: of eight bytes each, their bytes have to be
counted by a signed 64-bit number. -/
def slotLimit : Nat := UInt64.size / 16

/-- A store of `size` slots, none of them filled. -/
def empty (size : Nat) : DenseStore S :=
  ⟨Array.replicate size none, Array.replicate size .untracked, #[]⟩

/-- What the store holds of a symbol. -/
def find? (s : DenseStore S) (sym : Symbol) : Option (Entry S) :=
  s.scores[sym.index]?.join.map fun score =>
    ⟨score, s.backPointers[sym.index]?.getD .untracked⟩

/-- The symbols with an entry, by number. -/
def symbols (s : DenseStore S) : List Symbol := s.touched.toList.mergeSort Symbol.le

/-- Takes note that the slot of a symbol is filled. -/
def touch (s : DenseStore S) (sym : Symbol) : DenseStore S :=
  { s with touched := s.touched.push sym }

/-- Resets the slot of a symbol. -/
def wipe (s : DenseStore S) (sym : Symbol) : DenseStore S :=
  { s with
    scores := s.scores.setIfInBounds sym.index none
    backPointers := s.backPointers.setIfInBounds sym.index .untracked }

/-- Resets the slots of the symbols taken note of, and forgets these. -/
def clear (s : DenseStore S) : DenseStore S :=
  { s.touched.toList.foldl wipe s with touched := #[] }

/-- Writes an entry into the slot of a symbol. -/
def write (s : DenseStore S) (sym : Symbol) (e : Entry S) : DenseStore S :=
  { s with
    scores := s.scores.setIfInBounds sym.index (some e.score)
    backPointers := s.backPointers.setIfInBounds sym.index e.backPointer }

/-- Writes an entry into the slot of a symbol, unless its score is undefined. -/
def put [Score S] (s : DenseStore S) (sym : Symbol) (e : Entry S) : Except Fault (DenseStore S) :=
  if Score.isUndefined e.score then .error .undefinedScore else .ok (s.write sym e)

/-- Takes an offer for the rule's parent. The first one fills the slot, any other
is merged into it. -/
def offer [Score S] (s : DenseStore S) (aggregation : Aggregation) (o : Offer S) :
    Except Fault (DenseStore S) :=
  let sym := o.rule.parent
  match s.scores[sym.index]? with
  | none => .error .noSlot
  | some none => do return (← s.put sym (o.entry aggregation)).touch sym
  | some (some _) => s.put sym (o.merge aggregation (s.find? sym))

@[simp]
theorem find?_empty (size : Nat) (sym : Symbol) : (empty size : DenseStore S).find? sym = none := by
  simp only [empty, find?, Array.getElem?_replicate]
  split <;> rfl

/-- There is an entry where there is a score. -/
theorem isSome_find? (s : DenseStore S) (sym : Symbol) :
    (s.find? sym).isSome = s.scores[sym.index]?.join.isSome :=
  Option.isSome_map

end DenseStore

end ChartParsing
