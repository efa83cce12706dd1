import Std.Data.HashMap
import ChartParsing.Cell.Entry

/-!
# Hashed stores

Maps from symbols to entries, for grammars with so many nonterminals that a slot
for each would waste room. They take any symbol and any score. `HashedStore`
keeps whole entries; `SplitStore` keeps scores and back pointers apart, and has
no back pointers at all for pooled scores.

A map lists its keys in no particular order, so the symbols of a store are
sorted.
-/

namespace ChartParsing

/-- Entries by symbol. -/
structure HashedStore (S : Type) where
  entries : Std.HashMap Symbol (Entry S)

namespace HashedStore

variable {S : Type}

/-- A store without entries. -/
def empty : HashedStore S := ⟨∅⟩

/-- What the store holds of a symbol. -/
def find? (s : HashedStore S) (sym : Symbol) : Option (Entry S) := s.entries[sym]?

/-- The symbols with an entry, by number. -/
def symbols (s : HashedStore S) : List Symbol := s.entries.keys.mergeSort Symbol.le

/-- Takes an offer for the rule's parent. -/
def offer [Score S] (s : HashedStore S) (aggregation : Aggregation) (o : Offer S) :
    HashedStore S :=
  ⟨s.entries.insert o.rule.parent (o.merge aggregation (s.find? o.rule.parent))⟩

@[simp]
theorem find?_empty (sym : Symbol) : (empty : HashedStore S).find? sym = none := by
  simp [empty, find?]

/-- An offer changes what the store holds of its parent, and of no other
symbol. -/
theorem find?_offer [Score S] (s : HashedStore S) (aggregation : Aggregation) (o : Offer S)
    (sym : Symbol) :
    (s.offer aggregation o).find? sym =
      if o.rule.parent = sym then some (o.merge aggregation (s.find? sym)) else s.find? sym := by
  simp only [offer, find?, Std.HashMap.getElem?_insert, beq_iff_eq]
  split
  · rename_i h
    rw [h]
  · rfl

end HashedStore

/-- Scores by symbol, and back pointers by symbol. -/
structure SplitStore (S : Type) where
  scores : Std.HashMap Symbol S
  backPointers : Std.HashMap Symbol BackPointer

namespace SplitStore

variable {S : Type}

/-- A store without entries. -/
def empty : SplitStore S := ⟨∅, ∅⟩

/-- What the store holds of a symbol. A score without a back pointer is an
untracked one. -/
def find? (s : SplitStore S) (sym : Symbol) : Option (Entry S) :=
  s.scores[sym]?.map fun score => ⟨score, s.backPointers[sym]?.getD .untracked⟩

/-- The symbols with an entry, by number. -/
def symbols (s : SplitStore S) : List Symbol := s.scores.keys.mergeSort Symbol.le

/-- Writes an entry. Only a back pointer to a derivation takes room. -/
def put (s : SplitStore S) (sym : Symbol) (e : Entry S) : SplitStore S where
  scores := s.scores.insert sym e.score
  backPointers :=
    match e.backPointer with
    | .derivation .. => s.backPointers.insert sym e.backPointer
    | .untracked => s.backPointers

/-- Takes an offer for the rule's parent. -/
def offer [Score S] (s : SplitStore S) (aggregation : Aggregation) (o : Offer S) : SplitStore S :=
  s.put o.rule.parent (o.merge aggregation (s.find? o.rule.parent))

@[simp]
theorem find?_empty (sym : Symbol) : (empty : SplitStore S).find? sym = none := by
  simp [empty, find?]

end SplitStore

end ChartParsing
