import ChartParsing.Fault
import ChartParsing.Symbol

/-!
# Sets of symbols

A set over an alphabet of fixed size holds one bit per symbol. Symbols past the
end are never members and cannot be put in.
-/

namespace ChartParsing

/-- A set of symbols numbered below `bits.size`. -/
structure SymbolSet where
  bits : Array Bool

namespace SymbolSet

/-- The set over `size` symbols that holds all of them, or none. -/
def replicate (size : Nat) (all : Bool) : SymbolSet := ⟨Array.replicate size all⟩

/-- The size of the alphabet the set ranges over. -/
def size (s : SymbolSet) : Nat := s.bits.size

/-- Membership. -/
def contains (s : SymbolSet) (sym : Symbol) : Bool := s.bits[sym.index]?.getD false

/-- Puts a symbol in or takes it out. A symbol past the end changes nothing. -/
def assign (s : SymbolSet) (sym : Symbol) (member : Bool) : SymbolSet :=
  ⟨s.bits.setIfInBounds sym.index member⟩

/-- Puts a symbol in. -/
def insert (s : SymbolSet) (sym : Symbol) : SymbolSet := s.assign sym true

/-- Puts a symbol in or takes it out, and refuses one past the end. -/
def assign? (s : SymbolSet) (sym : Symbol) (member : Bool) : Except Fault SymbolSet :=
  if sym.index < s.size then .ok (s.assign sym member) else .error .noSlot

/-- The members, by number. -/
def members (s : SymbolSet) : List Symbol :=
  ((List.range s.size).map Symbol.ofNat).filter s.contains

/-- The number of members. -/
def count (s : SymbolSet) : Nat := s.members.length

@[simp]
theorem size_assign (s : SymbolSet) (sym : Symbol) (member : Bool) :
    (s.assign sym member).size = s.size := by
  simp [assign, size]

theorem contains_assign (s : SymbolSet) (sym other : Symbol) (member : Bool) :
    (s.assign sym member).contains other =
      if sym = other ∧ sym.index < s.size then member else s.contains other := by
  by_cases h : sym = other
  · subst h
    by_cases hs : sym.index < s.size
    · simp only [size] at hs
      simp [assign, contains, size, hs]
    · simp only [size] at hs
      simp [assign, contains, size, hs]
  · simp [assign, contains, Symbol.index_inj, h]

end SymbolSet

end ChartParsing
