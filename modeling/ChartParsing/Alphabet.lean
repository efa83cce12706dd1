import Std.Data.HashMap
import ChartParsing.Symbol

/-!
# Alphabets

An alphabet numbers names. Names get the numbers 0, 1, 2, … in the order they
first come in, and a name that comes in again keeps its number. The names by
number and the numbers by name are held side by side, so that both directions
are looked up directly.
-/

namespace ChartParsing

/-- Names and their numbers. -/
structure Alphabet where
  names : Array String
  codes : Std.HashMap String Symbol

namespace Alphabet

/-- The alphabet without names. -/
def empty : Alphabet := ⟨#[], ∅⟩

/-- The number of names. -/
def size (a : Alphabet) : Nat := a.names.size

/-- The symbol of a name, if the name is known. -/
def lookup (a : Alphabet) (name : String) : Option Symbol := a.codes[name]?

/-- The symbols of all the names, unless one of them is unknown. -/
def lookupAll (a : Alphabet) (names : List String) : Option (List Symbol) :=
  names.mapM a.lookup

/-- The name of a symbol, if it has one. -/
def name? (a : Alphabet) (sym : Symbol) : Option String := a.names[sym.index]?

/-- The symbol is numbered here. -/
def contains (a : Alphabet) (sym : Symbol) : Bool := sym.index < a.size

/-- The symbol of a name, which is numbered next if it is new. -/
def intern (a : Alphabet) (name : String) : Symbol × Alphabet :=
  match a.lookup name with
  | some sym => (sym, a)
  | none =>
    let sym := Symbol.ofNat a.size
    (sym, ⟨a.names.push name, a.codes.insert name sym⟩)

/-- The symbols of several names, taken in order. -/
def internAll (a : Alphabet) : List String → List Symbol × Alphabet
  | [] => ([], a)
  | name :: names =>
    let (sym, a) := a.intern name
    let (syms, a) := a.internAll names
    (sym :: syms, a)

/-- The alphabet of several names, numbered in order. -/
def ofNames (names : List String) : Alphabet := (empty.internAll names).2

/-- All symbols of the alphabet, by number. -/
def symbols (a : Alphabet) : List Symbol := (List.range a.size).map Symbol.ofNat

end Alphabet

end ChartParsing
