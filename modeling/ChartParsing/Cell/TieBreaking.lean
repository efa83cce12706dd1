import ChartParsing.Cell.Dense
import ChartParsing.Jitter

/-!
# Stores that break ties by chance

A dense store of best derivations in which equally good ones win equally often.
When an offer ties with the incumbent, each of them draws jitter and the larger
draw wins. The incumbent draws the first time it is contested and keeps its draw
until it loses; an offer that is clearly better starts afresh.

The draws lie in an array beside the dense store, and a slot of it is reset with
the others.
-/

namespace ChartParsing

/-- The incumbent of a symbol, and its draw once it has been contested. -/
structure Incumbent (S : Type) where
  entry : Entry S
  jitter : Option Draw

/-- A draw that is made now, unless it was made before. -/
def JitterSource.drawOnce {J : Type} [JitterSource J] (draw? : Option Draw) (source : J) :
    Draw × J :=
  match draw? with
  | some draw => (draw, source)
  | none => JitterSource.draw source

/-- The draw of an incumbent that is contested, made now if this is the first
time. -/
def Incumbent.contest {S J : Type} [JitterSource J] (i : Incumbent S) (source : J) : Draw × J :=
  JitterSource.drawOnce i.jitter source

/-- The best derivations, and the draws of the incumbents that were contested. -/
structure TieStore (S : Type) where
  best : DenseStore S
  jitter : Array (Option Draw)

namespace TieStore

variable {S J : Type}

/-- A store of `size` slots, none of them filled. -/
def empty (size : Nat) : TieStore S := ⟨.empty size, Array.replicate size none⟩

/-- What the store holds of a symbol. -/
def find? (s : TieStore S) (sym : Symbol) : Option (Entry S) := s.best.find? sym

/-- The draw of a symbol's incumbent, if it was ever contested. -/
def jitter? (s : TieStore S) (sym : Symbol) : Option Draw := s.jitter[sym.index]?.join

/-- The incumbent of a symbol. -/
def incumbent? (s : TieStore S) (sym : Symbol) : Option (Incumbent S) :=
  (s.find? sym).map fun entry => ⟨entry, s.jitter? sym⟩

/-- The symbols with an entry, by number. -/
def symbols (s : TieStore S) : List Symbol := s.best.symbols

/-- Writes the draw of a symbol's incumbent, or that it has none. -/
def setJitter (s : TieStore S) (sym : Symbol) (draw : Option Draw) : TieStore S :=
  { s with jitter := s.jitter.setIfInBounds sym.index draw }

/-- Resets the slot of a symbol, its draw included. -/
def wipe (s : TieStore S) (sym : Symbol) : TieStore S :=
  { s.setJitter sym none with best := s.best.wipe sym }

/-- Resets the slots of the symbols taken note of, and forgets these. -/
def clear (s : TieStore S) : TieStore S :=
  let s := s.best.touched.toList.foldl wipe s
  { s with best := { s.best with touched := #[] } }

/-- Writes the derivation of an offer over that of the incumbent, unless its score
is undefined. Draws stay as they are. -/
def replace [Score S] (s : TieStore S) (o : Offer S) : Except Fault (TieStore S) := do
  return { s with best := ← s.best.put o.rule.parent (o.entry .viterbi) }

/-- Takes an offer for the rule's parent, drawing jitter for a tie. -/
def offer [Score S] [JitterSource J] (s : TieStore S) (o : Offer S) (source : J) :
    Except Fault (TieStore S × J) :=
  let sym := o.rule.parent
  match s.best.scores[sym.index]? with
  | none => .error .noSlot
  | some none => do
    let s ← s.replace o
    return ({ s with best := s.best.touch sym }, source)
  | some (some score) =>
    if Score.clearlyExceeds o.score score then do
      return ((← s.replace o).setJitter sym none, source)
    else if Score.ties o.score score then
      let (defence, source) := JitterSource.drawOnce (s.jitter? sym) source
      let s := s.setJitter sym (some defence)
      let (attack, source) := JitterSource.draw source
      if defence < attack then do
        return ((← s.replace o).setJitter sym (some attack), source)
      else .ok (s, source)
    else .ok (s, source)

@[simp]
theorem find?_empty (size : Nat) (sym : Symbol) : (empty size : TieStore S).find? sym = none :=
  DenseStore.find?_empty size sym

end TieStore

end ChartParsing
