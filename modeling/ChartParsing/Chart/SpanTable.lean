import ChartParsing.Fault
import ChartParsing.Span
import ChartParsing.Symbol

/-!
# Tables over spans and symbols

One value for every span of a sentence and every nonterminal, laid out span by
span in the order of `Span.all`, and by symbol within a span.
-/

namespace ChartParsing

/-- A value per span of `tokens` tokens and symbol numbered below `width`. -/
structure SpanTable (α : Type) where
  tokens : Nat
  width : Nat
  entries : Array α

namespace SpanTable

variable {α : Type}

/-- The same value everywhere. -/
def replicate (tokens width : Nat) (value : α) : SpanTable α :=
  ⟨tokens, width, Array.replicate (Span.count tokens * width) value⟩

/-- The place of a span and symbol. -/
def place (t : SpanTable α) (sym : Symbol) (start stop : Nat) : Nat :=
  Span.index t.tokens start stop * t.width + sym.index

/-- The value at a span and symbol. -/
def get (t : SpanTable α) (sym : Symbol) (start stop : Nat) : Except Fault α :=
  match t.entries[t.place sym start stop]? with
  | some value => .ok value
  | none => .error .noSlot

/-- Another value at a span and symbol. -/
def set (t : SpanTable α) (sym : Symbol) (start stop : Nat) (value : α) :
    Except Fault (SpanTable α) :=
  if t.place sym start stop < t.entries.size then
    .ok { t with entries := t.entries.setIfInBounds (t.place sym start stop) value }
  else .error .noSlot

end SpanTable

end ChartParsing
