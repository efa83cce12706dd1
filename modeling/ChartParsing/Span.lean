import ChartParsing.Fault

/-!
# Spans

A span runs from one gap between tokens to a later one. A sentence of `n` tokens
has the `n * (n + 1) / 2` spans with `start < stop ≤ n`, and tables over them
are laid out in a triangle: by start, then by end. `Span.index` is the place of
a span in that order.

Parsing goes through the same spans by width, so that the parts of a span come
before it.
-/

namespace ChartParsing.Span

/-- The number of tokens from one gap to another. Refuses a gap that comes before
the first. -/
def width? (start stop : Nat) : Except Fault Nat :=
  if start ≤ stop then .ok (stop - start) else .error .reversedSpan

/-- The number of spans of `n` tokens. -/
def count (n : Nat) : Nat := n * (n + 1) / 2

/-- The place of a span among those of `n` tokens. -/
def index (n start stop : Nat) : Nat := start * n - start * (start - 1) / 2 + (stop - start - 1)

/-- All spans of `n` tokens, by start, then by end. -/
def all (n : Nat) : List (Nat × Nat) :=
  (List.range n).flatMap fun start =>
    (List.range' (start + 1) (n - start)).map fun stop => (start, stop)

/-- The spans of `width` tokens in a sentence of `n`, from left to right. -/
def ofWidth (n width : Nat) : List (Nat × Nat) :=
  (List.range (n + 1 - width)).map fun start => (start, start + width)

/-- All spans of `n` tokens, narrow ones first. -/
def narrowFirst (n : Nat) : List (Nat × Nat) := (List.range' 1 n).flatMap (ofWidth n)

/-- All spans of `n` tokens, wide ones first. -/
def wideFirst (n : Nat) : List (Nat × Nat) := (List.range' 1 n).reverse.flatMap (ofWidth n)

/-- The gaps strictly inside a span, from left to right. -/
def splits (start stop : Nat) : List Nat := List.range' (start + 1) (stop - start - 1)

/-- The spans listed are those of the sentence. -/
theorem mem_all {n start stop : Nat} : (start, stop) ∈ all n ↔ start < stop ∧ stop ≤ n := by
  simp only [all, List.mem_flatMap, List.mem_range, List.mem_map, List.mem_range'_1,
    Prod.mk.injEq]
  refine ⟨?_, ?_⟩
  · intro h
    rcases h with ⟨_, hn, _, ⟨h₁, h₂⟩, rfl, rfl⟩
    omega
  · intro h
    rcases h with ⟨h₁, h₂⟩
    exact ⟨start, by omega, stop, by omega, rfl, rfl⟩

/-- The spans of a width are those of that width that fit the sentence. -/
theorem mem_ofWidth {n width start stop : Nat} :
    (start, stop) ∈ ofWidth n width ↔ stop = start + width ∧ start + width ≤ n := by
  simp only [ofWidth, List.mem_map, List.mem_range, Prod.mk.injEq]
  refine ⟨?_, ?_⟩
  · intro hx
    rcases hx with ⟨_, hn, rfl, rfl⟩
    omega
  · intro hx
    rcases hx with ⟨rfl, h⟩
    exact ⟨start, by omega, rfl, rfl⟩

/-- Going by width leaves out no span and adds none. -/
theorem mem_narrowFirst {n start stop : Nat} :
    (start, stop) ∈ narrowFirst n ↔ start < stop ∧ stop ≤ n := by
  simp only [narrowFirst, List.mem_flatMap, List.mem_range'_1, mem_ofWidth]
  refine ⟨?_, ?_⟩
  · intro hx
    rcases hx with ⟨width, hw, rfl, h⟩
    omega
  · intro hx
    rcases hx with ⟨h₁, h₂⟩
    exact ⟨stop - start, by omega, by omega, by omega⟩

/-- Splits are strictly inside. -/
theorem mem_splits {start mid stop : Nat} : mid ∈ splits start stop ↔ start < mid ∧ mid < stop := by
  simp only [splits, List.mem_range'_1]
  omega

end ChartParsing.Span
