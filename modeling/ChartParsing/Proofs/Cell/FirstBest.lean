import Mathlib.Data.List.Basic

/-!
# The first of the best

Cells keep one of the derivations they are offered: the first that none of the others
beats. Derivations come one at a time, so what has to be known is how the first of the
best changes when a list gets longer. It stays if the newcomer does not beat it, and
gives way if the newcomer beats all.
-/

namespace ChartParsing

variable {α : Type}

/-- `x` is the first of the best: it beats those before it, and none after it beats
`x`. -/
def FirstBest (beats : α → α → Prop) (xs : List α) (x : α) : Prop :=
  ∃ before after, xs = before ++ x :: after ∧
    (∀ y ∈ before, beats x y) ∧ ∀ y ∈ after, ¬ beats y x

namespace FirstBest

variable {beats : α → α → Prop} {xs : List α} {x y : α}

theorem mem (h : FirstBest beats xs x) : x ∈ xs := by
  obtain ⟨before, after, rfl, -, -⟩ := h
  simp

/-- None of them beats the first of the best. -/
theorem not_beats (h : FirstBest beats xs x) (hasymm : ∀ {a b}, beats a b → ¬ beats b a)
    (hy : y ∈ xs) : ¬ beats y x := by
  obtain ⟨before, after, rfl, hbefore, hafter⟩ := h
  rcases List.mem_append.mp hy with hy | hy
  · exact hasymm (hbefore y hy)
  · rcases List.mem_cons.mp hy with rfl | hy
    · exact fun hself => hasymm hself hself
    · exact hafter y hy

theorem singleton (beats : α → α → Prop) (x : α) : FirstBest beats [x] x :=
  ⟨[], [], rfl, by simp, by simp⟩

/-- One that does not beat the first of the best changes nothing. -/
theorem keep (h : FirstBest beats xs x) (hy : ¬ beats y x) : FirstBest beats (xs ++ [y]) x := by
  obtain ⟨before, after, rfl, hbefore, hafter⟩ := h
  refine ⟨before, after ++ [y], by simp, hbefore, ?_⟩
  intro z hz
  rcases List.mem_append.mp hz with hz | hz
  · exact hafter z hz
  · rw [List.mem_singleton.mp hz]
    exact hy

/-- One that beats all comes first. -/
theorem replace (h : ∀ z ∈ xs, beats y z) : FirstBest beats (xs ++ [y]) y :=
  ⟨xs, [], rfl, h, by simp⟩

end FirstBest

end ChartParsing
