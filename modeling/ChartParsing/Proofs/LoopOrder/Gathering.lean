import ChartParsing.Proofs.Cell.History
import Mathlib.Data.List.Induction
import Mathlib.Order.MinMax

/-!
# Offers in any order

The loop orders make the same offers to a cell in different orders. What the cell
holds of a symbol comes from the offers for that symbol alone. Its score does not
depend on their order if best scores are compared in a linear order, or if pooling
is commutative and associative. Nothing is asked of how scores are combined. The
back pointer to a best derivation is another matter: of equally good ones the first
stays.
-/

namespace ChartParsing

variable {S : Type} [Score S]

/-- Alternatives may be aggregated in any order: best scores are compared in a
linear order, and pooling is commutative and associative. -/
def Aggregation.OrderFree (S : Type) [Score S] : Aggregation → Prop
  | .viterbi => ∃ order : LinearOrder S, ∀ a b : S, Score.exceeds a b = true ↔ order.lt b a
  | .inside => (∀ a b : S, Score.pool a b = Score.pool b a) ∧
      ∀ a b c : S, Score.pool (Score.pool a b) c = Score.pool a (Score.pool b c)

/-- The score of a symbol once one more score has been offered for it. -/
def Aggregation.join (aggregation : Aggregation) (old : Option S) (score : S) : Option S :=
  match old with
  | none => some score
  | some v =>
    match aggregation with
    | .viterbi => some (if Score.exceeds score v then score else v)
    | .inside => some (Score.pool v score)

/-- A merged entry has the joined score. -/
theorem Offer.merge_score (o : Offer S) (aggregation : Aggregation) (old : Option (Entry S)) :
    some (o.merge aggregation old).score = aggregation.join (old.map (·.score)) o.score := by
  cases old with
  | none => rfl
  | some e =>
    cases aggregation with
    | viterbi =>
      simp only [merge, Aggregation.join, Option.map_some]
      split <;> rfl
    | inside => rfl

/-- The score of a symbol is what the offers for it are joined to. -/
theorem gather_score (aggregation : Aggregation) (offers : List (Offer S)) (sym : Symbol) :
    (gather aggregation offers sym).map (·.score) =
      ((offers.filter fun o => o.rule.parent = sym).map (·.score)).foldl aggregation.join none := by
  induction offers using List.reverseRecOn with
  | nil => rfl
  | append_singleton offers o ih =>
    rw [gather_concat, List.filter_append, List.map_append, List.foldl_append, ← ih]
    by_cases hp : o.rule.parent = sym
    · rw [if_pos hp, List.filter_cons_of_pos (by simpa using hp), Option.map_some, o.merge_score]
      rfl
    · rw [if_neg hp, List.filter_cons_of_neg (by simpa using hp)]
      rfl

/-- Two scores may be joined in either order. -/
theorem Aggregation.OrderFree.join_comm {aggregation : Aggregation} (h : aggregation.OrderFree S)
    (old : Option S) (a b : S) :
    aggregation.join (aggregation.join old a) b = aggregation.join (aggregation.join old b) a := by
  cases aggregation with
  | viterbi =>
    obtain ⟨order, hexceeds⟩ := h
    -- joining is taking the greater one
    have hmax : ∀ v x : S, (if Score.exceeds x v then x else v) = max v x := by
      intro v x
      by_cases hlt : v < x
      · rw [if_pos ((hexceeds x v).mpr hlt), max_eq_right (le_of_lt hlt)]
      · rw [if_neg fun hx => hlt ((hexceeds x v).mp hx), max_eq_left (not_lt.mp hlt)]
    cases old with
    | none => simp only [join, hmax, max_comm]
    | some v => simp only [join, hmax, max_right_comm]
  | inside =>
    obtain ⟨hcomm, hassoc⟩ := h
    cases old with
    | none => simp only [join, hcomm a b]
    | some v => simp only [join, hassoc, hcomm a b]

/-- **The score of a symbol does not depend on the order of its offers.** -/
theorem Aggregation.OrderFree.gather_eq {aggregation : Aggregation} (h : aggregation.OrderFree S)
    {offers offers' : List (Offer S)} {sym : Symbol}
    (hperm : (offers.filter fun o => o.rule.parent = sym).Perm
      (offers'.filter fun o => o.rule.parent = sym)) :
    (gather aggregation offers sym).map (·.score) =
      (gather aggregation offers' sym).map (·.score) := by
  rw [gather_score, gather_score]
  exact (hperm.map _).foldl_eq' (fun a _ b _ old => h.join_comm old a b) none

/-- Pooled entries have no back pointers. -/
theorem gather_untracked {offers : List (Offer S)} {sym : Symbol} {e : Entry S}
    (h : gather .inside offers sym = some e) : e.backPointer = .untracked := by
  induction offers using List.reverseRecOn generalizing e with
  | nil => cases h
  | append_singleton offers o ih =>
    rw [gather_concat] at h
    split at h
    · generalize gather .inside offers sym = old at h ih
      -- the first offer brings an entry without, and later ones change its score only
      cases old with
      | none =>
        cases h
        rfl
      | some e' =>
        cases h
        show e'.backPointer = .untracked
        exact ih rfl
    · exact ih h

end ChartParsing
