import ChartParsing.Chart.Filling
import ChartParsing.Proofs.Cell.History
import ChartParsing.Proofs.Grammar.Rules
import ChartParsing.Proofs.Step

/-!
# What is found to apply

Filling a cell looks rules up in three ways: lexical rules by the token, binary
rules by the symbols on the two sides of a split, and unary rules by their child.
Over an indexed grammar each of them finds exactly the applications of that kind
that the scores of the cells allow, and none twice. For binary rules this holds in
every loop order, so the three loop orders differ in the order alone.
-/

namespace ChartParsing

/-! ## What a cell holds -/

section

variable {S : Type}

/-- The score of a symbol that is present. -/
def Cell.value? (c : Cell S) (sym : Symbol) : Option S := (c.find? sym).map (·.score)

theorem Cell.contains_iff_value? {c : Cell S} {sym : Symbol} :
    c.contains sym = true ↔ ∃ v, c.value? sym = some v := by
  rw [contains, value?, Option.isSome_iff_exists]
  cases c.find? sym <;> simp

/-- The cell is closed, and its store is in order. -/
structure Cell.Shut [Score S] (c : Cell S) : Prop where
  symbols_eq : c.symbols = .ok c.store.symbols
  tidy : c.store.Tidy

theorem Cell.Shut.nodup_symbols [Score S] {c : Cell S} (h : c.Shut) : c.store.symbols.Nodup :=
  h.tidy.pairwise_symbols.imp fun h heq => by rw [heq] at h; exact Nat.lt_irrefl _ h

theorem Cell.Shut.mem_symbols [Score S] {c : Cell S} (h : c.Shut) {sym : Symbol} :
    sym ∈ c.store.symbols ↔ ∃ v, c.value? sym = some v := by
  rw [h.tidy.mem_symbols]
  exact Cell.contains_iff_value?

theorem Cell.score_eq_of_value? [Score S] {c : Cell S} {sym : Symbol} {v : S}
    (h : c.value? sym = some v) : c.score sym = v := by
  obtain ⟨e, he, rfl⟩ := Option.map_eq_some_iff.mp h
  rw [score, he]

theorem Cell.score_eq_of_value?_none [Score S] {c : Cell S} {sym : Symbol}
    (h : c.value? sym = none) : c.score sym = Score.impossible := by
  rw [score, Option.map_eq_none_iff.mp h]
  rfl

/-- A symbol that is absent counts as one that cannot be derived. -/
theorem Cell.score_eq [Score S] (c : Cell S) (sym : Symbol) :
    c.score sym = (c.value? sym).getD Score.impossible := by
  cases hv : c.value? sym with
  | none => rw [Cell.score_eq_of_value?_none hv, Option.getD_none]
  | some v => rw [Cell.score_eq_of_value? hv, Option.getD_some]

/-! ## Rules by their symbols -/

theorem Rule.leftChildKey_eq {r : Rule S} {y : Symbol} :
    r.leftChildKey = some y.index ↔ ∃ z, r.rhs = .binary y z := by
  rw [leftChildKey_eq_some]
  simp [Symbol.index_inj, and_comm]

theorem Rule.rightChildKey_eq {r : Rule S} {z : Symbol} :
    r.rightChildKey = some z.index ↔ ∃ y, r.rhs = .binary y z := by
  rw [rightChildKey_eq_some]
  simp [Symbol.index_inj]

/-- The rules found for a token are applied to it. -/
theorem Chart.lexicalApplications_eq {C : Type} {chart : Chart S C} (h : chart.grammar.Indexed)
    {position : Nat} {token : Symbol} (htoken : chart.sentence[position]? = some token) :
    chart.lexicalApplications position =
      .ok ((chart.grammar.rules.toList.filter fun r => r.rhs = .lexical token).map fun r =>
        ⟨r, position, none⟩) := by
  unfold Chart.lexicalApplications
  rw [htoken]
  show (chart.grammar.rulesAt (chart.grammar.lexicalRules token) >>= _) = _
  rw [h.rulesAt_lexicalRules]
  rfl

end

namespace Chart

variable {S : Type} [Score S] {g : Grammar S} {mid : Nat} {left right : Cell S}

/-! ## Binary rules -/

/-- An application of a binary rule to what is present on two sides. -/
def Combines (g : Grammar S) (mid : Nat) (left right : Symbol → Option S) (a : Application S) :
    Prop :=
  ∃ r ∈ g.rules, ∃ y z v w, r.rhs = .binary y z ∧ left y = some v ∧ right z = some w ∧
    a = ⟨r, mid, some (Score.combine v w)⟩

/-- A list of applications has all that combine two sides, and none twice. -/
structure Lists (g : Grammar S) (mid : Nat) (left right : Symbol → Option S)
    (found : List (Application S)) : Prop where
  nodup : found.Nodup
  mem_iff : ∀ a, a ∈ found ↔ Combines g mid left right a

/-- The rules with two children, applied to what two cells hold of them. -/
def pairRow (g : Grammar S) (mid : Nat) (left right : Cell S) (y z : Symbol) :
    List (Application S) :=
  (g.rules.toList.filter fun r => r.rhs = .binary y z).map fun r =>
    ⟨r, mid, some (Score.combine (left.score y) (right.score z))⟩

theorem pairRow_eq_nil {y z : Symbol} (h : ¬ ∃ r ∈ g.rules, r.rhs = .binary y z) :
    pairRow g mid left right y z = [] := by
  rw [pairRow, Grammar.Indexed.filter_rhs_eq_nil h, List.map_nil]

theorem pairApplications_eq (h : g.Indexed) (horder : g.loopOrder = .cartesianProduct)
    (hleft : left.Shut) (hright : right.Shut) :
    pairApplications g mid left right = .ok (left.store.symbols.flatMap fun y =>
      right.store.symbols.flatMap fun z => pairRow g mid left right y z) := by
  unfold pairApplications
  rw [hleft.symbols_eq, hright.symbols_eq]
  show ((List.mapM _ _ : Except Fault _) >>= _) = _
  rw [mapM_eq_ok (g := fun y => right.store.symbols.flatMap fun z => pairRow g mid left right y z)]
  · rw [List.flatMap_def]
    rfl
  intro y _
  -- a symbol that is no left child is passed over, and its rows are empty
  by_cases hy : g.isLeftChild y = true
  case neg =>
    rw [if_pos (by simpa using hy)]
    have hnone : ∀ z, pairRow g mid left right y z = [] := fun z =>
      pairRow_eq_nil fun ⟨r, hr, hrhs⟩ => hy ((h.isLeftChild_iff y).mpr ⟨r, hr, z, hrhs⟩)
    rw [List.flatMap_eq_nil_iff.mpr fun z _ => hnone z]
    rfl
  rw [if_neg (by simp [hy])]
  show ((List.mapM _ _ : Except Fault _) >>= _) = _
  rw [mapM_eq_ok (g := fun z => pairRow g mid left right y z)]
  · rw [List.flatMap_def]
    rfl
  intro z _
  by_cases hz : g.isRightChild z = true
  case neg =>
    rw [if_pos (by simpa using hz), pairRow_eq_nil fun ⟨r, hr, hrhs⟩ =>
      hz ((h.isRightChild_iff z).mpr ⟨r, hr, y, hrhs⟩)]
    rfl
  rw [if_neg (by simp [hz])]
  obtain ⟨ids, hids, hrules⟩ := h.binaryRulesWithChildren_eq horder y z
  rw [hids]
  show (g.rulesAt ids >>= _) = _
  rw [hrules]
  rfl

theorem mem_pairRow {y z : Symbol} {a : Application S} :
    a ∈ pairRow g mid left right y z ↔ ∃ r ∈ g.rules, r.rhs = .binary y z ∧
      a = ⟨r, mid, some (Score.combine (left.score y) (right.score z))⟩ := by
  simp only [pairRow, List.mem_map, List.mem_filter, Array.mem_toList_iff, decide_eq_true_eq]
  refine ⟨?_, ?_⟩
  · intro h
    rcases h with ⟨r, ⟨hr, hrhs⟩, rfl⟩
    exact ⟨r, hr, hrhs, rfl⟩
  · intro h
    rcases h with ⟨r, hr, hrhs, rfl⟩
    exact ⟨r, ⟨hr, hrhs⟩, rfl⟩

theorem nodup_pairRow (h : g.Indexed) (y z : Symbol) : (pairRow g mid left right y z).Nodup :=
  nodup_map_of_key (·.rule) (h.nodup_rules.filter _) fun _ => rfl

/-- Going through the pairs finds what combines two cells. -/
theorem lists_pairs (h : g.Indexed) (hleft : left.Shut) (hright : right.Shut) :
    Lists g mid left.value? right.value? (left.store.symbols.flatMap fun y =>
      right.store.symbols.flatMap fun z => pairRow g mid left right y z) := by
  refine ⟨?_, ?_⟩
  -- an application tells its rule, and so the pair under which it is found
  · refine nodup_flatMap_of_key (fun a => a.rule.leftChild) hleft.nodup_symbols ?_ ?_
    · intro y _
      refine nodup_flatMap_of_key (fun a => a.rule.rightChild?.getD y) hright.nodup_symbols ?_ ?_
      · intro z _
        exact nodup_pairRow h y z
      · intro z _ a ha
        obtain ⟨r, _, hrhs, rfl⟩ := mem_pairRow.mp ha
        simp [Rule.rightChild?, hrhs]
    · intro y _ a ha
      obtain ⟨z, _, ha⟩ := List.mem_flatMap.mp ha
      obtain ⟨r, _, hrhs, rfl⟩ := mem_pairRow.mp ha
      simp [Rule.leftChild, hrhs]
  · intro a
    simp only [List.mem_flatMap, mem_pairRow, hleft.mem_symbols, hright.mem_symbols]
    refine ⟨?_, ?_⟩
    · intro hx
      rcases hx with ⟨y, ⟨v, hv⟩, z, ⟨w, hw⟩, r, hr, hrhs, rfl⟩
      refine ⟨r, hr, y, z, v, w, hrhs, hv, hw, ?_⟩
      rw [Cell.score_eq_of_value? hv, Cell.score_eq_of_value? hw]
    · intro hx
      rcases hx with ⟨r, hr, y, z, v, w, hrhs, hv, hw, rfl⟩
      refine ⟨y, ⟨v, hv⟩, z, ⟨w, hw⟩, r, hr, hrhs, ?_⟩
      rw [Cell.score_eq_of_value? hv, Cell.score_eq_of_value? hw]

/-- A rule with a given left child, applied if its right child is present. -/
def leftRow (g : Grammar S) (mid : Nat) (left right : Cell S) (y : Symbol) :
    List (Application S) :=
  (g.rules.toList.filter fun r => r.leftChildKey = some y.index).filterMap fun rule =>
    match rule.rightChild? with
    | some z =>
      if right.contains z then
        some ⟨rule, mid, some (Score.combine (left.score y) (right.score z))⟩
      else none
    | none => none

theorem leftChildApplications_eq (h : g.Indexed) (horder : g.loopOrder = .leftChild)
    (hleft : left.Shut) :
    leftChildApplications g mid left right =
      .ok (left.store.symbols.flatMap (leftRow g mid left right)) := by
  unfold leftChildApplications
  rw [hleft.symbols_eq]
  show ((List.mapM _ _ : Except Fault _) >>= _) = _
  rw [mapM_eq_ok (g := leftRow g mid left right)]
  · rw [List.flatMap_def]
    rfl
  intro y _
  obtain ⟨ids, hids, hrules⟩ := h.binaryRulesWithLeftChild_eq horder y
  rw [hids]
  show (g.rulesAt ids >>= _) = _
  rw [hrules]
  rfl

theorem mem_leftRow {y : Symbol} {a : Application S} :
    a ∈ leftRow g mid left right y ↔ ∃ r ∈ g.rules, ∃ z w, r.rhs = .binary y z ∧
      right.value? z = some w ∧ a = ⟨r, mid, some (Score.combine (left.score y) w)⟩ := by
  simp only [leftRow, List.mem_filterMap, List.mem_filter, Array.mem_toList_iff,
    decide_eq_true_eq, Rule.leftChildKey_eq]
  refine ⟨?_, ?_⟩
  · intro h
    rcases h with ⟨r, ⟨hr, z, hrhs⟩, ha⟩
    simp only [Rule.rightChild?, hrhs] at ha
    split at ha
    · rename_i hc
      obtain ⟨w, hw⟩ := Cell.contains_iff_value?.mp hc
      cases ha
      exact ⟨r, hr, z, w, hrhs, hw, by rw [Cell.score_eq_of_value? hw]⟩
    · cases ha
  · intro h
    rcases h with ⟨r, hr, z, w, hrhs, hw, rfl⟩
    refine ⟨r, ⟨hr, z, hrhs⟩, ?_⟩
    simp only [Rule.rightChild?, hrhs]
    rw [if_pos (Cell.contains_iff_value?.mpr ⟨w, hw⟩), Cell.score_eq_of_value? hw]

/-- Going through the left children finds what combines two cells. -/
theorem lists_left (h : g.Indexed) (hleft : left.Shut) :
    Lists g mid left.value? right.value?
      (left.store.symbols.flatMap (leftRow g mid left right)) := by
  refine ⟨?_, ?_⟩
  · refine nodup_flatMap_of_key (fun a => a.rule.leftChild) hleft.nodup_symbols ?_ ?_
    · intro y _
      refine nodup_filterMap_of_key (·.rule) (h.nodup_rules.filter _) ?_
      intro r hr a ha
      obtain ⟨z, hz⟩ := Rule.leftChildKey_eq.mp (of_decide_eq_true (List.mem_filter.mp hr).2)
      simp only [Rule.rightChild?, hz] at ha
      split at ha
      · cases ha
        rfl
      · cases ha
    · intro y _ a ha
      obtain ⟨r, _, z, w, hrhs, _, rfl⟩ := mem_leftRow.mp ha
      simp [Rule.leftChild, hrhs]
  · intro a
    simp only [List.mem_flatMap, mem_leftRow, hleft.mem_symbols]
    refine ⟨?_, ?_⟩
    · intro hx
      rcases hx with ⟨y, ⟨v, hv⟩, r, hr, z, w, hrhs, hw, rfl⟩
      exact ⟨r, hr, y, z, v, w, hrhs, hv, hw, by rw [Cell.score_eq_of_value? hv]⟩
    · intro hx
      rcases hx with ⟨r, hr, y, z, v, w, hrhs, hv, hw, rfl⟩
      exact ⟨y, ⟨v, hv⟩, r, hr, z, w, hrhs, hw, by rw [Cell.score_eq_of_value? hv]⟩

/-- A rule with a given right child, applied if its left child is present. -/
def rightRow (g : Grammar S) (mid : Nat) (left right : Cell S) (z : Symbol) :
    List (Application S) :=
  (g.rules.toList.filter fun r => r.rightChildKey = some z.index).filterMap fun rule =>
    if left.contains rule.leftChild then
      some ⟨rule, mid, some (Score.combine (left.score rule.leftChild) (right.score z))⟩
    else none

theorem rightChildApplications_eq (h : g.Indexed) (horder : g.loopOrder = .rightChild)
    (hright : right.Shut) :
    rightChildApplications g mid left right =
      .ok (right.store.symbols.flatMap (rightRow g mid left right)) := by
  unfold rightChildApplications
  rw [hright.symbols_eq]
  show ((List.mapM _ _ : Except Fault _) >>= _) = _
  rw [mapM_eq_ok (g := rightRow g mid left right)]
  · rw [List.flatMap_def]
    rfl
  intro z _
  obtain ⟨ids, hids, hrules⟩ := h.binaryRulesWithRightChild_eq horder z
  rw [hids]
  show (g.rulesAt ids >>= _) = _
  rw [hrules]
  rfl

theorem mem_rightRow {z : Symbol} {a : Application S} :
    a ∈ rightRow g mid left right z ↔ ∃ r ∈ g.rules, ∃ y v, r.rhs = .binary y z ∧
      left.value? y = some v ∧ a = ⟨r, mid, some (Score.combine v (right.score z))⟩ := by
  simp only [rightRow, List.mem_filterMap, List.mem_filter, Array.mem_toList_iff,
    decide_eq_true_eq, Rule.rightChildKey_eq]
  refine ⟨?_, ?_⟩
  · intro h
    rcases h with ⟨r, ⟨hr, y, hrhs⟩, ha⟩
    simp only [Rule.leftChild, hrhs] at ha
    split at ha
    · rename_i hc
      obtain ⟨v, hv⟩ := Cell.contains_iff_value?.mp hc
      cases ha
      exact ⟨r, hr, y, v, hrhs, hv, by rw [Cell.score_eq_of_value? hv]⟩
    · cases ha
  · intro h
    rcases h with ⟨r, hr, y, v, hrhs, hv, rfl⟩
    refine ⟨r, ⟨hr, y, hrhs⟩, ?_⟩
    simp only [Rule.leftChild, hrhs]
    rw [if_pos (Cell.contains_iff_value?.mpr ⟨v, hv⟩), Cell.score_eq_of_value? hv]

/-- Going through the right children finds what combines two cells. -/
theorem lists_right (h : g.Indexed) (hright : right.Shut) :
    Lists g mid left.value? right.value?
      (right.store.symbols.flatMap (rightRow g mid left right)) := by
  refine ⟨?_, ?_⟩
  · refine nodup_flatMap_of_key (fun a => a.rule.rightChild?.getD default)
      hright.nodup_symbols ?_ ?_
    · intro z _
      refine nodup_filterMap_of_key (·.rule) (h.nodup_rules.filter _) ?_
      intro r _ a ha
      split at ha
      · cases ha
        rfl
      · cases ha
    · intro z _ a ha
      obtain ⟨r, _, y, v, hrhs, _, rfl⟩ := mem_rightRow.mp ha
      simp [Rule.rightChild?, hrhs]
  · intro a
    simp only [List.mem_flatMap, mem_rightRow, hright.mem_symbols]
    refine ⟨?_, ?_⟩
    · intro hx
      rcases hx with ⟨z, ⟨w, hw⟩, r, hr, y, v, hrhs, hv, rfl⟩
      exact ⟨r, hr, y, z, v, w, hrhs, hv, hw, by rw [Cell.score_eq_of_value? hw]⟩
    · intro hx
      rcases hx with ⟨r, hr, y, z, v, w, hrhs, hv, hw, rfl⟩
      exact ⟨z, ⟨w, hw⟩, r, hr, y, v, hrhs, hv, by rw [Cell.score_eq_of_value? hw]⟩

/-- **Every loop order finds what combines two closed cells.** -/
theorem binaryApplications_ok (mid : Nat) (h : g.Indexed)
    (hleft : left.Shut) (hright : right.Shut) :
    ∃ found, binaryApplications g mid left right g.loopOrder = .ok found ∧
      Lists g mid left.value? right.value? found := by
  cases horder : g.loopOrder with
  | cartesianProduct =>
    exact ⟨_, pairApplications_eq h horder hleft hright, lists_pairs h hleft hright⟩
  | leftChild => exact ⟨_, leftChildApplications_eq h horder hleft, lists_left h hleft⟩
  | rightChild => exact ⟨_, rightChildApplications_eq h horder hright, lists_right h hright⟩

/-! ## Unary rules -/

/-- The applications of the unary rules with a child that is present. -/
def unaryRow (g : Grammar S) (site : Site S) (child : Symbol) : List (Application S) :=
  match site.cell.value? child with
  | none => []
  | some v => (g.rules.toList.filter fun r => r.rhs = .unary child).map fun r =>
      ⟨r, site.stop, some v⟩

theorem unaryApplications_eq (h : g.Indexed) (site : Site S) (child : Symbol) :
    unaryApplications g site child = .ok (unaryRow g site child) := by
  unfold unaryApplications unaryRow
  cases hv : site.cell.value? child with
  | none =>
    have hc : ¬ site.cell.contains child = true := fun hc => by
      obtain ⟨v, hv'⟩ := Cell.contains_iff_value?.mp hc
      rw [hv] at hv'
      cases hv'
    rw [if_pos (by simpa using hc)]
    rfl
  | some v =>
    have hc := Cell.contains_iff_value?.mpr ⟨v, hv⟩
    rw [if_neg (by simp [hc]), Cell.score_eq_of_value? hv, h.rulesAt_unaryRulesWithChild]
    rfl

omit [Score S] in
theorem mem_unaryRow {site : Site S} {child : Symbol} {a : Application S} :
    a ∈ unaryRow g site child ↔ ∃ r ∈ g.rules, ∃ v, r.rhs = .unary child ∧
      site.cell.value? child = some v ∧ a = ⟨r, site.stop, some v⟩ := by
  unfold unaryRow
  cases site.cell.value? child with
  | none => simp
  | some v =>
    simp only [List.mem_map, List.mem_filter, Array.mem_toList_iff, decide_eq_true_eq]
    refine ⟨?_, ?_⟩
    · intro h
      rcases h with ⟨r, ⟨hr, hrhs⟩, rfl⟩
      exact ⟨r, hr, v, hrhs, rfl, rfl⟩
    · intro h
      rcases h with ⟨r, hr, w, hrhs, hw, rfl⟩
      cases hw
      exact ⟨r, ⟨hr, hrhs⟩, rfl⟩

omit [Score S] in
theorem nodup_unaryRow (h : g.Indexed) (site : Site S) (child : Symbol) :
    (unaryRow g site child).Nodup := by
  unfold unaryRow
  cases site.cell.value? child with
  | none => exact List.nodup_nil
  | some v => exact nodup_map_of_key (·.rule) (h.nodup_rules.filter _) fun _ => rfl

end Chart

end ChartParsing
