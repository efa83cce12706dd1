import ChartParsing.Proofs.Chart.Finding
import ChartParsing.Proofs.LoopOrder.Gathering
import ChartParsing.Proofs.Outside.Pass
import ChartParsing.Proofs.Outside.Updates
import Mathlib.Logic.Function.Conjugate

/-!
# The rules of a split in any order

At one split of a span the outside pass goes through the binary rules in the order in
which they are found. Each of them reads the outside score of its parent over the
whole span, and updates outside scores over the two parts and its own count. So none
changes what another reads, and two updates of one outside score may be made in
either order if pooling is commutative and associative. Counts need no such
assumption: at one split a rule is counted once.
-/

namespace ChartParsing.Posterior

variable {S P C J : Type} [Score S] [Probability P] [Sharing S P]

/-! ## Updates -/

/-- What a binary rule with the outside score of its parent does to the tables. -/
def update (scorer : Scorer S) (total : S) (start mid stop : Nat) (left right : Symbol → S)
    (parentOutside : Option S) (rule : Rule S) : Posterior S P → Posterior S P :=
  match parentOutside, rule.rhs with
  | some parentOutside, .binary y z =>
    if Score.isImpossible parentOutside then id
    else
      let score := Score.combine parentOutside (scorer.score rule start mid stop)
      withOutside z mid stop (Score.combine score (left y)) ∘
        withOutside y start mid (Score.combine score (right z)) ∘
          withCount total rule (Score.combine (Score.combine score (left y)) (right z))
  | _, _ => id

/-- What the binary rules found at a split do to the tables. Each of them reads the
outside score that its parent has before any of them. -/
def pushedSplit (scorer : Scorer S) (total : S) (start mid stop : Nat) (left right : Symbol → S)
    (p : Posterior S P) (rules : List (Rule S)) : Posterior S P :=
  rules.foldl (fun p' rule =>
    update scorer total start mid stop left right (p.outsideAt rule.parent start stop) rule p') p

variable {chart chart' : Chart S C} {p p' : Posterior S P} {scorer : Scorer S} {total : S}
  {start mid stop : Nat} {left right : Symbol → S}

/-! ## Updates commute -/

theorem modify_comm {α : Type} {xs : Array α} {i j : Nat} {f g : α → α}
    (h : i = j → ∀ a, f (g a) = g (f a)) :
    (xs.modify i f).modify j g = (xs.modify j g).modify i f := by
  refine Array.ext_getElem? fun k => ?_
  simp only [Array.getElem?_modify]
  by_cases hi : i = k
  · by_cases hj : j = k
    · subst hi
      subst hj
      cases xs[j]? with
      | none => simp
      | some a => simp [h rfl]
    · simp [hi, hj]
  · simp [hi]

omit [Probability P] [Sharing S P] in
/-- Two outside scores may be updated in either order. -/
theorem commute_withOutside (hfree : Aggregation.inside.OrderFree S) (sym sym' : Symbol)
    (start stop start' stop' : Nat) (score score' : S) :
    Function.Commute (withOutside sym start stop score : Posterior S P → Posterior S P)
      (withOutside sym' start' stop' score') := by
  obtain ⟨hcomm, hassoc⟩ := hfree
  have hpool : ∀ a : S, Score.pool (Score.pool a score) score' =
      Score.pool (Score.pool a score') score := by
    intro a
    rw [hassoc, hcomm score, hassoc]
  intro p
  unfold withOutside
  by_cases h : sym = p.root ∧ start = 0 ∧ stop = p.tokens
  · by_cases h' : sym' = p.root ∧ start' = 0 ∧ stop' = p.tokens <;> simp [h, h']
  · by_cases h' : sym' = p.root ∧ start' = 0 ∧ stop' = p.tokens
    · simp [h, h']
    · rw [if_neg h, if_neg h']
      -- neither update touches the root or the number of tokens
      refine (if_neg h).trans (Eq.trans ?_ (if_neg h').symm)
      simp only
      congr 2
      exact modify_comm fun _ a => hpool a

/-- Two different rules may be counted in either order. -/
theorem commute_withCount {rule rule' : Rule S} (hne : rule.id.index ≠ rule'.id.index)
    (joint joint' : S) :
    Function.Commute (withCount total rule joint : Posterior S P → Posterior S P)
      (withCount total rule' joint') := by
  intro p
  unfold withCount
  by_cases h : Score.exceeds joint Score.impossible
  · by_cases h' : Score.exceeds joint' Score.impossible
    · simp only [h, h', if_true]
      congr 1
      exact modify_comm fun heq => absurd heq.symm hne
    · simp [h, h']
  · simp [h]

/-- Counting and updating have nothing to do with each other. -/
theorem commute_withCount_withOutside (rule : Rule S) (joint : S) (sym : Symbol)
    (start stop : Nat) (score : S) :
    Function.Commute (withCount total rule joint : Posterior S P → Posterior S P)
      (withOutside sym start stop score) := by
  intro p
  unfold withCount withOutside
  by_cases h : Score.exceeds joint Score.impossible
  · by_cases h' : sym = p.root ∧ start = 0 ∧ stop = p.tokens <;> simp [h, h']
  · simp [h]

/-- A rule does nothing, or it is counted and updates two outside scores. -/
theorem update_cases (scorer : Scorer S) (total : S) (start mid stop : Nat)
    (left right : Symbol → S) (outside : Option S) (rule : Rule S) :
    (update scorer total start mid stop left right outside rule :
        Posterior S P → Posterior S P) = id ∨
      ∃ y z score score' joint, rule.rhs = .binary y z ∧
        update scorer total start mid stop left right outside rule =
          (withOutside z mid stop score ∘ withOutside y start mid score' ∘
            withCount total rule joint : Posterior S P → Posterior S P) := by
  unfold update
  split
  · rename_i hrhs
    split
    · exact Or.inl rfl
    · exact Or.inr ⟨_, _, _, _, _, hrhs, rfl⟩
  · exact Or.inl rfl

/-- **What two rules do to the tables commutes.** -/
theorem commute_update (hfree : Aggregation.inside.OrderFree S) {rule rule' : Rule S}
    (hne : rule.id.index ≠ rule'.id.index) (outside outside' : Option S) :
    Function.Commute
      (update scorer total start mid stop left right outside rule :
        Posterior S P → Posterior S P)
      (update scorer total start mid stop left right outside' rule') := by
  rcases update_cases (P := P) scorer total start mid stop left right outside rule with
    h | ⟨y, z, a, b, c, _, h⟩
  · rw [h]
    exact Function.Semiconj.id_left
  rcases update_cases (P := P) scorer total start mid stop left right outside' rule' with
    h' | ⟨y', z', a', b', c', _, h'⟩
  · rw [h']
    exact Function.Commute.id_right
  rw [h, h']
  -- each of the three updates of the one rule commutes with each of the other's
  have houtside : ∀ sym s e score, Function.Commute (withOutside sym s e score)
      (withOutside z' mid stop a' ∘ withOutside y' start mid b' ∘
        withCount total rule' c' : Posterior S P → Posterior S P) := by
    intro sym s e score
    exact (commute_withOutside hfree _ _ _ _ _ _ _ _).comp_right
      ((commute_withOutside hfree _ _ _ _ _ _ _ _).comp_right
        (commute_withCount_withOutside _ _ _ _ _ _).symm)
  have hcount : Function.Commute (withCount total rule c)
      (withOutside z' mid stop a' ∘ withOutside y' start mid b' ∘
        withCount total rule' c' : Posterior S P → Posterior S P) :=
    (commute_withCount_withOutside _ _ _ _ _ _).comp_right
      ((commute_withCount_withOutside _ _ _ _ _ _).comp_right (commute_withCount hne _ _))
  exact (houtside _ _ _ _).comp_left ((houtside _ _ _ _).comp_left hcount)

/-- **The rules of a split may come in any order.** -/
theorem pushedSplit_perm (hfree : Aggregation.inside.OrderFree S) {rules rules' : List (Rule S)}
    (hperm : rules.Perm rules')
    (hids : ∀ r ∈ rules, ∀ r' ∈ rules, r.id.index = r'.id.index → r = r') (p : Posterior S P) :
    pushedSplit scorer total start mid stop left right p rules =
      pushedSplit scorer total start mid stop left right p rules' := by
  refine hperm.foldl_eq' (fun r hr r' hr' p' => ?_) p
  by_cases heq : r.id.index = r'.id.index
  · rw [hids r hr r' hr' heq]
  · exact (commute_update hfree heq _ _ p').symm

/-! ## What a rule reads -/

theorem outsideAt_withCount (rule : Rule S) (joint : S) (sym : Symbol) (start stop : Nat) :
    (p.withCount total rule joint).outsideAt sym start stop = p.outsideAt sym start stop := by
  unfold withCount
  split <;> rfl

omit [Probability P] [Sharing S P] in
theorem outsideAt_withOutside (h : p.Sized chart) {c c' : Constituent}
    (hc : SpanTable.Fits c chart.length chart.grammar.nonterminalCount)
    (hc' : SpanTable.Fits c' chart.length chart.grammar.nonterminalCount) (hne : c ≠ c')
    (score : S) :
    (p.withOutside c'.symbol c'.start c'.stop score).outsideAt c.symbol c.start c.stop =
      p.outsideAt c.symbol c.start c.stop := by
  unfold withOutside
  split
  · rfl
  · have hplace : p.outside.place c'.symbol c'.start c'.stop ≠
        p.outside.place c.symbol c.start c.stop := fun heq =>
      hne (h.outside_full.place_inj hc' hc heq).symm
    exact Array.getElem?_modify.trans (if_neg hplace)

/-- While the rules of a split are gone through, the outside scores over the span
itself are as they were. -/
structure Unread (chart : Chart S C) (start stop : Nat) (p p' : Posterior S P) : Prop where
  sized : p'.Sized chart
  outsideAt_eq : ∀ sym : Symbol, sym.index < chart.grammar.nonterminalCount →
    p'.outsideAt sym start stop = p.outsideAt sym start stop

/-- A binary rule updates outside scores over parts of the span only. -/
theorem Unread.update (h : Unread chart start stop p p') (hg : chart.grammar.Indexed)
    {rule : Rule S} (hrule : rule ∈ chart.grammar.rules) (h₁ : start < mid) (h₂ : mid < stop)
    (h₃ : stop ≤ chart.length) (outside : Option S) :
    Unread chart start stop p
      (update scorer total start mid stop left right outside rule p') := by
  rcases update_cases (P := P) scorer total start mid stop left right outside rule with
    heq | ⟨y, z, a, b, c, hrhs, heq⟩
  · rw [heq]
    exact h
  obtain ⟨hy, hz⟩ := hg.binary_lt rule hrule y z hrhs
  have hcounted := sized_withCount h.sized total rule c
  have hleft := sized_withOutside hcounted y start mid b
  rw [heq]
  refine ⟨sized_withOutside hleft z mid stop a, fun sym hsym => ?_⟩
  have hwhole : SpanTable.Fits ⟨sym, start, stop⟩ chart.length chart.grammar.nonterminalCount :=
    ⟨h₁.trans h₂, h₃, hsym⟩
  have hz' : SpanTable.Fits ⟨z, mid, stop⟩ chart.length chart.grammar.nonterminalCount :=
    ⟨h₂, h₃, hz⟩
  have hy' : SpanTable.Fits ⟨y, start, mid⟩ chart.length chart.grammar.nonterminalCount :=
    ⟨h₁, h₂.le.trans h₃, hy⟩
  calc ((p'.withCount total rule c).withOutside y start mid b
          |>.withOutside z mid stop a).outsideAt sym start stop
      = ((p'.withCount total rule c).withOutside y start mid b).outsideAt sym start stop :=
        outsideAt_withOutside hleft hwhole hz' (fun hc => h₁.ne (congrArg Constituent.start hc)) a
    _ = (p'.withCount total rule c).outsideAt sym start stop :=
        outsideAt_withOutside hcounted hwhole hy'
          (fun hc => h₂.ne' (congrArg Constituent.stop hc)) b
    _ = p'.outsideAt sym start stop := outsideAt_withCount rule c sym start stop
    _ = p.outsideAt sym start stop := h.outsideAt_eq sym hsym

/-! ## What the pass does at a split -/

section

variable (hg : chart.grammar.Indexed) (h₁ : start < mid) (h₂ : mid < stop)
  (h₃ : stop ≤ chart.length) {leftCell rightCell : Cell S}
  (hleft : chart.cell start mid = .ok leftCell) (hright : chart.cell mid stop = .ok rightCell)

include hg h₁ h₂ h₃ hleft hright

/-- A binary rule updates the tables. -/
theorem pushBinaryRule_ends_update (hp : p.Sized chart) {rule : Rule S}
    (hrule : rule ∈ chart.grammar.rules) (run : Run J S) :
    (pushBinaryRule chart scorer total start mid stop p rule).Ends (fun _ _ => False) run
      fun p' _ => p' = update scorer total start mid stop leftCell.score rightCell.score
        (p.outsideAt rule.parent start stop) rule p := by
  have hwhole : SpanTable.Fits ⟨rule.parent, start, stop⟩ chart.length
      chart.grammar.nonterminalCount := ⟨h₁.trans h₂, h₃, hg.parent_lt rule hrule⟩
  obtain ⟨outside, hget, houtside⟩ := hp.get_ok hwhole
  unfold pushBinaryRule
  refine Effect.ends_bind_ok hget ?_
  rw [houtside]
  cases hrhs : rule.rhs with
  | lexical t =>
    simp only [update, Rule.rightChild?, hrhs]
    split <;> exact Effect.ends_pure rfl
  | unary y =>
    simp only [update, Rule.rightChild?, hrhs]
    split <;> exact Effect.ends_pure rfl
  | binary y z =>
    obtain ⟨hy, hz⟩ := hg.binary_lt rule hrule y z hrhs
    simp only [update, Rule.rightChild?, Rule.leftChild, hrhs]
    split
    · exact Effect.ends_pure rfl
    have hscores : chart.score y start mid = .ok (leftCell.score y) ∧
        chart.score z mid stop = .ok (rightCell.score z) := by
      rw [Chart.score, Chart.score, hleft, hright]
      exact ⟨rfl, rfl⟩
    refine Effect.ends_bind_ok hscores.1 ?_
    refine Effect.ends_bind_ok hscores.2 ?_
    refine ends_bind_ask fun run' => ?_
    have hcounted := sized_withCount hp total rule
    refine Effect.ends_bind_ok (addCount_eq (hp.id_lt hg hrule) _) ?_
    refine Effect.ends_bind_ok (addOutside_eq (hcounted _) (c := ⟨y, start, mid⟩)
      ⟨h₁, h₂.le.trans h₃, hy⟩ _) ?_
    exact Effect.ends_lift_ok (addOutside_eq (sized_withOutside (hcounted _) _ _ _ _)
      (c := ⟨z, mid, stop⟩) ⟨h₂, h₃, hz⟩ _) rfl

/-- **All rules that are found at a split update the tables.** -/
theorem foldlM_pushBinaryRule_ends (hp : p.Sized chart) {rules : List (Rule S)}
    (hrules : ∀ rule ∈ rules, rule ∈ chart.grammar.rules) (run : Run J S) :
    (rules.foldlM (pushBinaryRule chart scorer total start mid stop) p).Ends (fun _ _ => False) run
      fun p' _ => p' = pushedSplit scorer total start mid stop leftCell.score rightCell.score
        p rules ∧ p'.Sized chart := by
  refine (Effect.ends_foldlM (fun done p' (_ : Run J S) =>
    p' = pushedSplit scorer total start mid stop leftCell.score rightCell.score p done ∧
      Unread chart start stop p p') ⟨rfl, hp, fun _ _ => rfl⟩ ?_).imp
    fun p' _ h => ⟨h.1, h.2.sized⟩
  intro done rule rest p' run hsplit hp'
  obtain ⟨heq, hunread⟩ := hp'
  have hrule := hrules rule (by rw [hsplit]; simp)
  refine (pushBinaryRule_ends_update hg h₁ h₂ h₃ hleft hright hunread.sized hrule run).imp
    fun p'' _ hp'' => ?_
  rw [hunread.outsideAt_eq _ (hg.parent_lt rule hrule)] at hp''
  subst hp''
  refine ⟨?_, hunread.update hg hrule h₁ h₂ h₃ _⟩
  rw [pushedSplit, List.foldl_append, ← pushedSplit, ← heq]
  rfl

end

omit [Score S] [Probability P] [Sharing S P] in
/-- Charts that read alike have tables of the same shape. -/
theorem Sized.congr (hp : p.Sized chart) (h : chart.ReadAlike chart') : p.Sized chart' := by
  obtain ⟨binary, hg⟩ := h.grammar
  refine ⟨hp.tokens_eq.trans h.length_eq, ?_, ?_⟩
  · rw [← h.length_eq, hg]
    exact hp.outside_full
  · rw [hg]
    exact hp.counts_size

/-- The same is found at a split of charts that read alike, if in another order. -/
theorem found_perm {binary : BinaryIndex} {g : Grammar S} {left right left' right' : Cell S}
    {found found' : List (Application S)} (hleft : left.reading = left'.reading)
    (hright : right.reading = right'.reading)
    (hfound : Chart.Lists g mid left.value? right.value? found)
    (hfound' : Chart.Lists { g with binary } mid left'.value? right'.value? found') :
    found.Perm found' := by
  have hvalue : ∀ {c d : Cell S}, c.reading = d.reading → c.value? = d.value? := fun hcd =>
    funext fun sym => congrArg (Option.map _) (Cell.find?_congr hcd sym)
  refine (List.perm_ext_iff_of_nodup hfound.nodup hfound'.nodup).mpr fun a => ?_
  rw [hfound.mem_iff, hfound'.mem_iff, hvalue hleft, hvalue hright]
  rfl

omit [Probability P] [Sharing S P] in
theorem rule_mem_of_found {g : Grammar S} {left right : Symbol → Option S}
    {found : List (Application S)} (hfound : Chart.Lists g mid left right found) :
    ∀ rule ∈ found.map (·.rule), rule ∈ g.rules := by
  intro rule hrule
  obtain ⟨a, ha, rfl⟩ := List.mem_map.mp hrule
  obtain ⟨r, hr, _, _, _, _, _, _, _, rfl⟩ := (hfound.mem_iff a).mp ha
  exact hr

/-- Going through a split updates the tables with the rules found there. -/
theorem pushSplit_ends_update (hread : chart.Readable) (hp : p.Sized chart) (h₁ : start < mid)
    (h₂ : mid < stop) (h₃ : stop ≤ chart.length) {left right : Cell S}
    {found : List (Application S)} (hleft : chart.cell start mid = .ok left)
    (hright : chart.cell mid stop = .ok right)
    (hfound : Chart.binaryApplications chart.grammar mid left right chart.grammar.loopOrder =
      .ok found) (hrules : ∀ rule ∈ found.map (·.rule), rule ∈ chart.grammar.rules)
    (run : Run J S) :
    (pushSplit chart scorer total start stop p mid).Ends (fun _ _ => False) run fun p' _ =>
      p' = pushedSplit scorer total start mid stop left.score right.score p
        (found.map (·.rule)) ∧ p'.Sized chart := by
  unfold pushSplit
  refine Effect.ends_bind_ok hleft ?_
  refine Effect.ends_bind_ok hright ?_
  refine Effect.ends_bind_ok (splitRules_ok hfound) ?_
  exact foldlM_pushBinaryRule_ends hread.indexed h₁ h₂ h₃ hleft hright hp hrules run

/-- **The pass leaves a split in the same state**, whatever the loop orders of two
charts that read alike. -/
theorem pushSplit_reordered (hfree : Aggregation.inside.OrderFree S) (h : chart.ReadAlike chart')
    (hread : chart.Readable) (hread' : chart'.Readable) (hp : p.Sized chart) (h₁ : start < mid)
    (h₂ : mid < stop) (h₃ : stop ≤ chart.length) :
    Effect.Lockstep (.any : Run.Nearness J S) (fun _ => False)
      (pushSplit chart scorer total start stop p mid)
      (pushSplit chart' scorer total start stop p mid) (Same chart) := by
  obtain ⟨binary, hgrammar⟩ := h.grammar
  have h₃' : stop ≤ chart'.length := h.length_eq ▸ h₃
  obtain ⟨left, right, found, hleft, hright, hfound, _, hlists⟩ := hread.splitSteps_eq h₁ h₂ h₃
  obtain ⟨left', right', found', hleft', hright', hfound', _, hlists'⟩ :=
    hread'.splitSteps_eq h₁ h₂ h₃'
  have hcells : left.reading = left'.reading ∧ right.reading = right'.reading := by
    have hl := h.cell start mid
    have hr := h.cell mid stop
    rw [hleft, hleft'] at hl
    rw [hright, hright'] at hr
    obtain ⟨_, heq, hl⟩ := hl.of_ok
    cases heq
    obtain ⟨_, heq, hr⟩ := hr.of_ok
    cases heq
    exact ⟨hl, hr⟩
  have hscores : left.score = left'.score ∧ right.score = right'.score :=
    ⟨funext (Cell.score_congr hcells.1), funext (Cell.score_congr hcells.2)⟩
  have hperm : found.Perm found' := by
    rw [hgrammar] at hlists'
    exact found_perm hcells.1 hcells.2 hlists hlists'
  have hrules := rule_mem_of_found hlists
  have hpushed : pushedSplit scorer total start mid stop left.score right.score p
      (found.map (·.rule)) = pushedSplit scorer total start mid stop left'.score right'.score p
        (found'.map (·.rule)) := by
    rw [hscores.1, hscores.2]
    refine pushedSplit_perm hfree (hperm.map _) (fun r hr r' hr' hid => ?_) p
    have hrule := hread.indexed.rule_eq (hrules r hr)
    rw [RuleId.index_inj.mp hid, hread.indexed.rule_eq (hrules r' hr')] at hrule
    cases hrule
    rfl
  refine (Effect.lockstep_any_of_ends
    (pushSplit_ends_update hread hp h₁ h₂ h₃ hleft hright hfound hrules)
    (pushSplit_ends_update hread' (hp.congr h) h₁ h₂ h₃' hleft' hright' hfound'
      (rule_mem_of_found hlists'))).imp
    fun a b hab => ?_
  obtain ⟨⟨ha, hsized⟩, hb, _⟩ := hab
  exact ⟨ha.trans (hpushed.trans hb.symm), hsized⟩

end ChartParsing.Posterior
