import ChartParsing.Proofs.Grammar.Filed
import ChartParsing.Proofs.Grammar.InPlace
import ChartParsing.Proofs.Grammar.UnaryCycle
import ChartParsing.Proofs.Score.Laws

/-!
# Grammars that change

A grammar is changed in three ways: its binary rules are laid out anew, one rule is
scored anew, or all are. None of these builds the other indexes again, and none has
to: an index is made from the shapes of the rules, which a score is no part of. So a
grammar stays what building it from its own rules gives. `Fresh` says this, and is
kept by every call, also by one that fails half way.

Of a grammar like that, every bucket lists the numbers of the rules it is meant for,
and only these, in increasing order.
-/

namespace ChartParsing

variable {S : Type}

/-! ## Shapes -/

namespace Rule

/-- A rule without its score. -/
def shape (r : Rule S) : Rule Unit := { r with score := () }

@[simp]
theorem shape_id (r : Rule S) : r.shape.id = r.id := rfl

@[simp]
theorem shape_parent (r : Rule S) : r.shape.parent = r.parent := rfl

@[simp]
theorem shape_rhs (r : Rule S) : r.shape.rhs = r.rhs := rfl

end Rule

/-- Buckets are made from the shapes of the rules. -/
theorem Buckets.ofRules_shape {count : Nat} {key : Rule S → Option Nat}
    (key' : Rule Unit → Option Nat) (hkey : ∀ r, key r = key' r.shape) (rules : Array (Rule S)) :
    ofRules count key rules = ofRules count key' (rules.map Rule.shape) := by
  have hadd : add key = fun buckets r => add key' buckets r.shape := by
    funext buckets r
    rw [add, add, hkey, Rule.shape_id]
  rw [ofRules, ofRules, hadd, Array.foldl_map]

/-- Sets of symbols are made from the shapes of the rules. -/
theorem SymbolSet.ofRules_shape {count : Nat} {position : Rule S → Option Symbol}
    (position' : Rule Unit → Option Symbol) (hposition : ∀ r, position r = position' r.shape)
    (rules : Array (Rule S)) :
    ofRules count position rules = ofRules count position' (rules.map Rule.shape) := by
  simp only [ofRules, hposition, Array.foldl_map]

/-- Binary rules are laid out by their shapes. -/
theorem BinaryIndex.ofRules_shape {count : Nat} (order : LoopOrder) (rules : Array (Rule S)) :
    ofRules rules count order = ofRules (rules.map Rule.shape) count order := by
  cases order with
  | cartesianProduct =>
    exact congrArg byPair (Buckets.ofRules_shape (Rule.pairKey count) (fun _ => rfl) rules)
  | leftChild =>
    exact congrArg byLeftChild (Buckets.ofRules_shape Rule.leftChildKey (fun _ => rfl) rules)
  | rightChild =>
    exact congrArg byRightChild (Buckets.ofRules_shape Rule.rightChildKey (fun _ => rfl) rules)

namespace Grammar

theorem unaryChildren_shape (rules : Array (Rule S)) (byParent : Buckets) :
    unaryChildren rules byParent = unaryChildren (rules.map Rule.shape) byParent := by
  funext parent
  unfold unaryChildren
  rw [List.map_filterMap, List.map_filterMap]
  refine congrArg (fun f => List.filterMap f _) (funext fun id => ?_)
  rw [Array.getElem?_map]
  cases rules[id.index]? <;> rfl

/-- The order of the unary rules is found from their shapes. -/
theorem unaryOrderOf_shape (rules : Array (Rule S)) (count : Nat) :
    unaryOrderOf rules count = unaryOrderOf (rules.map Rule.shape) count := by
  have hbuckets : Buckets.ofRules count Rule.unaryParentKey rules =
      .ofRules count Rule.unaryParentKey (rules.map Rule.shape) :=
    Buckets.ofRules_shape Rule.unaryParentKey (fun _ => rfl) rules
  unfold unaryOrderOf
  rw [hbuckets, unaryChildren_shape]

/-- Rules of the same shapes have the same indexes. -/
theorem assemble_shape {nonterminals terminals : Alphabet} {root : Symbol}
    {rules rules' : Array (Rule S)} (hshape : rules'.map Rule.shape = rules.map Rule.shape)
    (order : LoopOrder) (unaryOrder : Array Symbol) :
    assemble nonterminals terminals root rules' order unaryOrder =
      { assemble nonterminals terminals root rules order unaryOrder with rules := rules' } := by
  have hbuckets : ∀ {count : Nat} {key : Rule S → Option Nat} (key' : Rule Unit → Option Nat),
      (∀ r, key r = key' r.shape) →
        Buckets.ofRules count key rules' = Buckets.ofRules count key rules := by
    intro count key key' hkey
    rw [Buckets.ofRules_shape key' hkey rules', hshape, ← Buckets.ofRules_shape key' hkey rules]
  have hsets : ∀ {count : Nat} {position : Rule S → Option Symbol}
      (position' : Rule Unit → Option Symbol), (∀ r, position r = position' r.shape) →
        SymbolSet.ofRules count position rules' = SymbolSet.ofRules count position rules := by
    intro count position position' hposition
    rw [SymbolSet.ofRules_shape position' hposition rules', hshape,
      ← SymbolSet.ofRules_shape position' hposition rules]
  have hbinary : BinaryIndex.ofRules rules' nonterminals.size order =
      BinaryIndex.ofRules rules nonterminals.size order := by
    rw [BinaryIndex.ofRules_shape, hshape, ← BinaryIndex.ofRules_shape]
  simp only [assemble, mk.injEq, true_and]
  exact ⟨hbuckets Rule.lexicalKey fun _ => rfl, hbuckets Rule.unaryChildKey fun _ => rfl,
    hbuckets Rule.unaryParentKey fun _ => rfl, hbinary,
    hsets (fun r => if r.isBinary then some r.leftChild else none) fun _ => rfl,
    hsets Rule.rightChild? fun _ => rfl⟩

/-! ## Rules scored anew -/

theorem shape_modify (rules : Array (Rule S)) (i : Nat) (score : S) :
    (rules.modify i fun rule => { rule with score }).map Rule.shape = rules.map Rule.shape := by
  refine Array.ext_getElem? fun j => ?_
  simp only [Array.getElem?_map, Array.getElem?_modify]
  split
  · cases rules[j]? <;> rfl
  · rfl

theorem shape_zipWith {rules : Array (Rule S)} {scores : Array S}
    (hsize : scores.size = rules.size) :
    (rules.zipWith (fun rule score => { rule with score }) scores).map Rule.shape =
      rules.map Rule.shape := by
  refine Array.ext (by simp [hsize]) fun i hi hi' => ?_
  simp [Rule.shape]

/-- What becomes of a rule that may get a new score. -/
theorem mem_modify {rules : Array (Rule S)} {i : Nat} {score : S} {r : Rule S}
    (hr : r ∈ rules.modify i fun rule => { rule with score }) : r.score = score ∨ r ∈ rules := by
  obtain ⟨j, hj⟩ := Array.mem_iff_getElem?.mp hr
  rw [Array.getElem?_modify] at hj
  split at hj
  · obtain ⟨_, _, rfl⟩ := Option.map_eq_some_iff.mp hj
    exact Or.inl rfl
  · exact Or.inr (Array.mem_of_getElem? hj)

theorem mem_zipWith_score {rules : Array (Rule S)} {scores : Array S} {r : Rule S}
    (hr : r ∈ rules.zipWith (fun rule score => { rule with score }) scores) :
    r.score ∈ scores := by
  obtain ⟨j, hj⟩ := Array.mem_iff_getElem?.mp hr
  rw [Array.getElem?_zipWith_eq_some] at hj
  obtain ⟨_, score, _, hscore, rfl⟩ := hj
  exact Array.mem_of_getElem? hscore

/-! ## Shapes are enough -/

theorem numbered_numbered (rules : Array (Rule S)) :
    numbered (numbered rules) = numbered rules := by
  refine Array.ext_getElem? fun i => ?_
  rw [getElem?_numbered, getElem?_numbered]
  cases rules[i]? <;> rfl

/-- Numbering goes by position alone. -/
theorem numbered_eq_self_of_shape {rules rules' : Array (Rule S)}
    (hshape : rules'.map Rule.shape = rules.map Rule.shape) (hnumbered : numbered rules = rules) :
    numbered rules' = rules' := by
  refine Array.ext_getElem? fun i => ?_
  rw [getElem?_numbered]
  cases hi : rules'[i]? with
  | none => rfl
  | some r' =>
    have hshape_i := congrArg (·[i]?) hshape
    simp only [Array.getElem?_map, hi, Option.map_some] at hshape_i
    obtain ⟨r, hr, hrr'⟩ := Option.map_eq_some_iff.mp hshape_i.symm
    -- the rule of the same shape has its position for a number
    have hid : r.id = RuleId.ofNat i := by
      rw [← hnumbered, getElem?_numbered] at hr
      obtain ⟨_, _, rfl⟩ := Option.map_eq_some_iff.mp hr
      rfl
    have hid' : r'.id = RuleId.ofNat i := by
      rw [← hid, ← Rule.shape_id r', ← hrr', Rule.shape_id]
    rw [Option.map_some, ← hid']

/-- Rules of the shapes of valid ones are valid if their scores are. -/
theorem validRule_of_shape [Score S] {nonterminals terminals : Nat} {rules rules' : Array (Rule S)}
    (hshape : rules'.map Rule.shape = rules.map Rule.shape)
    (hvalid : ∀ r ∈ rules, ValidRule nonterminals terminals r)
    (hscores : ∀ r ∈ rules', ValidScore r.score) :
    ∀ r ∈ rules', ValidRule nonterminals terminals r := by
  intro r' hr'
  have hmem : r'.shape ∈ rules.map Rule.shape := by
    rw [← hshape]
    exact Array.mem_map_of_mem hr'
  obtain ⟨r, hr, hrr'⟩ := Array.mem_map.mp hmem
  have hparent : r'.parent = r.parent := (congrArg Rule.parent hrr').symm
  have hrhs : r'.rhs = r.rhs := (congrArg Rule.rhs hrr').symm
  refine ⟨hscores r' hr', ?_⟩
  rw [hparent, hrhs]
  exact (hvalid r hr).2

/-! ## Fresh grammars -/

section

variable [Score S] {g g' : Grammar S}

/-- Building a grammar from the alphabets, the root and the rules of this one, for
its loop order, gives this one back. -/
def Fresh (g : Grammar S) : Prop :=
  ofRules g.nonterminals g.terminals g.root g.rules g.loopOrder = .ok g

/-- What a fresh grammar is made of. -/
theorem fresh_iff :
    g.Fresh ↔ ∃ nonterminals terminals root rules order unaryOrder,
      nonterminals.contains root = true ∧
      (∀ r ∈ rules, ValidRule nonterminals.size terminals.size r) ∧ numbered rules = rules ∧
      unaryOrderOf rules nonterminals.size = .ok unaryOrder ∧
      g = assemble nonterminals terminals root rules order unaryOrder := by
  refine ⟨?_, ?_⟩
  · intro h
    obtain ⟨hroot, hvalid, unaryOrder, horder, hg⟩ := ofRules_eq_ok_iff.mp h
    have hnumbered : numbered g.rules = g.rules := (congrArg rules hg).symm
    rw [hnumbered] at horder hg
    exact ⟨_, _, _, _, _, _, hroot, hvalid, hnumbered, horder, hg⟩
  · rintro ⟨nonterminals, terminals, root, rules, order, unaryOrder, hroot, hvalid, hnumbered,
      horder, rfl⟩
    refine ofRules_eq_ok_iff.mpr ⟨hroot, hvalid, unaryOrder, ?_, ?_⟩
    · rw [show (assemble nonterminals terminals root rules order unaryOrder).rules = rules from rfl,
        hnumbered]
      exact horder
    · rw [loopOrder_assemble,
        show (assemble nonterminals terminals root rules order unaryOrder).rules = rules from rfl,
        hnumbered]
      rfl

/-- A grammar that was built is fresh. -/
theorem fresh_of_ofRules {nonterminals terminals : Alphabet} {root : Symbol}
    {rules : Array (Rule S)} {order : LoopOrder}
    (h : ofRules nonterminals terminals root rules order = .ok g) : g.Fresh := by
  obtain ⟨hroot, hvalid, unaryOrder, horder, hg⟩ := ofRules_eq_ok_iff.mp h
  refine fresh_iff.mpr
    ⟨_, _, _, _, _, _, hroot, ?_, numbered_numbered rules, horder, hg⟩
  intro r hr
  obtain ⟨r', hr', hparent, hrhs, hscore⟩ := mem_numbered hr
  unfold ValidRule
  rw [hparent, hrhs, hscore]
  exact hvalid r' hr'

/-- A fresh grammar laid out for another loop order is fresh. -/
theorem Fresh.reindex (h : g.Fresh) (order : LoopOrder) : (g.reindex order).Fresh := by
  unfold Grammar.reindex
  split
  · exact h
  · obtain ⟨_, _, _, _, _, _, hroot, hvalid, hnumbered, horder, rfl⟩ := fresh_iff.mp h
    exact fresh_iff.mpr ⟨_, _, _, _, order, _, hroot, hvalid, hnumbered, horder, rfl⟩

/-- A fresh grammar whose rules are scored anew is fresh. -/
theorem Fresh.rescore (h : g.Fresh) {rules : Array (Rule S)}
    (hshape : rules.map Rule.shape = g.rules.map Rule.shape)
    (hscores : ∀ r ∈ rules, ValidScore r.score) :
    ({ g with rules := rules } : Grammar S).Fresh := by
  obtain ⟨_, _, _, _, _, _, hroot, hvalid, hnumbered, horder, rfl⟩ := fresh_iff.mp h
  refine fresh_iff.mpr ⟨_, _, _, rules, _, _, hroot, validRule_of_shape hshape hvalid hscores,
    numbered_eq_self_of_shape hshape hnumbered, ?_, (assemble_shape hshape _ _).symm⟩
  rw [unaryOrderOf_shape, hshape]
  exact (unaryOrderOf_shape _ _).symm.trans horder

theorem Fresh.validScore (h : g.Fresh) : ∀ r ∈ g.rules, ValidScore r.score := by
  obtain ⟨_, _, _, _, _, _, -, hvalid, -, -, rfl⟩ := fresh_iff.mp h
  exact fun r hr => (hvalid r hr).1

/-! ## New scores -/

/-- One rule gets a new score if there is that rule and the score is valid. -/
theorem setRuleScore_eq_ok_iff {id : RuleId} {score : S} :
    g.setRuleScore id score = .ok g' ↔
      id.index < g.rules.size ∧ ValidScore score ∧
        g' = { g with rules := g.rules.modify id.index fun rule => { rule with score } } := by
  unfold setRuleScore
  by_cases hsize : g.rules.size ≤ id.index
  · simp [hsize, bind, Except.bind, throw, throwThe, MonadExceptOf.throw]
  · have hlt : id.index < g.rules.size := by omega
    rw [← checkScore_eq_ok_iff]
    cases hcheck : checkScore id.index score with
    | error e => simp [hsize, bind, Except.bind]
    | ok u => simp [hsize, hlt, bind, Except.bind, pure, Except.pure, eq_comm]

/-- Scores pass the checks exactly if each is valid. -/
theorem checkScores_eq_ok_iff {scores : List S} :
    ∀ {position : Nat}, ((scores.zipIdx position).forM fun (score, position) =>
        (checkScore position score : Except (GrammarError S) Unit)) = .ok () ↔
      ∀ score ∈ scores, ValidScore score := by
  induction scores with
  | nil => intro position; simp; rfl
  | cons score scores ih =>
    intro position
    show (do
      checkScore position score
      (scores.zipIdx (position + 1)).forM fun (score, position) => checkScore position score) =
        .ok () ↔ _
    rw [seq_eq_ok_iff, checkScore_eq_ok_iff, ih, List.forall_mem_cons]

/-- All rules get new scores if there is one for each and all are valid. -/
theorem setScores_eq_ok_iff {scores : Array S} :
    g.setScores scores = .ok g' ↔
      scores.size = g.rules.size ∧ (∀ score ∈ scores, ValidScore score) ∧
        g' = { g with
          rules := g.rules.zipWith (fun rule score => { rule with score }) scores } := by
  have hchecks : (∀ score ∈ scores, ValidScore score) ↔
      ((scores.toList.zipIdx).forM fun (score, position) =>
        (checkScore position score : Except (GrammarError S) Unit)) = .ok () := by
    rw [checkScores_eq_ok_iff]
    simp only [Array.mem_toList_iff]
  rw [hchecks]
  unfold setScores
  by_cases hsize : scores.size = g.rules.size
  · cases hcheck : (scores.toList.zipIdx).forM fun (score, position) =>
        (checkScore position score : Except (GrammarError S) Unit) with
    | error e => simp [hsize, bind, Except.bind]
    | ok u => simp [hsize, bind, Except.bind, pure, Except.pure, eq_comm]
  · simp [hsize, bind, Except.bind, throw, throwThe, MonadExceptOf.throw]

/-! ## Calls that change a grammar -/

/-- A call that changes a grammar. -/
inductive Edit (S : Type) where
  | reindex (order : LoopOrder)
  | setRuleScore (id : RuleId) (score : S)
  | setScores (scores : Array S)

/-- The changed grammar, or why a call fails. -/
def Edit.call (g : Grammar S) : Edit S → Except (GrammarError S) (Grammar S)
  | .reindex order => .ok (g.reindex order)
  | .setRuleScore id score => g.setRuleScore id score
  | .setScores scores => g.setScores scores

/-- The call in place. -/
def Edit.inPlace : Edit S → InPlace S Unit
  | .reindex order => .reindex order
  | .setRuleScore id score => .setRuleScore id score
  | .setScores scores => .setScores scores

/-- The grammar that a call in place leaves, whether it succeeds or fails. -/
def Edit.after (g : Grammar S) (edit : Edit S) : Grammar S := (endOf edit.inPlace g).2

/-- **In place a call does what it returns otherwise, and nothing if it fails.** -/
theorem Edit.performs (g : Grammar S) (edit : Edit S) : edit.inPlace.Performs g (edit.call g) := by
  cases edit with
  | reindex order => exact InPlace.performs_reindex g order
  | setRuleScore id score => exact InPlace.performs_setRuleScore g id score
  | setScores scores => exact InPlace.performs_setScores g scores

/-- A call that succeeds leaves a fresh grammar, and the rules have the shapes that
they had. -/
theorem Fresh.call (h : g.Fresh) {edit : Edit S} (hok : edit.call g = .ok g') :
    g'.Fresh ∧ g'.rules.map Rule.shape = g.rules.map Rule.shape := by
  cases edit with
  | reindex order =>
    cases hok
    refine ⟨h.reindex order, ?_⟩
    unfold Grammar.reindex
    split <;> rfl
  | setRuleScore id score =>
    obtain ⟨-, hscore, rfl⟩ := setRuleScore_eq_ok_iff.mp hok
    refine ⟨h.rescore (shape_modify _ _ _) ?_, shape_modify _ _ _⟩
    intro r hr
    rcases mem_modify hr with heq | hold
    · rw [heq]
      exact hscore
    · exact h.validScore r hold
  | setScores scores =>
    obtain ⟨hsize, hscores, rfl⟩ := setScores_eq_ok_iff.mp hok
    exact ⟨h.rescore (shape_zipWith hsize) fun r hr => hscores _ (mem_zipWith_score hr),
      shape_zipWith hsize⟩

/-- A call leaves a fresh grammar with rules of the same shapes, whether it succeeds
or fails. -/
theorem Fresh.after (h : g.Fresh) (edit : Edit S) :
    (edit.after g).Fresh ∧ (edit.after g).rules.map Rule.shape = g.rules.map Rule.shape := by
  unfold Edit.after
  rw [edit.performs g]
  cases hcall : edit.call g with
  | ok g' => exact h.call hcall
  | error e => exact ⟨h, rfl⟩

/-- Any number of calls do. -/
theorem Fresh.foldl_after (edits : List (Edit S)) :
    ∀ {g : Grammar S}, g.Fresh → (edits.foldl Edit.after g).Fresh ∧
      (edits.foldl Edit.after g).rules.map Rule.shape = g.rules.map Rule.shape := by
  induction edits with
  | nil => intro g h; exact ⟨h, rfl⟩
  | cons edit edits ih =>
    intro g h
    obtain ⟨hfresh, hshape⟩ := h.after edit
    obtain ⟨hfresh', hshape'⟩ := ih hfresh
    exact ⟨hfresh', hshape'.trans hshape⟩

/-- A fresh grammar with no more rules than there are numbers for is accepted. -/
theorem Fresh.accepted (h : g.Fresh) (hsize : g.rules.size ≤ UInt32.size) : g.Accepted :=
  ⟨_, _, _, _, _, hsize, h⟩

/-- **A grammar that was changed is what building it anew gives.** From a grammar of
at most `2 ^ 32` rules, any calls that change it, also those that fail, lead to a
grammar that is fresh and whose indexes hold what they are meant for. One rule is
scored anew exactly if there is that rule and the score is valid, all are exactly if
there is a valid score for each, and then nothing but these scores is changed. Made in
place, where what is written stays, a call does the same, and one that fails has written
nothing. -/
theorem edited_fresh {nonterminals terminals : Alphabet} {root : Symbol} {rules : Array (Rule S)}
    {order : LoopOrder} {g₀ : Grammar S} (hsize : rules.size ≤ UInt32.size)
    (hbuilt : ofRules nonterminals terminals root rules order = .ok g₀) (edits : List (Edit S))
    (hg : g = edits.foldl Edit.after g₀) :
    ofRules g.nonterminals g.terminals g.root g.rules g.loopOrder = .ok g ∧ g.Filed ∧
      (∀ id score g', g.setRuleScore id score = .ok g' ↔
        id.index < g.rules.size ∧ ValidScore score ∧
          g' = { g with rules := g.rules.modify id.index fun rule => { rule with score } }) ∧
      (∀ scores g', g.setScores scores = .ok g' ↔
        scores.size = g.rules.size ∧ (∀ score ∈ scores, ValidScore score) ∧
          g' = { g with
            rules := g.rules.zipWith (fun rule score => { rule with score }) scores }) ∧
      ∀ edit : Edit S, endOf edit.inPlace g =
        match edit.call g with
        | .ok g' => (.ok (), g')
        | .error e => (.error e, g) := by
  obtain ⟨hfresh, hshape⟩ := Fresh.foldl_after edits (fresh_of_ofRules hbuilt)
  rw [← hg] at hfresh hshape
  have hrules : g₀.rules = numbered rules := by
    obtain ⟨-, -, _, -, rfl⟩ := ofRules_eq_ok_iff.mp hbuilt
    rfl
  have hsizes : g.rules.size = rules.size := by
    have := congrArg Array.size hshape
    rw [hrules] at this
    simpa [numbered] using this
  have haccepted : g.Accepted := hfresh.accepted (by omega)
  exact ⟨hfresh, haccepted.indexed.filed, fun _ _ _ => setRuleScore_eq_ok_iff,
    fun _ _ => setScores_eq_ok_iff, fun edit => edit.performs g⟩

end

/-- From the small grammar: the loop order is changed, one rule is scored anew, and
two calls fail, as there is neither a rule 7 nor a score for each rule. -/
theorem edited_fresh_small :
    ∃ g₀ g : Grammar ℕ, (Small.rules ℕ).size ≤ UInt32.size ∧
      ofRules Small.nonterminals Small.terminals (.ofNat 0) (Small.rules ℕ) .leftChild = .ok g₀ ∧
      g = [Edit.reindex .cartesianProduct, .setRuleScore (.ofNat 1) 5, .setRuleScore (.ofNat 7) 5,
        .setScores #[2]].foldl Edit.after g₀ ∧
      ofRules g.nonterminals g.terminals g.root g.rules g.loopOrder = .ok g ∧ g.Filed := by
  obtain ⟨g₀, hbuilt, -⟩ := Small.accepted ℕ rfl rfl .leftChild
  have hsize : (Small.rules ℕ).size ≤ UInt32.size := by decide
  have hedited := edited_fresh hsize hbuilt
    [Edit.reindex .cartesianProduct, .setRuleScore (.ofNat 1) 5, .setRuleScore (.ofNat 7) 5,
      .setScores #[2]] rfl
  exact ⟨g₀, _, hsize, hbuilt, rfl, hedited.1, hedited.2.1⟩

end Grammar

end ChartParsing
