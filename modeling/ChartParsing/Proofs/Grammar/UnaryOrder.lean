import ChartParsing.Grammar.UnaryOrder
import ChartParsing.Proofs.Outcome

/-!
# Children come first

What the search for an order of the unary rules leaves behind. A list is
`ChildrenFirst` if it was made by putting symbols at its end, each of them new
and all its children already there. So a child has a smaller position than its
parents, and no symbol is its own child.

The search keeps such a list, of the symbols marked as done, and the marks tell which
symbols are on the stack. These form a path down: a frame was entered as the child
that the frame below followed last. The children followed before that one are listed.
Each turn preserves this, whether it follows a child, enters one or lists a symbol.
-/

namespace ChartParsing.UnaryOrder

/-- Every symbol of the list was put behind all its children, and only once. -/
inductive ChildrenFirst (children : Symbol → List Symbol) : List Symbol → Prop where
  | nil : ChildrenFirst children []
  | snoc {order : List Symbol} {sym : Symbol} : ChildrenFirst children order → sym ∉ order →
      (∀ child ∈ children sym, child ∈ order) → ChildrenFirst children (order ++ [sym])

variable {children : Symbol → List Symbol}

theorem ChildrenFirst.nodup {order : List Symbol} (h : ChildrenFirst children order) :
    order.Nodup := by
  induction h with
  | nil => exact List.nodup_nil
  | @snoc order sym _ hnew _ ih =>
    refine List.nodup_append.mpr ⟨ih, List.nodup_cons.mpr ⟨by simp, List.nodup_nil⟩, ?_⟩
    intro a ha b hb
    rw [List.mem_singleton.mp hb]
    intro heq
    subst heq
    exact hnew ha

/-- The children of a listed symbol are listed. -/
theorem ChildrenFirst.closed {order : List Symbol} (h : ChildrenFirst children order)
    {sym child : Symbol} (hs : sym ∈ order) (hc : child ∈ children sym) : child ∈ order := by
  induction h with
  | nil => exact absurd hs (by simp)
  | @snoc order last _ _ hall ih =>
    rcases List.mem_append.mp hs with hs | hs
    · exact List.mem_append_left _ (ih hs)
    · rw [List.mem_singleton] at hs
      subst hs
      exact List.mem_append_left _ (hall child hc)

/-- A child stands before its parents. -/
theorem ChildrenFirst.idxOf_lt {order : List Symbol} (h : ChildrenFirst children order)
    {sym child : Symbol} (hs : sym ∈ order) (hc : child ∈ children sym) :
    order.idxOf child < order.idxOf sym := by
  induction h with
  | nil => exact absurd hs (by simp)
  | @snoc order last hfirst hnew hall ih =>
    by_cases hso : sym ∈ order
    · have hco : child ∈ order := hfirst.closed hso hc
      rw [List.idxOf_append, List.idxOf_append, if_pos hso, if_pos hco]
      exact ih hso
    · have hlast : sym = last := by
        rcases List.mem_append.mp hs with h | h
        · exact absurd h hso
        · exact List.mem_singleton.mp h
      -- a symbol that is new stands last, behind all its children
      subst hlast
      have hco : child ∈ order := hall child hc
      rw [List.idxOf_append, List.idxOf_append, if_neg hso, if_pos hco]
      have := List.idxOf_lt_length_of_mem hco
      omega

/-- A symbol that comes after another one is no child of it. -/
theorem ChildrenFirst.pairwise {order : List Symbol} (h : ChildrenFirst children order) :
    order.Pairwise fun a b => b ∉ children a := by
  induction h with
  | nil => exact List.Pairwise.nil
  | @snoc order sym hfirst hnew _ ih =>
    refine List.pairwise_append.mpr ⟨ih, List.pairwise_singleton _ _, ?_⟩
    intro a ha b hb
    rw [List.mem_singleton.mp hb]
    exact fun hchild => hnew (hfirst.closed ha hchild)

/-- From the top of a stack down, with the symbol that was reached from there last: it is
a child of the symbol on top, and that one a child of the one below. Other children
that were followed are listed. -/
inductive Path (children : Symbol → List Symbol) (order : Array Symbol) :
    Option Symbol → List Frame → Prop where
  | nil {above : Option Symbol} : Path children order above []
  | cons {above : Option Symbol} {frame : Frame} {below : List Frame} :
      (∀ child ∈ above, child ∈ children frame.parent) →
      (∀ child ∈ (children frame.parent).take frame.next, child ∈ order ∨ child ∈ above) →
      Path children order (some frame.parent) below → Path children order above (frame :: below)

theorem Path.mono {order order' : Array Symbol} {above : Option Symbol} {stack : List Frame}
    (h : Path children order above stack) (hsub : ∀ sym ∈ order, sym ∈ order') :
    Path children order' above stack := by
  induction h with
  | nil => exact .nil
  | cons hlink hfollowed _ ih =>
    exact .cons hlink (fun child hc => (hfollowed child hc).imp_left (hsub child)) ih

/-- The symbol above a path need not be named once it is listed. -/
theorem Path.listed {order : Array Symbol} {above : Option Symbol} {stack : List Frame}
    (h : Path children order above stack) (habove : ∀ sym ∈ above, sym ∈ order) :
    Path children order none stack := by
  cases h with
  | nil => exact .nil
  | cons _ hfollowed hbelow =>
    exact .cons (by simp) (fun child hc => .inl ((hfollowed child hc).elim id (habove child)))
      hbelow

/-- Setting the mark of a symbol leaves those of all others as they are. -/
theorem getElem?_setMark {marks : Array Mark} {sym : Symbol} (hlt : sym.index < marks.size)
    (mark : Mark) (s : Symbol) :
    (marks.setIfInBounds sym.index mark)[s.index]? =
      if s = sym then some mark else marks[s.index]? := by
  by_cases heq : s = sym
  · rw [if_pos heq, heq, Array.getElem?_setIfInBounds_self_of_lt hlt]
  · have hne : sym.index ≠ s.index := fun hidx => heq (Symbol.index_inj.mp hidx.symm)
    rw [if_neg heq, Array.getElem?_setIfInBounds_ne hne]

namespace Search

/-- The symbol is listed or on the stack. -/
def Met (search : Search) (sym : Symbol) : Prop :=
  sym ∈ search.order ∨ sym ∈ search.stack.map Frame.parent

/-- What a turn may do: follow a child and enter it, if it was not met; fail, if the
child is on the stack; leave it at following the child; or, with no child left, list the
symbol on top. -/
theorem turn_cases (children : Symbol → List Symbol) (search : Search) (frame : Frame)
    (below : List Frame) :
    (∃ child, (children frame.parent)[frame.next]? = some child ∧
      (search.marks[child.index]? = some .unvisited ∧
          search.turn children frame below = .ok ((search.follow frame below).enter child) ∨
        search.marks[child.index]? = some .onStack ∧
          search.turn children frame below = .error child ∨
        (search.marks[child.index]? = some .done ∨ search.marks[child.index]? = none) ∧
          search.turn children frame below = .ok (search.follow frame below))) ∨
    (children frame.parent)[frame.next]? = none ∧
      search.turn children frame below = .ok (search.leave frame below) := by
  unfold turn
  cases hchild : (children frame.parent)[frame.next]? with
  | none => exact .inr ⟨rfl, rfl⟩
  | some child =>
    refine .inl ⟨child, rfl, ?_⟩
    cases hmark : search.marks[child.index]? with
    | none => exact .inr (.inr ⟨.inr rfl, by simp only [hmark]⟩)
    | some mark =>
      cases mark with
      | unvisited => exact .inl ⟨rfl, by simp only [hmark]⟩
      | onStack => exact .inr (.inl ⟨rfl, by simp only [hmark]⟩)
      | done => exact .inr (.inr ⟨.inl rfl, by simp only [hmark]⟩)

end Search

/-- A symbol to start from is passed over, if it was met or has no children, or else it is
entered. -/
theorem runFrom_cases (children : Symbol → List Symbol) (search : Search) (sym : Symbol) :
    (search.marks[sym.index]? ≠ some .unvisited ∨ children sym = []) ∧
        runFrom children search sym = .ok search ∨
      search.marks[sym.index]? = some .unvisited ∧ children sym ≠ [] ∧
        runFrom children search sym = run children (search.enter sym) := by
  unfold runFrom
  split
  · rename_i hskip
    exact .inl ⟨hskip.imp_right List.isEmpty_iff.mp, rfl⟩
  · rename_i hskip
    obtain ⟨hmark, hempty⟩ := not_or.mp hskip
    exact .inr ⟨Decidable.not_not.mp hmark, fun hnil => hempty (List.isEmpty_iff.mpr hnil), rfl⟩

/-- The search as it is between two turns, or in one that has come to a symbol `above` the
stack: the list is in order, the stack is a path, and the marks of the `count` symbols
tell which of them is where. -/
structure Searching (children : Symbol → List Symbol) (reached : Symbol → Prop) (count : Nat)
    (above : Option Symbol) (search : Search) : Prop where
  size_eq : search.marks.size = count
  first : ChildrenFirst children search.order.toList
  path : Path children search.order above search.stack
  nodup : (search.stack.map Frame.parent).Nodup
  done_iff : ∀ sym : Symbol, search.marks[sym.index]? = some .done ↔ sym ∈ search.order
  onStack_iff : ∀ sym : Symbol,
    search.marks[sym.index]? = some .onStack ↔ sym ∈ search.stack.map Frame.parent
  reached_of_met : ∀ sym, search.Met sym → reached sym

namespace Searching

variable {reached : Symbol → Prop} {above : Option Symbol} {search : Search} {frame : Frame}
  {below : List Frame} {child sym : Symbol} {count : Nat}

theorem start (children : Symbol → List Symbol) (reached : Symbol → Prop) (count : Nat) :
    Searching children reached count none (.start count) where
  size_eq := Array.size_replicate
  first := .nil
  path := .nil
  nodup := List.nodup_nil
  done_iff := fun sym => by simp [Search.start, Array.getElem?_replicate]
  onStack_iff := fun sym => by simp [Search.start, Array.getElem?_replicate]
  reached_of_met := fun sym hmet => by simp [Search.start, Search.Met] at hmet

/-- A symbol was met unless its mark says otherwise. -/
theorem met_iff (h : Searching children reached count above search) (hlt : sym.index < count) :
    search.Met sym ↔ search.marks[sym.index]? ≠ some .unvisited := by
  rw [← h.size_eq] at hlt
  unfold Search.Met
  rw [← h.done_iff, ← h.onStack_iff, Array.getElem?_eq_getElem hlt]
  cases search.marks[sym.index] <;> simp

/-- Following a child: it is above the stack then. -/
theorem follow (h : Searching children reached count none search)
    (hstack : search.stack = frame :: below)
    (hchild : (children frame.parent)[frame.next]? = some child) :
    Searching children reached count (some child) (search.follow frame below) := by
  obtain ⟨hsize, hfirst, hpath, hnodup, hdone, honStack, hreached⟩ := h
  unfold Search.Met at hreached
  rw [hstack] at hpath hnodup honStack hreached
  refine ⟨hsize, hfirst, ?_, hnodup, hdone, honStack, hreached⟩
  cases hpath with
  | cons _ hfollowed hbelow =>
    refine .cons ?_ ?_ hbelow
    · intro c hc
      cases hc
      exact List.mem_of_getElem? hchild
    · intro c hc
      -- one more child was followed, and it is the one above
      rw [List.take_add_one, hchild] at hc
      rcases List.mem_append.mp hc with hc | hc
      · exact (hfollowed c hc).imp_right fun hnone => by cases hnone
      · exact .inr (by simpa [eq_comm] using hc)

/-- A child that is listed already need not be entered. -/
theorem skip (h : Searching children reached count (some child) search)
    (hmem : child ∈ search.order) :
    Searching children reached count none search where
  size_eq := h.size_eq
  first := h.first
  path := h.path.listed fun sym hs => by cases hs; exact hmem
  nodup := h.nodup
  done_iff := h.done_iff
  onStack_iff := h.onStack_iff
  reached_of_met := h.reached_of_met

/-- Entering the symbol above the stack. -/
theorem enter (h : Searching children reached count (some sym) search)
    (hmark : search.marks[sym.index]? = some .unvisited) (hreached : reached sym) :
    Searching children reached count none (search.enter sym) := by
  have hlt : sym.index < search.marks.size := (Array.getElem?_eq_some_iff.mp hmark).1
  have hmet : ¬ search.Met sym := fun hmet => (h.met_iff (h.size_eq ▸ hlt)).mp hmet hmark
  have hnew : sym ∉ search.order ∧ sym ∉ search.stack.map Frame.parent := not_or.mp hmet
  refine ⟨(Array.size_setIfInBounds ..).trans h.size_eq, h.first,
    .cons (by simp) (by simp) h.path, List.nodup_cons.mpr ⟨hnew.2, h.nodup⟩, ?_, ?_, ?_⟩
  · intro s
    rw [Search.enter, getElem?_setMark hlt]
    split
    · rename_i heq
      simp [heq, hnew.1]
    · exact h.done_iff s
  · intro s
    rw [Search.enter, getElem?_setMark hlt]
    split
    · rename_i heq
      simp [heq]
    · rename_i heq
      simpa [heq] using h.onStack_iff s
  · rintro s (hs | hs)
    · exact h.reached_of_met s (.inl hs)
    · rcases List.mem_cons.mp hs with rfl | hs
      · exact hreached
      · exact h.reached_of_met s (.inr hs)

/-- Entering a symbol to start from. -/
theorem enter_first (h : Searching children reached count none search)
    (hstack : search.stack = []) (hmark : search.marks[sym.index]? = some .unvisited)
    (hreached : reached sym) : Searching children reached count none (search.enter sym) := by
  have habove : Searching children reached count (some sym) search :=
    { h with path := hstack ▸ .nil }
  exact habove.enter hmark hreached

/-- Listing the symbol of the top frame, once all its children are listed. -/
theorem leave (h : Searching children reached count none search)
    (hstack : search.stack = frame :: below)
    (hchild : (children frame.parent)[frame.next]? = none) :
    Searching children reached count none (search.leave frame below) := by
  have hon : frame.parent ∈ search.stack.map Frame.parent := by simp [hstack]
  have hmark := (h.onStack_iff frame.parent).mpr hon
  have hlt : frame.parent.index < search.marks.size := (Array.getElem?_eq_some_iff.mp hmark).1
  obtain ⟨hsize, hfirst, hpath, hnodup, hdone, honStack, hreached⟩ := h
  unfold Search.Met at hreached
  rw [hstack] at hpath hnodup honStack hreached
  obtain ⟨hnotin, hnodup⟩ := List.nodup_cons.mp hnodup
  have hnew : frame.parent ∉ search.order := by
    intro hmem
    rw [(hdone frame.parent).mpr hmem] at hmark
    cases hmark
  cases hpath with
  | cons _ hfollowed hbelow =>
    refine ⟨(Array.size_setIfInBounds ..).trans hsize, ?_, (hbelow.mono ?_).listed ?_, hnodup,
      ?_, ?_, ?_⟩
    · show ChildrenFirst children (search.order.push frame.parent).toList
      rw [Array.toList_push]
      refine .snoc hfirst (by simpa using hnew) fun child hc => ?_
      -- no child is left, so all of them were followed
      rw [List.take_of_length_le (List.getElem?_eq_none_iff.mp hchild)] at hfollowed
      exact Array.mem_toList_iff.mpr ((hfollowed child hc).resolve_right (by simp))
    · exact fun s hs => Array.mem_push.mpr (.inl hs)
    · intro s hs
      cases hs
      exact Array.mem_push_self
    · intro s
      rw [Search.leave, getElem?_setMark hlt]
      split
      · rename_i heq
        simp [heq]
      · rename_i heq
        simpa [heq] using hdone s
    · intro s
      rw [Search.leave, getElem?_setMark hlt]
      split
      · rename_i heq
        simpa [heq] using hnotin
      · rename_i heq
        simpa [heq] using honStack s
    · rintro s (hs | hs)
      · rcases Array.mem_push.mp hs with hs | rfl
        · exact hreached s (.inl hs)
        · exact hreached _ (.inr List.mem_cons_self)
      · exact hreached s (.inr (List.mem_cons_of_mem _ hs))

section

variable {search' : Search}
  (hclosed : ∀ sym, reached sym → ∀ child ∈ children sym, reached child)
  (hlt : ∀ sym, reached sym → sym.index < count)

include hclosed hlt

/-- **A turn goes on with the search**, and what was met stays so. -/
theorem turn (h : Searching children reached count none search)
    (hstack : search.stack = frame :: below)
    (hturn : search.turn children frame below = .ok search') :
    Searching children reached count none search' ∧ ∀ sym, search.Met sym → search'.Met sym := by
  have hfollowed : ∀ s ∈ search.stack.map Frame.parent,
      s ∈ (search.follow frame below).stack.map Frame.parent := by
    intro s hs
    rwa [hstack] at hs
  rcases Search.turn_cases children search frame below with ⟨child, hchild, hcase⟩ | ⟨hchild, hlast⟩
  · have habove := h.follow hstack hchild
    have hframe : search.Met frame.parent := .inr (by simp [hstack])
    have hreached : reached child :=
      hclosed _ (h.reached_of_met _ hframe) child (List.mem_of_getElem? hchild)
    rcases hcase with ⟨hmark, hnext⟩ | ⟨-, hnext⟩ | ⟨hmark, hnext⟩
    all_goals
      rw [hnext] at hturn
      cases hturn
    · refine ⟨habove.enter hmark hreached, fun s hs => ?_⟩
      exact hs.imp_right fun hs => List.mem_cons_of_mem _ (hfollowed s hs)
    · -- the child is one of the alphabet, so it has a mark
      have hsome : search.marks[child.index]? ≠ none := by
        rw [Ne, Array.getElem?_eq_none_iff, h.size_eq, Nat.not_le]
        exact hlt child hreached
      have hdone := (h.done_iff child).mp (hmark.resolve_right hsome)
      exact ⟨habove.skip hdone, fun s hs => hs.imp_right (hfollowed s)⟩
  · rw [hlast] at hturn
    cases hturn
    refine ⟨h.leave hstack hchild, fun s hs => ?_⟩
    -- the symbol of the frame is listed now, and the others are where they were
    unfold Search.Met at hs
    rw [hstack, List.map_cons, List.mem_cons] at hs
    rcases hs with hs | rfl | hs
    · exact .inl (Array.mem_push.mpr (.inl hs))
    · exact .inl Array.mem_push_self
    · exact .inr hs

/-- **The loop goes on with the search until the stack is empty.** -/
theorem run (h : Searching children reached count none search)
    (hrun : UnaryOrder.run children search = .ok search') :
    Searching children reached count none search' ∧ search'.stack = [] ∧
      ∀ sym, search.Met sym → search'.Met sym := by
  induction search using run.induct children with
  | case1 search hstack =>
    rw [run_of_nil hstack] at hrun
    cases hrun
    exact ⟨h, hstack, fun _ hs => hs⟩
  | case2 search frame below hstack sym hturn =>
    rw [run_of_cons hstack, hturn] at hrun
    cases hrun
  | case3 search frame below hstack next hturn ih =>
    rw [run_of_cons hstack, hturn] at hrun
    obtain ⟨hnext, hmet⟩ := h.turn hclosed hlt hstack hturn
    obtain ⟨hlast, hempty, hmet'⟩ := ih hnext hrun
    exact ⟨hlast, hempty, fun s hs => hmet' s (hmet s hs)⟩

/-- **From one symbol on**: it is met, or has no children. -/
theorem runFrom (h : Searching children reached count none search) (hstack : search.stack = [])
    (hsym : children sym ≠ [] → reached sym)
    (hrun : UnaryOrder.runFrom children search sym = .ok search') :
    Searching children reached count none search' ∧ search'.stack = [] ∧
      (∀ s, search.Met s → search'.Met s) ∧ (children sym ≠ [] → search'.Met sym) := by
  rcases runFrom_cases children search sym with ⟨hskip, hfrom⟩ | ⟨hmark, hne, hfrom⟩
  · rw [hfrom] at hrun
    cases hrun
    refine ⟨h, hstack, fun _ hs => hs, fun hne => ?_⟩
    exact (h.met_iff (hlt sym (hsym hne))).mpr (hskip.resolve_right hne)
  · rw [hfrom] at hrun
    obtain ⟨hlast, hstack', hmet⟩ :=
      (h.enter_first hstack hmark (hsym hne)).run hclosed hlt hrun
    refine ⟨hlast, hstack', fun s hs => hmet s ?_, fun _ => hmet sym (.inr List.mem_cons_self)⟩
    exact hs.imp_right fun hs => List.mem_cons_of_mem _ hs

end

end Searching

end ChartParsing.UnaryOrder

namespace ChartParsing

open UnaryOrder

/-- **An order that is found lists children first.** It has every symbol of the
alphabet that has children, and nothing but what is reached from those. -/
theorem unaryOrder_ok {symbols : List Symbol} {children : Symbol → List Symbol}
    {order : Array Symbol} {reached : Symbol → Prop}
    (hclosed : ∀ sym, reached sym → ∀ child ∈ children sym, reached child)
    (hlt : ∀ sym, reached sym → sym.index < symbols.length)
    (hsymbols : ∀ sym ∈ symbols, children sym ≠ [] → reached sym)
    (h : unaryOrder symbols children = .ok order) :
    ChildrenFirst children order.toList ∧
      (∀ sym ∈ symbols, children sym ≠ [] → sym ∈ order) ∧ ∀ sym ∈ order, reached sym := by
  obtain ⟨search, hfold, hok⟩ := bind_eq_ok h
  cases hok
  have hloop := of_foldlM_eq_ok
    (fun done (search : Search) => Searching children reached symbols.length none search ∧
      search.stack = [] ∧ ∀ sym ∈ done, children sym ≠ [] → search.Met sym) hfold
    ⟨.start children reached _, rfl, fun sym hs => absurd hs (by simp)⟩
  obtain ⟨hsearch, hstack, hmet⟩ := hloop (by
    intro done sym rest search₁ search₂ hsplit hinv hstep
    obtain ⟨hsearch, hstack, hdone⟩ := hinv
    have hsym : sym ∈ symbols := by simp [hsplit]
    obtain ⟨hsearch', hstack', hkept, hnew⟩ :=
      hsearch.runFrom hclosed hlt hstack (hsymbols sym hsym) hstep
    refine ⟨hsearch', hstack', ?_⟩
    intro s hs hne
    rcases List.mem_append.mp hs with hs | hs
    · exact hkept s (hdone s hs hne)
    · cases List.mem_singleton.mp hs
      exact hnew hne)
  refine ⟨hsearch.first, fun sym hs hne => ?_, fun sym hs => hsearch.reached_of_met sym (.inl hs)⟩
  -- the stack is empty in the end, so what was met is listed
  exact (hmet sym hs hne).resolve_right (by simp [hstack])

end ChartParsing
