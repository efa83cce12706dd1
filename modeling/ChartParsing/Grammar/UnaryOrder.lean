import ChartParsing.Symbol

/-!
# The order of unary rules

A chain of unary rules stays on one span, so the rules have to be applied
children first: a parent must read the final score of its child. `unaryOrder`
lists the symbols of unary rules so that every child comes before its parents,
by a depth-first search that lists a symbol once all its children are listed.

The search has a stack of its own. A symbol is on the stack while its children
are followed, and the one on top goes on with the child that comes next. The
symbols on the stack form a path: each was entered from the one below. Meeting one
of them again therefore closes a cycle, and no order exists.

A turn follows one child or lists one symbol. No symbol is entered twice, so there
are only so many turns, and the search ends.
-/

namespace ChartParsing.UnaryOrder

/-- How far the search is with a symbol. -/
inductive Mark where
  | unvisited
  | onStack
  | done
  deriving DecidableEq

/-- A symbol on the stack, and how many of its children were followed. -/
structure Frame where
  parent : Symbol
  next : Nat

/-- A search for an order: a mark for every symbol, by number, the symbols listed so
far, and the stack, its last frame first. -/
structure Search where
  marks : Array Mark
  order : Array Symbol
  stack : List Frame

namespace Search

/-- The search in an alphabet of so many symbols, before it begins. -/
def start (count : Nat) : Search := ⟨Array.replicate count .unvisited, #[], []⟩

/-- Puts a symbol on the stack, with no child followed. -/
def enter (search : Search) (sym : Symbol) : Search :=
  { search with
    marks := search.marks.setIfInBounds sym.index .onStack
    stack := ⟨sym, 0⟩ :: search.stack }

/-- Takes the top frame on to the next child. -/
def follow (search : Search) (frame : Frame) (below : List Frame) : Search :=
  { search with stack := { frame with next := frame.next + 1 } :: below }

/-- Lists the symbol of the top frame, and takes the frame off the stack. -/
def leave (search : Search) (frame : Frame) (below : List Frame) : Search where
  marks := search.marks.setIfInBounds frame.parent.index .done
  order := search.order.push frame.parent
  stack := below

/-- One turn, with a frame on top of the stack. Fails at a child that is on the stack
itself. A child without a mark is none of the alphabet, and is passed over. -/
def turn (children : Symbol → List Symbol) (search : Search) (frame : Frame)
    (below : List Frame) : Except Symbol Search :=
  match (children frame.parent)[frame.next]? with
  | none => .ok (search.leave frame below)
  | some child =>
    match search.marks[child.index]? with
    | some .unvisited => .ok ((search.follow frame below).enter child)
    | some .onStack => .error child
    | some .done | none => .ok (search.follow frame below)

/-! ## An end to the turns -/

/-- The turns for the symbols numbered from `number` on that are unvisited: one for each
child, and one to list the symbol. -/
def unvisitedTurns (children : Symbol → List Symbol) : (number : Nat) → List Mark → Nat
  | _, [] => 0
  | number, mark :: marks =>
    (if mark = .unvisited then (children (.ofNat number)).length + 1 else 0) +
      unvisitedTurns children (number + 1) marks

/-- The turns that frames have not taken yet. -/
def stackTurns (children : Symbol → List Symbol) : List Frame → Nat
  | [] => 0
  | frame :: below =>
    (children frame.parent).length - frame.next + 1 + stackTurns children below

/-- No more turns than these are left. -/
def turnsLeft (children : Symbol → List Symbol) (search : Search) : Nat :=
  unvisitedTurns children 0 search.marks.toList + stackTurns children search.stack

variable {children : Symbol → List Symbol} {search : Search}

/-- Visiting a symbol saves its turns. -/
theorem unvisitedTurns_set {mark : Mark} (hmark : mark ≠ .unvisited) {marks : List Mark} {i : Nat}
    (number : Nat) (h : marks[i]? = some .unvisited) :
    unvisitedTurns children number (marks.set i mark) +
        ((children (.ofNat (number + i))).length + 1) =
      unvisitedTurns children number marks := by
  induction marks generalizing i number with
  | nil => cases h
  | cons first marks ih =>
    cases i with
    | zero =>
      cases h
      simp only [List.set_cons_zero, unvisitedTurns, if_neg hmark, if_true, Nat.add_zero]
      omega
    | succ i =>
      have hrest := ih (number + 1) h
      rw [show number + (i + 1) = number + 1 + i by omega]
      simp only [List.set_cons_succ, unvisitedTurns]
      omega

theorem unvisitedTurns_set_le {mark : Mark} (hmark : mark ≠ .unvisited) (marks : List Mark)
    (i number : Nat) :
    unvisitedTurns children number (marks.set i mark) ≤ unvisitedTurns children number marks := by
  induction marks generalizing i number with
  | nil => exact Nat.le_of_eq rfl
  | cons first marks ih =>
    cases i with
    | zero =>
      simp only [List.set_cons_zero, unvisitedTurns, if_neg hmark]
      omega
    | succ i =>
      have hrest := ih i (number + 1)
      simp only [List.set_cons_succ, unvisitedTurns]
      omega

/-- A symbol that is entered takes its turns along. -/
theorem turnsLeft_enter {sym : Symbol} (h : search.marks[sym.index]? = some .unvisited) :
    (search.enter sym).turnsLeft children = search.turnsLeft children := by
  have hset : unvisitedTurns children 0 (search.marks.toList.set sym.index .onStack) +
      ((children (.ofNat (0 + sym.index))).length + 1) =
        unvisitedTurns children 0 search.marks.toList :=
    unvisitedTurns_set (by decide) 0 ((Array.getElem?_toList ..).trans h)
  rw [Nat.zero_add, Symbol.ofNat_index] at hset
  simp only [turnsLeft, enter, Array.toList_setIfInBounds, stackTurns, Nat.sub_zero]
  omega

theorem turnsLeft_follow {frame : Frame} {below : List Frame} {child : Symbol}
    (hstack : search.stack = frame :: below)
    (hchild : (children frame.parent)[frame.next]? = some child) :
    (search.follow frame below).turnsLeft children + 1 = search.turnsLeft children := by
  have hlt := (List.getElem?_eq_some_iff.mp hchild).1
  simp only [turnsLeft, follow, hstack, stackTurns]
  omega

theorem turnsLeft_leave {frame : Frame} {below : List Frame}
    (hstack : search.stack = frame :: below) :
    (search.leave frame below).turnsLeft children < search.turnsLeft children := by
  have hle : unvisitedTurns children 0 (search.marks.toList.set frame.parent.index .done) ≤
      unvisitedTurns children 0 search.marks.toList := unvisitedTurns_set_le (by decide) _ _ _
  simp only [turnsLeft, leave, Array.toList_setIfInBounds, hstack, stackTurns]
  omega

/-- **A turn leaves fewer turns.** -/
theorem turnsLeft_turn {search' : Search} {frame : Frame} {below : List Frame}
    (hstack : search.stack = frame :: below)
    (h : search.turn children frame below = .ok search') :
    search'.turnsLeft children < search.turnsLeft children := by
  unfold turn at h
  split at h
  · cases h
    exact turnsLeft_leave hstack
  · rename_i child hchild
    have hfollow := turnsLeft_follow hstack hchild
    split at h
    · rename_i hmark
      have henter : ((search.follow frame below).enter child).turnsLeft children =
          (search.follow frame below).turnsLeft children := turnsLeft_enter hmark
      cases h
      omega
    · cases h
    all_goals
      cases h
      omega

end Search

/-- Takes turns until the stack is empty. -/
def run (children : Symbol → List Symbol) (search : Search) : Except Symbol Search :=
  match _ : search.stack with
  | [] => .ok search
  | frame :: below =>
    match _ : search.turn children frame below with
    | .error sym => .error sym
    | .ok search' => run children search'
termination_by search.turnsLeft children
decreasing_by exact Search.turnsLeft_turn ‹_› ‹_›

theorem run_of_nil {children : Symbol → List Symbol} {search : Search} (h : search.stack = []) :
    run children search = .ok search := by
  rw [run]
  split
  · rfl
  · rename_i hstack
    cases h.symm.trans hstack

/-- With a frame on the stack the loop takes one turn, and goes on. -/
theorem run_of_cons {children : Symbol → List Symbol} {search : Search} {frame : Frame}
    {below : List Frame} (h : search.stack = frame :: below) :
    run children search = search.turn children frame below >>= run children := by
  rw [run]
  split
  · rename_i hstack
    cases h.symm.trans hstack
  · rename_i hstack
    cases h.symm.trans hstack
    split <;> (rename_i hturn; rw [hturn]; rfl)

/-- Lists a symbol and what is below it, unless it was met or has no children. -/
def runFrom (children : Symbol → List Symbol) (search : Search) (sym : Symbol) :
    Except Symbol Search :=
  if search.marks[sym.index]? ≠ some .unvisited ∨ (children sym).isEmpty then .ok search
  else run children (search.enter sym)

end ChartParsing.UnaryOrder

namespace ChartParsing

/-- The symbols with children, and the children, each child before its parents.
Fails at a symbol that a cycle goes through. -/
def unaryOrder (symbols : List Symbol) (children : Symbol → List Symbol) :
    Except Symbol (Array Symbol) := do
  let search ← symbols.foldlM (UnaryOrder.runFrom children) (.start symbols.length)
  return search.order

end ChartParsing
