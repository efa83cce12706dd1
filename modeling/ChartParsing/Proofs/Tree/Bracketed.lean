import ChartParsing.ParseTree
import ChartParsing.Proofs.Alphabet
import ChartParsing.Proofs.Grammar.Accepted

/-!
# Reading trees in brackets

A tree in brackets tells the arrangement of the symbols, and leaves out the positions.
It can be read back if no name is empty and none has a blank or a parenthesis in it.
The reader takes two steps. The text is cut into a word for each leaf, an opening
with its name for each node and a closing. These are then put together with a stack of
the nodes that are still open.
-/

namespace ChartParsing

/-! ## Names -/

/-- A name that ends where a blank or a parenthesis comes. -/
structure PlainName (name : String) : Prop where
  nonempty : name ≠ ""
  no_blank : ' ' ∉ name.toList
  no_opening : '(' ∉ name.toList
  no_closing : ')' ∉ name.toList

/-- The character may stand in a plain name. -/
def isNameChar (c : Char) : Bool := c ≠ ' ' && c ≠ '(' && c ≠ ')'

theorem PlainName.isNameChar {name : String} (h : PlainName name) :
    ∀ c ∈ name.toList, isNameChar c = true := by
  intro c hc
  have hblank : c ≠ ' ' := fun heq => h.no_blank (heq ▸ hc)
  have hopening : c ≠ '(' := fun heq => h.no_opening (heq ▸ hc)
  have hclosing : c ≠ ')' := fun heq => h.no_closing (heq ▸ hc)
  simp [ChartParsing.isNameChar, hblank, hopening, hclosing]

/-- The grammar numbers plain names, in the order in which they came in. -/
structure Grammar.PlainNames {S : Type} (g : Grammar S) : Prop where
  nonterminals : g.nonterminals.Interned
  terminals : g.terminals.Interned
  plain_nonterminal : ∀ name ∈ g.nonterminals.names, PlainName name
  plain_terminal : ∀ name ∈ g.terminals.names, PlainName name

namespace ParseTree

variable {S : Type} {g : Grammar S}

/-! ## Trees without positions -/

mutual

/-- The tree with all positions zero. -/
def unplaced : ParseTree → ParseTree
  | leaf terminal _ => leaf terminal 0
  | node symbol _ _ children => node symbol 0 0 (unplacedAll children)

/-- Several trees with all positions zero. -/
def unplacedAll : List ParseTree → List ParseTree
  | [] => []
  | tree :: trees => unplaced tree :: unplacedAll trees

end

mutual

/-- The symbols of the tree are numbered by the grammar. -/
def NamedBy (g : Grammar S) : ParseTree → Prop
  | leaf terminal _ => g.terminals.contains terminal = true
  | node symbol _ _ children =>
    g.nonterminals.contains symbol = true ∧ AllNamedBy g children

/-- The symbols of several trees are numbered by the grammar. -/
def AllNamedBy (g : Grammar S) : List ParseTree → Prop
  | [] => True
  | tree :: trees => NamedBy g tree ∧ AllNamedBy g trees

end

/-! ## Cutting the text -/

/-- A piece of a tree in brackets. -/
inductive Piece where
  | word (name : String)
  | opening (name : String)
  | closing

mutual

/-- The pieces of a tree. -/
def pieces (g : Grammar S) : ParseTree → List Piece
  | leaf terminal _ => [.word (nameText g.terminals terminal)]
  | node symbol _ _ children =>
    .opening (nameText g.nonterminals symbol) :: (piecesAll g children ++ [.closing])

/-- The pieces of several trees. -/
def piecesAll (g : Grammar S) : List ParseTree → List Piece
  | [] => []
  | tree :: trees => pieces g tree ++ piecesAll g trees

end

/-- The pieces of a text. -/
def cut : List Char → List Piece
  | [] => []
  | c :: rest =>
    if c = ' ' then cut rest
    else if c = ')' then .closing :: cut rest
    else if c = '(' then
      .opening (.ofList (rest.takeWhile isNameChar)) :: cut (rest.dropWhile isNameChar)
    else .word (.ofList (c :: rest.takeWhile isNameChar)) :: cut (rest.dropWhile isNameChar)
termination_by text => text.length
decreasing_by
  all_goals have hsub : (rest.dropWhile isNameChar).Sublist rest := List.dropWhile_sublist _
  all_goals have hle := hsub.length_le
  all_goals simp only [List.length_cons]
  all_goals omega

/-- A name that comes before the text ends there. -/
def EndsName (text : List Char) : Prop := ∀ c ∈ text.head?, isNameChar c = false

theorem takeWhile_name {name : List Char} (hname : ∀ c ∈ name, isNameChar c = true)
    {rest : List Char} (hrest : EndsName rest) : (name ++ rest).takeWhile isNameChar = name := by
  rw [List.takeWhile_append_of_pos hname]
  cases rest with
  | nil => simp
  | cons c rest => simp [hrest c rfl]

theorem dropWhile_name {name : List Char} (hname : ∀ c ∈ name, isNameChar c = true)
    {rest : List Char} (hrest : EndsName rest) : (name ++ rest).dropWhile isNameChar = rest := by
  rw [List.dropWhile_append_of_pos hname]
  cases rest with
  | nil => rfl
  | cons c rest => simp [hrest c rfl]

theorem cut_blank (rest : List Char) : cut (' ' :: rest) = cut rest := by
  rw [cut, if_pos rfl]

theorem cut_closing (rest : List Char) : cut (')' :: rest) = .closing :: cut rest := by
  rw [cut, if_neg (by decide), if_pos rfl]

theorem cut_opening {name : String} (hname : PlainName name) {rest : List Char}
    (hrest : EndsName rest) :
    cut ('(' :: (name.toList ++ rest)) = .opening name :: cut rest := by
  rw [cut, if_neg (by decide), if_neg (by decide), if_pos rfl,
    takeWhile_name hname.isNameChar hrest, dropWhile_name hname.isNameChar hrest,
    String.ofList_toList]

theorem cut_word {name : String} (hname : PlainName name) {rest : List Char}
    (hrest : EndsName rest) : cut (name.toList ++ rest) = .word name :: cut rest := by
  have hchars := hname.isNameChar
  have hlist : String.ofList name.toList = name := String.ofList_toList
  cases hcs : name.toList with
  | nil => exact absurd (String.toList_inj.mp hcs) hname.nonempty
  | cons c cs =>
    rw [hcs] at hchars hlist
    obtain ⟨hc, hcs⟩ := List.forall_mem_cons.mp hchars
    simp only [isNameChar, Bool.and_eq_true, decide_eq_true_eq] at hc
    rw [List.cons_append, cut, if_neg hc.1.1, if_neg hc.2, if_neg hc.1.2,
      takeWhile_name hcs hrest, dropWhile_name hcs hrest, hlist]

theorem nameText_spec {a : Alphabet} (hplain : ∀ name ∈ a.names, PlainName name) {sym : Symbol}
    (hsym : a.contains sym = true) :
    PlainName (nameText a sym) ∧ a.name? sym = some (nameText a sym) := by
  obtain ⟨name, hmem, hname⟩ := Alphabet.exists_name?_of_contains hsym
  rw [nameText, hname]
  exact ⟨hplain name hmem, rfl⟩

/-- A list of trees in brackets starts with a blank. -/
theorem endsName_bracketedAll (trees : List ParseTree) {rest : List Char}
    (hrest : EndsName rest) :
    EndsName ((bracketedAll g.nonterminals g.terminals trees).toList ++ rest) := by
  cases trees with
  | nil => simpa [bracketedAll] using hrest
  | cons tree trees => simp [bracketedAll, EndsName, isNameChar]

mutual

/-- The text of a tree is cut into the pieces of the tree. -/
theorem cut_bracketed (hg : g.PlainNames) {rest : List Char} (hrest : EndsName rest) :
    (tree : ParseTree) → tree.NamedBy g →
      cut ((tree.bracketedWith g.nonterminals g.terminals).toList ++ rest) =
        tree.pieces g ++ cut rest
  | leaf terminal _, h =>
    have hname := (nameText_spec hg.plain_terminal h).1
    cut_word hname hrest
  | node symbol _ _ children, h => by
    have hname := (nameText_spec hg.plain_nonterminal h.1).1
    have hclosing : EndsName (')' :: rest) := by simp [EndsName, isNameChar]
    have hchildren := cut_bracketedAll hg hclosing children h.2
    simp only [bracketedWith, String.toList_append, List.append_assoc, pieces]
    refine (cut_opening hname (endsName_bracketedAll children hclosing)).trans ?_
    rw [hchildren, cut_closing]
    simp

/-- The text of several trees is cut into their pieces. -/
theorem cut_bracketedAll (hg : g.PlainNames) {rest : List Char} (hrest : EndsName rest) :
    (trees : List ParseTree) → AllNamedBy g trees →
      cut ((bracketedAll g.nonterminals g.terminals trees).toList ++ rest) =
        piecesAll g trees ++ cut rest
  | [], _ => by simp [bracketedAll, piecesAll]
  | tree :: trees, h => by
    have htree := cut_bracketed hg (endsName_bracketedAll (g := g) trees hrest) tree h.1
    have htrees := cut_bracketedAll hg hrest trees h.2
    simp only [bracketedAll, String.toList_append, List.append_assoc, piecesAll]
    rw [← htrees, ← htree]
    exact cut_blank _

end

/-! ## Putting the pieces together -/

/-- The trees that the pieces stand for. Trees that are complete are held in reverse,
and so are those before each node that is still open. -/
def assemble (g : Grammar S) (complete : List ParseTree) (opened : List (Symbol × List ParseTree)) :
    List Piece → Option (List ParseTree)
  | [] => if opened.isEmpty then some complete.reverse else none
  | .word name :: rest => do
    let terminal ← g.terminals.lookup name
    assemble g (leaf terminal 0 :: complete) opened rest
  | .opening name :: rest => do
    let symbol ← g.nonterminals.lookup name
    assemble g [] ((symbol, complete) :: opened) rest
  | .closing :: rest =>
    match opened with
    | [] => none
    | (symbol, before) :: opened =>
      assemble g (node symbol 0 0 complete.reverse :: before) opened rest

mutual

/-- The pieces of a tree are put together to the tree. -/
theorem assemble_pieces (hg : g.PlainNames) (complete : List ParseTree)
    (opened : List (Symbol × List ParseTree)) (rest : List Piece) :
    (tree : ParseTree) → tree.NamedBy g →
      assemble g complete opened (tree.pieces g ++ rest) =
        assemble g (tree.unplaced :: complete) opened rest
  | leaf terminal _, h => by
    have hlookup := hg.terminals.lookup_of_name? (nameText_spec hg.plain_terminal h).2
    simp [pieces, assemble, unplaced, hlookup]
  | node symbol _ _ children, h => by
    have hlookup := hg.nonterminals.lookup_of_name? (nameText_spec hg.plain_nonterminal h.1).2
    have hchildren := assemble_piecesAll hg [] ((symbol, complete) :: opened)
      (.closing :: rest) children h.2
    simp [pieces, assemble, unplaced, hlookup, hchildren]

/-- The pieces of several trees are put together to the trees. -/
theorem assemble_piecesAll (hg : g.PlainNames) (complete : List ParseTree)
    (opened : List (Symbol × List ParseTree)) (rest : List Piece) :
    (trees : List ParseTree) → AllNamedBy g trees →
      assemble g complete opened (piecesAll g trees ++ rest) =
        assemble g ((unplacedAll trees).reverse ++ complete) opened rest
  | [], _ => by simp [piecesAll, unplacedAll]
  | tree :: trees, h => by
    rw [piecesAll, List.append_assoc, assemble_pieces hg complete opened _ tree h.1,
      assemble_piecesAll hg (tree.unplaced :: complete) opened rest trees h.2]
    simp [unplacedAll]

end

/-! ## Reading back -/

/-- The tree that a text stands for, without positions. -/
def ofBracketed? (g : Grammar S) (text : String) : Option ParseTree :=
  match assemble g [] [] (cut text.toList) with
  | some [tree] => some tree
  | _ => none

/-- A tree is read back from its text, without the positions. -/
theorem ofBracketed?_bracketed (hg : g.PlainNames) {tree : ParseTree} (h : tree.NamedBy g) :
    ofBracketed? g (tree.bracketed g) = some tree.unplaced := by
  have hends : EndsName [] := by simp [EndsName]
  have hcut := cut_bracketed hg hends tree h
  have hassemble := assemble_pieces hg [] [] [] tree h
  rw [List.append_nil, cut, List.append_nil] at hcut
  rw [List.append_nil] at hassemble
  rw [ofBracketed?, bracketed, hcut, hassemble]
  rfl

mutual

/-- The text does not tell the positions. -/
theorem bracketedWith_unplaced (nonterminals terminals : Alphabet) :
    (tree : ParseTree) → tree.unplaced.bracketedWith nonterminals terminals =
      tree.bracketedWith nonterminals terminals
  | leaf _ _ => rfl
  | node _ _ _ children => by
    rw [unplaced, bracketedWith, bracketedWith,
      bracketedAll_unplacedAll nonterminals terminals children]

theorem bracketedAll_unplacedAll (nonterminals terminals : Alphabet) :
    (trees : List ParseTree) → bracketedAll nonterminals terminals (unplacedAll trees) =
      bracketedAll nonterminals terminals trees
  | [] => rfl
  | tree :: trees => by
    rw [unplacedAll, bracketedAll, bracketedAll, bracketedWith_unplaced nonterminals terminals tree,
      bracketedAll_unplacedAll nonterminals terminals trees]

end

/-- **Bracketed notation is unambiguous.** With plain names, two trees over the symbols
of a grammar are written alike exactly if they are equal up to their positions. -/
theorem bracketed_eq_iff (hg : g.PlainNames) {tree tree' : ParseTree} (h : tree.NamedBy g)
    (h' : tree'.NamedBy g) :
    tree.bracketed g = tree'.bracketed g ↔ tree.unplaced = tree'.unplaced := by
  refine ⟨fun heq => ?_, fun heq => ?_⟩
  · have hread := ofBracketed?_bracketed hg h
    rw [heq, ofBracketed?_bracketed hg h'] at hread
    exact (Option.some.inj hread).symm
  · rw [bracketed, bracketed, ← bracketedWith_unplaced, heq, bracketedWith_unplaced]

/-- Three trees over `S` and `a`, of which the second stands further on than the first and
the third branches the other way. The first two are written alike, the third is not. -/
theorem bracketed_eq_iff_small :
    ∃ g : Grammar Nat, ∃ tree moved other : ParseTree, g.PlainNames ∧ tree.NamedBy g ∧
      moved.NamedBy g ∧ other.NamedBy g ∧ tree ≠ moved ∧
        tree.bracketed g = moved.bracketed g ∧ tree.bracketed g ≠ other.bracketed g := by
  let s := Symbol.ofNat 0
  let g : Grammar Nat := .assemble (.ofNames ["S"]) (.ofNames ["a"]) s #[] .leftChild #[]
  let a (position : Nat) := leaf (.ofNat 0) position
  let tree := node s 0 3 [node s 0 2 [a 0, a 1], a 2]
  let moved := node s 4 7 [node s 4 6 [a 4, a 5], a 6]
  let other := node s 0 3 [a 0, node s 1 3 [a 1, a 2]]
  have hnames (name : String) : (Alphabet.ofNames [name]).names = #[name] := by
    simp [Alphabet.ofNames, Alphabet.internAll, Alphabet.intern, Alphabet.lookup, Alphabet.empty]
  have hs : g.nonterminals.names = #["S"] := hnames "S"
  have ha : g.terminals.names = #["a"] := hnames "a"
  have hg : g.PlainNames := {
    nonterminals := Alphabet.interned_ofNames _
    terminals := Alphabet.interned_ofNames _
    plain_nonterminal := fun name hname => by
      rw [hs] at hname
      obtain rfl := Array.mem_singleton.mp hname
      exact ⟨by decide, by decide, by decide, by decide⟩
    plain_terminal := fun name hname => by
      rw [ha] at hname
      obtain rfl := Array.mem_singleton.mp hname
      exact ⟨by decide, by decide, by decide, by decide⟩ }
  have hs0 : g.nonterminals.contains s = true := by
    simp [Alphabet.contains, Alphabet.size, hs, s, Symbol.index_ofNat]
  have ha0 : g.terminals.contains (.ofNat 0) = true := by
    simp [Alphabet.contains, Alphabet.size, ha, Symbol.index_ofNat]
  have htree : tree.NamedBy g := by simp [tree, a, NamedBy, AllNamedBy, hs0, ha0]
  have hmoved : moved.NamedBy g := by simp [moved, a, NamedBy, AllNamedBy, hs0, ha0]
  have hother : other.NamedBy g := by simp [other, a, NamedBy, AllNamedBy, hs0, ha0]
  refine ⟨g, tree, moved, other, hg, htree, hmoved, hother, by simp [tree, moved],
    (bracketed_eq_iff hg htree hmoved).mpr rfl, fun heq => ?_⟩
  cases (bracketed_eq_iff hg htree hother).mp heq

end ParseTree

end ChartParsing
