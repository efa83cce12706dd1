import ChartParsing.Alphabet

/-!
# Names and their symbols

An alphabet is filled by interning names, one after the other. So the symbol of every
name that has a number is found from the name again.

What an alphabet has numbered are the names it has heard, each once, in the order in
which they first came in. This is kept by every call. As long as there are symbols
enough for the different names, names and symbols correspond one to one.
-/

namespace ChartParsing.Alphabet

variable {a : Alphabet} {name : String} {sym : Symbol}

/-- Nothing was done to the alphabet but interning names. -/
inductive Interned : Alphabet → Prop where
  | empty : Interned empty
  | intern {a : Alphabet} (h : Interned a) (name : String) : Interned (a.intern name).2

theorem Interned.internAll (h : a.Interned) (names : List String) :
    (a.internAll names).2.Interned := by
  induction names generalizing a with
  | nil => exact h
  | cons name names ih => exact ih (h.intern name)

theorem interned_ofNames (names : List String) : (ofNames names).Interned :=
  Interned.empty.internAll names

/-- A name that is numbered has the symbol of its number. -/
theorem Interned.lookup_of_getElem? (h : a.Interned) {i : Nat} (hi : a.names[i]? = some name) :
    a.lookup name = some (.ofNat i) := by
  induction h generalizing i name with
  | empty => cases hi
  | @intern a _ new ih =>
    unfold Alphabet.intern at hi ⊢
    split at hi
    · exact ih hi
    · rename_i hnew
      rw [Array.getElem?_push] at hi
      simp only [lookup, Std.HashMap.getElem?_insert]
      split at hi
      · rename_i hlast
        cases hi
        rw [if_pos (beq_self_eq_true _), hlast, size]
      · have hold := ih hi
        -- a name that has a symbol is not the new one
        have hne : new ≠ name := by
          rintro rfl
          cases hnew.symm.trans hold
        rw [if_neg (by simpa using hne)]
        exact hold

theorem Interned.lookup_of_name? (h : a.Interned) (hname : a.name? sym = some name) :
    a.lookup name = some sym := by
  rw [h.lookup_of_getElem? hname, Symbol.ofNat_index]

theorem exists_name?_of_contains (h : a.contains sym = true) :
    ∃ name ∈ a.names, a.name? sym = some name := by
  have hlt : sym.index < a.names.size := of_decide_eq_true h
  exact ⟨a.names[sym.index], Array.getElem_mem hlt, Array.getElem?_eq_getElem hlt⟩

/-- The symbols with a name are those numbered below the size. -/
theorem isSome_name?_iff (a : Alphabet) (sym : Symbol) :
    (a.name? sym).isSome = true ↔ sym.index < a.size := by
  simp [name?, size]

/-! ## Calls -/

/-- What an alphabet is asked to number: one name, or several in a row. -/
inductive Call where
  | intern (name : String)
  | internAll (names : List String)

/-- The names of a call, in order. -/
def Call.names : Call → List String
  | .intern name => [name]
  | .internAll names => names

/-- The symbols that a call answers with, and the alphabet after it. -/
def Call.on (a : Alphabet) : Call → List Symbol × Alphabet
  | .intern name => ([(a.intern name).1], (a.intern name).2)
  | .internAll names => a.internAll names

/-- What calls in a row answer, and the alphabet after them. -/
def run (a : Alphabet) : List Call → List (List Symbol) × Alphabet
  | [] => ([], a)
  | call :: calls =>
    let (syms, a) := call.on a
    let (more, a) := a.run calls
    (syms :: more, a)

/-- The names that calls mention, in order. -/
def heard (calls : List Call) : List String := calls.flatMap Call.names

/-- One name is interned as a list of one. -/
theorem Call.on_eq (a : Alphabet) (call : Call) : call.on a = a.internAll call.names := by
  cases call <;> rfl

/-! ## Numbers by first occurrence -/

/-- The number of a name among those heard: how many different names came in before it
did for the first time. -/
def numberIn (names : List String) (name : String) : Nat := names.eraseDups.idxOf name

/-- A name keeps its number, whatever comes in later. -/
theorem numberIn_append {names : List String} (h : name ∈ names) (more : List String) :
    numberIn (names ++ more) name = numberIn names name := by
  rw [numberIn, List.eraseDups_append, List.idxOf_append, if_pos (List.mem_eraseDups.mpr h),
    numberIn]

theorem eraseDups_concat (names : List String) (name : String) :
    (names ++ [name]).eraseDups =
      if name ∈ names then names.eraseDups else names.eraseDups ++ [name] := by
  rw [List.eraseDups_append, List.cons_removeAll]
  by_cases h : name ∈ names <;> simp [h, List.eraseDups_cons]

/-- The alphabet has heard the names: it holds the different ones in the order in which
they first came in, and finds each by its number there. -/
structure Heard (a : Alphabet) (names : List String) : Prop where
  names_eq : a.names.toList = names.eraseDups
  lookup_eq : ∀ name, a.lookup name =
    if name ∈ names then some (.ofNat (numberIn names name)) else none

theorem heard_empty : empty.Heard [] := ⟨rfl, fun _ => by simp [lookup, empty]⟩

variable {names more : List String}

/-- What is asked about an alphabet depends on the different names that it has heard. -/
theorem Heard.of_eraseDups_eq (h : a.Heard names) (hmem : ∀ name, name ∈ more ↔ name ∈ names)
    (heq : more.eraseDups = names.eraseDups) : a.Heard more := by
  refine ⟨h.names_eq.trans heq.symm, fun name => ?_⟩
  rw [h.lookup_eq, numberIn, numberIn, heq]
  simp only [hmem]

/-- **Interning a name** answers with its number. A name heard before changes nothing. -/
theorem Heard.intern (h : a.Heard names) (name : String) :
    (a.intern name).1 = .ofNat (numberIn (names ++ [name]) name) ∧
      (a.intern name).2.Heard (names ++ [name]) ∧
      (name ∈ names → (a.intern name).2 = a) := by
  have hlookup := h.lookup_eq name
  unfold Alphabet.intern
  by_cases hold : name ∈ names
  · rw [if_pos hold] at hlookup
    rw [hlookup, numberIn_append hold]
    refine ⟨rfl, h.of_eraseDups_eq ?_ ?_, fun _ => rfl⟩
    · intro other
      simp only [List.mem_append, List.mem_singleton]
      exact ⟨fun hx => hx.elim id fun heq => heq ▸ hold, Or.inl⟩
    · rw [eraseDups_concat, if_pos hold]
  · rw [if_neg hold] at hlookup
    have hnumber : numberIn (names ++ [name]) name = a.size := by
      rw [numberIn, eraseDups_concat, if_neg hold, List.idxOf_append,
        if_neg (fun hx => hold (List.mem_eraseDups.mp hx)), size, ← Array.length_toList, h.names_eq]
      simp
    rw [hlookup, hnumber]
    refine ⟨rfl, ⟨?_, fun other => ?_⟩, fun hx => absurd hx hold⟩
    · rw [eraseDups_concat, if_neg hold, Array.toList_push, h.names_eq]
    · simp only [lookup, Std.HashMap.getElem?_insert, beq_iff_eq]
      by_cases heq : name = other
      · subst heq
        rw [if_pos rfl, if_pos (by simp), hnumber]
      · rw [if_neg heq]
        by_cases hmem : other ∈ names
        · rw [if_pos (List.mem_append_left _ hmem), numberIn_append hmem]
          exact (h.lookup_eq other).trans (if_pos hmem)
        · rw [if_neg (by simp [hmem, Ne.symm heq])]
          exact (h.lookup_eq other).trans (if_neg hmem)

/-- **Interning several names** answers with the number of each. -/
theorem Heard.internAll (h : a.Heard names) (more : List String) :
    (a.internAll more).1 = more.map (fun name => .ofNat (numberIn (names ++ more) name)) ∧
      (a.internAll more).2.Heard (names ++ more) := by
  induction more generalizing a names with
  | nil => exact ⟨rfl, by rw [List.append_nil]; exact h⟩
  | cons name more ih =>
    obtain ⟨hsym, hnext, -⟩ := h.intern name
    obtain ⟨hsyms, hlast⟩ := ih hnext
    rw [List.append_assoc, List.singleton_append] at hsyms hlast
    refine ⟨?_, hlast⟩
    show (a.intern name).1 :: ((a.intern name).2.internAll more).1 = _
    rw [hsym, hsyms, List.map_cons, ← numberIn_append (by simp) more, List.append_assoc,
      List.singleton_append]

/-- **A run of calls** answers each call with the numbers of its names. -/
theorem Heard.run (h : a.Heard names) (calls : List Call) :
    (a.run calls).1 =
        calls.map (·.names.map fun name => .ofNat (numberIn (names ++ heard calls) name)) ∧
      (a.run calls).2.Heard (names ++ heard calls) := by
  induction calls generalizing a names with
  | nil => exact ⟨rfl, by simpa [heard, Alphabet.run] using h⟩
  | cons call calls ih =>
    obtain ⟨hsyms, hnext⟩ := h.internAll call.names
    rw [← Call.on_eq] at hsyms hnext
    obtain ⟨hmore, hlast⟩ := ih hnext
    have hheard : names ++ heard (call :: calls) = names ++ call.names ++ heard calls := by
      rw [heard, List.flatMap_cons, List.append_assoc, heard]
    rw [hheard]
    refine ⟨?_, hlast⟩
    show (call.on a).1 :: ((call.on a).2.run calls).1 = _
    rw [hsyms, hmore, List.map_cons]
    refine congrArg (· :: _) (List.map_congr_left fun name hname => ?_)
    rw [numberIn_append (List.mem_append_right _ hname)]

/-! ## Names and symbols -/

theorem Heard.size_eq (h : a.Heard names) : a.size = names.eraseDups.length := by
  rw [size, ← Array.length_toList, h.names_eq]

/-- With symbols enough, the number of a name is that of its symbol. -/
theorem index_ofNat_numberIn (hroom : names.eraseDups.length ≤ UInt32.size) (h : name ∈ names) :
    (Symbol.ofNat (numberIn names name)).index = numberIn names name :=
  Symbol.index_ofNat_of_lt (Nat.lt_of_lt_of_le
    (List.idxOf_lt_length_of_mem (List.mem_eraseDups.mpr h)) hroom)

/-- The name of the symbol found for a name is that name. -/
theorem Heard.name?_of_lookup (h : a.Heard names) (hroom : names.eraseDups.length ≤ UInt32.size)
    (hlookup : a.lookup name = some sym) : a.name? sym = some name := by
  rw [h.lookup_eq] at hlookup
  split at hlookup
  · rename_i hmem
    cases hlookup
    have hlt := List.idxOf_lt_length_of_mem (List.mem_eraseDups.mpr hmem)
    rw [name?, index_ofNat_numberIn hroom hmem, ← Array.getElem?_toList, h.names_eq, numberIn,
      List.getElem?_eq_getElem hlt, List.getElem_idxOf hlt]
  · cases hlookup

theorem lookupAll_cons (a : Alphabet) (token : String) (tokens : List String) :
    a.lookupAll (token :: tokens) =
      (a.lookup token).bind fun sym => (a.lookupAll tokens).map (sym :: ·) := by
  unfold lookupAll
  rw [List.mapM_cons]
  cases a.lookup token with
  | none => rfl
  | some sym => cases tokens.mapM a.lookup <;> rfl

/-- The symbols found for names are those that lead back to the names. -/
theorem Heard.lookupAll_eq_some_iff (hheard : a.Heard names) (h : a.Interned)
    (hroom : names.eraseDups.length ≤ UInt32.size) {tokens : List String} {ids : List Symbol} :
    a.lookupAll tokens = some ids ↔ ids.map a.name? = tokens.map some := by
  induction tokens generalizing ids with
  | nil =>
    rw [List.map_nil, List.map_eq_nil_iff]
    exact ⟨fun heq => by cases heq; rfl, fun heq => by rw [heq]; rfl⟩
  | cons token tokens ih =>
    rw [lookupAll_cons, Option.bind_eq_some_iff]
    refine ⟨?_, fun hids => ?_⟩
    · rintro ⟨sym, hsym, hrest⟩
      obtain ⟨rest, htokens, rfl⟩ := Option.map_eq_some_iff.mp hrest
      rw [List.map_cons, List.map_cons, hheard.name?_of_lookup hroom hsym, ih.mp htokens]
    · cases ids with
      | nil => cases hids
      | cons sym rest =>
        obtain ⟨hsym, hrest⟩ := List.cons.inj hids
        exact ⟨sym, h.lookup_of_name? hsym, Option.map_eq_some_iff.mpr ⟨rest, ih.mpr hrest, rfl⟩⟩

/-- Names have symbols all together if each of them was heard. -/
theorem Heard.isSome_lookupAll_iff (h : a.Heard names) {tokens : List String} :
    (a.lookupAll tokens).isSome = true ↔ ∀ token ∈ tokens, token ∈ names := by
  induction tokens with
  | nil => exact ⟨fun _ => by simp, fun _ => rfl⟩
  | cons token tokens ih =>
    rw [lookupAll_cons, h.lookup_eq, List.forall_mem_cons, ← ih]
    by_cases hmem : token ∈ names <;> simp [hmem]

theorem Interned.run (h : a.Interned) (calls : List Call) : (a.run calls).2.Interned := by
  induction calls generalizing a with
  | nil => exact h
  | cons call calls ih =>
    refine ih (a := (call.on a).2) ?_
    rw [Call.on_eq]
    exact h.internAll call.names

/-- **An alphabet numbers names one to one.** Any calls that mention no more different
names than there are symbols are answered with the numbers of the names by first
occurrence. Afterwards a name that was heard keeps its symbol and changes nothing, names
and symbols lead to each other, the symbols with a name are those below the size, and
names have symbols all together exactly if each of them was heard. -/
theorem run_bijective (calls : List Call)
    (hroom : (heard calls).eraseDups.length ≤ UInt32.size) :
    ∃ answers a, empty.run calls = (answers, a) ∧
      answers.map (·.map Symbol.index) =
        calls.map (·.names.map (heard calls).eraseDups.idxOf) ∧
      a.size = (heard calls).eraseDups.length ∧
      (∀ name ∈ heard calls, ∃ sym, sym.index = (heard calls).eraseDups.idxOf name ∧
        a.lookup name = some sym ∧ a.intern name = (sym, a)) ∧
      (∀ name sym, a.lookup name = some sym ↔ a.name? sym = some name) ∧
      (∀ sym, (a.contains sym = true ↔ (a.name? sym).isSome = true) ∧
        ((a.name? sym).isSome = true ↔ sym.index < a.size)) ∧
      ∀ tokens, ((a.lookupAll tokens).isSome = true ↔ ∀ token ∈ tokens, token ∈ heard calls) ∧
        ∀ ids, a.lookupAll tokens = some ids ↔ ids.map a.name? = tokens.map some := by
  obtain ⟨hanswers, hheard⟩ := heard_empty.run calls
  have hinterned := Interned.empty.run calls
  rw [List.nil_append] at hanswers hheard
  refine ⟨_, _, rfl, ?_, hheard.size_eq, fun name hname => ?_,
    fun name sym => ⟨hheard.name?_of_lookup hroom, hinterned.lookup_of_name?⟩, fun sym => ?_,
    fun tokens => ⟨hheard.isSome_lookupAll_iff, fun ids =>
      hheard.lookupAll_eq_some_iff hinterned hroom⟩⟩
  · rw [hanswers, List.map_map]
    refine List.map_congr_left fun call hcall => ?_
    rw [Function.comp_apply, List.map_map]
    refine List.map_congr_left fun name hname => ?_
    exact index_ofNat_numberIn hroom (List.mem_flatMap.mpr ⟨call, hcall, hname⟩)
  · obtain ⟨hsym, -, hsame⟩ := hheard.intern name
    rw [numberIn_append hname] at hsym
    exact ⟨_, index_ofNat_numberIn hroom hname, (hheard.lookup_eq name).trans (if_pos hname),
      Prod.ext hsym (hsame hname)⟩
  · exact ⟨decide_eq_true_iff.trans (isSome_name?_iff _ sym).symm, isSome_name?_iff _ sym⟩

/-- Three calls mention two names, both of them again in the end. -/
theorem run_bijective_repeated :
    ∃ answers a, empty.run [.internAll ["the", "dog"], .intern "dog", .intern "the"] =
        (answers, a) ∧
      answers.map (·.map Symbol.index) = [[0, 1], [1], [0]] ∧ a.size = 2 ∧
      a.name? (.ofNat 1) = some "dog" ∧
      a.lookupAll ["dog", "the"] = some [.ofNat 1, .ofNat 0] ∧
      a.lookupAll ["dog", "cat"] = none := by
  obtain ⟨answers, a, hrun, hnumbers, hsize, hknown, hnames, -, htokens⟩ :=
    run_bijective [.internAll ["the", "dog"], .intern "dog", .intern "the"] (by decide)
  have hname : ∀ name ∈ ["the", "dog"],
      a.name? (.ofNat (["the", "dog"].idxOf name)) = some name := by
    intro name hmem
    obtain ⟨sym, hindex, hlookup, -⟩ := hknown name (List.mem_append_left ["dog", "the"] hmem)
    rw [← (hnames name sym).mp hlookup, ← Symbol.ofNat_index sym, hindex]
    rfl
  have hthe : a.name? (.ofNat 0) = some "the" := hname "the" (by simp)
  have hdog : a.name? (.ofNat 1) = some "dog" := hname "dog" (by simp)
  refine ⟨answers, a, hrun, hnumbers, hsize, hdog, ((htokens _).2 _).mpr ?_, ?_⟩
  · rw [List.map_cons, List.map_cons, hdog, hthe]
    rfl
  · -- one of the two names was never mentioned
    rw [← Option.not_isSome_iff_eq_none, (htokens _).1]
    simp [heard, Call.names]

end ChartParsing.Alphabet
