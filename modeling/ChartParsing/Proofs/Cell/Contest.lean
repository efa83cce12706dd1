import ChartParsing.Proofs.Cell.Serving

/-!
# Contests

A cell with ties seats one incumbent per symbol. Every turn of the symbol challenges it:
a clearly better offer takes the seat, one that ties takes it if its draw is larger, any
other one leaves it. `Turn.challenge` says who holds the seat afterwards and what is left
of the source, and `contested` goes through the turns of one symbol.

What a cell holds of a symbol is then decided by the turns of that symbol alone. Others
matter only as users of the source: at each turn it may be anything.
-/

namespace ChartParsing

variable {S J : Type} [Score S] [JitterSource J]

/-- The source after so many draws. -/
def JitterSource.skip : Nat → J → J
  | 0, source => source
  | n + 1, source => skip n (draw source).2

namespace Turn

/-- Who holds the seat after a turn, and the source it leaves. -/
def challenge (turn : Turn S J) : Option (Incumbent S) → Incumbent S × J :=
  turn.toOffer.challenge turn.source

/-- How many draws a turn makes. -/
def drawCount (turn : Turn S J) : Option (Incumbent S) → Nat
  | none => 0
  | some i =>
    if Score.clearlyExceeds turn.score i.entry.score then 0
    else if Score.ties turn.score i.entry.score then
      match i.jitter with
      | some _ => 1
      | none => 2
    else 0

variable {turn : Turn S J} {i : Incumbent S}

theorem challenge_of_clearlyExceeds
    (h : Score.clearlyExceeds turn.score i.entry.score = true) :
    turn.challenge (some i) = (⟨turn.entry .viterbi, none⟩, turn.source) := by
  simp [challenge, Offer.challenge, h]

theorem challenge_of_ties (hclear : Score.clearlyExceeds turn.score i.entry.score = false)
    (hties : Score.ties turn.score i.entry.score = true) :
    turn.challenge (some i) =
      (if (i.contest turn.source).1 < (JitterSource.draw (i.contest turn.source).2).1 then
          ⟨turn.entry .viterbi, some (JitterSource.draw (i.contest turn.source).2).1⟩
        else ⟨i.entry, some (i.contest turn.source).1⟩,
        (JitterSource.draw (i.contest turn.source).2).2) := by
  simp [challenge, Offer.challenge, hclear, hties]

theorem challenge_of_not_ties (hclear : Score.clearlyExceeds turn.score i.entry.score = false)
    (hties : Score.ties turn.score i.entry.score = false) :
    turn.challenge (some i) = (i, turn.source) := by
  simp [challenge, Offer.challenge, hclear, hties]

/-- A turn leaves the source after its draws. -/
theorem challenge_source (turn : Turn S J) (i? : Option (Incumbent S)) :
    (turn.challenge i?).2 = JitterSource.skip (turn.drawCount i?) turn.source := by
  cases i? with
  | none => rfl
  | some i =>
    cases hclear : Score.clearlyExceeds turn.score i.entry.score with
    | true =>
      rw [challenge_of_clearlyExceeds hclear, drawCount, if_pos hclear]
      rfl
    | false =>
      cases hties : Score.ties turn.score i.entry.score with
      | true =>
        rw [challenge_of_ties hclear hties, drawCount, Incumbent.contest]
        simp only [hclear, hties, Bool.false_eq_true, if_false, if_true, JitterSource.drawOnce]
        cases i.jitter with
        | some draw => rfl
        | none => rfl
      | false =>
        rw [challenge_of_not_ties hclear hties, drawCount]
        simp only [hclear, hties, Bool.false_eq_true, if_false]
        rfl

omit [JitterSource J] in
/-- Only ties are decided by draws. -/
theorem drawCount_of_not_ties {i? : Option (Incumbent S)}
    (h : ∀ i, i? = some i → Score.ties turn.score i.entry.score = false) :
    turn.drawCount i? = 0 := by
  cases i? with
  | none => rfl
  | some i =>
    rw [drawCount, if_neg (Bool.eq_false_iff.mp (h i rfl))]
    split
    · rfl
    · rfl

/-- Whoever holds the seat afterwards is the challenger, or has the entry that was
there. -/
theorem challenge_entry (turn : Turn S J) (i : Incumbent S) :
    (turn.challenge (some i)).1.entry = turn.entry .viterbi ∨
      (turn.challenge (some i)).1.entry = i.entry :=
  turn.toOffer.challenge_entry turn.source i

end Turn

/-- Who holds the seat of a symbol after its turns. -/
def contested (turns : List (Turn S J)) : Option (Incumbent S) :=
  turns.foldl (fun i? turn => some (turn.challenge i?).1) none

theorem contested_concat (turns : List (Turn S J)) (turn : Turn S J) :
    contested (turns ++ [turn]) = some (turn.challenge (contested turns)).1 := by
  unfold contested
  rw [List.foldl_append]
  rfl

theorem contested_eq_none_iff {turns : List (Turn S J)} : contested turns = none ↔ turns = [] := by
  induction turns using List.reverseRecOn with
  | nil => exact ⟨fun _ => rfl, fun _ => rfl⟩
  | append_singleton turns turn _ => simp [contested_concat]

/-! ## Cells with ties -/

namespace Cell

/-- The incumbent of a symbol, if ties are broken. -/
def incumbent? (c : Cell S) (sym : Symbol) : Option (Incumbent S) :=
  match c.store with
  | .tieBreaking store => store.incumbent? sym
  | _ => none

variable {size : Nat} {turns : List (Turn S J)} {history : History S J} {c c' : Cell S}

/-- What a cell with ties takes, its store takes. -/
theorem Took.store_eq (h : c.Took J .tieBreaking .viterbi size turns) :
    ∃ store, c.store = .tieBreaking store := by
  have hties := h.after.breaksTies_iff.mpr rfl
  cases hs : c.store with
  | tieBreaking store => exact ⟨store, rfl⟩
  | full store | hashed store | doubleHashed store =>
    rw [hs] at hties
    exact hties.elim

theorem Took.tidy (h : c.Took J .tieBreaking .viterbi size turns) {store : TieStore S}
    (hstore : c.store = .tieBreaking store) : store.Tidy := by
  have htidy := h.after.shape.2.2.1
  rw [hstore] at htidy
  exact htidy

/-- **One turn**: there is a new incumbent of its symbol, and of no other. -/
theorem Took.challenge {turn : Turn S J} {source : J}
    (h : c.Took J .tieBreaking .viterbi size turns)
    (hoffer : c.offer turn.toOffer turn.source = .ok (c', source)) :
    source = (turn.challenge (c.incumbent? turn.rule.parent)).2 ∧
      ∀ sym, c'.incumbent? sym =
        if turn.rule.parent = sym then some (turn.challenge (c.incumbent? sym)).1
        else c.incumbent? sym := by
  obtain ⟨store, hstore⟩ := h.store_eq
  obtain ⟨store', hstore'⟩ := (h.offer hoffer).store_eq
  obtain ⟨-, -, -, htaken⟩ := offer_ok hoffer
  rw [hstore, hstore'] at htaken
  obtain ⟨⟨t, source₁⟩, hput, hpure⟩ := bind_eq_ok htaken
  cases hpure
  simp only [incumbent?, hstore, hstore']
  obtain ⟨-, -, hsource, hseat⟩ := (h.tidy hstore).offer_ok hput
  exact ⟨hsource, hseat⟩

/-- **The incumbent of a symbol is decided by its turns.** -/
theorem Took.incumbent?_eq (h : c.Took J .tieBreaking .viterbi size turns) (sym : Symbol) :
    c.incumbent? sym = contested (turns.filter fun turn => turn.rule.parent = sym) := by
  induction h with
  | empty =>
    show (TieStore.empty size).incumbent? sym = none
    rw [TieStore.incumbent?, TieStore.find?_empty, Option.map_none]
  | @offer turns c c' turn source htook hoffer ih =>
    rw [(htook.challenge hoffer).2 sym, List.filter_append]
    by_cases hp : turn.rule.parent = sym
    · rw [if_pos hp, List.filter_cons_of_pos (by simpa using hp), List.filter_nil, contested_concat,
        ih]
    · rw [if_neg hp, List.filter_cons_of_neg (by simpa using hp), List.filter_nil, List.append_nil,
        ih]

/-- What a cell answers about a symbol is read off its incumbent. -/
theorem Has.find?_contested (h : c.Has J .tieBreaking .viterbi size history) (sym : Symbol) :
    c.find? sym = (contested (history.turnsOf sym)).map (·.entry) ∧
      c.jitter? sym = (contested (history.turnsOf sym)).bind (·.jitter) := by
  obtain ⟨used, htook, hc⟩ := h
  obtain ⟨store, hstore⟩ := htook.store_eq
  rw [History.turnsOf, ← htook.incumbent?_eq sym]
  have hused : c.store = .tieBreaking store := by
    rw [← hstore, hc]
    cases history.closed <;> rfl
  simp only [find?, jitter?, incumbent?, hused, hstore]
  exact ⟨store.find?_eq sym, (htook.tidy hstore).jitter?_eq sym⟩

/-- **What a turn draws** is decided by the turns of its symbol before it. -/
theorem Has.source_eq {turn : Turn S J} {source : J}
    (h : c.Has J .tieBreaking .viterbi size history)
    (hoffer : c.offer turn.toOffer turn.source = .ok (c', source)) :
    source = JitterSource.skip
      (turn.drawCount (contested (history.turnsOf turn.rule.parent))) turn.source := by
  have htook := h.took (h.isClosed_eq.symm.trans (offer_ok hoffer).1)
  rw [(htook.challenge hoffer).1, Turn.challenge_source, htook.incumbent?_eq]
  rfl

end Cell

end ChartParsing
