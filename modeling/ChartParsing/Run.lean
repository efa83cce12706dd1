import ChartParsing.Cell
import ChartParsing.LogLine

/-!
# Runs

Filling a chart does more than return a chart. It draws jitter from a source
that other charts share, asks scorers and constraints in a certain order, and
writes log lines. A `Run` holds the source and everything that has happened so
far, and `Effect` is a computation that passes the run along. A fault ends the
computation but not the run: what was drawn stays drawn.
-/

namespace ChartParsing

/-- Something that happened while a chart was filled or read. -/
inductive Event (S : Type) where
  /-- A scorer was asked for the score of a rule at a place. -/
  | scored (rule : RuleId) (start mid stop : Nat)
  /-- A constraint was told the next sentence. -/
  | announced (sentence : List Symbol)
  /-- A constraint was asked about an offer, and answered. -/
  | consulted (start stop mid : Nat) (rule : RuleId) (score : S) (accepted : Bool)
  /-- A line was logged. -/
  | logged (line : LogLine)

/-- A source of jitter, and what has happened so far. -/
structure Run (J S : Type) where
  source : J
  events : Array (Event S)

/-- A run in which nothing has happened yet. -/
def Run.start {J S : Type} (source : J) : Run J S := ⟨source, #[]⟩

/-- A computation that may add to a run, and may stop at a fault. -/
abbrev Effect (J S : Type) := ExceptT Fault (StateM (Run J S))

namespace Effect

variable {J S : Type}

/-- Adds an event to the run. -/
def emit (event : Event S) : Effect J S Unit :=
  modify fun run => { run with events := run.events.push event }

/-- Adds a log line to the run. -/
def log (level : LogLevel) (text : String) : Effect J S Unit := emit (.logged ⟨level, text⟩)

/-- Takes an offer into a cell, with the source of the run. -/
def offer [Score S] [JitterSource J] (cell : Cell S) (o : Offer S) : Effect J S (Cell S) := do
  let run ← get
  let (cell, source) ← (cell.offer o run.source : Except Fault (Cell S × J))
  set { run with source }
  return cell

end Effect

end ChartParsing
