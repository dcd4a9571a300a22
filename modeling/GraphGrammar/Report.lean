/-!
# Failures that say how they came about

An operation of this library that fails names a *cause*, a value of an
inductive type that a program can inspect, and a *trace*, the lines a person
reads: first what was being attempted last, then what that was part of, down
to the wording of the first cause.

The trace of a report is never consulted by the library itself. It grows at
the front: a note is put before everything older, and a cause that supersedes
another one puts its own wording before the trace of the cause it supersedes.
-/

namespace GraphGrammar

/-- A type of causes has a wording for each of them. -/
class Cause (ε : Type) where
  /-- The sentence a person reads. -/
  text : ε → String

/-- A cause of failure together with the lines that lead to it, outermost
first. -/
structure Report (ε : Type) where
  cause : ε
  trace : List String
deriving DecidableEq, Repr

namespace Report

variable {ε δ : Type}

/-- The report of a cause nothing is known about but its own wording. -/
def of [Cause ε] (cause : ε) : Report ε :=
  ⟨cause, [Cause.text cause]⟩

/-- Adds a line about what was being attempted. -/
def note (report : Report ε) (line : String) : Report ε :=
  { report with trace := line :: report.trace }

/-- Supersedes the cause by one of the operation that was under way, keeping
the older lines. -/
def supersede [Cause δ] (report : Report ε) (cause : δ) : Report δ :=
  ⟨cause, Cause.text cause :: report.trace⟩

@[simp] theorem cause_of [Cause ε] (cause : ε) : (of cause).cause = cause := rfl

/-- A note says more about a failure and leaves its cause alone, so a statement about causes is
not disturbed by the notes that are added on the way out. -/
@[simp] theorem cause_note (report : Report ε) (line : String) :
    (report.note line).cause = report.cause := rfl

/-- The cause that is superseded is kept in the trace only, where a person finds it. -/
@[simp] theorem cause_supersede [Cause δ] (report : Report ε) (cause : δ) :
    (report.supersede cause).cause = cause := rfl

end Report

/-- What an operation that can fail returns. -/
abbrev Outcome (ε α : Type) : Type := Except (Report ε) α

namespace Outcome

variable {ε δ α : Type}

/-- Fails with a cause. -/
def fail [Cause ε] (cause : ε) : Outcome ε α := .error (.of cause)

/-- Adds a line to the report of a failure. -/
def note (outcome : Outcome ε α) (line : String) : Outcome ε α :=
  outcome.mapError (·.note line)

/-- Supersedes the cause of a failure. -/
def supersede [Cause δ] (outcome : Outcome ε α) (cause : δ) : Outcome δ α :=
  outcome.mapError (·.supersede cause)

@[simp] theorem note_ok (a : α) (line : String) :
    note (.ok a : Outcome ε α) line = .ok a := rfl

@[simp] theorem note_error (report : Report ε) (line : String) :
    note (.error report : Outcome ε α) line = .error (report.note line) := rfl

@[simp] theorem supersede_ok [Cause δ] (a : α) (cause : δ) :
    supersede (.ok a : Outcome ε α) cause = .ok a := rfl

@[simp] theorem supersede_error [Cause δ] (report : Report ε) (cause : δ) :
    supersede (.error report : Outcome ε α) cause = .error (report.supersede cause) := rfl

end Outcome

end GraphGrammar
