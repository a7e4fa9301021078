import Es5.Harness.Outcome

/-!
# Reports

What a harness reports while it works, in any monad that takes reports.

* `Event`: what is reported, with a level, a wording and fields.
* `Report`: monads that take reports.
* `runTestCase`: the outcome of a test case, which is run once between two reports.
-/

namespace Es5.Harness

/-- What is reported. -/
inductive Event where
  | enteredFixture (id : String)
  | resolvedInclude (name : String)
  | skippedInclude (name : String)
  | runningCase
  | casePassed
  | caseFailed (reason : String)
  deriving DecidableEq, Repr

namespace Event

/-- How an event is ranked. -/
def level : Event → String
  | enteredFixture _ => "SPAN"
  | skippedInclude _ | caseFailed _ => "WARN"
  | _ => "DEBUG"

/-- The wording of an event. -/
def message : Event → String
  | enteredFixture _ => "run_fixture"
  | resolvedInclude _ => "resolved include"
  | skippedInclude _ => "skipping unresolved include"
  | runningCase => "running test case"
  | casePassed => "test case passed"
  | caseFailed _ => "test case failed"

/-- What an event is about, by name. -/
def fields : Event → List (String × String)
  | enteredFixture id => [("fixture", id)]
  | resolvedInclude name | skippedInclude name => [("include", name)]
  | caseFailed reason => [("reason", reason)]
  | _ => []

end Event

/-- The report of an outcome. -/
def Outcome.event : Outcome → Event
  | .pass => .casePassed
  | .fail reason => .caseFailed reason

/-- A monad that takes reports. -/
class Report (m : Type → Type) where
  /-- Takes a report. -/
  report : Event → m Unit

export Report (report)

/-- Runs a test case once. -/
def runTestCase {m : Type → Type} [Monad m] [Report m] (testCase : m Completion) : m Outcome := do
  report .runningCase
  let outcome := Outcome.ofCompletion (← testCase)
  report outcome.event
  pure outcome

end Es5.Harness
