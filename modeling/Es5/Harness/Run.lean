import Es5.Fixture.Source
import Es5.Harness.Config
import Es5.Harness.Include
import Es5.Harness.Report

/-!
# Running fixtures

The names that a fixture declares are resolved in order, and then its test case runs once. With
strict settings the first name that is not resolved ends the run before the test case.

* `Harness`: a resolver and settings.
* `HarnessError`: why a fixture cannot be loaded or run.
* `loadFixture`: a source with its test case.
* `Harness.prepare`, `Harness.run`: resolving the names of a fixture, and running it.
-/

namespace Es5

open Fixture (FixtureError Metadata MetadataReader Source)

/-- What runs fixtures. -/
structure Harness where
  resolver : Harness.Resolver := .native []
  config : Harness.Config := {}

namespace Harness

/-- Why a fixture cannot be loaded or run. -/
inductive HarnessError where
  | malformedFixture (path : String) (cause : FixtureError)
  | unresolvedInclude (fixture name : String)
  deriving DecidableEq, Repr

/-- The wording of an error. -/
def HarnessError.text : HarnessError → String
  | malformedFixture path cause => "malformed fixture " ++ path ++ ": " ++ cause.text
  | unresolvedInclude fixture name =>
    "fixture " ++ fixture ++ " includes " ++ name ++ ", which cannot be resolved"

/-- Reads the source of a fixture, which is kept with its test case. -/
def loadFixture {τ : Type} (path source : String) (testCase : τ)
    (reader : MetadataReader := Metadata.ofYaml) : Except HarnessError (Source × τ) :=
  match Source.read path source.toList reader with
  | .ok s => .ok (s, testCase)
  | .error cause => .error (.malformedFixture path cause)

/-- What provides a name: the resolver, or else the settings. -/
def resolve (h : Harness) (name : String) : Option Include :=
  h.resolver name <|> if h.config.extraIncludes.contains name then some (.host name) else none

section Run

variable {m : Type → Type} [Monad m] [Report m]

/-- Resolves names in order for the fixture `id`. -/
def resolveAll (h : Harness) (id : String) : List String → m (Except HarnessError (List Include))
  | [] => pure (.ok [])
  | name :: rest => do
    match h.resolve name with
    | some i =>
      report (.resolvedInclude name)
      return (← resolveAll h id rest).map (i :: ·)
    | none =>
      if h.config.strictIncludes then pure (.error (.unresolvedInclude id name))
      else
        report (.skippedInclude name)
        resolveAll h id rest

/-- Resolves the names that a fixture declares. -/
def prepare (h : Harness) (s : Source) : m (Except HarnessError (List Include)) :=
  resolveAll h s.id s.metadata.includes

/-- Resolves the names that a fixture declares and runs its test case. -/
def run (h : Harness) (s : Source) (testCase : m Completion) :
    m (Except HarnessError Outcome) := do
  report (.enteredFixture s.id)
  match ← prepare h s with
  | .error e => pure (.error e)
  | .ok _ => return .ok (← runTestCase testCase)

end Run

end Harness

end Es5
