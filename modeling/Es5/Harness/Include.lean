/-!
# Includes

A fixture names the files that it needs. Each name is resolved to what provides it.

* `Include`: what provides a file.
* `Resolver`, `Resolver.native`: ways to resolve names.
-/

namespace Es5.Harness

/-- What provides a file. -/
inductive Include where
  /-- The runner of test cases itself. -/
  | caseRunner
  /-- The host, under the name given. -/
  | host (name : String)
  deriving DecidableEq, Repr

/-- The file that the runner of test cases stands for. -/
def caseRunnerName : String := "runTestCase.js"

/-- A way to resolve names. -/
abbrev Resolver := String → Option Include

/-- Resolves the runner's own name, and names that the host provides. -/
def Resolver.native (host : List String) : Resolver := fun name =>
  if name = caseRunnerName then some .caseRunner
  else if host.contains name then some (.host name)
  else none

/-- Names in order, each once. -/
def sortedNames (names : List String) : List String :=
  (names.mergeSort fun a b => a ≤ b).eraseDups

end Es5.Harness
