import Es5.Object.Heap
import Es5.ScriptError

/-!
# Evaluation

An operation acts on a heap and on the state `σ` of the host, and ends with a result or abruptly.
Operations take the way to run a function as an argument, so each of them is a law about every
behaviour that functions may have.

* `World`: a heap and the state of the host.
* `Abrupt`: an error thrown, a crash of user code, or calls nested too deeply.
* `Eval`: actions on a world; the world reached is kept when they end abruptly.
* `Caller`: the way to run a behaviour of type `κ`.
-/

namespace Es5

/-- How user code crashes: with a message, or with something that has no text. -/
inductive Crash where
  | message (text : String)
  | other
  deriving DecidableEq, Repr

/-- Ways to end without a result. -/
inductive Abrupt where
  | threw (e : ScriptError)
  | crashed (c : Crash)
  | exhausted
  deriving DecidableEq, Repr

/-- A heap and the state of the host. -/
structure World (κ σ : Type) where
  heap : Heap κ
  host : σ

/-- Actions on a world. -/
abbrev Eval (κ σ : Type) := EStateM Abrupt (World κ σ)

/-- Runs a behaviour on a receiver and arguments. -/
abbrev Caller (κ σ : Type) := κ → Value → List Value → Eval κ σ Value

namespace Eval

variable {κ σ α : Type}

/-- Ends with an error. -/
def fail (e : ScriptError) : Eval κ σ α := throw (.threw e)

/-- Reads from the heap. -/
def look (f : Heap κ → α) : Eval κ σ α := fun w => .ok (f w.heap) w

/-- Changes the heap. -/
def change (f : Heap κ → α × Heap κ) : Eval κ σ α := fun w =>
  .ok (f w.heap).1 { w with heap := (f w.heap).2 }

/-- Adds an object. -/
def alloc (o : ObjectRecord κ) : Eval κ σ Value := change (·.alloc o)

/-- Calls a function. -/
def call (caller : Caller κ σ) (f this : Value) (args : List Value) : Eval κ σ Value := do
  match ← look fun h => (h.record? f).bind (·.call) with
  | some behaviour => caller behaviour this args
  | none => fail (.notCallable (← look (·.typeName f)))

/-- The place of an object; `method` is what it is wanted for. -/
def objectFor (method : String) (v : Value) : Eval κ σ Ref := do
  match v with
  | .object r => pure r
  | v => fail (.notObject method (← look (·.typeName v)))

end Eval

end Es5
