import Es5.Program

/-!
# Steps of programs

A step is a part of a program that gives a value to what follows it. Steps form a monad, so that
user code can be written in sequence.

* `Step`: a part of a program.
* `Step.perform`, `Step.caught`: an operation, whose error ends the program or is handed on.
* `Step.toProgram`: the program of a step that gives a value.
-/

namespace Es5

/-- A part of a program that gives an `α` to what follows. -/
def Step (σ α : Type) : Type := (α → Program σ) → Program σ

namespace Step

variable {σ α : Type}

instance : Monad (Step σ) where
  pure a := fun next => next a
  bind m f := fun next => m fun a => f a next

/-- Performs an operation; an error ends the program. -/
def perform (op : Operation) : Step σ op.Answer := fun next =>
  .perform op fun
    | .ok a => next a
    | .error e => .fail e

/-- Performs an operation and hands on the error it may throw. -/
def caught (op : Operation) : Step σ (Except ScriptError op.Answer) := fun next => .perform op next

/-- Makes a function. -/
def function (proto : Option Value) (body : Value → List Value → Program σ) : Step σ Value :=
  fun next => .function proto body next

/-- Makes an object of any shape. -/
def build (shape : ObjectRecord Unit) (body : Value → List Value → Program σ) : Step σ Value :=
  fun next => .build shape body next

/-- Runs a program to its completion. -/
def attempt (body : Program σ) : Step σ Completion := fun next => .attempt body next

/-- The state of the host. -/
def ask : Step σ σ := fun next => .ask next

/-- Changes the state of the host, and gives a value computed from it. -/
def update (f : σ → α × σ) : Step σ α := fun next =>
  .ask fun s => .tell (f s).2 (next (f s).1)

/-- Ends the program with an error. -/
def fail (e : ScriptError) : Step σ α := fun _ => .fail e

/-- Crashes the program. -/
def crash (c : Crash) : Step σ α := fun _ => .crash c

/-- The program of a step. -/
def toProgram (m : Step σ Value) : Program σ := m .done

end Step

end Es5
