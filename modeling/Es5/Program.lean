import Es5.Realm

/-!
# Programs

User code is a program: a tree of operations, each with a way to go on for every result. Functions
made by programs run programs. A program may also consult and change the state `σ` of its host.

* `Operation`: the operations on values and objects, and `Operation.Answer`, what each gives.
* `Program`: user code, and `Behaviour`, what a function does.
* `Operation.run`, `Program.run`: evaluation, given the way to run a behaviour.
* `runBehaviour`: that way itself, for calls nested up to a depth.
-/

namespace Es5

/-- The operations of the language. The last four are direct edits, which no script can make. -/
inductive Operation where
  | get (v : Value) (key : String)
  | put (v : Value) (key : String) (value : Value) (strict : Bool)
  | delete (v : Value) (key : String) (strict : Bool)
  | define (v : Value) (key : String) (d : Descriptor) (strict : Bool)
  | hasProperty (v : Value) (key : String)
  | canPut (v : Value) (key : String)
  | getOwnProperty (v : Value) (key : String)
  | getProperty (v : Value) (key : String)
  | preventExtensions (v : Value)
  | call (f this : Value) (args : List Value)
  | invoke (v : Value) (name : String) (args : List Value)
  | toPrimitive (v : Value) (hint : Hint)
  | toNumber (v : Value)
  | toInteger (v : Value)
  | toUint32 (v : Value)
  | toText (v : Value)
  | toObject (v : Value)
  | tag (v : Value)
  | hasOwnProperty (v key : Value)
  | indexOf (v search : Value) (fromIndex : Option Value)
  | lastIndexOf (v search : Value) (fromIndex : Option Value)
  | readDescriptor (v : Value)
  | defineProperty (v key attributes : Value)
  | getOwnPropertyDescriptor (v key : Value)
  | keys (v : Value)
  | preventExtensionsOf (v : Value)
  | isExtensible (v : Value)
  | makeSealed (v : Value)
  | isSealed (v : Value)
  | makeFrozen (v : Value)
  | isFrozen (v : Value)
  | newRealm
  | newObject (proto : Option Value)
  | newArray (values : List Value) (proto : Option Value)
  | outline (v : Value)
  | store (v : Value) (key : String) (p : Property)
  | unstore (v : Value) (key : String)
  | setPrototype (v : Value) (proto : Option Value)

namespace Operation

/-- What an operation gives when it does not throw. -/
abbrev Answer : Operation → Type
  | put .. | preventExtensions _ | store .. | setPrototype .. => Unit
  | delete .. | define .. | hasProperty .. | canPut .. | hasOwnProperty .. => Bool
  | isExtensible _ | isSealed _ | isFrozen _ => Bool
  | getOwnProperty .. | getProperty .. | unstore .. => Option Property
  | toNumber _ | toInteger _ => Double
  | toUint32 _ => Nat
  | toText _ | tag _ => String
  | indexOf .. | lastIndexOf .. => Int
  | readDescriptor _ => Descriptor
  | getOwnPropertyDescriptor .. => Option Descriptor
  | keys _ => List String
  | newRealm => Realm
  | outline _ => Option (ObjectRecord Unit)
  | _ => Value

variable {κ σ : Type}

/-- What an operation does. -/
def run (behaviour : Intrinsic → κ) (caller : Caller κ σ) : (op : Operation) → Eval κ σ op.Answer
  | get v key => Eval.get caller v key
  | put v key value strict => Eval.putWith caller v key value strict
  | delete v key strict => Eval.delete v key strict
  | define v key d strict => Eval.defineOwn caller v key d strict
  | hasProperty v key => Eval.look (·.hasProperty v key)
  | canPut v key => Eval.look (·.canPut v key)
  | getOwnProperty v key => Eval.look (·.own? v key)
  | getProperty v key => Eval.look (·.find? v key)
  | preventExtensions v => Eval.preventExtensions v
  | call f this args => Eval.call caller f this args
  | invoke v name args => Eval.invoke caller v name args
  | toPrimitive v hint => Eval.toPrimitive caller v hint
  | toNumber v => Eval.toNumber caller v
  | toInteger v => Eval.toInteger caller v
  | toUint32 v => Eval.toUint32 caller v
  | toText v => Eval.toText caller v
  | toObject v => Eval.toObject v
  | tag v => Eval.tag v
  | hasOwnProperty v key => Eval.hasOwnProperty caller v key
  | indexOf v search fromIndex => Eval.indexOf caller v search fromIndex
  | lastIndexOf v search fromIndex => Eval.lastIndexOf caller v search fromIndex
  | readDescriptor v => Eval.readDescriptor caller v
  | defineProperty v key attributes => Eval.defineProperty caller v key attributes
  | getOwnPropertyDescriptor v key => Eval.getOwnPropertyDescriptor caller v key
  | keys v => Eval.keys v
  | preventExtensionsOf v => Eval.preventExtensionsOf v
  | isExtensible v => Eval.isExtensible v
  | makeSealed v => Eval.makeSealed caller v
  | isSealed v => Eval.isSealed v
  | makeFrozen v => Eval.makeFrozen caller v
  | isFrozen v => Eval.isFrozen v
  | newRealm => Eval.newRealm behaviour
  | newObject proto => Eval.newObject proto
  | newArray values proto => Eval.newArray values proto
  | outline v => Eval.look fun h => (h.record? v).map (·.outline)
  | store v key p => Eval.store v key p
  | unstore v key => Eval.unstore v key
  | setPrototype v proto => Eval.setPrototype v proto

end Operation

/-! ## Programs -/

/-- How user code ends, as one who runs it sees it. -/
inductive Completion where
  | returned (v : Value)
  | threw (e : ScriptError)
  | crashed (c : Crash)
  deriving DecidableEq

/-- User code. -/
inductive Program (σ : Type) where
  /-- Ends with a value. -/
  | done (v : Value)
  /-- Ends with an error. -/
  | fail (e : ScriptError)
  /-- Crashes. -/
  | crash (c : Crash)
  /-- Performs an operation, and goes on with its answer or with the error it threw. -/
  | perform (op : Operation) (next : Except ScriptError op.Answer → Program σ)
  /-- Makes a function that runs `body` on its receiver and arguments. -/
  | function (proto : Option Value) (body : Value → List Value → Program σ)
      (next : Value → Program σ)
  /-- Makes an object of any shape, which runs `body` if it is callable. -/
  | build (shape : ObjectRecord Unit) (body : Value → List Value → Program σ)
      (next : Value → Program σ)
  /-- Runs a program to its completion, whatever that is. -/
  | attempt (body : Program σ) (next : Completion → Program σ)
  /-- Consults the host. -/
  | ask (next : σ → Program σ)
  /-- Changes the host. -/
  | tell (s : σ) (next : Program σ)

/-- What a function does: something provided, or a program. -/
inductive Behaviour (σ : Type) where
  | provided (i : Intrinsic)
  | user (body : Value → List Value → Program σ)

/-! ## Evaluation -/

/-- The evaluation of user code. -/
abbrev Run (σ : Type) := Eval (Behaviour σ) σ

namespace Run

variable {σ α : Type}

/-- The outcome of an action as a value, unless calls were nested too deeply. -/
def completion (m : Run σ Value) : Run σ Completion := fun w =>
  match m w with
  | .ok v w => .ok (.returned v) w
  | .error (.threw e) w => .ok (.threw e) w
  | .error (.crashed c) w => .ok (.crashed c) w
  | .error .exhausted w => .error .exhausted w

/-- The answer of an action or the error it threw. -/
def caught (m : Run σ α) : Run σ (Except ScriptError α) := fun w =>
  match m w with
  | .ok a w => .ok (.ok a) w
  | .error (.threw e) w => .ok (.error e) w
  | .error (.crashed c) w => .error (.crashed c) w
  | .error .exhausted w => .error .exhausted w

end Run

namespace Program

variable {σ : Type}

/-- Runs a program, given how functions are run. -/
def run (caller : Caller (Behaviour σ) σ) : Program σ → Run σ Value
  | done v => pure v
  | fail e => throw (.threw e)
  | crash c => throw (.crashed c)
  | perform op next => do
    let a ← Run.caught (op.run .provided caller)
    run caller (next a)
  | function proto body next => do
    let f ← Eval.newFunction (.user body) proto
    run caller (next f)
  | build shape body next => do
    let v ← Eval.alloc { shape with call := shape.call.map fun _ => .user body }
    run caller (next v)
  | attempt body next => do
    let c ← Run.completion (run caller body)
    run caller (next c)
  | ask next => do run caller (next (← get).host)
  | tell s next => do
    modify fun w => { w with host := s }
    run caller next

end Program

/-- Runs a behaviour in which calls are nested at most `depth` deep. -/
def runBehaviour {σ : Type} : Nat → Caller (Behaviour σ) σ
  | 0 => fun _ _ _ => throw .exhausted
  | depth + 1 => fun b this args =>
    match b with
    | .provided i => i.run (runBehaviour depth) this args
    | .user body => (body this args).run (runBehaviour depth)

end Es5
