import Es5.Eval

/-!
# Reading properties

Properties are found on an object or up its prototypes. A getter runs with the object that was
asked as its receiver, wherever it was found.

* `Eval.get`: the value under a key.
* `Eval.invoke`: a call of the function under a key.
-/

namespace Es5.Eval

variable {κ σ : Type} (caller : Caller κ σ)

/-- The value under a key, or what its getter returns; undefined if there is neither. -/
def get (v : Value) (key : String) : Eval κ σ Value := do
  let _ ← objectFor "[[Get]]" v
  match ← look (·.find? v key) with
  | some (.data value _ _ _) => pure value
  | some (.accessor (some getter) _ _ _) => call caller getter v []
  | _ => pure .undefined

/-- Calls the function under a name with the object as its receiver. -/
def invoke (v : Value) (name : String) (args : List Value) : Eval κ σ Value := do
  let method ← get caller v name
  if ← look (·.isCallable method) then call caller method v args else fail (.notMethod name)

end Es5.Eval
