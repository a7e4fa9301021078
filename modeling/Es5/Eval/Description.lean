import Es5.Eval.Write

/-!
# Descriptors as objects

A descriptor is read from the properties of an object, which may run its getters, and written as a
new object.

* `Eval.readDescriptor`: the descriptor that an object spells.
* `Eval.writeDescriptor`: a new object that spells a descriptor.
-/

namespace Es5.Eval

variable {κ σ : Type} (caller : Caller κ σ)

/-- The value under a key, if the object has the key, own or inherited. -/
def field? (v : Value) (key : String) : Eval κ σ (Option Value) := do
  if ← look (·.hasProperty v key) then return some (← get caller v key) else return none

/-- A getter or setter: a function or undefined, if it is there at all. -/
def accessorField? (v : Value) (key : String) : Eval κ σ (Option Value) := do
  match ← field? caller v key with
  | none => pure none
  | some f =>
    if f = .undefined || (← look (·.isCallable f)) then pure (some f) else fail (.badAccessor key)

/-- Reads a descriptor from an object, field by field in a fixed order. -/
def readDescriptor (v : Value) : Eval κ σ Descriptor := do
  if !v.isObject then fail .notDescriptor
  else
    let enumerable ← field? caller v "enumerable"
    let configurable ← field? caller v "configurable"
    let value ← field? caller v "value"
    let writable ← field? caller v "writable"
    let get ← accessorField? caller v "get"
    let set ← accessorField? caller v "set"
    let d : Descriptor :=
      { value, get, set, writable := writable.map (·.toBoolean),
        enumerable := enumerable.map (·.toBoolean), configurable := configurable.map (·.toBoolean) }
    if d.isData && d.isAccessor then fail .mixedDescriptor else pure d

/-- A new object with a property for each field of a descriptor, made by assignment. -/
def writeDescriptor (proto : Value) (d : Descriptor) : Eval κ σ Value := do
  let v ← alloc { kind := .object, prototype := some proto }
  for (key, value) in d.fields do
    put caller v key value
  pure v

end Es5.Eval
