import Es5.Eval.Description

/-!
# Functions of the object constructor and prototype

* `Eval.defineProperty`, `Eval.getOwnPropertyDescriptor`, `Eval.keys`: properties one by one.
* `Eval.makeSealed`, `Eval.makeFrozen`, `Eval.isSealed`, `Eval.isFrozen`: integrity of a whole
  object.
* `Eval.hasOwnProperty`, `Eval.tag`: the methods that every object inherits.
-/

namespace Es5.Eval

variable {κ σ : Type} (caller : Caller κ σ)

/-- Requires an object as the argument of a static function. -/
def argumentObject (function : String) (v : Value) : Eval κ σ Unit :=
  if v.isObject then pure () else fail (.staticOnPrimitive function)

/-! ## Properties -/

/-- Defines a property as an object describes it; a refusal throws. -/
def defineProperty (v key attributes : Value) : Eval κ σ Value := do
  argumentObject "Object.defineProperty" v
  let name ← toText caller key
  let d ← readDescriptor caller attributes
  let _ ← defineOwn caller v name d true
  pure v

/-- The complete descriptor of an own property. -/
def getOwnPropertyDescriptor (v key : Value) : Eval κ σ (Option Descriptor) := do
  argumentObject "Object.getOwnPropertyDescriptor" v
  let name ← toText caller key
  return (← look (·.own? v name)).map .ofProperty

/-- The enumerable own keys in order of creation. -/
def keys (v : Value) : Eval κ σ (List String) := do
  argumentObject "Object.keys" v
  look fun h => (h.ownKeys v).filter fun key => ((h.own? v key).map (·.enumerable)).getD false

/-! ## Integrity -/

/-- Forbids new properties and returns the object. -/
def preventExtensionsOf (v : Value) : Eval κ σ Value := do
  argumentObject "Object.preventExtensions" v
  preventExtensions v
  pure v

/-- Whether new properties may be added. -/
def isExtensible (v : Value) : Eval κ σ Bool := do
  argumentObject "Object.isExtensible" v
  look (·.isExtensible v)

/-- Applies to each key a descriptor that may depend on the property under it; a refusal throws. -/
def defineAll (v : Value) (describe : Option Property → Descriptor) : List String → Eval κ σ Unit
  | [] => pure ()
  | key :: rest => do
    let d := describe (← look (·.own? v key))
    let _ ← defineOwn caller v key d true
    defineAll v describe rest

/-- Asks that a property be not configurable. -/
def sealing (_ : Option Property) : Descriptor := { configurable := some false }

/-- Asks that a property be not configurable, and not writable if it is a data property. -/
def freezing (p : Option Property) : Descriptor :=
  { configurable := some false,
    writable := if (p.map (·.isData)).getD false then some false else none }

/-- Makes every own property permanent and forbids new ones. -/
def makeSealed (v : Value) : Eval κ σ Value := do
  argumentObject "Object.seal" v
  defineAll caller v sealing (← look (·.ownKeys v))
  preventExtensions v
  pure v

/-- Seals an object and makes its data properties read-only. -/
def makeFrozen (v : Value) : Eval κ σ Value := do
  argumentObject "Object.freeze" v
  defineAll caller v freezing (← look (·.ownKeys v))
  preventExtensions v
  pure v

/-- Whether every own property is permanent and no new one may be added. -/
def isSealed (v : Value) : Eval κ σ Bool := do
  argumentObject "Object.isSealed" v
  look fun h =>
    !((h.ownKeys v).any fun key => ((h.own? v key).map (·.configurable)).getD false) &&
      !h.isExtensible v

/-- Whether an object is sealed and its data properties are read-only. -/
def isFrozen (v : Value) : Eval κ σ Bool := do
  argumentObject "Object.isFrozen" v
  look fun h =>
    !((h.ownKeys v).any fun key =>
        ((h.own? v key).map fun p => p.writable || p.configurable).getD false) &&
      !h.isExtensible v

/-! ## Inherited methods -/

/-- Whether the object of a value has an own property. -/
def hasOwnProperty (v key : Value) : Eval κ σ Bool := do
  let name ← toText caller key
  let o ← toObject v
  return (← look (·.own? o name)).isSome

/-- The class of a value in brackets. -/
def tag (v : Value) : Eval κ σ String := do
  let name ← match v with
    | .undefined => pure "Undefined"
    | .null => pure "Null"
    | v =>
      let o ← toObject v
      look fun h => ((h.kind? o).map (·.name)).getD "Object"
  return "[object " ++ name ++ "]"

end Es5.Eval
