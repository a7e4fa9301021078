import Es5.Eval.Conversion

/-!
# Writing properties

Assignment, deletion and definition. One that is refused throws if `strict` is set, and otherwise
only reports the refusal.

* `Eval.defineOwn`: definition of an own property. The length of an array is computed from the
  value given before anything changes, and that may run user code.
* `Eval.putWith`, `Eval.put`: assignment, which may run a setter.
* `Eval.delete`, `Eval.preventExtensions`.
-/

namespace Es5.Eval

variable {κ σ : Type} (caller : Caller κ σ)

/-- Forbids new properties. -/
def preventExtensions (v : Value) : Eval κ σ Unit := do
  let r ← objectFor "[[PreventExtensions]]" v
  change fun h => ((), h.update r fun o => { o with extensible := false })

/-- Deletes an own property, and tells whether the key is gone. -/
def delete (v : Value) (key : String) (strict : Bool) : Eval κ σ Bool := do
  let r ← objectFor "[[Delete]]" v
  let gone ← change (·.delete r key)
  if !gone && strict then fail (.undeletable key) else pure gone

/--
The length that a value gives. The value is converted twice, once to a length and once to the
number that it has to equal.
-/
def lengthOf (v : Value) : Eval κ σ Nat := do
  let length ← toUint32 caller v
  let x ← toNumber caller v
  if (Double.ofNat length).equal x then pure length else fail .invalidLength

/-- Defines a property of an array. -/
def defineOnArray (r : Ref) (key : String) (d : Descriptor) : Eval κ σ Bool := do
  if key = "length" then
    match d.value with
    | none => change (·.define r key d)
    | some v =>
      let former ← look (·.arrayLength r)
      let length ← lengthOf caller v
      change (·.setLength r former length d)
  else match arrayIndex? key with
    | some index => change (·.defineElement r index key d)
    | none => change (·.define r key d)

/-- Defines an own property, and tells whether the definition was accepted. -/
def defineOwn (v : Value) (key : String) (d : Descriptor) (strict : Bool) : Eval κ σ Bool := do
  let r ← objectFor "[[DefineOwnProperty]]" v
  let accepted ←
    if (← look (·.kind? v)) = some .array then defineOnArray caller r key d
    else change (·.define r key d)
  if !accepted && strict then fail (.unredefinable key) else pure accepted

/-- Assigns to a key. -/
def putWith (v : Value) (key : String) (value : Value) (strict : Bool) : Eval κ σ Unit := do
  let _ ← objectFor "[[Put]]" v
  if ← look (·.canPut v key) then
    match ← look (·.own? v key), ← look (·.find? v key) with
    | some (.data ..), _ => let _ ← defineOwn caller v key { value := some value } strict
    | _, some (.accessor _ (some setter) _ _) => let _ ← call caller setter v [value]
    | _, _ =>
      let _ ← defineOwn caller v key
        { value := some value, writable := some true, enumerable := some true,
          configurable := some true } strict
  else if strict then fail (.readOnly key)

/-- Assigns to a key; a refusal is ignored. -/
def put (v : Value) (key : String) (value : Value) : Eval κ σ Unit :=
  putWith caller v key value false

end Es5.Eval
