import Es5.Number.Double

/-!
# Values

The values of the script language. An object is named by its place in a heap, so two objects are
the same exactly if their places are.

* `Value`: undefined, null, booleans, numbers, strings and objects.
* `Value.strictEquals`, `Value.same`: the two comparisons of values.
* `Value.toBoolean`: which values count as true.
-/

namespace Es5

/-- The place of an object in a heap. -/
abbrev Ref := Nat

/-- A value of the script language. -/
inductive Value where
  | undefined
  | null
  | boolean (b : Bool)
  | number (x : Double)
  | string (s : String)
  | object (r : Ref)
  deriving DecidableEq

namespace Value

instance : Inhabited Value := ⟨undefined⟩

/-- Whether this is an object. -/
def isObject : Value → Bool
  | object _ => true
  | _ => false

/-- Strict equality: numbers compare by amount, objects by identity, and kinds do not mix. -/
def strictEquals : Value → Value → Bool
  | number x, number y => x.equal y
  | v, w => v == w

/-- Identity of values: unlike strict equality, not-a-number is itself and the zeros differ. -/
def same (v w : Value) : Bool := v == w

/-- Whether a value counts as true. -/
def toBoolean : Value → Bool
  | undefined => false
  | null => false
  | boolean b => b
  | number x => !x.isNaN && !x.isZero
  | string s => s != ""
  | object _ => true

/-- The type name of a value, given whether it can be called. -/
def typeName (callable : Bool) : Value → String
  | undefined => "undefined"
  | null => "object"
  | boolean _ => "boolean"
  | number _ => "number"
  | string _ => "string"
  | object _ => if callable then "function" else "object"

theorem same_iff {v w : Value} : v.same w = true ↔ v = w := by simp [same]

end Value

end Es5
