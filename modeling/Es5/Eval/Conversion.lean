import Es5.Eval.Read
import Es5.Number.Format
import Es5.Number.Numeral
import Es5.Text.Utf16

/-!
# Conversions

Plain values convert by fixed rules. An object is first turned into a plain value by its own
`valueOf` and `toString`, which may run user code, and then converts as that value does.

* `Value.number`, `Value.text`: the number and the text of a plain value.
* `Eval.toPrimitive`: the plain value an object stands for.
* `Eval.toNumber`, `Eval.toInteger`, `Eval.toUint32`, `Eval.toText`: conversions of any value.
* `Eval.toObject`: the object that wraps a plain value.
-/

namespace Es5

/-- Which conversion method is tried first. -/
inductive Hint where
  | default | number | string
  deriving DecidableEq, Repr

/-- The conversion methods in the order in which they are tried. -/
def Hint.methods : Hint → List String
  | string => ["toString", "valueOf"]
  | _ => ["valueOf", "toString"]

/-! ## Plain values -/

/-- The number of a plain value; an object has none. -/
def Value.plainNumber : Value → Double
  | undefined => .nan
  | null => .zero
  | boolean b => if b then .ofNat 1 else .zero
  | number x => x
  | string s => readNumber s
  | object _ => .nan

/-- The text of a plain value; an object has none. -/
def Value.plainText : Value → String
  | undefined => "undefined"
  | null => "null"
  | boolean b => if b then "true" else "false"
  | number x => x.scriptText
  | string s => s
  | object _ => ""

/-- The whole part of a number, with zero for not-a-number. -/
def Double.toInteger (x : Double) : Double := if x.isNaN then .zero else x.truncate

/-! ## Wrappers -/

/-- The own properties of a wrapped text: its units in order, and its length. -/
def textProperties (s : String) : Properties :=
  let pieces := pieces16 s
  pieces.mapIdx (fun i piece => (indexKey i, .fixed (.string piece) true)) ++
    [("length", .fixed (.number (.ofNat pieces.length)) false)]

/-- The wrapper of a plain value, if it has one. It has no prototype. -/
def wrapper? {κ : Type} : Value → Option (ObjectRecord κ)
  | .boolean b => some { kind := .boolean, primitive := some (.boolean b) }
  | .number x => some { kind := .number, primitive := some (.number x) }
  | .string s =>
    some { kind := .string, properties := textProperties s, primitive := some (.string s) }
  | _ => none

namespace Eval

variable {κ σ : Type} (caller : Caller κ σ)

/-! ## Conversions that may run user code -/

/-- The first plain value that one of the methods named gives for an object. -/
def firstPrimitive (v : Value) : List String → Eval κ σ Value
  | [] => fail .noPrimitive
  | name :: rest => do
    let method ← get caller v name
    if ← look (·.isCallable method) then
      let result ← call caller method v []
      if result.isObject then firstPrimitive v rest else pure result
    else firstPrimitive v rest

/-- A plain value as it is, and the plain value that an object stands for. -/
def toPrimitive (v : Value) (hint : Hint) : Eval κ σ Value :=
  if v.isObject then firstPrimitive caller v hint.methods else pure v

/-- The number of a value. -/
def toNumber (v : Value) : Eval κ σ Double := do
  return (← toPrimitive caller v .number).plainNumber

/-- The whole number of a value, or an infinity. -/
def toInteger (v : Value) : Eval κ σ Double := do
  return (← toNumber caller v).toInteger

/-- The number of a value modulo `2 ^ 32`. -/
def toUint32 (v : Value) : Eval κ σ Nat := do
  return (← toNumber caller v).toUint32

/-- The text of a value. -/
def toText (v : Value) : Eval κ σ String := do
  return (← toPrimitive caller v .string).plainText

/-- An object as it is, and a new wrapper of a plain value. -/
def toObject (v : Value) : Eval κ σ Value :=
  if v.isObject then pure v
  else match wrapper? v with
    | some o => alloc o
    | none => fail (.noObject v.plainText)

end Eval

end Es5
