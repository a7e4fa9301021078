import Es5.Eval.ObjectFunctions
import Es5.Eval.Search

/-!
# Realms

A realm is a fresh set of the objects that the language provides. Realms share nothing.

* `Intrinsic`: the behaviours of the provided functions, with the objects that they hold.
* `Intrinsic.run`: what such a function does.
* `Realm`, `Eval.newRealm`: the provided objects, and their creation.
* `Eval.newObject`, `Eval.newFunction`, `Eval.newArray`: objects with a given prototype.
-/

namespace Es5

/-- The behaviours of the functions that a realm provides. -/
inductive Intrinsic where
  /-- Returns undefined. -/
  | nothing
  /-- Makes an object with a prototype, or wraps a plain value. -/
  | toObject (proto : Value)
  | valueOf
  | tag
  | hasOwnProperty
  | indexOf
  | lastIndexOf
  | defineProperty
  /-- Describes a property by an object with a prototype. -/
  | getOwnPropertyDescriptor (proto : Value)
  | preventExtensions
  | isExtensible
  | makeFrozen
  | isFrozen
  | makeSealed
  | isSealed
  deriving DecidableEq

/-- The objects that a realm provides. -/
structure Realm where
  objectPrototype : Value
  functionPrototype : Value
  arrayPrototype : Value
  objectConstructor : Value
  deriving DecidableEq

instance : Inhabited Realm := ⟨⟨.undefined, .undefined, .undefined, .undefined⟩⟩

/-- The own properties of an array with the elements given. -/
def arrayProperties (values : List Value) : Properties :=
  values.mapIdx (fun i v => (indexKey i, .plain v)) ++
    [("length", .data (.number (.ofNat values.length)) true false false)]

namespace Eval

variable {κ σ : Type}

/-! ## New objects -/

/-- A new object without properties. -/
def newObject (proto : Option Value) : Eval κ σ Value :=
  alloc { kind := .object, prototype := proto }

/-- A new function. -/
def newFunction (behaviour : κ) (proto : Option Value) : Eval κ σ Value :=
  alloc { kind := .function, prototype := proto, call := some behaviour }

/-- A new array. -/
def newArray (values : List Value) (proto : Option Value) : Eval κ σ Value :=
  alloc { kind := .array, properties := arrayProperties values, prototype := proto }

/-- Stores a property without any check. -/
def store (v : Value) (key : String) (p : Property) : Eval κ σ Unit :=
  match v with
  | .object r => change fun h => ((), h.update r (·.insert key p))
  | _ => pure ()

/-- Removes a property without any check, and returns it. -/
def unstore (v : Value) (key : String) : Eval κ σ (Option Property) :=
  match v with
  | .object r => change fun h => (h.own? v key, h.update r (·.erase key))
  | _ => pure none

/-- Replaces the prototype without any check. -/
def setPrototype (v : Value) (proto : Option Value) : Eval κ σ Unit :=
  match v with
  | .object r => change fun h => ((), h.update r fun o => { o with prototype := proto })
  | _ => pure ()

end Eval

/-! ## Provided functions -/

/-- The argument at a position, undefined if there is none. -/
def argument (args : List Value) (i : Nat) : Value := args[i]?.getD .undefined

open Eval in
/-- What a provided function does. -/
def Intrinsic.run {κ σ : Type} (caller : Caller κ σ) (this : Value) (args : List Value) :
    Intrinsic → Eval κ σ Value
  | nothing => pure .undefined
  | toObject proto =>
    match argument args 0 with
    | .undefined => newObject (some proto)
    | .null => newObject (some proto)
    | v => Eval.toObject v
  | valueOf => Eval.toObject this
  | tag => return .string (← Eval.tag this)
  | hasOwnProperty => return .boolean (← Eval.hasOwnProperty caller this (argument args 0))
  | indexOf =>
    return .number (.ofInt (← Eval.indexOf caller this (argument args 0) args[1]?))
  | lastIndexOf =>
    return .number (.ofInt (← Eval.lastIndexOf caller this (argument args 0) args[1]?))
  | defineProperty =>
    Eval.defineProperty caller (argument args 0) (argument args 1) (argument args 2)
  | getOwnPropertyDescriptor proto => do
    match ← Eval.getOwnPropertyDescriptor caller (argument args 0) (argument args 1) with
    | some d => writeDescriptor caller proto d
    | none => pure .undefined
  | preventExtensions => preventExtensionsOf (argument args 0)
  | isExtensible => return .boolean (← Eval.isExtensible (argument args 0))
  | makeFrozen => Eval.makeFrozen caller (argument args 0)
  | isFrozen => return .boolean (← Eval.isFrozen (argument args 0))
  | makeSealed => Eval.makeSealed caller (argument args 0)
  | isSealed => return .boolean (← Eval.isSealed (argument args 0))

namespace Realm

/-- The methods of the object prototype. -/
def objectMethods : List (String × Intrinsic) :=
  [("valueOf", .valueOf), ("toString", .tag), ("hasOwnProperty", .hasOwnProperty)]

/-- The methods of the array prototype. -/
def arrayMethods : List (String × Intrinsic) :=
  [("indexOf", .indexOf), ("lastIndexOf", .lastIndexOf)]

/-- The functions of the object constructor, some of which hold the object prototype. -/
def constructorMethods (proto : Value) : List (String × Intrinsic) :=
  [("defineProperty", .defineProperty),
    ("getOwnPropertyDescriptor", .getOwnPropertyDescriptor proto),
    ("preventExtensions", .preventExtensions), ("isExtensible", .isExtensible),
    ("freeze", .makeFrozen), ("isFrozen", .isFrozen), ("seal", .makeSealed),
    ("isSealed", .isSealed)]

end Realm

namespace Eval

variable {κ σ : Type} (behaviour : Intrinsic → κ)

/-- Gives an object a method for each name. -/
def installMethods (v proto : Value) : List (String × Intrinsic) → Eval κ σ Unit
  | [] => pure ()
  | (name, i) :: rest => do
    let f ← newFunction (behaviour i) (some proto)
    store v name (.method f)
    installMethods v proto rest

/-- Makes a realm, given how provided functions are stored. -/
def newRealm : Eval κ σ Realm := do
  let objects ← newObject none
  let functions ← newFunction (behaviour .nothing) (some objects)
  let arrays ← newArray [] (some objects)
  let constructor ← newFunction (behaviour (.toObject objects)) (some functions)
  installMethods behaviour objects functions Realm.objectMethods
  installMethods behaviour arrays functions Realm.arrayMethods
  installMethods behaviour constructor functions (Realm.constructorMethods objects)
  store constructor "prototype" (.fixed objects false)
  pure ⟨objects, functions, arrays, constructor⟩

end Eval

end Es5
