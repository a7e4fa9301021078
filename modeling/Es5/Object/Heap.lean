import Es5.Number.Rounding
import Es5.Object.Definition
import Es5.Object.Index
import Es5.Object.Record

/-!
# Heaps

All objects that exist, by place. Objects are only added, and nothing here runs user code.

* `Heap.own?`, `Heap.find?`: the own property under a key, and the nearest one up the prototypes.
* `Heap.canPut`: whether an assignment is accepted.
* `Heap.define`, `Heap.delete`: definition and deletion of a property.
* `Heap.defineElement`, `Heap.setLength`: the rules that tie an array's length to its indices.
-/

namespace Es5

/-- The objects that exist, by place. -/
abbrev Heap (κ : Type) := Array (ObjectRecord κ)

namespace Heap

variable {κ : Type}

/-! ## Reading -/

/-- The record of an object. -/
def record? (h : Heap κ) : Value → Option (ObjectRecord κ)
  | .object r => h[r]?
  | _ => none

/-- Whether a value can be called. -/
def isCallable (h : Heap κ) (v : Value) : Bool := ((h.record? v).bind (·.call)).isSome

/-- The type name of a value. -/
def typeName (h : Heap κ) (v : Value) : String := v.typeName (h.isCallable v)

/-- The class of an object. -/
def kind? (h : Heap κ) (v : Value) : Option ObjectClass := (h.record? v).map (·.kind)

/-- The prototype of an object. -/
def prototype? (h : Heap κ) (v : Value) : Option Value := (h.record? v).bind (·.prototype)

/-- Whether new properties may be added. -/
def isExtensible (h : Heap κ) (v : Value) : Bool := ((h.record? v).map (·.extensible)).getD false

/-- The own keys in order of creation. -/
def ownKeys (h : Heap κ) (v : Value) : List String :=
  ((h.record? v).map (·.properties.keys)).getD []

/-- The own property under a key. -/
def own? (h : Heap κ) (v : Value) (key : String) : Option Property :=
  (h.record? v).bind (·.own? key)

/-- The first property under a key among `v` and at most `fuel - 1` of its prototypes. -/
def findWithin (h : Heap κ) (key : String) : Nat → Value → Option Property
  | 0, _ => none
  | fuel + 1, v =>
    match h.own? v key with
    | some p => some p
    | none =>
      match h.prototype? v with
      | some proto => findWithin h key fuel proto
      | none => none

/-- The nearest property under a key; a chain that repeats no object ends within the heap's size. -/
def find? (h : Heap κ) (v : Value) (key : String) : Option Property :=
  h.findWithin key h.size v

/-- Whether an object or one of its prototypes has a key. -/
def hasProperty (h : Heap κ) (v : Value) (key : String) : Bool := (h.find? v key).isSome

/-- Whether an assignment to a key is accepted. -/
def canPut (h : Heap κ) (v : Value) (key : String) : Bool :=
  match h.own? v key with
  | some p => p.acceptsWrite
  | none =>
    match (h.prototype? v).bind (h.find? · key) with
    | none => h.isExtensible v
    | some (.accessor _ set _ _) => set.isSome
    | some (.data _ writable _ _) => h.isExtensible v && writable

/-! ## Writing -/

/-- Adds an object. -/
def alloc (h : Heap κ) (o : ObjectRecord κ) : Value × Heap κ := (.object h.size, h.push o)

/-- Changes the record of an object. -/
def update (h : Heap κ) (r : Ref) (f : ObjectRecord κ → ObjectRecord κ) : Heap κ := h.modify r f

/-- Defines a property, and tells whether the definition was accepted. -/
def define (h : Heap κ) (r : Ref) (key : String) (d : Descriptor) : Bool × Heap κ :=
  match h[r]? with
  | none => (false, h)
  | some o =>
    match d.applyTo? o.extensible (o.own? key) with
    | some p => (true, h.update r (·.insert key p))
    | none => (false, h)

/-- Deletes a property if it is configurable, and tells whether the key is gone. -/
def delete (h : Heap κ) (r : Ref) (key : String) : Bool × Heap κ :=
  match h.own? (.object r) key with
  | none => (true, h)
  | some p => if p.configurable then (true, h.update r (·.erase key)) else (false, h)

/-! ## Arrays -/

/-- The length of an array and whether it is writable. -/
def arrayLength (h : Heap κ) (r : Ref) : Nat × Bool :=
  match h.own? (.object r) "length" with
  | some (.data (.number x) writable _ _) => (x.clampUint32, writable)
  | _ => (0, true)

/-- The value of a length. -/
def lengthValue (n : Nat) : Value := .number (.ofNat n)

/-- Defines the element at an index, and raises the length above it. -/
def defineElement (h : Heap κ) (r : Ref) (index : Nat) (key : String) (d : Descriptor) :
    Bool × Heap κ :=
  let (length, writable) := h.arrayLength r
  if length ≤ index && !writable then (false, h)
  else match h.define r key d with
    | (false, h) => (false, h)
    | (true, h) =>
      if length ≤ index then
        (true, (h.define r "length" { value := some (lengthValue (index + 1)) }).2)
      else (true, h)

/-- The own indices of an object from `least` on, the greatest first. -/
def indicesFrom (h : Heap κ) (r : Ref) (least : Nat) : List Nat :=
  (((h.ownKeys (.object r)).filterMap arrayIndex?).filter (least ≤ ·)).mergeSort (fun i j => j ≤ i)

/-- Deletes elements in the order given up to the first that stays, which is returned. -/
def deleteElements (h : Heap κ) (r : Ref) : List Nat → Option Nat × Heap κ
  | [] => (none, h)
  | i :: rest =>
    match h.delete r (indexKey i) with
    | (true, h) => deleteElements h r rest
    | (false, h) => (some i, h)

/--
Shortens an array to `length`. Elements are deleted from the end; one that stays stops the
deletion and fixes the length just above itself, which counts as a refusal. The length is made
read-only, if `d` asks for that, after the deletions.
-/
def truncate (h : Heap κ) (r : Ref) (length : Nat) (d : Descriptor) : Bool × Heap κ :=
  let writable := d.writable.getD true
  match h.define r "length" { d with writable := some true } with
  | (false, h) => (false, h)
  | (true, h) =>
    match h.deleteElements r (h.indicesFrom r length) with
    | (some i, h) =>
      (false, (h.define r "length"
        { value := some (lengthValue (i + 1)), writable := some writable }).2)
    | (none, h) =>
      if writable then (true, h)
      else (true, (h.define r "length" { writable := some false }).2)

/--
Defines the length of an array as `length`. The former length and whether it was writable are
given, because they are read before the new length is computed.
-/
def setLength (h : Heap κ) (r : Ref) (former : Nat × Bool) (length : Nat) (d : Descriptor) :
    Bool × Heap κ :=
  let d := { d with value := some (lengthValue length) }
  if former.1 ≤ length then h.define r "length" d
  else if !former.2 then (false, h)
  else h.truncate r length d

end Heap

end Es5
