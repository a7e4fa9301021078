import Es5.Value

/-!
# Properties and descriptors

A property is what an object stores, and is complete: a data property or an accessor. A descriptor
is a partial account of a property, as definitions use it.

* `Property`: a data property, or an accessor whose absent halves are `none`.
* `Descriptor`: six optional fields; a `get` or `set` may be present and undefined.
* `Descriptor.ofProperty`: the complete descriptor of a property.
-/

namespace Es5

/-- A property as an object stores it. -/
inductive Property where
  | data (value : Value) (writable enumerable configurable : Bool)
  | accessor (get set : Option Value) (enumerable configurable : Bool)
  deriving DecidableEq

namespace Property

/-- The property that a plain assignment creates. -/
def plain (value : Value) : Property := data value true true true

/-- The property that holds a built-in method. -/
def method (value : Value) : Property := data value true false true

/-- A data property that cannot be changed or deleted. -/
def fixed (value : Value) (enumerable : Bool) : Property := data value false enumerable false

/-- Whether this is a data property. -/
def isData : Property → Bool
  | data .. => true
  | accessor .. => false

/-- Whether this is a writable data property. -/
def writable : Property → Bool
  | data _ w _ _ => w
  | accessor .. => false

/-- Whether the property is enumerable. -/
def enumerable : Property → Bool
  | data _ _ e _ => e
  | accessor _ _ e _ => e

/-- Whether the property can be deleted and redefined. -/
def configurable : Property → Bool
  | data _ _ _ c => c
  | accessor _ _ _ c => c

/-- Whether an assignment to the property is accepted. -/
def acceptsWrite : Property → Bool
  | data _ w _ _ => w
  | accessor _ set _ _ => set.isSome

end Property

/-- A partial account of a property. -/
structure Descriptor where
  value : Option Value := none
  writable : Option Bool := none
  get : Option Value := none
  set : Option Value := none
  enumerable : Option Bool := none
  configurable : Option Bool := none
  deriving DecidableEq

namespace Descriptor

/-- Whether a field of data properties is present. -/
def isData (d : Descriptor) : Bool := d.value.isSome || d.writable.isSome

/-- Whether a field of accessors is present. -/
def isAccessor (d : Descriptor) : Bool := d.get.isSome || d.set.isSome

/-- Whether no field that tells the kind of property is present. -/
def isGeneric (d : Descriptor) : Bool := !d.isData && !d.isAccessor

/-- Whether no field is present. -/
def isEmpty (d : Descriptor) : Bool :=
  d.isGeneric && d.enumerable.isNone && d.configurable.isNone

/-- The complete descriptor of a property; an absent getter or setter is undefined. -/
def ofProperty : Property → Descriptor
  | .data v w e c =>
    { value := some v, writable := some w, enumerable := some e, configurable := some c }
  | .accessor g s e c =>
    { get := some (g.getD .undefined), set := some (s.getD .undefined), enumerable := some e,
      configurable := some c }

/-- The fields of a descriptor that are present, as values under their names. -/
def fields (d : Descriptor) : List (String × Value) :=
  let named := [("value", d.value), ("writable", d.writable.map .boolean), ("get", d.get),
    ("set", d.set), ("enumerable", d.enumerable.map .boolean),
    ("configurable", d.configurable.map .boolean)]
  named.filterMap fun (name, field) => field.map (name, ·)

end Descriptor

end Es5
