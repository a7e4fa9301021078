import Es5.Object.Property

/-!
# Definitions of properties

What a descriptor makes of the property under a key: the property to store, or a refusal.

* `Descriptor.create`: the property made where there was none.
* `Descriptor.update`: a property with the present fields replaced.
* `Descriptor.permittedOn`: whether a property admits the change.
* `Descriptor.applyTo?`: the whole rule.
-/

namespace Es5

namespace Descriptor

/-- A getter or setter as a property stores it: undefined is stored as absent. -/
def slot (field : Option Value) : Option Value := field.filter (· != .undefined)

/-- The property made from a descriptor where there was none; absent fields are off. -/
def create (d : Descriptor) : Property :=
  let enumerable := d.enumerable.getD false
  let configurable := d.configurable.getD false
  if d.isAccessor then .accessor (slot d.get) (slot d.set) enumerable configurable
  else .data (d.value.getD .undefined) (d.writable.getD false) enumerable configurable

/-- Whether a present field is the same as the one of a complete descriptor. -/
def fieldWithin {α : Type} [BEq α] (field complete : Option α) : Bool :=
  field.isNone || field == complete

/-- Whether every present field is already as in `p`. -/
def within (d : Descriptor) (p : Property) : Bool :=
  let full := ofProperty p
  fieldWithin d.value full.value && fieldWithin d.writable full.writable &&
    fieldWithin d.get full.get && fieldWithin d.set full.set &&
    fieldWithin d.enumerable full.enumerable && fieldWithin d.configurable full.configurable

/-- A property of the other kind, with the defaults of that kind. -/
def switchKind : Property → Property
  | .data _ _ e c => .accessor none none e c
  | .accessor _ _ e c => .data .undefined false e c

/-- A property with the present fields replaced. -/
def update (d : Descriptor) : Property → Property
  | .data v w e c =>
    .data (d.value.getD v) (d.writable.getD w) (d.enumerable.getD e) (d.configurable.getD c)
  | .accessor g s e c =>
    .accessor (if d.get.isSome then slot d.get else g) (if d.set.isSome then slot d.set else s)
      (d.enumerable.getD e) (d.configurable.getD c)

/-- Whether a descriptor is of the other kind than a property. -/
def switches (d : Descriptor) (p : Property) : Bool := !d.isGeneric && p.isData != d.isData

/-- Whether the fields of the kind of `p` may be replaced although `p` is not configurable. -/
def keepsFixed (d : Descriptor) : Property → Bool
  | .data v w _ _ => w || (d.writable != some true && fieldWithin d.value (some v))
  | .accessor g s _ _ =>
    fieldWithin d.set (some (s.getD .undefined)) && fieldWithin d.get (some (g.getD .undefined))

/-- Whether a property admits the change that a descriptor asks for. -/
def permittedOn (d : Descriptor) (p : Property) : Bool :=
  p.configurable ||
    (d.configurable != some true && fieldWithin d.enumerable (some p.enumerable) &&
      (d.isGeneric || (!d.switches p && d.keepsFixed p)))

/--
The property that a definition stores over `current`, or `none` for a refusal. A descriptor that
asks for nothing new is always accepted.
-/
def applyTo? (d : Descriptor) (extensible : Bool) : Option Property → Option Property
  | none => if extensible then some d.create else none
  | some p =>
    if d.isEmpty || d.within p then some p
    else if !d.permittedOn p then none
    else some (d.update (if d.switches p then switchKind p else p))

end Descriptor

end Es5
