import Es5.Object.Property

/-!
# Object records

The state of one object. Its own properties stand in the order in which their keys were created.

* `ObjectClass`: what an object is an instance of.
* `Properties`: keys with properties, in order of creation.
* `ObjectRecord`: the state of an object, whose behaviour as a function is of type `κ`.
-/

namespace Es5

/-- What an object is an instance of. -/
inductive ObjectClass where
  | object | function | array | boolean | number | string | error | date | arguments | regExp
  deriving DecidableEq, Repr

/-- The name of a class. -/
def ObjectClass.name : ObjectClass → String
  | object => "Object"
  | function => "Function"
  | array => "Array"
  | boolean => "Boolean"
  | number => "Number"
  | string => "String"
  | error => "Error"
  | date => "Date"
  | arguments => "Arguments"
  | regExp => "RegExp"

/-- Every class. -/
def ObjectClass.all : List ObjectClass :=
  [object, function, array, boolean, number, string, error, date, arguments, regExp]

/-- The class of a name. -/
def ObjectClass.ofName? (name : String) : Option ObjectClass := all.find? (·.name == name)

/-! ## Own properties -/

/-- Keys with their properties, in order of creation. -/
abbrev Properties := List (String × Property)

namespace Properties

/-- The property under a key. -/
def get? (ps : Properties) (key : String) : Option Property := List.lookup key ps

/-- Replaces the property under a key in its place, or appends a new key. -/
def insert (ps : Properties) (key : String) (p : Property) : Properties :=
  match ps with
  | [] => [(key, p)]
  | (k, q) :: rest => if k = key then (k, p) :: rest else (k, q) :: insert rest key p

/-- Removes a key. -/
def erase (ps : Properties) (key : String) : Properties :=
  match ps with
  | [] => []
  | (k, q) :: rest => if k = key then rest else (k, q) :: erase rest key

/-- The keys in order of creation. -/
def keys (ps : Properties) : List String := ps.map Prod.fst

end Properties

/-! ## Records -/

/-- The state of an object. -/
structure ObjectRecord (κ : Type) where
  kind : ObjectClass
  properties : Properties := []
  prototype : Option Value := none
  extensible : Bool := true
  call : Option κ := none
  primitive : Option Value := none

namespace ObjectRecord

variable {κ : Type}

/-- The own property under a key. -/
def own? (o : ObjectRecord κ) (key : String) : Option Property := o.properties.get? key

/-- Stores an own property without any check. -/
def insert (o : ObjectRecord κ) (key : String) (p : Property) : ObjectRecord κ :=
  { o with properties := o.properties.insert key p }

/-- Removes an own property without any check. -/
def erase (o : ObjectRecord κ) (key : String) : ObjectRecord κ :=
  { o with properties := o.properties.erase key }

/-- The record with its behaviour replaced by a mark of being callable. -/
def outline (o : ObjectRecord κ) : ObjectRecord Unit :=
  { o with call := o.call.map fun _ => () }

end ObjectRecord

end Es5
