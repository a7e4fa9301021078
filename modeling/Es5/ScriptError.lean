/-!
# Thrown errors

What operations of the script language throw, given by cause. The kind and the wording of an error
follow from its cause.

* `ErrorKind`: the error constructors of the language.
* `ScriptError`: the causes, among them an error raised by user code.
* `ScriptError.kind`, `ScriptError.message`, `ScriptError.text`: what an error shows.
-/

namespace Es5

/-- The error constructors of the language. -/
inductive ErrorKind where
  | error | syntaxError | typeError | referenceError | rangeError | evalError | uriError
  deriving DecidableEq, Repr

/-- The name of an error constructor. -/
def ErrorKind.name : ErrorKind → String
  | error => "Error"
  | syntaxError => "SyntaxError"
  | typeError => "TypeError"
  | referenceError => "ReferenceError"
  | rangeError => "RangeError"
  | evalError => "EvalError"
  | uriError => "URIError"

/-- Every kind of error. -/
def ErrorKind.all : List ErrorKind :=
  [error, syntaxError, typeError, referenceError, rangeError, evalError, uriError]

/-- The kind of a constructor name. -/
def ErrorKind.ofName? (name : String) : Option ErrorKind := all.find? (·.name == name)

theorem ErrorKind.ofName?_name (k : ErrorKind) : ofName? k.name = some k := by
  cases k <;> decide

/-- Why an operation throws. -/
inductive ScriptError where
  /-- An internal method was used on a value that is no object. -/
  | notObject (method typeName : String)
  /-- A value that is no function was called. -/
  | notCallable (typeName : String)
  /-- A property that holds no function was invoked as a method. -/
  | notMethod (name : String)
  /-- A refused write. -/
  | readOnly (key : String)
  /-- A refused deletion. -/
  | undeletable (key : String)
  /-- A refused definition. -/
  | unredefinable (key : String)
  /-- An array length that is no whole number below `2 ^ 32`. -/
  | invalidLength
  /-- An object without a usable conversion method. -/
  | noPrimitive
  /-- A value that no object wraps. -/
  | noObject (found : String)
  /-- A static function was given a value that is no object. -/
  | staticOnPrimitive (function : String)
  /-- A descriptor was to be read from a value that is no object. -/
  | notDescriptor
  /-- A getter or setter that is neither a function nor undefined. -/
  | badAccessor (field : String)
  /-- A descriptor with fields of both kinds of property. -/
  | mixedDescriptor
  /-- An error raised by user code. -/
  | raised (kind : ErrorKind) (message : String)
  deriving DecidableEq, Repr

namespace ScriptError

/-- The kind of an error. -/
def kind : ScriptError → ErrorKind
  | invalidLength => .rangeError
  | raised kind _ => kind
  | _ => .typeError

/-- The wording of an error. -/
def message : ScriptError → String
  | notObject method typeName => method ++ " called on non-object (" ++ typeName ++ ")"
  | notCallable typeName => typeName ++ " is not a function"
  | notMethod name => name ++ " is not a function"
  | readOnly key => "Cannot assign to read only property '" ++ key ++ "'"
  | undeletable key => "Cannot delete property '" ++ key ++ "'"
  | unredefinable key => "Cannot redefine property: " ++ key
  | invalidLength => "Invalid array length"
  | noPrimitive => "Cannot convert object to primitive value"
  | noObject found => "Cannot convert " ++ found ++ " to object"
  | staticOnPrimitive function => function ++ " called on non-object"
  | notDescriptor => "Property description must be an object"
  | badAccessor field => field ++ " must be a function or undefined"
  | mixedDescriptor =>
    "Invalid property descriptor. Cannot both specify accessors and a value or writable attribute"
  | raised _ message => message

/-- The kind and the wording of an error, as a runner reports them. -/
def text (e : ScriptError) : String := e.kind.name ++ ": " ++ e.message

end ScriptError

end Es5
