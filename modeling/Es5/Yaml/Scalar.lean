import Es5.Number.Numeral
import Es5.Yaml.Token

/-!
# What plain scalars mean

A plain scalar without a tag is empty, null, a boolean, a number, or else a text.

* `ScalarValue`, `ScalarValue.ofText`: the meanings, and the meaning of a text.
* `isNullText`, `boolean?`, `integer?`, `float?`: the spellings of each.
-/

namespace Es5.Yaml

/-- The spellings of null. -/
def isNullText (s : String) : Bool := s == "null" || s == "Null" || s == "NULL" || s == "~"

/-- The spellings of booleans. -/
def boolean? (s : String) : Option Bool :=
  if s == "true" || s == "True" || s == "TRUE" then some true
  else if s == "false" || s == "False" || s == "FALSE" then some false
  else none

/-! ## Numbers -/

/-- The value of a digit in a base up to sixteen. -/
def digitIn? (base : Nat) (c : Char) : Option Nat := (hexDigit? c).filter (· < base)

/-- The natural that digits spell in a base. -/
def natural? (base : Nat) (cs : List Char) : Option Nat :=
  if cs.isEmpty then none
  else (cs.mapM (digitIn? base)).map fun ds => ds.foldl (fun n d => base * n + d) 0

/-- The natural that a numeral spells, in base ten or in the base that its beginning names. -/
def numeral? : List Char → Option Nat
  | '0' :: 'x' :: cs => natural? 16 cs
  | '0' :: 'o' :: cs => natural? 8 cs
  | '0' :: 'b' :: cs => natural? 2 cs
  | cs => natural? 10 cs

/-- Whether a text is digits that begin with a zero; such a text is no number. -/
def isZeroPadded (cs : List Char) : Bool :=
  let digits := match cs with
    | '-' :: rest => rest
    | '+' :: rest => rest
    | _ => cs
  1 < digits.length && digits.head? == some '0' && digits.all Char.isDigit

/-- The integer that a text spells, if it fits into 128 bits. -/
def integer? (s : String) : Option Int :=
  let cs := s.toList
  if isZeroPadded cs then none
  else match cs with
    | '-' :: rest => ((numeral? rest).filter (· ≤ Nat.pow 2 127)).map fun n => -(n : Int)
    | '+' :: rest => ((numeral? rest).filter (· < Nat.pow 2 128)).map Int.ofNat
    | _ => ((numeral? cs).filter (· < Nat.pow 2 128)).map Int.ofNat

/-- The number that a decimal spells, if it is finite. -/
def finiteDecimal? (negative : Bool) (cs : List Char) : Option Double :=
  match decimalLiteral? cs with
  | none => none
  | some (digits, exponent) =>
    match Double.ofDecimal negative digits exponent with
    | .finite n r => some (.finite n r)
    | _ => none

/-- The number that a text spells with a point or an exponent, or as infinity or no number. -/
def float? (s : String) : Option Double :=
  if s == ".inf" || s == ".Inf" || s == ".INF" || s == "+.inf" || s == "+.Inf" || s == "+.INF" then
    some (.infinity false)
  else if s == "-.inf" || s == "-.Inf" || s == "-.INF" then some (.infinity true)
  else if s == ".nan" || s == ".NaN" || s == ".NAN" then some .nan
  else match s.toList with
    | '-' :: rest => finiteDecimal? true rest
    | '+' :: rest => finiteDecimal? false rest
    | cs => finiteDecimal? false cs

/-! ## Meanings -/

/-- What a plain scalar means. -/
inductive ScalarValue where
  | null
  | boolean (b : Bool)
  | integer (i : Int)
  | float (x : Double)
  | text (s : String)

/-- What a plain scalar without a tag means. -/
def ScalarValue.ofText (s : String) : ScalarValue :=
  if s.isEmpty || isNullText s then .null
  else match boolean? s, integer? s, float? s with
    | some b, _, _ => .boolean b
    | none, some i, _ => .integer i
    | none, none, some x => if isZeroPadded s.toList then .text s else .float x
    | none, none, none => .text s

end Es5.Yaml
