import Es5.Number.Rounding
import Es5.Text.Space

/-!
# Reading numbers

The text of a number, with blanks around it, is empty, a hexadecimal literal, or an optional sign
and then `Infinity` or a decimal literal; any other text is not a number.

* `isBlank`: the white space and line terminators of the script language.
* `decimalLiteral?`: digits with an optional point and an optional exponent.
* `parseDouble?`: what the parser of the host makes of a text, which takes more than literals.
* `isDecimal`: which texts are given to that parser.
* `hexLiteral?`: hexadecimal digits, taken one by one with a rounding at each.
* `readNumber`: the number that a text stands for.
-/

namespace Es5

/-- White space and line terminators of the script language. -/
def isBlank (c : Char) : Bool :=
  let n := c.toNat
  (0x9 ≤ n && n ≤ 0xD) || n == 0x20 || n == 0xA0 || n == 0x1680 || (0x2000 ≤ n && n ≤ 0x200A) ||
    n == 0x2028 || n == 0x2029 || n == 0x202F || n == 0x205F || n == 0x3000 || n == 0xFEFF

/-! ## Decimal literals -/

/-- The value of a list of decimal digits. -/
def digitsValue (cs : List Char) : Nat := cs.foldl (fun n c => 10 * n + (c.toNat - '0'.toNat)) 0

/-- An optional sign: whether it is a minus, and the rest. -/
def splitSign : List Char → Bool × List Char
  | '-' :: rest => (true, rest)
  | '+' :: rest => (false, rest)
  | cs => (false, cs)

/-- The decimal exponent that ends a literal; no text at all is exponent zero. -/
def exponentPart? : List Char → Option Int
  | [] => some 0
  | c :: rest =>
    if c = 'e' ∨ c = 'E' then
      let (negative, digits) := splitSign rest
      if digits.isEmpty || !digits.all Char.isDigit then none
      else some (if negative then -(digitsValue digits : Int) else digitsValue digits)
    else none

/-- An unsigned decimal literal as digits and a power of ten. -/
def decimalLiteral? (cs : List Char) : Option (Nat × Int) :=
  let whole := cs.takeWhile Char.isDigit
  let (fraction, rest) := match cs.dropWhile Char.isDigit with
    | '.' :: rest => (rest.takeWhile Char.isDigit, rest.dropWhile Char.isDigit)
    | rest => ([], rest)
  if whole.isEmpty && fraction.isEmpty then none
  else (exponentPart? rest).map fun e => (digitsValue (whole ++ fraction), e - fraction.length)

/--
The number that the parser of the host reads. Behind an optional sign it takes decimal literals, and
the names of infinity and of not-a-number in letters of either case.
-/
def parseDouble? (cs : List Char) : Option Double :=
  let (negative, rest) := splitSign cs
  let name := rest.map Char.toLower
  if name = "inf".toList ∨ name = "infinity".toList then some (.infinity negative)
  else if name = "nan".toList then some .nan
  else (decimalLiteral? rest).map fun (digits, exponent) => .ofDecimal negative digits exponent

/-- Whether a text begins with a digit or a point, and has only characters of decimal literals. -/
def isDecimal (cs : List Char) : Bool :=
  cs.head?.any (fun c => c.isDigit || c == '.') &&
    cs.all fun c => c.isDigit || ['.', 'e', 'E', '+', '-'].contains c

/-! ## Hexadecimal literals -/

/-- The value of a hexadecimal digit. -/
def hexDigit? (c : Char) : Option Nat :=
  if c.isDigit then some (c.toNat - '0'.toNat)
  else if 'a' ≤ c ∧ c ≤ 'f' then some (c.toNat - 'a'.toNat + 10)
  else if 'A' ≤ c ∧ c ≤ 'F' then some (c.toNat - 'A'.toNat + 10)
  else none

/-- Sixteen times a number that is not negative, plus a digit, rounded once. -/
def Double.appendHex (x : Double) (digit : Nat) : Double :=
  match x with
  | .finite negative rank =>
    .nearest negative (16 * units rank.val + digit * unitsPerOne) 1
  | x => x

/-- The number of a list of hexadecimal digits, rounded after each digit. -/
def hexLiteral? (cs : List Char) : Option Double :=
  if cs.isEmpty then none
  else (cs.mapM hexDigit?).map fun digits => digits.foldl Double.appendHex Double.zero

/-! ## Number texts -/

/-- A number times one or, if `negative` is set, times minus one. -/
def Double.timesSign (negative : Bool) (x : Double) : Double :=
  if negative then x.withSign !x.isNegative else x

/--
An unsigned `Infinity` or decimal literal, with the sign that stood before it. Other names and a
second sign are kept from the parser of the host.
-/
def readUnsigned (negative : Bool) (cs : List Char) : Double :=
  if cs = "Infinity".toList then .infinity negative
  else if isDecimal cs then ((parseDouble? cs).map (Double.timesSign negative)).getD .nan
  else .nan

/-- The number that a text stands for, not-a-number if it stands for none. -/
def readNumber (s : String) : Double :=
  match Text.trimList isBlank s.toList with
  | [] => .zero
  | '0' :: 'x' :: rest => (hexLiteral? rest).getD .nan
  | '0' :: 'X' :: rest => (hexLiteral? rest).getD .nan
  | cs => let (negative, rest) := splitSign cs; readUnsigned negative rest

end Es5
