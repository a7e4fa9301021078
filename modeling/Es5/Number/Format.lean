import Es5.Number.Rounding
import Es5.Number.Shortest

/-!
# Writing numbers

A number is written with its shortest digits, positionally while the exponent of the first digit
lies in a range that the style fixes, and with a decimal exponent outside it. Script text tells four
layouts apart by the magnitude itself.

* `NumberStyle`: the decisions that tell the ways of writing a number apart.
* `Double.write`: the text of a number in a style.
* `NumberStyle.script`, `NumberStyle.record`, `NumberStyle.plain`: the styles in use.
* `Double.scriptText`: the text of a number in a script.
-/

namespace Es5

/-- How numbers are written. -/
structure NumberStyle where
  /-- The least exponent written positionally. -/
  lowest : Int
  /-- The greatest exponent written positionally. -/
  highest : Int
  /-- Written after a whole number in positional form. -/
  wholeEnd : String
  /-- Written before an exponent that is not negative. -/
  exponentPlus : String
  /-- Whether negative zero shows its sign. -/
  signedZero : Bool
  /-- The text of positive infinity. -/
  infinity : String

/-- Script text: positional from `10 ^ (-6)` to below `10 ^ 21`, and `1e+21` beyond. -/
def NumberStyle.script : NumberStyle := ⟨-6, 20, "", "+", false, "Infinity"⟩

/-- The text in records of values: `1.0`, positional from `10 ^ (-4)` to below `10 ^ 16`. -/
def NumberStyle.record : NumberStyle := ⟨-4, 15, ".0", "", true, "inf"⟩

/-- The text in messages: always positional, and whole numbers end in `.0`. -/
def NumberStyle.plain : NumberStyle := ⟨-400, 400, ".0", "", true, "inf"⟩

namespace Double

/-- The digits of a natural as characters. -/
def digitChars (n : Nat) : List Char := Nat.toDigits 10 n

/-- `count` zeros. -/
def zeros (count : Int) : List Char := List.replicate count.toNat '0'

/-- A decimal in positional form. -/
def positional (style : NumberStyle) (d : Scientific) : List Char :=
  let digits := digitChars d.digits
  let point := d.exponent + 1
  if point ≤ 0 then '0' :: '.' :: (zeros (-point) ++ digits)
  else if (digits.length : Int) ≤ point then
    digits ++ zeros (point - digits.length) ++ style.wholeEnd.toList
  else digits.take point.toNat ++ '.' :: digits.drop point.toNat

/-- A decimal with an exponent. -/
def exponential (style : NumberStyle) (d : Scientific) : List Char :=
  let mantissa := match digitChars d.digits with
    | [] => []
    | [c] => [c]
    | c :: rest => c :: '.' :: rest
  let exponent := match d.exponent with
    | .ofNat e => style.exponentPlus.toList ++ digitChars e
    | .negSucc e => '-' :: digitChars (e + 1)
  mantissa ++ 'e' :: exponent

/-- The text of the magnitude of a rank. -/
def writeMagnitude (style : NumberStyle) (rank : Nat) : List Char :=
  if rank = 0 then '0' :: style.wholeEnd.toList
  else
    let d := shortest rank
    if style.lowest ≤ d.exponent ∧ d.exponent ≤ style.highest then positional style d
    else exponential style d

/-- The text of a number. -/
def write (style : NumberStyle) : Double → String
  | nan => "NaN"
  | infinity negative => (if negative then "-" else "") ++ style.infinity
  | finite negative rank =>
    let sign := if negative && (style.signedZero || rank.val != 0) then "-" else ""
    sign ++ String.ofList (writeMagnitude style rank.val)

/-! ## Script text -/

/-- The magnitude of a finite number, in units. -/
def magnitude : Double → Nat
  | finite _ rank => units rank.val
  | _ => 0

/-- From `2 ^ 53` on not every natural is a double. -/
def exactLimit : Double := ofNat (Nat.pow 2 53)

/-- From `1e21` on numbers have an exponent. -/
def exponentLimit : Double := ofDecimal false 1 21

/-- Below `1e-6` numbers have an exponent. -/
def fractionLimit : Double := ofDecimal false 1 (-6)

/-- Shortest digits, with zeros up to the point. -/
def paddedDigits (d : Scientific) : List Char :=
  let digits := digitChars d.digits
  digits ++ zeros (d.exponent + 1 - digits.length)

/-- The text of a magnitude other than zero. Whole numbers are exact while every natural is. -/
def scriptMagnitude (rank : Nat) : List Char :=
  if isWhole rank ∧ units rank < exponentLimit.magnitude then
    if units rank < exactLimit.magnitude then digitChars (wholePart rank)
    else paddedDigits (shortest rank)
  else if exponentLimit.magnitude ≤ units rank ∨ units rank < fractionLimit.magnitude then
    exponential .script (shortest rank)
  else positional .script (shortest rank)

/-- The text of a number in a script. -/
def scriptText (x : Double) : String :=
  if x.isZero then "0"
  else match x with
    | nan => "NaN"
    | infinity negative => if negative then "-Infinity" else "Infinity"
    | finite negative rank =>
      (if negative then "-" else "") ++ String.ofList (scriptMagnitude rank.val)

end Double

end Es5
