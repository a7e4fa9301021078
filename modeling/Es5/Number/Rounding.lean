import Es5.Number.Double

/-!
# Rounding to the nearest double

A ratio of naturals, read as a count of units, is rounded to the nearest magnitude, and a tie goes
to the even significand. Past the largest finite magnitude the result is infinite.

* `roundHalfEven`: a quotient to the nearest natural.
* `Double.nearest`: the double nearest to a ratio of units.
* `Double.ofNat`, `Double.ofInt`, `Double.ofDecimal`: the doubles nearest to exact values.
* `Double.truncate`, `Double.toUint32`, `Double.clampUint32`, `Double.toInt`: whole parts.
-/

namespace Es5

/-- The natural nearest to `num / den`; a tie goes to the even one. -/
def roundHalfEven (num den : Nat) : Nat :=
  let floor := num / den
  let rest := num % den
  if 2 * rest < den then floor
  else if den < 2 * rest then floor + 1
  else floor + floor % 2

namespace Double

/-- The rank of the magnitude nearest to `num / den` units; it may be past the finite ones. -/
def nearestRank (num den : Nat) : Nat :=
  let scale := (num / den).log2 - 52
  scale * binade + roundHalfEven num (den * Nat.pow 2 scale)

/-- The double nearest to `num / den` units, with the given sign. -/
def nearest (negative : Bool) (num den : Nat) : Double := ofRank negative (nearestRank num den)

/-- The double nearest to a natural number. -/
def ofNat (n : Nat) : Double := nearest false (n * unitsPerOne) 1

/-- The double nearest to an integer; zero is positive. -/
def ofInt (i : Int) : Double := nearest (i < 0) (i.natAbs * unitsPerOne) 1

/-! ## Decimals -/

/-- The number of decimal digits of a natural. -/
def decimalLength (n : Nat) : Nat := (Nat.toDigits 10 n).length

/--
The double nearest to `digits * 10 ^ exponent`. Decimals from `10 ^ 310` on are past every finite
double, and those below `10 ^ (-330)` are nearer to zero than to the least magnitude.
-/
def ofDecimal (negative : Bool) (digits : Nat) (exponent : Int) : Double :=
  let point := decimalLength digits + exponent
  if digits = 0 then ofRank negative 0
  else if 310 < point then .infinity negative
  else if point < -330 then ofRank negative 0
  else match exponent with
    | .ofNat e => nearest negative (digits * Nat.pow 10 e * unitsPerOne) 1
    | .negSucc e => nearest negative (digits * unitsPerOne) (Nat.pow 10 (e + 1))

/-! ## Whole parts -/

/-- The whole part of the magnitude of a rank. -/
def wholePart (rank : Nat) : Nat := units rank / unitsPerOne

/-- Whether the magnitude of a rank is whole. -/
def isWhole (rank : Nat) : Bool := units rank % unitsPerOne == 0

/-- The whole part with the sign kept, so that a fraction below zero becomes negative zero. -/
def truncate : Double → Double
  | finite negative rank => nearest negative (wholePart rank.val * unitsPerOne) 1
  | x => x

/-- The first natural that takes more than 32 bits. -/
def wordLimit : Nat := Nat.pow 2 32

/-- The whole part modulo `2 ^ 32`; zero for what is not finite. -/
def toUint32 : Double → Nat
  | finite false rank => wholePart rank.val % wordLimit
  | finite true rank => (wordLimit - wholePart rank.val % wordLimit) % wordLimit
  | _ => 0

/-- The whole part held between `0` and `2 ^ 32 - 1`. -/
def clampUint32 : Double → Nat
  | finite false rank => min (wholePart rank.val) (wordLimit - 1)
  | infinity false => wordLimit - 1
  | _ => 0

/-- The whole part as an integer, with the infinities at distance `far` and not-a-number at zero. -/
def toInt (far : Nat) : Double → Int
  | nan => 0
  | infinity negative => if negative then -(far : Int) else far
  | finite negative rank => if negative then -(wholePart rank.val : Int) else wholePart rank.val

end Double

end Es5
