/-!
# Double-precision numbers

A finite binary64 number is a sign and a *rank*: magnitudes are numbered in order of size, from `0`
for zero, so a rank is also the bit pattern that stores the magnitude. Every finite magnitude is a
whole number of *units* of `2 ^ (-1074)`, which lets all arithmetic below be done on `Nat`.

* `Double`: not-a-number, the two infinities, and the finite numbers.
* `Double.units`: the magnitude of a rank, counted in units.
* `Double.ofBits`, `Double.toBits`: the stored form.
* `Double.equal`, `Double.same`: the two equalities, which differ on not-a-number and on zeros.
-/

namespace Es5

/-- How many ranks lie from one power of two to the next. -/
def binade : Nat := Nat.pow 2 52

/-- The rank after that of the largest finite magnitude. -/
def rankLimit : Nat := 2047 * binade

/-- The bit that stores a minus sign. -/
def signBit : Nat := Nat.pow 2 63

/-- A binary64 number; all not-a-number patterns count as one. -/
inductive Double where
  | nan
  | infinity (negative : Bool)
  | finite (negative : Bool) (rank : Fin rankLimit)
  deriving DecidableEq

namespace Double

/-! ## Magnitudes -/

/-- The significand of a rank, below `2 ^ 53`. -/
def significand (rank : Nat) : Nat :=
  if rank < binade then rank else binade + rank % binade

/-- The power of two that scales the significand of a rank. -/
def scale (rank : Nat) : Nat := rank / binade - 1

/-- The magnitude of a rank in units of `2 ^ (-1074)`. -/
def units (rank : Nat) : Nat := significand rank * Nat.pow 2 (scale rank)

/-- How many units make one. -/
def unitsPerOne : Nat := Nat.pow 2 1074

/-- The number of a sign and a rank; ranks past the finite ones are infinite. -/
def ofRank (negative : Bool) (rank : Nat) : Double :=
  if h : rank < rankLimit then .finite negative ⟨rank, h⟩ else .infinity negative

/-- Positive zero. -/
def zero : Double := ofRank false 0

/-! ## Stored form -/

/-- The number stored as 64 bits. -/
def ofBits (bits : Nat) : Double :=
  let rank := bits % signBit
  if rankLimit < rank then .nan else ofRank (signBit ≤ bits % (2 * signBit)) rank

/-- The 64 bits that store a number; not-a-number is stored as its quiet pattern. -/
def toBits : Double → Nat
  | nan => rankLimit + binade / 2
  | infinity negative => (if negative then signBit else 0) + rankLimit
  | finite negative rank => (if negative then signBit else 0) + rank.val

/-! ## Tests and sign -/

/-- Whether this is not-a-number. -/
def isNaN : Double → Bool
  | nan => true
  | _ => false

/-- Whether this is a zero of either sign. -/
def isZero : Double → Bool
  | finite _ rank => rank.val == 0
  | _ => false

/-- Whether the sign is minus; not-a-number has none. -/
def isNegative : Double → Bool
  | nan => false
  | infinity negative => negative
  | finite negative _ => negative

/-- The same magnitude with the given sign. -/
def withSign (negative : Bool) : Double → Double
  | nan => nan
  | infinity _ => infinity negative
  | finite _ rank => finite negative rank

/-! ## Equality -/

/-- Numeric equality: not-a-number equals nothing, and the two zeros are equal. -/
def equal (x y : Double) : Bool :=
  !x.isNaN && ((x.isZero && y.isZero) || x == y)

/-- Identity of numbers: not-a-number is itself, and the two zeros differ. -/
def same (x y : Double) : Bool := x == y

theorem equal_self {x : Double} (h : x.isNaN = false) : x.equal x = true := by
  simp [equal, h]

theorem same_iff {x y : Double} : x.same y = true ↔ x = y := by simp [same]

end Double

end Es5
