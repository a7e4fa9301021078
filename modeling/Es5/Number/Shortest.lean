import Es5.Number.Double

/-!
# The shortest decimal of a double

The decimals that read back as a given double fill an interval around it. Of the decimals in that
interval the ones with the fewest digits are taken, of these the nearest to the double, and of two
equally near the greater.

* `Scientific`: the digits of a decimal and the exponent of the first of them.
* `Double.Reads`: the interval of a rank, in quarter units.
* `Double.shortest`: the digits of the magnitude of a rank.
-/

namespace Es5

/-- The decimal `d₁.d₂d₃… · 10 ^ exponent`, where `digits` spells `d₁d₂d₃…` with no last zero. -/
structure Scientific where
  digits : Nat
  exponent : Int
  deriving DecidableEq, Repr

namespace Double

/-- The lower end, in quarter units, of the reals nearest to the magnitude of `rank`. -/
def lowerEnd (rank : Nat) : Nat :=
  let step := Nat.pow 2 (scale rank)
  if significand rank = binade ∧ 0 < scale rank then 4 * units rank - step
  else 4 * units rank - 2 * step

/-- The upper end, in quarter units, of the reals nearest to the magnitude of `rank`. -/
def upperEnd (rank : Nat) : Nat := 4 * units rank + 2 * Nat.pow 2 (scale rank)

/-- Whether `num / den` quarter units read as the magnitude of `rank`; an even rank has its ends. -/
def Reads (rank num den : Nat) : Prop :=
  if rank % 2 = 0 then lowerEnd rank * den ≤ num ∧ num ≤ upperEnd rank * den
  else lowerEnd rank * den < num ∧ num < upperEnd rank * den

instance (rank num den : Nat) : Decidable (Reads rank num den) := by
  unfold Reads; infer_instance

/--
Decimals are counted in units of `10 ^ (-gridPlaces)`, fine enough for seventeen digits of the least
magnitude.
-/
def gridPlaces : Nat := 341

/-- Quarter units in one. -/
def quartersPerOne : Nat := Nat.pow 2 1076

/--
The multiple of `10 ^ (drop - gridPlaces)` that reads as `rank` and is nearest to it, if one of the
two neighbours of the magnitude does; of two equally near the greater.
-/
def onGrid (rank drop : Nat) : Option Nat :=
  let num := 4 * units rank * Nat.pow 10 gridPlaces
  let den := quartersPerOne * Nat.pow 10 drop
  let floor := num / den
  let reads (n : Nat) : Bool := Reads rank (n * den) (Nat.pow 10 gridPlaces)
  match reads floor, reads (floor + 1) with
  | true, true => some (if 2 * (num % den) < den then floor else floor + 1)
  | true, false => some floor
  | false, true => some (floor + 1)
  | false, false => none

/-- A natural without its last zeros, and their number; at most `fuel` are removed. -/
def dropZeros : Nat → Nat → Nat × Nat
  | 0, n => (n, 0)
  | fuel + 1, n =>
    if n % 10 = 0 ∧ n ≠ 0 then
      let (m, k) := dropZeros fuel (n / 10)
      (m, k + 1)
    else (n, 0)

/-- The digits of `n · 10 ^ (drop - gridPlaces)`. -/
def scientific (n drop : Nat) : Scientific :=
  let length := (Nat.toDigits 10 n).length
  ⟨(dropZeros length n).1, (length : Int) - 1 + drop - gridPlaces⟩

/-- Tries grids of more and more digits: first the one that drops `drop` places, then finer ones. -/
def searchGrids (rank : Nat) : Nat → Scientific
  | 0 => scientific (4 * units rank * Nat.pow 10 gridPlaces / quartersPerOne) 0
  | drop + 1 =>
    match onGrid rank (drop + 1) with
    | some n => scientific n (drop + 1)
    | none => searchGrids rank drop

/-- The shortest decimal that reads as the magnitude of a rank, which must not be zero. -/
def shortest (rank : Nat) : Scientific :=
  let whole := 4 * units rank * Nat.pow 10 gridPlaces / quartersPerOne
  searchGrids rank ((Nat.toDigits 10 whole).length - 1)

end Double

end Es5
