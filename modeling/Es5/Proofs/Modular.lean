import Es5.Proofs.Truncation
import Es5.Proofs.Writes
import Mathlib.Data.Int.ModEq
import Mathlib.Data.Rat.Floor

/-!
# Words of 32 bits

A number is turned into a word by three operations on doubles: its fraction is cut off, a remainder
is taken and made non-negative, and that is held between the ends of a word. Each of them rounds or
saturates in general, and none does here, however large the number is.

* `Double.value?`, `truncated`: the exact value of a number, and its whole part.
* `Double.remainderUp`, `Double.wordOf`: the remainder, and the word, computed in doubles.
* `Double.toUint32_emod`: the word is the whole part modulo `2 ^ 32`.
* `Double.Amounts.remainderUp`: the remainder is not rounded.
* **`Eval.toUint32_number`**: the word of a number, and the numbers that are lengths.
-/

namespace Es5

/-- The whole part of a rational, toward zero. -/
def truncated (q : ℚ) : Int := if 0 ≤ q then ⌊q⌋ else ⌈q⌉

namespace Double

/-! ## Exact values -/

/-- The magnitude of a rank as a rational. -/
def amount (rank : Nat) : ℚ := units rank / unitsPerOne

/-- The exact value of a finite number. -/
def value? : Double → Option ℚ
  | finite false rank => some (amount rank.val)
  | finite true rank => some (-amount rank.val)
  | _ => none

/-! ## Operations on doubles -/

/-- Whether a number is below zero, which negative zero is not. -/
def isBelowZero (x : Double) : Bool := x.isNegative && !x.isZero

/-- A magnitude in units, with a sign. -/
def signedUnits (negative : Bool) (rank : Nat) : Int :=
  if negative then -(units rank : Int) else units rank

/-- The sum of two numbers, rounded to the nearest double. -/
def add : Double → Double → Double
  | nan, _ => nan
  | _, nan => nan
  | infinity m, infinity n => if m = n then infinity m else nan
  | infinity m, finite _ _ => infinity m
  | finite _ _, infinity n => infinity n
  | finite m r, finite n s =>
    let sum := signedUnits m r.val + signedUnits n s.val
    if sum = 0 then ofRank (m && n) 0 else nearest (sum < 0) sum.natAbs 1

/-- The remainder of a division, with the sign of the dividend, rounded to the nearest double. -/
def remainder : Double → Double → Double
  | finite m r, finite _ s => if s.val = 0 then nan else nearest m (units r.val % units s.val) 1
  | finite m r, infinity _ => finite m r
  | _, _ => nan

/-- The remainder of a division, raised by the divisor if it is below zero. -/
def remainderUp (x y : Double) : Double :=
  let r := x.remainder y
  if r.isBelowZero then r.add (y.withSign false) else r

/-- The word of a number, computed in doubles; zero for zeros and for what is not finite. -/
def wordOf : Double → Nat
  | finite negative rank =>
    if rank.val = 0 then 0
    else ((finite negative rank).truncate.remainderUp (ofNat wordLimit)).clampUint32
  | _ => 0

/-! ## Values that are whole -/

@[simp]
theorem value?_false (rank : Fin rankLimit) :
    (finite false rank).value? = some (amount rank.val) := rfl

@[simp]
theorem value?_true (rank : Fin rankLimit) :
    (finite true rank).value? = some (-amount rank.val) := rfl

theorem amount_nonneg (rank : Nat) : 0 ≤ amount rank :=
  div_nonneg (Nat.cast_nonneg _) (Nat.cast_nonneg _)

theorem amount_eq_natCast_iff {rank n : Nat} :
    amount rank = n ↔ units rank = n * unitsPerOne := by
  have hpos : (unitsPerOne : ℚ) ≠ 0 :=
    Nat.cast_ne_zero.mpr (Nat.pos_iff_ne_zero.mp unitsPerOne_pos)
  rw [amount, div_eq_iff hpos, ← Nat.cast_mul, Nat.cast_inj]

/-- A number has a natural as value exactly if it amounts to it. -/
theorem value?_eq_natCast_iff {x : Double} {n : Nat} :
    x.value? = some (n : ℚ) ↔ x.Amounts n := by
  constructor
  · intro h
    rcases x with _ | _ | ⟨_ | _, rank⟩
    · cases h
    · cases h
    · rw [value?_false, Option.some_inj, amount_eq_natCast_iff] at h
      exact ⟨false, rank, rfl, h, nofun⟩
    · rw [value?_true, Option.some_inj] at h
      have hamount := amount_nonneg rank.val
      have hn : (0 : ℚ) ≤ n := Nat.cast_nonneg n
      have hzero : amount rank.val = n := by linarith
      have hn0 : (n : ℚ) = 0 := by linarith
      exact ⟨true, rank, rfl, amount_eq_natCast_iff.mp hzero, fun _ => Nat.cast_eq_zero.mp hn0⟩
  · rintro ⟨_ | _, rank, rfl, hunits, hnegative⟩
    · rw [value?_false, amount_eq_natCast_iff.mpr hunits]
    · rw [value?_true, amount_eq_natCast_iff.mpr hunits, hnegative rfl, Nat.cast_zero, neg_zero]

/-- The whole part of the exact value. -/
theorem truncated_of_value? {x : Double} {q : ℚ} (h : x.value? = some q) :
    truncated q = x.toInt 0 := by
  rcases x with _ | _ | ⟨negative, rank⟩
  · cases h
  · cases h
  · have hfloor : ⌊amount rank.val⌋ = (wholePart rank.val : Int) :=
      Rat.floor_natCast_div_natCast _ _
    have hamount := amount_nonneg rank.val
    cases negative with
    | false =>
      rw [value?_false, Option.some_inj] at h
      rw [← h, truncated, if_pos hamount, hfloor, toInt, if_neg Bool.false_ne_true]
    | true =>
      rw [value?_true, Option.some_inj] at h
      rw [← h, toInt, if_pos rfl, ← hfloor, truncated]
      by_cases hzero : amount rank.val = 0
      · simp [hzero]
      · have hbelow : ¬0 ≤ -amount rank.val := by
          have := lt_of_le_of_ne hamount (Ne.symm hzero)
          linarith
        rw [if_neg hbelow, Int.ceil_neg]

/-- **The word of a number is its whole part modulo `2 ^ 32`.** -/
theorem toUint32_emod (x : Double) : (x.toUint32 : Int) = x.toInt 0 % 2 ^ 32 := by
  have hlimit : wordLimit = 4294967296 := rfl
  rcases x with _ | _ | ⟨_ | _, rank⟩
  · rfl
  · rename_i negative
    cases negative <;> rfl
  · simp only [toUint32, toInt, hlimit, Bool.false_eq_true, if_false]
    omega
  · simp only [toUint32, toInt, hlimit, if_true]
    omega

/-! ## Operations that are exact -/

theorem nearest_whole (negative : Bool) {n : Nat} (hn : n < 2 * binade) :
    ∃ rank, nearest negative (n * unitsPerOne) 1 = .finite negative rank ∧
      units rank.val = n * unitsPerOne := by
  obtain ⟨hunits, hlt⟩ := units_nearestRank hn
  exact ⟨⟨_, hlt⟩, by rw [nearest, ofRank, dif_pos hlt], hunits⟩

/-- A whole part is not rounded when it is made a double. -/
theorem truncate_finite (negative : Bool) (rank : Fin rankLimit) :
    ∃ rank', (finite negative rank).truncate = .finite negative rank' ∧
      units rank'.val = wholePart rank.val * unitsPerOne := by
  obtain ⟨hlimit, hunits⟩ := units_nearestRank_wholePart rank
  exact ⟨⟨_, hlimit⟩, by rw [truncate, nearest, ofRank, dif_pos hlimit], hunits⟩

theorem value?_truncate (negative : Bool) (rank : Fin rankLimit) :
    (finite negative rank).truncate.value? = some ((finite negative rank).toInt 0 : ℚ) := by
  obtain ⟨rank', hrank', hunits⟩ := truncate_finite negative rank
  have hamount := amount_eq_natCast_iff.mpr hunits
  rw [hrank', toInt]
  cases negative <;> simp [hamount]

theorem wordLimit_lt : wordLimit < 2 * binade := by decide

variable {rank : Fin rankLimit} {m : Nat}

/-- The remainder of a whole number is not rounded. -/
theorem remainder_wordLimit (negative : Bool) (hunits : units rank.val = m * unitsPerOne) :
    ∃ rank', (finite negative rank).remainder (ofNat wordLimit) = .finite negative rank' ∧
      units rank'.val = m % wordLimit * unitsPerOne := by
  obtain ⟨s, hs, hlimit⟩ := nearest_whole false wordLimit_lt
  have hmod : m % wordLimit < wordLimit := Nat.mod_lt m (by decide)
  obtain ⟨rank', hrank', hunits'⟩ := nearest_whole negative (Nat.lt_trans hmod wordLimit_lt)
  have hs0 : s.val ≠ 0 := by
    intro h0
    have hpos : 0 < wordLimit * unitsPerOne := Nat.mul_pos (by decide) unitsPerOne_pos
    have hzero : units 0 = 0 := Nat.zero_mul _
    rw [h0, hzero] at hlimit
    omega
  refine ⟨rank', ?_, hunits'⟩
  rw [ofNat, hs, remainder, if_neg hs0, hunits, hlimit, Nat.mul_mod_mul_right, hrank']

/-- A whole number below zero is raised without rounding. -/
theorem add_whole {s : Fin rankLimit} {k n : Nat} (hr : units rank.val = k * unitsPerOne)
    (hs : units s.val = (k + n) * unitsPerOne) (hpos : 0 < n) (hn : n < 2 * binade) :
    ((finite true rank).add (finite false s)).Amounts n := by
  obtain ⟨t, ht, hunits⟩ := nearest_whole false hn
  have hsum : signedUnits true rank.val + signedUnits false s.val = (n * unitsPerOne : Nat) := by
    rw [signedUnits, signedUnits, if_pos rfl, if_neg Bool.false_ne_true, hr, hs, Nat.add_mul]
    generalize k * unitsPerOne = a
    generalize n * unitsPerOne = b
    omega
  have hne : ((n * unitsPerOne : Nat) : Int) ≠ 0 :=
    Int.natCast_ne_zero.mpr (Nat.pos_iff_ne_zero.mp (Nat.mul_pos hpos unitsPerOne_pos))
  have hsign : decide (((n * unitsPerOne : Nat) : Int) < 0) = false :=
    decide_eq_false (not_lt.mpr (Int.natCast_nonneg _))
  refine ⟨false, t, ?_, hunits, nofun⟩
  simp only [add, hsum]
  rw [if_neg hne, hsign, Int.natAbs_natCast, ht]

/-- **The remainder of a whole number is the word**: it is not rounded when it is raised either. -/
theorem remainderUp_wordLimit (negative : Bool) (hunits : units rank.val = m * unitsPerOne) :
    ((finite negative rank).remainderUp (ofNat wordLimit)).Amounts
      (finite negative rank).toUint32 := by
  have hwhole : wholePart rank.val = m := by
    rw [wholePart, hunits, Nat.mul_div_cancel _ unitsPerOne_pos]
  have hmod : m % wordLimit < wordLimit := Nat.mod_lt m (by decide)
  obtain ⟨rank', hrank', hunits'⟩ := remainder_wordLimit negative hunits
  rw [remainderUp, hrank']
  cases negative with
  | false =>
    refine ⟨false, rank', rfl, ?_, fun h => absurd h Bool.false_ne_true⟩
    rw [toUint32, hwhole, hunits']
  | true =>
    have hzero : rank'.val = 0 ↔ m % wordLimit = 0 := by
      have hunits0 : units 0 = 0 := Nat.zero_mul _
      have hpos := unitsPerOne_pos
      rw [← units_strictMono.injective.eq_iff, hunits0, hunits', Nat.mul_eq_zero,
        or_iff_left hpos.ne']
    have hbelow : (finite true rank').isBelowZero = !decide (m % wordLimit = 0) := by
      simp only [isBelowZero, isNegative, isZero, Bool.true_and, ← hzero]
      rfl
    simp only [hbelow, toUint32, hwhole]
    by_cases h0 : m % wordLimit = 0
    · refine ⟨true, rank', by simp [h0], ?_, fun _ => by simp [h0]⟩
      rw [hunits', h0, Nat.sub_zero, Nat.mod_self]
    · obtain ⟨s, hs, hlimit⟩ := nearest_whole false wordLimit_lt
      have hword : (wordLimit - m % wordLimit) % wordLimit = wordLimit - m % wordLimit :=
        Nat.mod_eq_of_lt (by omega)
      rw [hword, decide_eq_false h0, Bool.not_false, if_pos rfl, ofNat, hs, withSign]
      refine add_whole hunits' ?_ (by omega) (Nat.lt_of_le_of_lt (Nat.sub_le _ _) wordLimit_lt)
      rw [hlimit, Nat.add_sub_cancel' hmod.le]

/-- A word is not held at an end of its range. -/
theorem Amounts.clampUint32 {x : Double} {n : Nat} (hx : x.Amounts n) (hn : n < wordLimit) :
    x.clampUint32 = n := by
  obtain ⟨negative, rank, rfl, hunits, hnegative⟩ := hx
  cases negative with
  | false =>
    show min (wholePart rank.val) (wordLimit - 1) = n
    rw [wholePart, hunits, Nat.mul_div_cancel _ unitsPerOne_pos]
    exact Nat.min_eq_left (by omega)
  | true => exact (hnegative rfl).symm

theorem toUint32_lt (x : Double) : x.toUint32 < wordLimit := by
  have := toUint32_le x
  rw [wordLimit_eq]
  omega

/-- Cutting off the fraction does not change the word. -/
theorem toUint32_truncated {rank' : Fin rankLimit} (negative : Bool)
    (hunits : units rank'.val = wholePart rank.val * unitsPerOne) :
    (finite negative rank').toUint32 = (finite negative rank).toUint32 := by
  have hwhole : wholePart rank'.val = wholePart rank.val := by
    rw [wholePart, hunits, Nat.mul_div_cancel _ unitsPerOne_pos]
  cases negative <;> simp only [toUint32, hwhole]

/-- The word computed in doubles is the exact one. -/
theorem wordOf_eq (x : Double) : x.wordOf = x.toUint32 := by
  rcases x with _ | _ | ⟨negative, rank⟩
  · rfl
  · rfl
  · by_cases h0 : rank.val = 0
    · have hword : (finite negative rank).toUint32 = 0 := by
        cases negative <;> simp [toUint32, h0, wholePart_zero]
      rw [wordOf, if_pos h0, hword]
    · obtain ⟨rank', hrank', hunits⟩ := truncate_finite negative rank
      rw [wordOf, if_neg h0, hrank', (remainderUp_wordLimit negative hunits).clampUint32
        (toUint32_lt _), toUint32_truncated negative hunits]

end Double

/-! ## Words and lengths of numbers -/

/-- A number is a length exactly if its value is a natural of 32 bits. -/
theorem Value.length?_number_iff {x : Double} {n : Nat} :
    (Value.number x).length? = some n ↔ n ≤ maxLength ∧ x.value? = some (n : ℚ) := by
  rw [Double.value?_eq_natCast_iff, ← Double.equal_ofNat_toUint32_iff]
  rw [Value.length?, Option.ite_none_right_eq_some, Option.some_inj]
  rfl

namespace Eval

variable {κ σ : Type}

/--
**The word of a number is exact.** It is the one integer of 32 bits that is congruent to the whole
part of the number, whatever its sign and magnitude, and zero for a number that is not finite.
Computed in doubles it is the same, because neither the whole part nor the remainder is rounded. So
a number is accepted as a length exactly if it is an integer of 32 bits.
-/
theorem toUint32_number (caller : Caller κ σ) (x : Double) (w : World κ σ) :
    toUint32 caller (.number x) w = .ok x.toUint32 w ∧ x.toUint32 = x.wordOf ∧
    (x.value? = none → x.toUint32 = 0) ∧
    (∀ q, x.value? = some q →
      (∀ r : Int, 0 ≤ r ∧ r < 2 ^ 32 ∧ r ≡ truncated q [ZMOD 2 ^ 32] ↔ r = x.toUint32) ∧
      x.truncate.value? = some (truncated q : ℚ) ∧
      (x.truncate.remainderUp (.ofNat Double.wordLimit)).value? =
        some ((truncated q % 2 ^ 32 : Int) : ℚ)) ∧
    (∀ n, lengthOf caller (.number x) w = .ok n w ↔ n ≤ maxLength ∧ x.value? = some (n : ℚ)) ∧
    (lengthOf caller (.number x) w = .error (.threw .invalidLength) w ↔
      ∀ n : Nat, n ≤ maxLength → x.value? ≠ some (n : ℚ)) := by
  have hlength : lengthOf caller (.number x) w = _ := lengthOf_plain rfl
  refine ⟨rfl, x.wordOf_eq.symm, fun hnone => ?_, fun q hq => ⟨fun r => ?_, ?_, ?_⟩,
    fun n => ?_, ?_⟩
  · rcases x with _ | _ | ⟨_ | _, rank⟩
    · rfl
    · rfl
    · cases hnone
    · cases hnone
  · rw [Double.truncated_of_value? hq, Int.ModEq, ← x.toUint32_emod]
    have hword := x.toUint32_lt
    have hlimit : Double.wordLimit = 4294967296 := rfl
    omega
  · rw [Double.truncated_of_value? hq]
    rcases x with _ | _ | ⟨negative, rank⟩
    · cases hq
    · cases hq
    · exact Double.value?_truncate negative rank
  · rw [Double.truncated_of_value? hq, ← x.toUint32_emod]
    rcases x with _ | _ | ⟨negative, rank⟩
    · cases hq
    · cases hq
    · obtain ⟨rank', hrank', hunits⟩ := Double.truncate_finite negative rank
      have hamounts := Double.remainderUp_wordLimit negative hunits
      rw [Double.toUint32_truncated negative hunits] at hamounts
      rw [hrank', Int.cast_natCast]
      exact Double.value?_eq_natCast_iff.mpr hamounts
  · rw [← Value.length?_number_iff, hlength]
    cases (Value.number x).length? <;> simp
  · simp only [← not_and, ← Value.length?_number_iff, hlength]
    cases (Value.number x).length? <;> simp

/-- Far below zero, with a fraction: `-(2 ^ 32 + 1) - 1 / 2` is the last word, and no length. -/
theorem toUint32_number_below :
    let x : Double := .ofDecimal true 42949672975 (-1)
    let caller : Caller Unit Unit := fun _ _ _ => throw .exhausted
    x.value? = some (-8589934595 / 2) ∧ x.toUint32 = 2 ^ 32 - 1 ∧
      lengthOf caller (.number x) ⟨#[], ()⟩ = .error (.threw .invalidLength) ⟨#[], ()⟩ := by
  intro x caller
  have hvalue : x.value? = some (-8589934595 / 2) := by decide +kernel
  have htruncated : truncated (-8589934595 / 2) = -(2 ^ 32 + 1) := by decide +kernel
  obtain ⟨-, -, -, hword, -, hlength⟩ := toUint32_number caller x ⟨#[], ()⟩
  refine ⟨hvalue, ?_, hlength.mpr fun n _ hn => ?_⟩
  · have hlast : ((2 ^ 32 - 1 : Nat) : Int) = x.toUint32 := by
      refine ((hword _ hvalue).1 _).mp ⟨by decide, by decide, ?_⟩
      rw [htruncated]
      decide
    exact_mod_cast hlast.symm
  · rw [hvalue, Option.some_inj] at hn
    have hnonneg : (0 : ℚ) ≤ n := Nat.cast_nonneg n
    linarith

end Eval

end Es5
