import Es5.Eval.Conversion
import Es5.Proofs.ScriptText
import Mathlib.Algebra.Order.Monoid.WithTop

/-!
# Whole parts are exact

The whole part of a finite number is again a double: below `2 ^ 53` every natural is one, and from
there on every number is whole. So the conversion to a whole number does not round, and whatever is
computed from its result is computed from the whole part itself.

* `ExtendedInt`: the integers with both infinities.
* `Double.whole`: the whole part of a number in them.
* `Double.isWhole_of_le`: the numbers that have no fraction.
* **`Double.toInteger_finite`**: the conversion keeps the whole part.
* `Double.toInt64`: the whole part in a word of 64 bits.
-/

namespace Es5

/-- The integers with both infinities. -/
def ExtendedInt := WithBot (WithTop Int)

namespace ExtendedInt

/-- An integer among the extended ones. -/
def ofInt (n : Int) : ExtendedInt := ((n : WithTop Int) : WithBot (WithTop Int))

instance : LinearOrder ExtendedInt :=
  @WithBot.linearOrder (WithTop Int) (@WithTop.linearOrder Int Int.instLinearOrder)

instance : Add ExtendedInt := @WithBot.add (WithTop Int) (@WithTop.add Int ⟨Int.add⟩)

instance : Zero ExtendedInt := ⟨ofInt 0⟩

instance : Bot ExtendedInt := ⟨(⊥ : WithBot (WithTop Int))⟩

instance : Top ExtendedInt := ⟨((⊤ : WithTop Int) : WithBot (WithTop Int))⟩

variable {m n : Int}

@[simp]
theorem ofInt_le_ofInt : ofInt m ≤ ofInt n ↔ m ≤ n :=
  WithBot.coe_le_coe.trans WithTop.coe_le_coe

@[simp]
theorem ofInt_nonneg : 0 ≤ ofInt n ↔ 0 ≤ n := ofInt_le_ofInt (m := 0)

@[simp]
theorem ofInt_add_ofInt : ofInt m + ofInt n = ofInt (m + n) := rfl

@[simp]
theorem ofInt_add_bot : ofInt n + ⊥ = ⊥ := rfl

theorem bot_lt_ofInt : ⊥ < ofInt n := WithBot.bot_lt_coe _

theorem ofInt_lt_top : ofInt n < ⊤ := WithBot.coe_lt_coe.mpr (WithTop.coe_lt_top n)

theorem not_nonneg_bot : ¬(0 : ExtendedInt) ≤ ⊥ := not_le_of_gt bot_lt_ofInt

theorem nonneg_top : (0 : ExtendedInt) ≤ ⊤ := ofInt_lt_top.le

end ExtendedInt

namespace Double

/-- The whole part of a number; not-a-number has zero. -/
def whole : Double → ExtendedInt
  | infinity negative => if negative then ⊥ else ⊤
  | x => .ofInt (x.toInt 0)

@[simp]
theorem whole_below : (infinity true).whole = ⊥ := rfl

@[simp]
theorem whole_above : (infinity false).whole = ⊤ := rfl

/-! ## Numbers without a fraction -/

theorem wholePart_zero : wholePart 0 = 0 := by
  have hunits : units 0 = 0 := Nat.zero_mul _
  rw [wholePart, hunits, Nat.zero_div]

theorem toInt_zero (far : Nat) : zero.toInt far = 0 := by
  have hzero : zero = .finite false ⟨0, by decide⟩ := rfl
  simp [hzero, toInt, wholePart_zero]

/-- A length is the whole part of its double. -/
theorem toInt_ofNat {n : Nat} (hn : n ≤ maxLength) (far : Nat) : (ofNat n).toInt far = n := by
  obtain ⟨rank, hrank, hwhole⟩ := wholePart_ofNat_length hn
  rw [hrank, toInt, if_neg Bool.false_ne_true, hwhole]

/-- From `2 ^ 53` on a number has no fraction. -/
theorem isWhole_of_le {rank : Nat} (h : 2 * binade ≤ wholePart rank) : isWhole rank = true := by
  obtain ⟨e, -, hunits⟩ := unitsPerOne_eq
  have hle : 2 * binade * unitsPerOne ≤ units rank :=
    (Nat.le_div_iff_mul_le unitsPerOne_pos).mp h
  have hscale : e ≤ scale rank := by
    by_contra hlt
    have hpow : Nat.pow 2 (scale rank) ≤ unitsPerOne := by
      rw [hunits]
      exact Nat.pow_le_pow_right (by omega) (by omega)
    have hfew : units rank < 2 * binade * unitsPerOne := by
      calc units rank < 2 * binade * Nat.pow 2 (scale rank) :=
            Nat.mul_lt_mul_of_pos_right (significand_lt rank) (Nat.pow_pos (by omega))
        _ ≤ 2 * binade * unitsPerOne := Nat.mul_le_mul_left _ hpow
    omega
  have hdvd : unitsPerOne ∣ units rank := by
    rw [hunits]
    exact Nat.dvd_mul_left_of_dvd (Nat.pow_dvd_pow 2 hscale) _
  simpa [isWhole] using Nat.mod_eq_zero_of_dvd hdvd

/-- The whole part of a magnitude is a magnitude, so rounding keeps it. -/
theorem units_nearestRank_wholePart (rank : Fin rankLimit) :
    nearestRank (wholePart rank.val * unitsPerOne) 1 < rankLimit ∧
      units (nearestRank (wholePart rank.val * unitsPerOne) 1) =
        wholePart rank.val * unitsPerOne := by
  by_cases hlt : wholePart rank.val < 2 * binade
  · obtain ⟨hunits, hlimit⟩ := units_nearestRank hlt
    exact ⟨hlimit, hunits⟩
  · have hwhole : isWhole rank.val = true := isWhole_of_le (by omega)
    have hunits := units_of_isWhole hwhole
    have hrank : rank.val ≠ 0 := by
      intro hzero
      have hpos := binade_pos
      rw [hzero, wholePart_zero] at hlt
      omega
    have hreads := reads_units hrank Nat.one_pos
    rw [Nat.mul_one] at hreads
    rw [← hunits, nearestRank_of_reads Nat.one_pos hreads]
    exact ⟨rank.isLt, rfl⟩

/-- **The conversion of a finite number keeps its whole part.** -/
theorem toInteger_finite (negative : Bool) (rank : Fin rankLimit) :
    ∃ rank', (finite negative rank).toInteger = .finite negative rank' ∧
      wholePart rank'.val = wholePart rank.val := by
  obtain ⟨hlimit, hunits⟩ := units_nearestRank_wholePart rank
  refine ⟨⟨_, hlimit⟩, ?_, ?_⟩
  · simp only [toInteger, isNaN, Bool.false_eq_true, if_false, truncate, nearest, ofRank]
    exact dif_pos hlimit
  · rw [wholePart, hunits, Nat.mul_div_cancel _ unitsPerOne_pos]

theorem toInt_toInteger (far : Nat) (x : Double) : x.toInteger.toInt far = x.toInt far := by
  rcases x with _ | negative | ⟨negative, rank⟩
  · exact toInt_zero far
  · simp [toInteger, isNaN, truncate]
  · obtain ⟨rank', hrank', hwhole⟩ := toInteger_finite negative rank
    rw [hrank', toInt, toInt, hwhole]

/-! ## Whole parts beyond the integers -/

/-- The whole part is an integer, unless the number is infinite. -/
theorem whole_cases (far : Nat) (x : Double) :
    x = .infinity true ∨ x = .infinity false ∨ x.whole = .ofInt (x.toInt far) := by
  rcases x with _ | ⟨_ | _⟩ | ⟨negative, rank⟩
  · exact Or.inr (Or.inr rfl)
  · exact Or.inr (Or.inl rfl)
  · exact Or.inl rfl
  · exact Or.inr (Or.inr rfl)

theorem whole_zero : zero.whole = 0 := by
  have hzero : zero = .finite false ⟨0, by decide⟩ := rfl
  rcases whole_cases 0 zero with h | h | h
  · cases hzero.symm.trans h
  · cases hzero.symm.trans h
  · rw [h, toInt_zero]
    rfl

theorem whole_toInteger (x : Double) : x.toInteger.whole = x.whole := by
  rcases x with _ | negative | ⟨negative, rank⟩
  · exact whole_zero
  · simp [toInteger, isNaN, truncate]
  · have hkept := toInt_toInteger 0 (finite negative rank)
    obtain ⟨rank', hrank', -⟩ := toInteger_finite negative rank
    rw [hrank'] at hkept ⊢
    exact congrArg ExtendedInt.ofInt hkept

/-! ## Words of 64 bits -/

/-- The whole part as a word of 64 bits; a part that does not fit goes to the nearer end. -/
def toInt64 (x : Double) : Int64 := Int64.ofIntClamp (x.toInt (Nat.pow 2 63))

theorem toInt_ofIntClamp_cases (n : Int) :
    (Int64.minValue.toInt ≤ n ∧ n ≤ Int64.maxValue.toInt ∧ (Int64.ofIntClamp n).toInt = n) ∨
      (n < Int64.minValue.toInt ∧ (Int64.ofIntClamp n).toInt = Int64.minValue.toInt) ∨
      (Int64.maxValue.toInt < n ∧ (Int64.ofIntClamp n).toInt = Int64.maxValue.toInt) := by
  by_cases hlow : Int64.minValue.toInt ≤ n
  · by_cases hhigh : n ≤ Int64.maxValue.toInt
    · exact Or.inl ⟨hlow, hhigh, Int64.toInt_ofIntClamp hlow hhigh⟩
    · refine Or.inr (Or.inr ⟨by omega, ?_⟩)
      rw [Int64.ofIntClamp, dif_pos hlow, dif_neg hhigh]
  · refine Or.inr (Or.inl ⟨by omega, ?_⟩)
    rw [Int64.ofIntClamp, dif_neg hlow]

/-- The word has the whole part, or both are out of reach of a length on the same side. -/
theorem toInt64_cases {length : Nat} (hlength : length ≤ maxLength) (x : Double) :
    x.toInt64.toInt = x.toInt (length + 1) ∨
      ((length : Int) < x.toInt64.toInt ∧ (length : Int) < x.toInt (length + 1)) ∨
      (x.toInt64.toInt < -length ∧ x.toInt (length + 1) < -length) := by
  have hlimit : maxLength < 2 ^ 62 := by decide
  have hmin : Int64.minValue.toInt = -2 ^ 63 := Int64.toInt_minValue
  have hmax : Int64.maxValue.toInt = 2 ^ 63 - 1 := Int64.toInt_maxValue
  have hfar : Nat.pow 2 63 = 2 ^ 63 := rfl
  have hclamp := toInt_ofIntClamp_cases (x.toInt (Nat.pow 2 63))
  rw [toInt64]
  rcases x with _ | ⟨_ | _⟩ | ⟨negative, rank⟩
  · exact Or.inl rfl
  · simp only [toInt, hfar, Bool.false_eq_true, if_false] at hclamp ⊢
    omega
  · simp only [toInt, hfar, if_true] at hclamp ⊢
    omega
  · simp only [toInt] at hclamp ⊢
    omega

end Double

end Es5
