import Es5.Proofs.Nearest
import Mathlib.Algebra.Group.Nat.Defs

/-!
# Decimals that read as a magnitude

A decimal is a natural and a power of ten. If it reads as the magnitude of a rank then it is rounded
to that rank: it is neither too great nor too small to be looked at.

* `Double.pow_le_of_decimalLength`, `Double.lt_pow_decimalLength`: a natural by its length.
* `Double.ReadsDecimal`: a decimal reads as the magnitude of a rank.
* `Double.readsDecimal_mul_pow`: zeros at the end of a decimal do not matter.
* **`Double.ofDecimal_of_reads`**: a decimal is rounded to the rank that it reads as.
-/

namespace Es5.Double

/-! ## Lengths -/

theorem decimalLength_pos (n : Nat) : 0 < decimalLength n := Nat.length_toDigits_pos

theorem lt_pow_decimalLength (n : Nat) : n < 10 ^ decimalLength n :=
  (Nat.length_toDigits_le_iff (by omega) (decimalLength_pos n)).mp (Nat.le_refl _)

theorem pow_le_of_decimalLength {n : Nat} (hn : n ≠ 0) : 10 ^ (decimalLength n - 1) ≤ n := by
  by_cases hone : decimalLength n = 1
  · rw [hone]
    exact Nat.one_le_iff_ne_zero.mpr hn
  · have hpos := decimalLength_pos n
    refine Nat.le_of_not_lt fun hlt => ?_
    have hle : decimalLength n ≤ decimalLength n - 1 :=
      (Nat.length_toDigits_le_iff (by omega) (by omega)).mpr hlt
    omega

theorem decimalLength_mul_ten {n : Nat} (hn : n ≠ 0) :
    decimalLength (n * 10) = decimalLength n + 1 := by
  rw [decimalLength, Nat.toDigits_of_base_le (by omega) (by omega), List.length_append,
    Nat.mul_div_cancel _ (by omega)]
  rfl

/-! ## Reading -/

/-- The decimal `digits * 10 ^ exponent` reads as the magnitude of `rank`. -/
def ReadsDecimal (rank digits : Nat) (exponent : Int) : Prop :=
  Reads rank (digits * 10 ^ exponent.toNat * quartersPerOne) (10 ^ (-exponent).toNat)

theorem pow_ten_pos (e : Nat) : 0 < 10 ^ e := Nat.pow_pos (by omega)

/-- Zeros at the end of a decimal do not matter. -/
theorem readsDecimal_mul_pow {rank digits k : Nat} {exponent : Int} :
    ReadsDecimal rank (digits * 10 ^ k) exponent ↔ ReadsDecimal rank digits (exponent + k) := by
  have hvalue : digits * 10 ^ k * 10 ^ exponent.toNat * quartersPerOne *
        10 ^ (-(exponent + k)).toNat =
      digits * 10 ^ (exponent + k).toNat * quartersPerOne * 10 ^ (-exponent).toNat := by
    have hpow : 10 ^ k * 10 ^ exponent.toNat * 10 ^ (-(exponent + k)).toNat =
        10 ^ (exponent + k).toNat * 10 ^ (-exponent).toNat := by
      rw [← Nat.pow_add, ← Nat.pow_add, ← Nat.pow_add]
      congr 1
      omega
    calc digits * 10 ^ k * 10 ^ exponent.toNat * quartersPerOne * 10 ^ (-(exponent + k)).toNat
        = digits * (10 ^ k * 10 ^ exponent.toNat * 10 ^ (-(exponent + k)).toNat) *
            quartersPerOne := by
          rw [Nat.mul_right_comm _ quartersPerOne, Nat.mul_assoc digits, Nat.mul_assoc digits]
      _ = digits * 10 ^ (exponent + k).toNat * quartersPerOne * 10 ^ (-exponent).toNat := by
          rw [hpow, Nat.mul_right_comm _ quartersPerOne, Nat.mul_assoc digits _ (10 ^ _)]
  exact ⟨fun h => h.of_mul_eq (pow_ten_pos _) (pow_ten_pos _) hvalue,
    fun h => h.of_mul_eq (pow_ten_pos _) (pow_ten_pos _) hvalue.symm⟩

/-- Greater decimals read as greater ranks. -/
theorem ReadsDecimal.le_of_le {rank digits rank' digits' : Nat} {exponent exponent' : Int}
    (h : ReadsDecimal rank digits exponent) (h' : ReadsDecimal rank' digits' exponent')
    (hle : digits * 10 ^ exponent.toNat * 10 ^ (-exponent').toNat ≤
      digits' * 10 ^ exponent'.toNat * 10 ^ (-exponent).toNat) : rank ≤ rank' := by
  refine Reads.le_of_le h h' (pow_ten_pos _) (pow_ten_pos _) ?_
  rw [Nat.mul_right_comm _ quartersPerOne, Nat.mul_right_comm _ quartersPerOne]
  exact Nat.mul_le_mul_right quartersPerOne hle

/-! ## Rounding -/

theorem quartersPerOne_eq : quartersPerOne = 4 * unitsPerOne := by
  obtain ⟨e, he, hunits⟩ := unitsPerOne_eq
  have hexponent : 1076 = e + 1 + 1 := by omega
  unfold quartersPerOne
  rw [hexponent, hunits, pow_succ_scale, pow_succ_scale]
  omega

theorem quartersPerOne_pos : 0 < quartersPerOne := by
  have hpos := unitsPerOne_pos
  rw [quartersPerOne_eq]
  omega

theorem quartersPerOne_lt {e : Nat} (he : 330 ≤ e) : quartersPerOne < 10 ^ e := by
  obtain ⟨least, hleast⟩ : ∃ least, least = 330 := ⟨_, rfl⟩
  have hlt : quartersPerOne < 10 ^ least := by
    rw [hleast]
    decide +kernel
  exact Nat.lt_of_lt_of_le hlt (Nat.pow_le_pow_right (by omega) (hleast ▸ he))

theorem units_rankLimit : 4 * units rankLimit = quartersPerOne * Nat.pow 2 1024 := by
  have hlimit : rankLimit = 2046 * binade + binade := Nat.succ_mul 2046 binade
  have hpos := binade_pos
  rw [hlimit, units_of_significand (Nat.le_refl _) (by omega)]
  decide +kernel

/-- The interval of a finite rank ends before `2 ^ 1024`. -/
theorem upperEnd_le {rank : Nat} (hrank : rank < rankLimit) :
    upperEnd rank ≤ quartersPerOne * Nat.pow 2 1024 := by
  have hunits : units rank ≤ units rankLimit := units_strictMono.monotone (Nat.le_of_lt hrank)
  have hunits' : units (rank + 1) ≤ units rankLimit := units_strictMono.monotone hrank
  rw [← units_rankLimit, upperEnd_eq]
  omega

/-- A decimal that reads as a finite magnitude is below `10 ^ 310`. -/
theorem ReadsDecimal.point_le {rank digits : Nat} {exponent : Int}
    (h : ReadsDecimal rank digits exponent) (hrank : rank < rankLimit) (hdigits : digits ≠ 0) :
    decimalLength digits + exponent ≤ 310 := by
  obtain ⟨p, hp⟩ : ∃ p, p = Nat.pow 2 1024 := ⟨_, rfl⟩
  obtain ⟨e, he⟩ : ∃ e, e = 310 := ⟨_, rfl⟩
  have hpow : p < 10 ^ e := by
    rw [hp, he]
    decide +kernel
  refine Int.not_lt.mp fun hpoint => ?_
  have hlength := pow_le_of_decimalLength hdigits
  have hlow : digits * 10 ^ exponent.toNat ≤ p * 10 ^ (-exponent).toNat := by
    refine Nat.le_of_mul_le_mul_right ?_ quartersPerOne_pos
    calc digits * 10 ^ exponent.toNat * quartersPerOne
        ≤ upperEnd rank * 10 ^ (-exponent).toNat := Reads.le_upperEnd h
      _ ≤ quartersPerOne * p * 10 ^ (-exponent).toNat :=
          Nat.mul_le_mul_right _ (hp ▸ upperEnd_le hrank)
      _ = p * 10 ^ (-exponent).toNat * quartersPerOne := by
          rw [Nat.mul_assoc, Nat.mul_comm]
  have hhigh : 10 ^ e * 10 ^ (-exponent).toNat ≤ digits * 10 ^ exponent.toNat := by
    calc 10 ^ e * 10 ^ (-exponent).toNat
        ≤ 10 ^ (decimalLength digits - 1) * 10 ^ exponent.toNat := by
          rw [← Nat.pow_add, ← Nat.pow_add]
          exact Nat.pow_le_pow_right (by omega) (by omega)
      _ ≤ digits * 10 ^ exponent.toNat := Nat.mul_le_mul_right _ hlength
  have hlt : p * 10 ^ (-exponent).toNat < 10 ^ e * 10 ^ (-exponent).toNat :=
    Nat.mul_lt_mul_of_pos_right hpow (pow_ten_pos _)
  exact Nat.not_lt.mpr (Nat.le_trans hhigh hlow) hlt

/-- A decimal that reads as a magnitude other than zero is not below `10 ^ (-331)`. -/
theorem ReadsDecimal.le_point {rank digits : Nat} {exponent : Int}
    (h : ReadsDecimal rank digits exponent) (hrank : rank ≠ 0) :
    -330 ≤ decimalLength digits + exponent := by
  obtain ⟨e, he⟩ : ∃ e, e = 330 := ⟨_, rfl⟩
  have hpow : quartersPerOne < 10 ^ e := quartersPerOne_lt (Nat.le_of_eq he.symm)
  refine Int.not_lt.mp fun hpoint => ?_
  have hwhole : exponent.toNat = 0 := by omega
  have hsmall : 10 ^ decimalLength digits * 10 ^ e ≤ 10 ^ (-exponent).toNat := by
    rw [← Nat.pow_add]
    exact Nat.pow_le_pow_right (by omega) (by omega)
  have hreads : 10 ^ (-exponent).toNat ≤ digits * quartersPerOne := by
    have hlow := Reads.lowerEnd_le h
    rw [hwhole, Nat.pow_zero, Nat.mul_one] at hlow
    exact Nat.le_trans (Nat.le_mul_of_pos_left _ (lowerEnd_pos hrank)) hlow
  have hlt : digits * quartersPerOne < 10 ^ decimalLength digits * 10 ^ e :=
    Nat.mul_lt_mul'' (lt_pow_decimalLength digits) hpow
  exact Nat.not_lt.mpr (Nat.le_trans hsmall hreads) hlt

theorem ReadsDecimal.digits_ne_zero {rank digits : Nat} {exponent : Int}
    (h : ReadsDecimal rank digits exponent) (hrank : rank ≠ 0) : digits ≠ 0 := by
  rintro rfl
  have hlow := Reads.lowerEnd_le h
  have hpos := Nat.mul_pos (lowerEnd_pos hrank) (pow_ten_pos (-exponent).toNat)
  rw [Nat.zero_mul, Nat.zero_mul] at hlow
  omega

/-- **A decimal is rounded to the rank that it reads as.** -/
theorem ofDecimal_of_reads (negative : Bool) {rank : Fin rankLimit} {digits : Nat} {exponent : Int}
    (hrank : rank.val ≠ 0) (h : ReadsDecimal rank.val digits exponent) :
    ofDecimal negative digits exponent = .finite negative rank := by
  have hdigits := h.digits_ne_zero hrank
  have hhigh := h.point_le rank.isLt hdigits
  have hlow := h.le_point hrank
  have hnearest : ∀ num den, 0 < den → Reads rank.val (4 * num) den →
      nearest negative num den = .finite negative rank := fun num den hden hreads => by
    rw [nearest, nearestRank_of_reads hden hreads, ofRank, dif_pos rank.isLt]
  unfold ofDecimal
  rw [if_neg hdigits, if_neg (by omega), if_neg (by omega)]
  rw [ReadsDecimal, quartersPerOne_eq, Nat.mul_left_comm] at h
  cases exponent with
  | ofNat e =>
    rw [show (-Int.ofNat e).toNat = 0 from Int.toNat_neg_natCast e] at h
    exact hnearest _ _ Nat.one_pos h
  | negSucc e => exact hnearest _ _ (pow_ten_pos _) (by simpa using h)

end Es5.Double
