import Es5.Proofs.WholeNumber
import Mathlib.Order.Monotone.Basic

/-!
# Magnitudes in order

A rank splits into a scale and a significand. Greater ranks have greater magnitudes, so a magnitude
tells its rank, and a number is the natural that its magnitude amounts to.

* `Double.rank_eq`: a rank is its scale in binades, and its significand.
* **`Double.units_strictMono`**: greater ranks have greater magnitudes.
* `Double.Amounts`: the amount of a number is a natural.
* **`Double.equal_ofNat_toUint32_iff`**: which numbers equal the double of their remainder.
-/

namespace Es5.Double

/-! ## Ranks -/

/-- A rank is its scale in binades, and its significand. -/
theorem rank_eq (rank : Nat) : rank = scale rank * binade + significand rank := by
  have hpos := binade_pos
  rw [scale, significand]
  by_cases hlt : rank < binade
  · rw [if_pos hlt, Nat.div_eq_of_lt hlt]
    omega
  · have hdiv : 1 ≤ rank / binade := (Nat.one_le_div_iff hpos).mpr (by omega)
    have hmod := Nat.div_add_mod' rank binade
    have hsub : (rank / binade - 1) * binade + binade = rank / binade * binade := by
      rw [← Nat.succ_mul, Nat.succ_eq_add_one, Nat.sub_add_cancel hdiv]
    rw [if_neg hlt]
    omega

theorem significand_lt (rank : Nat) : significand rank < 2 * binade := by
  have hmod := Nat.mod_lt rank binade_pos
  rw [significand]
  split <;> omega

/-- A significand is full unless the scale is zero. -/
theorem binade_le_significand {rank : Nat} (h : scale rank ≠ 0) : binade ≤ significand rank := by
  rw [significand]
  split
  · rename_i hlt
    rw [scale, Nat.div_eq_of_lt hlt] at h
    omega
  · omega

/-- A significand that is full unless the scale is zero is that of the rank that it makes. -/
theorem scale_of_rank {s q : Nat} (hq : s ≠ 0 → binade ≤ q) (hq' : q < 2 * binade) :
    scale (s * binade + q) = s ∧ significand (s * binade + q) = q := by
  by_cases hlt : q < binade
  · have hs : s = 0 := Decidable.of_not_not fun hs => by
      have := hq hs
      omega
    subst hs
    rw [Nat.zero_mul, Nat.zero_add, scale, significand, if_pos hlt, Nat.div_eq_of_lt hlt]
    exact ⟨rfl, rfl⟩
  · exact scale_of_significand (by omega) hq'

/-- The last rank of a scale is followed by the first of the next. -/
theorem next_scale (s : Nat) : s * binade + 2 * binade = (s + 1) * binade + binade := by
  have hsucc : (s + 1) * binade = s * binade + binade := Nat.succ_mul s binade
  omega

theorem pow_succ_scale (s : Nat) : Nat.pow 2 (s + 1) = 2 * Nat.pow 2 s := by
  show 2 ^ (s + 1) = 2 * 2 ^ s
  rw [Nat.pow_succ, Nat.mul_comm]

/-- The magnitude of a scale and a significand; the last one is the first of the next scale. -/
theorem units_scaled {s q : Nat} (hq : s ≠ 0 → binade ≤ q) (hq' : q ≤ 2 * binade) :
    units (s * binade + q) = q * Nat.pow 2 s := by
  rcases Nat.lt_or_eq_of_le hq' with hlt | rfl
  · obtain ⟨hs, hsignificand⟩ := scale_of_rank hq hlt
    rw [units, hs, hsignificand]
  · have hpos := binade_pos
    rw [next_scale, units_of_significand (Nat.le_refl _) (by omega), pow_succ_scale]
    show binade * (2 * Nat.pow 2 s) = 2 * binade * Nat.pow 2 s
    rw [← Nat.mul_assoc, Nat.mul_comm binade 2]

/-- A magnitude and the next differ by a step of the scale. -/
theorem units_succ (rank : Nat) : units (rank + 1) = units rank + Nat.pow 2 (scale rank) := by
  have hlt := significand_lt rank
  have hrank : rank + 1 = scale rank * binade + (significand rank + 1) := by
    have := rank_eq rank
    omega
  rw [hrank, units_scaled (fun hs => ?_) (by omega), Nat.succ_mul, units]
  have := binade_le_significand hs
  omega

theorem units_lt_succ (rank : Nat) : units rank < units (rank + 1) := by
  have hpow : 0 < Nat.pow 2 (scale rank) := Nat.pow_pos (by omega)
  rw [units_succ]
  omega

/-- **Greater ranks have greater magnitudes.** -/
theorem units_strictMono : StrictMono units := strictMono_nat_of_lt_succ units_lt_succ

/-! ## Amounts -/

/-- The amount of a number is the natural `n`; negative zero amounts to zero. -/
def Amounts (x : Double) (n : Nat) : Prop :=
  ∃ negative rank, x = .finite negative rank ∧ units rank.val = n * unitsPerOne ∧
    (negative = true → n = 0)

/-- A natural below `2 ^ 53` is what its double amounts to. -/
theorem amounts_ofNat {n : Nat} (hn : n < 2 * binade) : (ofNat n).Amounts n := by
  obtain ⟨hunits, hlt⟩ := units_nearestRank hn
  refine ⟨false, ⟨_, hlt⟩, ?_, hunits, fun h => nomatch h⟩
  rw [ofNat, nearest, ofRank, dif_pos hlt]

/-- Numbers that amount to the same are equal. -/
theorem Amounts.equal {x y : Double} {n : Nat} (hx : x.Amounts n) (hy : y.Amounts n) :
    x.equal y = true := by
  obtain ⟨s, rank, rfl, hunits, hs⟩ := hx
  obtain ⟨s', rank', rfl, hunits', hs'⟩ := hy
  have hrank : rank = rank' := Fin.ext (units_strictMono.injective (hunits.trans hunits'.symm))
  subst hrank
  by_cases hn : n = 0
  · have hzero : rank.val = 0 := by
      refine units_strictMono.injective ?_
      rw [hunits, hn, Nat.zero_mul]
      exact (Nat.zero_mul _).symm
    simp [Double.equal, isNaN, isZero, hzero]
  · have hsign : s = s' := by
      cases s <;> cases s' <;> simp_all
    simp [Double.equal, isNaN, hsign]

theorem Amounts.toUint32 {x : Double} {n : Nat} (hx : x.Amounts n) (hn : n ≤ maxLength) :
    x.toUint32 = n := by
  obtain ⟨s, rank, rfl, hunits, hs⟩ := hx
  have hwhole : wholePart rank.val = n := by
    rw [wholePart, hunits, Nat.mul_div_cancel _ unitsPerOne_pos]
  have hmod : n % wordLimit = n := Nat.mod_eq_of_lt (by rw [wordLimit_eq]; omega)
  cases s with
  | false =>
    show wholePart rank.val % wordLimit = n
    rw [hwhole, hmod]
  | true =>
    show (wordLimit - wholePart rank.val % wordLimit) % wordLimit = n
    rw [hwhole, hs rfl, Nat.zero_mod, Nat.sub_zero, Nat.mod_self]

/-- What equals a number that amounts to a natural amounts to it too. -/
theorem Amounts.of_equal {x y : Double} {n : Nat} (hx : x.Amounts n) (h : x.equal y = true) :
    y.Amounts n := by
  obtain ⟨s, rank, rfl, hunits, hs⟩ := hx
  simp only [Double.equal, isNaN, Bool.not_false, Bool.true_and, Bool.or_eq_true, Bool.and_eq_true,
    beq_iff_eq] at h
  rcases h with ⟨hzero, hzero'⟩ | rfl
  · rcases y with _ | _ | ⟨s', rank'⟩
    · cases hzero'
    · cases hzero'
    · have hrank : rank.val = 0 := by simpa [isZero] using hzero
      have hrank' : rank'.val = 0 := by simpa [isZero] using hzero'
      have hn : n = 0 := by
        have hzero : units 0 = n * unitsPerOne := hrank ▸ hunits
        have hpos := unitsPerOne_pos
        have : n * unitsPerOne = 0 := hzero.symm
        exact (Nat.mul_eq_zero.mp this).resolve_right (by omega)
      exact ⟨s', rank', rfl, by rw [hrank', ← hrank, hunits], fun _ => hn⟩
  · exact ⟨s, rank, rfl, hunits, hs⟩

/-- **The numbers that equal the double of their remainder** are the naturals of 32 bits. -/
theorem equal_ofNat_toUint32_iff {x : Double} {n : Nat} :
    (ofNat x.toUint32).equal x = true ∧ x.toUint32 = n ↔ n ≤ maxLength ∧ x.Amounts n := by
  have hlimit : maxLength < 2 * binade := by decide
  constructor
  · rintro ⟨hequal, rfl⟩
    have hle := toUint32_le x
    exact ⟨hle, (amounts_ofNat (by omega)).of_equal hequal⟩
  · rintro ⟨hn, hx⟩
    rw [hx.toUint32 hn]
    exact ⟨(amounts_ofNat (by omega)).equal hx, rfl⟩

end Es5.Double
