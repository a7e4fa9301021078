import Es5.Number.Format
import Es5.Proofs.ShortestDigits

/-!
# Four layouts of one text

Script text is laid out in four ways, by whether a number is whole and by its magnitude. All four
are the shortest digits, positionally if the exponent of the first digit lies in the range of the
script style: a whole number below `2 ^ 53` is the only natural that reads as it, so its digits and
its shortest digits agree up to last zeros.

* `Double.power_nonneg_of_isWhole`: the shortest digits of a whole number have no fraction.
* `Double.wholePart_eq`: a whole number below `2 ^ 53` is what its shortest digits spell.
* `Double.positional_iff_magnitude`: the range of the script style, by magnitudes.
* **`Double.scriptText_eq_write`**: script text is the text in the script style.
-/

namespace Es5.Double

/-! ## Whole numbers -/

theorem units_of_isWhole {rank : Nat} (h : isWhole rank = true) :
    units rank = wholePart rank * unitsPerOne := by
  have hmod : units rank % unitsPerOne = 0 := by simpa [isWhole] using h
  rw [wholePart, Nat.div_mul_cancel (Nat.dvd_of_mod_eq_zero hmod)]

theorem quarters_of_isWhole {rank : Nat} (h : isWhole rank = true) :
    4 * units rank = wholePart rank * quartersPerOne := by
  rw [units_of_isWhole h, quartersPerOne_eq, Nat.mul_left_comm]

theorem wholePart_ne_zero {rank : Nat} (hrank : rank ≠ 0) (h : isWhole rank = true) :
    wholePart rank ≠ 0 := by
  intro hzero
  have hunits := units_of_isWhole h
  rw [hzero, Nat.zero_mul] at hunits
  have hpos := units_strictMono (Nat.pos_of_ne_zero hrank)
  omega

/-- A magnitude reads as its rank. -/
theorem reads_units {rank den : Nat} (hrank : rank ≠ 0) (hden : 0 < den) :
    Reads rank (4 * units rank * den) den := by
  have hlow := Nat.mul_lt_mul_of_pos_right (lowerEnd_lt hrank) hden
  have hhigh := Nat.mul_lt_mul_of_pos_right (lt_upperEnd rank) hden
  rw [Reads]
  split
  · exact ⟨Nat.le_of_lt hlow, Nat.le_of_lt hhigh⟩
  · exact ⟨hlow, hhigh⟩

/-- A whole number is found on the grid of the naturals. -/
theorem onGrid_of_isWhole {rank : Nat} (hrank : rank ≠ 0) (h : isWhole rank = true) :
    onGrid rank gridPlaces ≠ none := by
  obtain ⟨places, hplaces⟩ : ∃ places, places = gridPlaces := ⟨_, rfl⟩
  have hpow : 0 < Nat.pow 10 gridPlaces := hplaces ▸ pow_ten_pos places
  have hquarters := quartersPerOne_pos
  have hwhole := quarters_of_isWhole h
  unfold onGrid
  generalize Nat.pow 10 gridPlaces = one at hpow
  have hfloor : 4 * units rank * one / (quartersPerOne * one) = wholePart rank := by
    rw [hwhole, Nat.mul_assoc, Nat.mul_div_cancel _ (Nat.mul_pos hquarters hpow)]
  have hreads : Reads rank (wholePart rank * (quartersPerOne * one)) one := by
    rw [← Nat.mul_assoc, ← hwhole]
    exact reads_units hrank hpow
  dsimp only
  rw [hfloor, decide_eq_true hreads]
  cases decide (Reads rank ((wholePart rank + 1) * (quartersPerOne * one)) one)
  · exact Option.some_ne_none _
  · exact Option.some_ne_none _

theorem gridPlaces_le_firstGrid {rank : Nat} (hrank : rank ≠ 0) (h : isWhole rank = true) :
    gridPlaces ≤ firstGrid rank := by
  have hquarters := quartersPerOne_pos
  rw [firstGrid, quarters_of_isWhole h, Nat.mul_right_comm, Nat.mul_div_cancel _ hquarters]
  generalize gridPlaces = places
  have hle : 10 ^ places ≤ wholePart rank * 10 ^ places :=
    Nat.le_mul_of_pos_left _ (Nat.pos_of_ne_zero (wholePart_ne_zero hrank h))
  have hlt : 10 ^ places < 10 ^ decimalLength (wholePart rank * 10 ^ places) :=
    Nat.lt_of_le_of_lt hle (lt_pow_decimalLength _)
  exact Nat.le_sub_one_of_lt ((Nat.pow_lt_pow_iff_right (by omega)).mp hlt)

/-- The shortest digits of a whole number have no fraction. -/
theorem power_nonneg_of_isWhole {rank : Nat} (hrank : rank ≠ 0) (h : isWhole rank = true) :
    0 ≤ (shortest rank).power := by
  obtain ⟨n, drop, k, hdrop, -, -, hpower⟩ :=
    exists_shortest hrank (gridPlaces_le_firstGrid hrank h) fun _ => onGrid_of_isWhole hrank h
  rw [hpower]
  omega

/-- The step from a magnitude below `2 ^ 53` to the next is at most one. -/
theorem step_lt {rank : Nat} (hlt : units rank < 2 * binade * unitsPerOne) :
    Nat.pow 2 (scale rank) < 2 * unitsPerOne := by
  by_cases hs : scale rank = 0
  · have hpos := unitsPerOne_pos
    rw [hs]
    show 1 < 2 * unitsPerOne
    omega
  · have hle : binade * Nat.pow 2 (scale rank) ≤ units rank :=
      Nat.mul_le_mul_right _ (binade_le_significand hs)
    refine Nat.lt_of_mul_lt_mul_left (a := binade) ?_
    rw [Nat.mul_left_comm, ← Nat.mul_assoc]
    exact Nat.lt_of_le_of_lt hle hlt

theorem units_le_lowerEnd (rank : Nat) :
    4 * units rank ≤ lowerEnd rank + 2 * Nat.pow 2 (scale rank) := by
  rw [lowerEnd]
  split <;> omega

/-- A whole number below `2 ^ 53` is what its shortest digits spell. -/
theorem wholePart_eq {rank : Nat} (hrank : rank ≠ 0) (h : isWhole rank = true)
    (hlt : units rank < 2 * binade * unitsPerOne) :
    wholePart rank = (shortest rank).digits * 10 ^ (shortest rank).power.toNat := by
  have hreads := shortest_reads hrank
  have hpower : (shortest rank).power = 0 + ((shortest rank).power.toNat : Int) := by
    have := power_nonneg_of_isWhole hrank h
    omega
  rw [hpower, ← readsDecimal_mul_pow] at hreads
  generalize (shortest rank).digits * 10 ^ (shortest rank).power.toNat = n at hreads
  have hlow := Reads.lowerEnd_le hreads
  have hhigh := Reads.le_upperEnd hreads
  have hone : 10 ^ (0 : Int).toNat = 1 := rfl
  have hone' : 10 ^ (-(0 : Int)).toNat = 1 := rfl
  rw [hone, hone', Nat.mul_one, Nat.mul_one] at hlow hhigh
  -- Another natural is at least one away, but the ends are at most one half away.
  have hstep := step_lt hlt
  have hcentre := quarters_of_isWhole h
  have hquarters := quartersPerOne_eq
  have hlow' := units_le_lowerEnd rank
  rw [upperEnd] at hhigh
  generalize Nat.pow 2 (scale rank) = step at hstep hlow' hhigh
  refine Nat.le_antisymm (Nat.lt_succ_iff.mp ?_) (Nat.lt_succ_iff.mp ?_)
  · refine Nat.lt_of_mul_lt_mul_right (a := quartersPerOne) ?_
    rw [Nat.succ_mul]
    omega
  · refine Nat.lt_of_mul_lt_mul_right (a := quartersPerOne) ?_
    rw [Nat.succ_mul]
    omega

/-! ## Bounds -/

/-- The rank of `1e-6`. -/
def millionthRank : Fin rankLimit := ⟨4517329193108106637, by decide⟩

/-- The rank of `1e21`. -/
def sextillionRank : Fin rankLimit := ⟨4921056587992461136, by decide⟩

theorem shortest_limits : shortest millionthRank.val = ⟨1, -6⟩ ∧
    shortest sextillionRank.val = ⟨1, 21⟩ := by decide +kernel

/-- A magnitude is not below a power of ten if its exponent is not. -/
theorem le_exponent_iff_magnitude {e : Int} {bound : Fin rankLimit} {rank : Nat}
    (hbound : bound.val ≠ 0) (hshortest : shortest bound.val = ⟨1, e⟩) (hrank : rank ≠ 0) :
    e ≤ (shortest rank).exponent ↔ (ofDecimal false 1 e).magnitude ≤ units rank := by
  have hread := ofDecimal_shortest false hbound
  rw [hshortest, Scientific.power_one] at hread
  rw [hread, le_exponent_shortest_iff hrank hbound hshortest]
  exact units_strictMono.le_iff_le.symm

theorem fractionLimit_le_iff {rank : Nat} (hrank : rank ≠ 0) :
    fractionLimit.magnitude ≤ units rank ↔ -6 ≤ (shortest rank).exponent :=
  (le_exponent_iff_magnitude (by decide) shortest_limits.1 hrank).symm

theorem lt_exponentLimit_iff {rank : Nat} (hrank : rank ≠ 0) :
    units rank < exponentLimit.magnitude ↔ (shortest rank).exponent ≤ 20 := by
  have hiff := le_exponent_iff_magnitude (by decide) shortest_limits.2 hrank
  rw [exponentLimit, ← Nat.not_le, ← hiff]
  omega

/-- A natural that is the magnitude of a rank is its double. -/
theorem ofNat_of_units {n : Nat} {rank : Fin rankLimit} (hrank : rank.val ≠ 0)
    (h : units rank.val = n * unitsPerOne) : ofNat n = .finite false rank := by
  have hreads := reads_units hrank Nat.one_pos
  rw [Nat.mul_one, h] at hreads
  rw [ofNat, nearest, nearestRank_of_reads Nat.one_pos hreads, ofRank, dif_pos rank.isLt]

theorem magnitude_exactLimit : exactLimit.magnitude = 2 * binade * unitsPerOne := by
  obtain ⟨e, he, hunits⟩ := unitsPerOne_eq
  have hpos := binade_pos
  have hpow : Nat.pow 2 53 = 2 * binade := pow_succ_scale 52
  have hlimit : (e + 1) * binade + binade < rankLimit := by
    have hle : (e + 1) * binade ≤ 1075 * binade := Nat.mul_le_mul_right _ (by omega)
    rw [rankLimit]
    omega
  have hrank : units ((e + 1) * binade + binade) = Nat.pow 2 53 * unitsPerOne := by
    rw [units_of_significand (Nat.le_refl _) (by omega), pow_succ_scale, hunits, hpow,
      Nat.mul_left_comm, ← Nat.mul_assoc]
  have hexact : exactLimit = .finite false ⟨_, hlimit⟩ :=
    ofNat_of_units (Nat.ne_of_gt (Nat.add_pos_right _ hpos)) hrank
  rw [hexact, magnitude, hrank, hpow]

/-! ## Layouts -/

/-- Zeros behind the digits of a natural multiply it. -/
theorem digitChars_mul_pow {n : Nat} (hn : n ≠ 0) (k : Nat) :
    digitChars (n * 10 ^ k) = digitChars n ++ List.replicate k '0' := by
  induction k with
  | zero => rw [Nat.pow_zero, Nat.mul_one, List.replicate_zero, List.append_nil]
  | succ k ih =>
    have hpos := Nat.mul_pos (Nat.pos_of_ne_zero hn) (pow_ten_pos k)
    have hten : n * 10 ^ (k + 1) = n * 10 ^ k * 10 := by rw [Nat.pow_succ, Nat.mul_assoc]
    rw [digitChars, hten, Nat.toDigits_of_base_le (by omega) (by omega),
      Nat.mul_div_cancel _ (by omega), Nat.mul_mod_left, ← digitChars, ih, List.append_assoc,
      List.replicate_succ']
    rfl

/-- Padding is positional form for a decimal without a fraction. -/
theorem paddedDigits_eq_positional {d : Scientific} (hpower : 0 ≤ d.power) :
    paddedDigits d = positional .script d := by
  have hlength : d.power = d.exponent + 1 - (digitChars d.digits).length := rfl
  have hpos : 0 < (digitChars d.digits).length := Nat.length_toDigits_pos
  unfold positional paddedDigits
  dsimp only
  rw [if_neg (by omega), if_pos (by omega)]
  exact (List.append_nil _).symm

/-- The digits of a whole number below `2 ^ 53` are its shortest digits with padding. -/
theorem digitChars_wholePart {rank : Nat} (hrank : rank ≠ 0) (h : isWhole rank = true)
    (hlt : units rank < 2 * binade * unitsPerOne) :
    digitChars (wholePart rank) = paddedDigits (shortest rank) := by
  rw [wholePart_eq hrank h hlt, digitChars_mul_pow (shortest_digits_ne_zero hrank)]
  rfl

/-- The four layouts of a magnitude are that of the script style. -/
theorem scriptMagnitude_eq {rank : Nat} (hrank : rank ≠ 0) :
    scriptMagnitude rank = writeMagnitude .script rank := by
  have hlow := fractionLimit_le_iff hrank
  have hhigh := lt_exponentLimit_iff hrank
  have hform : writeMagnitude .script rank =
      if -6 ≤ (shortest rank).exponent ∧ (shortest rank).exponent ≤ 20 then
        positional .script (shortest rank)
      else exponential .script (shortest rank) := by
    rw [writeMagnitude, if_neg hrank]
    rfl
  rw [hform, scriptMagnitude]
  by_cases hwhole : isWhole rank = true ∧ units rank < exponentLimit.magnitude
  · have hpower := power_nonneg_of_isWhole hrank hwhole.1
    have hexponent : 0 ≤ (shortest rank).exponent := by
      have := decimalLength_pos (shortest rank).digits
      rw [Scientific.power] at hpower
      omega
    have hrange : -6 ≤ (shortest rank).exponent ∧ (shortest rank).exponent ≤ 20 :=
      ⟨by omega, hhigh.mp hwhole.2⟩
    rw [if_pos hwhole, if_pos hrange, ← paddedDigits_eq_positional hpower]
    split
    · rename_i hlt
      rw [magnitude_exactLimit] at hlt
      exact digitChars_wholePart hrank hwhole.1 hlt
    · rfl
  · rw [if_neg hwhole]
    by_cases hrange : -6 ≤ (shortest rank).exponent ∧ (shortest rank).exponent ≤ 20
    · rw [if_pos hrange, if_neg]
      rw [not_or, Nat.not_le, Nat.not_lt]
      exact ⟨hhigh.mpr hrange.2, hlow.mpr hrange.1⟩
    · rw [if_neg hrange, if_pos]
      by_cases hfew : (shortest rank).exponent ≤ 20
      · exact Or.inr (Nat.lt_of_not_le fun hle => hrange ⟨hlow.mp hle, hfew⟩)
      · exact Or.inl (Nat.le_of_not_lt fun hlt => hfew (hhigh.mp hlt))

/-- **Script text is the text in the script style.** -/
theorem scriptText_eq_write (x : Double) : x.scriptText = x.write .script := by
  rcases x with _ | negative | ⟨negative, rank⟩
  · rfl
  · cases negative <;> rfl
  · by_cases hrank : rank.val = 0
    · rw [scriptText, if_pos (by simp [isZero, hrank]), write, writeMagnitude, if_pos hrank, hrank,
        bne_self_eq_false, Bool.or_false]
      cases negative <;> rfl
    · rw [scriptText, if_neg (by simp [isZero, hrank]), write, ← scriptMagnitude_eq hrank]
      cases negative <;> simp [hrank]

end Es5.Double
