import Es5.Number.Shortest
import Es5.Proofs.Magnitude

/-!
# What is nearest to a magnitude

The ratios that read as a magnitude end half way to the magnitudes before and after it. Rounding
gives the rank that a ratio reads as, so a ratio reads as one rank at most.

* `Double.upperEnd_eq`, `Double.lowerEnd_succ`: the ends of an interval lie half way.
* `Double.Reads.le_of_le`: greater ratios read as greater ranks.
* `roundHalfEven_eq`: the natural that a quotient is rounded to.
* **`Double.nearestRank_of_reads`**: a ratio is rounded to the rank that it reads as.
-/

namespace Es5

/-- The natural `q` is what a quotient from `q - 1 / 2` to `q + 1 / 2` is rounded to. -/
theorem roundHalfEven_eq {num den q : Nat} (hden : 0 < den) (hlow : 2 * (q * den) ≤ 2 * num + den)
    (hhigh : 2 * num ≤ 2 * (q * den) + den)
    (hodd : q % 2 = 1 → 2 * (q * den) < 2 * num + den ∧ 2 * num < 2 * (q * den) + den) :
    roundHalfEven num den = q := by
  have hdiv := Nat.div_add_mod' num den
  have hmod := Nat.mod_lt num hden
  rw [roundHalfEven]
  generalize num / den = floor at hdiv ⊢
  generalize num % den = rest at hdiv hmod ⊢
  have hfloor : floor = q ∨ floor + 1 = q := by
    rcases Nat.lt_trichotomy (floor + 1) q with hlt | he | hgt
    · have hle : (floor + 2) * den ≤ q * den := Nat.mul_le_mul_right den hlt
      have hexpand : (floor + 2) * den = floor * den + 2 * den := Nat.add_mul floor 2 den
      omega
    · exact Or.inr he
    · rcases Nat.lt_or_eq_of_le (Nat.lt_succ_iff.mp hgt) with hlt | he
      · have hle : (q + 1) * den ≤ floor * den := Nat.mul_le_mul_right den hlt
        have hexpand : (q + 1) * den = q * den + den := Nat.succ_mul q den
        omega
      · exact Or.inl he.symm
  rcases hfloor with rfl | rfl
  · split
    · rfl
    · split
      · omega
      · omega
  · have hexpand : (floor + 1) * den = floor * den + den := Nat.succ_mul floor den
    split
    · omega
    · split
      · rfl
      · omega

namespace Double

/-! ## Ends of intervals -/

/-- The upper end lies half way to the next magnitude. -/
theorem upperEnd_eq (rank : Nat) : upperEnd rank = 2 * (units rank + units (rank + 1)) := by
  rw [upperEnd, units_succ]
  omega

/-- The lower end lies half way to the magnitude before. -/
theorem lowerEnd_succ (rank : Nat) : lowerEnd (rank + 1) = 2 * (units rank + units (rank + 1)) := by
  have hpos := binade_pos
  have hlt := significand_lt rank
  have hfull : scale rank ≠ 0 → binade ≤ significand rank := binade_le_significand
  have hsucc := units_succ rank
  have hrank : rank + 1 = scale rank * binade + (significand rank + 1) := by
    have := rank_eq rank
    omega
  rw [lowerEnd]
  by_cases hlast : significand rank + 1 = 2 * binade
  · obtain ⟨hs, hq⟩ := scale_of_significand (s := scale rank + 1) (Nat.le_refl binade) (by omega)
    rw [← next_scale, ← hlast, ← hrank] at hs hq
    rw [hs, hq, if_pos ⟨rfl, Nat.succ_pos _⟩, pow_succ_scale]
    omega
  · obtain ⟨hs, hq⟩ := scale_of_rank (s := scale rank) (q := significand rank + 1)
      (fun hs => Nat.le_succ_of_le (hfull hs)) (by omega)
    rw [← hrank] at hs hq
    have hordinary : ¬(significand (rank + 1) = binade ∧ 0 < scale (rank + 1)) := by
      rintro ⟨hbinade, hscale⟩
      have := hfull (by omega)
      omega
    rw [if_neg hordinary, hs]
    omega

theorem lowerEnd_pos {rank : Nat} (hrank : rank ≠ 0) : 0 < lowerEnd rank := by
  obtain ⟨r, rfl⟩ := Nat.exists_eq_succ_of_ne_zero hrank
  rw [lowerEnd_succ]
  have := units_lt_succ r
  omega

theorem lowerEnd_lt {rank : Nat} (hrank : rank ≠ 0) : lowerEnd rank < 4 * units rank := by
  obtain ⟨r, rfl⟩ := Nat.exists_eq_succ_of_ne_zero hrank
  rw [lowerEnd_succ, Nat.succ_eq_add_one]
  have := units_lt_succ r
  omega

theorem lt_upperEnd (rank : Nat) : 4 * units rank < upperEnd rank := by
  rw [upperEnd_eq]
  have := units_lt_succ rank
  omega

/-- The interval of a rank ends before that of a greater one begins. -/
theorem upperEnd_le_lowerEnd {rank rank' : Nat} (hlt : rank < rank') :
    upperEnd rank ≤ lowerEnd rank' := by
  obtain ⟨r, rfl⟩ : ∃ r, rank' = r + 1 := ⟨rank' - 1, by omega⟩
  have hle : units rank ≤ units r := units_strictMono.monotone (by omega)
  have hle' : units (rank + 1) ≤ units (r + 1) := units_strictMono.monotone (by omega)
  rw [upperEnd_eq, lowerEnd_succ]
  omega

/-! ## Ratios that read as a rank -/

/-- Equal ratios read as the same ranks. -/
theorem Reads.of_mul_eq {rank num den num' den' : Nat} (h : Reads rank num den) (hden : 0 < den)
    (hden' : 0 < den') (heq : num * den' = num' * den) : Reads rank num' den' := by
  have hlow : ∀ bound, bound * den ≤ num ↔ bound * den' ≤ num' := fun bound => by
    rw [← Nat.mul_le_mul_right_iff hden', heq, Nat.mul_right_comm, Nat.mul_le_mul_right_iff hden]
  have hhigh : ∀ bound, num ≤ bound * den ↔ num' ≤ bound * den' := fun bound => by
    rw [← Nat.mul_le_mul_right_iff hden', heq, Nat.mul_right_comm, Nat.mul_le_mul_right_iff hden]
  rw [Reads] at h ⊢
  split at h
  · rename_i heven
    rw [if_pos heven]
    exact ⟨(hlow _).mp h.1, (hhigh _).mp h.2⟩
  · rename_i hodd
    rw [← Nat.not_le, ← Nat.not_le, hlow, hhigh, Nat.not_le, Nat.not_le] at h
    rwa [if_neg hodd]

theorem Reads.lowerEnd_le {rank num den : Nat} (h : Reads rank num den) :
    lowerEnd rank * den ≤ num := by
  unfold Reads at h
  split at h
  · exact h.1
  · exact Nat.le_of_lt h.1

theorem Reads.le_upperEnd {rank num den : Nat} (h : Reads rank num den) :
    num ≤ upperEnd rank * den := by
  unfold Reads at h
  split at h
  · exact h.2
  · exact Nat.le_of_lt h.2

/-- An odd rank has neither end. -/
theorem Reads.of_odd {rank num den : Nat} (h : Reads rank num den) (hodd : rank % 2 = 1) :
    lowerEnd rank * den < num ∧ num < upperEnd rank * den := by
  unfold Reads at h
  rwa [if_neg (by omega)] at h

/-- The intervals of two even ranks have no end in common. -/
theorem upperEnd_lt_lowerEnd {rank rank' : Nat} (hlt : rank < rank') (heven : rank % 2 = 0)
    (heven' : rank' % 2 = 0) : upperEnd rank < lowerEnd rank' := by
  have hpow : 0 < Nat.pow 2 (scale (rank + 1)) := Nat.pow_pos (by omega)
  calc upperEnd rank ≤ lowerEnd (rank + 1) := upperEnd_le_lowerEnd (Nat.lt_succ_self rank)
    _ < upperEnd (rank + 1) := by
        rw [lowerEnd_succ, upperEnd, units_succ]
        omega
    _ ≤ lowerEnd rank' := upperEnd_le_lowerEnd (by omega)

/-- **Greater ratios read as greater ranks.** -/
theorem Reads.le_of_le {rank num den rank' num' den' : Nat} (h : Reads rank num den)
    (h' : Reads rank' num' den') (hden : 0 < den) (hden' : 0 < den')
    (hle : num * den' ≤ num' * den) : rank ≤ rank' := by
  refine Nat.le_of_not_lt fun hlt => Nat.not_lt.mpr hle ?_
  have hends : upperEnd rank' * den' * den ≤ lowerEnd rank * den * den' := by
    rw [Nat.mul_right_comm]
    exact Nat.mul_le_mul_right _ (Nat.mul_le_mul_right _ (upperEnd_le_lowerEnd hlt))
  have hbelow : num' * den ≤ upperEnd rank' * den' * den :=
    Nat.mul_le_mul_right den h'.le_upperEnd
  have habove : lowerEnd rank * den * den' ≤ num * den' :=
    Nat.mul_le_mul_right den' h.lowerEnd_le
  -- An end that two intervals share belongs to the even rank of the two only.
  by_cases hodd : rank % 2 = 1
  · have hstrict : lowerEnd rank * den * den' < num * den' :=
      Nat.mul_lt_mul_of_pos_right (h.of_odd hodd).1 hden'
    omega
  by_cases hodd' : rank' % 2 = 1
  · have hstrict : num' * den < upperEnd rank' * den' * den :=
      Nat.mul_lt_mul_of_pos_right (h'.of_odd hodd').2 hden
    omega
  · have hstrict : upperEnd rank' * den' * den < lowerEnd rank * den * den' := by
      rw [Nat.mul_right_comm]
      exact Nat.mul_lt_mul_of_pos_right
        (Nat.mul_lt_mul_of_pos_right (upperEnd_lt_lowerEnd hlt (by omega) (by omega)) hden) hden'
    omega

/-! ## Rounding -/

/-- The scale that a whole quotient is rounded at. -/
theorem log2_sub_eq {floor s : Nat} (hlow : s ≠ 0 → binade * Nat.pow 2 s ≤ floor)
    (hhigh : floor < 2 * binade * Nat.pow 2 s) : floor.log2 - 52 = s := by
  have hbinade : binade * Nat.pow 2 s = 2 ^ (52 + s) := (Nat.pow_add 2 52 s).symm
  have hbinade' : 2 * binade * Nat.pow 2 s = 2 ^ (53 + s) := (Nat.pow_add 2 53 s).symm
  by_cases hs : s = 0
  · subst hs
    by_cases hfloor : floor = 0
    · subst hfloor
      rfl
    · have := (Nat.log2_lt hfloor).mpr (hbinade' ▸ hhigh)
      omega
  · have hpos : 0 < 2 ^ (52 + s) := Nat.pow_pos (by omega)
    have hge := hlow hs
    have hfloor : floor ≠ 0 := by omega
    have hlt := (Nat.log2_lt hfloor).mpr (hbinade' ▸ hhigh)
    have hle := (Nat.le_log2 hfloor).mpr (hbinade ▸ hge)
    omega

/-- The interval of a rank, by its significand. -/
theorem Reads.scaled {rank num den : Nat} (h : Reads rank num den) {t : Nat}
    (ht : t = den * Nat.pow 2 (scale rank)) :
    4 * (significand rank * t) ≤ num + 2 * t ∧ num ≤ 4 * (significand rank * t) + 2 * t ∧
      (significand rank % 2 = 1 →
        4 * (significand rank * t) < num + 2 * t ∧ num < 4 * (significand rank * t) + 2 * t) ∧
      (significand rank = binade ∧ 0 < scale rank → 4 * (significand rank * t) ≤ num + t) := by
  have hunits : units rank * den = significand rank * t := by
    rw [units, ht, Nat.mul_right_comm, Nat.mul_assoc]
  have hstep : Nat.pow 2 (scale rank) * den = t := by rw [ht, Nat.mul_comm]
  have hlower : 4 * (significand rank * t) ≤ lowerEnd rank * den + 2 * t ∧
      (significand rank = binade ∧ 0 < scale rank →
        4 * (significand rank * t) ≤ lowerEnd rank * den + t) := by
    rw [lowerEnd]
    split
    · rw [Nat.sub_mul, Nat.mul_assoc, hunits, hstep]
      omega
    · rename_i hother
      rw [Nat.sub_mul, Nat.mul_assoc, Nat.mul_assoc, hunits, hstep]
      exact ⟨by omega, fun hfirst => absurd hfirst hother⟩
  have hupper : upperEnd rank * den = 4 * (significand rank * t) + 2 * t := by
    rw [upperEnd, Nat.add_mul, Nat.mul_assoc, Nat.mul_assoc, hunits, hstep]
  have hparity : significand rank % 2 = rank % 2 := by
    have heven : binade % 2 = 0 := by decide
    have hrank : rank % 2 = (scale rank * binade + significand rank) % 2 := by rw [← rank_eq]
    rw [hrank, Nat.add_mod, Nat.mul_mod, heven, Nat.mul_zero, Nat.zero_mod, Nat.zero_add,
      Nat.mod_mod]
  have hge := h.lowerEnd_le
  have hle := h.le_upperEnd
  refine ⟨by omega, by omega, fun hodd => ?_, fun hfirst => ?_⟩
  · have hstrict := h.of_odd (hparity ▸ hodd)
    omega
  · have := hlower.2 hfirst
    omega

/-- A ratio is rounded at the scale that its whole part has. -/
theorem nearestRank_of_scale {num den s t q : Nat} (hden : 0 < den)
    (ht : t = den * Nat.pow 2 s) (hlow : s ≠ 0 → binade * t ≤ num)
    (hhigh : num < 2 * binade * t) (hround : roundHalfEven num t = q) :
    nearestRank num den = s * binade + q := by
  have hscale : (num / den).log2 - 52 = s := by
    refine log2_sub_eq (fun hs => ?_) ?_
    · rw [Nat.le_div_iff_mul_le hden, Nat.mul_assoc, Nat.mul_comm _ den, ← ht]
      exact hlow hs
    · rwa [Nat.div_lt_iff_lt_mul hden, Nat.mul_assoc, Nat.mul_comm _ den, ← ht]
  rw [nearestRank, hscale, ← ht, hround]

/-- **A ratio is rounded to the rank that it reads as.** -/
theorem nearestRank_of_reads {rank num den : Nat} (hden : 0 < den)
    (h : Reads rank (4 * num) den) : nearestRank num den = rank := by
  obtain ⟨s, hs⟩ : ∃ s, s = scale rank := ⟨_, rfl⟩
  obtain ⟨q, hq⟩ : ∃ q, q = significand rank := ⟨_, rfl⟩
  obtain ⟨t, ht⟩ : ∃ t, t = den * Nat.pow 2 s := ⟨_, rfl⟩
  have hpos := binade_pos
  have htpos : 0 < t := ht ▸ Nat.mul_pos hden (Nat.pow_pos (by omega))
  have hrank : rank = s * binade + q := hs ▸ hq ▸ rank_eq rank
  have hlt : q < 2 * binade := hq ▸ significand_lt rank
  have hfull : s ≠ 0 → binade ≤ q := hs ▸ hq ▸ binade_le_significand
  obtain ⟨hlow, hhigh, hodd, hfirst⟩ := h.scaled (hs ▸ ht)
  rw [← hq] at hlow hhigh hodd hfirst
  rw [← hs] at hfirst
  by_cases hsame : s ≠ 0 → binade * t ≤ num
  · have hbelow : num < 2 * binade * t := by
      have : (q + 1) * t ≤ 2 * binade * t := Nat.mul_le_mul_right t hlt
      have : (q + 1) * t = q * t + t := Nat.succ_mul q t
      omega
    have hround : roundHalfEven num t = q :=
      roundHalfEven_eq htpos (by omega) (by omega) fun hqodd => by
        have := hodd hqodd
        omega
    rw [nearestRank_of_scale hden ht hsame hbelow hround, hrank]
  · -- Just below a power of two the scale is one less, and the last significand is rounded up.
    obtain ⟨hs0, hless⟩ : s ≠ 0 ∧ num < binade * t := by
      by_cases hs0 : s = 0
      · exact absurd (fun hne => absurd hs0 hne) hsame
      · exact ⟨hs0, Nat.lt_of_not_le fun hle => hsame fun _ => hle⟩
    have hqfirst : q = binade := by
      rcases Nat.lt_or_eq_of_le (hfull hs0) with hgt | he
      · have : (binade + 1) * t ≤ q * t := Nat.mul_le_mul_right t hgt
        have : (binade + 1) * t = binade * t + t := Nat.succ_mul binade t
        omega
      · exact he.symm
    subst hqfirst
    have hnear := hfirst ⟨rfl, Nat.pos_of_ne_zero hs0⟩
    obtain ⟨r, rfl⟩ : ∃ r, s = r + 1 := ⟨s - 1, by omega⟩
    obtain ⟨u, hu⟩ : ∃ u, u = den * Nat.pow 2 r := ⟨_, rfl⟩
    have htu : t = 2 * u := by rw [ht, hu, pow_succ_scale, Nat.mul_left_comm den]
    have hmany : binade * t = 2 * (binade * u) := by rw [htu, Nat.mul_left_comm]
    have htwice : 2 * binade * u = 2 * (binade * u) := Nat.mul_assoc 2 binade u
    have hupos : 0 < u := by omega
    have hround : roundHalfEven num u = 2 * binade :=
      roundHalfEven_eq hupos (by omega) (by omega) (by omega)
    have hfew : u ≤ binade * u := Nat.le_mul_of_pos_left u hpos
    rw [nearestRank_of_scale hden hu (fun _ => by omega) (by omega) hround, hrank, next_scale]

end Double

end Es5
