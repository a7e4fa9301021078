import Es5.Number.Rounding
import Es5.Object.Index

/-!
# Natural numbers as doubles

A natural below `2 ^ 53` is a double, so its double has the natural as whole part. The naturals of
32 bits, which are the lengths of arrays, are read back from their doubles.

* `roundHalfEven_mul`: a ratio that is whole is not rounded.
* `units_of_significand`: the magnitude of the rank of a full significand.
* **`Double.wholePart_ofNat`**: a natural below `2 ^ 53` is its double.
* `Double.clampUint32_ofNat`, `Double.toUint32_ofNat`, `Double.toUint32_le`: lengths as doubles.
-/

namespace Es5

theorem roundHalfEven_mul (q : Nat) {den : Nat} (hden : 0 < den) :
    roundHalfEven (q * den) den = q := by
  rw [roundHalfEven, Nat.mul_mod_left, Nat.mul_div_cancel _ hden, if_pos (by omega)]

namespace Double

theorem binade_pos : 0 < binade := Nat.pow_pos (by omega)

/-- A full significand and its scale are those of the rank that they make. -/
theorem scale_of_significand {s q : Nat} (hq : binade ≤ q) (hq' : q < 2 * binade) :
    scale (s * binade + q) = s ∧ significand (s * binade + q) = q := by
  have hpos := binade_pos
  have hlt : q - binade < binade := by omega
  have hrank : s * binade + q = q - binade + (s + 1) * binade := by
    rw [Nat.add_mul, Nat.one_mul]
    omega
  have hmod : (s * binade + q) % binade = q - binade := by
    rw [hrank, Nat.add_mul_mod_self_right, Nat.mod_eq_of_lt hlt]
  have hdiv : (s * binade + q) / binade = s + 1 := by
    rw [hrank, Nat.add_mul_div_right _ _ hpos, Nat.div_eq_of_lt hlt, Nat.zero_add]
  have hq'' : binade + (q - binade) = q := by omega
  constructor
  · rw [scale, hdiv, Nat.add_sub_cancel]
  · rw [significand, if_neg (by omega), hmod, hq'']

theorem units_of_significand {s q : Nat} (hq : binade ≤ q) (hq' : q < 2 * binade) :
    units (s * binade + q) = q * Nat.pow 2 s := by
  obtain ⟨hs, hsignificand⟩ := scale_of_significand (s := s) hq hq'
  rw [units, hs, hsignificand]

/-- Binary digits put behind a natural, as many as the scale has. -/
theorem log2_mul_pow_add {n e tail : Nat} (hn : n ≠ 0) (htail : tail < Nat.pow 2 e) :
    (n * Nat.pow 2 e + tail).log2 = n.log2 + e := by
  change tail < 2 ^ e at htail
  show (n * 2 ^ e + tail).log2 = n.log2 + e
  have hlow : 2 ^ n.log2 * 2 ^ e ≤ n * 2 ^ e := Nat.mul_le_mul_right _ (Nat.log2_self_le hn)
  have hhigh : (n + 1) * 2 ^ e ≤ 2 ^ (n.log2 + 1) * 2 ^ e :=
    Nat.mul_le_mul_right _ Nat.lt_log2_self
  have hsucc : (n + 1) * 2 ^ e = n * 2 ^ e + 2 ^ e := Nat.succ_mul _ _
  have hle : n ≤ n * 2 ^ e := Nat.le_mul_of_pos_right n (Nat.pow_pos (by omega))
  rw [Nat.log2_eq_iff (by omega), Nat.add_right_comm, Nat.pow_add, Nat.pow_add]
  omega

/-- A natural of at most 53 bits, scaled up, has a full significand. -/
theorem nearestRank_mul_pow {n e : Nat} (hn : n ≠ 0) (hl : n.log2 ≤ 52) (he : 52 ≤ e) :
    nearestRank (n * Nat.pow 2 e) 1 =
      (n.log2 + e - 52) * binade + n * Nat.pow 2 (52 - n.log2) := by
  show nearestRank (n * 2 ^ e) 1 = (n.log2 + e - 52) * binade + n * 2 ^ (52 - n.log2)
  have hsplit : n * 2 ^ e = n * 2 ^ (52 - n.log2) * 2 ^ (n.log2 + e - 52) := by
    rw [Nat.mul_assoc, ← Nat.pow_add]
    congr 2
    omega
  have hpos : 0 < 2 ^ e := Nat.pow_pos (by omega)
  have hlog : (n * 2 ^ e).log2 = n.log2 + e := log2_mul_pow_add hn hpos
  rw [nearestRank, Nat.div_one, hlog, Nat.one_mul, hsplit]
  congr 1
  exact roundHalfEven_mul _ (Nat.pow_pos (by omega))

theorem unitsPerOne_eq : ∃ e, e = 1074 ∧ unitsPerOne = Nat.pow 2 e := by
  obtain ⟨e, he⟩ : ∃ e, e = 1074 := ⟨_, rfl⟩
  refine ⟨e, he, ?_⟩
  unfold unitsPerOne
  rw [← he]

theorem unitsPerOne_pos : 0 < unitsPerOne := by
  obtain ⟨e, -, hu⟩ := unitsPerOne_eq
  rw [hu]
  exact Nat.pow_pos (by omega)

theorem units_nearestRank {n : Nat} (hn : n < 2 * binade) :
    units (nearestRank (n * unitsPerOne) 1) = n * unitsPerOne ∧
      nearestRank (n * unitsPerOne) 1 < rankLimit := by
  obtain ⟨e, he, hu⟩ := unitsPerOne_eq
  rw [hu]
  by_cases h0 : n = 0
  · subst h0
    rw [Nat.zero_mul]
    exact ⟨rfl, by decide⟩
  have hl : n.log2 ≤ 52 := by
    have : n.log2 < 53 := (Nat.log2_lt h0).mpr hn
    omega
  have hlow : binade ≤ n * Nat.pow 2 (52 - n.log2) := by
    calc binade = 2 ^ n.log2 * 2 ^ (52 - n.log2) := by
          rw [← Nat.pow_add, Nat.add_sub_cancel' hl]; rfl
      _ ≤ n * 2 ^ (52 - n.log2) := Nat.mul_le_mul_right _ (Nat.log2_self_le h0)
  have hhigh : n * Nat.pow 2 (52 - n.log2) < 2 * binade := by
    calc n * 2 ^ (52 - n.log2) < 2 ^ (n.log2 + 1) * 2 ^ (52 - n.log2) :=
          Nat.mul_lt_mul_of_pos_right Nat.lt_log2_self (Nat.pow_pos (by omega))
      _ = 2 * binade := by
          rw [← Nat.pow_add, show n.log2 + 1 + (52 - n.log2) = 53 by omega]; rfl
  rw [nearestRank_mul_pow h0 hl (by omega), units_of_significand hlow hhigh]
  refine ⟨?_, ?_⟩
  · show n * 2 ^ (52 - n.log2) * 2 ^ (n.log2 + e - 52) = n * 2 ^ e
    rw [Nat.mul_assoc, ← Nat.pow_add, show 52 - n.log2 + (n.log2 + e - 52) = e by omega]
  · have hscale : (n.log2 + e - 52) * binade ≤ 1074 * binade := Nat.mul_le_mul_right _ (by omega)
    rw [rankLimit]
    omega

/-- **A natural below `2 ^ 53` is its double.** -/
theorem wholePart_ofNat {n : Nat} (hn : n < 2 * binade) :
    ∃ rank, ofNat n = .finite false rank ∧ wholePart rank.val = n := by
  obtain ⟨hunits, hlt⟩ := units_nearestRank hn
  refine ⟨⟨nearestRank (n * unitsPerOne) 1, hlt⟩, ?_, ?_⟩
  · rw [ofNat, nearest, ofRank, dif_pos hlt]
  · rw [wholePart, hunits, Nat.mul_div_cancel _ unitsPerOne_pos]

theorem wordLimit_eq : wordLimit = maxLength + 1 := by decide

theorem wholePart_ofNat_length {n : Nat} (hn : n ≤ maxLength) :
    ∃ rank, ofNat n = .finite false rank ∧ wholePart rank.val = n := by
  have hlimit : maxLength < 2 * binade := by decide
  exact wholePart_ofNat (Nat.lt_of_le_of_lt hn hlimit)

/-- A length is read back from its double. -/
theorem clampUint32_ofNat {n : Nat} (hn : n ≤ maxLength) : (ofNat n).clampUint32 = n := by
  obtain ⟨rank, hr, hw⟩ := wholePart_ofNat_length hn
  rw [hr]
  show min (wholePart rank.val) (wordLimit - 1) = n
  rw [hw, wordLimit_eq]
  exact Nat.min_eq_left hn

theorem toUint32_ofNat {n : Nat} (hn : n ≤ maxLength) : (ofNat n).toUint32 = n := by
  obtain ⟨rank, hr, hw⟩ := wholePart_ofNat_length hn
  rw [hr]
  show wholePart rank.val % wordLimit = n
  rw [hw, wordLimit_eq]
  exact Nat.mod_eq_of_lt (Nat.lt_succ_of_le hn)

theorem isNaN_ofNat {n : Nat} (hn : n ≤ maxLength) : (ofNat n).isNaN = false := by
  obtain ⟨rank, hr, -⟩ := wholePart_ofNat_length hn
  rw [hr]
  rfl

theorem toUint32_le (x : Double) : x.toUint32 ≤ maxLength := by
  have hmod : ∀ n, n % wordLimit ≤ maxLength := fun n => by
    have hlt : n % wordLimit < wordLimit := Nat.mod_lt n (Nat.pow_pos (by omega))
    rw [wordLimit_eq] at hlt
    rw [wordLimit_eq]
    omega
  rcases x with _ | _ | ⟨_ | _, rank⟩
  · exact Nat.zero_le _
  · exact Nat.zero_le _
  · exact hmod _
  · exact hmod _

end Double

end Es5
