import Es5.Proofs.DecimalValue

/-!
# The shortest digits read back

Whatever grid the search for the shortest digits ends on, the decimal that it finds reads as the
magnitude. So the decimal is rounded to its rank again, and its exponent tells on which side of a
power of ten the rank lies.

* `Scientific.power`: the power of ten that the last digit counts.
* `Double.dropZeros_spec`: removing last zeros divides by a power of ten.
* `Double.searchGrids_reads`: the search ends on a decimal that reads as the magnitude.
* **`Double.ofDecimal_shortest`**: the shortest digits of a rank are rounded to it.
* **`Double.le_exponent_shortest_iff`**: exponents tell ranks from that of a power of ten.
-/

namespace Es5

/-- The power of ten that the last digit counts. -/
def Scientific.power (d : Scientific) : Int := d.exponent + 1 - Double.decimalLength d.digits

theorem Scientific.power_one (e : Int) : (⟨1, e⟩ : Scientific).power = e := by
  have hlength : Double.decimalLength 1 = 1 := by decide
  show e + 1 - (Double.decimalLength 1 : Int) = e
  rw [hlength]
  omega

namespace Double

/-! ## Last zeros -/

/-- Removing last zeros divides by a power of ten. -/
theorem dropZeros_spec : ∀ fuel n, n ≠ 0 → ∃ m k, (dropZeros fuel n).1 = m ∧ m * 10 ^ k = n ∧
    decimalLength n = decimalLength m + k
  | 0, n, _ => ⟨n, 0, rfl, Nat.mul_one n, rfl⟩
  | fuel + 1, n, hn => by
    rw [dropZeros]
    split
    · rename_i hzero
      have hten : n / 10 * 10 = n := Nat.div_mul_cancel (Nat.dvd_of_mod_eq_zero hzero.1)
      have hne : n / 10 ≠ 0 := by omega
      obtain ⟨m, k, hm, hmul, hlength⟩ := dropZeros_spec fuel (n / 10) hne
      refine ⟨m, k + 1, hm, ?_, ?_⟩
      · rw [Nat.pow_succ, ← Nat.mul_assoc, hmul, hten]
      · rw [← hten, decimalLength_mul_ten hne, hlength, Nat.add_assoc]
    · exact ⟨n, 0, rfl, Nat.mul_one n, rfl⟩

/-! ## Grids -/

/-- A multiple on a grid reads as a rank. -/
def ReadsOnGrid (rank n drop : Nat) : Prop :=
  Reads rank (n * (quartersPerOne * Nat.pow 10 drop)) (Nat.pow 10 gridPlaces)

theorem ReadsOnGrid.readsDecimal {rank n drop : Nat} (h : ReadsOnGrid rank n drop) :
    ReadsDecimal rank n (drop - gridPlaces) := by
  rw [ReadsOnGrid] at h
  generalize gridPlaces = places at h ⊢
  have hpow : 10 ^ drop * 10 ^ (-((drop : Int) - places)).toNat =
      10 ^ ((drop : Int) - places).toNat * 10 ^ places := by
    rw [← Nat.pow_add, ← Nat.pow_add]
    congr 1
    omega
  refine Reads.of_mul_eq h (pow_ten_pos places) (pow_ten_pos _) ?_
  calc n * (quartersPerOne * 10 ^ drop) * 10 ^ (-((drop : Int) - places)).toNat
      = n * quartersPerOne * (10 ^ drop * 10 ^ (-((drop : Int) - places)).toNat) := by
        rw [← Nat.mul_assoc n, Nat.mul_assoc]
    _ = n * 10 ^ ((drop : Int) - places).toNat * quartersPerOne * 10 ^ places := by
        rw [hpow, ← Nat.mul_assoc, Nat.mul_right_comm n]

theorem onGrid_reads {rank drop n : Nat} (h : onGrid rank drop = some n) :
    ReadsOnGrid rank n drop := by
  unfold onGrid at h
  simp only at h
  split at h
  · rename_i hfloor hnext
    rw [decide_eq_true_eq] at hfloor hnext
    split at h
    · cases h
      exact hfloor
    · cases h
      exact hnext
  · rename_i hfloor _
    rw [decide_eq_true_eq] at hfloor
    cases h
    exact hfloor
  · rename_i _ hnext
    rw [decide_eq_true_eq] at hnext
    cases h
    exact hnext
  · cases h

/-- The whole part on the finest grid reads as its rank. -/
theorem readsOnGrid_zero {rank : Nat} (hrank : rank ≠ 0) :
    ReadsOnGrid rank (4 * units rank * Nat.pow 10 gridPlaces / quartersPerOne) 0 := by
  have hfine := quartersPerOne_lt (e := gridPlaces) (by decide)
  have hquarters := quartersPerOne_pos
  rw [ReadsOnGrid]
  generalize gridPlaces = places at hfine ⊢
  generalize quartersPerOne = quarters at hfine hquarters ⊢
  show Reads rank (4 * units rank * 10 ^ places / quarters * (quarters * 10 ^ 0)) (10 ^ places)
  rw [Nat.pow_zero, Nat.mul_one]
  generalize 10 ^ places = one at hfine ⊢
  have hdiv := Nat.div_add_mod' (4 * units rank * one) quarters
  have hmod := Nat.mod_lt (4 * units rank * one) hquarters
  have hlower : (lowerEnd rank + 1) * one ≤ 4 * units rank * one :=
    Nat.mul_le_mul_right one (lowerEnd_lt hrank)
  have hupper : (4 * units rank + 1) * one ≤ upperEnd rank * one :=
    Nat.mul_le_mul_right one (lt_upperEnd rank)
  rw [Nat.succ_mul] at hlower hupper
  generalize 4 * units rank * one / quarters * quarters = whole at hdiv ⊢
  have hinside : lowerEnd rank * one < whole ∧ whole < upperEnd rank * one :=
    ⟨by omega, by omega⟩
  rw [Reads]
  split
  · exact ⟨Nat.le_of_lt hinside.1, Nat.le_of_lt hinside.2⟩
  · exact hinside

/--
The search ends on a decimal that reads as the magnitude. It does not go on to finer grids than one
on which it succeeds. By induction on the grids.
-/
theorem searchGrids_reads {rank least : Nat} (hrank : rank ≠ 0)
    (hleast : least ≠ 0 → onGrid rank least ≠ none) : ∀ drop, least ≤ drop →
    ∃ n drop', least ≤ drop' ∧ searchGrids rank drop = scientific n drop' ∧
      ReadsOnGrid rank n drop'
  | 0, hle => ⟨_, 0, hle, rfl, readsOnGrid_zero hrank⟩
  | drop + 1, hle => by
    rw [searchGrids]
    split
    · rename_i n hn
      exact ⟨n, drop + 1, hle, rfl, onGrid_reads hn⟩
    · rename_i hnone
      have hne : least ≠ drop + 1 := by
        rintro rfl
        exact hleast (Nat.succ_ne_zero drop) hnone
      exact searchGrids_reads hrank hleast drop (by omega)

/-! ## Shortest digits -/

/-- The digits on a grid are taken without their last zeros. -/
theorem scientific_spec {n : Nat} (drop : Nat) (hn : n ≠ 0) :
    ∃ k : Nat, (scientific n drop).digits * 10 ^ k = n ∧
      (scientific n drop).power = (drop : Int) - gridPlaces + k := by
  obtain ⟨m, k, hm, hmul, hlength⟩ := dropZeros_spec (decimalLength n) n hn
  have hdigits : (scientific n drop).digits = m := hm
  have hexponent : (scientific n drop).exponent =
      (decimalLength n : Int) - 1 + drop - gridPlaces := rfl
  refine ⟨k, by rw [hdigits, hmul], ?_⟩
  rw [Scientific.power, hdigits, hexponent, hlength]
  omega

/-- The grid that the search starts on. -/
def firstGrid (rank : Nat) : Nat :=
  decimalLength (4 * units rank * Nat.pow 10 gridPlaces / quartersPerOne) - 1

/-- The shortest digits are those on some grid, not finer than one on which there are any. -/
theorem exists_shortest {rank least : Nat} (hrank : rank ≠ 0) (hle : least ≤ firstGrid rank)
    (hleast : least ≠ 0 → onGrid rank least ≠ none) :
    ∃ n drop k : Nat, least ≤ drop ∧ ReadsOnGrid rank n drop ∧
      (shortest rank).digits * 10 ^ k = n ∧
      (shortest rank).power = (drop : Int) - gridPlaces + k := by
  obtain ⟨n, drop, hdrop, hsearch, hreads⟩ := searchGrids_reads hrank hleast _ hle
  obtain ⟨k, hdigits, hpower⟩ :=
    scientific_spec drop (hreads.readsDecimal.digits_ne_zero hrank)
  have hshortest : shortest rank = scientific n drop := hsearch
  exact ⟨n, drop, k, hdrop, hreads, by rw [hshortest, hdigits], by rw [hshortest, hpower]⟩

theorem shortest_reads {rank : Nat} (hrank : rank ≠ 0) :
    ReadsDecimal rank (shortest rank).digits (shortest rank).power := by
  obtain ⟨n, drop, k, -, hreads, hdigits, hpower⟩ :=
    exists_shortest hrank (Nat.zero_le _) fun hne => absurd rfl hne
  rw [hpower, ← readsDecimal_mul_pow, hdigits]
  exact hreads.readsDecimal

theorem shortest_digits_ne_zero {rank : Nat} (hrank : rank ≠ 0) : (shortest rank).digits ≠ 0 :=
  (shortest_reads hrank).digits_ne_zero hrank

/-- **The shortest digits of a rank are rounded to it.** -/
theorem ofDecimal_shortest (negative : Bool) {rank : Fin rankLimit} (hrank : rank.val ≠ 0) :
    ofDecimal negative (shortest rank.val).digits (shortest rank.val).power =
      .finite negative rank :=
  ofDecimal_of_reads negative hrank (shortest_reads hrank)

/-- **Exponents tell ranks from that of a power of ten.** -/
theorem le_exponent_shortest_iff {rank bound : Nat} {e : Int} (hrank : rank ≠ 0)
    (hbound : bound ≠ 0) (hshortest : shortest bound = ⟨1, e⟩) :
    e ≤ (shortest rank).exponent ↔ bound ≤ rank := by
  have hone : ReadsDecimal bound 1 e := by
    have hreads := shortest_reads hbound
    rwa [hshortest, Scientific.power_one] at hreads
  have hreads := shortest_reads hrank
  have hlow := pow_le_of_decimalLength (shortest_digits_ne_zero hrank)
  generalize hd : shortest rank = d at hreads hlow ⊢
  have hhigh := lt_pow_decimalLength d.digits
  have hpos := decimalLength_pos d.digits
  have hpower : d.power = d.exponent + 1 - decimalLength d.digits := rfl
  generalize d.power = power at hreads hpower
  constructor
  · intro he
    refine hone.le_of_le hreads ?_
    calc 1 * 10 ^ e.toNat * 10 ^ (-power).toNat
        ≤ 10 ^ (decimalLength d.digits - 1) * 10 ^ power.toNat * 10 ^ (-e).toNat := by
          rw [Nat.one_mul, ← Nat.pow_add, ← Nat.pow_add, ← Nat.pow_add]
          exact Nat.pow_le_pow_right (by omega) (by omega)
      _ ≤ d.digits * 10 ^ power.toNat * 10 ^ (-e).toNat :=
          Nat.mul_le_mul_right _ (Nat.mul_le_mul_right _ hlow)
  · intro hle
    refine Int.not_lt.mp fun he => ?_
    have hge : rank ≤ bound := by
      refine hreads.le_of_le hone ?_
      calc d.digits * 10 ^ power.toNat * 10 ^ (-e).toNat
          ≤ 10 ^ decimalLength d.digits * 10 ^ power.toNat * 10 ^ (-e).toNat :=
            Nat.mul_le_mul_right _ (Nat.mul_le_mul_right _ (Nat.le_of_lt hhigh))
        _ ≤ 1 * 10 ^ e.toNat * 10 ^ (-power).toNat := by
          rw [Nat.one_mul, ← Nat.pow_add, ← Nat.pow_add, ← Nat.pow_add]
          exact Nat.pow_le_pow_right (by omega) (by omega)
    rw [← hd, Nat.le_antisymm hge hle, hshortest] at he
    exact Int.lt_irrefl _ he

end Double

end Es5
