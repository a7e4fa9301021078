import Es5.Proofs.Nearest
import Es5.Proofs.NumericText
import Mathlib.Algebra.Group.Nat.Defs
import Mathlib.Data.List.Induction

/-!
# Hexadecimal literals digit by digit

The number of a hexadecimal literal is rounded after each digit, but only one of these roundings can
change it: the first natural from `2 ^ 53` on that the digits amount to. Up to there all naturals
are doubles, and from there on a digit is too small to matter. So the literal is read as if zeros
stood for all digits after that. This is the double nearest to the literal, but for one case: the
natural where the rounding happened lies half way between two doubles and is rounded down to the
even one, while the digits after it are not all zero. Then the next double would be nearest.

* `hexValue`: the natural that hexadecimal digits spell.
* `Double.nearestRank_mul_pow_two`, `roundHalfEven_tail`: scaling up, and digits put behind.
* `Double.appendHex_ofNat`, `Double.appendHex_ofNat_of_le`: one digit more, exactly and rounded.
* `Double.foldl_appendHex`, `Double.foldl_appendHex_of_le`: all digits, before and after rounding.
* `Double.TiesDown`: a natural half way between doubles of which the lower one is even.
* **`Eval.toNumber_hex`**: the number of a hexadecimal literal, and when it is the nearest double.
-/

namespace Es5

/-! ## Digits -/

/-- The natural that hexadecimal digits spell. -/
def hexValue (ds : List Nat) : Nat := ds.foldl (fun n d => 16 * n + d) 0

section

variable {ds front back : List Nat}

theorem hexValue_concat (ds : List Nat) (d : Nat) :
    hexValue (ds ++ [d]) = 16 * hexValue ds + d := by
  rw [hexValue, List.foldl_append]
  rfl

theorem hexValue_append (front back : List Nat) :
    hexValue (front ++ back) = hexValue front * 16 ^ back.length + hexValue back := by
  induction back using List.reverseRecOn with
  | nil => simp [hexValue]
  | append_singleton back d ih =>
    have hmove : 16 * (hexValue front * 16 ^ back.length) =
        hexValue front * (16 ^ back.length * 16) := by rw [Nat.mul_left_comm, Nat.mul_comm 16]
    rw [← List.append_assoc, hexValue_concat, hexValue_concat, ih, List.length_append,
      List.length_singleton, Nat.pow_succ, ← hmove]
    omega

theorem hexValue_lt (h : ∀ d ∈ ds, d < 16) : hexValue ds < 16 ^ ds.length := by
  induction ds using List.reverseRecOn with
  | nil => exact Nat.one_pos
  | append_singleton ds d ih =>
    have hd := h d (by simp)
    have hds := ih fun d hd => h d (List.mem_append_left _ hd)
    rw [hexValue_concat, List.length_append, List.length_singleton, Nat.pow_succ]
    omega

/-- Digits that spell at least `m` have a first part that does. -/
theorem exists_front {m : Nat} (hm : m ≤ hexValue ds) (hpos : 0 < m) :
    ∃ front d back, ds = front ++ d :: back ∧ hexValue front < m ∧
      m ≤ hexValue (front ++ [d]) := by
  induction ds using List.reverseRecOn with
  | nil => exact absurd hm (Nat.not_le.mpr hpos)
  | append_singleton ds d ih =>
    by_cases hds : m ≤ hexValue ds
    · obtain ⟨front, d', back, rfl, hfront, hd'⟩ := ih hds
      exact ⟨front, d', back ++ [d], by simp, hfront, hd'⟩
    · exact ⟨ds, d, [], rfl, Nat.lt_of_not_le hds, hm⟩

end

/-! ## Rounding -/

theorem roundHalfEven_mul_mul (num den : Nat) {c : Nat} (hc : 0 < c) :
    roundHalfEven (num * c) (den * c) = roundHalfEven num den := by
  have hlt (a b : Nat) : 2 * (a * c) < b * c ↔ 2 * a < b := by
    rw [← Nat.mul_assoc, Nat.mul_lt_mul_right hc]
  have hgt (a b : Nat) : b * c < 2 * (a * c) ↔ b < 2 * a := by
    rw [← Nat.mul_assoc, Nat.mul_lt_mul_right hc]
  simp only [roundHalfEven, Nat.mul_div_mul_right _ _ hc, Nat.mul_mod_mul_right, hlt, hgt]

/--
Digits put behind a numerator, as many as are put behind the denominator. They matter only if they
break a tie that went down to an even floor.
-/
theorem roundHalfEven_tail {num half c tail : Nat} (hhalf : 0 < half) (htail : tail < c) :
    roundHalfEven (num * c + tail) (2 * half * c) = roundHalfEven num (2 * half) +
      if num % (2 * half) = half ∧ num / (2 * half) % 2 = 0 ∧ tail ≠ 0 then 1 else 0 := by
  obtain ⟨floor, hfloor⟩ : ∃ floor, floor = num / (2 * half) := ⟨_, rfl⟩
  obtain ⟨rest, hrest⟩ : ∃ rest, rest = num % (2 * half) := ⟨_, rfl⟩
  have hlt : rest < 2 * half := hrest ▸ Nat.mod_lt _ (by omega)
  have hsplit : num * c + tail = rest * c + tail + 2 * half * c * floor := by
    have hnum : num = 2 * half * floor + rest := by
      rw [hfloor, hrest]
      exact (Nat.div_add_mod num (2 * half)).symm
    rw [hnum, Nat.add_mul, Nat.mul_right_comm (2 * half) floor c]
    omega
  have hsmall : rest * c + tail < 2 * half * c := by
    have : (rest + 1) * c ≤ 2 * half * c := Nat.mul_le_mul_right c hlt
    have : (rest + 1) * c = rest * c + c := Nat.succ_mul rest c
    omega
  have hdiv : (num * c + tail) / (2 * half * c) = floor := by
    rw [hsplit, Nat.add_mul_div_left _ _ (by omega), Nat.div_eq_of_lt hsmall, Nat.zero_add]
  have hmod : (num * c + tail) % (2 * half * c) = rest * c + tail := by
    rw [hsplit, Nat.add_mul_mod_self_left, Nat.mod_eq_of_lt hsmall]
  simp only [roundHalfEven, hdiv, hmod, ← hfloor, ← hrest]
  have htwice : 2 * half * c = 2 * (half * c) := Nat.mul_assoc 2 half c
  rcases Nat.lt_trichotomy rest half with hless | rfl | hmore
  · have : (rest + 1) * c ≤ half * c := Nat.mul_le_mul_right c hless
    have : (rest + 1) * c = rest * c + c := Nat.succ_mul rest c
    rw [if_pos (by omega), if_pos (by omega), if_neg (by omega), Nat.add_zero]
  · rw [if_neg (show ¬2 * (rest * c + tail) < 2 * rest * c by omega),
      if_neg (show ¬2 * rest < 2 * rest by omega), if_neg (show ¬2 * rest < 2 * rest by omega)]
    split
    · split
      · omega
      · omega
    · rw [if_neg (by omega), Nat.add_zero]
  · have : (half + 1) * c ≤ rest * c := Nat.mul_le_mul_right c hmore
    have : (half + 1) * c = half * c + c := Nat.succ_mul half c
    rw [if_neg (by omega), if_pos (by omega), if_neg (by omega), if_pos (by omega),
      if_neg (by omega)]

namespace Double

theorem nearestRank_one (n : Nat) : nearestRank n 1 =
    (n.log2 - 52) * binade + roundHalfEven n (Nat.pow 2 (n.log2 - 52)) := by
  rw [nearestRank, Nat.div_one, Nat.one_mul]

theorem le_log2 {n : Nat} (hn : binade ≤ n) : 52 ≤ n.log2 := by
  have hpos := binade_pos
  exact (Nat.le_log2 (by omega)).mpr hn

/-- A count of units that fills a significand is rounded alike at every scale. -/
theorem nearestRank_mul_pow_two {n : Nat} (hn : binade ≤ n) (k : Nat) :
    nearestRank (n * 2 ^ k) 1 = nearestRank n 1 + k * binade := by
  have hpos : 0 < 2 ^ k := Nat.pow_pos (by omega)
  have hn0 : n ≠ 0 := by
    have := binade_pos
    omega
  have hscale : (n * 2 ^ k).log2 - 52 = n.log2 - 52 + k := by
    have hlog : (n * 2 ^ k).log2 = n.log2 + k := log2_mul_pow_add hn0 hpos
    have := le_log2 hn
    omega
  have hpow : Nat.pow 2 (n.log2 - 52 + k) = Nat.pow 2 (n.log2 - 52) * 2 ^ k := Nat.pow_add _ _ _
  rw [nearestRank_one, nearestRank_one, hscale, hpow, roundHalfEven_mul_mul _ _ hpos, Nat.add_mul]
  omega

theorem le_roundHalfEven (num den : Nat) : num / den ≤ roundHalfEven num den := by
  rw [roundHalfEven]
  split
  · omega
  · split <;> omega

theorem le_nearestRank {n s : Nat} (hn : binade * Nat.pow 2 s ≤ n) :
    (s + 1) * binade ≤ nearestRank n 1 := by
  have hpos : 0 < binade * Nat.pow 2 s := Nat.mul_pos binade_pos (Nat.pow_pos (by omega))
  have hlog : 52 + s ≤ n.log2 := by
    refine (Nat.le_log2 (by omega)).mpr ?_
    rw [Nat.pow_add]
    exact hn
  obtain ⟨scale, hscale⟩ : ∃ scale, scale = n.log2 - 52 := ⟨_, rfl⟩
  have hstep : 0 < Nat.pow 2 scale := Nat.pow_pos (by omega)
  have hfull : binade ≤ n / Nat.pow 2 scale := by
    rw [Nat.le_div_iff_mul_le hstep]
    calc binade * 2 ^ scale = 2 ^ n.log2 := by
          rw [show n.log2 = 52 + scale by omega, Nat.pow_add]
          rfl
      _ ≤ n := Nat.log2_self_le (by omega)
  have hround := le_roundHalfEven n (Nat.pow 2 scale)
  have hle : s * binade ≤ scale * binade := Nat.mul_le_mul_right _ (by omega)
  rw [nearestRank_one, ← hscale, Nat.succ_mul]
  omega

/-- A rank with a full significand, some binades further on. -/
theorem scale_add_binades {rank : Nat} (hrank : binade ≤ rank) (k : Nat) :
    scale (rank + k * binade) = scale rank + k ∧
      units (rank + k * binade) = units rank * 2 ^ k := by
  have hfull : binade ≤ significand rank := by
    rw [significand, if_neg (Nat.not_lt.mpr hrank)]
    exact Nat.le_add_right _ _
  have hlt := significand_lt rank
  have hmove : rank + k * binade = (scale rank + k) * binade + significand rank := by
    have := rank_eq rank
    rw [Nat.add_mul]
    omega
  rw [hmove, units_of_significand hfull hlt, units, Nat.mul_assoc]
  exact ⟨(scale_of_significand hfull hlt).1, congrArg _ (Nat.pow_add 2 _ _)⟩

/-- Less than half a step above a magnitude is rounded back to it. -/
theorem nearestRank_units_add {rank extra : Nat} (hrank : rank ≠ 0)
    (hextra : 2 * extra < Nat.pow 2 (scale rank)) :
    nearestRank (units rank + extra) 1 = rank := by
  refine nearestRank_of_reads Nat.one_pos ?_
  have hlow := lowerEnd_lt hrank
  rw [Reads, Nat.mul_one, Nat.mul_one, upperEnd]
  split <;> omega

/-! ## One digit more -/

/-- A digit put behind a natural below `2 ^ 53` is put there exactly, and rounded once. -/
theorem appendHex_ofNat {n : Nat} (hn : n < 2 * binade) (d : Nat) :
    (ofNat n).appendHex d = ofNat (16 * n + d) := by
  obtain ⟨hunits, hlt⟩ := units_nearestRank hn
  rw [ofNat, nearest, ofRank, dif_pos hlt, appendHex, hunits, ofNat, Nat.add_mul, Nat.mul_assoc]

theorem le_scale {rank s : Nat} (h : (s + 1) * binade ≤ rank) : s ≤ scale rank := by
  have hfull : binade ≤ rank := Nat.le_trans (Nat.le_mul_of_pos_left binade (Nat.succ_pos s)) h
  rw [scale, Nat.le_sub_iff_add_le (Nat.div_pos hfull binade_pos),
    Nat.le_div_iff_mul_le binade_pos]
  exact h

/-- Four scales above that of two, a digit is less than half a step. -/
theorem digit_lt_step {d e s : Nat} (hone : unitsPerOne = Nat.pow 2 e) (hd : d < 16)
    (hs : e + 1 ≤ s) : 2 * (d * unitsPerOne) < Nat.pow 2 (s + 4) := by
  calc 2 * (d * unitsPerOne) < 32 * unitsPerOne := by
        rw [← Nat.mul_assoc]
        exact Nat.mul_lt_mul_of_pos_right (by omega) unitsPerOne_pos
    _ = 2 ^ (e + 1 + 4) := by
        rw [hone]
        show 32 * 2 ^ e = 2 ^ (e + 5)
        rw [Nat.pow_add, Nat.mul_comm]
    _ ≤ 2 ^ (s + 4) := Nat.pow_le_pow_right (by omega) (by omega)

/-- A digit put behind a greater natural does not matter. -/
theorem appendHex_ofNat_of_le {n d : Nat} (hn : 2 * binade ≤ n) (hd : d < 16) :
    (ofNat n).appendHex d = ofNat (n * 16) := by
  obtain ⟨e, -, hone⟩ := unitsPerOne_eq
  have hlow : binade * Nat.pow 2 (e + 1) ≤ n * unitsPerOne := by
    rw [pow_succ_scale, ← hone, Nat.mul_left_comm, ← Nat.mul_assoc]
    exact Nat.mul_le_mul_right _ hn
  have hfull : binade ≤ n * unitsPerOne :=
    Nat.le_trans (Nat.le_mul_of_pos_right _ (Nat.pow_pos (by omega))) hlow
  have hnext : nearestRank (n * 16 * unitsPerOne) 1 =
      nearestRank (n * unitsPerOne) 1 + 4 * binade := by
    rw [Nat.mul_right_comm]
    exact nearestRank_mul_pow_two hfull 4
  have hrank := le_nearestRank hlow
  rw [ofNat, nearest, ofNat, nearest, hnext]
  generalize nearestRank (n * unitsPerOne) 1 = rank at hrank
  have hfull' : binade ≤ rank :=
    Nat.le_trans (Nat.le_mul_of_pos_left binade (Nat.succ_pos _)) hrank
  obtain ⟨hscale, hunits⟩ := scale_add_binades hfull' 4
  rw [ofRank]
  split
  · have hpos := binade_pos
    have hstep := digit_lt_step hone hd (le_scale hrank)
    rw [← hscale] at hstep
    show ofRank false (nearestRank (16 * units rank + d * unitsPerOne) 1) = _
    rw [Nat.mul_comm 16, show units rank * 16 = _ from hunits.symm,
      nearestRank_units_add (by omega) hstep]
  · rename_i hlimit
    rw [ofRank, dif_neg (by omega)]
    rfl

/-! ## All digits -/

theorem ofNat_zero : ofNat 0 = zero := by
  have hrank : nearestRank 0 1 = 0 := by decide
  rw [ofNat, Nat.zero_mul, nearest, hrank, zero]

/-- As long as the natural that is spelled is below `2 ^ 53`, no digit is rounded. -/
theorem foldl_appendHex {ds : List Nat} (h : hexValue ds < 2 * binade) :
    ds.foldl appendHex zero = ofNat (hexValue ds) := by
  induction ds using List.reverseRecOn with
  | nil => rw [List.foldl_nil, hexValue, List.foldl_nil, ofNat_zero]
  | append_singleton ds d ih =>
    rw [hexValue_concat] at h ⊢
    rw [List.foldl_append, ih (by omega), List.foldl_cons, List.foldl_nil,
      appendHex_ofNat (by omega)]

/-- From there on the digits count as zeros. -/
theorem foldl_appendHex_of_le {ds : List Nat} (hds : ∀ d ∈ ds, d < 16) {n : Nat}
    (hn : 2 * binade ≤ n) : ds.foldl appendHex (ofNat n) = ofNat (n * 16 ^ ds.length) := by
  induction ds generalizing n with
  | nil => rw [List.foldl_nil, List.length_nil, Nat.pow_zero, Nat.mul_one]
  | cons d ds ih =>
    obtain ⟨hd, hrest⟩ := List.forall_mem_cons.mp hds
    rw [List.foldl_cons, appendHex_ofNat_of_le hn hd, ih hrest (by omega), List.length_cons,
      Nat.mul_assoc, ← Nat.pow_succ']

/-- A literal is read as if zeros stood after the digit that takes it to `2 ^ 53`. -/
theorem foldl_appendHex_append {front back : List Nat} {d : Nat}
    (hback : ∀ d ∈ back, d < 16) (hfront : hexValue front < 2 * binade)
    (hd : 2 * binade ≤ hexValue (front ++ [d])) :
    (front ++ d :: back).foldl appendHex zero =
      ofNat (hexValue (front ++ [d]) * 16 ^ back.length) := by
  rw [List.foldl_append, foldl_appendHex hfront, List.foldl_cons, appendHex_ofNat hfront,
    ← hexValue_concat, foldl_appendHex_of_le hback hd]

/-! ## What the digits that do not matter would do -/

/-- A natural half way between two doubles, of which the lower one is even and so is taken. -/
def TiesDown (n : Nat) : Prop :=
  let step := Nat.pow 2 (n.log2 - 52)
  2 * (n % step) = step ∧ n / step % 2 = 0

instance (n : Nat) : Decidable (TiesDown n) := inferInstanceAs (Decidable (_ ∧ _))

/-- A tie that goes down leaves an even rank. -/
theorem TiesDown.even {p : Nat} (h : TiesDown p) : nearestRank p 1 % 2 = 0 := by
  obtain ⟨htie, hfloor⟩ := h
  have hround : roundHalfEven p (Nat.pow 2 (p.log2 - 52)) = p / Nat.pow 2 (p.log2 - 52) := by
    rw [roundHalfEven, if_neg (by omega), if_neg (by omega), hfloor, Nat.add_zero]
  have heven : binade % 2 = 0 := by decide
  rw [nearestRank_one, hround, Nat.add_mod, Nat.mul_mod, heven, hfloor, Nat.mul_zero]

theorem ofNat_eq_ofRank {n : Nat} (hn : binade ≤ n) :
    ofNat n = ofRank false (nearestRank n 1 + 1074 * binade) := by
  obtain ⟨e, he, hone⟩ := unitsPerOne_eq
  rw [ofNat, nearest, hone, ← he]
  exact congrArg _ (nearestRank_mul_pow_two hn e)

section

variable {p k tail : Nat} (hp : 2 * binade ≤ p)

include hp

theorem log2_tail (htail : tail < 16 ^ k) : (p * 16 ^ k + tail).log2 = p.log2 + 4 * k := by
  have hpos := binade_pos
  have hpow : 16 ^ k = Nat.pow 2 (4 * k) := (Nat.pow_mul 2 4 k).symm
  rw [hpow] at htail ⊢
  exact log2_mul_pow_add (by omega) htail

/-- Digits put behind a natural from `2 ^ 53` on matter only if they break a tie that went down. -/
theorem nearestRank_tail (htail : tail < 16 ^ k) : nearestRank (p * 16 ^ k + tail) 1 =
    nearestRank p 1 + 4 * k * binade + if TiesDown p ∧ tail ≠ 0 then 1 else 0 := by
  have hpos := binade_pos
  have hlog : 53 ≤ p.log2 := (Nat.le_log2 (by omega)).mpr hp
  obtain ⟨s, hs⟩ : ∃ s, p.log2 - 52 = s + 1 := ⟨p.log2 - 53, by omega⟩
  have hscale : p.log2 + 4 * k - 52 = s + 1 + 4 * k := by omega
  have hstep : Nat.pow 2 (s + 1 + 4 * k) = 2 * Nat.pow 2 s * 16 ^ k := by
    rw [← pow_succ_scale]
    show 2 ^ (s + 1 + 4 * k) = 2 ^ (s + 1) * (2 ^ 4) ^ k
    rw [← Nat.pow_mul, ← Nat.pow_add]
  have hties : TiesDown p ∧ tail ≠ 0 ↔ p % (2 * Nat.pow 2 s) = Nat.pow 2 s ∧
      p / (2 * Nat.pow 2 s) % 2 = 0 ∧ tail ≠ 0 := by
    rw [TiesDown, hs, pow_succ_scale, and_assoc]
    exact and_congr (by omega) Iff.rfl
  have hhalf : 0 < Nat.pow 2 s := Nat.pow_pos (by omega)
  rw [nearestRank_one, nearestRank_one, log2_tail hp htail, hscale, hstep, hs, pow_succ_scale,
    roundHalfEven_tail hhalf htail, Nat.add_mul (s + 1)]
  simp only [hties]
  omega

/--
The double of a natural from `2 ^ 53` on with zeros behind it, and with other digits: it is the same
one, or the next one if the digits break a tie that went down.
-/
theorem ofNat_tail (htail : tail < 16 ^ k) : ∃ rank, ofNat (p * 16 ^ k) = ofRank false rank ∧
    ofNat (p * 16 ^ k + tail) =
      ofRank false (rank + if TiesDown p ∧ tail ≠ 0 then 1 else 0) ∧
    (TiesDown p → rank % 2 = 0) := by
  have hpos : 0 < 16 ^ k := Nat.pow_pos (by omega)
  have hfull : binade ≤ p * 16 ^ k := Nat.le_trans (by omega) (Nat.le_mul_of_pos_right p hpos)
  have hzeros := nearestRank_tail hp hpos
  rw [if_neg (by simp), Nat.add_zero, Nat.add_zero] at hzeros
  refine ⟨nearestRank p 1 + 4 * k * binade + 1074 * binade, ?_, ?_, fun h => ?_⟩
  · rw [ofNat_eq_ofRank hfull, hzeros]
  · rw [ofNat_eq_ofRank (Nat.le_trans hfull (Nat.le_add_right _ _)), nearestRank_tail hp htail,
      Nat.add_right_comm]
  · have heven : binade % 2 = 0 := by decide
    have hmany : 4 * k * binade % 2 = 0 := by
      rw [Nat.mul_mod, heven, Nat.mul_zero, Nat.zero_mod]
    have hrank := h.even
    omega

/-- The digits change the double exactly if they break a tie that went down to a finite one. -/
theorem ofNat_eq_ofNat_tail_iff (htail : tail < 16 ^ k) :
    ofNat (p * 16 ^ k) = ofNat (p * 16 ^ k + tail) ↔
      ¬(TiesDown p ∧ tail ≠ 0 ∧ ofNat (p * 16 ^ k) ≠ .infinity false) := by
  obtain ⟨rank, hzeros, hdigits, heven⟩ := ofNat_tail hp htail
  rw [hzeros, hdigits]
  by_cases h : TiesDown p ∧ tail ≠ 0
  · have hlimit : rankLimit % 2 = 0 := by decide
    have hrank := heven h.1
    rw [if_pos h]
    by_cases hfinite : rank < rankLimit
    · rw [ofRank, ofRank, dif_pos hfinite, dif_pos (by omega)]
      simp [h]
    · rw [ofRank, ofRank, dif_neg hfinite, dif_neg (by omega)]
      simp
  · rw [if_neg h, Nat.add_zero]
    exact iff_of_true rfl fun h' => h ⟨h'.1, h'.2.1⟩

/-- Where the digits change the double, it is finite, and they lead to the next one. -/
theorem exists_next_of_ne (htail : tail < 16 ^ k)
    (hne : ofNat (p * 16 ^ k) ≠ ofNat (p * 16 ^ k + tail)) : ∃ rank, rank + 1 < rankLimit ∧
      ofNat (p * 16 ^ k) = ofRank false rank ∧
      ofNat (p * 16 ^ k + tail) = ofRank false (rank + 1) := by
  obtain ⟨rank, hzeros, hdigits, heven⟩ := ofNat_tail hp htail
  by_cases h : TiesDown p ∧ tail ≠ 0
  · have hlimit : rankLimit % 2 = 0 := by decide
    have hrank := heven h.1
    rw [if_pos h] at hdigits
    refine ⟨rank, Nat.lt_of_not_le fun hge => hne ?_, hzeros, hdigits⟩
    rw [hzeros, hdigits, ofRank, ofRank, dif_neg (by omega), dif_neg (by omega)]
  · rw [if_neg h, Nat.add_zero] at hdigits
    exact absurd (hzeros.trans hdigits.symm) hne

end

end Double

/-! ## Literals -/

theorem HexDigit.not_blank {c : Char} {d : Nat} (h : HexDigit c d) : ¬Blank c := by
  have hall : ("0123456789abcdef".toList ++ "0123456789ABCDEF".toList).all (!isBlank ·) := by
    decide +kernel
  rw [← isBlank_iff, Bool.not_eq_true, ← Bool.not_eq_true']
  refine List.all_eq_true.mp hall c (List.mem_append.mpr ?_)
  exact h.imp List.mem_of_getElem? List.mem_of_getElem?

theorem hexDigits_mem {cs : List Char} {ds : List Nat} (h : List.Forall₂ HexDigit cs ds) :
    (∀ c ∈ cs, ¬Blank c) ∧ ∀ d ∈ ds, d < 16 := by
  induction h with
  | nil => exact ⟨nofun, nofun⟩
  | cons hd _ ih =>
    exact ⟨List.forall_mem_cons.mpr ⟨hd.not_blank, ih.1⟩,
      List.forall_mem_cons.mpr ⟨hd.lt, ih.2⟩⟩

section

variable {s : String} {before after cs : List Char} {x : Char} {ds : List Nat}
  (hs : s.toList = before ++ '0' :: x :: cs ++ after) (hbefore : ∀ c ∈ before, Blank c)
  (hafter : ∀ c ∈ after, Blank c) (hx : x = 'x' ∨ x = 'X') (hcs : cs ≠ [])
  (hds : List.Forall₂ HexDigit cs ds)

include hs hbefore hafter hx hcs hds

/-- A hexadecimal literal is read digit by digit, whatever blanks stand around it. -/
theorem readNumber_hex : readNumber s = ds.foldl Double.appendHex .zero := by
  have hstripped : Stripped s.toList ('0' :: x :: cs) := by
    refine ⟨⟨before, after, hs, hbefore, hafter⟩, ?_, fun c hc => ?_⟩
    · rintro c ⟨⟩
      decide
    · obtain ⟨y, ys, rfl⟩ := List.exists_cons_of_ne_nil hcs
      rw [List.getLast?_cons_cons, List.getLast?_cons_cons] at hc
      exact (hexDigits_mem hds).1 c (List.mem_of_getLast? hc)
  exact ((numericText_iff hstripped).mp (.hex hx hcs hds)).2

/--
**The number of a hexadecimal literal.** Let `n` be the natural that its digits spell. Below
`2 ^ 53` the number is the double of `n`. Otherwise there is a digit that takes the literal to
`2 ^ 53`, and with the natural `p` that is spelled up to this digit:

* the number is the double of `p` with a zero for every digit after that;
* it is the double of `n` unless `p` lies half way between two doubles, the lower of which is even,
  the digits after that are not all zero, and the number is finite;
* where it is not the double of `n`, that is finite too and the next one.
-/
theorem Eval.toNumber_hex {κ σ : Type} (caller : Caller κ σ) (w : World κ σ) :
    let n := hexValue ds
    let number := readNumber s
    toNumber caller (.string s) w = .ok number w ∧
    (n < 2 * binade → number = .ofNat n) ∧
    (2 * binade ≤ n → ∃ front d back, ds = front ++ d :: back ∧ hexValue front < 2 * binade ∧
      2 * binade ≤ hexValue (front ++ [d])) ∧
    ∀ front d back, ds = front ++ d :: back → hexValue front < 2 * binade →
      2 * binade ≤ hexValue (front ++ [d]) →
      let p := hexValue (front ++ [d])
      let zeros := p * 16 ^ back.length
      n = zeros + hexValue back ∧ number = .ofNat zeros ∧
      (number = .ofNat n ↔
        ¬(Double.TiesDown p ∧ hexValue back ≠ 0 ∧ number ≠ .infinity false)) ∧
      (number ≠ .ofNat n → ∃ rank, rank + 1 < rankLimit ∧ number = .ofRank false rank ∧
        .ofNat n = Double.ofRank false (rank + 1)) := by
  intro n number
  have hread : number = ds.foldl Double.appendHex .zero :=
    readNumber_hex hs hbefore hafter hx hcs hds
  have hlt := (hexDigits_mem hds).2
  have hpos := Double.binade_pos
  refine ⟨rfl, fun hn => ?_, fun hn => exists_front hn (by omega), ?_⟩
  · rw [hread, Double.foldl_appendHex hn]
  · intro front d back hsplit hfront hd p zeros
    have hback : ∀ d ∈ back, d < 16 := fun d hd => hlt d (by
      rw [hsplit]
      exact List.mem_append_right _ (List.mem_cons_of_mem _ hd))
    have hn : n = zeros + hexValue back := by
      show hexValue ds = _
      rw [hsplit, ← hexValue_append, List.append_assoc, List.singleton_append]
    have hnumber : number = .ofNat zeros := by
      rw [hread, hsplit, Double.foldl_appendHex_append hback hfront hd]
    have htail := hexValue_lt hback
    rw [hn, hnumber]
    exact ⟨rfl, rfl, Double.ofNat_eq_ofNat_tail_iff hd htail, Double.exists_next_of_ne hd htail⟩

end

/--
A literal of `2 ^ 57 + 17`. Up to the last digit but one it spells `2 ^ 53 + 1`, a tie that goes
down, and so it is read as `2 ^ 57 + 16`, another such tie.
-/
theorem Eval.toNumber_hex_tie :
    let s := " 0x200000000000011\n"
    let cs := "200000000000011".toList
    let ds := [2, 0, 0, 0, 0, 0, 0, 0, 0, 0, 0, 0, 0, 1, 1]
    s.toList = [' '] ++ '0' :: 'x' :: cs ++ ['\n'] ∧ cs ≠ [] ∧ List.Forall₂ HexDigit cs ds ∧
      hexValue ds = 2 ^ 57 + 17 ∧ readNumber s = .ofNat (2 ^ 57 + 16) ∧
      readNumber s ≠ .ofNat (2 ^ 57 + 17) := by
  intro s cs ds
  have hs : s.toList = [' '] ++ '0' :: 'x' :: cs ++ ['\n'] := by decide +kernel
  have hds : List.Forall₂ HexDigit cs ds := mapM_hexDigit?.mp (by decide +kernel)
  have hvalue : hexValue ds = 2 ^ 57 + 17 := by decide +kernel
  have hspace : Blank ' ' := by decide
  have hnewline : Blank '\n' := by decide
  obtain ⟨-, -, -, hrounded⟩ := toNumber_hex hs (List.forall_mem_singleton.mpr hspace)
    (List.forall_mem_singleton.mpr hnewline) (Or.inl rfl) (List.cons_ne_nil _ _) hds
    (fun _ _ _ => throw .exhausted : Caller Unit Unit) ⟨#[], ()⟩
  obtain ⟨-, hnumber, hiff, -⟩ := hrounded [2, 0, 0, 0, 0, 0, 0, 0, 0, 0, 0, 0, 0] 1 [1] rfl
    (by decide +kernel) (by decide +kernel)
  rw [hvalue] at hiff
  have hzeros : hexValue [2, 0, 0, 0, 0, 0, 0, 0, 0, 0, 0, 0, 0, 1] * 16 ^ 1 = 2 ^ 57 + 16 := by
    decide +kernel
  refine ⟨hs, List.cons_ne_nil _ _, hds, hvalue, hnumber.trans (congrArg Double.ofNat hzeros),
    fun he => hiff.mp he ⟨?_, ?_, ?_⟩⟩
  · decide +kernel
  · decide
  · decide +kernel

end Es5
