import Es5.Eval.Conversion
import Es5.Proofs.NumeralText
import Es5.Proofs.ScriptText

/-!
# Numbers as texts

The text of a number is a numeral with a sign, and the numeral stands for the shortest digits. So
the number is read back from its text, and numbers with one text are equal.

* `Numeral.Spells`: a numeral stands for a decimal, maybe with zeros behind it.
* `Double.exists_positional`, `Double.exists_exponential`: both ways of writing give numerals.
* `Double.exists_numeral`: the text of a magnitude is that of a numeral.
* `Double.readNumber_write`: a number is read back from its text.
* **`Double.text_round_trip`**: texts, keys and their form.
-/

namespace Es5

/-! ## Numerals of decimals -/

/-- A numeral stands for a decimal, maybe with zeros behind it. -/
def Numeral.Spells (m : Numeral) (d : Scientific) : Prop :=
  ∃ k : Nat, m.value = d.digits * 10 ^ k ∧ d.power = m.power + k

namespace Double

variable {d : Scientific}

/-- A decimal in positional form is a numeral without an exponent. -/
theorem exists_positional (hd : d.digits ≠ 0) :
    ∃ m : Numeral, m.chars = positional .script d ∧ m.exponent = none ∧ m.Spells d := by
  have hsignificant := significant_digitChars hd
  have hvalue := Numeral.digitsValue_digitChars d.digits
  have hpower : d.power = d.exponent + 1 - (digitChars d.digits).length := rfl
  unfold Numeral.Spells positional
  rw [hpower]
  generalize digitChars d.digits = digits at hsignificant hvalue ⊢
  generalize d.exponent + 1 = point
  dsimp only
  split
  · obtain ⟨m, hchars, hexponent, hm, hp⟩ :=
      Numeral.exists_fraction hsignificant (-point).toNat
    refine ⟨m, hchars, hexponent, 0, by rw [hm, hvalue, Nat.pow_zero, Nat.mul_one], ?_⟩
    rw [hp]
    omega
  · split
    · obtain ⟨m, hchars, hexponent, hm, hp⟩ :=
        Numeral.exists_whole hsignificant (point - digits.length).toNat
      refine ⟨m, ?_, hexponent, _, by rw [hm, hvalue], ?_⟩
      · rw [hchars]
        exact (List.append_nil _).symm
      · rw [hp]
        omega
    · have hpoint : 0 < point.toNat := by omega
      have hdrop : digits.drop point.toNat ≠ [] := by
        rw [Ne, List.drop_eq_nil_iff]
        omega
      obtain ⟨m, hwhole, hfraction, hexponent, hm⟩ :=
        Numeral.exists_pointed hsignificant hpoint none
      refine ⟨m, ?_, hexponent, 0, by rw [hm, hvalue, Nat.pow_zero, Nat.mul_one], ?_⟩
      · simp [Numeral.chars, Numeral.fractionPart, Numeral.exponentPart, hwhole, hfraction,
          hexponent, hdrop]
      · rw [Numeral.power, hexponent, hfraction, List.length_drop, Option.getD_none]
        omega

/-- A decimal with an exponent is a numeral. -/
theorem exists_exponential (hd : d.digits ≠ 0) :
    ∃ m : Numeral, m.chars = exponential .script d ∧ m.exponent = some d.exponent ∧
      m.Spells d := by
  have hsignificant := significant_digitChars hd
  have hvalue := Numeral.digitsValue_digitChars d.digits
  have hpower : d.power = d.exponent + 1 - (digitChars d.digits).length := rfl
  obtain ⟨m, hwhole, hfraction, hexponent, hm⟩ :=
    Numeral.exists_pointed hsignificant Nat.one_pos (some d.exponent)
  obtain ⟨c, rest, hdigits, -⟩ := hsignificant.exists_cons
  rw [hdigits] at hwhole hfraction hpower
  refine ⟨m, ?_, hexponent, 0, by rw [hm, hvalue, Nat.pow_zero, Nat.mul_one], ?_⟩
  · rw [Numeral.chars, Numeral.fractionPart, Numeral.exponentPart, hwhole, hfraction, hexponent,
      exponential, hdigits]
    generalize d.exponent = e
    cases rest <;> cases e <;> rfl
  · rw [Numeral.power, hexponent, hfraction, hpower, List.length_cons, List.drop_one,
      List.tail_cons, Option.getD_some]
    omega

/-! ## Texts -/

/-- A magnitude other than zero is written as a numeral for its shortest digits. -/
theorem exists_numeral {rank : Nat} (hrank : rank ≠ 0) :
    ∃ m : Numeral, m.chars = writeMagnitude .script rank ∧ m.Spells (shortest rank) ∧
      (m.exponent = none ↔ -6 ≤ (shortest rank).exponent ∧ (shortest rank).exponent ≤ 20) := by
  have hd := shortest_digits_ne_zero hrank
  rw [writeMagnitude, if_neg hrank]
  generalize shortest rank = d at hd
  dsimp only
  split
  · rename_i hrange
    obtain ⟨m, hchars, hexponent, hspells⟩ := exists_positional hd
    exact ⟨m, hchars, hspells, fun _ => hrange, fun _ => hexponent⟩
  · rename_i hrange
    obtain ⟨m, hchars, hexponent, hspells⟩ := exists_exponential hd
    refine ⟨m, hchars, hspells, fun hnone => ?_, fun h => absurd h hrange⟩
    rw [hexponent] at hnone
    cases hnone

theorem write_finite {m : Numeral} (negative : Bool) {rank : Fin rankLimit} (hrank : rank.val ≠ 0)
    (hm : m.chars = writeMagnitude .script rank.val) :
    (finite negative rank).write .script = String.ofList (m.signedChars negative) := by
  rw [Numeral.signedChars, hm, String.ofList_append, write]
  cases negative with
  | false => rfl
  | true => simp [hrank]

/-- The number of a numeral that stands for the shortest digits. -/
theorem ofDecimal_spelled (negative : Bool) {rank : Fin rankLimit} (hrank : rank.val ≠ 0)
    {m : Numeral} (hm : m.Spells (shortest rank.val)) :
    ofDecimal negative m.value m.power = .finite negative rank := by
  obtain ⟨k, hvalue, hpower⟩ := hm
  refine ofDecimal_of_reads negative hrank ?_
  rw [hvalue, readsDecimal_mul_pow, ← hpower]
  exact shortest_reads hrank

/-- The texts that are read without digits, and that of zero. -/
theorem readNumber_special : readNumber "NaN" = .nan ∧ readNumber "0" = .zero ∧
    ∀ negative : Bool,
      readNumber ((if negative then "-" else "") ++ "Infinity") = .infinity negative := by
  decide +kernel

/-- A zero of either sign has the text of zero. -/
theorem write_of_isZero {x : Double} (hx : x.isZero = true) : x.write .script = "0" := by
  rcases x with _ | _ | ⟨negative, rank⟩
  · cases hx
  · cases hx
  · have hrank : rank.val = 0 := by simpa [isZero] using hx
    rw [write, writeMagnitude, if_pos hrank, hrank, bne_self_eq_false, Bool.or_false]
    cases negative <;> rfl

/-- A number is read back from its text, and negative zero as zero. -/
theorem readNumber_write (x : Double) :
    readNumber (x.write .script) = if x.isZero then .zero else x := by
  by_cases hzero : x.isZero = true
  · rw [write_of_isZero hzero, if_pos hzero, readNumber_special.2.1]
  rw [if_neg hzero]
  rcases x with _ | _ | ⟨negative, rank⟩
  · exact readNumber_special.1
  · exact readNumber_special.2.2 _
  · have hrank : rank.val ≠ 0 := by simpa [isZero] using hzero
    obtain ⟨m, hchars, hspells, -⟩ := exists_numeral hrank
    rw [write_finite negative hrank hchars, Numeral.readNumber_signedChars,
      ofDecimal_spelled negative hrank hspells]

/-- Numbers have one text exactly if they are equal, or both not-a-number. -/
theorem write_eq_write_iff {x y : Double} : x.write .script = y.write .script ↔
    x.equal y = true ∨ x.isNaN = true ∧ y.isNaN = true := by
  constructor
  · intro htext
    have hread : (if x.isZero then zero else x) = if y.isZero then zero else y := by
      rw [← readNumber_write, htext, readNumber_write]
    by_cases hx : x.isZero = true
    · by_cases hy : y.isZero = true
      · have hnan : x.isNaN = false := by
          cases x <;> first | rfl | cases hx
        exact Or.inl (by simp [equal, hnan, hx, hy])
      · rw [if_pos hx, if_neg hy] at hread
        exact absurd (hread ▸ rfl) hy
    · by_cases hy : y.isZero = true
      · rw [if_neg hx, if_pos hy] at hread
        exact absurd (hread ▸ rfl) hx
      · rw [if_neg hx, if_neg hy] at hread
        subst hread
        cases hnan : x.isNaN with
        | false => exact Or.inl (equal_self hnan)
        | true => exact Or.inr ⟨rfl, rfl⟩
  · rintro (hequal | ⟨hx, hy⟩)
    · simp only [equal, Bool.and_eq_true, Bool.or_eq_true, beq_iff_eq] at hequal
      rcases hequal.2 with ⟨hx, hy⟩ | rfl
      · rw [write_of_isZero hx, write_of_isZero hy]
      · rfl
    · cases x <;> cases hx
      cases y <;> cases hy
      rfl

end Double

/-! ## Round trip -/

/--
**Numbers survive the trip through their texts.** A number is read back from its text, with
negative zero as zero, so numbers are one property key exactly if they are equal or both
not-a-number. The text of a finite number other than zero is a numeral behind its sign. It has an
exponent unless the magnitude is at least that of `1e-6` and below that of `1e21`.
-/
theorem Double.text_round_trip {κ σ : Type} (caller : Caller κ σ) (w : World κ σ) :
    (∀ x : Double, readNumber x.scriptText = if x.isZero then .zero else x) ∧
    (∀ x y : Double, Eval.toText caller (.number x) w = Eval.toText caller (.number y) w ↔
      x.equal y = true ∨ x.isNaN = true ∧ y.isNaN = true) ∧
    ∀ (negative : Bool) (rank : Fin rankLimit), rank.val ≠ 0 →
      let x := Double.finite negative rank
      let text := x.scriptText.toList
      (∃ m : Numeral, text = (if negative then ['-'] else []) ++ m.chars) ∧
      ('e' ∉ text ↔ (ofDecimal false 1 (-6)).magnitude ≤ x.magnitude ∧
        x.magnitude < (ofDecimal false 1 21).magnitude) := by
  refine ⟨fun x => ?_, fun x y => ?_, fun negative rank hrank => ?_⟩
  · rw [scriptText_eq_write, readNumber_write]
  · have hkey : ∀ x : Double, Eval.toText caller (.number x) w = .ok (x.write .script) w :=
      fun x => by
        rw [← scriptText_eq_write]
        rfl
    rw [hkey, hkey, EStateM.Result.ok.injEq, write_eq_write_iff]
    exact and_iff_left rfl
  · obtain ⟨m, hchars, -, hexponent⟩ := exists_numeral hrank
    have htext : (finite negative rank).scriptText.toList = m.signedChars negative := by
      rw [scriptText_eq_write, write_finite negative hrank hchars, String.toList_ofList]
    have hsign : 'e' ∉ (if negative then ['-'] else []) := by cases negative <;> decide
    refine ⟨⟨m, htext⟩, ?_⟩
    show 'e' ∉ (finite negative rank).scriptText.toList ↔
      fractionLimit.magnitude ≤ units rank.val ∧ units rank.val < exponentLimit.magnitude
    rw [htext, Numeral.signedChars, List.mem_append, not_or, and_iff_right hsign,
      ← m.exponent_eq_none_iff, hexponent, fractionLimit_le_iff hrank, lt_exponentLimit_iff hrank]

/-- The least magnitude, behind a minus: its text has an exponent, and is read back. -/
theorem Double.text_round_trip_least :
    let rank : Fin rankLimit := ⟨1, by decide⟩
    rank.val ≠ 0 ∧ (finite true rank).scriptText = "-5e-324" ∧
      readNumber "-5e-324" = finite true rank ∧
      ∃ m : Numeral, "-5e-324".toList = '-' :: m.chars := by
  intro rank
  have htext : (finite true rank).scriptText = "-5e-324" := by decide +kernel
  obtain ⟨hread, -, hform⟩ := text_round_trip (fun _ _ _ => pure .undefined : Caller Unit Unit)
    ⟨#[], ()⟩
  obtain ⟨⟨m, hm⟩, -⟩ := hform true rank (by decide)
  rw [htext] at hm
  exact ⟨by decide, htext, htext ▸ hread (finite true rank), m, hm⟩

end Es5
