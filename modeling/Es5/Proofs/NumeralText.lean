import Es5.Number.Format
import Es5.Proofs.DecimalLiteral
import Es5.Proofs.IndexKey
import Mathlib.Algebra.Group.Nat.Defs

/-!
# Numerals as they are read

A numeral has a whole part without a needless zero, a fraction that stands behind a point if there
is any, and maybe an exponent. Its text is read as its digits and the power of ten of the last one,
whatever sign stands before it. Digits make numerals wherever the point is put.

* `Numeral`: the parts of a numeral.
* `Numeral.chars`, `Numeral.value`, `Numeral.power`: its text, and what it stands for.
* `Numeral.decimalText`: the text is a literal of what it stands for.
* `Numeral.exponent_eq_none_iff`: the text tells whether there is an exponent.
* **`Numeral.readNumber_signedChars`**: the number of the text with a sign.
* `Significant`: digits of which the first is not zero.
* `Numeral.exists_fraction`, `Numeral.exists_whole`, `Numeral.exists_pointed`: numerals of digits.
-/

namespace Es5

/-- The parts of a numeral. -/
structure Numeral where
  whole : List Char
  fraction : List Char
  exponent : Option Int
  whole_ne_nil : whole ≠ []
  isDigit_of_mem : ∀ c ∈ whole ++ fraction, c.isDigit = true
  /-- A zero starts the whole part only if no other digit follows. -/
  eq_nil_of_zero : ∀ rest, whole = '0' :: rest → rest = []

namespace Numeral

/-- An exponent, always with a sign. -/
def exponentChars : Int → List Char
  | .ofNat e => '+' :: Double.digitChars e
  | .negSucc e => '-' :: Double.digitChars (e + 1)

/-- A fraction, if there is one, behind a point. -/
def fractionPart (m : Numeral) : List Char :=
  if m.fraction = [] then [] else '.' :: m.fraction

/-- An exponent, if there is one, behind its mark. -/
def exponentPart (m : Numeral) : List Char :=
  match m.exponent with
  | none => []
  | some e => 'e' :: exponentChars e

/-- The text of a numeral. -/
def chars (m : Numeral) : List Char := m.whole ++ (m.fractionPart ++ m.exponentPart)

/-- All digits of a numeral as one natural. -/
def value (m : Numeral) : Nat := digitsValue (m.whole ++ m.fraction)

/-- The power of ten that the last digit counts. -/
def power (m : Numeral) : Int := m.exponent.getD 0 - m.fraction.length

/-! ## Characters -/

theorem isDigit_digitChars {n : Nat} : ∀ c ∈ Double.digitChars n, c.isDigit = true :=
  fun _ hc => Nat.isDigit_of_mem_toDigits (by omega) (by omega) hc

theorem digitsValue_digitChars (n : Nat) : digitsValue (Double.digitChars n) = n :=
  spelled_toDigits n

/-- The characters of numerals. -/
def isNumeralChar (c : Char) : Bool := c.isDigit || ['.', 'e', '+', '-'].contains c

theorem isNumeralChar_exponentChars (e : Int) :
    ∀ c ∈ exponentChars e, isNumeralChar c = true := by
  intro c hc
  have hdigits : ∀ n, c ∈ Double.digitChars n → isNumeralChar c = true := fun n hn => by
    rw [isNumeralChar, isDigit_digitChars c hn, Bool.true_or]
  cases e with
  | ofNat e =>
    rcases List.mem_cons.mp hc with rfl | hc
    · decide
    · exact hdigits _ hc
  | negSucc e =>
    rcases List.mem_cons.mp hc with rfl | hc
    · decide
    · exact hdigits _ hc

theorem isNumeralChar_chars (m : Numeral) : ∀ c ∈ m.chars, isNumeralChar c = true := by
  intro c hc
  have hdigit : c ∈ m.whole ++ m.fraction → isNumeralChar c = true := fun hmem => by
    rw [isNumeralChar, m.isDigit_of_mem c hmem, Bool.true_or]
  rw [chars, List.mem_append, List.mem_append] at hc
  rcases hc with hwhole | hfraction | hexponent
  · exact hdigit (List.mem_append_left _ hwhole)
  · rw [fractionPart] at hfraction
    split at hfraction
    · cases hfraction
    · rcases List.mem_cons.mp hfraction with rfl | hfraction
      · decide
      · exact hdigit (List.mem_append_right _ hfraction)
  · rw [exponentPart] at hexponent
    split at hexponent
    · cases hexponent
    · rcases List.mem_cons.mp hexponent with rfl | hexponent
      · decide
      · exact isNumeralChar_exponentChars _ c hexponent

/-- No character of a numeral is blank, or stands in another form of number. -/
theorem of_isNumeralChar {c : Char} (hc : isNumeralChar c = true) :
    isBlank c = false ∧ c ≠ 'x' ∧ c ≠ 'X' := by
  rw [isNumeralChar, Bool.or_eq_true] at hc
  rcases hc with hdigit | hother
  · have hrange := toNat_of_isDigit hdigit
    refine ⟨?_, ?_, ?_⟩
    · simp only [isBlank, Bool.or_eq_false_iff, Bool.and_eq_false_iff, decide_eq_false_iff_not,
        beq_eq_false_iff_ne]
      omega
    all_goals
      rintro rfl
      exact absurd hrange (by decide)
  · have hmem : c ∈ ['.', 'e', '+', '-'] := List.contains_iff_mem.mp hother
    simp only [List.mem_cons, List.not_mem_nil, or_false] at hmem
    rcases hmem with rfl | rfl | rfl | rfl <;> exact ⟨rfl, by decide, by decide⟩

/-- The text tells whether there is an exponent. -/
theorem exponent_eq_none_iff (m : Numeral) : m.exponent = none ↔ 'e' ∉ m.chars := by
  have hmantissa : 'e' ∉ m.whole ∧ 'e' ∉ m.fraction := by
    refine ⟨fun hmem => ?_, fun hmem => ?_⟩
    · exact absurd (m.isDigit_of_mem _ (List.mem_append_left _ hmem)) (by decide)
    · exact absurd (m.isDigit_of_mem _ (List.mem_append_right _ hmem)) (by decide)
  have hfraction : 'e' ∉ m.fractionPart := by
    rw [fractionPart]
    split
    · exact List.not_mem_nil
    · simpa using hmantissa.2
  rw [chars, List.mem_append, List.mem_append, not_or, not_or, exponentPart]
  cases m.exponent with
  | none => exact ⟨fun _ => ⟨hmantissa.1, hfraction, List.not_mem_nil⟩, fun _ => rfl⟩
  | some e => exact ⟨fun h => absurd h (by simp), fun h => absurd List.mem_cons_self h.2.2⟩

/-! ## Reading -/

theorem exponentText (m : Numeral) : ExponentText m.exponentPart (m.exponent.getD 0) := by
  have hdigits (n : Nat) : Digits (Double.digitChars n) := ⟨Nat.toDigits_ne_nil, isDigit_digitChars⟩
  rw [exponentPart]
  rcases m.exponent with _ | e | e
  · exact .absent
  · have h := ExponentText.marked (.inl rfl) .plus (hdigits e)
    rwa [digitsValue_digitChars] at h
  · have h := ExponentText.marked (.inl rfl) .minus (hdigits (e + 1))
    rwa [digitsValue_digitChars] at h

/-- The text is a literal of what it stands for. -/
theorem decimalText (m : Numeral) : DecimalText m.chars m.value m.power := by
  have hwhole : Digits m.whole :=
    ⟨m.whole_ne_nil, fun c hc => m.isDigit_of_mem c (List.mem_append_left _ hc)⟩
  have hmantissa :
      MantissaText (m.whole ++ m.fractionPart) (m.whole ++ m.fraction) m.fraction.length := by
    rw [fractionPart]
    split
    case isTrue hnone =>
      rw [hnone, List.append_nil]
      exact .whole hwhole
    case isFalse =>
      exact .pointed hwhole fun c hc => m.isDigit_of_mem c (List.mem_append_right _ hc)
  have h := DecimalText.mk hmantissa m.exponentText
  rwa [List.append_assoc] at h

/-- The text of a numeral, behind a minus if it is negative. -/
def signedChars (m : Numeral) (negative : Bool) : List Char :=
  (if negative then ['-'] else []) ++ m.chars

theorem isNumeralChar_signedChars (m : Numeral) (negative : Bool) :
    ∀ c ∈ m.signedChars negative, isNumeralChar c = true := by
  intro c hc
  rcases List.mem_append.mp hc with hsign | hc
  · cases negative with
    | false => cases hsign
    | true =>
      rw [List.mem_singleton.mp hsign]
      decide
  · exact m.isNumeralChar_chars c hc

/-- The sign is told from the text behind it, which starts with a digit. -/
theorem splitSign_signedChars (m : Numeral) (negative : Bool) :
    splitSign (m.signedChars negative) = (negative, m.chars) := by
  obtain ⟨first, rest, hwhole⟩ := List.exists_cons_of_ne_nil m.whole_ne_nil
  have hfirst : first.isDigit = true := m.isDigit_of_mem first (by simp [hwhole])
  cases negative with
  | true => rfl
  | false =>
    show splitSign m.chars = (false, m.chars)
    rw [chars, hwhole, List.cons_append, splitSign]
    all_goals
      intro rest' he
      rw [(List.cons.inj he).1] at hfirst
      exact absurd hfirst (by decide)

/-- **The number of the text of a numeral with a sign.** -/
theorem readNumber_signedChars (m : Numeral) (negative : Bool) :
    readNumber (String.ofList (m.signedChars negative)) =
      .ofDecimal negative m.value m.power := by
  have hchars := m.isNumeralChar_signedChars negative
  have hsign := m.splitSign_signedChars negative
  have hne : m.signedChars negative ≠ [] := by
    simp [signedChars, chars, m.whole_ne_nil]
  have htrim := Text.trimList_eq_self fun c hc => (of_isNumeralChar (hchars c hc)).1
  rw [readNumber, String.toList_ofList, htrim]
  generalize m.signedChars negative = cs at hchars hsign hne
  split
  · exact absurd rfl hne
  · exact absurd rfl (of_isNumeralChar (hchars 'x' (by simp))).2.1
  · exact absurd rfl (of_isNumeralChar (hchars 'X' (by simp))).2.2
  · rw [hsign]
    exact m.decimalText.readUnsigned_eq negative

end Numeral

/-! ## Digits -/

/-- Decimal digits of which the first is not zero. -/
structure Significant (digits : List Char) : Prop where
  isDigit_of_mem : ∀ c ∈ digits, c.isDigit = true
  exists_cons : ∃ c rest, digits = c :: rest ∧ c ≠ '0'

theorem significant_digitChars {n : Nat} (hn : n ≠ 0) : Significant (Double.digitChars n) := by
  refine ⟨Numeral.isDigit_digitChars, ?_⟩
  induction n using Nat.strongRecOn with
  | _ n ih =>
    rw [Double.digitChars]
    by_cases hlt : n < 10
    · rw [Nat.toDigits_of_lt_base hlt]
      refine ⟨_, [], rfl, ?_⟩
      have hdigit : ∀ n < 10, n ≠ 0 → n.digitChar ≠ '0' := by decide
      exact hdigit n hlt hn
    · obtain ⟨c, rest, hdigits, hc⟩ := ih (n / 10) (by omega) (by omega)
      rw [Double.digitChars] at hdigits
      rw [Nat.toDigits_of_base_le (by omega) (by omega), hdigits]
      exact ⟨c, _, rfl, hc⟩

theorem Significant.ne_nil {digits : List Char} (h : Significant digits) : digits ≠ [] := by
  obtain ⟨c, rest, rfl, -⟩ := h.exists_cons
  exact List.cons_ne_nil c rest

/-- What starts with significant digits does not start with a zero. -/
theorem Significant.append_ne {digits : List Char} (h : Significant digits) (xs ys : List Char) :
    digits ++ xs ≠ '0' :: ys := by
  obtain ⟨c, rest, rfl, hc⟩ := h.exists_cons
  exact fun he => hc (List.cons.inj he).1

theorem Significant.take {digits : List Char} (h : Significant digits) {p : Nat} (hp : 0 < p) :
    Significant (digits.take p) := by
  obtain ⟨c, rest, rfl, hc⟩ := h.exists_cons
  exact ⟨fun x hx => h.isDigit_of_mem x (List.mem_of_mem_take hx), c, _, List.take_cons hp, hc⟩

theorem isDigit_of_mem_replicate {k : Nat} : ∀ c ∈ List.replicate k '0', c.isDigit = true := by
  intro c hc
  rw [List.eq_of_mem_replicate hc]
  decide

theorem digitsValue_zeros_append (k : Nat) (cs : List Char) :
    digitsValue (List.replicate k '0' ++ cs) = digitsValue cs := by
  induction k with
  | zero => rfl
  | succ k ih => exact ih

theorem digitsValue_append_zeros (cs : List Char) (k : Nat) :
    digitsValue (cs ++ List.replicate k '0') = digitsValue cs * 10 ^ k := by
  induction k with
  | zero => rw [List.replicate_zero, List.append_nil, Nat.pow_zero, Nat.mul_one]
  | succ k ih =>
    rw [List.replicate_succ', ← List.append_assoc, digitsValue, List.foldl_append, ← digitsValue,
      ih, Nat.pow_succ, ← Nat.mul_assoc]
    exact Nat.mul_comm 10 _

/-! ## Numerals of digits -/

namespace Numeral

variable {digits : List Char}

/-- Zeros stand between the point and the digits. -/
theorem exists_fraction (h : Significant digits) (k : Nat) :
    ∃ m : Numeral, m.chars = '0' :: '.' :: (List.replicate k '0' ++ digits) ∧
      m.exponent = none ∧ m.value = digitsValue digits ∧ m.power = -(k + digits.length : Nat) := by
  have hall : ∀ x ∈ ['0'] ++ (List.replicate k '0' ++ digits), x.isDigit = true := by
    intro x hx
    rw [List.mem_append, List.mem_append] at hx
    rcases hx with hx | hx | hx
    · exact isDigit_of_mem_replicate (k := 1) x hx
    · exact isDigit_of_mem_replicate x hx
    · exact h.isDigit_of_mem x hx
  refine ⟨⟨['0'], List.replicate k '0' ++ digits, none, List.cons_ne_nil _ _, hall,
    fun ys he => (List.cons.inj he).2.symm⟩, ?_, rfl, digitsValue_zeros_append k digits, ?_⟩
  · simp [chars, fractionPart, exponentPart, h.ne_nil]
  · show (0 : Int) - (List.replicate k '0' ++ digits).length = _
    rw [List.length_append, List.length_replicate]
    omega

/-- Zeros stand behind the digits. -/
theorem exists_whole (h : Significant digits) (k : Nat) :
    ∃ m : Numeral, m.chars = digits ++ List.replicate k '0' ∧
      m.exponent = none ∧ m.value = digitsValue digits * 10 ^ k ∧ m.power = 0 := by
  have hall : ∀ x ∈ (digits ++ List.replicate k '0') ++ [], x.isDigit = true := by
    rw [List.append_nil]
    exact fun x hx => (List.mem_append.mp hx).elim (h.isDigit_of_mem x) (isDigit_of_mem_replicate x)
  refine ⟨⟨digits ++ List.replicate k '0', [], none, List.append_ne_nil_of_left_ne_nil h.ne_nil _,
    hall, fun ys he => absurd he (h.append_ne _ ys)⟩, List.append_nil _, rfl, ?_, rfl⟩
  show digitsValue ((digits ++ List.replicate k '0') ++ []) = _
  rw [List.append_nil, digitsValue_append_zeros]

/-- The point stands between digits, and an exponent may follow. -/
theorem exists_pointed (h : Significant digits) {p : Nat} (hp : 0 < p) (exponent : Option Int) :
    ∃ m : Numeral, m.whole = digits.take p ∧ m.fraction = digits.drop p ∧
      m.exponent = exponent ∧ m.value = digitsValue digits := by
  have hall : ∀ x ∈ digits.take p ++ digits.drop p, x.isDigit = true := by
    rw [List.take_append_drop]
    exact h.isDigit_of_mem
  have hleading : ∀ ys, digits.take p = '0' :: ys → ys = [] := fun ys he =>
    absurd ((List.append_nil _).trans he) ((h.take hp).append_ne [] ys)
  refine ⟨⟨digits.take p, digits.drop p, exponent, (h.take hp).ne_nil, hall, hleading⟩, rfl, rfl,
    rfl, ?_⟩
  show digitsValue (digits.take p ++ digits.drop p) = _
  rw [List.take_append_drop]

end Numeral

end Es5
