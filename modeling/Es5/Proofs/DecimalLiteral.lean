import Es5.Number.Numeral
import Es5.Proofs.Stripped

/-!
# Decimal literals

A decimal literal has digits, maybe with a point among them, and maybe an exponent. The parser of
the host takes other texts too, and a sign of its own. Behind the test for the characters of decimal
literals only these are left.

* `Digits`, `SignText`, `MantissaText`, `ExponentText`, `DecimalText`: the form of a literal, with
  what it stands for.
* `decimalLiteral?_eq_some_iff`: decimal literals are read by their form.
* `Double.Signed`: numbers that are given for each sign.
* **`parseDouble?_iff`**: the texts that pass the test and are then parsed are the literals.
* `DecimalText.readUnsigned_eq`: the number of a literal behind a sign.
-/

namespace Es5

open Text

/-! ## Forms -/

/-- Decimal digits, at least one. -/
def Digits (cs : List Char) : Prop := cs ≠ [] ∧ ∀ c ∈ cs, c.isDigit = true

/-- An optional sign, and whether it is a minus. -/
inductive SignText : List Char → Bool → Prop
  | absent : SignText [] false
  | plus : SignText ['+'] false
  | minus : SignText ['-'] true

/-- Digits with an optional point: its digits, and how many of them stand behind the point. -/
inductive MantissaText : List Char → List Char → Nat → Prop
  | whole {w : List Char} (hw : Digits w) : MantissaText w w 0
  | pointed {w f : List Char} (hw : Digits w) (hf : ∀ c ∈ f, c.isDigit = true) :
    MantissaText (w ++ '.' :: f) (w ++ f) f.length
  | fraction {f : List Char} (hf : Digits f) : MantissaText ('.' :: f) f f.length

/-- An optional exponent. -/
inductive ExponentText : List Char → Int → Prop
  | absent : ExponentText [] 0
  | marked {mark : Char} {sign digits : List Char} {negative : Bool} (hm : mark = 'e' ∨ mark = 'E')
    (hs : SignText sign negative) (hd : Digits digits) :
    ExponentText (mark :: (sign ++ digits))
      (if negative then -(digitsValue digits : Int) else digitsValue digits)

/-- A decimal literal without a sign, as digits and a power of ten. -/
inductive DecimalText : List Char → Nat → Int → Prop
  | mk {m digits e : List Char} {places : Nat} {x : Int} (hm : MantissaText m digits places)
    (he : ExponentText e x) : DecimalText (m ++ e) (digitsValue digits) (x - places)

/-! ## Reading by form -/

theorem SignText.head {sign u : List Char} {negative : Bool} (hs : SignText sign negative)
    (hu : u.head? ≠ some '+' ∧ u.head? ≠ some '-') : splitSign (sign ++ u) = (negative, u) := by
  cases hs with
  | plus | minus => rfl
  | absent =>
    rw [List.nil_append, splitSign]
    · rintro rest rfl
      exact hu.2 rfl
    · rintro rest rfl
      exact hu.1 rfl

/-- What stands before the text that follows an optional sign. -/
theorem exists_sign (cs : List Char) :
    ∃ sign, cs = sign ++ (splitSign cs).2 ∧ SignText sign (splitSign cs).1 := by
  unfold splitSign
  split
  · exact ⟨['-'], rfl, .minus⟩
  · exact ⟨['+'], rfl, .plus⟩
  · exact ⟨[], rfl, .absent⟩

theorem Digits.head_ne {cs : List Char} (h : Digits cs) {c : Char} (hc : c.isDigit = false) :
    cs.head? ≠ some c := by
  intro hhead
  have := h.2 c (List.mem_of_mem_head? hhead)
  rw [hc] at this
  cases this

theorem digits_iff {cs : List Char} :
    (cs.isEmpty || !cs.all Char.isDigit) = false ↔ Digits cs := by
  simp [Digits]

theorem exponentPart?_eq_some_iff {cs : List Char} {x : Int} :
    exponentPart? cs = some x ↔ ExponentText cs x := by
  constructor
  · intro h
    cases cs with
    | nil =>
      cases h
      exact .absent
    | cons mark rest =>
      obtain ⟨sign, hrest, hsign⟩ := exists_sign rest
      rw [exponentPart?] at h
      generalize splitSign rest = parts at h hrest hsign
      by_cases hmark : mark = 'e' ∨ mark = 'E'
      · rw [if_pos hmark] at h
        by_cases hdigits : (parts.2.isEmpty || !parts.2.all Char.isDigit) = true
        · simp only [hdigits, if_true] at h
          cases h
        · simp only [hdigits] at h
          cases h
          rw [hrest]
          exact .marked hmark hsign (digits_iff.mp (by simpa using hdigits))
      · rw [if_neg hmark] at h
        cases h
  · intro h
    cases h with
    | absent => rfl
    | marked hmark hs hd =>
      have hsplit := hs.head ⟨hd.head_ne (by decide), hd.head_ne (by decide)⟩
      have hdigits := digits_iff.mpr hd
      rw [exponentPart?, if_pos hmark, hsplit]
      simp only [hdigits]
      rfl

section

variable {w f e : List Char}

/-- Digits that no point follows. -/
theorem decimalLiteral?_whole (hw : ∀ c ∈ w, c.isDigit = true)
    (he : ∀ c, e.head? = some c → c.isDigit = false ∧ c ≠ '.') : decimalLiteral? (w ++ e) =
      if w = [] then none else (exponentPart? e).map fun x => (digitsValue w, x) := by
  have hhead : ∀ c, e.head? = some c → c.isDigit = false := fun c hc => (he c hc).1
  unfold decimalLiteral?
  rw [takeWhile_run hw hhead, dropWhile_run hw hhead]
  cases e with
  | nil => simp [List.isEmpty_iff]
  | cons c e => simp [List.isEmpty_iff, (he c rfl).2]

/-- Digits on both sides of a point. -/
theorem decimalLiteral?_pointed (hw : ∀ c ∈ w, c.isDigit = true) (hf : ∀ c ∈ f, c.isDigit = true)
    (he : ∀ c, e.head? = some c → c.isDigit = false) : decimalLiteral? (w ++ '.' :: (f ++ e)) =
      if w ++ f = [] then none
      else (exponentPart? e).map fun x : Int => (digitsValue (w ++ f), x - f.length) := by
  have hpoint : ∀ c, ('.' :: (f ++ e)).head? = some c → c.isDigit = false := by
    rintro c ⟨⟩
    decide
  unfold decimalLiteral?
  rw [takeWhile_run hw hpoint, dropWhile_run hw hpoint]
  simp [takeWhile_run hf he, dropWhile_run hf he, List.isEmpty_iff]

theorem ExponentText.head {x : Int} (h : ExponentText e x) {c : Char} (hc : e.head? = some c) :
    c.isDigit = false ∧ c ≠ '.' := by
  cases h with
  | absent => cases hc
  | marked hm =>
    cases hc
    rcases hm with rfl | rfl <;> decide

/-- Decimal literals are read by their form. -/
theorem decimalLiteral?_eq_some_iff {cs : List Char} {n : Nat} {x : Int} :
    decimalLiteral? cs = some (n, x) ↔ DecimalText cs n x := by
  constructor
  · intro h
    obtain ⟨w, hcs, hw, hhead⟩ := exists_run Char.isDigit cs
    generalize cs.dropWhile Char.isDigit = rest at hcs hhead
    subst hcs
    by_cases hpoint : ∃ rest', rest = '.' :: rest'
    · obtain ⟨rest', rfl⟩ := hpoint
      obtain ⟨f, hrest, hf, he⟩ := exists_run Char.isDigit rest'
      generalize rest'.dropWhile Char.isDigit = e at hrest he
      subst hrest
      rw [decimalLiteral?_pointed hw hf he] at h
      split at h
      · cases h
      · rename_i hne
        obtain ⟨y, hy, hvalue⟩ := Option.map_eq_some_iff.mp h
        cases hvalue
        have hexponent := exponentPart?_eq_some_iff.mp hy
        cases w with
        | nil => exact .mk (m := '.' :: f) (.fraction ⟨hne, hf⟩) hexponent
        | cons c w =>
          have hm : MantissaText (c :: w ++ '.' :: f) (c :: w ++ f) f.length :=
            .pointed ⟨List.cons_ne_nil c w, hw⟩ hf
          have htext := DecimalText.mk hm hexponent
          rwa [List.append_assoc] at htext
    · rw [decimalLiteral?_whole hw fun c hc => ⟨hhead c hc, fun he => hpoint ?_⟩] at h
      · split at h
        · cases h
        · rename_i hne
          obtain ⟨y, hy, hvalue⟩ := Option.map_eq_some_iff.mp h
          cases hvalue
          have htext := DecimalText.mk (.whole ⟨hne, hw⟩) (exponentPart?_eq_some_iff.mp hy)
          simpa using htext
      · obtain ⟨rest', rfl⟩ := List.head?_eq_some_iff.mp hc
        exact ⟨rest', by rw [he]⟩
  · rintro ⟨hm, he⟩
    have hexponent := exponentPart?_eq_some_iff.mpr he
    cases hm with
    | whole hw =>
      rw [decimalLiteral?_whole hw.2 fun c hc => he.head hc, if_neg hw.1, hexponent]
      simp
    | pointed hw hf =>
      rw [List.append_assoc, List.cons_append,
        decimalLiteral?_pointed hw.2 hf fun c hc => (he.head hc).1, if_neg (by simp [hw.1]),
        hexponent]
      rfl
    | @fraction f hf =>
      have h := decimalLiteral?_pointed (w := []) nofun hf.2 fun c hc => (he.head hc).1
      rw [List.nil_append, List.nil_append, if_neg hf.1, hexponent] at h
      exact h

end

/-! ## Characters -/

theorem toNat_of_isDigit {c : Char} (h : c.isDigit = true) : 48 ≤ c.toNat ∧ c.toNat ≤ 57 := by
  simpa [Char.isDigit, UInt32.le_iff_toNat_le] using h

theorem DecimalText.mem {u : List Char} {n : Nat} {x : Int} (h : DecimalText u n x) :
    ∀ c ∈ u, c.isDigit = true ∨ c ∈ ['.', 'e', 'E', '+', '-'] := by
  obtain ⟨hm, he⟩ := h
  intro c hc
  rcases List.mem_append.mp hc with hc | hc
  · cases hm with
    | whole hw => exact Or.inl (hw.2 c hc)
    | pointed hw hf =>
      rcases List.mem_append.mp hc with hc | hc
      · exact Or.inl (hw.2 c hc)
      · rcases List.mem_cons.mp hc with rfl | hc
        · exact Or.inr (by decide)
        · exact Or.inl (hf c hc)
    | fraction hf =>
      rcases List.mem_cons.mp hc with rfl | hc
      · exact Or.inr (by decide)
      · exact Or.inl (hf.2 c hc)
  · cases he with
    | absent => cases hc
    | marked hmark hs hd =>
      rcases List.mem_cons.mp hc with rfl | hc
      · rcases hmark with rfl | rfl <;> exact Or.inr (by decide)
      · rcases List.mem_append.mp hc with hc | hc
        · cases hs with
          | absent => cases hc
          | plus | minus =>
            rw [List.mem_singleton.mp hc]
            exact Or.inr (by decide)
        · exact Or.inl (hd.2 c hc)

theorem DecimalText.head {u : List Char} {n : Nat} {x : Int} (h : DecimalText u n x) :
    ∃ c rest, u = c :: rest ∧ (c.isDigit = true ∨ c = '.') := by
  obtain ⟨hm, -⟩ := h
  have hcons {w : List Char} (hw : Digits w) : ∃ c rest, w = c :: rest ∧ c.isDigit = true := by
    obtain ⟨c, rest, rfl⟩ := List.exists_cons_of_ne_nil hw.1
    exact ⟨c, rest, rfl, hw.2 c List.mem_cons_self⟩
  cases hm with
  | whole hw | pointed hw =>
    obtain ⟨c, rest, rfl, hc⟩ := hcons hw
    exact ⟨c, _, rfl, Or.inl hc⟩
  | fraction => exact ⟨'.', _, rfl, Or.inr rfl⟩

/-! ## Signs -/

namespace Double

/-- A number for each sign: the two differ in their sign only, and it is the one asked for. -/
def Signed (number : Bool → Double) : Prop :=
  number true = (number false).withSign true ∧
    ∀ negative, (number negative).isNaN = false ∧ (number negative).isNegative = negative

theorem signed_infinity : Signed infinity := ⟨rfl, fun _ => ⟨rfl, rfl⟩⟩

theorem signed_ofRank (rank : Nat) : Signed (ofRank · rank) := by
  by_cases h : rank < rankLimit
  · simp only [Signed, ofRank, dif_pos h]
    exact ⟨rfl, fun _ => ⟨rfl, rfl⟩⟩
  · simp only [Signed, ofRank, dif_neg h]
    exact signed_infinity

theorem signed_ofDecimal (digits : Nat) (exponent : Int) :
    Signed (ofDecimal · digits exponent) := by
  unfold ofDecimal
  dsimp only
  split
  · exact signed_ofRank 0
  · split
    · exact signed_infinity
    · split
      · exact signed_ofRank 0
      · cases exponent with
        | ofNat e => exact signed_ofRank _
        | negSucc e => exact signed_ofRank _

theorem Signed.timesSign {number : Bool → Double} (h : Signed number) (negative : Bool) :
    (number false).timesSign negative = number negative := by
  obtain ⟨htrue, hsign⟩ := h
  cases negative with
  | false => rfl
  | true => simp [Double.timesSign, (hsign false).2, htrue]

end Double

/-! ## The parser -/

/-- A digit or a point begins no sign and no name. -/
theorem ne_of_isDigit_or {c : Char} (hc : c.isDigit = true ∨ c = '.') :
    c ≠ '+' ∧ c ≠ '-' ∧ c.toLower ≠ 'i' ∧ c.toLower ≠ 'n' := by
  rcases hc with hdigit | rfl
  · obtain ⟨hle, hlt⟩ := toNat_of_isDigit hdigit
    have hall : ∀ n < 58, 48 ≤ n → Char.ofNat n ≠ '+' ∧ Char.ofNat n ≠ '-' ∧
        (Char.ofNat n).toLower ≠ 'i' ∧ (Char.ofNat n).toLower ≠ 'n' := by decide
    have hc := hall c.toNat (by omega) hle
    rwa [Char.ofNat_toNat] at hc
  · decide

theorem isDecimal_iff {cs : List Char} : isDecimal cs = true ↔
    (∃ c rest, cs = c :: rest ∧ (c.isDigit = true ∨ c = '.')) ∧
      ∀ c ∈ cs, c.isDigit = true ∨ c ∈ ['.', 'e', 'E', '+', '-'] := by
  cases cs <;> simp [isDecimal]

theorem DecimalText.isDecimal {u : List Char} {n : Nat} {x : Int} (h : DecimalText u n x) :
    isDecimal u = true :=
  isDecimal_iff.mpr ⟨h.head, h.mem⟩

/-- A text that passes the test is parsed as a literal without a sign. -/
theorem parseDouble?_of_isDecimal {cs : List Char} (h : isDecimal cs = true) :
    parseDouble? cs =
      (decimalLiteral? cs).map fun (digits, exponent) => .ofDecimal false digits exponent := by
  obtain ⟨⟨c, rest, rfl, hc⟩, -⟩ := isDecimal_iff.mp h
  obtain ⟨hplus, hminus, hi, hn⟩ := ne_of_isDigit_or hc
  have hsplit : splitSign (c :: rest) = (false, c :: rest) :=
    SignText.absent.head ⟨by simpa using hplus, by simpa using hminus⟩
  have hname (d : Char) (name : List Char) (hd : c.toLower ≠ d) :
      (c :: rest).map Char.toLower ≠ d :: name := fun he => hd (List.cons.inj he).1
  rw [parseDouble?, hsplit]
  exact (if_neg (not_or.mpr ⟨hname _ _ hi, hname _ _ hi⟩)).trans (if_neg (hname _ _ hn))

/-- **The texts that pass the test and can then be parsed are the decimal literals.** -/
theorem parseDouble?_iff {cs : List Char} {number : Double} :
    isDecimal cs = true ∧ parseDouble? cs = some number ↔
      ∃ n x, DecimalText cs n x ∧ number = .ofDecimal false n x := by
  constructor
  · rintro ⟨htest, hparse⟩
    rw [parseDouble?_of_isDecimal htest] at hparse
    obtain ⟨⟨n, x⟩, hliteral, rfl⟩ := Option.map_eq_some_iff.mp hparse
    exact ⟨n, x, decimalLiteral?_eq_some_iff.mp hliteral, rfl⟩
  · rintro ⟨n, x, h, rfl⟩
    refine ⟨h.isDecimal, ?_⟩
    rw [parseDouble?_of_isDecimal h.isDecimal, decimalLiteral?_eq_some_iff.mpr h]
    rfl

/-- The number of a literal behind a sign. -/
theorem DecimalText.readUnsigned_eq {u : List Char} {n : Nat} {x : Int} (h : DecimalText u n x)
    (negative : Bool) : readUnsigned negative u = .ofDecimal negative n x := by
  obtain ⟨htest, hparse⟩ := parseDouble?_iff.mpr ⟨n, x, h, rfl⟩
  rw [readUnsigned, if_neg, if_pos htest, hparse]
  · exact (Double.signed_ofDecimal n x).timesSign negative
  · rintro rfl
    exact absurd htest (by decide)

/-- A text without a sign that is read as a number is `Infinity` or a literal. -/
theorem exists_decimalText {u : List Char} {negative : Bool}
    (h : (readUnsigned negative u).isNaN = false) :
    u = "Infinity".toList ∨ ∃ n x, DecimalText u n x := by
  rw [readUnsigned] at h
  split_ifs at h with hname htest
  · exact .inl hname
  · cases hparse : parseDouble? u with
    | none =>
      rw [hparse] at h
      cases h
    | some number =>
      obtain ⟨n, x, htext, -⟩ := parseDouble?_iff.mp ⟨htest, hparse⟩
      exact .inr ⟨n, x, htext⟩
  · cases h

end Es5
