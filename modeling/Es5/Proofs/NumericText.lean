import Es5.Eval.Conversion
import Es5.Proofs.DecimalLiteral
import Mathlib.Data.List.Forall2

/-!
# The texts that stand for numbers

A text is read without the blanks at its ends. What is left stands for a number exactly if it is
empty, or a hexadecimal literal, or an optional sign and then `Infinity` or a decimal literal. The
forms are given here by what they consist of, apart from how they are read.

* `Blank`, `Stripped`: white space and line terminators, and a text without them at its ends.
* `UnsignedText`, `HexDigit`, `NumericText`: the forms, with what they stand for.
* **`numericText_iff`**: the texts that stand for a number are those that are read as one.
* **`Eval.toNumber_string`**: the number of a text.
-/

namespace Es5

/-! ## Blanks -/

/-- White space: tabs, form feeds, spaces of all kinds and the byte order mark. -/
def whiteSpaceCodes : List Nat :=
  [0x9, 0xB, 0xC, 0x20, 0xA0, 0x1680, 0x2000, 0x2001, 0x2002, 0x2003, 0x2004, 0x2005, 0x2006,
    0x2007, 0x2008, 0x2009, 0x200A, 0x202F, 0x205F, 0x3000, 0xFEFF]

/-- Line terminators: line feed, carriage return, and the separators of lines and paragraphs. -/
def lineTerminatorCodes : List Nat := [0xA, 0xD, 0x2028, 0x2029]

/-- A white space or a line terminator. -/
def Blank (c : Char) : Prop := c.toNat ∈ whiteSpaceCodes ++ lineTerminatorCodes

instance (c : Char) : Decidable (Blank c) := inferInstanceAs (Decidable (_ ∈ _))

theorem isBlank_iff {c : Char} : isBlank c = true ↔ Blank c := by
  simp only [isBlank, Blank, whiteSpaceCodes, lineTerminatorCodes, List.cons_append,
    List.nil_append, List.mem_cons, List.not_mem_nil, or_false, Bool.or_eq_true, Bool.and_eq_true,
    decide_eq_true_eq, beq_iff_eq]
  omega

/-- What is left of a text without the blanks at its ends. -/
abbrev Stripped (cs t : List Char) : Prop := Text.StrippedOf Blank cs t

/-- There is one way to strip a text, and it is how texts are trimmed. -/
theorem stripped_iff {cs t : List Char} : Stripped cs t ↔ t = Text.trimList isBlank cs := by
  rw [← Text.strippedOf_iff]
  simp only [isBlank_iff]

/-! ## Forms -/

/-- `Infinity` or a decimal literal, and the number for each sign. -/
inductive UnsignedText : List Char → (Bool → Double) → Prop
  | infinity : UnsignedText "Infinity".toList Double.infinity
  | decimal {u : List Char} {n : Nat} {e : Int} (h : DecimalText u n e) :
    UnsignedText u (Double.ofDecimal · n e)

/-- A hexadecimal digit, in either case, and its value. -/
def HexDigit (c : Char) (d : Nat) : Prop :=
  "0123456789abcdef".toList[d]? = some c ∨ "0123456789ABCDEF".toList[d]? = some c

/--
A text that stands for a number: no text at all, a hexadecimal literal, or an optional sign and what
it applies to. The number of a hexadecimal literal is rounded after each digit.
-/
inductive NumericText : List Char → Double → Prop
  | empty : NumericText [] .zero
  | hex {x : Char} {cs : List Char} {ds : List Nat} (hx : x = 'x' ∨ x = 'X') (hcs : cs ≠ [])
    (hds : List.Forall₂ HexDigit cs ds) :
    NumericText ('0' :: x :: cs) (ds.foldl Double.appendHex .zero)
  | signed {sign u : List Char} {negative : Bool} {number : Bool → Double}
    (hs : SignText sign negative) (hu : UnsignedText u number) :
    NumericText (sign ++ u) (number negative)

/-! ## Hexadecimal digits -/

instance (c : Char) (d : Nat) : Decidable (HexDigit c d) := inferInstanceAs (Decidable (_ ∨ _))

theorem HexDigit.lt {c : Char} {d : Nat} (h : HexDigit c d) : d < 16 := by
  rcases h with h | h
  · exact (List.getElem?_eq_some_iff.mp h).1
  · exact (List.getElem?_eq_some_iff.mp h).1

theorem hexDigit?_eq_some_iff {c : Char} {d : Nat} : hexDigit? c = some d ↔ HexDigit c d := by
  constructor
  · intro h
    have hascii : c.toNat < 128 := by
      rw [hexDigit?] at h
      split at h
      · rename_i hdigit
        have hrange := toNat_of_isDigit hdigit
        omega
      · split at h
        · rename_i hlower
          have : c.toNat ≤ 'f'.toNat := hlower.2
          exact Nat.lt_of_le_of_lt this (by decide)
        · split at h
          · rename_i hupper
            have : c.toNat ≤ 'F'.toNat := hupper.2
            exact Nat.lt_of_le_of_lt this (by decide)
          · cases h
    have hall : ∀ n < 128, (hexDigit? (Char.ofNat n)).all fun d => HexDigit (Char.ofNat n) d := by
      decide +kernel
    have hc := hall _ hascii
    rw [Char.ofNat_toNat, h] at hc
    simpa using hc
  · intro h
    have hall : ∀ d < 16, ("0123456789abcdef".toList[d]?.all (hexDigit? · = some d)) ∧
        ("0123456789ABCDEF".toList[d]?.all (hexDigit? · = some d)) := by
      decide +kernel
    obtain ⟨hlower, hupper⟩ := hall d h.lt
    rcases h with h | h
    · rw [h] at hlower
      simpa using hlower
    · rw [h] at hupper
      simpa using hupper

theorem mapM_hexDigit? {cs : List Char} {ds : List Nat} :
    cs.mapM hexDigit? = some ds ↔ List.Forall₂ HexDigit cs ds := by
  induction cs generalizing ds with
  | nil => simp [eq_comm]
  | cons c cs ih =>
    simp only [List.mapM_cons, bind, pure, Option.bind_eq_some_iff, Option.some.injEq, ih,
      hexDigit?_eq_some_iff, List.forall₂_cons_left_iff, eq_comm (b := ds)]
    exact ⟨fun ⟨d, hd, rest, hrest, he⟩ => ⟨d, rest, hd, hrest, he⟩,
      fun ⟨d, rest, hd, hrest, he⟩ => ⟨d, hd, rest, hrest, he⟩⟩

theorem hexLiteral?_eq_some_iff {cs : List Char} {x : Double} : hexLiteral? cs = some x ↔
    cs ≠ [] ∧ ∃ ds, List.Forall₂ HexDigit cs ds ∧ ds.foldl Double.appendHex .zero = x := by
  rw [hexLiteral?]
  split
  · rename_i hcs
    exact iff_of_false nofun fun h => h.1 (List.isEmpty_iff.mp hcs)
  · rename_i hcs
    rw [Option.map_eq_some_iff, and_iff_right (mt List.isEmpty_iff.mpr hcs)]
    simp only [mapM_hexDigit?]

/-! ## Numbers that are read -/

namespace Double

theorem isNaN_foldl_appendHex (ds : List Nat) (x : Double) :
    (ds.foldl appendHex x).isNaN = x.isNaN := by
  induction ds generalizing x with
  | nil => rfl
  | cons d ds ih =>
    rw [List.foldl_cons, ih]
    cases x with
    | nan | infinity => rfl
    | finite negative rank => exact ((signed_ofRank _).2 negative).1

end Double

namespace UnsignedText

variable {u : List Char} {number : Bool → Double}

theorem signed (h : UnsignedText u number) : Double.Signed number := by
  cases h with
  | infinity => exact Double.signed_infinity
  | decimal => exact Double.signed_ofDecimal _ _

/-- No sign stands at the start, and no mark of hexadecimal literals anywhere. -/
theorem head_mem (h : UnsignedText u number) :
    u ≠ [] ∧ (u.head? ≠ some '+' ∧ u.head? ≠ some '-') ∧ 'x' ∉ u ∧ 'X' ∉ u := by
  cases h with
  | infinity => decide
  | decimal h =>
    obtain ⟨c, rest, rfl, hc⟩ := h.head
    refine ⟨List.cons_ne_nil c rest, ⟨?_, ?_⟩, fun hx => ?_, fun hx => ?_⟩
    · rintro he
      cases he
      exact absurd hc (by decide)
    · rintro he
      cases he
      exact absurd hc (by decide)
    · exact absurd (h.mem _ hx) (by decide)
    · exact absurd (h.mem _ hx) (by decide)

theorem readUnsigned_eq (h : UnsignedText u number) (negative : Bool) :
    readUnsigned negative u = number negative := by
  cases h with
  | infinity => rw [readUnsigned, if_pos rfl]
  | decimal h => exact h.readUnsigned_eq negative

theorem of_readUnsigned {negative : Bool} (h : (readUnsigned negative u).isNaN = false) :
    ∃ number, UnsignedText u number := by
  obtain rfl | ⟨n, x, htext⟩ := exists_decimalText h
  · exact ⟨_, .infinity⟩
  · exact ⟨_, .decimal htext⟩

end UnsignedText

/-- With a sign or without, such a text is not empty and no hexadecimal literal. -/
theorem SignText.unmarked {sign u : List Char} {negative : Bool} {number : Bool → Double}
    (hs : SignText sign negative) (hu : UnsignedText u number) : sign ++ u ≠ [] ∧
      ∀ mark rest, sign ++ u = '0' :: mark :: rest → mark ≠ 'x' ∧ mark ≠ 'X' := by
  obtain ⟨hne, -, hx, hX⟩ := hu.head_mem
  refine ⟨fun he => hne (List.append_eq_nil_iff.mp he).2, fun mark rest he => ?_⟩
  cases hs with
  | plus | minus => cases he
  | absent =>
    have hmem : mark ∈ u := by
      rw [← List.nil_append u, he]
      simp
    exact ⟨fun hmark => hx (hmark ▸ hmem), fun hmark => hX (hmark ▸ hmem)⟩

theorem NumericText.of_hexLiteral? {mark : Char} {cs : List Char}
    (hmark : mark = 'x' ∨ mark = 'X') (h : ((hexLiteral? cs).getD .nan).isNaN = false) :
    NumericText ('0' :: mark :: cs) ((hexLiteral? cs).getD .nan) := by
  cases hliteral : hexLiteral? cs with
  | none =>
    rw [hliteral] at h
    cases h
  | some x =>
    obtain ⟨hcs, ds, hds, rfl⟩ := hexLiteral?_eq_some_iff.mp hliteral
    exact .hex hmark hcs hds

/-- **The texts that stand for a number are those that are read as one.** -/
theorem numericText_iff {s : String} {t : List Char} (ht : Stripped s.toList t) {x : Double} :
    NumericText t x ↔ x.isNaN = false ∧ readNumber s = x := by
  rw [readNumber, ← stripped_iff.mp ht]
  constructor
  · intro h
    cases h with
    | empty => exact ⟨rfl, rfl⟩
    | hex hmark hcs hds =>
      have hread := congrArg (·.getD .nan) (hexLiteral?_eq_some_iff.mpr ⟨hcs, _, hds, rfl⟩)
      refine ⟨Double.isNaN_foldl_appendHex _ .zero, ?_⟩
      rcases hmark with rfl | rfl
      · exact hread
      · exact hread
    | @signed sign u negative number hs hu =>
      refine ⟨(hu.signed.2 negative).1, ?_⟩
      have hsplit := hs.head hu.head_mem.2.1
      obtain ⟨hne, hmark⟩ := hs.unmarked hu
      generalize sign ++ u = cs at hsplit hne hmark
      split
      · exact absurd rfl hne
      · exact absurd rfl (hmark _ _ rfl).1
      · exact absurd rfl (hmark _ _ rfl).2
      · rw [hsplit]
        exact hu.readUnsigned_eq negative
  · rintro ⟨hx, rfl⟩
    split at hx
    · exact .empty
    · exact .of_hexLiteral? (Or.inl rfl) hx
    · exact .of_hexLiteral? (Or.inr rfl) hx
    · obtain ⟨sign, hsplit, hsign⟩ := exists_sign t
      obtain ⟨number, hu⟩ : ∃ number, UnsignedText (splitSign t).2 number :=
        UnsignedText.of_readUnsigned hx
      have htext := NumericText.signed hsign hu
      rw [← hsplit] at htext
      show NumericText t (readUnsigned (splitSign t).1 (splitSign t).2)
      rwa [hu.readUnsigned_eq]

/-- A minus stands before a text without a sign, and negates its number. -/
theorem NumericText.of_minus {u : List Char} {x : Double} (h : NumericText ('-' :: u) x) :
    ∃ y, NumericText u y ∧ y.isNegative = false ∧ x = y.withSign true ∧ x.isNegative = true := by
  generalize ht : '-' :: u = t at h
  cases h with
  | empty | hex => cases ht
  | signed hs hu =>
    cases hs with
    | absent =>
      rw [List.nil_append] at ht
      exact absurd (by rw [← ht]; rfl) hu.head_mem.2.1.2
    | plus => cases ht
    | minus =>
      cases ht
      exact ⟨_, .signed .absent hu, (hu.signed.2 false).2, hu.signed.1, (hu.signed.2 true).2⟩

/--
**The number of a text.** For every text, what is left of it without the blanks at its ends is one
list of characters. The conversion to a number ends with a number and runs no code, and the result
is not-a-number unless what is left stands for a number, which is then the result. A minus at the
start negates the number of what follows it, so that zero becomes negative zero.
-/
theorem Eval.toNumber_string {κ σ : Type} (caller : Caller κ σ) (s : String) (w : World κ σ) :
    ∃ t, Stripped s.toList t ∧ (∀ t', Stripped s.toList t' → t' = t) ∧
      ∃ x, toNumber caller (.string s) w = .ok x w ∧
        (x.isNaN = false ↔ ∃ y, NumericText t y) ∧ (∀ y, NumericText t y → x = y) ∧
        ∀ u, t = '-' :: u → x.isNaN = false → ∃ y, NumericText u y ∧ y.isNegative = false ∧
          x = y.withSign true ∧ x.isNegative = true := by
  have ht : Stripped s.toList (Text.trimList isBlank s.toList) := stripped_iff.mpr rfl
  refine ⟨_, ht, fun t' ht' => stripped_iff.mp ht', readNumber s, rfl, ⟨fun hx => ?_, ?_⟩, ?_, ?_⟩
  · exact ⟨_, (numericText_iff ht).mpr ⟨hx, rfl⟩⟩
  · rintro ⟨y, hy⟩
    obtain ⟨hnan, he⟩ := (numericText_iff ht).mp hy
    rwa [he]
  · exact fun y hy => ((numericText_iff ht).mp hy).2
  · intro u hu hx
    have htext := (numericText_iff ht).mpr ⟨hx, rfl⟩
    rw [hu] at htext
    exact htext.of_minus

end Es5
