import Es5.Proofs.NumberText
import Es5.Proofs.TextSearch
import Mathlib.Data.List.Induction
import Mathlib.Data.Nat.Digits.Defs

/-!
# One spelling for each index

An index has one key. The numbers in the language are written with the same digits as natural
numbers, and a reader of natural numbers that admits other spellings gives the same indices if what
it reads must be written like that again.

* `CanonicalDecimal`, `canonicalDecimal_iff`: digits with no sign and no zero in front.
* `readWord?`, `arrayIndex?_eq_readWord?`: indices by way of a reader with other spellings.
* `Double.scriptText_ofNat`: naturals below `2 ^ 53` as the text of their doubles.
* `keys_newArray`, `keys_wrapper`: the keys of new objects with elements.
* `Heap.mem_indicesFrom`, `Eval.defineOnArray_element`, `Eval.defineOnArray_other`: the keys that an
  array takes for indices.
* `Eval.searchKeys`, `Eval.indexOf_eq_numbered`, `Eval.lastIndexOf_eq_numbered`: the keys that
  searches look up.
* **`index_keys_canonical`**: all of them are one.
-/

namespace Es5

/-! ## Canonical decimals -/

/-- Decimal digits of a natural, the ones last, with no sign and no zero in front. -/
structure CanonicalDecimal (cs : List Char) (n : Nat) : Prop where
  digits : ∀ c ∈ cs, '0' ≤ c ∧ c ≤ '9'
  nonempty : cs ≠ []
  front : cs.head? = some '0' → cs = ['0']
  value : Nat.ofDigits 10 (cs.reverse.map fun c => c.toNat - '0'.toNat) = n

theorem spelled_eq_ofDigits (cs : List Char) :
    spelled cs = Nat.ofDigits 10 (cs.reverse.map fun c => c.toNat - '0'.toNat) := by
  induction cs using List.reverseRecOn with
  | nil => rfl
  | append_singleton cs c ih =>
    rw [spelled, List.foldl_append, ← spelled, ih, List.reverse_concat, List.map_cons,
      Nat.ofDigits_cons]
    exact Nat.add_comm _ _

theorem isDigit_iff {c : Char} : c.isDigit = true ↔ '0' ≤ c ∧ c ≤ '9' := by
  rw [Char.isDigit, Bool.and_eq_true, decide_eq_true_iff, decide_eq_true_iff]
  rfl

theorem canonicalDecimal_toDigits (n : Nat) : CanonicalDecimal (Nat.toDigits 10 n) n where
  digits c hc := isDigit_iff.mp (Nat.isDigit_of_mem_toDigits (by omega) (by omega) hc)
  nonempty := Nat.toDigits_ne_nil
  front h := by
    by_cases hn : n = 0
    · rw [hn]; rfl
    · obtain ⟨c, rest, hdigits, hc⟩ := (significant_digitChars hn).exists_cons
      rw [Double.digitChars] at hdigits
      rw [hdigits, List.head?_cons, Option.some.injEq] at h
      exact absurd h hc
  value := by rw [← spelled_eq_ofDigits, spelled_toDigits]

theorem digitChar_sub_zero {c : Char} (h : '0' ≤ c ∧ c ≤ '9') :
    Nat.digitChar (c.toNat - '0'.toNat) = c ∧ c.toNat - '0'.toNat < 10 := by
  have hlow : 48 ≤ c.toNat := h.1
  have hhigh : c.toNat ≤ 57 := h.2
  have hzero : '0'.toNat = 48 := rfl
  refine ⟨Char.toNat_inj.mp ?_, by omega⟩
  rw [Nat.toNat_digitChar_of_lt_ten (by omega)]
  omega

/-- Canonical digits are those of their number. -/
theorem CanonicalDecimal.eq {cs : List Char} {n : Nat} (h : CanonicalDecimal cs n) :
    cs = Nat.toDigits 10 n := by
  induction cs using List.reverseRecOn generalizing n with
  | nil => exact absurd rfl h.nonempty
  | append_singleton cs c ih =>
    obtain ⟨hchar, hlt⟩ := digitChar_sub_zero (h.digits c (by simp))
    have hvalue := h.value
    rw [List.reverse_concat, List.map_cons, Nat.ofDigits_cons] at hvalue
    generalize c.toNat - '0'.toNat = d at hchar hlt hvalue
    obtain rfl | hne := eq_or_ne cs []
    · obtain rfl : d = n := hvalue
      rw [Nat.toDigits_of_lt_base hlt, hchar]
      rfl
    have hfront : cs.head? ≠ some '0' := fun hzero => by
      have hone := congrArg List.length (h.front (by rw [List.head?_append_of_ne_nil _ hne, hzero]))
      have hlength := List.length_pos_iff.mpr hne
      simp only [List.length_append, List.length_cons, List.length_nil] at hone
      omega
    have hcs : cs = Nat.toDigits 10 (Nat.ofDigits 10 (cs.reverse.map _)) :=
      ih ⟨fun c hc => h.digits c (by simp [hc]), hne, fun hzero => absurd hzero hfront, rfl⟩
    generalize Nat.ofDigits 10 (cs.reverse.map _) = front at hcs hvalue
    have hpos : front ≠ 0 := by
      rintro rfl
      rw [hcs] at hfront
      exact hfront rfl
    have hdiv : n / 10 = front := by omega
    have hmod : n % 10 = d := by omega
    rw [Nat.toDigits_of_base_le (by omega) (by omega), hdiv, hmod, hchar, hcs]

theorem canonicalDecimal_iff {cs : List Char} {n : Nat} :
    CanonicalDecimal cs n ↔ cs = Nat.toDigits 10 n :=
  ⟨CanonicalDecimal.eq, fun h => h ▸ canonicalDecimal_toDigits n⟩

/-- The indices are the canonical decimals below `2 ^ 32 - 1`. -/
theorem arrayIndex?_eq_some_iff_canonical {key : String} {i : Nat} :
    arrayIndex? key = some i ↔ i < 2 ^ 32 - 1 ∧ CanonicalDecimal key.toList i := by
  rw [arrayIndex?_eq_some_iff, canonicalDecimal_iff, ← toList_indexKey, String.toList_inj]
  rfl

theorem arrayIndex?_eq_none_iff {key : String} :
    arrayIndex? key = none ↔ ∀ i < 2 ^ 32 - 1, ¬CanonicalDecimal key.toList i := by
  simp only [Option.eq_none_iff_forall_ne_some, ne_eq, arrayIndex?_eq_some_iff_canonical, not_and]

/-! ## A reader with other spellings -/

/-- What stands behind a plus sign, if there is one. -/
def dropPlus : List Char → List Char
  | '+' :: rest => rest
  | cs => cs

/-- Reads a natural of 32 bits, maybe behind a plus sign and maybe with zeros in front. -/
def readWord? (key : String) : Option Nat :=
  let digits := dropPlus key.toList
  if digits.isEmpty || !digits.all Char.isDigit then none
  else if spelled digits < 2 ^ 32 then some (spelled digits)
  else none

theorem readWord?_indexKey {i : Nat} (hi : i < 2 ^ 32) : readWord? (indexKey i) = some i := by
  have hdigits : ∀ c ∈ Nat.toDigits 10 i, c.isDigit = true := fun c hc =>
    Nat.isDigit_of_mem_toDigits (by omega) (by omega) hc
  have hspelled := spelled_toDigits i
  have hne : Nat.toDigits 10 i ≠ [] := Nat.toDigits_ne_nil
  rw [readWord?, toList_indexKey]
  generalize Nat.toDigits 10 i = cs at hdigits hspelled hne
  have hplus : dropPlus cs = cs := by
    unfold dropPlus
    split
    next rest => exact absurd (hdigits '+' List.mem_cons_self) (by decide)
    next => rfl
  rw [hplus, List.all_eq_true.mpr hdigits, hspelled, if_pos hi]
  simp [hne]

/-- Only what is written in the same way again is an index. -/
theorem arrayIndex?_eq_readWord? (key : String) :
    arrayIndex? key = (readWord? key).bind fun i =>
      if i ≠ 2 ^ 32 - 1 ∧ indexKey i = key then some i else none := by
  have hlimit : maxLength = 2 ^ 32 - 1 := rfl
  have hread {n : Nat} (h : readWord? key = some n) : n < 2 ^ 32 := by
    unfold readWord? at h
    dsimp only at h
    split_ifs at h with _ hlt
    exact Option.some.inj h ▸ hlt
  ext i
  simp only [arrayIndex?_eq_some_iff, Option.bind_eq_some_iff, Option.ite_none_right_eq_some,
    Option.some.injEq]
  constructor
  · rintro ⟨hi, rfl⟩
    exact ⟨i, readWord?_indexKey (by omega), ⟨by omega, rfl⟩, rfl⟩
  · rintro ⟨_, h, ⟨hne, hkey⟩, rfl⟩
    have := hread h
    exact ⟨by omega, hkey.symm⟩

/-! ## Numbers -/

namespace Double

theorem exactLimit_le_exponentLimit : 2 * binade * unitsPerOne ≤ exponentLimit.magnitude := by
  have hrank : sextillionRank.val ≠ 0 := by decide
  have hlimit := ofDecimal_shortest false hrank
  rw [shortest_limits.2, Scientific.power_one] at hlimit
  rw [exponentLimit, hlimit]
  decide +kernel

/-- **Naturals below `2 ^ 53`** are written as numbers with the digits of the natural. -/
theorem scriptText_ofNat {n : Nat} (hn : n < 2 * binade) : (ofNat n).scriptText = indexKey n := by
  obtain ⟨hunits, hlt⟩ := units_nearestRank hn
  have hnumber : ofNat n = .finite false ⟨_, hlt⟩ := by rw [ofNat, nearest, ofRank, dif_pos hlt]
  rw [hnumber]
  generalize nearestRank (n * unitsPerOne) 1 = rank at hunits hlt
  have hzero : units 0 = 0 := rfl
  obtain rfl | hn' := eq_or_ne n 0
  · obtain rfl : rank = 0 := units_strictMono.injective (by rw [hunits, hzero, Nat.zero_mul])
    rfl
  have hpos := unitsPerOne_pos
  have hrank : rank ≠ 0 := by
    rintro rfl
    exact Nat.mul_ne_zero hn' hpos.ne' (hunits.symm.trans hzero)
  have hwhole : isWhole rank = true := by simp [isWhole, hunits]
  have hexact : units rank < exactLimit.magnitude := by
    rw [magnitude_exactLimit, hunits]
    exact Nat.mul_lt_mul_of_pos_right hn hpos
  have hlimit : units rank < exponentLimit.magnitude :=
    Nat.lt_of_lt_of_le (magnitude_exactLimit ▸ hexact) exactLimit_le_exponentLimit
  have hdigits : scriptMagnitude rank = digitChars n := by
    rw [scriptMagnitude, if_pos ⟨hwhole, hlimit⟩, if_pos hexact, wholePart, hunits,
      Nat.mul_div_cancel _ hpos]
  rw [scriptText, if_neg (by simpa [isZero] using hrank)]
  show "" ++ String.ofList (scriptMagnitude rank) = indexKey n
  rw [hdigits]
  exact String.empty_append

theorem ofInt_natCast (n : Nat) : ofInt n = ofNat n := by
  rw [ofInt, ofNat, Int.natAbs_natCast]
  congr 1

end Double

/-! ## The keys of new objects -/

section NewObjects

variable {κ σ : Type} (w : World κ σ)

theorem ownKeys_push {o : ObjectRecord κ} {h : Heap κ} :
    Heap.ownKeys (h.push o) (.object h.size) = o.properties.keys := by
  simp [Heap.ownKeys, Heap.record?]

theorem keys_newArray (values : List Value) (proto : Option Value) :
    ∃ v w', Eval.newArray values proto w = .ok v w' ∧
      w'.heap.ownKeys v = (List.range values.length).map indexKey ++ ["length"] :=
  ⟨_, _, rfl, ownKeys_push.trans (Properties.keys_indexed _ values _)⟩

theorem keys_wrapper (s : String) :
    ∃ v w', Eval.toObject (.string s) w = .ok v w' ∧
      w'.heap.ownKeys v = (List.range (pieces16 s).length).map indexKey ++ ["length"] :=
  ⟨_, _, rfl, ownKeys_push.trans (Properties.keys_indexed _ (pieces16 s) _)⟩

end NewObjects

/-! ## The keys that arrays take for indices -/

/-- The elements that a shorter length deletes. -/
theorem Heap.mem_indicesFrom {κ : Type} {h : Heap κ} {r : Ref} {least i : Nat} :
    i ∈ h.indicesFrom r least ↔
      least ≤ i ∧ i < 2 ^ 32 - 1 ∧ indexKey i ∈ h.ownKeys (.object r) := by
  simp only [indicesFrom, List.mem_mergeSort, List.mem_filter, List.mem_filterMap,
    arrayIndex?_eq_some_iff, decide_eq_true_iff]
  constructor
  · rintro ⟨⟨key, hmem, hi, rfl⟩, hle⟩
    exact ⟨hle, hi, hmem⟩
  · rintro ⟨hle, hi, hmem⟩
    exact ⟨⟨_, hmem, hi, rfl⟩, hle⟩

namespace Eval

variable {κ σ : Type} (caller : Caller κ σ)

theorem defineOnArray_element {r : Ref} {key : String} {d : Descriptor} {i : Nat}
    (h : arrayIndex? key = some i) :
    defineOnArray caller r key d = change (·.defineElement r i key d) := by
  rw [defineOnArray, if_neg (ne_length_of_arrayIndex? h), h]

theorem defineOnArray_other {r : Ref} {key : String} {d : Descriptor} (hkey : key ≠ "length")
    (h : arrayIndex? key = none) :
    defineOnArray caller r key d = change (·.define r key d) := by
  rw [defineOnArray, if_neg hkey, h]

/-! ## The keys of searches -/

/-- Indices with the texts of their numbers. -/
def numbered (indices : List Nat) : List (Nat × String) :=
  indices.map fun i => (i, (Double.ofInt i).scriptText)

/-- The first index whose key holds an element that strictly equals the one searched for. -/
def searchKeys (o search : Value) : List (Nat × String) → Eval κ σ Int
  | [] => pure (-1)
  | (i, key) :: rest => do
    if ← look (·.hasProperty o key) then
      if search.strictEquals (← get caller o key) then return i
    searchKeys o search rest

/-- The indices from a start on. -/
def indicesUp (length : Nat) (x : Double) : List Nat :=
  match forwardStart? length x with
  | some start => (List.range length).drop start
  | none => []

/-- The indices down from a start. -/
def indicesDown (length : Nat) (x : Double) : List Nat :=
  (List.range (backwardCount length x)).reverse

variable {caller} in
/-- The key of a number is the key of the index. -/
theorem searchKeys_numbered {i : Nat} (hi : i < maxLength) (o search : Value) (rest : List Nat) :
    searchKeys caller o search (numbered (i :: rest)) = (do
      if ← holdsAt caller o search i then pure (i : Int)
      else searchKeys caller o search (numbered rest)) := by
  have hlimit : maxLength < 2 * binade := by decide
  have hkey : (Double.ofInt i).scriptText = indexKey i := by
    rw [Double.ofInt_natCast, Double.scriptText_ofNat (Nat.lt_trans hi hlimit)]
  simp only [numbered, List.map_cons, searchKeys, holdsAt, hkey, bind_assoc]
  congr 1
  funext has
  cases has <;> simp

theorem searchUp_eq {index count : Nat} (h : index + count ≤ maxLength) (o search : Value) :
    searchUp caller o search index count =
      searchKeys caller o search (numbered (List.range' index count)) := by
  induction count generalizing index with
  | zero => rfl
  | succ count ih =>
    rw [List.range'_succ, searchKeys_numbered (by omega), searchUp, ih (by omega)]

theorem searchUp_from {length : Nat} (h : length ≤ maxLength) (o search : Value) (x : Double) :
    (match forwardStart? length x with
      | none => pure (-1)
      | some start => searchUp caller o search start (length - start)) =
      searchKeys caller o search (numbered (indicesUp length x)) := by
  have hspec := forwardStart?_spec length x
  unfold indicesUp
  cases hstart : forwardStart? length x with
  | none => rfl
  | some start =>
    rw [hstart] at hspec
    have hrange : (List.range length).drop start = List.range' start (length - start) := by
      rw [List.range_eq_range', List.drop_range', Nat.zero_add, Nat.mul_one]
    dsimp only at hspec ⊢
    rw [hrange, searchUp_eq caller (by omega)]

theorem searchDown_eq {count : Nat} (h : count ≤ maxLength) (o search : Value) :
    searchDown caller o search count =
      searchKeys caller o search (numbered (List.range count).reverse) := by
  induction count with
  | zero => rfl
  | succ count ih =>
    rw [List.range_succ, List.reverse_concat, searchKeys_numbered (by omega), searchDown,
      ih (by omega)]

theorem length_le_of_searched {v o : Value} {length : Nat} {w w' : World κ σ}
    (h : searched caller v w = .ok (o, length) w') : length ≤ maxLength := by
  obtain ⟨_, _, -, h⟩ := ok_of_bind h
  obtain ⟨_, _, -, h⟩ := ok_of_bind h
  obtain ⟨n, _, hn, h⟩ := ok_of_bind h
  obtain ⟨x, _, -, hx⟩ := ok_of_bind hn
  cases h
  cases hx
  exact Double.toUint32_le x

/-- The search upward, with the texts of numbers as keys. -/
def indexOfNumbered (v search : Value) (fromIndex : Option Value) : Eval κ σ Int := do
  let (o, length) ← searched caller v
  if length = 0 then pure (-1)
  else
    let x ← match fromIndex with
      | some i => toInteger caller i
      | none => pure .zero
    searchKeys caller o search (numbered (indicesUp length x))

/-- The search downward, with the texts of numbers as keys. -/
def lastIndexOfNumbered (v search : Value) (fromIndex : Option Value) : Eval κ σ Int := do
  let (o, length) ← searched caller v
  if length = 0 then pure (-1)
  else
    let x ← match fromIndex with
      | some i => toInteger caller i
      | none => pure (.ofNat (length - 1))
    searchKeys caller o search (numbered (indicesDown length x))

/-- Searches agree if they agree on what has the length of an array. -/
theorem searched_bind_congr {f g : Value × Nat → Eval κ σ Int} (v : Value)
    (h : ∀ o length, length ≤ maxLength → f (o, length) = g (o, length)) :
    searched caller v >>= f = searched caller v >>= g := by
  funext w
  cases hs : searched caller v w with
  | error e w' => rw [bind_of_error hs, bind_of_error hs]
  | ok p w' => rw [bind_of_ok hs, bind_of_ok hs, h _ _ (length_le_of_searched caller hs)]

theorem indexOf_eq_numbered (v search : Value) (fromIndex : Option Value) :
    indexOf caller v search fromIndex = indexOfNumbered caller v search fromIndex := by
  refine searched_bind_congr caller v fun o length hlength => ?_
  dsimp only
  split_ifs
  · rfl
  · cases fromIndex <;> exact bind_congr fun x => searchUp_from caller hlength o search x

theorem lastIndexOf_eq_numbered (v search : Value) (fromIndex : Option Value) :
    lastIndexOf caller v search fromIndex = lastIndexOfNumbered caller v search fromIndex := by
  refine searched_bind_congr caller v fun o length hlength => ?_
  dsimp only
  split_ifs
  · rfl
  · have hcount (x : Double) : backwardCount length x ≤ maxLength :=
      (backwardCount_spec length x).1.trans hlength
    cases fromIndex <;> exact bind_congr fun x => searchDown_eq caller (hcount x) o search

end Eval

/-! ## One spelling -/

/--
**One spelling for each index.** A key spells the index `i` exactly if `i` is below `2 ^ 32 - 1` and
the key is its decimal with no sign and no zero in front; a reader of naturals of 32 bits which
admits a plus sign and zeros gives the same indices once what it reads has to be written like that
again. The number of each index is written in the same way, and so are the keys of the elements of
new arrays and of texts. Arrays take these keys for indices and no others, when they define
properties and when they become shorter, and the searches are the searches which look up the texts
of the numbers.
-/
theorem index_keys_canonical {κ σ : Type} (caller : Caller κ σ) :
    (∀ key i, arrayIndex? key = some i ↔ i < 2 ^ 32 - 1 ∧ CanonicalDecimal key.toList i) ∧
      (∀ key, arrayIndex? key = (readWord? key).bind fun i =>
        if i ≠ 2 ^ 32 - 1 ∧ indexKey i = key then some i else none) ∧
      (∀ i < 2 ^ 32 - 1, CanonicalDecimal (indexKey i).toList i ∧
        (Double.ofInt i).scriptText = indexKey i) ∧
      (∀ values proto (w : World κ σ), ∃ v w', Eval.newArray values proto w = .ok v w' ∧
        w'.heap.ownKeys v = (List.range values.length).map indexKey ++ ["length"]) ∧
      (∀ s (w : World κ σ), ∃ v w', Eval.toObject (.string s) w = .ok v w' ∧
        w'.heap.ownKeys v = (List.range (pieces16 s).length).map indexKey ++ ["length"]) ∧
      (∀ r key d i, i < 2 ^ 32 - 1 → CanonicalDecimal key.toList i →
        Eval.defineOnArray caller r key d = Eval.change (·.defineElement r i key d)) ∧
      (∀ r key d, key ≠ "length" → (∀ i < 2 ^ 32 - 1, ¬CanonicalDecimal key.toList i) →
        Eval.defineOnArray caller r key d = Eval.change (·.define r key d)) ∧
      (∀ (h : Heap κ) r least i, i ∈ h.indicesFrom r least ↔
        least ≤ i ∧ i < 2 ^ 32 - 1 ∧ indexKey i ∈ h.ownKeys (.object r)) ∧
      Eval.indexOf caller = Eval.indexOfNumbered caller ∧
      Eval.lastIndexOf caller = Eval.lastIndexOfNumbered caller := by
  refine ⟨fun _ _ => arrayIndex?_eq_some_iff_canonical, arrayIndex?_eq_readWord?, fun i hi => ?_,
    fun values proto w => keys_newArray w values proto, fun s w => keys_wrapper w s, ?_, ?_,
    fun _ _ _ _ => Heap.mem_indicesFrom, ?_, ?_⟩
  · have hlimit : 2 ^ 32 - 1 < 2 * binade := by decide
    rw [Double.ofInt_natCast, Double.scriptText_ofNat (Nat.lt_trans hi hlimit), toList_indexKey]
    exact ⟨canonicalDecimal_toDigits i, rfl⟩
  · intro r key d i hi hkey
    exact Eval.defineOnArray_element caller (arrayIndex?_eq_some_iff_canonical.mpr ⟨hi, hkey⟩)
  · intro r key d hlength hkey
    exact Eval.defineOnArray_other caller hlength (arrayIndex?_eq_none_iff.mpr hkey)
  · funext v search fromIndex
    exact Eval.indexOf_eq_numbered caller v search fromIndex
  · funext v search fromIndex
    exact Eval.lastIndexOf_eq_numbered caller v search fromIndex

/-- An array takes `"4"` for an index, and neither `"04"` nor `"+4"`, which the reader admits. -/
theorem index_keys_canonical_four :
    let caller : Caller Unit Unit := fun _ _ _ => throw .exhausted
    let element : Descriptor := { value := some .null }
    arrayIndex? "4" = some 4 ∧ (Double.ofInt 4).scriptText = "4" ∧
      Eval.defineOnArray caller 0 "4" element = Eval.change (·.defineElement 0 4 "4" element) ∧
      readWord? "04" = some 4 ∧ readWord? "+4" = some 4 ∧
      Eval.defineOnArray caller 0 "04" element = Eval.change (·.define 0 "04" element) ∧
      Eval.defineOnArray caller 0 "+4" element = Eval.change (·.define 0 "+4" element) := by
  intro caller element
  obtain ⟨hindex, -, hnumber, -, -, hdefine, hother, -⟩ := index_keys_canonical caller
  have hfour : CanonicalDecimal "4".toList 4 := canonicalDecimal_toDigits 4
  have hnone (key : String) (h : arrayIndex? key = none) :
      ∀ i < 2 ^ 32 - 1, ¬CanonicalDecimal key.toList i := fun i hi hkey => by
    have := (hindex key i).mpr ⟨hi, hkey⟩
    rw [h] at this
    cases this
  exact ⟨(hindex "4" 4).mpr ⟨by decide, hfour⟩, (hnumber 4 (by decide)).2,
    hdefine 0 "4" element 4 (by decide) hfour, by decide +kernel, by decide +kernel,
    hother 0 "04" element (by decide) (hnone _ (by decide +kernel)),
    hother 0 "+4" element (by decide) (hnone _ (by decide +kernel))⟩

end Es5
