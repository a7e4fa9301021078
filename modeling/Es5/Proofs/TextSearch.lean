import Es5.Proofs.Matches

/-!
# Searching a text

A text is searched through a wrapper that has one element for each UTF-16 unit. A unit that is half
of a pair has no text of its own and reads as `U+FFFD`, so a search for that character also finds
the halves of pairs. Any other character of one unit is found where it stands in the text.

* `utf16`, `loneUnit`: the units of a text, and the character that one of them reads as.
* `OccursAt`, `HalfAt`: how many units stand before a character, and before a half of a pair.
* `wrapper_matches_iff`: the elements of the wrapper that match a character.
* **`Eval.searches_text`**: both searches of a text for a character of one unit.
* `Eval.searches_text_fails`: where they do not find what stands in the text.
-/

namespace Es5

/-! ## Units -/

/-- The UTF-16 units of a character: one, or a pair. -/
def utf16Char (c : Char) : List Nat :=
  let n := c.toNat
  if n < 0x10000 then [n] else [0xD800 + (n - 0x10000) / 0x400, 0xDC00 + (n - 0x10000) % 0x400]

/-- The UTF-16 units of some characters. -/
def utf16 (cs : List Char) : List Nat := cs.flatMap utf16Char

/-- The character that a unit reads as on its own. -/
def loneUnit (u : Nat) : Char := if h : u.isValidChar then Char.ofNatAux u h else '\uFFFD'

/-- A character stands in a text after `i` units. -/
def OccursAt (c : Char) (cs : List Char) (i : Nat) : Prop :=
  ∃ before after, cs = before ++ c :: after ∧ i = (utf16 before).length

/-- Half of a pair stands in a text after `i` units. -/
def HalfAt (cs : List Char) (i : Nat) : Prop :=
  ∃ before c after, cs = before ++ c :: after ∧ 0x10000 ≤ c.toNat ∧
    (i = (utf16 before).length ∨ i = (utf16 before).length + 1)

theorem loneUnit_toNat (c : Char) : loneUnit c.toNat = c := by
  have hvalid : c.toNat.isValidChar := c.valid
  rw [loneUnit, dif_pos hvalid]
  exact Char.ext rfl

theorem loneUnit_half {n : Nat} (h : n < 0x400) :
    loneUnit (0xD800 + n) = '\uFFFD' ∧ loneUnit (0xDC00 + n) = '\uFFFD' := by
  constructor
  · rw [loneUnit, dif_neg (by rw [Nat.isValidChar]; omega)]
  · rw [loneUnit, dif_neg (by rw [Nat.isValidChar]; omega)]

/-- Each unit of a pair reads as `U+FFFD`. -/
theorem utf16Char_pair {c : Char} (hc : 0x10000 ≤ c.toNat) : ∃ u v, utf16Char c = [u, v] ∧
    loneUnit u = '\uFFFD' ∧ loneUnit v = '\uFFFD' := by
  have hlt : c.toNat < 0x110000 := by
    have hvalid : c.toNat.isValidChar := c.valid
    rw [Nat.isValidChar] at hvalid
    omega
  refine ⟨_, _, if_neg (by omega), (loneUnit_half ?_).1, (loneUnit_half ?_).2⟩
  · omega
  · omega

/-- **Each unit of a text is read on its own.** -/
theorem pieces16_eq (s : String) :
    pieces16 s = (utf16 s.toList).map fun u => (loneUnit u).toString := by
  rw [pieces16, utf16, List.map_flatMap]
  refine List.flatMap_congr fun c _ => ?_
  rw [charPieces16]
  split
  · rename_i hc
    rw [utf16Char, if_pos hc, List.map_singleton, loneUnit_toNat]
  · rename_i hc
    obtain ⟨u, v, hpair, hu, hv⟩ := utf16Char_pair (c := c) (by omega)
    rw [hpair, List.map_cons, List.map_singleton, hu, hv]
    rfl

/-- An element of a list of parts is an element of a part, so many elements after the ones before. -/
theorem getElem?_flatMap_iff {α β : Type} {f : α → List β} {xs : List α} {i : Nat} {b : β} :
    (xs.flatMap f)[i]? = some b ↔ ∃ before x after j, xs = before ++ x :: after ∧
      (f x)[j]? = some b ∧ i = (before.flatMap f).length + j := by
  induction xs generalizing i with
  | nil => simp
  | cons x xs ih =>
    rw [List.flatMap_cons]
    constructor
    · intro h
      by_cases hi : i < (f x).length
      · rw [List.getElem?_append_left hi] at h
        exact ⟨[], x, xs, i, rfl, h, by simp⟩
      · rw [List.getElem?_append_right (by omega)] at h
        obtain ⟨before, y, after, j, rfl, hj, hlen⟩ := ih.mp h
        refine ⟨x :: before, y, after, j, rfl, hj, ?_⟩
        rw [List.flatMap_cons, List.length_append]
        omega
    · rintro ⟨_ | ⟨y, before⟩, z, after, j, hsplit, hj, hlen⟩
      · cases hsplit
        have hlt := (List.getElem?_eq_some_iff.mp hj).1
        rw [List.flatMap_nil, List.length_nil, Nat.zero_add] at hlen
        rw [hlen, List.getElem?_append_left hlt, hj]
      · cases hsplit
        rw [List.flatMap_cons, List.length_append] at hlen
        rw [List.getElem?_append_right (by omega)]
        exact ih.mpr ⟨before, z, after, j, rfl, hj, by omega⟩

variable {c : Char} {cs : List Char} {i : Nat}

/-- A unit that reads as a character is that character, or half of a pair. -/
theorem loneUnit_iff (hc : c.toNat < 0x10000) :
    (∃ u, (utf16 cs)[i]? = some u ∧ loneUnit u = c) ↔
      OccursAt c cs i ∨ c = '\uFFFD' ∧ HalfAt cs i := by
  constructor
  · rintro ⟨u, hu, rfl⟩
    obtain ⟨before, x, after, j, rfl, hj, rfl⟩ := getElem?_flatMap_iff.mp hu
    by_cases hx : x.toNat < 0x10000
    · rw [utf16Char, if_pos hx] at hj
      obtain ⟨hlt, rfl⟩ := List.getElem?_eq_some_iff.mp hj
      have hj0 : j = 0 := by simpa using hlt
      subst hj0
      exact Or.inl ⟨before, after, by simp [loneUnit_toNat], rfl⟩
    · obtain ⟨y, z, hpair, hy, hz⟩ := utf16Char_pair (c := x) (by omega)
      rw [hpair] at hj
      have hhalf : j = 0 ∧ u = y ∨ j = 1 ∧ u = z := by
        match j, hj with
        | 0, hj => exact Or.inl ⟨rfl, (Option.some.inj hj).symm⟩
        | 1, hj => exact Or.inr ⟨rfl, (Option.some.inj hj).symm⟩
      refine Or.inr ⟨?_, before, x, after, rfl, by omega, ?_⟩
      · rcases hhalf with ⟨-, rfl⟩ | ⟨-, rfl⟩
        · exact hy
        · exact hz
      · exact hhalf.imp (fun h => by rw [h.1]; rfl) (fun h => by rw [h.1]; rfl)
  · rintro (⟨before, after, rfl, rfl⟩ | ⟨rfl, before, x, after, rfl, hx, hi⟩)
    · refine ⟨c.toNat, getElem?_flatMap_iff.mpr ⟨before, c, after, 0, rfl, ?_, rfl⟩,
        loneUnit_toNat c⟩
      rw [utf16Char, if_pos hc]
      rfl
    · obtain ⟨y, z, hpair, hy, hz⟩ := utf16Char_pair hx
      rcases hi with rfl | rfl
      · exact ⟨y, getElem?_flatMap_iff.mpr ⟨before, x, after, 0, rfl, by rw [hpair]; rfl, rfl⟩, hy⟩
      · exact ⟨z, getElem?_flatMap_iff.mpr ⟨before, x, after, 1, rfl, by rw [hpair]; rfl, rfl⟩, hz⟩

theorem OccursAt.lt_length (h : OccursAt c cs i) : i < (utf16 cs).length := by
  obtain ⟨before, after, rfl, rfl⟩ := h
  have hpos : 0 < (utf16Char c).length := by
    rw [utf16Char]
    split <;> exact Nat.succ_pos _
  rw [utf16, utf16, List.flatMap_append, List.flatMap_cons, List.length_append, List.length_append]
  omega

/-- The first place of a character is where it stands with no other of it before. -/
theorem isLeast_occursAt {before after : List Char} (hcs : cs = before ++ c :: after)
    (hc : c ∉ before) : IsLeast {i | OccursAt c cs i} (utf16 before).length := by
  refine ⟨⟨before, after, hcs, rfl⟩, ?_⟩
  rintro i ⟨before', after', hcs', rfl⟩
  rcases List.append_eq_append_iff.mp (hcs.symm.trans hcs') with ⟨more, rfl, -⟩ | ⟨more, hb, hm⟩
  · rw [utf16, utf16, List.flatMap_append, List.length_append]
    exact Nat.le_add_right _ _
  · cases more with
    | nil => rw [hb, List.append_nil]
    | cons x more =>
      cases hm
      exact absurd (hb ▸ List.mem_append_right _ List.mem_cons_self) hc

/-- The last place of a character is where it stands with no other of it after. -/
theorem isGreatest_occursAt {before after : List Char} (hcs : cs = before ++ c :: after)
    (hc : c ∉ after) : IsGreatest {i | OccursAt c cs i} (utf16 before).length := by
  refine ⟨⟨before, after, hcs, rfl⟩, ?_⟩
  rintro i ⟨before', after', hcs', rfl⟩
  rcases List.append_eq_append_iff.mp (hcs.symm.trans hcs') with ⟨more, hb, hm⟩ | ⟨more, rfl, -⟩
  · cases more with
    | nil => rw [hb, List.append_nil]
    | cons x more =>
      cases hm
      exact absurd (List.mem_append_right _ List.mem_cons_self) hc
  · rw [utf16, utf16, List.flatMap_append, List.length_append]
    exact Nat.le_add_right _ _

/-! ## Wrappers of texts -/

variable {κ σ : Type}

/-- How many units of a text its wrapper shows as elements: its length is a number. -/
def shownUnits (cs : List Char) : Nat := (Double.ofNat (utf16 cs).length).toUint32

theorem shownUnits_eq (h : (utf16 cs).length ≤ maxLength) : shownUnits cs = (utf16 cs).length :=
  Double.toUint32_ofNat h

theorem shownUnits_le (cs : List Char) : shownUnits cs ≤ (utf16 cs).length := by
  by_cases h : (utf16 cs).length ≤ maxLength
  · exact (shownUnits_eq h).le
  · have hword : shownUnits cs ≤ maxLength := Double.toUint32_le _
    omega

section Wrapper

variable {s : String} {o : ObjectRecord κ} {h : Heap κ} {r : Ref}
  (hwrap : wrapper? (.string s) = some o) (ho : h[r]? = some o)

include hwrap

theorem properties_wrapper :
    o.properties = .indexed (fun piece => .fixed (.string piece) true) (pieces16 s)
      (.fixed (.number (.ofNat (pieces16 s).length)) false) := by
  cases hwrap
  rfl

include ho

theorem arrayLike_wrapper : h.ArrayLike (.object r) (shownUnits s.toList) := by
  have hlength : (pieces16 s).length = (utf16 s.toList).length := by
    rw [pieces16_eq, List.length_map]
  refine arrayLike_indexed ho (properties_wrapper hwrap) (fun _ => rfl) rfl rfl ?_ ?_
  · rw [hlength]
    rfl
  · rw [hlength]
    exact shownUnits_le _

/-- An element of a wrapper matches a character that stands there, or half of a pair there. -/
theorem wrapper_matches_iff {c : Char} {i : Nat} (hc : c.toNat < 0x10000)
    (hi : i < (utf16 s.toList).length) : h.Matches (.object r) (.string c.toString) i ↔
      OccursAt c s.toList i ∨ c = '\uFFFD' ∧ HalfAt s.toList i := by
  have hpiece : (pieces16 s)[i]? = some (loneUnit (utf16 s.toList)[i]).toString := by
    rw [pieces16_eq, List.getElem?_map, List.getElem?_eq_getElem hi, Option.map_some]
  obtain ⟨hlt, hpiece⟩ := List.getElem?_eq_some_iff.mp hpiece
  rw [matches_indexed ho (properties_wrapper hwrap) _ hlt rfl, hpiece, ← loneUnit_iff hc]
  constructor
  · intro hequal
    refine ⟨_, List.getElem?_eq_getElem hi, ?_⟩
    have htext : c.toString = (loneUnit (utf16 s.toList)[i]).toString := by
      simpa [Value.strictEquals] using hequal
    have hchars := congrArg String.toList htext
    simpa using hchars.symm
  · rintro ⟨u, hu, rfl⟩
    rw [List.getElem?_eq_getElem hi, Option.some_inj] at hu
    rw [hu]
    simp [Value.strictEquals]

end Wrapper

/-! ## Searches of texts -/

namespace Eval

variable (caller : Caller κ σ) {w : World κ σ}

/-- A plain value is searched through its wrapper, which is a new object. -/
theorem searched_wrapper {v : Value} {o : ObjectRecord κ} (hwrap : wrapper? v = some o) :
    searched caller v w = searched caller (.object w.heap.size) ⟨w.heap.push o, w.host⟩ := by
  have hplain : ¬v.isObject = true := by cases v <;> simp_all [wrapper?, Value.isObject]
  have hobject : toObject v w = .ok (.object w.heap.size) ⟨w.heap.push o, w.host⟩ := by
    rw [toObject, if_neg hplain, hwrap]
    rfl
  rw [searched, searched, bind_of_ok hobject]
  rfl

/-- What the searches of a text find, among the units that its wrapper shows. -/
theorem searches_units (s : String) {c : Char} (hc : c.toNat < 0x10000) :
    ∃ o k l, wrapper? (.string s) = some o ∧
      indexOf caller (.string s) (.string c.toString) none w = .ok k ⟨w.heap.push o, w.host⟩ ∧
      lastIndexOf caller (.string s) (.string c.toString) none w =
        .ok l ⟨w.heap.push o, w.host⟩ ∧
      FirstOf {i | i < shownUnits s.toList ∧
        (OccursAt c s.toList i ∨ c = '\uFFFD' ∧ HalfAt s.toList i)} k ∧
      LastOf {i | i < shownUnits s.toList ∧
        (OccursAt c s.toList i ∨ c = '\uFFFD' ∧ HalfAt s.toList i)} l := by
  obtain ⟨o, hwrap⟩ : ∃ o : ObjectRecord κ, wrapper? (.string s) = some o := ⟨_, rfl⟩
  have ho : (w.heap.push o)[w.heap.size]? = some o := Array.getElem?_push_size
  have hlike := arrayLike_wrapper hwrap ho
  obtain ⟨k, l, hk, hl, hfirst, hlast⟩ :=
    hlike.searches_all (w := ⟨w.heap.push o, w.host⟩) caller (.string c.toString)
  have hset : {i | i < shownUnits s.toList ∧
      Heap.Matches (w.heap.push o) (.object w.heap.size) (.string c.toString) i} =
      {i | i < shownUnits s.toList ∧
        (OccursAt c s.toList i ∨ c = '\uFFFD' ∧ HalfAt s.toList i)} := by
    ext i
    refine and_congr_right fun hi => ?_
    exact wrapper_matches_iff hwrap ho hc (Nat.lt_of_lt_of_le hi (shownUnits_le _))
  refine ⟨o, k, l, hwrap, ?_, ?_, hset ▸ hfirst, hset ▸ hlast⟩
  · rw [← hk]
    simp only [indexOf, bind, EStateM.bind, searched_wrapper caller hwrap]
  · rw [← hl]
    simp only [lastIndexOf, bind, EStateM.bind, searched_wrapper caller hwrap]

/--
**A text is searched by its units.** The searches of a text for a character of one unit make a
wrapper and change nothing else. In a text that is no longer than an array, a character other than
`U+FFFD` is found where it stands first, and last: the result is the number of units before it, and
`-1` if it does not stand in the text. In general the searches cover as many units as the length of
the wrapper says, which is a number of 32 bits, and `U+FFFD` is found also at both halves of a pair.
-/
theorem searches_text (s : String) {c : Char} (hc : c.toNat < 0x10000) :
    ∃ o k l, wrapper? (.string s) = some o ∧
      indexOf caller (.string s) (.string c.toString) none w = .ok k ⟨w.heap.push o, w.host⟩ ∧
      lastIndexOf caller (.string s) (.string c.toString) none w =
        .ok l ⟨w.heap.push o, w.host⟩ ∧
      (c ≠ '\uFFFD' → (utf16 s.toList).length ≤ maxLength →
        (∀ before after, s.toList = before ++ c :: after → c ∉ before →
          k = (utf16 before).length) ∧
        (∀ before after, s.toList = before ++ c :: after → c ∉ after →
          l = (utf16 before).length) ∧
        (c ∉ s.toList → k = -1 ∧ l = -1)) ∧
      FirstOf {i | i < shownUnits s.toList ∧
        (OccursAt c s.toList i ∨ c = '\uFFFD' ∧ HalfAt s.toList i)} k ∧
      LastOf {i | i < shownUnits s.toList ∧
        (OccursAt c s.toList i ∨ c = '\uFFFD' ∧ HalfAt s.toList i)} l := by
  obtain ⟨o, k, l, hwrap, hk, hl, hfirst, hlast⟩ := searches_units caller (w := w) s hc
  refine ⟨o, k, l, hwrap, hk, hl, fun hne hshort => ?_, hfirst, hlast⟩
  have hset : {i | i < shownUnits s.toList ∧
      (OccursAt c s.toList i ∨ c = '\uFFFD' ∧ HalfAt s.toList i)} =
      {i | OccursAt c s.toList i} := by
    ext i
    simp only [shownUnits_eq hshort, hne, false_and, or_false, Set.mem_ofPred_eq]
    exact and_iff_right_of_imp OccursAt.lt_length
  rw [hset] at hfirst hlast
  refine ⟨fun before after hs hbefore => ?_, fun before after hs hafter => ?_, fun hnone => ?_⟩
  · exact hfirst.unique (Or.inl ⟨_, isLeast_occursAt hs hbefore, rfl⟩)
  · exact hlast.unique (Or.inl ⟨_, isGreatest_occursAt hs hafter, rfl⟩)
  · have hempty : ∀ i, i ∉ {i | OccursAt c s.toList i} := by
      rintro i ⟨before, after, hs, -⟩
      exact hnone (hs ▸ List.mem_append_right _ List.mem_cons_self)
    exact ⟨hfirst.unique (firstOf_empty hempty), hlast.unique (lastOf_empty hempty)⟩

/-- The letter stands after one pair, and again after two pairs and itself. -/
theorem searches_text_pairs :
    let caller : Caller Unit Unit := fun _ _ _ => throw .exhausted
    ∃ w', indexOf caller (.string "😀b😀b") (.string "b") none ⟨#[], ()⟩ = .ok 2 w' ∧
      lastIndexOf caller (.string "😀b😀b") (.string "b") none ⟨#[], ()⟩ = .ok 5 w' := by
  intro caller
  have hshort : (utf16 "😀b😀b".toList).length ≤ maxLength := by decide +kernel
  obtain ⟨o, k, l, -, hk, hl, hfound, -⟩ :=
    searches_text caller (w := ⟨#[], ()⟩) "😀b😀b" (c := 'b') (by decide)
  obtain ⟨hfirst, hlast, -⟩ := hfound (by decide) hshort
  have hk2 : k = 2 := hfirst ['😀'] ['😀', 'b'] (by decide) (by decide)
  have hl5 : l = 5 := hlast ['😀', 'b', '😀'] [] (by decide) (by decide)
  subst hk2 hl5
  exact ⟨_, hk, hl⟩

/--
Where a search does not find what stands in the text: `U+FFFD` is found at a pair, and a text of
`2 ^ 32` units counts as empty.
-/
theorem searches_text_fails :
    let caller : Caller Unit Unit := fun _ _ _ => throw .exhausted
    let long := List.replicate (2 ^ 32) 'a'
    ('\uFFFD' ∉ "😀".toList ∧
      ∃ w', indexOf caller (.string "😀") (.string "\uFFFD") none ⟨#[], ()⟩ = .ok 0 w') ∧
    'a' ∈ long ∧
      ∃ w', indexOf caller (.string (.ofList long)) (.string "a") none ⟨#[], ()⟩ = .ok (-1) w' := by
  intro caller long
  have hpair : ∃ w', indexOf caller (.string "😀") (.string "\uFFFD") none ⟨#[], ()⟩ = .ok 0 w' := by
    obtain ⟨o, k, l, -, hk, -⟩ :=
      searches_units caller (w := ⟨#[], ()⟩) "😀" (c := '\uFFFD') (by decide)
    have hzero : result? (indexOf caller (.string "😀") (.string "\uFFFD") none) ⟨#[], ()⟩ =
        some 0 := by decide +kernel
    cases (result?_of_ok hk).symm.trans hzero
    exact ⟨_, hk⟩
  have hunits : ∀ n, (utf16 (List.replicate n 'a')).length = n := fun n => by
    induction n with
    | zero => rfl
    | succ n ih =>
      rw [List.replicate_succ, utf16, List.flatMap_cons, List.length_append]
      exact (congrArg (1 + ·) ih).trans (Nat.add_comm 1 n)
  have hshown : shownUnits (String.ofList long).toList = 0 := by
    rw [String.toList_ofList, shownUnits, hunits]
    decide +kernel
  obtain ⟨o, k, l, -, hk, -, hfirst, -⟩ :=
    searches_units caller (w := ⟨#[], ()⟩) (.ofList long) (c := 'a') (by decide)
  simp only [hshown, Nat.not_lt_zero, false_and] at hfirst
  rw [hfirst.unique (firstOf_empty fun i hi => hi)] at hk
  refine ⟨⟨by decide, hpair⟩, ?_, _, hk⟩
  exact List.mem_replicate.mpr ⟨by omega, rfl⟩

end Eval

end Es5
