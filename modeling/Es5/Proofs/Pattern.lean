import Es5.Text.Word

/-!
# Patterns

A pattern is a list of items, each of which matches a piece of a text. An item may match in several
ways, and prefers some to others. A search takes the first place where the whole pattern matches, and
there the way that its first item prefers, and among the ways that this leaves what the second item
prefers, and so on.

* `Item`, `Item.ways`: an item, and the pieces that it matches, in order of preference.
* `ways`, `search`: the matches of a pattern at a place, and the first match in a text.
* `Item.Takes`, `Fits`: the pieces that an item or a pattern matches, in any order.
* `mem_ways`, **`search_isSome_iff`**: a pattern is found exactly if it fits somewhere.
* `head?_ways_cons`: the preferred match, item by item.
-/

namespace Es5.Text

/-- The part of a pattern that matches one piece of a text. -/
inductive Item where
  /-- The text itself. -/
  | literal (text : List Char)
  /-- The character or nothing; the character is preferred. -/
  | optional (c : Char)
  /-- Characters of a class, the more the better. -/
  | many (p : Char → Bool)
  /-- Characters of a class, at least one and the more the better. -/
  | some (p : Char → Bool)
  /-- Characters of a class, the fewer the better. -/
  | few (p : Char → Bool)
  /-- A place with the character of a word on one side only. -/
  | boundary

/-- The ways to cut off characters of a class at the start, the fewest first. -/
def cuts (p : Char → Bool) : List Char → List (List Char × List Char)
  | [] => [([], [])]
  | c :: cs =>
    ([], c :: cs) :: if p c then (cuts p cs).map fun (piece, rest) => (c :: piece, rest) else []

/-- The pieces that an item matches after a character, and what follows, in order of preference. -/
def Item.ways (last : Option Char) (cs : List Char) : Item → List (List Char × List Char)
  | literal text => if text.isPrefixOf cs then [(text, cs.drop text.length)] else []
  | optional c => if cs.head? = .some c then [([c], cs.drop 1), ([], cs)] else [([], cs)]
  | many p => (cuts p cs).reverse
  | some p => (cuts p cs).reverse.filter fun (piece, _) => !piece.isEmpty
  | few p => cuts p cs
  | boundary => if last.any isWordChar != cs.head?.any isWordChar then [([], cs)] else []

/-- The pieces that the items match one after the other, in order of preference. -/
def ways : List Item → Option Char → List Char → List (List (List Char) × List Char)
  | [], _, cs => [([], cs)]
  | item :: items, last, cs =>
    (item.ways last cs).flatMap fun (piece, rest) =>
      (ways items (piece.getLast?.or last) rest).map fun (pieces, rest) => (piece :: pieces, rest)

/-- A match: what stands before it, the pieces of the items, and what stands after it. -/
structure Match where
  before : List Char
  pieces : List (List Char)
  after : List Char

/-- The first match of a pattern in a text, after a character. -/
def search (items : List Item) : Option Char → List Char → Option Match
  | last, [] => (ways items last []).head?.map fun (pieces, rest) => ⟨[], pieces, rest⟩
  | last, c :: cs =>
    match (ways items last (c :: cs)).head? with
    | some (pieces, rest) => some ⟨[], pieces, rest⟩
    | none => (search items (some c) cs).map fun m => { m with before := c :: m.before }

/-! ## What matches -/

/-- An item matches a piece between a character and what follows. -/
def Item.Takes (last : Option Char) (piece rest : List Char) : Item → Prop
  | literal text => piece = text
  | optional c => piece = [] ∨ piece = [c]
  | many p => ∀ c ∈ piece, p c
  | some p => piece ≠ [] ∧ ∀ c ∈ piece, p c
  | few p => ∀ c ∈ piece, p c
  | boundary => piece = [] ∧ last.any isWordChar ≠ rest.head?.any isWordChar

theorem mem_cuts {p : Char → Bool} {piece rest cs : List Char} :
    (piece, rest) ∈ cuts p cs ↔ cs = piece ++ rest ∧ ∀ c ∈ piece, p c := by
  induction cs generalizing piece with
  | nil => cases piece <;> cases rest <;> simp [cuts]
  | cons c cs ih =>
    cases piece with
    | nil => grind [cuts]
    | cons d piece =>
      by_cases hc : p c
      · simp only [cuts, hc, if_true, List.mem_cons, List.mem_map, Prod.exists, Prod.mk.injEq]
        grind
      · grind [cuts]

theorem Item.mem_ways {item : Item} {last : Option Char} {piece rest cs : List Char} :
    (piece, rest) ∈ item.ways last cs ↔ cs = piece ++ rest ∧ item.Takes last piece rest := by
  cases item with
  | literal text => grind [ways, Takes, List.isPrefixOf_iff_prefix, List.prefix_iff_eq_append]
  | optional c => cases cs <;> grind [ways, Takes]
  | many p => simp [ways, Takes, mem_cuts]
  | some p => simp [ways, Takes, mem_cuts, and_left_comm, and_comm]
  | few p => simp [ways, Takes, mem_cuts]
  | boundary => grind [ways, Takes]

/-- Items match pieces one after the other, after a character and in front of what follows. -/
def Fits : List Item → Option Char → List (List Char) → List Char → Prop
  | [], _, [], _ => True
  | item :: items, last, piece :: pieces, rest =>
    item.Takes last piece (pieces.flatten ++ rest) ∧ Fits items (piece.getLast?.or last) pieces rest
  | _, _, _, _ => False

@[simp] theorem fits_nil {last : Option Char} {pieces : List (List Char)} {rest : List Char} :
    Fits [] last pieces rest ↔ pieces = [] := by
  cases pieces <;> simp [Fits]

theorem fits_cons {item : Item} {items : List Item} {last : Option Char}
    {pieces : List (List Char)} {rest : List Char} :
    Fits (item :: items) last pieces rest ↔ ∃ piece more, pieces = piece :: more ∧
      item.Takes last piece (more.flatten ++ rest) ∧
        Fits items (piece.getLast?.or last) more rest := by
  cases pieces <;> simp [Fits, and_assoc]

theorem mem_ways {items : List Item} {last : Option Char} {pieces : List (List Char)}
    {rest cs : List Char} :
    (pieces, rest) ∈ ways items last cs ↔
      cs = pieces.flatten ++ rest ∧ Fits items last pieces rest := by
  induction items generalizing last pieces cs rest with
  | nil => simp [ways]; grind
  | cons item items ih =>
    simp only [ways, List.mem_flatMap, List.mem_map, Prod.exists, Prod.mk.injEq, fits_cons,
      Item.mem_ways, ih]
    constructor
    · rintro ⟨piece, _, ⟨rfl, htake⟩, more, _, ⟨rfl, hfit⟩, rfl, rfl⟩
      exact ⟨by simp, piece, more, rfl, htake, hfit⟩
    · rintro ⟨rfl, piece, more, rfl, htake, hfit⟩
      exact ⟨piece, _, ⟨by simp, htake⟩, more, rest, ⟨rfl, hfit⟩, rfl, rfl⟩

theorem head?_ways_isSome {items : List Item} {last : Option Char} {cs : List Char} :
    (ways items last cs).head?.isSome ↔
      ∃ pieces rest, cs = pieces.flatten ++ rest ∧ Fits items last pieces rest := by
  simp only [← mem_ways]
  cases h : ways items last cs with
  | nil => simp
  | cons way _ => exact iff_of_true rfl ⟨way.1, way.2, List.mem_cons_self⟩

theorem search_cons (items : List Item) (last : Option Char) (c : Char) (cs : List Char) :
    search items last (c :: cs) =
      ((ways items last (c :: cs)).head?.map fun (pieces, rest) => ⟨[], pieces, rest⟩).or
        ((search items (some c) cs).map fun m => { m with before := c :: m.before }) := by
  rw [search]
  cases (ways items last (c :: cs)).head? <;> rfl

theorem getLast?_cons_or (c : Char) (cs : List Char) (last : Option Char) :
    (c :: cs).getLast?.or last = cs.getLast?.or (some c) := by
  cases cs <;> simp [List.getLast?_cons]

/-- **A pattern is found exactly if it fits somewhere.** -/
theorem search_isSome_iff {items : List Item} {last : Option Char} {cs : List Char} :
    (search items last cs).isSome ↔ ∃ before pieces rest,
      cs = before ++ pieces.flatten ++ rest ∧ Fits items (before.getLast?.or last) pieces rest := by
  induction cs generalizing last with
  | nil =>
    simp only [search, Option.isSome_map, head?_ways_isSome]
    constructor
    · rintro ⟨pieces, rest, hcs, hfit⟩
      exact ⟨[], pieces, rest, hcs, hfit⟩
    · rintro ⟨before, pieces, rest, hcs, hfit⟩
      obtain rfl : before = [] := by simp_all
      exact ⟨pieces, rest, hcs, hfit⟩
  | cons c cs ih =>
    rw [search_cons, Option.isSome_or, Option.isSome_map, Option.isSome_map, Bool.or_eq_true,
      head?_ways_isSome, ih]
    constructor
    · rintro (⟨pieces, rest, hcs, hfit⟩ | ⟨before, pieces, rest, rfl, hfit⟩)
      · exact ⟨[], pieces, rest, hcs, hfit⟩
      · exact ⟨c :: before, pieces, rest, rfl, by rwa [getLast?_cons_or]⟩
    · rintro ⟨_ | ⟨d, before⟩, pieces, rest, hcs, hfit⟩
      · exact .inl ⟨pieces, rest, hcs, hfit⟩
      · obtain ⟨rfl, rfl⟩ := List.cons.inj hcs
        exact .inr ⟨before, pieces, rest, rfl, by rwa [getLast?_cons_or] at hfit⟩

/-! ## What is preferred -/

/-- The preferred match is that of the first piece after which the other items match. -/
theorem head?_ways_cons (item : Item) (items : List Item) (last : Option Char) (cs : List Char) :
    (ways (item :: items) last cs).head? = (item.ways last cs).findSome? fun (piece, rest) =>
      (ways items (piece.getLast?.or last) rest).head?.map fun (pieces, rest) =>
        (piece :: pieces, rest) := by
  simp [ways, List.head?_flatMap]

theorem findSome?_cons_or {α β : Type} (f : α → Option β) (a : α) (as : List α) :
    (a :: as).findSome? f = (f a).or (as.findSome? f) := by
  cases h : f a <;> simp [h]

theorem head?_ways_literal (text : List Char) (items : List Item) (last : Option Char)
    (cs : List Char) :
    (ways (.literal text :: items) last (text ++ cs)).head? =
      (ways items (text.getLast?.or last) cs).head?.map fun (pieces, rest) =>
        (text :: pieces, rest) := by
  simp [head?_ways_cons, Item.ways]

theorem ways_literal_of_not_prefix {text : List Char} {items : List Item} {last : Option Char}
    {cs : List Char} (h : ¬text <+: cs) : ways (.literal text :: items) last cs = [] := by
  simp [ways, Item.ways, h]

theorem head?_ways_optional (c : Char) (items : List Item) (last : Option Char) (cs : List Char) :
    (ways (.optional c :: items) last (c :: cs)).head? =
      ((ways items (some c) cs).head?.map fun (pieces, rest) => ([c] :: pieces, rest)).or
        ((ways items last (c :: cs)).head?.map fun (pieces, rest) => ([] :: pieces, rest)) := by
  simp [head?_ways_cons, Item.ways, findSome?_cons_or]

theorem head?_ways_optional_of_ne {c : Char} {items : List Item} {last : Option Char}
    {cs : List Char} (h : cs.head? ≠ some c) :
    (ways (.optional c :: items) last cs).head? =
      (ways items last cs).head?.map fun (pieces, rest) => ([] :: pieces, rest) := by
  simp [head?_ways_cons, Item.ways, h]

/-- A lazy item takes one more character only if the other items do not match before it. -/
theorem head?_ways_few (p : Char → Bool) (items : List Item) (last : Option Char) (c : Char)
    (cs : List Char) :
    (ways (.few p :: items) last (c :: cs)).head? =
      ((ways items last (c :: cs)).head?.map fun (pieces, rest) => ([] :: pieces, rest)).or
        (if p c then
          (ways (.few p :: items) (some c) cs).head?.map fun (pieces, rest) =>
            (pieces.modifyHead (c :: ·), rest)
        else none) := by
  have hlast (piece : List Char) :
      some (piece.getLast?.getD c) = (c :: piece).getLast?.or last := by
    simp [List.getLast?_cons]
  by_cases hc : p c
  · simp [head?_ways_cons, Item.ways, cuts, findSome?_cons_or, hc, List.findSome?_map,
      Function.comp_def, hlast]
  · simp [head?_ways_cons, Item.ways, cuts, findSome?_cons_or, hc]

end Es5.Text
