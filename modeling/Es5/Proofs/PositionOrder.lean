import Es5.Proofs.Boundary
import Mathlib.Algebra.Group.Nat.Defs
import Mathlib.Data.List.Induction
import Mathlib.Data.List.TakeWhile
import Mathlib.Data.Prod.Lex

/-!
# Positions in order

The position of a byte offset is that of the last boundary that is not past it. Over boundaries
positions are ordered as offsets are, first by the line and then by the column. So a line and a
column say where they belong in a source, and walking there leads back to the offset.

* `LastLine`, `exists_lastLine`: what the column of a position counts.
* `Position.place`, `Position.place_after_append`: every character moves a position on.
* `walk`, `walk_lastLine`: the way from a line and a column to an offset.
* `Position.Locates`, `Position.ofOffset_locates`: the position of an offset.
* **`Position.ofOffset_ordered`**: positions in the order of offsets.
-/

namespace Es5

open Text

/-! ## The last line -/

/-- What follows the last line feed of a text. -/
def LastLine (cs line : List Char) : Prop :=
  ∃ front, cs = front ++ line ∧ '\n' ∉ line ∧ (front = [] ∨ front.getLast? = some '\n')

/-- The column of a position counts the characters of the last line in front of it. -/
theorem exists_lastLine (cs : List Char) :
    ∃ line, LastLine cs line ∧ (Position.after cs).column = line.length + 1 := by
  have hsplit : cs = (cs.reverse.dropWhile (· != '\n')).reverse ++
      (cs.reverse.takeWhile (· != '\n')).reverse := by
    rw [← List.reverse_append, List.takeWhile_append_dropWhile, List.reverse_reverse]
  refine ⟨_, ⟨_, hsplit, fun hmem => ?_, ?_⟩, by simp [Position.after]⟩
  · simpa using List.mem_takeWhile_imp (List.mem_reverse.mp hmem)
  · cases hdrop : cs.reverse.dropWhile (· != '\n') with
    | nil => exact .inl rfl
    | cons c rest =>
      have hc : c = '\n' := by
        simpa [hdrop] using List.head?_dropWhile_not (· != '\n') cs.reverse
      exact .inr (by simp [hc])

namespace Text

/-! ## Places -/

namespace Position

/-- The line and the column, in the order of reading. -/
def place (p : Position) : Nat ×ₗ Nat := toLex (p.line, p.column)

/-- A line feed begins a line, and any other character takes a column. -/
theorem after_concat (before : List Char) (c : Char) :
    ((after (before ++ [c])).line, (after (before ++ [c])).column) =
      if c = '\n' then ((after before).line + 1, 1)
      else ((after before).line, (after before).column + 1) := by
  by_cases hc : c = '\n'
  · simp [after, hc]
  · simp [after, hc]

theorem place_after_concat (before : List Char) (c : Char) :
    (after before).place < (after (before ++ [c])).place := by
  rw [place, place, after_concat]
  split <;> simp [Prod.Lex.toLex_lt_toLex]

/-- **Every character moves a position on.** -/
theorem place_after_append (before : List Char) {more : List Char} (h : more ≠ []) :
    (after before).place < (after (before ++ more)).place := by
  induction more using List.reverseRecOn with
  | nil => exact absurd rfl h
  | append_singleton more c ih =>
    have hlast := place_after_concat (before ++ more) c
    rw [← List.append_assoc]
    obtain rfl | hmore := eq_or_ne more []
    · simpa using hlast
    · exact (ih hmore).trans hlast

theorem place_le_of_prefix {before before' : List Char} (h : before <+: before') :
    (after before).place ≤ (after before').place := by
  obtain ⟨more, rfl⟩ := h
  obtain rfl | hmore := eq_or_ne more []
  · rw [List.append_nil]
  · exact (place_after_append before hmore).le

end Position

/-! ## Walks -/

/-- The offset that is reached by going past `lines` line feeds and then on in the line. -/
def walk : List Char → (lines columns : Nat) → Option Nat
  | _, 0, 0 => some 0
  | [], _, _ => none
  | c :: cs, 0, columns + 1 =>
    if c = '\n' then none else (walk cs 0 columns).map (c.utf8Size + ·)
  | c :: cs, lines + 1, columns =>
    (walk cs (if c = '\n' then lines else lines + 1) columns).map (c.utf8Size + ·)

theorem walk_columns {line : List Char} (h : '\n' ∉ line) (rest : List Char) :
    walk (line ++ rest) 0 line.length = some (byteLength line) := by
  induction line with
  | nil => cases rest <;> rfl
  | cons c line ih =>
    obtain ⟨hc, hline⟩ : c ≠ '\n' ∧ '\n' ∉ line := by simpa [eq_comm] using h
    rw [List.cons_append, List.length_cons, walk, if_neg hc, ih hline]
    rfl

theorem walk_lines {front : List Char} (h : front = [] ∨ front.getLast? = some '\n')
    (cs : List Char) (columns : Nat) :
    walk (front ++ cs) (front.count '\n') columns =
      (walk cs 0 columns).map (byteLength front + ·) := by
  induction front with
  | nil => simp
  | cons c front ih =>
    have hfront : front = [] ∨ front.getLast? = some '\n' := by
      obtain rfl | hne := eq_or_ne front []
      · exact .inl rfl
      · rw [List.getLast?_cons_of_ne_nil hne] at h
        exact .inr (h.resolve_left (by simp))
    -- There is a feed in front, so that the first character is walked over on the way to it.
    obtain ⟨n, hn⟩ : ∃ n, (c :: front).count '\n' = n + 1 := by
      have hmem : '\n' ∈ c :: front := List.mem_of_getLast? (h.resolve_left (by simp))
      exact Nat.exists_eq_add_one.mpr (List.count_pos_iff.mpr hmem)
    have hrest : (if c = '\n' then n else n + 1) = front.count '\n' := by
      simp only [List.count_cons, beq_iff_eq] at hn
      split_ifs at hn ⊢ <;> omega
    rw [hn, List.cons_append, walk, hrest, ih hfront, Option.map_map]
    exact congrArg (Option.map · _) (funext fun k => (Nat.add_assoc ..).symm)

/-- **A line and a column lead back** to the offset of their position. -/
theorem walk_lastLine {before line : List Char} (h : LastLine before line) (rest : List Char) :
    walk (before ++ rest) (before.count '\n') line.length = some (byteLength before) := by
  obtain ⟨front, rfl, hline, hfront⟩ := h
  rw [List.count_append, List.count_eq_zero.mpr hline, Nat.add_zero, List.append_assoc,
    walk_lines hfront, walk_columns hline, byteLength_append]
  rfl

/-! ## The position of an offset -/

namespace Position

/-- The position of an offset: where it is, and how it is counted. -/
structure Locates (source : List Char) (offset : Nat) (p : Position) : Prop where
  /-- Going back from the offset, or from the end, leads to the last boundary. -/
  greatest : IsGreatest {m | IsBoundary source m ∧ m ≤ min offset (byteLength source)} p.offset
  reached : backUp? source (min offset (byteLength source)) = some p.offset
  /-- Lines and columns are counted from one, in words of 32 bits. -/
  counted : ∃ before rest line, source = before ++ rest ∧ byteLength before = p.offset ∧
    LastLine before line ∧ p.line = before.count '\n' + 1 ∧ p.column = line.length + 1 ∧
    (UInt32.ofNat (before.count '\n') + 1).toNat = p.line ∧
    (UInt32.ofNat line.length + 1).toNat = p.column
  walked : walk source (p.line - 1) (p.column - 1) = some p.offset
  again : ofOffset source p.offset = p

/-- A count that is below the greatest word is counted in words. -/
theorem toNat_ofNat_add_one {n : Nat} (h : n ≤ 2 ^ 32 - 2) :
    (UInt32.ofNat n + 1).toNat = n + 1 := by
  rw [UInt32.toNat_add, UInt32.toNat_ofNat']
  have hone : (1 : UInt32).toNat = 1 := rfl
  omega

theorem ofOffset_locates {source : List Char} (hsize : byteLength source ≤ 2 ^ 32 - 2)
    (offset : Nat) : Locates source offset (ofOffset source offset) := by
  have hprefix := takeBytes_prefix offset source
  unfold ofOffset
  generalize hbefore : takeBytes offset source = before at hprefix
  obtain ⟨rest, hsource⟩ := hprefix
  obtain ⟨line, hline, hcolumn⟩ := exists_lastLine before
  have hgreatest := isGreatest_boundary source offset
  rw [hbefore] at hgreatest
  have hlength : before.length ≤ 2 ^ 32 - 2 :=
    (length_le_byteLength before).trans ((byteLength_mono ⟨rest, hsource⟩).trans hsize)
  refine ⟨hgreatest, backUp?_eq_some hgreatest, ⟨before, rest, line, hsource.symm, rfl, hline, rfl,
    hcolumn, ?_, ?_⟩, ?_, ?_⟩
  · exact toNat_ofNat_add_one (List.count_le_length.trans hlength)
  · rw [hcolumn]
    obtain ⟨front, rfl, -⟩ := hline
    rw [List.length_append] at hlength
    exact toNat_ofNat_add_one (by omega)
  · rw [hcolumn, ← hsource]
    exact walk_lastLine hline rest
  · rw [ofOffset, ← hsource]
    exact congrArg after (takeBytes_byteLength before rest)

/-- **Offsets in order have positions in order.** -/
theorem place_lt_place {source : List Char} {m n : Nat} (hm : IsBoundary source m)
    (hn : IsBoundary source n) (h : m < n) :
    (ofOffset source m).place < (ofOffset source n).place := by
  obtain ⟨more, hmore⟩ := takeBytes_mono (Nat.le_of_lt h) source
  rw [isBoundary_iff] at hm hn
  have hne : more ≠ [] := by
    rintro rfl
    rw [List.append_nil] at hmore
    rw [← hm, ← hn, hmore] at h
    exact Nat.lt_irrefl _ h
  rw [ofOffset, ofOffset, ← hmore]
  exact place_after_append _ hne

/--
**Positions are those of the last boundaries**, and are ordered as offsets are: a line and a column
belong to one boundary, and a greater offset has no smaller position.
-/
theorem ofOffset_ordered {source : List Char} (hsize : byteLength source ≤ 2 ^ 32 - 2) :
    (∀ offset, Locates source offset (ofOffset source offset)) ∧
      (∀ m n, IsBoundary source m → IsBoundary source n → m < n →
        (ofOffset source m).place < (ofOffset source n).place) ∧
      (∀ m n, IsBoundary source m → IsBoundary source n →
        (ofOffset source m).line = (ofOffset source n).line →
        (ofOffset source m).column = (ofOffset source n).column → m = n) ∧
      ∀ m n, m ≤ n → (ofOffset source m).offset ≤ (ofOffset source n).offset ∧
        (ofOffset source m).place ≤ (ofOffset source n).place := by
  refine ⟨ofOffset_locates hsize, fun m n => place_lt_place, fun m n hm hn hline hcolumn => ?_,
    fun m n h => ⟨?_, place_le_of_prefix (takeBytes_mono h source)⟩⟩
  · have hwalk := (ofOffset_locates hsize m).walked
    rw [hline, hcolumn, (ofOffset_locates hsize n).walked, Option.some.injEq] at hwalk
    exact (isBoundary_iff.mp hm).symm.trans (hwalk.symm.trans (isBoundary_iff.mp hn))
  · exact byteLength_mono (takeBytes_mono h source)

/-- Within a character of two bytes, after a line feed. -/
theorem ofOffset_ordered_accented :
    byteLength "a\né".toList ≤ 2 ^ 32 - 2 ∧ ofOffset "a\né".toList 3 = ⟨2, 1, 2⟩ ∧
      Locates "a\né".toList 3 ⟨2, 1, 2⟩ ∧
      (ofOffset "a\né".toList 1).place < (ofOffset "a\né".toList 2).place := by
  have hsize : byteLength "a\né".toList ≤ 2 ^ 32 - 2 := by decide
  obtain ⟨hlocates, hplace, -⟩ := ofOffset_ordered hsize
  exact ⟨hsize, by decide, hlocates 3, hplace 1 2 (by decide) (by decide) (by decide)⟩

end Position

end Text

end Es5
