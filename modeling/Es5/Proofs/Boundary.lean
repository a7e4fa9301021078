import Es5.Text.Position
import Mathlib.Data.List.Basic
import Mathlib.Order.Bounds.Basic
import Mathlib.Order.Lattice

/-!
# Boundaries of characters

Offsets in a text count bytes, and an offset is of use only where a character begins or the text
ends. The characters that end within a number of bytes lead up to the last such offset.

* `takeBytes_byteLength`, `prefix_takeBytes`: which characters end within a number of bytes.
* `IsBoundary`, `isGreatest_boundary`: the last boundary that is not past an offset.
* `backUp?`, `backUp?_eq_some`: the search for it that goes back byte by byte.
-/

namespace Es5.Text

/-! ## Bytes -/

@[simp] theorem byteLength_nil : byteLength [] = 0 := rfl

@[simp] theorem byteLength_cons (c : Char) (cs : List Char) :
    byteLength (c :: cs) = c.utf8Size + byteLength cs := rfl

@[simp] theorem byteLength_append (cs ds : List Char) :
    byteLength (cs ++ ds) = byteLength cs + byteLength ds := by
  induction cs with
  | nil => simp
  | cons c cs ih => simp [ih, Nat.add_assoc]

theorem byteLength_mono {cs ds : List Char} (h : cs <+: ds) :
    byteLength cs ≤ byteLength ds := by
  obtain ⟨rest, rfl⟩ := h
  simp

/-- Every character takes a byte. -/
theorem length_le_byteLength (cs : List Char) : cs.length ≤ byteLength cs := by
  induction cs with
  | nil => exact Nat.le_refl 0
  | cons c cs ih =>
    have := c.utf8Size_pos
    rw [List.length_cons, byteLength_cons]
    omega

/-- A text has as many bytes as characters if each of these takes one byte. -/
theorem byteLength_eq_length_iff {cs : List Char} :
    byteLength cs = cs.length ↔ ∀ c ∈ cs, c.utf8Size = 1 := by
  induction cs with
  | nil => simp
  | cons c cs ih =>
    have := c.utf8Size_pos
    have := length_le_byteLength cs
    rw [List.forall_mem_cons, ← ih, byteLength_cons, List.length_cons]
    omega

/-! ## Characters within a number of bytes -/

theorem takeBytes_prefix (n : Nat) (cs : List Char) : takeBytes n cs <+: cs := by
  induction cs generalizing n with
  | nil => exact List.prefix_rfl
  | cons c cs ih =>
    unfold takeBytes
    split
    · exact List.prefix_cons_inj c |>.mpr (ih _)
    · exact List.nil_prefix

theorem takeBytes_byteLength (before rest : List Char) :
    takeBytes (byteLength before) (before ++ rest) = before := by
  induction before with
  | nil =>
    cases rest with
    | nil => rfl
    | cons c cs =>
      have := c.utf8Size_pos
      simp [takeBytes]
      omega
  | cons c before ih => simp [takeBytes, ih]

theorem byteLength_takeBytes_le (n : Nat) (cs : List Char) : byteLength (takeBytes n cs) ≤ n := by
  induction cs generalizing n with
  | nil => simp [takeBytes]
  | cons c cs ih =>
    have := ih (n - c.utf8Size)
    rw [takeBytes]
    split <;> simp
    omega

/-- All characters that end within a number of bytes are taken. -/
theorem prefix_takeBytes {before cs : List Char} {n : Nat} (h : before <+: cs)
    (hn : byteLength before ≤ n) : before <+: takeBytes n cs := by
  induction before generalizing cs n with
  | nil => exact List.nil_prefix
  | cons c before ih =>
    obtain ⟨rest, rfl⟩ := h
    rw [byteLength_cons] at hn
    rw [List.cons_append, takeBytes, if_pos (by omega), List.cons_prefix_cons]
    exact ⟨rfl, ih (List.prefix_append ..) (by omega)⟩

theorem takeBytes_mono {m n : Nat} (h : m ≤ n) (cs : List Char) :
    takeBytes m cs <+: takeBytes n cs :=
  have hprefix := takeBytes_prefix m cs
  prefix_takeBytes hprefix (Nat.le_trans (byteLength_takeBytes_le m cs) h)

/-! ## Boundaries -/

/-- A character begins at an offset, or the text ends there. -/
def IsBoundary (source : List Char) (n : Nat) : Prop :=
  ∃ before, before <+: source ∧ byteLength before = n

theorem isBoundary_iff {source : List Char} {n : Nat} :
    IsBoundary source n ↔ byteLength (takeBytes n source) = n := by
  constructor
  · rintro ⟨before, ⟨rest, rfl⟩, rfl⟩
    rw [takeBytes_byteLength]
  · exact fun h => ⟨_, takeBytes_prefix n source, h⟩

instance (source : List Char) (n : Nat) : Decidable (IsBoundary source n) :=
  decidable_of_iff _ isBoundary_iff.symm

/-- **The last boundary that is not past an offset.** -/
theorem isGreatest_boundary (source : List Char) (offset : Nat) :
    IsGreatest {m | IsBoundary source m ∧ m ≤ min offset (byteLength source)}
      (byteLength (takeBytes offset source)) := by
  have hprefix := takeBytes_prefix offset source
  constructor
  · exact ⟨⟨_, hprefix, rfl⟩, le_min (byteLength_takeBytes_le offset source)
      (byteLength_mono hprefix)⟩
  · rintro m ⟨⟨before, hbefore, rfl⟩, hle⟩
    exact byteLength_mono (prefix_takeBytes hbefore (hle.trans (min_le_left ..)))

/-! ## Going back -/

/-- Goes back byte by byte to a boundary; there is no answer where this would go below zero. -/
def backUp? (source : List Char) : Nat → Option Nat
  | 0 => if IsBoundary source 0 then some 0 else none
  | n + 1 => if IsBoundary source (n + 1) then some (n + 1) else backUp? source n

/-- Going back from an offset ends at the last boundary that is not past it. -/
theorem backUp?_eq_some {source : List Char} {m n : Nat}
    (h : IsGreatest {m | IsBoundary source m ∧ m ≤ n} m) : backUp? source n = some m := by
  induction n with
  | zero =>
    obtain rfl : m = 0 := Nat.le_zero.mp h.1.2
    rw [backUp?, if_pos h.1.1]
  | succ n ih =>
    rw [backUp?]
    split
    next hn => exact congrArg some (Nat.le_antisymm (h.2 ⟨hn, Nat.le_refl _⟩) h.1.2)
    next hn =>
      have hle : m ≤ n := by
        obtain hlt | rfl := Nat.lt_or_eq_of_le h.1.2
        · exact Nat.le_of_lt_succ hlt
        · exact absurd h.1.1 hn
      exact ih ⟨⟨h.1.1, hle⟩, fun k hk => h.2 ⟨hk.1, Nat.le_succ_of_le hk.2⟩⟩

end Es5.Text
