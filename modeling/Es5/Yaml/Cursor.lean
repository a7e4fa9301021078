import Es5.Text.Position
import Es5.Yaml.Mark

/-!
# Cursors

Reading a YAML text character by character, with the mark of the next character.

* `Cursor`: a mark and the characters that follow it.
* `Lex`: readers of a part of a text, which may meet a problem.
* `isBlank`, `isBreak`, `isName`: the classes of characters that structure a text.
-/

namespace Es5.Yaml

/-! ## Characters -/

/-- A space or a tab. -/
def isBlank (c : Char) : Bool := c == ' ' || c == '\t'

/-- A character that ends a line. -/
def isBreak (c : Char) : Bool :=
  c == '\r' || c == '\n' || c == '\u0085' || c == '\u2028' || c == '\u2029'

/-- A character of the name of an anchor, a tag handle or a directive. -/
def isName (c : Char) : Bool := c.isAlphanum || c == '_' || c == '-'

/-- The value of a hexadecimal digit. -/
def hexValue? (c : Char) : Option Nat :=
  if c.isDigit then some (c.toNat - '0'.toNat)
  else if 'a' ≤ c ∧ c ≤ 'f' then some (c.toNat - 'a'.toNat + 10)
  else if 'A' ≤ c ∧ c ≤ 'F' then some (c.toNat - 'A'.toNat + 10)
  else none

/-! ## Cursors -/

/-- A place in a text and the characters from there on. -/
structure Cursor where
  mark : Mark := {}
  rest : List Char
  /-- A bound on the number of characters left, which stays the same while a text is read. -/
  bound : Nat := rest.length
  rest_le : rest.length ≤ bound := by exact Nat.le_refl _

namespace Cursor

/-- The character `i` places ahead. -/
def at? (c : Cursor) (i : Nat) : Option Char := c.rest[i]?

/-- Whether the character `i` places ahead is `x`. -/
def has (c : Cursor) (i : Nat) (x : Char) : Bool := c.at? i == some x

/-- Whether the character `i` places ahead is a blank, a line break or the end. -/
def endsWord (c : Cursor) (i : Nat) : Bool :=
  match c.at? i with
  | none => true
  | some x => isBlank x || isBreak x

/-- Whether the next character is a line break or the end. -/
def endsLine (c : Cursor) : Bool :=
  match c.at? 0 with
  | none => true
  | some x => isBreak x

/-- Whether the next character satisfies `p`. -/
def next (c : Cursor) (p : Char → Bool) : Bool := (c.at? 0).any p

/-- The cursor one character on, within a line. -/
def skip (c : Cursor) : Cursor :=
  { c with
    mark := c.rest.head?.elim c.mark c.mark.after
    rest := c.rest.tail
    rest_le := by simpa using Nat.le_trans (Nat.sub_le ..) c.rest_le }

/-- The cursor at the start of the next line, past a line break of `width` characters. -/
def newLine (c : Cursor) (width : Nat) : Cursor :=
  { c with
    mark := ⟨c.mark.index + Text.byteLength (c.rest.take width), c.mark.line + 1, 0⟩
    rest := c.rest.drop width
    rest_le := by simpa using Nat.le_trans (Nat.sub_le ..) c.rest_le }

/-- The cursor past the characters that satisfy `p`, which none that ends a line may. -/
def skipWhile (c : Cursor) (p : Char → Bool) : Cursor :=
  { c with
    mark := (c.rest.takeWhile p).foldl Mark.after c.mark
    rest := c.rest.dropWhile p
    rest_le := Nat.le_trans (List.dropWhile_sublist p).length_le c.rest_le }

/-- A line break as the text keeps it, and the cursor after it. -/
def lineBreak? (c : Cursor) : Option (Char × Cursor) :=
  match c.rest with
  | '\r' :: '\n' :: _ => some ('\n', c.newLine 2)
  | x :: _ =>
    if x == '\u2028' || x == '\u2029' then some (x, c.newLine 1)
    else if isBreak x then some ('\n', c.newLine 1)
    else none
  | [] => none

/-- The cursor past a line break, if there is one. -/
def skipBreak (c : Cursor) : Cursor := (c.lineBreak?.map (·.2)).getD c

/-- Whether a line starts here with the indicator of a document's start or end. -/
def atDocumentIndicator (c : Cursor) (x : Char) : Bool :=
  c.mark.column == 0 && c.has 0 x && c.has 1 x && c.has 2 x && c.endsWord 3

/-- Whether a line starts here with either document indicator. -/
def atAnyDocumentIndicator (c : Cursor) : Bool :=
  c.atDocumentIndicator '-' || c.atDocumentIndicator '.'

end Cursor

/-! ## Readers -/

/-- Readers of a part of a text. -/
abbrev Lex := StateT Cursor (Except Problem)

namespace Lex

/-- Meets a problem at the cursor while reading what began at `start`. -/
def fail {α : Type} (reading : String) (start : Mark) (what : String) : Lex α := do
  throw { what, mark := (← get).mark, context := some (reading, some start) }

/-- Passes one character. -/
def skip : Lex Unit := modify Cursor.skip

/-- Passes the characters that satisfy `p`, which none that ends a line may, and returns them. -/
def takeWhile (p : Char → Bool) : Lex (List Char) := do
  let c ← get
  set (c.skipWhile p)
  pure (c.rest.takeWhile p)

/-- Passes what is left of a line after a token: blanks and a comment. -/
def skipLineEnd : Lex Unit := do
  let _ ← takeWhile isBlank
  if (← get).has 0 '#' then
    let _ ← takeWhile fun c => !isBreak c

end Lex

end Es5.Yaml
