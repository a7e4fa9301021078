/-!
# Positions in a source

* `Position`: a line and a column, both from one, and a byte offset.
* `Position.ofOffset`: the position of an offset, moved back to the start of a character.
-/

namespace Es5.Text

/-- A position in a source. Columns count characters. -/
structure Position where
  line : Nat
  column : Nat
  offset : Nat
  deriving DecidableEq, Repr

/-- The characters that end within a number of bytes. -/
def takeBytes : Nat → List Char → List Char
  | _, [] => []
  | n, c :: cs => if c.utf8Size ≤ n then c :: takeBytes (n - c.utf8Size) cs else []

/-- The number of bytes of some characters. -/
def byteLength : List Char → Nat
  | [] => 0
  | c :: cs => c.utf8Size + byteLength cs

namespace Position

/-- The position after some characters. -/
def after (before : List Char) : Position where
  line := before.count '\n' + 1
  column := (before.reverse.takeWhile (· != '\n')).length + 1
  offset := byteLength before

/-- The position of the last start of a character that is not past a byte offset. -/
def ofOffset (source : List Char) (offset : Nat) : Position := after (takeBytes offset source)

/-- The wording of a position. -/
def text (p : Position) : String := toString p.line ++ ":" ++ toString p.column

end Position

end Es5.Text
