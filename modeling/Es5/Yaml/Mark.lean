/-!
# Marks and problems

Where something stands in a YAML text, and what is wrong with the text there.

* `Mark`: a line, a column and an index in bytes, all from zero.
* `Problem`: what was met, where, and what was being read then.
-/

namespace Es5.Yaml

/-- A place in a text, from zero. Columns count characters, and the index counts bytes. -/
structure Mark where
  index : Nat := 0
  line : Nat := 0
  column : Nat := 0
  deriving DecidableEq, Repr, Inhabited

namespace Mark

/-- The mark after a character that ends no line. -/
def after (m : Mark) (c : Char) : Mark :=
  { m with index := m.index + c.utf8Size, column := m.column + 1 }

/-- Whether this is the very start of a text. -/
def isStart (m : Mark) : Bool := m.line == 0 && m.column == 0

/-- Whether two marks stand at the same line and column. -/
def samePlace (m n : Mark) : Bool := m.line == n.line && m.column == n.column

/-- The wording of a mark, which counts from one. -/
def text (m : Mark) : String :=
  "line " ++ toString (m.line + 1) ++ " column " ++ toString (m.column + 1)

end Mark

/-- What is wrong with a text. -/
structure Problem where
  what : String
  mark : Mark := {}
  /-- The byte offset, for a problem that was found before reading. -/
  offset : Nat := 0
  /-- What was being read, and where that began. -/
  context : Option (String × Option Mark) := none
  deriving Repr, Inhabited

namespace Problem

/-- The wording of the place of a problem; the very start of a text is not mentioned. -/
def place (p : Problem) : String :=
  if !p.mark.isStart then " at " ++ p.mark.text
  else if p.offset != 0 then " at position " ++ toString p.offset
  else ""

/-- The wording of the place of the context, unless it is that of the problem. -/
def contextPlace (p : Problem) : Option Mark → String
  | some m => if m.isStart || m.samePlace p.mark then "" else " at " ++ m.text
  | none => ""

/-- The wording of a problem. -/
def text (p : Problem) : String :=
  p.what ++ p.place ++ match p.context with
    | some (reading, mark) => ", " ++ reading ++ p.contextPlace mark
    | none => ""

end Problem

end Es5.Yaml
