/-!
# Texts as 16-bit units

The script language counts a text in UTF-16 code units. A character past `U+FFFF` takes two units,
neither of which is a text of its own.

* `units16`: the number of units of a text.
* `pieces16`: each unit as a text, with `U+FFFD` for half a character.
-/

namespace Es5

/-- The number of units of a character. -/
def charUnits16 (c : Char) : Nat := if c.toNat < 0x10000 then 1 else 2

/-- The number of units of a text. -/
def units16 (s : String) : Nat := s.toList.foldl (fun n c => n + charUnits16 c) 0

/-- Each unit of a character as a text. -/
def charPieces16 (c : Char) : List String :=
  if c.toNat < 0x10000 then [c.toString] else ["\uFFFD", "\uFFFD"]

/-- Each unit of a text as a text. -/
def pieces16 (s : String) : List String := s.toList.flatMap charPieces16

end Es5
