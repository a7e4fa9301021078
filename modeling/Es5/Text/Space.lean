/-!
# White space and lines

* `isSpace`: the white space of any script.
* `trimList`: a list without some elements at its ends.
* `trim`, `trimStart`: a text without white space at its ends, or at its start.
* `lines`: the lines of a text, without the breaks that end them.
-/

namespace Es5.Text

/-- White space of any script. -/
def isSpace (c : Char) : Bool :=
  let n := c.toNat
  (0x9 ≤ n && n ≤ 0xD) || n == 0x20 || n == 0x85 || n == 0xA0 || n == 0x1680 ||
    (0x2000 ≤ n && n ≤ 0x200A) || n == 0x2028 || n == 0x2029 || n == 0x202F || n == 0x205F ||
    n == 0x3000

/-- Characters without white space at the start. -/
def trimStart (cs : List Char) : List Char := cs.dropWhile isSpace

/-- A list without the elements at either end that satisfy `p`. -/
def trimList {α : Type} (p : α → Bool) (xs : List α) : List α :=
  ((xs.dropWhile p).reverse.dropWhile p).reverse

/-- Characters without white space at either end. -/
def trim (cs : List Char) : List Char := trimList isSpace cs

/-- A line whose feed has been removed, without the carriage return in front of that. -/
def dropReturn (line : List Char) : List Char :=
  if line.getLast? = some '\r' then line.dropLast else line

/-- The lines from some characters on, where `line` has been read of the first, last first. -/
def linesFrom (line : List Char) : List Char → List (List Char)
  | [] => if line.isEmpty then [] else [line.reverse]
  | '\n' :: cs => dropReturn line.reverse :: linesFrom [] cs
  | c :: cs => linesFrom (c :: line) cs

/-- The lines of a text. A line ends with a feed or a carriage return and a feed. -/
def lines (cs : List Char) : List (List Char) := linesFrom [] cs

end Es5.Text
