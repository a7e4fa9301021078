import Es5.Text.Position
import Es5.Yaml.Mark

/-!
# What of a text can be read

Most control characters may not stand in a text. A text is read in blocks of 16384 bytes, and a
block with a character that may not stand in it cannot be read at all: the text is as good as cut
off in front of the block, and reading on from there meets a problem.

* `isAllowed`: the characters that may stand in a text.
* `readable`: what of a text can be read, and what is wrong with the rest.
-/

namespace Es5.Yaml

/-- A character that may stand in a text. -/
def isAllowed (c : Char) : Bool :=
  let n := c.toNat
  n == 0x9 || n == 0xA || n == 0xD || (0x20 ≤ n && n ≤ 0x7E) || n == 0x85 ||
    (0xA0 ≤ n && n ≤ 0xFFFD) || 0x10000 ≤ n

/-- How many bytes are read at once; a character that does not fit is left for the next block. -/
def blockSize : Nat := 16384

/--
Where the block with the first character that may not stand in a text begins, and what is wrong
with it, from a character on that stands at `offset` in the block from `start`.
-/
def forbiddenFrom? : Nat → Nat → List Char → Option (Nat × Problem)
  | _, _, [] => none
  | start, offset, c :: cs =>
    let start := if offset + c.utf8Size ≤ start + blockSize then start else offset
    if isAllowed c then forbiddenFrom? start (offset + c.utf8Size) cs
    else some (start, { what := "control characters are not allowed", offset })

/-- What of a text can be read, and what is wrong with the rest, if there is one. -/
def readable (cs : List Char) : List Char × Option Problem :=
  match forbiddenFrom? 0 0 cs with
  | none => (cs, none)
  | some (start, p) => (Text.takeBytes start cs, some p)

end Es5.Yaml
