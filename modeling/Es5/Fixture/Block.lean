/-!
# The metadata block of a source

The block is the text between a line that ends in the opening mark and the first closing mark after
it. A line break in front of the closing mark is not part of the text.

* `Block`: what stands before the text of a block, the text, and what stands after the block.
* `Block.find?`: the first block of a source.
-/

namespace Es5.Fixture

/-- A source cut at its metadata block. -/
structure Block where
  /-- The source up to the text, the opening mark and its line break among it. -/
  before : List Char
  text : List Char
  /-- The source after the closing mark. -/
  after : List Char
  deriving DecidableEq, Repr

/-- The opening mark. -/
def opener : List Char := "/*---".toList

/-- The closing mark. -/
def closer : List Char := "---*/".toList

/-- What follows `mark` at the start of some characters. -/
def afterMark? (mark cs : List Char) : Option (List Char) :=
  if mark.isPrefixOf cs then some (cs.drop mark.length) else none

/-- The opening mark and its line break at the start of some characters, and what follows. -/
def opening? (cs : List Char) : Option (List Char × List Char) :=
  match afterMark? opener cs with
  | some ('\n' :: rest) => some (opener ++ ['\n'], rest)
  | some ('\r' :: '\n' :: rest) => some (opener ++ ['\r', '\n'], rest)
  | _ => none

/-- Cuts after the first opening mark that a line break follows. -/
def splitOpening? : List Char → Option (List Char × List Char)
  | [] => none
  | c :: cs =>
    match opening? (c :: cs) with
    | some cut => some cut
    | none => (splitOpening? cs).map fun (before, rest) => (c :: before, rest)

/-- Cuts around the first closing mark. -/
def splitClosing? : List Char → Option (List Char × List Char)
  | [] => none
  | c :: cs =>
    match afterMark? closer (c :: cs) with
    | some rest => some ([], rest)
    | none => (splitClosing? cs).map fun (before, rest) => (c :: before, rest)

/-- A text without a last carriage return and feed, or the one of them that ends it. -/
def dropLastBreak (text : List Char) : List Char :=
  match text.reverse with
  | '\n' :: '\r' :: rest => rest.reverse
  | '\n' :: rest => rest.reverse
  | '\r' :: rest => rest.reverse
  | _ => text

/-- The first block of a source. -/
def Block.find? (source : List Char) : Option Block := do
  let (before, rest) ← splitOpening? source
  let (text, after) ← splitClosing? rest
  return { before, text := dropLastBreak text, after }

end Es5.Fixture
