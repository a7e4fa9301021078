/-!
# Tags

A tag tells what a part of a text is. Its characters may be written as octets, and octets that
spell no character are kept as a character that is missing: such a tag differs from every tag that
can be written out, and gives no name.

* `Tag`: a tag, or a part of one.
* `Tag.standard`, `Tag.isOwn`: the tags of the standard types, and those that a text makes up.
* `Tag.name?`: the name that a tag of a text's own gives.
-/

namespace Es5.Yaml

/-- A tag, or a part of one. A character written as octets that spell none is missing. -/
structure Tag where
  chars : List (Option Char)
  deriving DecidableEq, Repr

namespace Tag

/-- The tag that a text spells. -/
def ofString (s : String) : Tag := ⟨s.toList.map some⟩

/-- The tag of a standard type. -/
def standard (name : String) : Tag := ofString ("tag:yaml.org,2002:" ++ name)

/-- The tag whose parts follow each other. -/
def append (t u : Tag) : Tag := ⟨t.chars ++ u.chars⟩

/-- Whether a tag has no characters. -/
def isEmpty (t : Tag) : Bool := t.chars.isEmpty

/-- What is left of a part of a tag: the character zero ends it. -/
def ended (t : Tag) : Tag := ⟨t.chars.takeWhile (· != some '\x00')⟩

/-- Whether a text makes the tag up, which an exclamation mark says. -/
def isOwn (t : Tag) : Bool := t.chars.head? == some (some '!')

/-- The name that a tag of a text's own gives; a lone exclamation mark is a name itself. -/
def name? (t : Tag) : Option String :=
  if !t.isOwn then none
  else
    let rest := t.chars.drop 1
    ((if rest.isEmpty then t.chars else rest).mapM id).map String.ofList

end Tag

end Es5.Yaml
