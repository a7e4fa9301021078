import Es5.Number.Format
import Es5.Text.Quoted
import Es5.Yaml.Document
import Es5.Yaml.Scalar

/-!
# Reading values from documents

A value of a known shape is read from a document part by part. A part of another shape is a
mismatch, which is reported with its mark and with the path to it.

* `Path`: the way from a document to a part of it.
* `Mismatch`, `DecodeError`: why a value cannot be read.
* `Decode`: readers of a value, and `decodeText`, which applies one to a text.
* `Decode.text`, `Decode.boolean`, `Decode.optional`, `Decode.list`, `Decode.record`: readers by
  shape.
-/

namespace Es5.Yaml

/-! ## Paths -/

/-- The way from a document to a part of it. -/
inductive Path where
  | root
  | index (parent : Path) (i : Nat)
  | field (parent : Path) (name : String)
  /-- Under a key that is no scalar. -/
  | unnamed (parent : Path)
  deriving DecidableEq, Repr, Inhabited

namespace Path

/-- The wording of a path; the root is a point on its own and nothing in front of a field. -/
def text : Path → String
  | root => "."
  | index parent i => parent.text ++ "[" ++ toString i ++ "]"
  | field root name => name
  | field parent name => parent.text ++ "." ++ name
  | unnamed root => "?"
  | unnamed parent => parent.text ++ ".?"

end Path

/-! ## Errors -/

/-- How a part of a document differs from what was expected. -/
inductive Mismatch where
  | type (found expected : String)
  | value (found expected : String)
  | missingField (name : String)
  | duplicateField (name : String)
  | unknownVariant (name : String) (expected : List String)
  deriving DecidableEq, Repr, Inhabited

/-- The wording of a mismatch. -/
def Mismatch.text : Mismatch → String
  | type found expected => "invalid type: " ++ found ++ ", expected " ++ expected
  | value found expected => "invalid value: " ++ found ++ ", expected " ++ expected
  | missingField name => "missing field \x60" ++ name ++ "\x60"
  | duplicateField name => "duplicate field \x60" ++ name ++ "\x60"
  | unknownVariant name expected =>
    "unknown variant \x60" ++ name ++ "\x60, expected " ++
      " or ".intercalate (expected.map fun s => "\x60" ++ s ++ "\x60")

/-- Why a value cannot be read. -/
inductive DecodeError where
  | failure (f : Failure)
  /-- The place is missing until a part with a mark is left. -/
  | mismatch (m : Mismatch) (place : Option (Mark × Path))
  deriving Repr, Inhabited

namespace DecodeError

/-- The wording of a mark at the end of a message; the very start of a text is not mentioned. -/
def atMark (m : Mark) : String := if m.isStart then "" else " at " ++ m.text

/-- The wording of an error. -/
def text : DecodeError → String
  | failure (.problem p) => p.text
  | failure (.unknownAnchor m) => "unknown anchor" ++ atMark m
  | failure .endOfStream => "EOF while parsing a value"
  | failure .moreDocuments =>
    "deserializing from YAML containing more than one document is not supported"
  | mismatch m none => m.text
  | mismatch m (some (mark, path)) =>
    (if path = .root then "" else path.text ++ ": ") ++ m.text ++ atMark mark

/-- The mark of an error, if it has one. -/
def mark? : DecodeError → Option Mark
  | failure (.problem p) => some p.mark
  | failure (.unknownAnchor m) => some m
  | failure _ => none
  | mismatch _ place => place.map Prod.fst

/-- Gives a mismatch a place, if it has none yet. -/
def locate (mark : Mark) (path : Path) : DecodeError → DecodeError
  | mismatch m none => mismatch m (some (mark, path))
  | e => e

end DecodeError

/-! ## Readers -/

/-- Where a reader is: in which document, and at the end of which path. -/
structure Site where
  document : Document
  path : Path := .root

/-- Readers of a value, which pass the items that they use. -/
abbrev Decode := ReaderT Site (StateT Nat (Except DecodeError))

namespace Decode

variable {α : Type}

/-- Meets a mismatch. -/
def fail (m : Mismatch) : Decode α := throw (.mismatch m none)

/-- The next item. -/
def peek : Decode PlacedItem := do
  let d := (← read).document
  match d.items[← get]? with
  | some item => pure item
  | none => throw (.failure (d.failure.getD .endOfStream))

/-- Passes the next item. -/
def drop : Decode Unit := modify (· + 1)

/-- Gives mismatches the place of a mark. -/
def located (mark : Mark) (m : Decode α) : Decode α := do
  let path := (← read).path
  tryCatch m fun e => throw (e.locate mark path)

/-- Reads at another path. -/
def under (path : Path) (m : Decode α) : Decode α :=
  withReader (fun s => { s with path }) m

/-- Reads what an anchor marks, and goes on after the alias. -/
def jump (anchor : Nat) (m : Decode α) : Decode α := do
  let next ← get
  match (← read).document.anchors.lookup anchor with
  | none => throw (.failure .endOfStream)
  | some position =>
    set position
    let a ← m
    set next
    pure a

/-- Passes the next part and reads it by its first item; an alias is read as what it stands for. -/
def part (m : Item → Decode α) : Decode α := do
  let i ← peek
  drop
  match i.item with
  | .alias anchor =>
    jump anchor do
      let i ← peek
      drop
      located i.mark (m i.item)
  | item => located i.mark (m item)

/-! ## Mismatches -/

/-- The wording of an integer. -/
def integerText (i : Int) : String :=
  "integer \x60" ++ toString i ++ "\x60" ++
    if i < -(Nat.pow 2 63 : Int) then " as i128"
    else if (Nat.pow 2 64 : Int) ≤ i then " as u128"
    else ""

/-- The wording of a text. -/
def textText (s : String) : String := "string " ++ Text.quote s

/-- The wording of what a plain scalar means. -/
def valueText : ScalarValue → String
  | .null => "unit value"
  | .boolean b => if b then "boolean \x60true\x60" else "boolean \x60false\x60"
  | .integer i => integerText i
  | .float x => "floating point \x60" ++ x.write .plain ++ "\x60"
  | .text s => textText s

/-- The mismatch of a scalar that was to mean what its tag says. -/
def taggedMismatch (expected : String) (s what : String) : Option ScalarValue → Mismatch
  | some v => .type (valueText v) expected
  | none => .value (textText s) what

/-- The mismatch of a scalar. -/
def scalarMismatch (expected : String) (tag : Option Tag) (s : String) (style : ScalarStyle) :
    Mismatch :=
  let asText := Mismatch.type (textText s) expected
  let asPlain := Mismatch.type (valueText (.ofText s)) expected
  match tag with
  | none => if style = .plain then asPlain else asText
  | some tag =>
    if tag = .standard "bool" then
      taggedMismatch expected s "a boolean" ((boolean? s).map .boolean)
    else if tag = .standard "int" then
      taggedMismatch expected s "an integer" ((integer? s).map .integer)
    else if tag = .standard "float" then
      taggedMismatch expected s "a float" ((float? s).map .float)
    else if tag = .standard "null" then
      taggedMismatch expected s "null" (if isNullText s then some .null else none)
    else if tag.isOwn && style = .plain then asPlain
    else asText

/-- Meets the mismatch of an item. -/
def failAt (expected : String) : Item → Decode α
  | .scalar tag s style => fail (scalarMismatch expected tag s style)
  | .sequenceStart _ => fail (.type "sequence" expected)
  | .mappingStart _ => fail (.type "map" expected)
  | _ => throw (.failure .endOfStream)

/-! ## Readers by shape -/

/-- Reads any scalar as the text that it is written as. -/
def textAs (expected : String) : Decode String := part fun
  | .scalar _ s _ => pure s
  | item => failAt expected item

/-- Reads a text. -/
def text : Decode String := textAs "a string"

/-- Whether a scalar may be a boolean. -/
def mayBeBoolean (tag : Option Tag) (style : ScalarStyle) : Bool :=
  style == .plain || (style == .literal && tag == some (.standard "bool"))

/-- Reads a boolean. -/
def boolean : Decode Bool := part fun item =>
  match item with
  | .scalar tag s style =>
    match boolean? s, mayBeBoolean tag style with
    | some b, true => pure b
    | _, _ => failAt "a boolean" item
  | _ => failAt "a boolean" item

/-- Whether an item stands for an absent value; a scalar tagged as null must be spelled as null. -/
def isAbsent : Item → Decode Bool
  | .void => pure true
  | .scalar tag s .plain =>
    match tag with
    | none => pure (s.isEmpty || isNullText s)
    | some tag =>
      if tag != .standard "null" then pure false
      else if isNullText s then pure true
      else fail (.value (textText s) "null")
  | _ => pure false

/-- Reads a value that may be absent, where there is no alias. -/
def optionalHere (m : Decode α) : Decode (Option α) := do
  if ← isAbsent (← peek).item then
    drop
    pure none
  else return some (← m)

/-- Reads a value that may be absent. -/
def optional (m : Decode α) : Decode (Option α) := do
  match (← peek).item with
  | .alias anchor =>
    drop
    jump anchor (optionalHere m)
  | _ => optionalHere m

/-- Whether an item stands for a collection that is not written at all. -/
def isEmptyCollection : Item → Bool
  | .void => true
  | .scalar _ s .plain => s.isEmpty
  | _ => false

/-- Reads the entries of a sequence from a number on. -/
def entries (m : Decode α) : Nat → Nat → Decode (List α)
  | 0, _ => pure []
  | fuel + 1, i => do
    if (← peek).item = .sequenceEnd then
      drop
      pure []
    else
      let a ← under (.index (← read).path i) m
      return a :: (← entries m fuel (i + 1))

/-- A bound on the items of a collection. -/
def bound : Decode Nat := return (← read).document.items.size + 1

/-- Reads a sequence. -/
def list (m : Decode α) : Decode (List α) := part fun item =>
  match item with
  | .sequenceStart _ => do entries m (← bound) 0
  | item => if isEmptyCollection item then pure [] else failAt "a sequence" item

/-- Passes items until as many collections have ended as were open. -/
def ignoreFrom : Nat → Nat → Decode Unit
  | 0, _ => pure ()
  | fuel + 1, depth => do
    let i ← peek
    drop
    let depth := match i.item with
      | .sequenceStart _ | .mappingStart _ => depth + 1
      | .sequenceEnd | .mappingEnd => depth - 1
      | _ => depth
    if depth != 0 then ignoreFrom fuel depth

/-- Passes any part. -/
def ignore : Decode Unit := do ignoreFrom (← bound) 0

/-- The path of the value under the key that comes next. -/
def valuePath : Decode Path := do
  let path := (← read).path
  match (← peek).item with
  | .scalar _ s _ => pure (.field path s)
  | _ => pure (.unnamed path)

/--
Reads the fields of a mapping into a value, with the names seen so far. A field of a name that
`field` does not know is passed over.
-/
def fields (field : String → Option (α → Decode α)) :
    Nat → List String → α → Decode (List String × α)
  | 0, seen, a => pure (seen, a)
  | fuel + 1, seen, a => do
    if (← peek).item = .mappingEnd then
      drop
      pure (seen, a)
    else
      let path ← valuePath
      let name ← textAs "field identifier"
      match field name with
      | none =>
        under path ignore
        fields field fuel seen a
      | some m =>
        if seen.contains name then fail (.duplicateField name)
        else
          let a ← under path (m a)
          fields field fuel (name :: seen) a

/-- Reads a mapping into a value by its fields, of which those in `required` must be there. -/
def record (expected : String) (required : List String) (init : α)
    (field : String → Option (α → Decode α)) : Decode α := part fun item => do
  let (seen, a) ← match item with
    | .mappingStart _ => do fields field (← bound) [] init
    | item => if isEmptyCollection item then pure ([], init) else failAt expected item
  match required.find? fun name => !seen.contains name with
  | some name => fail (.missingField name)
  | none => pure a

end Decode

/-- Reads a value from a text, which must hold one document and nothing wrong. -/
def decodeText {α : Type} (m : Decode α) (cs : List Char) : Except DecodeError α :=
  let (document, more) := Document.ofChars cs
  match m.run { document } |>.run 0 with
  | .error e => .error e
  | .ok (a, _) =>
    match document.failure with
    | some f => .error (.failure f)
    | none => if more then .error (.failure .moreDocuments) else .ok a

end Es5.Yaml
