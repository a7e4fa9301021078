import Es5.Yaml.Event.Grammar

/-!
# Documents

A document is read as a whole before it is used. A text that goes wrong midway still gives a
document, with what was read until then and the failure that ended it.

* `Failure`: why a text gives no value, apart from the value's own shape.
* `Item`: a part of a document; an alias is given by the number of its anchor.
* `Document`, `Document.read?`: a document, and the next document of a text.
-/

namespace Es5.Yaml

/-- Why a text gives no value. -/
inductive Failure where
  /-- The text goes wrong. -/
  | problem (p : Problem)
  /-- An alias of no anchor. -/
  | unknownAnchor (mark : Mark)
  /-- The text ended where a value was expected. -/
  | endOfStream
  /-- A second document follows the first. -/
  | moreDocuments
  deriving Repr, Inhabited

/-- A part of a document. -/
inductive Item where
  /-- Stands for a whole document that has nothing in it. -/
  | void
  | alias (anchor : Nat)
  | scalar (tag : Option Tag) (text : String) (style : ScalarStyle)
  | sequenceStart (tag : Option Tag)
  | sequenceEnd
  | mappingStart (tag : Option Tag)
  | mappingEnd
  deriving DecidableEq, Repr, Inhabited

/-- A part of a document in its place. -/
structure PlacedItem where
  item : Item
  mark : Mark
  deriving Repr, Inhabited

/-- A document. -/
structure Document where
  items : Array PlacedItem := #[]
  failure : Option Failure := none
  /-- Numbers of anchors with the positions of what they mark; the first entry counts. -/
  anchors : List (Nat × Nat) := []
  /-- Names of anchors with their numbers; the first entry counts. -/
  names : List (String × Nat) := []
  deriving Inhabited

namespace Document

/-- Adds a part. -/
def push (d : Document) (item : Item) (mark : Mark) : Document :=
  { d with items := d.items.push ⟨item, mark⟩ }

/-- How many names of anchors there are. -/
def nameCount (d : Document) : Nat := (d.names.map Prod.fst).eraseDups.length

/-- Notes an anchor on the next part. It is numbered by the names known before it. -/
def mark (d : Document) : Option String → Document
  | none => d
  | some name =>
    let number := d.nameCount
    { d with names := (name, number) :: d.names, anchors := (number, d.items.size) :: d.anchors }

/-- Adds what an event gives. -/
def add (d : Document) (e : Placed) : Document :=
  match e.event with
  | .alias name =>
    match d.names.lookup name with
    | some number => d.push (.alias number) e.mark
    | none => { d with failure := some (.unknownAnchor e.mark) }
  | .scalar anchor tag text style => (d.mark anchor).push (.scalar tag text style) e.mark
  | .sequenceStart anchor tag => (d.mark anchor).push (.sequenceStart tag) e.mark
  | .sequenceEnd => d.push .sequenceEnd e.mark
  | .mappingStart anchor tag => (d.mark anchor).push (.mappingStart tag) e.mark
  | .mappingEnd => d.push .mappingEnd e.mark
  | _ => d

/-- Reads events up to the end of a document, or to a failure. -/
def readFrom (first : Bool) : Nat → Document → EventStream → Option (Document × EventStream)
  | 0, d, s => some ({ d with failure := some .endOfStream }, s)
  | fuel + 1, d, s =>
    match EventStream.next s with
    | .error p => some ({ d with failure := some (.problem p) }, s)
    | .ok (e, s) =>
      match e.event with
      | .streamEnd =>
        if !first then none
        else if d.items.isEmpty then some (d.push .void e.mark, s)
        else some (d, s)
      | .documentEnd => some (d, s)
      | _ =>
        let d := d.add e
        if d.failure.isSome then some (d, s) else readFrom first fuel d s

/-- A bound on the events to come: no character gives more than sixteen. -/
def eventBound (s : EventStream) : Nat := 16 * (s.tokens.cursor.bound + 16)

/-- Reads the next document; a text without any still has one that is empty. -/
def read? (first : Bool) (s : EventStream) : Option (Document × EventStream) :=
  readFrom first (eventBound s) {} s

/-- The first document of a text, and whether another one follows it. -/
def ofChars (cs : List Char) : Document × Bool :=
  match read? true (.ofChars cs) with
  | none => ({ failure := some .endOfStream }, false)
  | some (d, s) => (d, (read? false s).isSome)

end Document

end Es5.Yaml
