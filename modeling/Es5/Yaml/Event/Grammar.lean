import Es5.Yaml.Event
import Es5.Yaml.Token.Stream

/-!
# From tokens to events

What may stand at a place follows from what was read before: each expectation names the part of
the text that comes next, and a part within another leaves the rest of the outer one pending.

* `Expectation`: the part of a text that comes next.
* `EventStream`: a text of which some events have been read.
* `EventStream.next`: the next event.
-/

namespace Es5.Yaml

/-- The part of a text that comes next. -/
inductive Expectation where
  | stream
  /-- A document, which the first in a text need not announce. -/
  | document (first : Bool)
  | content
  | documentEnd
  | blockNode
  /-- An entry of a block sequence. -/
  | entry (first : Bool)
  /-- An entry of a sequence that is not indented. -/
  | flatEntry
  | key (first : Bool)
  | value
  | flowEntry (first : Bool)
  /-- A pair that stands as an entry of a flow sequence. -/
  | pairKey
  | pairValue
  | pairEnd
  | flowKey (first : Bool)
  /-- The value of a flow mapping; it is known to be missing if its key had no indicator. -/
  | flowValue (missing : Bool)
  | nothing
  deriving DecidableEq, Repr

/-- A text of which some events have been read. -/
structure EventStream where
  tokens : TokenStream
  expected : Expectation := .stream
  /-- What comes after the part expected, innermost first. -/
  pending : List Expectation := []
  /-- Where the collections around the cursor began, innermost first. -/
  openings : List Mark := []
  /-- The meanings of tag handles. -/
  handles : List (String × Tag) := []

/-- Actions on an event stream. -/
abbrev Parse := StateT EventStream (Except Problem)

namespace Parse

/-! ## Moves -/

/-- Acts on the tokens. -/
def scan {α : Type} (m : Scan α) : Parse α := do
  let s ← get
  let (a, tokens) ← m s.tokens
  set { s with tokens }
  pure a

/-- The next token. -/
def peek : Parse Token := scan TokenStream.peek

/-- Passes the next token. -/
def drop : Parse Unit := scan TokenStream.drop

/-- Passes the next token and returns the one after it. -/
def dropPeek : Parse Token := do
  drop
  peek

/-- Sets what is expected. -/
def expect (e : Expectation) : Parse Unit := modify fun s => { s with expected := e }

/-- Leaves a part pending. -/
def push (e : Expectation) : Parse Unit := modify fun s => { s with pending := e :: s.pending }

/-- Expects the part that was left pending last. -/
def pop : Parse Unit := modify fun s =>
  { s with expected := s.pending.headD .nothing, pending := s.pending.drop 1 }

/-- Notes where a collection begins, and passes its first token if it has just begun. -/
def enter (first : Bool) : Parse Unit := do
  if first then
    let t ← peek
    modify fun s => { s with openings := t.start :: s.openings }
    drop

/-- Forgets where the innermost collection began. -/
def leave : Parse Unit := modify fun s => { s with openings := s.openings.drop 1 }

/-- Meets a problem at a mark. -/
def fail {α : Type} (what : String) (m : Mark) : Parse α := throw { what, mark := m }

/-- Meets a problem at a mark in the innermost collection. -/
def failInside {α : Type} (reading what : String) (m : Mark) : Parse α := do
  throw { what, mark := m, context := some (reading, (← get).openings.head?) }

/-- A scalar that is not written at all. -/
def missing (m : Mark) : Parse Placed := pure ⟨.scalar none none "" .plain, m⟩

/-- A scalar that is not written at all, and what is expected after it. -/
def missingThen (e : Expectation) (m : Mark) : Parse Placed := do
  expect e
  missing m

/-! ## Directives -/

/-- The tag handles that need no directive. -/
def standardHandles : List (String × Tag) := [("!", .ofString "!"), ("!!", .standard "")]

/-- Reads the directives of a document and sets the meanings of its tag handles. -/
def directives : Nat → Bool → List (String × Tag) → Parse Unit
  | 0, _, handles => modify fun s => { s with handles := handles ++ standardHandles }
  | fuel + 1, versioned, handles => do
    let t ← peek
    match t.kind with
    | .versionDirective major minor =>
      if versioned then fail "found duplicate %YAML directive" t.start
      if major != 1 || (minor != 1 && minor != 2) then
        fail "found incompatible YAML document" t.start
      drop
      directives fuel true handles
    | .tagDirective handle expansion =>
      if (handles.lookup handle).isSome then fail "found duplicate %TAG directive" t.start
      drop
      directives fuel versioned (handles ++ [(handle, expansion)])
    | _ => directives 0 versioned handles

/-! ## Nodes -/

/-- Reads an anchor, if there is one. -/
def anchor? : Parse (Option String) := do
  match (← peek).kind with
  | .anchor name =>
    drop
    pure (some name)
  | _ => pure none

/-- Reads a tag, if there is one: handle, rest and place. -/
def tag? : Parse (Option (String × Tag × Mark)) := do
  let t ← peek
  match t.kind with
  | .tag handle suffix =>
    drop
    pure (some (handle, suffix, t.start))
  | _ => pure none

/-- Reads an anchor and a tag in either order. -/
def properties : Parse (Option String × Option (String × Tag × Mark)) := do
  match ← anchor? with
  | some name => pure (some name, ← tag?)
  | none =>
    match ← tag? with
    | some tag => pure (← anchor?, some tag)
    | none => pure (none, none)

/-- The full form of a tag, in a node that begins at `start`. -/
def fullTag (start : Mark) : Option (String × Tag × Mark) → Parse (Option Tag)
  | none => pure none
  | some (handle, suffix, m) => do
    if handle.isEmpty then pure (some suffix)
    else match (← get).handles.lookup handle with
      | some expansion => pure (some (expansion.append suffix))
      | none =>
        throw { what := "found undefined tag handle", mark := m,
                context := some ("while parsing a node", some start) }

/-- Starts a collection, of which `e` comes next. -/
def start (e : Expectation) (event : Event) (m : Mark) : Parse Placed := do
  expect e
  pure ⟨event, m⟩

/--
Reads a node, or its start; `block` and `flat` admit block collections. What the node is must be
known before its tag is looked up.
-/
def node (block flat : Bool) : Parse Placed := do
  let t ← peek
  match t.kind with
  | .alias name =>
    pop
    drop
    pure ⟨.alias name, t.start⟩
  | _ =>
    let m := t.start
    let (anchor, tagParts) ← properties
    let t ← peek
    let tag ← fullTag m tagParts
    match t.kind, block, flat with
    | .blockEntry, _, true => start .flatEntry (.sequenceStart anchor tag) m
    | .scalar text style, _, _ =>
      pop
      drop
      pure ⟨.scalar anchor tag text style, m⟩
    | .flowSequenceStart, _, _ => start (.flowEntry true) (.sequenceStart anchor tag) m
    | .flowMappingStart, _, _ => start (.flowKey true) (.mappingStart anchor tag) m
    | .blockSequenceStart, true, _ => start (.entry true) (.sequenceStart anchor tag) m
    | .blockMappingStart, true, _ => start (.key true) (.mappingStart anchor tag) m
    | _, _, _ =>
      if anchor.isSome || tag.isSome then
        pop
        pure ⟨.scalar anchor tag "" .plain, m⟩
      else
        let reading := if block then "while parsing a block node" else "while parsing a flow node"
        throw { what := "did not find expected node content", mark := t.start,
                context := some (reading, some m) }

/-- Reads a node after which `e` is expected. -/
def nodeThen (e : Expectation) (block flat : Bool) : Parse Placed := do
  push e
  node block flat

/-- Ends a collection with the token `t`. -/
def finish (event : Event) (t : Token) : Parse Placed := do
  pop
  leave
  drop
  pure ⟨event, t.start⟩

/-! ## Documents -/

/-- Passes tokens that end a document. -/
def skipDocumentEnds : Nat → Parse Unit
  | 0 => pure ()
  | fuel + 1 => do
    if (← peek).kind == .documentEnd then
      drop
      skipDocumentEnds fuel

/-- Whether a token belongs to the outside of documents. -/
def isOutside : TokenKind → Bool
  | .versionDirective .. | .tagDirective .. | .documentStart | .streamEnd => true
  | _ => false

/-- A bound on the number of tokens to come. -/
def tokenBound : Parse Nat := return 4 * (← get).tokens.cursor.bound + 64

/-- Reads the start of a document or the end of the stream. -/
def document (first : Bool) : Parse Placed := do
  if !first then skipDocumentEnds (← tokenBound)
  let t ← peek
  if first && !isOutside t.kind then
    directives 0 false []
    push .documentEnd
    expect .blockNode
    pure ⟨.documentStart, t.start⟩
  else if t.kind != .streamEnd then
    directives (← tokenBound) false []
    let u ← peek
    if u.kind != .documentStart then fail "did not find expected <document start>" u.start
    else
      push .documentEnd
      expect .content
      drop
      pure ⟨.documentStart, t.start⟩
  else
    expect .nothing
    drop
    pure ⟨.streamEnd, t.start⟩

/-- Reads the content of a document, which may be missing. -/
def content : Parse Placed := do
  let t ← peek
  if isOutside t.kind || t.kind == .documentEnd then
    pop
    missing t.start
  else node true false

/-- Reads the end of a document. -/
def documentEnd : Parse Placed := do
  let t ← peek
  if t.kind == .documentEnd then drop
  modify fun s => { s with handles := [], expected := .document false }
  pure ⟨.documentEnd, t.start⟩

/-! ## Block collections -/

/-- Reads an entry of a block sequence, or its end. -/
def entry (first : Bool) : Parse Placed := do
  enter first
  let t ← peek
  match t.kind with
  | .blockEntry =>
    match (← dropPeek).kind with
    | .blockEntry | .blockEnd => missingThen (.entry false) t.stop
    | _ => nodeThen (.entry false) true false
  | .blockEnd => finish .sequenceEnd t
  | _ =>
    failInside "while parsing a block collection" "did not find expected '-' indicator" t.start

/-- Reads an entry of a sequence that is not indented, or its end. -/
def flatEntry : Parse Placed := do
  let t ← peek
  match t.kind with
  | .blockEntry =>
    match (← dropPeek).kind with
    | .blockEntry | .key | .value | .blockEnd => missingThen .flatEntry t.stop
    | _ => nodeThen .flatEntry true false
  | _ =>
    pop
    pure ⟨.sequenceEnd, t.start⟩

/-- Reads a key of a block mapping, or its end. -/
def key (first : Bool) : Parse Placed := do
  enter first
  let t ← peek
  match t.kind with
  | .key =>
    match (← dropPeek).kind with
    | .key | .value | .blockEnd => missingThen .value t.stop
    | _ => nodeThen .value true true
  | .blockEnd => finish .mappingEnd t
  | _ => failInside "while parsing a block mapping" "did not find expected key" t.start

/-- Reads a value of a block mapping. -/
def value : Parse Placed := do
  let t ← peek
  match t.kind with
  | .value =>
    match (← dropPeek).kind with
    | .key | .value | .blockEnd => missingThen (.key false) t.stop
    | _ => nodeThen (.key false) true true
  | _ => missingThen (.key false) t.start

/-! ## Flow collections -/

/-- Passes the comma in front of an entry that is not the first; `what` tells what was expected. -/
def comma (first : Bool) (reading what : String) : Parse Unit := do
  if !first then
    let t ← peek
    if t.kind == .flowEntry then drop else failInside reading what t.start

/-- Reads an entry of a flow sequence, or its end. -/
def flowEntry (first : Bool) : Parse Placed := do
  enter first
  let t ← peek
  if t.kind == .flowSequenceEnd then finish .sequenceEnd t
  else
    comma first "while parsing a flow sequence" "did not find expected ',' or ']'"
    let t ← peek
    match t.kind with
    | .key =>
      drop
      start .pairKey (.mappingStart none none) t.start
    | .flowSequenceEnd => finish .sequenceEnd t
    | _ => nodeThen (.flowEntry false) false false

/-- Reads the key of a pair in a flow sequence. -/
def pairKey : Parse Placed := do
  let t ← peek
  match t.kind with
  | .value | .flowEntry | .flowSequenceEnd =>
    drop
    missingThen .pairValue t.stop
  | _ => nodeThen .pairValue false false

/-- Reads the value of a pair in a flow sequence. -/
def pairValue : Parse Placed := do
  let t ← peek
  match t.kind with
  | .value =>
    let u ← dropPeek
    match u.kind with
    | .flowEntry | .flowSequenceEnd => missingThen .pairEnd u.start
    | _ => nodeThen .pairEnd false false
  | _ => missingThen .pairEnd t.start

/-- Reads the end of a pair in a flow sequence. -/
def pairEnd : Parse Placed := do
  let t ← peek
  expect (.flowEntry false)
  pure ⟨.mappingEnd, t.start⟩

/-- Reads a key of a flow mapping, or its end. -/
def flowKey (first : Bool) : Parse Placed := do
  enter first
  let t ← peek
  if t.kind == .flowMappingEnd then finish .mappingEnd t
  else
    comma first "while parsing a flow mapping" "did not find expected ',' or '\x7d'"
    let t ← peek
    match t.kind with
    | .key =>
      let u ← dropPeek
      match u.kind with
      | .value | .flowEntry | .flowMappingEnd => missingThen (.flowValue false) u.start
      | _ => nodeThen (.flowValue false) false false
    | .flowMappingEnd => finish .mappingEnd t
    | _ => nodeThen (.flowValue true) false false

/-- Reads a value of a flow mapping. -/
def flowValue (isMissing : Bool) : Parse Placed := do
  let t ← peek
  match t.kind, isMissing with
  | .value, false =>
    let u ← dropPeek
    match u.kind with
    | .flowEntry | .flowMappingEnd => missingThen (.flowKey false) u.start
    | _ => nodeThen (.flowKey false) false false
  | _, _ => missingThen (.flowKey false) t.start

end Parse

namespace EventStream

/-- A stream at the start of a text. -/
def ofChars (cs : List Char) : EventStream := { tokens := .ofChars cs }

/-- Reads the next event. -/
def next : Parse Placed := do
  match (← get).expected with
  | .stream =>
    let t ← Parse.peek
    Parse.drop
    Parse.start (.document true) .streamStart t.start
  | .document first => Parse.document first
  | .content => Parse.content
  | .documentEnd => Parse.documentEnd
  | .blockNode => Parse.node true false
  | .entry first => Parse.entry first
  | .flatEntry => Parse.flatEntry
  | .key first => Parse.key first
  | .value => Parse.value
  | .flowEntry first => Parse.flowEntry first
  | .pairKey => Parse.pairKey
  | .pairValue => Parse.pairValue
  | .pairEnd => Parse.pairEnd
  | .flowKey first => Parse.flowKey first
  | .flowValue isMissing => Parse.flowValue isMissing
  | .nothing => return ⟨.streamEnd, (← get).tokens.cursor.mark⟩

end EventStream

end Es5.Yaml
