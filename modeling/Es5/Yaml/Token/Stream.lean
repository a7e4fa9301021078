import Es5.Yaml.Readable
import Es5.Yaml.Token.Property
import Es5.Yaml.Token.Scalar

/-!
# Token streams

A text as a stream of tokens. A colon makes what stands before it a key, so a token that may turn
out to begin a key is held back until that is settled: on the same line and within 1024 characters.
Outside flow collections the column of a line opens and closes blocks.

* `TokenStream`: a text that has been read in part, and the tokens held back.
* `TokenStream.peek`, `TokenStream.drop`: the next token, and passing it.
-/

namespace Es5.Yaml

/-- A token that may turn out to begin a key. -/
structure KeyPlace where
  /-- Whether the text is wrong unless it does. -/
  required : Bool
  /-- The number of the token in the stream. -/
  number : Nat
  mark : Mark

/-- A text that has been read in part. -/
structure TokenStream where
  cursor : Cursor
  /-- What is wrong with the text after that of the cursor, which cannot be read. -/
  beyond : Option Problem := none
  started : Bool := false
  /-- Tokens read and not yet passed. -/
  held : List Token := []
  /-- How many tokens have been passed. -/
  passed : Nat := 0
  /-- Whether a key may begin at the cursor. -/
  keyAllowed : Bool := false
  /-- For each flow collection around the cursor, innermost first, and last for the text. -/
  keyPlaces : List (Option KeyPlace) := []
  /-- The column of the innermost block, or `-1`. -/
  indent : Int := -1
  /-- The columns of the blocks around it. -/
  outerIndents : List Int := []

/-- Actions on a token stream. -/
abbrev Scan := StateT TokenStream (Except Problem)

namespace TokenStream

/-- Whether the cursor is in a flow collection. -/
def inFlow (s : TokenStream) : Bool := 1 < s.keyPlaces.length

/-- The number of the next token to be read. -/
def count (s : TokenStream) : Nat := s.passed + s.held.length

/-- A stream at the start of a text. -/
def ofChars (cs : List Char) : TokenStream :=
  let (rest, beyond) := readable cs
  { cursor := { rest }, beyond }

end TokenStream

namespace Scan

/-- Reads a part of the text. -/
def lex {α : Type} (m : Lex α) : Scan α := do
  let s ← get
  let (a, cursor) ← m s.cursor
  set { s with cursor }
  pure a

/-- The mark of the cursor. -/
def mark : Scan Mark := return (← get).cursor.mark

/-- Meets a problem at the cursor. -/
def fail {α : Type} (what : String) : Scan α := do throw { what, mark := ← mark }

/-- Holds a token. -/
def hold (t : Token) : Scan Unit := modify fun s => { s with held := s.held ++ [t] }

/-- Holds a token in front of the token of a given number. -/
def holdAt (number : Nat) (t : Token) : Scan Unit := modify fun s =>
  let (before, after) := s.held.splitAt (number - s.passed)
  { s with held := before ++ t :: after }

/-- Allows or forbids a key at the cursor. -/
def allowKey (allowed : Bool) : Scan Unit := modify fun s => { s with keyAllowed := allowed }

/-- Passes some characters and holds them as a token. -/
def holdIndicator (length : Nat) (kind : TokenKind) : Scan Unit := do
  let start ← mark
  for _ in List.range length do lex Lex.skip
  hold ⟨kind, start, ← mark⟩

/-- Holds a token that a part of the text spells. -/
def holdLexeme (m : Lex TokenKind) : Scan Unit := do
  let start ← mark
  let kind ← lex m
  hold ⟨kind, start, ← mark⟩

/-! ## Keys -/

/-- Meets the problem of a required key without its colon. -/
def missingColon {α : Type} (place : KeyPlace) : Scan α := do
  throw { what := "could not find expected ':'", mark := ← mark,
          context := some ("while scanning a simple key", some place.mark) }

/-- Whether a key that began at a place would be too long, or has left its line. -/
def isStale (m : Mark) (place : KeyPlace) : Bool :=
  place.mark.line < m.line || place.mark.index + 1024 < m.index

/-- Gives up places where a key can no longer have begun. -/
def dropStale : Scan Unit := do
  let s ← get
  let stale (place : KeyPlace) : Bool := isStale s.cursor.mark place
  match ((s.keyPlaces.filterMap id).filter fun p => stale p && p.required).getLast? with
  | some place => missingColon place
  | none => set { s with keyPlaces := s.keyPlaces.map (Option.filter fun p => !stale p) }

/-- Replaces the innermost place where a key may have begun. -/
def setKeyPlace (place : Option KeyPlace) : Scan Unit := modify fun s =>
  { s with keyPlaces := place :: s.keyPlaces.drop 1 }

/-- Gives up the innermost place where a key may have begun. -/
def dropKeyPlace : Scan Unit := do
  match (← get).keyPlaces.head?.join.filter (·.required) with
  | some place => missingColon place
  | none => setKeyPlace none

/-- Notes that a key may begin with the next token. -/
def saveKeyPlace : Scan Unit := do
  let s ← get
  if s.keyAllowed then
    dropKeyPlace
    setKeyPlace (some
      { required := !s.inFlow && s.indent == s.cursor.mark.column, number := s.count,
        mark := s.cursor.mark })

/-! ## Blocks -/

/-- Opens a block at a column, if that is right of the innermost block. -/
def openBlock (column : Nat) (number : Option Nat) (kind : TokenKind) (m : Mark) : Scan Unit := do
  let s ← get
  if !s.inFlow && s.indent < column then
    set { s with indent := column, outerIndents := s.indent :: s.outerIndents }
    match number with
    | some n => holdAt n ⟨kind, m, m⟩
    | none => hold ⟨kind, m, m⟩

/-- Closes the blocks of a list of columns that are right of `column`. -/
def closeBlocksOf (column : Int) : List Int → Scan Unit
  | [] => pure ()
  | outer :: rest => do
    if column < (← get).indent then
      let m ← mark
      hold ⟨.blockEnd, m, m⟩
      modify fun s => { s with indent := outer, outerIndents := rest }
      closeBlocksOf column rest

/-- Closes the blocks right of a column. -/
def closeBlocks (column : Int) : Scan Unit := do
  let s ← get
  if !s.inFlow then closeBlocksOf column s.outerIndents

/-! ## White space -/

/--
Passes blanks, comments and line breaks up to the next token. A byte order mark may start a line,
and takes a column there.
-/
def skipSpaceFrom : Nat → Scan Unit
  | 0 => pure ()
  | fuel + 1 => do
    let s ← get
    if s.cursor.mark.column == 0 && s.cursor.has 0 '\uFEFF' then lex Lex.skip
    let tabs := s.inFlow || !s.keyAllowed
    let _ ← lex (Lex.takeWhile fun c => c == ' ' || (tabs && c == '\t'))
    if (← get).cursor.has 0 '#' then
      let _ ← lex (Lex.takeWhile fun c => !isBreak c)
    match (← get).cursor.lineBreak? with
    | none => pure ()
    | some (_, cursor) =>
      modify fun s => { s with cursor, keyAllowed := s.keyAllowed || !s.inFlow }
      skipSpaceFrom fuel

/-! ## Tokens by their indicators -/

/-- Holds the start of the stream. -/
def readStreamStart : Scan Unit := do
  modify fun s => { s with started := true, keyAllowed := true, keyPlaces := [none] }
  holdIndicator 0 .streamStart

/-- Holds the end of the stream, which counts as the start of a line. -/
def readStreamEnd : Scan Unit := do
  modify fun s =>
    let m := s.cursor.mark
    if m.column == 0 then s
    else { s with cursor := { s.cursor with mark := { m with line := m.line + 1, column := 0 } } }
  closeBlocks (-1)
  dropKeyPlace
  allowKey false
  holdIndicator 0 .streamEnd

/-- Closes all blocks in front of a directive or a document indicator. -/
def leaveDocument : Scan Unit := do
  closeBlocks (-1)
  dropKeyPlace
  allowKey false

/-- Holds a directive. -/
def readDirective : Scan Unit := do
  leaveDocument
  let start ← mark
  let (kind, stop) ← lex Lex.directive
  hold ⟨kind, start, stop⟩

/-- Holds the start of a flow collection. -/
def readFlowStart (kind : TokenKind) : Scan Unit := do
  saveKeyPlace
  modify fun s => { s with keyPlaces := none :: s.keyPlaces, keyAllowed := true }
  holdIndicator 1 kind

/-- Holds the end of a flow collection. -/
def readFlowEnd (kind : TokenKind) : Scan Unit := do
  dropKeyPlace
  modify fun s =>
    { s with
      keyPlaces := if s.inFlow then s.keyPlaces.drop 1 else s.keyPlaces
      keyAllowed := false }
  holdIndicator 1 kind

/-- Holds a comma. -/
def readFlowEntry : Scan Unit := do
  dropKeyPlace
  allowKey true
  holdIndicator 1 .flowEntry

/-- Holds the dash of a block sequence. -/
def readBlockEntry : Scan Unit := do
  let s ← get
  if !s.inFlow then
    if !s.keyAllowed then fail "block sequence entries are not allowed in this context"
    openBlock s.cursor.mark.column none .blockSequenceStart s.cursor.mark
  dropKeyPlace
  allowKey true
  holdIndicator 1 .blockEntry

/-- Holds the question mark of a key. -/
def readKey : Scan Unit := do
  let s ← get
  if !s.inFlow then
    if !s.keyAllowed then fail "mapping keys are not allowed in this context"
    openBlock s.cursor.mark.column none .blockMappingStart s.cursor.mark
  dropKeyPlace
  allowKey !s.inFlow
  holdIndicator 1 .key

/-- Holds a colon, and in front of what it makes a key the start of that key. -/
def readValue : Scan Unit := do
  let s ← get
  match s.keyPlaces.head?.join with
  | some place =>
    holdAt place.number ⟨.key, place.mark, place.mark⟩
    openBlock place.mark.column (some place.number) .blockMappingStart place.mark
    setKeyPlace none
    allowKey false
  | none =>
    if !s.inFlow then
      if !s.keyAllowed then fail "mapping values are not allowed in this context"
      openBlock s.cursor.mark.column none .blockMappingStart s.cursor.mark
    allowKey !s.inFlow
  holdIndicator 1 .value

/-- Holds an anchor, an alias or a tag. -/
def readProperty (m : Lex TokenKind) : Scan Unit := do
  saveKeyPlace
  allowKey false
  holdLexeme m

/-- Holds a block scalar. -/
def readBlockScalar (folded : Bool) : Scan Unit := do
  dropKeyPlace
  allowKey true
  let outer := (← get).indent
  holdLexeme (return .scalar (← Lex.block folded outer) (if folded then .folded else .literal))

/-- Holds a quoted scalar. -/
def readQuoted (single : Bool) : Scan Unit := do
  saveKeyPlace
  allowKey false
  let style := if single then .singleQuoted else .doubleQuoted
  holdLexeme (return .scalar (← Lex.quoted single) style)

/-- Holds a plain scalar; after a line break a key may follow it. -/
def readPlain : Scan Unit := do
  saveKeyPlace
  allowKey false
  let s ← get
  let (text, broken, stop) ← lex (Lex.plain (s.indent + 1) s.inFlow)
  if broken then allowKey true
  hold ⟨.scalar text .plain, s.cursor.mark, stop⟩

/-- Whether a plain scalar may begin at the cursor. -/
def beginsPlain (s : TokenStream) : Bool :=
  let c := s.cursor
  let reserved : List Char := ['-', '?', ':', ',', '[', ']', '{', '}', '#', '&', '*', '!', '|', '>',
    '\'', '"', '%', '@', '\x60']
  !(c.endsWord 0 || c.next reserved.contains) || (c.has 0 '-' && !(c.at? 1).any isBlank) ||
    (!s.inFlow && (c.has 0 '?' || c.has 0 ':') && !c.endsWord 1)

/-- Holds the token at the cursor. -/
def readToken (s : TokenStream) : Scan Unit :=
  let c := s.cursor
  let lineStart := c.mark.column == 0
  if c.rest.isEmpty then readStreamEnd
  else if lineStart && c.has 0 '%' then readDirective
  else if c.atDocumentIndicator '-' then do
    leaveDocument
    holdIndicator 3 .documentStart
  else if c.atDocumentIndicator '.' then do
    leaveDocument
    holdIndicator 3 .documentEnd
  else if c.has 0 '[' then readFlowStart .flowSequenceStart
  else if c.has 0 '{' then readFlowStart .flowMappingStart
  else if c.has 0 ']' then readFlowEnd .flowSequenceEnd
  else if c.has 0 '}' then readFlowEnd .flowMappingEnd
  else if c.has 0 ',' then readFlowEntry
  else if c.has 0 '-' && c.endsWord 1 then readBlockEntry
  else if c.has 0 '?' && (s.inFlow || c.endsWord 1) then readKey
  else if c.has 0 ':' && (s.inFlow || c.endsWord 1) then readValue
  else if c.has 0 '*' then
    readProperty (return .alias (← Lex.anchorName "while scanning an alias"))
  else if c.has 0 '&' then
    readProperty (return .anchor (← Lex.anchorName "while scanning an anchor"))
  else if c.has 0 '!' then
    readProperty do
      let (handle, suffix) ← Lex.tag s.inFlow
      pure (.tag handle suffix)
  else if c.has 0 '|' && !s.inFlow then readBlockScalar false
  else if c.has 0 '>' && !s.inFlow then readBlockScalar true
  else if c.has 0 '\'' then readQuoted true
  else if c.has 0 '"' then readQuoted false
  else if beginsPlain s then readPlain
  else
    throw { what := "found character that cannot start any token", mark := c.mark,
            context := some ("while scanning for the next token", some c.mark) }

/-- Makes sure that the next `count` characters can be read, or that there are fewer. -/
def look (count : Nat) : Scan Unit := do
  let s ← get
  match s.beyond with
  | some p => if (s.cursor.rest.take count).length < count then throw p
  | none => pure ()

/-- Holds the token at the cursor; one at the very end of what can be read may go on after it. -/
def readWhole : Scan Unit := do
  let s ← get
  match s.beyond with
  | none => readToken s
  | some p =>
    let stop := s.cursor.mark.index + Text.byteLength s.cursor.rest
    tryCatch (readToken s) fun e => throw (if e.mark.index < stop then e else p)
    look 1

/-- Reads on by one token. -/
def readNext : Scan Unit := do
  look 1
  if !(← get).started then readStreamStart
  else
    skipSpaceFrom ((← get).cursor.bound + 1)
    look 1
    dropStale
    closeBlocks (← mark).column
    look 4
    readWhole

/-- Whether the first token held may still turn out to begin a key, or there is none. -/
def needsMore (s : TokenStream) : Bool :=
  s.held.isEmpty || s.keyPlaces.any fun place => place.any (·.number == s.passed)

/-- Reads on until the next token is settled. -/
def settle : Nat → Scan Unit
  | 0 => pure ()
  | fuel + 1 => do
    if !(← get).held.isEmpty then dropStale
    if needsMore (← get) then
      readNext
      settle fuel

end Scan

namespace TokenStream

/-- The next token. At least one character is read for each token, the stream's ends apart. -/
def peek : Scan Token := do
  Scan.settle ((← get).cursor.bound + 3)
  match (← get).held with
  | t :: _ => pure t
  | [] => return ⟨.streamEnd, ← Scan.mark, ← Scan.mark⟩

/-- Passes the next token, which has been seen. -/
def drop : Scan Unit := modify fun s => { s with held := s.held.drop 1, passed := s.passed + 1 }

end TokenStream

end Es5.Yaml
