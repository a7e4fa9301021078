import Es5.Yaml.Cursor

/-!
# The texts of scalars

A scalar may run over several lines. Between its words a single line break reads as a space, and
further ones are kept; a block scalar keeps its lines as they are or folds them likewise.

* `Gap`: the white space between two words of a scalar.
* `Lex.plain`, `Lex.quoted`, `Lex.block`: the text of a plain, a quoted and a block scalar.
-/

namespace Es5.Yaml

/-! ## Gaps between words -/

/-- The white space between two words of a scalar. -/
structure Gap where
  /-- Blanks before any line break. -/
  blanks : List Char := []
  /-- Whether the line has been left. -/
  broken : Bool := false
  /-- The first line break that counts. -/
  first : Option Char := none
  /-- The line breaks after the first. -/
  more : List Char := []

/-- What a gap reads as. -/
def Gap.text (g : Gap) : List Char :=
  if g.broken then
    if g.first == some '\n' then (if g.more.isEmpty then [' '] else g.more)
    else g.first.toList ++ g.more
  else g.blanks

namespace Lex

/-- Passes white space; in a plain scalar no tab may stand before the column `tabLimit`. -/
def gapFrom (start : Mark) (tabLimit : Int) : Nat → Gap → Lex Gap
  | 0, g => pure g
  | fuel + 1, g => do
    let c ← get
    if c.next isBlank then
      if g.broken && c.mark.column < tabLimit && c.has 0 '\t' then
        fail "while scanning a plain scalar" start "found a tab character that violates indentation"
      else
        skip
        gapFrom start tabLimit fuel
          (if g.broken then g else { g with blanks := g.blanks ++ (c.at? 0).toList })
    else match c.lineBreak? with
      | none => pure g
      | some (x, c) =>
        set c
        gapFrom start tabLimit fuel
          (if g.broken then { g with more := g.more ++ [x] }
          else { g with broken := true, first := some x })

/-- Passes white space. -/
def gap (start : Mark) (tabLimit : Int) (broken : Bool) : Lex Gap := do
  gapFrom start tabLimit (← get).bound { broken }

/-! ## Plain scalars -/

/-- A character that structures a flow collection. -/
def isFlowIndicator (c : Char) : Bool := c == ',' || c == '[' || c == ']' || c == '{' || c == '}'

/-- Reads the characters of a plain scalar up to white space or an indicator that ends it. -/
def plainWord (inFlow : Bool) (start : Mark) : Nat → List Char → Lex (List Char)
  | 0, word => pure word.reverse
  | fuel + 1, word => do
    let c ← get
    if c.endsWord 0 then pure word.reverse
    else if inFlow && c.has 0 ':' && (c.at? 1).any fun x => isFlowIndicator x || x == '?' then
      fail "while scanning a plain scalar" start "found unexpected ':'"
    else if (c.has 0 ':' && c.endsWord 1) || (inFlow && c.next isFlowIndicator) then
      pure word.reverse
    else
      skip
      plainWord inFlow start fuel ((c.at? 0).toList ++ word)

/-- Reads the words of a plain scalar. The parts read so far are given last part first. -/
def plainFrom (indent : Int) (inFlow : Bool) (start : Mark) :
    Nat → List (List Char) → Gap → Mark → Lex (List (List Char) × Bool × Mark)
  | 0, parts, g, stop => pure (parts, g.broken, stop)
  | fuel + 1, parts, g, stop => do
    let c ← get
    if c.atAnyDocumentIndicator || c.has 0 '#' then pure (parts, g.broken, stop)
    else
      let word ← plainWord inFlow start c.bound []
      let c ← get
      let (parts, broken, stop) :=
        if word.isEmpty then (parts, g.broken, stop)
        else (word :: g.text :: parts, false, c.mark)
      if !c.next fun x => isBlank x || isBreak x then pure (parts, broken, stop)
      else
        let g ← gap start indent false
        if !inFlow && (← get).mark.column < indent then pure (parts, g.broken, stop)
        else plainFrom indent inFlow start fuel parts g stop

/--
Reads a plain scalar whose lines stand at `indent` or further right: its text, whether it ended
after a line break, and where it ended.
-/
def plain (indent : Int) (inFlow : Bool) : Lex (String × Bool × Mark) := do
  let c ← get
  let (parts, broken, stop) ← plainFrom indent inFlow c.mark (c.bound + 1) [] {} c.mark
  pure (String.ofList parts.reverse.flatten, broken, stop)

/-! ## Quoted scalars -/

/-- The character that an escape of one letter stands for. -/
def escaped? (c : Char) : Option Char :=
  match c with
  | '0' => some '\x00'
  | 'a' => some '\x07'
  | 'b' => some '\x08'
  | 't' => some '\t'
  | '\t' => some '\t'
  | 'n' => some '\n'
  | 'v' => some '\x0b'
  | 'f' => some '\x0c'
  | 'r' => some '\r'
  | 'e' => some '\x1b'
  | ' ' => some ' '
  | '"' => some '"'
  | '/' => some '/'
  | '\\' => some '\\'
  | 'N' => some '\u0085'
  | '_' => some '\u00a0'
  | 'L' => some '\u2028'
  | 'P' => some '\u2029'
  | _ => none

/-- How many hexadecimal digits follow the letter of an escape. -/
def escapeLength? (c : Char) : Option Nat :=
  match c with
  | 'x' => some 2
  | 'u' => some 4
  | 'U' => some 8
  | _ => none

/-- Reads an escape, at its backslash. -/
def escape (start : Mark) : Lex Char := do
  let reading := "while parsing a quoted scalar"
  let c ← get
  match (c.at? 1).bind escaped?, (c.at? 1).bind escapeLength? with
  | some x, _ =>
    skip
    skip
    pure x
  | none, some length =>
    skip
    skip
    let digits := ((← get).rest.take length).filterMap hexValue?
    if digits.length < length then fail reading start "did not find expected hexadecimal number"
    else
      let code := digits.foldl (fun n d => 16 * n + d) 0
      if h : code.isValidChar then
        for _ in digits do skip
        pure (Char.ofNatAux code h)
      else fail reading start "found invalid Unicode character escape code"
  | none, none => fail reading start "found unknown escape character"

/--
Reads the characters of a quoted scalar up to white space or the closing quote, and tells whether
an escaped line break ended them.
-/
def quotedWord (single : Bool) (start : Mark) : Nat → List Char → Lex (List Char × Bool)
  | 0, word => pure (word.reverse, false)
  | fuel + 1, word => do
    let c ← get
    if c.endsWord 0 then pure (word.reverse, false)
    else if single && c.has 0 '\'' && c.has 1 '\'' then
      skip
      skip
      quotedWord single start fuel ('\'' :: word)
    else if c.has 0 (if single then '\'' else '"') then pure (word.reverse, false)
    else if !single && c.has 0 '\\' then
      if (c.at? 1).any isBreak then
        skip
        modify Cursor.skipBreak
        pure (word.reverse, true)
      else
        let x ← escape start
        quotedWord single start fuel (x :: word)
    else
      skip
      quotedWord single start fuel ((c.at? 0).toList ++ word)

/-- Reads a quoted scalar up to its closing quote; the parts read so far are last part first. -/
def quotedFrom (single : Bool) (start : Mark) :
    Nat → List (List Char) → Lex (List (List Char))
  | 0, parts => pure parts
  | fuel + 1, parts => do
    let reading := "while scanning a quoted scalar"
    let c ← get
    if c.atAnyDocumentIndicator then fail reading start "found unexpected document indicator"
    else if c.rest.isEmpty then fail reading start "found unexpected end of stream"
    else
      let (word, broken) ← quotedWord single start c.bound []
      if (← get).has 0 (if single then '\'' else '"') then pure (word :: parts)
      else
        let g ← gap start 0 broken
        quotedFrom single start fuel (g.text :: word :: parts)

/-- Reads a quoted scalar, at its opening quote. -/
def quoted (single : Bool) : Lex String := do
  let c ← get
  skip
  let parts ← quotedFrom single c.mark c.bound []
  skip
  pure (String.ofList parts.reverse.flatten)

/-! ## Block scalars -/

/-- What becomes of the line breaks that end a block scalar. -/
inductive Chomping where
  | strip | clip | keep
  deriving DecidableEq, Repr

/-- Reads a chomping indicator, if there is one. -/
def chomping? : Lex (Option Chomping) := do
  let c ← get
  if c.has 0 '+' then
    skip
    pure (some .keep)
  else if c.has 0 '-' then
    skip
    pure (some .strip)
  else pure none

/-- Reads an indentation indicator, if there is one. -/
def indentation? (start : Mark) : Lex (Option Nat) := do
  let c ← get
  match (c.at? 0).filter Char.isDigit with
  | none => pure none
  | some x =>
    if x == '0' then
      fail "while scanning a block scalar" start "found an indentation indicator equal to 0"
    else
      skip
      pure (some (x.toNat - '0'.toNat))

/-- Reads the indicators of a block scalar, in either order. -/
def blockHeader (start : Mark) : Lex (Chomping × Option Nat) := do
  match ← chomping? with
  | some chomping => pure (chomping, ← indentation? start)
  | none =>
    match ← indentation? start with
    | none => pure (.clip, none)
    | some n => pure ((← chomping?).getD .clip, some n)

/--
Passes indentation and empty lines: the line breaks and the greatest column reached. Without an
indentation given every space counts as indentation.
-/
def blockBreaksFrom (start : Mark) (indent : Option Nat) :
    Nat → List Char → Nat → Lex (List Char × Nat)
  | 0, breaks, deepest => pure (breaks, deepest)
  | fuel + 1, breaks, deepest => do
    let c ← get
    let column := c.mark.column
    let outside := indent.all (column < ·)
    if outside && c.has 0 ' ' then
      skip
      blockBreaksFrom start indent fuel breaks deepest
    else
      let deepest := max deepest column
      if outside && c.has 0 '\t' then
        fail "while scanning a block scalar" start
          "found a tab character where an indentation space is expected"
      else match c.lineBreak? with
        | none => pure (breaks, deepest)
        | some (x, c) =>
          set c
          blockBreaksFrom start indent fuel (breaks ++ [x]) deepest

/-- Passes indentation and empty lines. -/
def blockBreaks (start : Mark) (indent : Option Nat) : Lex (List Char × Nat) := do
  blockBreaksFrom start indent ((← get).bound + 1) [] 0

/-- The lines of a block scalar that have been read. -/
structure BlockText where
  /-- The parts of the text, last part first. -/
  parts : List (List Char) := []
  /-- The line break that ended the last line. -/
  lineBreak : Option Char := none
  /-- The line breaks of empty lines after the last line. -/
  empty : List Char
  /-- Whether the last line began with a blank. -/
  blank : Bool := false

/-- Reads the lines of a block scalar. -/
def blockLines (folded : Bool) (start : Mark) (indent : Nat) : Nat → BlockText → Lex BlockText
  | 0, t => pure t
  | fuel + 1, t => do
    let c ← get
    if c.mark.column != indent || c.rest.isEmpty then pure t
    else
      let blank := c.next isBlank
      let joint :=
        if folded && t.lineBreak == some '\n' && !t.blank && !blank then
          if t.empty.isEmpty then [' '] else []
        else t.lineBreak.toList
      let line ← takeWhile fun x => !isBreak x
      let ended := (← get).lineBreak?
      modify Cursor.skipBreak
      let (empty, _) ← blockBreaks start (some indent)
      blockLines folded start indent fuel
        { parts := line :: t.empty :: joint :: t.parts, lineBreak := ended.map (·.1), empty, blank }

/-- Reads a block scalar, at its indicator, within a block at column `outer`. -/
def block (folded : Bool) (outer : Int) : Lex String := do
  let start := (← get).mark
  skip
  let (chomping, extra) ← blockHeader start
  skipLineEnd
  if !(← get).endsLine then
    fail "while scanning a block scalar" start "did not find expected comment or line break"
  else
    modify Cursor.skipBreak
    let given := extra.map fun n => if 0 ≤ outer then outer.toNat + n else n
    let (empty, deepest) ← blockBreaks start given
    let indent := given.getD (max deepest (max (outer + 1).toNat 1))
    let t ← blockLines folded start indent (← get).bound { empty }
    let parts := match chomping with
      | .strip => t.parts
      | .clip => t.lineBreak.toList :: t.parts
      | .keep => t.empty :: t.lineBreak.toList :: t.parts
    pure (String.ofList parts.reverse.flatten)

end Lex

end Es5.Yaml
