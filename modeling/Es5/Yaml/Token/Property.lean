import Es5.Yaml.Cursor
import Es5.Yaml.Token

/-!
# Directives, anchors and tags

* `Lex.directive`: a line that sets the version or the meaning of a tag handle.
* `Lex.anchorName`: the name of an anchor or an alias.
* `Lex.tag`: a tag, as a handle and what follows it.
-/

namespace Es5.Yaml.Lex

/-! ## Tags -/

/-- A character of a tag, apart from names and, in brackets, from flow indicators. -/
def isTagMark (c : Char) : Bool :=
  [';', '/', '?', ':', '@', '&', '=', '+', '$', '.', '%', '!', '~', '*', '\'', '(', ')'].contains c

/-- A character of a tag; in brackets flow indicators belong to it too. -/
def isTagChar (bracketed : Bool) (c : Char) : Bool :=
  isName c || isTagMark c || (bracketed && (c == ',' || c == '[' || c == ']'))

/-- How many octets a character takes whose first octet is given. -/
def octetCount? (octet : Nat) : Option Nat :=
  if octet < 0x80 then some 1
  else if octet / 32 = 6 then some 2
  else if octet / 16 = 14 then some 3
  else if octet / 8 = 30 then some 4
  else none

/-- Reads an octet written as a percent sign and two hexadecimal digits. -/
def escapedOctet (reading : String) (start : Mark) : Lex Nat := do
  let c ← get
  match c.has 0 '%', (c.at? 1).bind hexValue?, (c.at? 2).bind hexValue? with
  | true, some high, some low =>
    skip
    skip
    skip
    pure (16 * high + low)
  | _, _, _ => fail reading start "did not find URI escaped octet"

/-- Reads the further octets of a character. -/
def trailingOctets (reading : String) (start : Mark) : Nat → Nat → Lex Nat
  | 0, code => pure code
  | count + 1, code => do
    let before ← get
    let octet ← escapedOctet reading start
    if octet / 64 = 2 then trailingOctets reading start count (64 * code + octet % 64)
    else
      set before
      fail reading start "found an incorrect trailing UTF-8 octet"

/-- The character of a code that octets spell; each code has only one length. -/
def charOfOctets? (count code : Nat) : Option Char :=
  if code.isValidChar && (Char.ofNat code).utf8Size == count then some (Char.ofNat code) else none

/-- Reads a character written as octets, which may spell none. -/
def escapedChar (reading : String) (start : Mark) : Lex (Option Char) := do
  let before ← get
  let octet ← escapedOctet reading start
  match octetCount? octet with
  | none =>
    set before
    fail reading start "found an incorrect leading UTF-8 octet"
  | some 1 => pure (charOfOctets? 1 octet)
  | some count =>
    let code ← trailingOctets reading start (count - 1) (octet % Nat.pow 2 (7 - count))
    pure (charOfOctets? count code)

/-- Reads the characters of a tag. -/
def tagChars (bracketed : Bool) (reading : String) (start : Mark) :
    Nat → List (Option Char) → Lex (List (Option Char))
  | 0, taken => pure taken.reverse
  | fuel + 1, taken => do
    let c ← get
    match (c.at? 0).filter (isTagChar bracketed) with
    | none => pure taken.reverse
    | some '%' =>
      let x ← escapedChar reading start
      tagChars bracketed reading start fuel (x :: taken)
    | some x =>
      skip
      tagChars bracketed reading start fuel (some x :: taken)

/-- Reads the characters of a tag, of which there must be one unless `head` is not empty. -/
def tagText (bracketed : Bool) (reading : String) (start : Mark) (head : List Char) :
    Lex Tag := do
  let taken ← tagChars bracketed reading start (← get).bound []
  if head.isEmpty && taken.isEmpty then fail reading start "did not find expected tag URI"
  else pure (Tag.ended ⟨(head.drop 1).map some ++ taken⟩)

/-- Reads what may be a tag handle: an exclamation mark, a name and perhaps another mark. -/
def tagHandle (reading : String) (start : Mark) : Lex (List Char) := do
  if !(← get).has 0 '!' then fail reading start "did not find expected '!'"
  else
    skip
    let name ← takeWhile isName
    if (← get).has 0 '!' then
      skip
      pure ('!' :: name ++ ['!'])
    else pure ('!' :: name)

/-- Reads the handle and the rest of a tag that is not in brackets. -/
def shortTag (start : Mark) : Lex (List Char × Tag) := do
  let reading := "while parsing a tag"
  let head ← tagHandle "while scanning a tag" start
  if 1 < head.length && head.getLast? == some '!' then
    pure (head, ← tagText false reading start [])
  else
    let rest ← tagText false reading start head
    pure (if rest.isEmpty then ([], .ofString "!") else (['!'], rest))

/-- Reads a tag, at its exclamation mark. -/
def tag (inFlow : Bool) : Lex (String × Tag) := do
  let reading := "while scanning a tag"
  let c ← get
  let start := c.mark
  let (handle, rest) ←
    if c.has 1 '<' then
      skip
      skip
      let rest ← tagText true "while parsing a tag" start []
      if (← get).has 0 '>' then
        skip
        pure ([], rest)
      else fail reading start "did not find the expected '>'"
    else shortTag start
  let c ← get
  if c.endsWord 0 || (inFlow && c.has 0 ',') then
    pure (String.ofList handle, rest)
  else fail reading start "did not find expected whitespace or line break"

/-! ## Anchors -/

/-- Whether the cursor stands where the name of an anchor may end. -/
def endsAnchor (c : Cursor) : Bool :=
  c.endsWord 0 || c.next fun x => ['?', ':', ',', ']', '}', '%', '@', '\x60'].contains x

/-- Reads the name of an anchor or an alias, at its indicator. -/
def anchorName (reading : String) : Lex String := do
  let start := (← get).mark
  skip
  let name ← takeWhile isName
  if name.isEmpty || !endsAnchor (← get) then
    fail reading start "did not find expected alphabetic or numeric character"
  else pure (String.ofList name)

/-! ## Directives -/

/-- Reads one number of a version. -/
def versionNumber (start : Mark) : Lex Nat := do
  let reading := "while scanning a %YAML directive"
  let c ← get
  let digits ← takeWhile Char.isDigit
  if 9 < digits.length then
    set { c with mark := { c.mark with index := c.mark.index + 9, column := c.mark.column + 9 } }
    fail reading start "found extremely long version number"
  else if digits.isEmpty then fail reading start "did not find expected version number"
  else pure (digits.foldl (fun n d => 10 * n + (d.toNat - '0'.toNat)) 0)

/-- Reads a version. -/
def version (start : Mark) : Lex TokenKind := do
  let _ ← takeWhile isBlank
  let major ← versionNumber start
  if (← get).has 0 '.' then
    skip
    pure (.versionDirective major (← versionNumber start))
  else
    fail "while scanning a %YAML directive" start "did not find expected digit or '.' character"

/-- Reads the meaning of a tag handle. -/
def tagMeaning (start : Mark) : Lex TokenKind := do
  let reading := "while scanning a %TAG directive"
  let _ ← takeWhile isBlank
  let handle ← tagHandle "while scanning a tag directive" start
  if handle.length != 1 && handle.getLast? != some '!' then
    fail "while parsing a tag directive" start "did not find expected '!'"
  else if !(← get).next isBlank then fail reading start "did not find expected whitespace"
  else
    let _ ← takeWhile isBlank
    let meaning ← tagText true "while parsing a %TAG directive" start []
    if (← get).endsWord 0 then
      pure (.tagDirective (String.ofList handle) meaning)
    else fail reading start "did not find expected whitespace or line break"

/-- Reads the name of a directive. -/
def directiveName (start : Mark) : Lex String := do
  let reading := "while scanning a directive"
  let name ← takeWhile isName
  if name.isEmpty then fail reading start "could not find expected directive name"
  else if !(← get).endsWord 0 then
    fail reading start "found unexpected non-alphabetical character"
  else pure (String.ofList name)

/-- Reads a directive and the rest of its line, at the percent sign; also where it ended. -/
def directive : Lex (TokenKind × Mark) := do
  let reading := "while scanning a directive"
  let start := (← get).mark
  skip
  let name ← directiveName start
  let kind ←
    if name = "YAML" then version start
    else if name = "TAG" then tagMeaning start
    else fail reading start "found unknown directive name"
  let stop := (← get).mark
  skipLineEnd
  if !(← get).endsLine then
    fail reading start "did not find expected comment or line break"
  else
    modify Cursor.skipBreak
    pure (kind, stop)

end Es5.Yaml.Lex
