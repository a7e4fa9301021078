import Es5.Yaml.Cursor
import Es5.Yaml.Scalar

/-!
# Writing scalars

A text is written plainly if that reads back as the same text, and else in the first of single
quotes and double quotes that can hold it. A text with line feeds is written line by line, unless
blanks or hidden characters make that ambiguous.

* `Traits`: what in a text bears on how it can be written.
* `Style.of`: how a text is written.
* `writeDocument`: a document that holds a text and perhaps a tag of its own.
-/

namespace Es5.Yaml

/-! ## Traits of texts -/

/-- A character that may be written as it is. -/
def isPrintable (c : Char) : Bool :=
  let n := c.toNat
  n == 0xA || (0x20 ≤ n && n ≤ 0x7E) || (0xA0 ≤ n && n ≤ 0xFFFD && n != 0xFEFF) ||
    0x10000 ≤ n

/-- A blank, a line break or the end. -/
def isGap (c : Option Char) : Bool := c.all fun x => isBlank x || isBreak x

/-- What in a text bears on how it can be written. -/
structure Traits where
  /-- An indicator that a plain scalar may not hold here. -/
  indicator : Bool := false
  lineBreak : Bool := false
  hidden : Bool := false
  /-- A space after a line break. -/
  breakSpace : Bool := false
  /-- A line break after a space. -/
  spaceBreak : Bool := false

/-- An indicator that no plain scalar may begin with. -/
def isLeadingIndicator (c : Char) : Bool :=
  ['#', ',', '[', ']', '{', '}', '&', '*', '!', '|', '>', '\'', '"', '%', '@', '\x60'].contains c

/-- Whether a character is an indicator, between the characters in front of and after it. -/
def isIndicatorAt (before : Option Char) (c : Char) (after : Option Char) : Bool :=
  if before.isNone then
    isLeadingIndicator c || ((c == '?' || c == ':' || c == '-') && isGap after)
  else (c == ':' && isGap after) || (c == '#' && isGap before)

/-- The traits of characters, after a character. -/
def traitsFrom : Option Char → List Char → Traits → Traits
  | _, [], t => t
  | before, c :: cs, t =>
    traitsFrom (some c) cs
      { indicator := t.indicator || isIndicatorAt before c cs.head?
        lineBreak := t.lineBreak || isBreak c
        hidden := t.hidden || !isPrintable c
        breakSpace := t.breakSpace || (c == ' ' && before.any isBreak)
        spaceBreak := t.spaceBreak || (isBreak c && before == some ' ') }

/-- The traits of a text. -/
def traits (cs : List Char) : Traits :=
  traitsFrom none cs
    { indicator := "---".toList.isPrefixOf cs || "...".toList.isPrefixOf cs }

/-! ## Styles -/

/-- How a text is written. -/
inductive Style where
  | plain | singleQuoted | doubleQuoted | literal
  deriving DecidableEq, Repr

/-- Whether a plain scalar could be read as something else than a text. -/
def isAmbiguous (s : String) : Bool :=
  match ScalarValue.ofText s with
  | .text _ => isZeroPadded s.toList
  | _ => true

/-- A space or a line break. -/
def isSpaceOrBreak (c : Char) : Bool := c == ' ' || isBreak c

/-- Whether a text can be written without quotes. -/
def allowsPlain (cs : List Char) (t : Traits) : Bool :=
  !(cs.head?.any isSpaceOrBreak || cs.getLast?.any isSpaceOrBreak || t.breakSpace || t.spaceBreak ||
    t.hidden || t.lineBreak || t.indicator)

/-- How a text is written. -/
def Style.of (s : String) : Style :=
  let cs := s.toList
  let t := traits cs
  let quoted : Style :=
    if t.breakSpace || t.spaceBreak || t.hidden then .doubleQuoted else .singleQuoted
  if cs.contains '\n' then
    if cs.getLast? == some ' ' || t.spaceBreak || t.hidden then .doubleQuoted else .literal
  else if isAmbiguous s || !allowsPlain cs t then quoted
  else .plain

/-! ## Texts in each style -/

/-- The column of the text of a scalar in its own lines. -/
def textIndent : List Char := [' ', ' ']

/-- The lines of a text in single quotes, after a line break or not. -/
def singleQuotedFrom : Bool → List Char → List Char
  | broken, [] => if broken then textIndent else []
  | broken, c :: cs =>
    if isBreak c then
      (if !broken && c == '\n' then ['\n'] else []) ++ c :: singleQuotedFrom true cs
    else if c == ' ' then c :: singleQuotedFrom broken cs
    else (if broken then textIndent else []) ++ (if c == '\'' then [c, c] else [c]) ++
      singleQuotedFrom false cs

/-- Upper-case hexadecimal digits, padded to a width. -/
def hexPadded (width n : Nat) : List Char :=
  let digits := (Nat.toDigits 16 n).map Char.toUpper
  List.replicate (width - digits.length) '0' ++ digits

/-- The letter that escapes a character. -/
def escapeLetter? (c : Char) : Option Char :=
  match c with
  | '\x00' => some '0'
  | '\x07' => some 'a'
  | '\x08' => some 'b'
  | '\t' => some 't'
  | '\n' => some 'n'
  | '\x0b' => some 'v'
  | '\x0c' => some 'f'
  | '\r' => some 'r'
  | '\x1b' => some 'e'
  | '"' => some '"'
  | '\\' => some '\\'
  | '\u0085' => some 'N'
  | '\u00a0' => some '_'
  | '\u2028' => some 'L'
  | '\u2029' => some 'P'
  | _ => none

/-- A character in double quotes. -/
def doubleQuotedChar (c : Char) : List Char :=
  if isPrintable c && !isBreak c && c != '"' && c != '\\' then [c]
  else match escapeLetter? c with
    | some letter => ['\\', letter]
    | none =>
      let n := c.toNat
      if n ≤ 0xFF then '\\' :: 'x' :: hexPadded 2 n
      else if n ≤ 0xFFFF then '\\' :: 'u' :: hexPadded 4 n
      else '\\' :: 'U' :: hexPadded 8 n

/-- The header of a text that is written line by line. -/
def literalHeader (cs : List Char) : List Char :=
  let indent := if cs.head?.any isSpaceOrBreak then ['2'] else []
  let chomping := match cs.reverse with
    | [] => ['-']
    | [x] => if isBreak x then ['+'] else ['-']
    | x :: y :: _ => if !isBreak x then ['-'] else if isBreak y then ['+'] else []
  '|' :: indent ++ chomping

/-- The lines of a text, after a line break or not. -/
def literalFrom : Bool → List Char → List Char
  | _, [] => []
  | broken, c :: cs =>
    if isBreak c then c :: literalFrom true cs
    else (if broken then textIndent else []) ++ c :: literalFrom false cs

/-- A text as it is written. -/
def writeText (s : String) : List Char :=
  let cs := s.toList
  match Style.of s with
  | .plain => cs
  | .singleQuoted => '\'' :: singleQuotedFrom false cs ++ ['\'']
  | .doubleQuoted => '"' :: cs.flatMap doubleQuotedChar ++ ['"']
  | .literal => literalHeader cs ++ '\n' :: literalFrom true cs

/-- A document that holds a text and perhaps a tag of its own. It ends with a line break. -/
def writeDocument (tag : Option String) (s : String) : String :=
  let content := (match tag with
    | some name => '!' :: name.toList ++ [' ']
    | none => []) ++ writeText s
  String.ofList (if content.getLast?.any isBreak then content else content ++ ['\n'])

end Es5.Yaml
