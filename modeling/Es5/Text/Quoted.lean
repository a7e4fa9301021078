import Es5.Text.Hidden

/-!
# Quoted texts

A text in a record stands in double quotes. A backslash marks what would end or hide it.

* `quoteChar`: a character as it stands in quotes.
* `quote`, `quoteList`: a text in quotes, and several in brackets.
-/

namespace Es5.Text

/-- A code point in lower-case hexadecimal digits. -/
def hexText (n : Nat) : String := String.ofList (Nat.toDigits 16 n)

/-- A character as it stands in quotes. -/
def quoteChar (c : Char) : String :=
  match c with
  | '\x00' => "\\0"
  | '\t' => "\\t"
  | '\n' => "\\n"
  | '\r' => "\\r"
  | '"' => "\\\""
  | '\\' => "\\\\"
  | c => if isHidden c then "\\u\x7b" ++ hexText c.toNat ++ "\x7d" else c.toString

/-- A text in quotes. -/
def quote (s : String) : String := "\"" ++ String.join (s.toList.map quoteChar) ++ "\""

/-- Texts in quotes, with commas between them, in brackets. -/
def quoteList (ss : List String) : String := "[" ++ ", ".intercalate (ss.map quote) ++ "]"

end Es5.Text
