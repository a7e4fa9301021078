import Es5.Yaml.Mark
import Es5.Yaml.Tag

/-!
# Tokens

The words of a YAML text, among them the ends of blocks, which indentation alone marks.

* `ScalarStyle`: how a scalar is written.
* `TokenKind`, `Token`: a word, and a word in its place.
-/

namespace Es5.Yaml

/-- How a scalar is written. -/
inductive ScalarStyle where
  | plain | singleQuoted | doubleQuoted | literal | folded
  deriving DecidableEq, Repr

/-- A word of a text. -/
inductive TokenKind where
  | streamStart
  | streamEnd
  | versionDirective (major minor : Nat)
  | tagDirective (handle : String) (expansion : Tag)
  | documentStart
  | documentEnd
  | blockSequenceStart
  | blockMappingStart
  | blockEnd
  | flowSequenceStart
  | flowSequenceEnd
  | flowMappingStart
  | flowMappingEnd
  | blockEntry
  | flowEntry
  | key
  | value
  | alias (name : String)
  | anchor (name : String)
  | tag (handle : String) (suffix : Tag)
  | scalar (text : String) (style : ScalarStyle)
  deriving DecidableEq, Repr

/-- A word in its place. -/
structure Token where
  kind : TokenKind
  start : Mark
  stop : Mark
  deriving Repr

end Es5.Yaml
