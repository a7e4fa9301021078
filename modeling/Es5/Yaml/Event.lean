import Es5.Yaml.Token

/-!
# Events

The structure of a YAML text as a sequence of events: scalars and aliases, and the starts and ends
of collections.

* `Event`, `Placed`: an event, and an event in its place.
-/

namespace Es5.Yaml

/-- An event. -/
inductive Event where
  | streamStart
  | streamEnd
  | documentStart
  | documentEnd
  | alias (name : String)
  | scalar (anchor : Option String) (tag : Option Tag) (text : String) (style : ScalarStyle)
  | sequenceStart (anchor : Option String) (tag : Option Tag)
  | sequenceEnd
  | mappingStart (anchor : Option String) (tag : Option Tag)
  | mappingEnd
  deriving DecidableEq, Repr

/-- An event in its place. -/
structure Placed where
  event : Event
  mark : Mark
  deriving Repr

end Es5.Yaml
