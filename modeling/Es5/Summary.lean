import Es5.Number.Format
import Es5.Object.Record
import Es5.Text.Quoted

/-!
# Values and objects in a line

For people who read records. Objects may be cyclic, so a value that is an object shows its class
and nothing that it holds.

* `Value.summary`: a value, given the class of an object.
* `ObjectRecord.summary`: the class, keys and flags of an object.
-/

namespace Es5

/-- The name of a truth value. -/
def truthText (b : Bool) : String := if b then "true" else "false"

/-- A value in a line. -/
def Value.summary (kind : Option ObjectClass) : Value → String
  | undefined => "Undefined"
  | null => "Null"
  | boolean b => "Boolean(" ++ truthText b ++ ")"
  | number x => "Number(" ++ x.write .record ++ ")"
  | string s => "String(" ++ Text.quote s ++ ")"
  | object _ => "Object([" ++ (kind.map (·.name)).getD "" ++ "] @)"

/-- An object in a line. -/
def ObjectRecord.summary {κ : Type} (o : ObjectRecord κ) : String :=
  "ObjectData \x7b class: " ++ Text.quote o.kind.name ++ ", keys: " ++
    Text.quoteList o.properties.keys ++ ", extensible: " ++ truthText o.extensible ++
    ", callable: " ++ truthText o.call.isSome ++ " \x7d"

end Es5
