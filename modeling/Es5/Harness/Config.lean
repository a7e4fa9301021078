import Es5.Yaml.Decode

/-!
# Settings

* `Config`: the settings of a harness.
* `Config.decode`: settings in YAML, where what is missing keeps its default.
-/

namespace Es5.Harness

/-- The settings of a harness. -/
structure Config where
  /-- Whether a name that is not resolved keeps a fixture from running. -/
  strictIncludes : Bool := true
  /-- Names that the host provides besides those of the resolver. -/
  extraIncludes : List String := []
  deriving DecidableEq, Repr

open Yaml

/-- The reader of a field. -/
def Config.field (name : String) : Option (Config → Decode Config) :=
  match name with
  | "strict_includes" => some fun c => return { c with strictIncludes := ← Decode.boolean }
  | "extra_includes" => some fun c =>
    return { c with extraIncludes := ← Decode.list Decode.text }
  | _ => none

/-- Reads settings. -/
def Config.decode : Decode Config := Decode.record "struct HarnessConfig" [] {} Config.field

end Es5.Harness
