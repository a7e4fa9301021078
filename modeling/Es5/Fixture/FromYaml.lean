import Es5.Fixture.Metadata
import Es5.Yaml.Decode

/-!
# Metadata in YAML

Blocks are written in YAML, as a mapping of the fields.

* `Negative.decode`, `Metadata.decode`: how the fields are read.
* `Metadata.ofYaml`: the reader of metadata.
-/

namespace Es5.Fixture

open Yaml

/-- Reads the error that a fixture expects. -/
def Negative.decode : Decode Negative :=
  Decode.record "struct NegativeExpectation" ["phase", "type"] ⟨"", ""⟩ fun name =>
    match name with
    | "phase" => some fun n => return { n with phase := ← Decode.text }
    | "type" => some fun n => return { n with errorType := ← Decode.text }
    | _ => none

namespace Metadata

/-- The reader of a field. -/
def field (name : String) : Option (Metadata → Decode Metadata) :=
  let texts := Decode.list Decode.text
  let text? := Decode.optional Decode.text
  match name with
  | "description" => some fun m => return { m with description := ← Decode.text }
  | "info" => some fun m => return { m with info := ← text? }
  | "negative" => some fun m => return { m with negative := ← Decode.optional Negative.decode }
  | "includes" => some fun m => return { m with includes := ← texts }
  | "flags" => some fun m => return { m with flags := (← texts).eraseDups }
  | "features" => some fun m => return { m with features := ← texts }
  | "es5id" => some fun m => return { m with es5id := ← text? }
  | "es6id" => some fun m => return { m with es6id := ← text? }
  | "esid" => some fun m => return { m with esid := ← text? }
  | "author" => some fun m => return { m with author := ← text? }
  | _ => none

/-- Reads metadata. -/
def decode : Decode Metadata := Decode.record "struct FixtureMetadata" [] {} field

/-- Reads metadata in YAML. An error is found at the index of its mark. -/
def ofYaml : MetadataReader := fun text =>
  (decodeText decode text).mapError fun e => ⟨e.mark?.map (·.index), e.text⟩

end Metadata

end Es5.Fixture
