/-!
# Metadata

What a fixture says about itself. Any field may be missing.

* `Negative`: the error that a fixture expects.
* `Metadata`: the fields.
* `Metadata.sectionId`, `Metadata.declares`, `Metadata.isStrictOnly`: what follows from them.
* `MetadataError`, `MetadataReader`: readers of metadata, and why a text is none.
-/

namespace Es5.Fixture

/-- The error that a fixture expects. -/
structure Negative where
  phase : String
  errorType : String
  deriving DecidableEq, Repr

/-- What a fixture says about itself. Flags are a set, given in any order. -/
structure Metadata where
  description : String := ""
  info : Option String := none
  negative : Option Negative := none
  includes : List String := []
  flags : List String := []
  features : List String := []
  es5id : Option String := none
  es6id : Option String := none
  esid : Option String := none
  author : Option String := none
  deriving DecidableEq, Repr

namespace Metadata

/-- The most specific section that a fixture names. -/
def sectionId (m : Metadata) : Option String := m.esid <|> m.es6id <|> m.es5id

/-- Whether a fixture names a file to be included. -/
def declares (m : Metadata) (name : String) : Bool := m.includes.contains name

/-- Whether a fixture must only run in strict mode. -/
def isStrictOnly (m : Metadata) : Bool := m.flags.contains "onlyStrict"

end Metadata

/-! ## Readers -/

/-- Why a text is no metadata. -/
structure MetadataError where
  /-- Where in the text reading went wrong, if that can be told. -/
  index : Option Nat
  text : String
  deriving DecidableEq, Repr

/-- A reader of metadata, for any language in which a block may be written. -/
abbrev MetadataReader := List Char → Except MetadataError Metadata

end Es5.Fixture
