import Es5.Fixture.Block
import Es5.Fixture.FromYaml
import Es5.Text.Position
import Es5.Text.Space
import Es5.Text.Word

/-!
# Fixture sources

A fixture is a source with a license comment, a metadata block, a function `testcase` and a call
that hands that function to the runner.

* `FixtureError`: why a source is no fixture; of several causes the first counts.
* `readMetadata`, `Source.read`: the metadata of a source, and all parts of it, with any reader of
  the text of a block.
* `Source.name`, `Source.id`: how a fixture is named.
-/

namespace Es5.Fixture

open Text

/-- Why a source is no fixture. -/
inductive FixtureError where
  | missingMetadata
  | invalidMetadata (position : Position) (message : String)
  | missingTestCase
  | missingRunnerCall
  deriving DecidableEq, Repr

/-- The wording of an error. -/
def FixtureError.text : FixtureError → String
  | missingMetadata => "no metadata block found"
  | invalidMetadata position message =>
    "invalid metadata at " ++ position.text ++ ": " ++ message
  | missingTestCase => "fixture does not define a testcase function"
  | missingRunnerCall => "fixture never passes testcase to runTestCase"

/-! ## Metadata -/

/-- The metadata of a source. An error is put where its index leads from the start of the block. -/
def readMetadata (source : List Char) (reader : MetadataReader := Metadata.ofYaml) :
    Except FixtureError Metadata :=
  match Block.find? source with
  | none => .error .missingMetadata
  | some block => (reader block.text).mapError fun e =>
      .invalidMetadata (.ofOffset source (byteLength block.before + e.index.getD 0)) e.text

/-! ## The shape of a body -/

/-- What follows a word and some white space at the start of some characters. -/
def afterWord? (word : String) (cs : List Char) : Option (List Char) :=
  (afterMark? word.toList cs).map trimStart

/-- Whether the function `testcase` is defined at the start of some characters. -/
def definesHere (cs : List Char) : Bool :=
  match afterMark? "function".toList cs with
  | some (c :: rest) =>
    isSpace c && ((afterWord? "testcase" (trimStart rest)).bind (afterMark? ['('])).isSome
  | _ => false

/-- Whether `testcase` is handed to the runner at the start of some characters. -/
def callsHere (cs : List Char) : Bool :=
  (do
    let cs ← afterWord? "runTestCase" cs
    let cs ← afterWord? "(" cs
    let cs ← afterWord? "testcase" cs
    afterMark? [')'] cs).isSome

/-- Whether `p` holds where a word may begin, after a character that may belong to a word. -/
def anyWordStart (p : List Char → Bool) : Bool → List Char → Bool
  | inWord, [] => !inWord && p []
  | inWord, c :: cs => (!inWord && p (c :: cs)) || anyWordStart p (isWordChar c) cs

/-- Whether a body defines the function `testcase`. -/
def definesTestCase (body : List Char) : Bool := anyWordStart definesHere false body

/-- Whether a body hands `testcase` to the runner. -/
def callsRunner (body : List Char) : Bool := anyWordStart callsHere false body

/-! ## Sources -/

/-- The parts of a fixture source. -/
structure Source where
  path : String
  /-- The comment lines in front, with line feeds between them. -/
  license : String
  metadata : Metadata
  /-- The source after the metadata block, without white space around it. -/
  body : String
  deriving DecidableEq, Repr

/-- The comment lines that a source begins with. -/
def licenseLines (source : List Char) : List (List Char) :=
  (lines source).takeWhile fun line => ['/', '/'].isPrefixOf (trimStart line)

/-- Reads a fixture source: its metadata, and then its body. -/
def Source.read (path : String) (source : List Char)
    (reader : MetadataReader := Metadata.ofYaml) : Except FixtureError Source := do
  let metadata ← readMetadata source reader
  match Block.find? source with
  | none => .error .missingMetadata
  | some block =>
    if !definesTestCase block.after then .error .missingTestCase
    else if !callsRunner block.after then .error .missingRunnerCall
    else
      return { path, metadata, body := String.ofList (trim block.after),
               license := "\n".intercalate ((licenseLines source).map String.ofList) }

/-! ## Names -/

/-- The name of the file that a path leads to, if it leads to a file. -/
def fileName? (path : List Char) : Option (List Char) :=
  ((path.splitOn '/').filter fun part => part != [] && part != ['.']).getLast?.filter
    (· != ['.', '.'])

/-- A file name without its extension; a point at the start begins none. -/
def stem (name : List Char) : List Char :=
  match (name.reverse.dropWhile (· != '.')).drop 1 with
  | [] => name
  | before => before.reverse

namespace Source

/-- The file name of a fixture without extension. -/
def name (s : Source) : String :=
  ((fileName? s.path.toList).map fun n => String.ofList (stem n)).getD s.path

/-- How a fixture is named: by its section, or else by its file. -/
def id (s : Source) : String := s.metadata.sectionId.getD s.name

/-- What a fixture verifies. -/
def description (s : Source) : String := String.ofList (trim s.metadata.description.toList)

/-- The record of a fixture in a line. -/
def summary (s : Source) : String :=
  "Fixture \x7b id: " ++ quote s.id ++ ", path: " ++ quote s.path ++ ", includes: " ++
    quoteList s.metadata.includes ++ ", .. \x7d"

end Source

end Es5.Fixture
