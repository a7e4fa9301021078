import Es5.Program
import Es5.Yaml.Decode
import Es5.Yaml.Written

/-!
# Outcomes

* `Outcome`: a test case passes, or fails for a reason.
* `Outcome.ofCompletion`: the outcome of a test case that ended in some way.
* `Outcome.decode`, `Outcome.written`: outcomes in YAML.
-/

namespace Es5.Harness

/-- The result of a test case. -/
inductive Outcome where
  | pass
  | fail (reason : String)
  deriving DecidableEq, Repr

namespace Outcome

/-- The reason of a failure. -/
def reason? : Outcome → Option String
  | pass => none
  | fail reason => some reason

/-- The wording of an outcome. -/
def text : Outcome → String
  | pass => "PASS"
  | fail reason => "FAIL: " ++ reason

/-- The failure of a test case that threw. -/
def threw (message : String) : Outcome := fail ("test case threw: " ++ message)

/-- The outcome of a test case by how it ended; a value passes if it counts as true. -/
def ofCompletion : Completion → Outcome
  | .returned v => if v.toBoolean then pass else fail "test case returned false"
  | .threw e => threw e.text
  | .crashed (.message text) => threw text
  | .crashed .other => threw "unknown panic payload"

/-! ## In YAML -/

open Yaml

/-- The names of the outcomes. -/
def names : List String := ["Pass", "Fail"]

/-- The tag of an item that may have one. -/
def tag? : Item → Option Tag
  | .scalar tag _ _ => tag
  | .sequenceStart tag => tag
  | .mappingStart tag => tag
  | _ => none

/-- Reads nothing, where the name of an outcome has been given by a tag. -/
def decodeUnit : Decode Unit := Decode.part fun item =>
  match item with
  | .void => pure ()
  | .scalar _ s style =>
    if style = .plain && (s.isEmpty || isNullText s) then pure ()
    else Decode.fail (.value (Decode.textText s) "null")
  | item => Decode.failAt "unit" item

/-- Reads an outcome whose name a tag gives. -/
def decodeTagged (name : String) : Decode Outcome :=
  match name with
  | "Pass" => do
    decodeUnit
    pure pass
  | "Fail" => return fail (← Decode.text)
  | name => Decode.fail (.unknownVariant name names)

/-- Reads an outcome that is a name alone. -/
def decodeName : Decode Outcome := do
  let i ← Decode.peek
  let name ← Decode.part fun
    | .scalar _ s _ =>
      if names.contains s then pure s else Decode.fail (.unknownVariant s names)
    | item => Decode.failAt "variant identifier" item
  Decode.located i.mark
    (if name = "Pass" then pure pass else Decode.fail (.type "unit variant" "newtype variant"))

/-- Reads an outcome: the name `Pass`, or a text with the tag `!Fail`. -/
def decode : Decode Outcome := do
  let i ← Decode.peek
  let wanted := "a YAML tag starting with '!'"
  match (tag? i.item).bind Tag.name?, i.item with
  | some name, _ => decodeTagged name
  | none, .sequenceStart _ => Decode.located i.mark (Decode.fail (.type "sequence" wanted))
  | none, .mappingStart _ => Decode.located i.mark (Decode.fail (.type "map" wanted))
  | none, .scalar .. => decodeName
  | none, _ => throw (.failure .endOfStream)

/-- The YAML text of an outcome. -/
def written : Outcome → String
  | pass => writeDocument none "Pass"
  | fail reason => writeDocument (some "Fail") reason

end Outcome

end Es5.Harness
