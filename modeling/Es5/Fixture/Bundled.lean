import Es5.Fixture.Source
import Es5.Step

/-!
# Bundled fixtures

Two fixtures with their sources and with programs that do what the test cases in these sources do.
Each program makes a realm of its own.

* `Bundled`: a path, a source and a test case.
* `bundled`: the fixtures.
-/

namespace Es5.Fixture

/-- A fixture that needs no file. -/
structure Bundled (σ : Type) where
  path : String
  source : String
  testCase : Program σ

/-- A text of whole lines. -/
def ofLines (lines : List String) : String := String.join (lines.map (· ++ "\n"))

/-- The number of an integer. -/
def numberValue (i : Int) : Value := .number (.ofInt i)

variable {σ : Type}

/-! ## A property added while the start index is converted -/

/-- The source of the search for an element that is added late. -/
def lateElementSource : String := ofLines
  [ "// Copyright (c) 2012 Ecma International.  All rights reserved.",
    "// Ecma International makes this code available under the terms and conditions set",
    "// forth on http://hg.ecmascript.org/tests/test262/raw-file/tip/LICENSE (the",
    "// \"Use Terms\").   Any redistribution of this code must retain the above",
    "// copyright and this notice and otherwise comply with the Use Terms.",
    "",
    "/*---",
    "es5id: 15.4.4.14-9-a-2",
    "description: >",
    "    Array.prototype.indexOf - added properties in step 5 are visible",
    "    here on an Array-like object",
    "includes: [runTestCase.js]",
    "---*/",
    "",
    "function testcase() \x7b",
    "",
    "        var arr = \x7b length: 30 \x7d;",
    "        var targetObj = function () \x7b \x7d;",
    "",
    "        var fromIndex = \x7b",
    "            valueOf: function () \x7b",
    "                arr[4] = targetObj;",
    "                return 3;",
    "            \x7d",
    "        \x7d;",
    "        ",
    "        return 4 === Array.prototype.indexOf.call(arr, targetObj, fromIndex);",
    "    \x7d",
    "runTestCase(testcase);" ]

/-- Searches for an element that the conversion of the start index adds. -/
def lateElementCase : Program σ := Step.toProgram do
  let realm ← Step.perform .newRealm
  let newObject := Step.perform (.newObject (some realm.objectPrototype))
  let newFunction := Step.function (some realm.functionPrototype)
  let put (v : Value) (key : String) (value : Value) := Step.perform (.put v key value false)
  let o ← newObject
  put o "length" (numberValue 30)
  let target ← newFunction fun _ _ => .done .undefined
  let start ← newObject
  let convert ← newFunction fun _ _ => Step.toProgram do
    put o "4" target
    pure (numberValue 3)
  put start "valueOf" convert
  let search ← Step.perform (.get realm.arrayPrototype "indexOf")
  let found : Value ← Step.perform (.call search o [target, start])
  pure (.boolean (found.strictEquals (numberValue 4)))

/-! ## A configurable property of an object that is not extensible -/

/-- The source of the test of an object that is not frozen. -/
def notFrozenSource : String := ofLines
  [ "// Copyright (c) 2012 Ecma International.  All rights reserved.",
    "// Ecma International makes this code available under the terms and conditions set",
    "// forth on http://hg.ecmascript.org/tests/test262/raw-file/tip/LICENSE (the",
    "// \"Use Terms\").   Any redistribution of this code must retain the above",
    "// copyright and this notice and otherwise comply with the Use Terms.",
    "",
    "/*---",
    "es5id: 15.2.3.12-2-c-1",
    "description: >",
    "    Object.isFrozen returns false if 'O' contains own configurable",
    "    data property",
    "includes: [runTestCase.js]",
    "---*/",
    "",
    "function testcase() \x7b",
    "",
    "        var obj = \x7b\x7d;",
    "        Object.defineProperty(obj, \"foo\", \x7b",
    "            value: 20,",
    "            writable: false,",
    "            configurable: true",
    "        \x7d);",
    "",
    "        Object.preventExtensions(obj);",
    "        return !Object.isFrozen(obj);",
    "",
    "    \x7d",
    "runTestCase(testcase);" ]

/-- Asks whether an object with a configurable property is frozen. -/
def notFrozenCase : Program σ := Step.toProgram do
  let realm ← Step.perform .newRealm
  let newObject := Step.perform (.newObject (some realm.objectPrototype))
  let put (v : Value) (key : String) (value : Value) := Step.perform (.put v key value false)
  let invoke (name : String) (args : List Value) :=
    Step.perform (.invoke realm.objectConstructor name args)
  let o ← newObject
  let attributes ← newObject
  put attributes "value" (numberValue 20)
  put attributes "writable" (.boolean false)
  put attributes "configurable" (.boolean true)
  let _ ← invoke "defineProperty" [o, .string "foo", attributes]
  let _ ← invoke "preventExtensions" [o]
  let frozen : Value ← invoke "isFrozen" [o]
  pure (.boolean !frozen.toBoolean)

/-! ## All of them -/

/-- The fixtures. -/
def bundled : List (Bundled σ) :=
  [⟨"built-ins/Array/prototype/indexOf/15.4.4.14-9-a-2.js", lateElementSource, lateElementCase⟩,
    ⟨"built-ins/Object/isFrozen/15.2.3.12-2-c-1.js", notFrozenSource, notFrozenCase⟩]

end Es5.Fixture
