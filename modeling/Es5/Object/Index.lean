/-!
# Array indices

A key that spells a natural below `2 ^ 32 - 1` in decimal, with no sign and no leading zero, is an
array index.

* `indexKey`: the key of an index.
* `arrayIndex?`: the index that a key spells.
-/

namespace Es5

/-- The length that no array exceeds, which is also the first natural that is no index. -/
def maxLength : Nat := Nat.pow 2 32 - 1

/-- The key of an index. -/
def indexKey (i : Nat) : String := String.ofList (Nat.toDigits 10 i)

/-- The natural that a list of decimal digits spells. -/
def spelled (cs : List Char) : Nat := cs.foldl (fun n c => 10 * n + (c.toNat - '0'.toNat)) 0

/-- The index that a key spells. No index has more than ten digits. -/
def arrayIndex? (key : String) : Option Nat :=
  let cs := key.toList
  if cs.length ≤ 10 && cs.all Char.isDigit then
    let i := spelled cs
    if i < maxLength && indexKey i == key then some i else none
  else none

end Es5
