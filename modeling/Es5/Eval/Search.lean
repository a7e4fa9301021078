import Es5.Eval.Conversion

/-!
# Searching for an element

The searches work on any object with a length. The length is read first, then the index to start
from is converted, and only then are elements read, so a change that the conversion makes is seen.

* `Eval.indexOf`: the least index of an element, from a start on.
* `Eval.lastIndexOf`: the greatest index of an element, down from a start.
* `forwardStart?`, `backwardCount`: where the searches start.
-/

namespace Es5

/-- The index to search forward from, or `none` past the end; negative ones count from the end. -/
def forwardStart? (length : Nat) (x : Double) : Option Nat :=
  let n := x.toInt (length + 1)
  if (length : Int) ≤ n then none
  else if 0 ≤ n then some n.toNat
  else some (length + n).toNat

/-- How many indices, counted from zero, a search backward covers. -/
def backwardCount (length : Nat) (x : Double) : Nat :=
  let n := x.toInt (length + 1)
  if 0 ≤ n then min (n.toNat + 1) length else (length + n + 1).toNat

namespace Eval

variable {κ σ : Type} (caller : Caller κ σ)

/-- Whether the object has an element at an index that strictly equals the one searched for. -/
def holdsAt (o search : Value) (index : Nat) : Eval κ σ Bool := do
  let key := indexKey index
  if ← look (·.hasProperty o key) then return search.strictEquals (← get caller o key)
  else return false

/-- Searches `count` indices upward from `index`. -/
def searchUp (o search : Value) : Nat → Nat → Eval κ σ Int
  | _, 0 => pure (-1)
  | index, count + 1 => do
    if ← holdsAt caller o search index then pure index else searchUp o search (index + 1) count

/-- Searches downward all indices below `count`. -/
def searchDown (o search : Value) : Nat → Eval κ σ Int
  | 0 => pure (-1)
  | index + 1 => do
    if ← holdsAt caller o search index then pure index else searchDown o search index

/-- The object to search and its length. -/
def searched (v : Value) : Eval κ σ (Value × Nat) := do
  let o ← toObject v
  let length ← toUint32 caller (← get caller o "length")
  pure (o, length)

/-- The least index from the start on that holds an element, or `-1`. -/
def indexOf (v search : Value) (fromIndex : Option Value) : Eval κ σ Int := do
  let (o, length) ← searched caller v
  if length = 0 then pure (-1)
  else
    let x ← match fromIndex with
      | some i => toInteger caller i
      | none => pure .zero
    match forwardStart? length x with
    | none => pure (-1)
    | some start => searchUp caller o search start (length - start)

/-- The greatest index down from the start that holds an element, or `-1`. -/
def lastIndexOf (v search : Value) (fromIndex : Option Value) : Eval κ σ Int := do
  let (o, length) ← searched caller v
  if length = 0 then pure (-1)
  else
    let x ← match fromIndex with
      | some i => toInteger caller i
      | none => pure (.ofNat (length - 1))
    searchDown caller o search (backwardCount length x)

end Eval

end Es5
