/-!
# Classes of characters as runs

A class of characters is written as the lengths of runs of code points, in order from zero: first
a run outside the class, then one inside it, and so on. What follows the last run is outside.

* `inRuns`: whether a code point is in the class.
-/

namespace Es5.Text

/-- Whether a code point is in the class of some runs. -/
def inRuns : List Nat → Nat → Bool
  | outside :: inside :: rest, n =>
    if n < outside then false
    else if n < outside + inside then true
    else inRuns rest (n - outside - inside)
  | _, _ => false

end Es5.Text
