/-!
# Sets of characters given by ranges

A class of characters is a list of ranges of code points, in increasing order.
-/

namespace Shader.Text

/-- A set of code points: the first and last point of each run, runs in increasing order. -/
abbrev Ranges := List (Nat × Nat)

/-- Membership in a set of ranges. The search stops at the first range beyond the point. -/
def Ranges.has : Ranges → Nat → Bool
  | [], _ => false
  | (first, last) :: more, point =>
    if point < first then false else point ≤ last || Ranges.has more point

/-- The ranges given by the lengths of runs from `start` on, by turns outside and inside the set. -/
def Ranges.ofRuns (start : Nat) : List Nat → Ranges
  | outside :: inside :: runs =>
    (start + outside, start + outside + inside - 1) :: ofRuns (start + outside + inside) runs
  | _ => []

end Shader.Text
