/-!
# Ranges of code points

A character class outside ASCII is a list of inclusive ranges of code points.
-/

namespace Workbench.Text

/-- Membership of a code point in a list of inclusive ranges. -/
def inRanges (rs : List (Nat × Nat)) (n : Nat) : Bool :=
  rs.any fun r => r.1 ≤ n && n ≤ r.2

/-- The ranges from `n` on: how far each of them starts after the end of the one before, and how far it goes on. -/
def rangesFrom (n : Nat) : List Nat → List (Nat × Nat)
  | gap :: more :: rest => (n + gap, n + gap + more) :: rangesFrom (n + gap + more) rest
  | _ => []

end Workbench.Text
