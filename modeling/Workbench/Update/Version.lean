import Workbench.Text.Blank
import Workbench.Text.Numeral

/-!
# Versions

`parse_version` and `is_newer_version`: a version is a list of numbers between dots, after any number of
letters `v`. A text that is no version counts as version zero. Versions are compared number by number,
and a version that goes on where the other ends is the newer one.
-/

namespace Workbench.Update

abbrev Version := List Int

namespace Version

/-- The text without the letters `v` in front. -/
def dropMarks (s : String) : String := String.ofList (s.toList.dropWhile (· == 'v'))

def parse (s : String) : Version :=
  ((Text.splitAt '.' (dropMarks s)).mapM Text.readInt?).getD [0]

def after : Version → Version → Bool
  | _ :: _, [] => true
  | [], _ => false
  | x :: xs, y :: ys => if x = y then after xs ys else y < x

def isNewer (remote current : String) : Bool := after (parse remote) (parse current)

end Version

def currentVersion : String := "0.1.0"

end Workbench.Update
