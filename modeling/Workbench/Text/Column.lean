/-!
# Columns of a table
-/

namespace Workbench.Text

/-- Blanks that fill a text of length `n` up to `width`. -/
def filling (n width : Nat) : String := String.ofList (List.replicate (width - n) ' ')

def leftIn (width : Nat) (s : String) : String := s ++ filling s.length width

def rightIn (width : Nat) (s : String) : String := filling s.length width ++ s

end Workbench.Text
