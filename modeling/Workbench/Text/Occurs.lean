/-!
# Parts of a text
-/

namespace Workbench.Text

/-- The characters of `sub` occur next to each other in `cs`. -/
def occursIn (sub : List Char) : List Char → Bool
  | [] => sub.isEmpty
  | c :: cs => sub.isPrefixOf (c :: cs) || occursIn sub cs

end Workbench.Text
