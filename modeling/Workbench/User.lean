/-!
# Asking the user

Windows that ask the user a question or tell them something. The answers that a user is going to give
are known beforehand, and each question takes the next one; when there is none left, the user cancels.
-/

namespace Workbench

/-- A window that was shown. -/
inductive Dialog where
  | yesNoCancel (title message : String)
  | yesNo (title message : String)
  | error (title message : String)
  | info (title message : String)
  | savePath (title ending : String)
  | openPath (title directory : String)
  deriving DecidableEq, Repr

/-- A user: the answers still to come, and the windows shown, the last one first. -/
structure User where
  answers : List (Option Bool) := []
  paths : List String := []
  shown : List Dialog := []
  deriving DecidableEq, Repr

namespace User

def dialogs (u : User) : List Dialog := u.shown.reverse

def see (u : User) (d : Dialog) : User := { u with shown := d :: u.shown }

/-- Shows a window and takes the next answer. -/
def answer (u : User) (d : Dialog) : Option Bool × User :=
  (u.answers.headD none, { (u.see d) with answers := u.answers.tail })

/-- Shows a window and takes the next path; the empty one cancels. -/
def choosePath (u : User) (d : Dialog) : String × User :=
  (u.paths.headD "", { (u.see d) with paths := u.paths.tail })

end User

end Workbench
