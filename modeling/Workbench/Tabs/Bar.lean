import Workbench.Tabs.Buffer

/-!
# The tab bar

The `TabBar`: the row of tabs above the editor. A tab has a label and a mark to close it, and one tab
stands out. The bar remembers by itself which tab that is.
-/

namespace Workbench.Tabs

/-- The names of the looks of a tab: of its frame, its label and its close mark. -/
structure Looks where
  frame : String
  label : String
  close : String
  deriving DecidableEq, Repr

def plainLooks : Looks := ⟨"Tab.TFrame", "Tab.TLabel", "TabClose.TLabel"⟩

def activeLooks : Looks := ⟨"TabActive.TFrame", "TabActive.TLabel", "TabCloseActive.TLabel"⟩

structure Tab where
  id : Nat
  label : String
  looks : Looks := plainLooks
  deriving DecidableEq, Repr

structure Bar where
  tabs : List Tab := []
  active : Option Nat := none
  deriving DecidableEq, Repr

namespace Bar

/-- Changes the tab with the given number, if there is one. -/
def change (bar : Bar) (id : Nat) (f : Tab → Tab) : Bar :=
  { bar with tabs := bar.tabs.map fun t => if t.id == id then f t else t }

def has (bar : Bar) (id : Nat) : Bool := bar.tabs.any (·.id == id)

def add (bar : Bar) (b : Buffer) : Bar := { bar with tabs := bar.tabs ++ [⟨b.id, b.title, plainLooks⟩] }

def remove (bar : Bar) (id : Nat) : Bar := { bar with tabs := bar.tabs.filter (·.id != id) }

def update (bar : Bar) (b : Buffer) : Bar := bar.change b.id fun t => { t with label := b.title }

/-- Makes a tab stand out, if there is such a tab, in the place of the one before. -/
def setActive (bar : Bar) (id : Nat) : Bar :=
  let bar := match bar.active with
    | some old => bar.change old fun t => { t with looks := plainLooks }
    | none => bar
  if bar.has id then { bar.change id (fun t => { t with looks := activeLooks }) with active := some id }
  else bar

end Bar

end Workbench.Tabs
