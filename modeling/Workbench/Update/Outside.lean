/-!
# The world outside

What the updater does outside of the program, call by call, and how the world is set up: the platform, the
server with its answer, and the call that fails.
-/

namespace Workbench.Update

inductive CallKind where
  | request | makeTemp | openFile | wrote | chmod | move | restart | makeScript | script | spawn
  deriving DecidableEq, Repr

/-- A call to the world outside. -/
inductive Call where
  /-- A request to a server, with the kind of answer that is accepted and the seconds to wait. -/
  | request (url : String) (accept : Option String) (seconds : Nat)
  | makeTemp (ending lead : String)
  | openFile (path mode : String)
  /-- A file was closed with so many bytes in it, of this sum. -/
  | wrote (count sum : Nat)
  | chmod (path : String) (mode : Nat)
  | move (source target : String)
  | restart (path : String) (args : List String)
  | makeScript (mode ending : String) (removed : Bool)
  | script (text : String)
  | spawn (args : List String)
  deriving DecidableEq, Repr

def Call.kind : Call → CallKind
  | request .. => .request
  | makeTemp .. => .makeTemp
  | openFile .. => .openFile
  | wrote .. => .wrote
  | chmod .. => .chmod
  | move .. => .move
  | restart .. => .restart
  | makeScript .. => .makeScript
  | script .. => .script
  | spawn .. => .spawn

/-- Why a request gets no answer. -/
inductive Trouble where
  | unreachable
  | timedOut
  | disk
  | broken
  deriving DecidableEq, Repr

/-- What a server sends: a text, or so many bytes that count up from zero again and again. -/
inductive Body where
  | text (s : String)
  | counting (size : Nat)
  deriving DecidableEq, Repr

namespace Body

def bytes : Body → List UInt8
  | text s => s.toUTF8.toList
  | counting n => (List.range n).map fun k => UInt8.ofNat (k % 256)

/-- The text sent. Bytes that count past those of ASCII are none. -/
def text? : Body → Option String
  | text s => some s
  | counting n => if n ≤ 128 then some (String.ofList ((List.range n).map Char.ofNat)) else none

end Body

/-- How the world is set up. -/
structure Outside where
  isWindows : Bool := false
  /-- Whether the program runs as one executable. -/
  isBundled : Bool := false
  args : List String := []
  owner : String := ""
  trouble : Option Trouble := none
  body : Body := .text ""
  /-- The length that the server declares. -/
  length : Option String := none
  /-- After so many reads of an answer no more comes. -/
  readsLeft : Option Nat := none
  failing : Option CallKind := none

def Outside.refuses (o : Outside) (c : Call) : Bool := o.failing == some c.kind

/-- What is said of a call that fails. -/
def refusedMessage : String := "denied"

end Workbench.Update
