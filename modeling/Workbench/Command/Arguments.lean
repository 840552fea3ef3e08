import Workbench.Text.Digit

/-!
# Arguments of a command

A command takes one word, the source, and flags. A flag is written with one dash and a letter or with
two dashes and a word, which may be cut short as long as it stays the only one. A value follows its flag
as the next argument, after an equals sign, or right after the letter. After two dashes alone no argument
is a flag. Arguments that look like negative numbers or hold a space are words unless they can be read
as flags.
-/

namespace Workbench.Command

inductive Flag where
  | help
  | out
  deriving DecidableEq, Repr

def Flag.takesValue : Flag → Bool
  | help => false
  | out => true

/-- The flags of a command by the ways to write them. -/
abbrev Flags := List (String × Flag)

/-- A value that stands in one argument with its flag: after an equals sign, or right after the
letter. -/
structure Attached where
  value : String
  afterEquals : Bool
  deriving DecidableEq, Repr

inductive Argument where
  | word (text : String)
  | endOfFlags
  | flag (written : String) (flag : Flag) (attached : Option Attached)
  | unknown (text : String)
  deriving DecidableEq, Repr

def splitEquals (s : String) : String × Option String :=
  let before := s.toList.takeWhile (· != '=')
  match s.toList.drop before.length with
  | _ :: after => (String.ofList before, some (String.ofList after))
  | [] => (s, none)

/-- The text looks like a negative number. -/
def looksNegative (s : String) : Bool :=
  match s.toList with
  | '-' :: cs =>
    let whole := cs.takeWhile Text.isDecimal
    match cs.drop whole.length with
    | [] => !whole.isEmpty
    | '.' :: ds => !ds.isEmpty && ds.all Text.isDecimal
    | _ => false
  | _ => false

/-- The flags that an argument can stand for when it is not written out in full. -/
def shortened (flags : Flags) (s : String) : List Argument :=
  match s.toList with
  | '-' :: '-' :: _ =>
    let (start, value) := splitEquals s
    flags.filterMap fun (written, f) =>
      if written.startsWith start then some (.flag written f (value.map (⟨·, true⟩))) else none
  | '-' :: c :: rest =>
    flags.filterMap fun (written, f) =>
      if written == String.ofList ['-', c] then
        some (.flag written f (some ⟨String.ofList rest, false⟩))
      else if written.startsWith s then some (.flag written f none)
      else none
  | _ => []

/-- What an argument before the end of the flags is; nothing if it can stand for several flags. -/
def classify? (flags : Flags) (s : String) : Option Argument :=
  if !s.startsWith "-" then some (.word s)
  else match flags.lookup s with
    | some f => some (.flag s f none)
    | none =>
      if s == "-" then some (.word s)
      else
        let (start, value) := splitEquals s
        match value, flags.lookup start with
        | some v, some f => some (.flag start f (some ⟨v, true⟩))
        | _, _ => match shortened flags s with
          | [a] => some a
          | _ :: _ :: _ => none
          | [] => some (if looksNegative s || s.contains ' ' then .word s else .unknown s)

def classifyAll? (flags : Flags) : List String → Option (List Argument)
  | [] => some []
  | "--" :: rest => some (.endOfFlags :: rest.map .word)
  | s :: rest => do return (← classify? flags s) :: (← classifyAll? flags rest)

/-- What the arguments ask for. -/
inductive Request where
  | help
  | compile (source : String) (out : Option String)
  deriving DecidableEq, Repr

/-- What was read of the arguments so far; `extra` says that some argument was not asked for. -/
structure Reading where
  source : Option String := none
  out : Option String := none
  extra : Bool := false

inductive FlagOutcome where
  | taken (r : Reading)
  /-- The flag wants the next argument for its value. -/
  | wantsValue
  | help
  /-- The arguments make no sense. -/
  | refused

/-- The letters that follow a flag that asks for help in one argument. Letters that are no flags are not
asked for, but help comes first. -/
def helpCluster (flags : Flags) (next : Option Argument) : List Char → FlagOutcome
  | [] => .help
  | c :: rest =>
    if c == '-' then .refused
    else match flags.lookup (String.ofList ['-', c]) with
      | none => .help
      | some .help => match rest with
        | '=' :: _ => .refused
        | _ => helpCluster flags next rest
      | some .out => match rest, next with
        | _ :: _, _ => .help
        | [], some (.word _) => .help
        | [], _ => .refused

def takeFlag (flags : Flags) (r : Reading) (written : String) (f : Flag) (attached : Option Attached)
    (next : Option Argument) : FlagOutcome :=
  match f, attached with
  | .out, some a => .taken { r with out := some a.value }
  | .out, none => .wantsValue
  | .help, none => .help
  | .help, some a =>
    if a.afterEquals || written.startsWith "--" then .refused
    else helpCluster flags next a.value.toList

/-- Reads the arguments; nothing if they make no sense. Two dashes go with the source when it stands next
to them. -/
def readArguments (flags : Flags) (r : Reading) : List Argument → Option Request
  | [] => match r.source, r.extra with
    | some s, false => some (.compile s r.out)
    | _, _ => none
  | .word s :: .endOfFlags :: rest =>
    if r.source.isNone then readArguments flags { r with source := some s } rest
    else readArguments flags { r with extra := true } (.endOfFlags :: rest)
  | .word s :: rest =>
    if r.source.isNone then readArguments flags { r with source := some s } rest
    else readArguments flags { r with extra := true } rest
  | .endOfFlags :: .word s :: rest =>
    if r.source.isNone then readArguments flags { r with source := some s } rest
    else readArguments flags { r with extra := true } rest
  | .endOfFlags :: rest => readArguments flags { r with extra := true } rest
  | .unknown _ :: rest => readArguments flags { r with extra := true } rest
  | .flag written f attached :: rest => match takeFlag flags r written f attached rest.head? with
    | .taken r' => readArguments flags r' rest
    | .help => some .help
    | .refused => none
    | .wantsValue => match rest with
      | .word v :: rest' => readArguments flags { r with out := some v } rest'
      | _ => none
termination_by args => args.length

/-- What the arguments of a command ask for; nothing if they make no sense. -/
def request? (flags : Flags) (args : List String) : Option Request := do
  readArguments flags {} (← classifyAll? flags args)

end Workbench.Command
