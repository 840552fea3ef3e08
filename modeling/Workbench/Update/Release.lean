import Workbench.Json.Read
import Workbench.Text.Case
import Workbench.Text.Occurs
import Workbench.Update.Outside
import Workbench.Update.Version

/-!
# Looking for a newer release

`check_for_updates`: the server describes the latest release in JSON. It is offered if its version is
newer than this program and one of its files is for this platform. A description that cannot be read, or
that lacks a field of a file, offers nothing; one of another shape is an error.
-/

namespace Workbench.Update

/-- A release. All but the version is kept as the server wrote it. -/
structure Release where
  version : String
  url : Json
  notes : Json
  published : Json

/-- Why the look for a release failed. -/
inductive CheckError where
  /-- A field was asked of a value that has none, or a value is no text. -/
  | wrongField
  /-- A value that is no list was walked through, or a file is no object. -/
  | wrongShape
  | notText
  | disk
  | refused
  | broken
  deriving DecidableEq, Repr

/-- What is said of the failure; nothing for a description of another shape. -/
def CheckError.message : CheckError → String
  | wrongField | wrongShape => ""
  | notText => "'utf-8' codec can't decode byte 0x80 in position 128: invalid start byte"
  | disk => "disk"
  | refused => refusedMessage
  | broken => "boom"

/-- The files that a description lists. The items of an object are its names. -/
def listedFiles : Option Json → Except CheckError (List Json)
  | none => .ok []
  | some (.list xs) => .ok xs
  | some (.object fields) => .ok (fields.map fun f => .text f.1)
  | some (.text s) => .ok (s.toList.map fun c => .text (String.ofList [c]))
  | some _ => .error .wrongShape

def isFor (windows : Bool) (name : String) : Bool :=
  let lowered := Text.lowerChars name.toList
  let isProgram := ".exe".toList.isSuffixOf name.toList
  if windows then Text.occursIn "windows".toList lowered && isProgram
  else Text.occursIn "linux".toList lowered && !isProgram

/-- The address of the first file for the platform; nothing if a field is missing before it is found. -/
def chooseFile (windows : Bool) : List Json → Except CheckError (Option Json)
  | [] => .ok none
  | .object fields :: rest => match Json.field? fields "name" with
    | none => .ok none
    | some (.text name) =>
      if isFor windows name then .ok (Json.field? fields "browser_download_url")
      else chooseFile windows rest
    | some _ => .error .wrongField
  | _ :: _ => .error .wrongShape

def offered (windows : Bool) : Json → Except CheckError (Option Release)
  | .object fields => match (Json.field? fields "tag_name").getD (.text "") with
    | .text tag =>
      let version := Version.dropMarks tag
      if Version.isNewer version currentVersion then do
        let files ← listedFiles (Json.field? fields "assets")
        let url? ← chooseFile windows files
        let release (url : Json) : Release :=
          { version := version
            url := url
            notes := (Json.field? fields "body").getD (.text "")
            published := (Json.field? fields "published_at").getD (.text "") }
        return (url?.filter Json.isSomething).map release
      else .ok none
    | _ => .error .wrongField
  | _ => .error .wrongField

/-- The owner of a program that was not set up to look for releases. -/
def unconfiguredOwner : String := "YOUR_GITHUB_USERNAME"

def releaseRequest (owner : String) : Call :=
  .request s!"https://api.github.com/repos/{owner}/QuinLang-IDE/releases/latest"
    (some "application/vnd.github.v3+json") 10

def answered (o : Outside) : Except CheckError (Option Release) :=
  match o.trouble with
  | some .unreachable | some .timedOut => .ok none
  | some .disk => .error .disk
  | some .broken => .error .broken
  | none =>
    if o.failing = some .request then .error .refused
    else if o.readsLeft = some 0 then .ok none
    else match o.body.text? with
      | none => .error .notText
      | some text => match Json.read text with
        | .error _ => .ok none
        | .ok description => offered o.isWindows description

/-- Looks for a newer release; gives also the calls made. -/
def check (o : Outside) : Except CheckError (Option Release) × List Call :=
  if o.owner = unconfiguredOwner then (.ok none, [])
  else (answered o, [releaseRequest o.owner])

/-- The news of a look for a release that runs in the background. -/
inductive Finding where
  | available (release : Release)
  | nothing
  | failed (message : String)

/-- The news of what a look came to. -/
def findingOf : Except CheckError (Option Release) → Finding
  | .ok (some r) => .available r
  | .ok none => .nothing
  | .error e => .failed e.message

end Workbench.Update
