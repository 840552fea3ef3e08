import Workbench.Text.Numeral
import Workbench.Update.Outside

/-!
# Downloading a release

`download_update`: a download is written to a temporary file as it comes in, chunk by chunk. If the
server stops answering or a call fails, nothing is downloaded, and the temporary file stays behind with
what came in.
-/

namespace Workbench.Update

/-- What a read of the answer gives before its end. A chunk has at least one byte: an empty one is the end. -/
inductive Delivery where
  | chunk (first : UInt8) (rest : List UInt8)
  /-- A chunk that cannot be written. -/
  | unwritten (first : UInt8) (rest : List UInt8)
  | timeout
  deriving DecidableEq, Repr

def chunkSize : Nat := 8192

def chunks (bytes : List UInt8) : List Delivery :=
  match bytes with
  | [] => []
  | b :: bs => .chunk b (bs.take (chunkSize - 1)) :: chunks (bs.drop (chunkSize - 1))
termination_by bytes.length
decreasing_by simp only [List.length_drop, List.length_cons, chunkSize]; omega

/-- What the reads give when no more than `readsLeft` of them are answered. The read that finds the end is
one of them. -/
def deliveries (bytes : List UInt8) (readsLeft : Option Nat) : List Delivery :=
  let all := chunks bytes
  match readsLeft with
  | none => all
  | some n => if all.length < n then all else all.take n ++ [.timeout]

/-- What came in: the bytes, whether the end was reached, and the news on the way, each with the number of bytes
so far. -/
structure Received where
  bytes : List UInt8 := []
  complete : Bool := true
  steps : List Nat := []

/-- Takes the deliveries in; `before` bytes came in already. -/
def receive (before : Nat) : List Delivery → Received
  | [] => {}
  | .chunk b bs :: rest =>
    let count := before + (b :: bs).length
    let r := receive count rest
    { bytes := b :: bs ++ r.bytes, complete := r.complete, steps := count :: r.steps }
  | .unwritten .. :: _ | .timeout :: _ => { complete := false }

inductive DownloadError where
  | badLength (text : String)
  | broken
  deriving DecidableEq, Repr

def DownloadError.message : DownloadError → String
  | badLength s => Text.badNumeralMessage 10 s
  | broken => "boom"

/-- What a download comes to: the path of the file, the news on the way, the calls made, and what the temporary
file holds afterwards, if there is one. -/
structure Download where
  result : Except DownloadError (Option String)
  progress : List (Nat × Int) := []
  calls : List Call
  kept : Option (List UInt8) := some []

def noDownload (calls : List Call) : Download := { result := .ok none, calls := calls }

def tempEnding (o : Outside) : String := if o.isWindows then ".exe" else ""

def tempPath (o : Outside) : String := "/tmp/dl" ++ tempEnding o

def declaredLength (o : Outside) : Except DownloadError Int :=
  match o.length with
  | none => .ok 0
  | some s => match Text.readInt? s with
    | some n => .ok n
    | none => .error (.badLength s)

/-- Takes the answer in and writes it to the temporary file; `calls` were made already. -/
def writeAnswer (o : Outside) (reads : List Delivery) (total : Int) (watched : Bool) (calls : List Call) : Download :=
  let opened := Call.openFile (tempPath o) "wb"
  let calls := calls ++ [opened]
  if o.refuses opened then noDownload calls
  else
    let r := receive 0 reads
    let wrote := Call.wrote r.bytes.length ((r.bytes.map UInt8.toNat).foldr (· + ·) 0)
    { result := .ok (if r.complete && !o.refuses wrote then some (tempPath o) else none)
      progress := if watched && total != 0 then r.steps.map (·, total) else []
      calls := calls ++ [wrote]
      kept := some r.bytes }

/-- Downloads what is at an address when the answer is read as `reads`; `watched` says whether anyone wants news on the
way. -/
def downloadOf (o : Outside) (reads : List Delivery) (url : String) (watched : Bool) : Download :=
  let made := Call.makeTemp (tempEnding o) "quinlang_update_"
  if o.refuses made then { noDownload [made] with kept := none }
  else
    let asked := Call.request url none 60
    let calls := [made, asked]
    match o.trouble with
    | some .broken => { result := .error .broken, calls := calls }
    | some _ => noDownload calls
    | none =>
      if o.refuses asked then noDownload calls
      else match declaredLength o with
        | .error e => { result := .error e, calls := calls }
        | .ok total => writeAnswer o reads total watched calls

def download (o : Outside) (url : String) (watched : Bool) : Download :=
  downloadOf o (deliveries o.body.bytes o.readsLeft) url watched

end Workbench.Update
