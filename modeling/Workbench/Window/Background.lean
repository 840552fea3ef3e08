import Workbench.Update.Download
import Workbench.Window.Actions

/-!
# What goes on in the background

Jobs are done in the order in which they came, and no task is looked at before all jobs are done. A task can
lead to another job only by an offer that the user takes, which leads to a download; the tasks that follow a
download lead to no other. So after two rounds through the tasks nothing is left to do.
-/

namespace Workbench

namespace Runner

def Stage.source? : Stage → Option String
  | waiting source => some source
  | _ => none

/-- Whether the program that waits to be run takes at least `n` steps. -/
def reaches (r : Runner) (n : Nat) : Bool :=
  match r.workers.findSome? Stage.source? with
  | some source => match imageOf source with
    | .ok img => n ≤ (img.run stepBudget {}).run.steps
    | .error _ => false
  | none => false

end Runner

namespace Window

/-- How the world behaves while the background is worked on: the commands there are, and the step of a
program, counted from 1, during which the user asks it to stop. -/
structure Setting where
  commands : Terminal.Commands := []
  stopAtStep : Option Nat := none

/-- The task for what is heard of a run. -/
def taskOf : Runner.Event → Task
  | .output text => .output text
  | .done r => .ended r

def runProgram (s : Setting) (w : Window) : Window :=
  let asked := match s.stopAtStep with
    | some n => 0 < n && w.runner.reaches n
    | none => false
  let (runner, events) := w.runner.finish { stopAtStep := s.stopAtStep } stepBudget
  let w := { w with runner := runner, tasks := w.tasks ++ events.map taskOf }
  if asked then w.noteStop else w

def fetch (w : Window) (r : Update.Release) : Except Update.DownloadError Window := do
  let d := Update.download w.outside (r.url.text?.getD "") false
  let path? ← d.result
  let tasks := match path? with
    | some path => [.install path]
    | none => [.downloadFailed, .ready]
  return { w with calls := w.calls ++ d.calls, tasks := w.tasks ++ tasks }

def work (s : Setting) (w : Window) : Job → Except Update.DownloadError Window
  | .program => .ok (w.runProgram s)
  | .command text =>
    let (t, pieces) := w.terminal.runCommand s.commands text
    .ok { w with terminal := t, tasks := w.tasks ++ pieces.map .terminal }
  | .lookForRelease =>
    let (found, calls) := Update.check w.outside
    let tasks := match Update.findingOf found with
      | .available r => [.offer r]
      | _ => []
    .ok { w with calls := w.calls ++ calls, tasks := w.tasks ++ tasks }
  | .download r => w.fetch r

def workAll (s : Setting) (w : Window) : Except Update.DownloadError Window :=
  w.jobs.foldlM (work s) { w with jobs := [] }

/-- Shows how a run came out. -/
def showResult (w : Window) (r : Runner.Result) : Window :=
  let w := { w with runButton := some true, stopButton := some false }
  match r with
  | .finished n =>
    { w.print s!"\n[Program finished with exit code {n}]\n" (some "info") with
      status := s!"Finished (exit code {n})" }
  | .failed message =>
    { w.print s!"\n[Error: {message}]\n" (some "error") with status := "Error" }
  | .stopped => { w.print "\n[Execution stopped]\n" (some "warning") with status := "Stopped" }

/-- The question whether to update. -/
def offerMessage (r : Update.Release) : String :=
  s!"A new version of QuinLang IDE is available!\n\nCurrent: v{Update.currentVersion}\nNew: v{r.version}\n\nWould you like to update now?"

/-- Offers a release, and downloads it if the user wants it. -/
def offer (w : Window) (r : Update.Release) : Window :=
  let (wanted, w) := w.ask "Update Available" (offerMessage r)
  if !wanted then w
  else if !w.outside.isBundled then
    w.tell (.info "Update"
      "Auto-update is only available for the standalone executable.\n\nPlease download the latest version from GitHub.")
  else { w with status := "Downloading update...", jobs := w.jobs ++ [.download r] }

/-- Installs a release if the user agrees, which ends the program. -/
def install (w : Window) (path : String) : Window :=
  let (agreed, w) := w.ask "Apply Update"
    "Update downloaded successfully!\n\nThe application will restart to apply the update.\nContinue?"
  if !agreed then w
  else
    let (ok, calls) := Update.install w.outside (.ofText path)
    let w := { w with calls := w.calls ++ calls }
    if ok then { w with isOpen := false }
    else
      { w.tell (.error "Update Failed" "Failed to apply the update. Please try again.") with
        status := "Ready" }

def perform (w : Window) : Task → Window
  | .output text => w.print text none
  | .ended r => w.showResult r
  | .terminal p => { w with terminal := w.terminal.append p.text p.look }
  | .offer r => w.offer r
  | .install path => w.install path
  | .downloadFailed =>
    w.tell (.error "Update Failed" "Failed to download the update. Please try again later.")
  | .ready => { w with status := "Ready" }

/-- One round: does all jobs, and then what the tasks ask for, each time followed by the jobs that it led
to. -/
def round (s : Setting) (w : Window) : Except Update.DownloadError Window := do
  let w ← w.workAll s
  w.tasks.foldlM (fun w t => (w.perform t).workAll s) { w with tasks := [] }

def settle (s : Setting) (w : Window) : Except Update.DownloadError Window := do
  let w ← w.round s
  w.round s

end Window

end Workbench
