import Workbench.Linear
import Workbench.Main
import Workbench.Measure.Round
import Workbench.Package
import Workbench.Program.Tree
import Workbench.Proofs.ArgumentRuns
import Workbench.Proofs.BlockMoves
import Workbench.Proofs.BoundedStack
import Workbench.Proofs.Downloads
import Workbench.Proofs.EqualityFold
import Workbench.Proofs.FailedSaves
import Workbench.Proofs.FinderSelection
import Workbench.Proofs.FunctionOrder
import Workbench.Proofs.FuzzyScores
import Workbench.Proofs.JumpTargets
import Workbench.Proofs.OwnReturns
import Workbench.Proofs.PaintedLines
import Workbench.Proofs.ParkedOperands
import Workbench.Proofs.Pointers
import Workbench.Proofs.RoundTrip
import Workbench.Proofs.ScannedFiles
import Workbench.Proofs.Signed
import Workbench.Proofs.Spans
import Workbench.Proofs.StopRequests
import Workbench.Proofs.StringOrder
import Workbench.Proofs.StringsPrinted
import Workbench.Proofs.Unedited
import Workbench.Proofs.VersionOrder
import Workbench.Window.Background
