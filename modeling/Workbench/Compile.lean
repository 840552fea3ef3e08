import Workbench.Assembly.Emit
import Workbench.Bytecode.Emit
import Workbench.Program.Parse
import Workbench.Token.Scan

/-!
# From source text to code

The ways from a source text to an image for the machine and to an assembly listing: read the tokens,
read the program, check it, and write the code. The first failure is what comes out.
-/

namespace Workbench

/-- Why a source text gives no checked program. -/
inductive SourceError where
  | number (e : Token.BadNumber)
  | parse (e : Program.ParseError)
  | typing (e : Typing.SemanticError)

def checkedProgram (source : String) : Except SourceError (Program Typing.Note) := do
  let tokens ← (Token.tokens source).mapError .number
  let program ← (Program.parse tokens).mapError .parse
  (Typing.check program).mapError .typing

/-- Why a source text gives no code; `ε` is what can be wrong with a checked program. -/
inductive CompileError (ε : Type) where
  | source (e : SourceError)
  | emit (e : ε)

def imageOf (source : String) : Except (CompileError Bytecode.EmitError) Machine.Image := do
  let program ← (checkedProgram source).mapError .source
  let object ← (Bytecode.emit program).mapError .emit
  return object.image

def listingOf (source : String) : Except (CompileError Assembly.EmitError) Assembly.Listing := do
  let program ← (checkedProgram source).mapError .source
  (Assembly.emit program).mapError .emit

end Workbench
