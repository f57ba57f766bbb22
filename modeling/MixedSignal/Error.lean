import MixedSignal.Expr.Error
import MixedSignal.Linear.Error
import MixedSignal.Settings.Basic

/-!
# Errors

Everything that can go wrong with a model, by the kind of operation that fails.
-/

namespace MixedSignal

/-- Why a value does not fit a signal. -/
inductive FormatError where
  | domainMismatch (signal signalFormat exprFormat : String)
  | widthMismatch (signal signalFormat exprFormat : String)
  | initOutOfRange (signal format init : String)
  deriving DecidableEq, Repr

/-- The text of an error. -/
def FormatError.message : FormatError → String
  | domainMismatch signal signalFormat exprFormat =>
    s!"signal `{signal}` with format {signalFormat} cannot be driven by a value of format {exprFormat}"
  | widthMismatch signal signalFormat exprFormat =>
    s!"register `{signal}` with format {signalFormat} is driven by a value of a different width, {exprFormat}"
  | initOutOfRange signal format init =>
    s!"initial value {init} of `{signal}` does not fit its format {format}"

/-- Why a model has no behaviour in hardware. -/
inductive EmitError where
  /-- A node that has a meaning only inside equation systems. -/
  | unsupportedNode (variant : String)
  | combinationalCycle (signals : List String)
  | unassigned (signal : String)
  /-- A signed word without a bit for its sign, which has no values. Callers promise not to ask for
  one. -/
  | emptyWord
  deriving DecidableEq, Repr

/-- The text of an error. -/
def EmitError.message : EmitError → String
  | unsupportedNode variant =>
    s!"expression node `{variant}` cannot be lowered to hardware, it is only meaningful inside equation systems"
  | combinationalCycle signals =>
    "combinational cycle through " ++ ", ".intercalate (signals.map fun s => "`" ++ s ++ "`")
  | unassigned signal => s!"signal `{signal}` is used but never assigned"
  | emptyWord => "signed word has no bits"

/-- Any error of an operation on a model. -/
inductive Error where
  | construction (e : ConstructionError)
  | system (e : SystemError)
  | format (e : FormatError)
  | emit (e : EmitError)
  | settings (e : SettingsError)
  | unwritable (path : String) (reason : FileError)
  deriving DecidableEq, Repr

/-- The text of an error. -/
def Error.message : Error → String
  | construction e => "invalid expression: " ++ e.message
  | system e => "invalid equation system: " ++ e.message
  | format e => "format mismatch: " ++ e.message
  | emit e => "code generation failed: " ++ e.message
  | settings e => "invalid settings: " ++ e.message
  | unwritable path reason => "failed to write " ++ path ++ ": " ++ reason.text

end MixedSignal
