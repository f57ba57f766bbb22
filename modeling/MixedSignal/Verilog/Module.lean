import MixedSignal.Model.Order
import MixedSignal.Verilog.Emission

/-!
# Emitted modules

`Model.emit` turns a complete model into a module: pins, declarations of internal signals, the
assignments in the order in which they were made, and probes. `Module.text` writes it out.
-/

namespace MixedSignal

namespace Verilog

/-- A parameter of a module. -/
inductive Parameter (R : Type) where
  /-- The format of a real pin. -/
  | format (name : String)
  | real (name : String) (default : R)
  | int (name : String) (default : Literal)
  deriving Repr

/-- The parameter as it is written. -/
def Parameter.text {R : Type} [Scalar R] : Parameter R → String
  | format name => call "DECL_REAL" [name]
  | real name default => "parameter real " ++ name ++ " = " ++ Scalar.literal default
  | int name default =>
    "parameter " ++ typeText default.repr ++ " " ++ name ++ " = " ++ default.text

/-- A signal that crosses the boundary of a module. -/
inductive Pin where
  | inputReal (name : String)
  | outputReal (name : String)
  | inputInt (name : String) (repr : IntRepr)
  | outputInt (name : String) (repr : IntRepr)
  deriving Repr

/-- The pin as it is written. -/
def Pin.text : Pin → String
  | inputReal name => call "INPUT_REAL" [name]
  | outputReal name => call "OUTPUT_REAL" [name]
  | inputInt name repr => "input wire " ++ typeText repr ++ " " ++ name
  | outputInt name repr => "output var " ++ typeText repr ++ " " ++ name

/-- A module. -/
structure Module (R : Type) where
  timescale : String
  includes : List String
  name : String
  parameters : List (Parameter R)
  pins : List Pin
  /-- The body, in blocks that a blank line divides. -/
  blocks : List (List (Statement R))

namespace Module

variable {R : Type} [Scalar R]

/-- Items on lines of their own, with commas between them, in brackets. -/
def bracketed (items : List String) : String :=
  "(\n" ++ ",\n".intercalate (items.map (Indent.unit ++ ·)) ++ "\n)"

/-- What stands in front of the module. -/
def preamble (m : Module R) : String :=
  "`timescale " ++ m.timescale ++ "\n\n" ++
    String.join (m.includes.map fun i => "`include \"" ++ i ++ "\"\n") ++
    (if m.includes.isEmpty then "" else "\n") ++
    "`default_nettype none\n\n"

/-- The name of the module with its parameters and pins. -/
def heading (m : Module R) : String :=
  "module " ++ m.name ++
    (if m.parameters.isEmpty then "" else " #" ++ bracketed (m.parameters.map (·.text))) ++
    (if m.pins.isEmpty then "" else " " ++ bracketed (m.pins.map (·.text))) ++ ";\n"

/-- The statements, with a blank line between blocks that are not empty. -/
def body (m : Module R) : String :=
  "\n".intercalate ((m.blocks.filter (!·.isEmpty)).map fun b => String.join (b.map (·.text)))

/-- The text of the module. -/
def text (m : Module R) : String :=
  m.preamble ++ m.heading ++ m.body ++ "endmodule\n\n`default_nettype wire\n"

end Module

end Verilog

namespace Model

variable {R : Type} [Scalar R]

open Verilog

/-! ## Completeness -/

/-- Refuse an internal signal without a driver. An output without one is only worth a warning. -/
def checkDriven : Edit R Unit := do
  let m ← get
  for (signal, i) in m.store.signals.toList.zipIdx do
    unless m.assignments.contains i do
      match signal.role with
      | .internal => throw (.emit (.unassigned signal.name))
      | .output =>
        Edit.report {
          title := "output `" ++ signal.name ++ "` is never assigned"
          footers := [(.note, "the port is left undriven")] }
      | _ => pure ()

/-- The first equation variable that an assignment reads. -/
def variableRead? (m : Model R) : Option SignalId :=
  (m.assignments.values.flatMap fun a => m.store.signalsIn a.expr).find? fun i =>
    (m.store.signal i).role.isAuxiliary

/-- Refuse an assignment that reads an equation variable, which no longer exists. -/
def checkEliminated (m : Model R) : Except EmitError Unit :=
  match m.variableRead? with
  | some i => .error (.unassigned (m.store.signal i).name)
  | none => .ok ()

/-! ## Emission -/

/-- The real parameters, each with a name for its value. -/
def paramValues : List (Signal R) → Names → List (Signal R × String) × Names
  | [], names => ([], names)
  | signal :: rest, names =>
    match signal.role, signal.format with
    | .param _, .real _ =>
      let (value, names) := names.fresh (signal.name ++ "_value")
      let (values, names) := paramValues rest names
      ((signal, value) :: values, names)
    | _, _ => paramValues rest names

/-- The parameter that a signal adds to the module. -/
def parameter? (values : List (Signal R × String)) (signal : Signal R) : Option (Parameter R) :=
  match signal.role, signal.format with
  | .input, .real _ | .output, .real _ => some (.format signal.name)
  | .param default, .real _ =>
    (values.find? (·.1.name == signal.name)).map fun v => .real v.2 default.toScalar
  | .param default, .int f => some (.int signal.name ⟨default.toInt, f.repr⟩)
  | _, _ => none

/-- The pin that a signal adds to the module. -/
def pin? (signal : Signal R) : Option Pin :=
  match signal.role, signal.format with
  | .input, .real _ => some (.inputReal signal.name)
  | .output, .real _ => some (.outputReal signal.name)
  | .input, .int f => some (.inputInt signal.name f.repr)
  | .output, .int f => some (.outputInt signal.name f.repr)
  | _, _ => none

/-- The signal of a real parameter. -/
def paramDeclaration? : Signal R × String → Option (Statement R)
  | (signal, value) => signal.format.real?.map fun f => .declareParam value signal.name f.bound

/-- The declaration of an internal signal. -/
def declaration? (realWidth : Nat) (signal : Signal R) : Option (Statement R) :=
  match signal.role with
  | .internal => some (Emission.declarationOf realWidth signal.name signal.format)
  | _ => none

/-- The names of the control signals, or the defaults. -/
def controls (m : Model R) (settings : Settings) (c : Clocking) : Controls where
  clock := c.clock.elim settings.defaultClock fun i => (m.store.signal i).name
  reset := c.reset.elim settings.defaultReset fun i => (m.store.signal i).name
  enable := c.enable.elim settings.defaultEnable fun i => (m.store.signal i).name

/-- The statement that drives the signal of an assignment from a name. -/
def drive (m : Model R) (settings : Settings) (a : Assignment R) (source : String) : Statement R :=
  let signal := m.store.signal a.signal
  match a.timing, signal.format with
  | .thisCycle, .real _ => .assignReal source signal.name
  | .thisCycle, .int _ => .assign signal.name (.name source)
  | .nextCycle c init, .real _ =>
    .registerReal source signal.name (m.controls settings c) init.toScalar
  | .nextCycle c init, .int f =>
    .registerInt source signal.name (m.controls settings c) ⟨init.toInt, f.repr⟩

/-- The statements of an assignment, as a block of their own. -/
def assignmentBlock (m : Model R) (settings : Settings) (a : Assignment R) :
    Emission R (List (Statement R)) := do
  modify fun l => { l with statements := #[] }
  let source ← Emission.node m.store settings.realWidth a.expr
  Emission.emit (m.drive settings a source)
  return (← get).statements.toList

/-- The probe of a signal. -/
def probe (m : Model R) (i : SignalId) : Statement R :=
  let signal := m.store.signal i
  match signal.format with
  | .real _ => .probeReal signal.name
  | .int f => .probeInt signal.name f.width

/-- The module of a complete model. -/
def emit (m : Model R) (settings : Settings) : Except EmitError (Module R) := do
  let signals := m.store.signals.toList
  let (values, names) := paramValues signals (.ofList (signals.map (·.name)))
  let assignments := m.assignments.values.mapM (m.assignmentBlock settings)
  let blocks ← (assignments.run.run { names }).1
  return {
    timescale := settings.timescale
    includes := settings.includes
    name := m.name
    parameters := signals.filterMap (parameter? values)
    pins := signals.filterMap pin?
    blocks := [values.filterMap paramDeclaration?,
      signals.filterMap (declaration? settings.realWidth)] ++ blocks ++ [m.probes.map m.probe] }

/-- Check a model and turn it into a module. -/
def compileModule (settings : Settings) : Edit R (Module R) := do
  check .settings settings.validate
  checkDriven
  check .emit (← get).checkEliminated
  let _ ← check .emit (← get).combinationalOrder
  check .emit ((← get).emit settings)

/-- The text of the module of a model. -/
def compile (settings : Settings) : Edit R String :=
  return (← compileModule settings).text

end Model

end MixedSignal
