import MixedSignal.Diagnostic
import MixedSignal.Error
import MixedSignal.Expr.Build
import MixedSignal.Table

/-!
# Models

A model has signals and expressions, at most one assignment per signal, probes and tables. An
assignment is visible in the same cycle, or from the next clock edge on. Operations on a model are
computations in `Edit`; what one has changed before it fails stays.
-/

namespace MixedSignal

/-- The clock, reset and enable of a register. Where one is missing, the settings of the compilation
have a default. -/
structure Clocking where
  clock : Option SignalId := none
  reset : Option SignalId := none
  enable : Option SignalId := none
  deriving DecidableEq, Repr

/-- When an assigned value becomes visible. -/
inductive Timing (R : Type) where
  | thisCycle
  /-- From the next clock edge on; a reset loads the initial value. -/
  | nextCycle (clocking : Clocking) (init : Value R)
  deriving Repr

/-- A signal with the expression that drives it. -/
structure Assignment (R : Type) where
  signal : SignalId
  expr : NodeId
  timing : Timing R
  deriving Repr

/-- Whether the assignment is visible in the same cycle. -/
def Assignment.isCombinational {R : Type} (a : Assignment R) : Bool :=
  match a.timing with
  | .thisCycle => true
  | .nextCycle _ _ => false

/-- A model under construction. -/
structure Model (R : Type) where
  name : String
  /-- The time step, which equation systems need. -/
  dt : Option R
  store : Store R := {}
  /-- In the order in which they were made. -/
  assignments : OrderedMap SignalId (Assignment R) := {}
  probes : List SignalId := []
  tables : OrderedMap String (Table R) := {}
  diagnostics : List Diagnostic := []

/-- Computations that change a model and may fail. -/
abbrev Edit (R : Type) := ExceptT Error (StateM (Model R))

namespace Edit

variable {R : Type} [Scalar R]

/-- Run a computation on the store of the model. -/
def onStore {α : Type} (x : ExceptT Error (StateM (Store R)) α) : Edit R α :=
  ExceptT.mk fun m =>
    let (result, store) := x.run.run m.store
    (result, { m with store })

/-- Run a construction. -/
def build {α : Type} (x : Build R α) : Edit R α :=
  onStore (ExceptT.mk (Except.mapError Error.construction <$> x.run))

/-- A signal of the model. -/
def signal (i : SignalId) : Edit R (Signal R) := return (← get).store.signal i

/-- Note something worth a warning. -/
def report (d : Diagnostic) : Edit R Unit :=
  modify fun m => { m with diagnostics := m.diagnostics ++ [d] }

end Edit

namespace Model

variable {R : Type} [Scalar R]

/-- A model without signals. Its name must be an identifier. -/
def ofName (name : String) (dt : Option R) : Except Error (Model R) :=
  if Identifier.isValid name then .ok { name, dt } else .error (.construction (.invalidName name))

/-- The assignment of a signal. -/
def assignment? (m : Model R) (i : SignalId) : Option (Assignment R) := m.assignments.get? i

/-! ## Signals -/

/-- A real of at most the given magnitude, which must be a number and not negative. -/
def realFormat (range : R) : Except ConstructionError (Format R) :=
  if !Scalar.isFinite range || Scalar.lt range 0 then .error (.invalidRange (Scalar.plain range))
  else .ok (.ofMagnitude range)

/-- All integers of a width, which must not be zero. -/
def intFormat (name : String) (width : Nat) (signedness : Signedness) :
    Except ConstructionError (Format R) :=
  if width = 0 then .error (.zeroWidth name) else .ok (.int (.full signedness width))

/-- Refuse an initial value outside the format. -/
def checkInit (name : String) (format : Format R) (init : Value R) : Except FormatError Unit :=
  if format.contains? init = some false then
    .error (.initOutOfRange name format.text init.text)
  else .ok ()

/-- Raise the error of a check. -/
def check {ε α : Type} (f : ε → Error) : Except ε α → Edit R α
  | .ok a => return a
  | .error e => throw (f e)

/-- Add a signal. -/
def addRawSignal (name : String) (format : Format R) (role : Role R) (init : Option (Value R)) :
    Edit R SignalId :=
  Edit.build (Build.addSignal name format role init)

/-- A real input; the instantiating module fixes its format. -/
def addAnalogInput (name : String) : Edit R SignalId :=
  addRawSignal name (.real (.param name)) .input none

/-- A real output; the instantiating module fixes its format. -/
def addAnalogOutput (name : String) (init : R) : Edit R SignalId :=
  addRawSignal name (.real (.param name)) .output (some (.real init))

/-- An internal real. -/
def addAnalogState (name : String) (range init : R) : Edit R SignalId := do
  let format ← check .construction (realFormat range)
  check .format (checkInit name format (.real init))
  addRawSignal name format .internal (some (.real init))

/-- An integer input. -/
def addDigitalInput (name : String) (width : Nat) (signedness : Signedness) : Edit R SignalId := do
  let format ← check .construction (intFormat name width signedness)
  addRawSignal name format .input none

/-- An integer that the module drives. -/
def addDigital (name : String) (width : Nat) (signedness : Signedness) (init : Int) (role : Role R) :
    Edit R SignalId := do
  let format ← check .construction (intFormat name width signedness)
  check .format (checkInit name format (.int init))
  addRawSignal name format role (some (.int init))

/-- An integer output. -/
def addDigitalOutput (name : String) (width : Nat) (signedness : Signedness) (init : Int) :
    Edit R SignalId :=
  addDigital name width signedness init .output

/-- An internal integer. -/
def addDigitalState (name : String) (width : Nat) (signedness : Signedness) (init : Int) :
    Edit R SignalId :=
  addDigital name width signedness init .internal

/-- A parameter. A default outside its format is only worth a warning. -/
def addParam (name : String) (format : Format R) (default : Value R) : Edit R SignalId := do
  let i ← addRawSignal name format (.param default) none
  if format.contains? default = some false then
    Edit.report {
      title := s!"default value of parameter `{name}` lies outside its format"
      footers := [(.note, "format is " ++ format.text), (.note, "default is " ++ default.text)] }
  return i

/-- A real parameter. -/
def addAnalogParam (name : String) (range default : R) : Edit R SignalId := do
  addParam name (← check .construction (realFormat range)) (.real default)

/-- An integer parameter. -/
def addDigitalParam (name : String) (width : Nat) (signedness : Signedness) (default : Int) :
    Edit R SignalId := do
  addParam name (← check .construction (intFormat name width signedness)) (.int default)

/-- An internal signal. -/
def addSignal (name : String) (format : Format R) : Edit R SignalId :=
  addRawSignal name format .internal none

/-- A real variable of an equation system. It is eliminated with the system, so its format is never
seen. -/
def addVariable (name : String) : Edit R SignalId :=
  addRawSignal name (.ofMagnitude 0) .auxiliary none

/-- The signal of a given name. -/
def signalNamed (name : String) : Edit R SignalId := Edit.build (Build.signalNamed name)

/-! ## Assignments -/

/-- Refuse to drive an input, a parameter, an equation variable or a signal that has a driver. -/
def checkAssignable (i : SignalId) : Edit R Unit := do
  let signal ← Edit.signal i
  unless signal.role.isAssignable do throw (.construction (.notAssignable signal.name))
  if (← get).assignments.contains i then throw (.construction (.alreadyAssigned signal.name))

/-- Refuse a value of another domain, and for a register an integer of another width. -/
def checkFormat (signal : Signal R) (format : Format R) (registered : Bool) :
    Except FormatError Unit :=
  match signal.format, format with
  | .real _, .real _ => .ok ()
  | .int target, .int source =>
    if registered && target.width != source.width then
      .error (.widthMismatch signal.name signal.format.text format.text)
    else .ok ()
  | _, _ => .error (.domainMismatch signal.name signal.format.text format.text)

/-- Add an assignment; the first one of a signal stays. -/
def insertAssignment (a : Assignment R) : Edit R Unit := do
  let m ← get
  match m.assignments.insertFirst? a.signal a with
  | some assignments => set { m with assignments }
  | none => throw (.construction (.alreadyAssigned (m.store.signal a.signal).name))

/-- Drive a signal in the same cycle. -/
def setThisCycle (i : SignalId) (expr : Operand R) (checked : Bool) : Edit R Unit := do
  let expr ← Edit.build (Build.operand expr)
  checkAssignable i
  if checked then
    check .format (checkFormat (← Edit.signal i) ((← get).store.format expr) false)
  insertAssignment ⟨i, expr, .thisCycle⟩

/-- Refuse a control signal that is not a bit. -/
def checkControl (i : SignalId) : Edit R Unit := do
  let format := (← Edit.signal i).format
  unless format.isBit do throw (.construction (.selectorNotBit format.text))

/-- The value of a register after reset: the initial value, or zero. -/
def initialValue (signal : Signal R) : Value R := signal.init.getD (.zeroFor signal.format)

/-- Drive a signal from the next clock edge on. -/
def setNextCycle (i : SignalId) (expr : Operand R) (clocking : Clocking) (checked : Bool) :
    Edit R Unit := do
  let expr ← Edit.build (Build.operand expr)
  checkAssignable i
  for control in [clocking.clock, clocking.reset, clocking.enable].filterMap id do
    checkControl control
  let signal ← Edit.signal i
  let init := initialValue signal
  if checked then
    check .format (checkFormat signal ((← get).store.format expr) true)
    check .format (checkInit signal.name signal.format init)
  insertAssignment ⟨i, expr, .nextCycle clocking init⟩

/-- An internal signal of the format of an expression, driven by it in the same cycle. -/
def bindName (name : String) (expr : Operand R) : Edit R SignalId := do
  let expr ← Edit.build (Build.operand expr)
  let i ← addSignal name ((← get).store.format expr)
  setThisCycle i (.node expr) true
  return i

/-- Show a signal to whoever runs the hardware. -/
def addProbe (i : SignalId) : Edit R Unit :=
  modify fun m => if m.probes.contains i then m else { m with probes := m.probes ++ [i] }

end Model

end MixedSignal
