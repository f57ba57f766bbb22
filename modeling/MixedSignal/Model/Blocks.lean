import MixedSignal.Equation.System
import MixedSignal.Expr.Reads
import MixedSignal.Linear.TransferFunction
import MixedSignal.Model.Basic

/-!
# Building blocks of models

Equation systems, discrete-time systems, transfer functions, counters, delay lines and table look-ups,
all made of signals and assignments.
-/

namespace MixedSignal.Model

variable {R : Type} [Scalar R]

/-- The time step of the model. -/
def timestep : Edit R R := do
  match (← get).dt with
  | some dt => return dt
  | none => throw (.system .missingTimestep)

/-! ## Linear systems -/

/-- The coefficient of a signal: constant, or picked by the mode. -/
def coefficientNode (coefficients : List R) (mode : Option NodeId) : Edit R NodeId :=
  match mode with
  | some mode =>
    Edit.build (Build.array (coefficients.map fun c => .value (.real c)) (.node mode))
  | none =>
    match coefficients with
    | [c] => Edit.build (Build.constant (.real c))
    | _ => throw (.construction (.arraySize coefficients.length 0))

/-- The products of a row of a block with signals. -/
def rowTerms (system : ModalSystem R) (block : Block) (row : Nat) (signals : List SignalId)
    (mode : Option NodeId) : Edit R (List NodeId) :=
  if system.hasBlock block then
    signals.zipIdx.mapM fun (signal, col) => do
      let c ← coefficientNode (system.coefficients block row col) mode
      Edit.build (Build.mul (.node c) (.signal signal))
  else return []

/-- A row of the system: the sum of the products with states and inputs. -/
def systemRow (system : ModalSystem R) (stateBlock inputBlock : Block) (row : Nat)
    (states inputs : List SignalId) (mode : Option NodeId) : Edit R NodeId := do
  let stateTerms ← rowTerms system stateBlock row states mode
  let inputTerms ← rowTerms system inputBlock row inputs mode
  match stateTerms ++ inputTerms with
  | [] => Edit.build (Build.constant (.real 0))
  | terms => Edit.build (Build.sum (terms.map .node))

/-- Implement a discrete-time system: states become registers, outputs are driven in the same cycle.
With several modes, an expression selects the active one. -/
def addDiscreteSystem (system : ModalSystem R) (inputs states outputs : List SignalId)
    (mode : Option NodeId) (clocking : Clocking) : Edit R Unit := do
  check .system (system.checkShape states.length inputs.length outputs.length)
  for (state, row) in states.zipIdx do
    let expr ← systemRow system .a .b row states inputs mode
    setNextCycle state (.node expr) clocking true
  for (output, row) in outputs.zipIdx do
    let expr ← systemRow system .c .d row states inputs mode
    setThisCycle output (.node expr) true

/-- The roles of signals in an equation system, as far as they are given. -/
structure PartialRoles where
  inputs : Option (List SignalId) := none
  states : Option (List SignalId) := none
  outputs : Option (List SignalId) := none
  selectors : Option (List SignalId) := none

/-- Complete the roles: states are what is differentiated, selectors what case tables read; of the
rest, inputs are what is driven elsewhere, and outputs what the module may drive. -/
def inferRoles (m : Model R) (equations : List Equation) (given : PartialRoles) : SystemRoles :=
  let sides := equations.flatMap fun e => [e.lhs, e.rhs]
  let gather (f : NodeId → List SignalId) : List SignalId := (sides.flatMap f).eraseDups
  let states := given.states.getD (gather m.store.derivsIn)
  let selectors := given.selectors.getD (gather m.store.selectorsIn)
  let free := (gather m.store.signalsIn).filter fun s =>
    !states.contains s && !selectors.contains s
  let inputs := given.inputs.getD <| free.filter fun s =>
    (m.store.signal s).role.isInput || m.assignments.contains s
  let outputs := given.outputs.getD <| free.filter fun s =>
    !inputs.contains s && (m.store.signal s).role.isAssignable
  { inputs, states, outputs, selectors }

/-- Solve, sample and implement a system of linear equations. -/
def addEquations [Numerics R] (equations : List Equation) (given : PartialRoles) (clocking : Clocking) :
    Edit R Unit := do
  let dt ← timestep
  let roles := inferRoles (← get) equations given
  let system ← Edit.onStore (Solving.systemWith Numerics.solve? equations roles)
  let mode ← match roles.selectors with
    | [] => pure none
    | selectors => some <$> Edit.build (Build.concatenate (selectors.map .signal))
  addDiscreteSystem (system.discretize dt) roles.inputs roles.states roles.outputs mode clocking

/-! ## Counters and delay lines -/

/-- An unsigned counter of the enabled clock edges. It rolls over to zero, or stops at its largest
value. -/
def addCounter (name : String) (width : Nat) (init : Int) (wrap : Bool) (clocking : Clocking) :
    Edit R SignalId := do
  let counter ← addDigitalState name width .unsigned init
  let incremented ← Edit.build (Build.add (.signal counter) (.value (.int 1)))
  let limited ← if wrap then pure incremented
    else Edit.build (Build.minimum [.node incremented, .value (.int (Int.pow 2 width - 1))])
  let next ← Edit.build (Build.bitSlice (.node limited) (width - 1) 0)
  setNextCycle counter (.node next) clocking true
  return counter

/-- One more register behind the delay line of a signal. -/
def delayRegister (signal : Signal R) (previous : SignalId) (k : Nat) (clocking : Clocking) :
    Edit R SignalId := do
  let next ← addRawSignal (signal.name ++ "_" ++ toString k) signal.format .internal
    (some (initialValue signal))
  setNextCycle next (.signal previous) clocking true
  return next

/-- The registers `k, k + 1, …` of a delay line, `n` of them behind a given one. -/
def delayRegisters (signal : Signal R) (clocking : Clocking) :
    Nat → Nat → SignalId → Edit R (List SignalId)
  | 0, _, _ => return []
  | n + 1, k, previous => do
    let next ← delayRegister signal previous k clocking
    return next :: (← delayRegisters signal clocking n (k + 1) next)

/-- The signal and its past: `length` signals, each one a cycle behind the one before it. -/
def makeHistory (i : SignalId) (length : Nat) (clocking : Clocking) : Edit R (List SignalId) := do
  match length with
  | 0 => return []
  | n + 1 => return i :: (← delayRegisters (← Edit.signal i) clocking n 1 i)

/-- The signal a number of cycles ago. The length of the history is counted in a word of 64 bits, and
behind the largest number comes zero: the history is empty then, and the signal itself is returned. -/
def delay (i : SignalId) (cycles : UInt64) (clocking : Clocking) : Edit R SignalId := do
  return (← makeHistory i (cycles + 1).toNat clocking).getLast?.getD i

/-- The number of cycles in a time, to the nearest. -/
def cyclesIn (time dt : R) : UInt64 := Scalar.count (time / dt)

/-- The signal a time ago, rounded to whole cycles. -/
def delayTime (i : SignalId) (time : R) (clocking : Clocking) : Edit R SignalId := do
  let dt ← timestep
  if !Scalar.isFinite time || Scalar.lt time 0 then
    throw (.construction (.invalidTime (Scalar.plain time)))
  delay i (cyclesIn time dt) clocking

/-! ## Transfer functions and tables -/

/-- The products of coefficients with signals, zero coefficients left out. -/
def weightedTerms (coefficients : List R) (signals : List SignalId) : Edit R (List NodeId) :=
  ((coefficients.zip signals).filter (·.1 != 0)).mapM fun (c, signal) =>
    Edit.build (Build.mul (.value (.real c)) (.signal signal))

/-- Implement a sampled transfer function as a difference equation over the past of input and output;
the output is driven in the same cycle. -/
def addDifferenceEquation (sampled : TransferFunction R) (input output : SignalId)
    (clocking : Clocking) : Edit R Unit := do
  let inputs ← makeHistory input (sampled.order + 1) clocking
  let outputs ← makeHistory output (sampled.order + 1) clocking
  let inputTerms ← weightedTerms sampled.num inputs
  let outputTerms ← weightedTerms (sampled.den.tail.map (-·)) outputs.tail
  let expr ← match inputTerms ++ outputTerms with
    | [] => Edit.build (Build.constant (.real 0))
    | terms => Edit.build (Build.sum (terms.map .node))
  setThisCycle output (.node expr) true

/-- Implement a transfer function from one signal to another. -/
def setTransferFunction [Numerics R] (input output : SignalId) (num den : List R)
    (clocking : Clocking) : Edit R Unit := do
  let dt ← timestep
  let t ← check .system (TransferFunction.ofCoefficients num den)
  addDifferenceEquation (.ofStateSpace (t.toStateSpace.discretize dt)) input output clocking

/-- Drive a signal with the table entry at an unsigned address; addresses behind the table read zero.
The table is kept under a name, to be written out with the model. -/
def setFromTable (output : SignalId) (name : String) (table : Table R) (address : Operand R) :
    Edit R Unit := do
  unless Identifier.isValid name do throw (.construction (.invalidName name))
  let address ← Edit.build (Build.operand address)
  let width ← Edit.build (Build.requireUnsigned address)
  if 64 ≤ width ∨ Nat.pow 2 width < table.length then
    throw (.construction (.arraySize table.length width))
  let values := table.paddedValues (Nat.pow 2 width)
  let lookup ← Edit.build (Build.array (values.map .value) (.node address))
  let m ← get
  match m.tables.insertFirst? name table with
  | some tables => set { m with tables }
  | none => throw (.construction (.duplicateName name))
  setThisCycle output (.node lookup) true

end MixedSignal.Model
