import MixedSignal.Expr.Eval
import MixedSignal.Model.Order

/-!
# Simulation

A cycle-accurate simulation of a model. A step is one clock edge: inputs are driven, same-cycle
assignments settle, all registers load values computed from that state, and same-cycle assignments
settle again. All registers share one clock; each has its own reset and enable.
-/

namespace MixedSignal

/-- Whether each signal has values. -/
def Model.hasValues {R : Type} (m : Model R) : Bool := m.store.signals.all (·.format.hasValues)

/-- A running simulation. -/
structure Simulator (R : Type) where
  model : Model R
  /-- The signals driven in the same cycle, each after those it reads. -/
  order : List SignalId
  values : Array (Value R)
  cycle : Nat := 0

/-- Computations that change a simulation and may fail; what was changed before a failure stays. -/
abbrev Simulation (R : Type) := ExceptT Error (StateM (Simulator R))

namespace Simulator

variable {R : Type} [Scalar R]

/-- The value of a signal. -/
def value (s : Simulator R) (i : SignalId) : Value R :=
  s.values.getD i (.zeroFor (s.model.store.signal i).format)

/-- The value of a signal as a scalar. -/
def scalar (s : Simulator R) (i : SignalId) : R := (s.value i).toScalar

/-- The simulation with the value of a signal replaced, brought into the format of the signal. -/
def setValue (s : Simulator R) (i : SignalId) (v : Value R) : Simulator R :=
  { s with values := s.values.setIfInBounds i (v.coerce (s.model.store.signal i).format) }

/-- The value of an expression. -/
def eval (s : Simulator R) (i : NodeId) : Except EmitError (Value R) :=
  s.model.store.eval s.value i

/-- The value of an expression and the values of its nodes, given those of some nodes. -/
def evalFrom (s : Simulator R) (memo : Store.Memo R) (i : NodeId) :
    Except EmitError (Value R × Store.Memo R) :=
  (s.model.store.evalShared s.value i).run memo

/-- Whether a control signal is high. A missing one is not. -/
def isHigh (s : Simulator R) (control : Option SignalId) : Bool :=
  control.any fun i => !(s.value i).isZero

/-- Whether a register loads its expression unless it is reset. -/
def isEnabled (s : Simulator R) (c : Clocking) : Bool :=
  c.enable.isNone || s.isHigh c.enable

/-- Compute an expression in the current state, given the values of some nodes there. -/
def evaluate (memo : Store.Memo R) (i : NodeId) : Simulation R (Value R × Store.Memo R) := do
  match (← get).evalFrom memo i with
  | .ok result => return result
  | .error e => throw (.emit e)

/-- Give a signal a value. -/
def assign (i : SignalId) (v : Value R) : Simulation R Unit := modify (·.setValue i v)

/-- Compute the same-cycle assignment of a signal. Nothing is remembered between assignments, as each
one changes a value. -/
def settleSignal (i : SignalId) : Simulation R Unit := do
  match (← get).model.assignment? i with
  | some a => assign i (← evaluate {} a.expr).1
  | none => return

/-- Compute all same-cycle assignments in order. -/
def settle : Simulation R Unit := do
  (← get).order.forM settleSignal

/-- The value of a signal in the reset state: the default of a parameter, the initial value of a
register or another signal, or zero. -/
def startValue (m : Model R) (signal : Signal R) (i : SignalId) : Value R :=
  let v := match signal.role, (m.assignment? i).map (·.timing) with
    | .param default, _ => default
    | _, some (.nextCycle _ init) => init
    | _, _ => Model.initialValue signal
  v.coerce signal.format

/-- Start a simulation in the reset state, with all inputs zero. Every signal gets a value in its
format, so each of them has to have some. -/
def start (m : Model R) : Except Error (Simulator R) := do
  let order ← m.combinationalOrder.mapError .emit
  unless m.hasValues do throw (.emit .emptyWord)
  let values := m.store.signals.mapIdx fun i signal => startValue m signal i
  let (result, s) := settle.run.run { model := m, order, values }
  result.map fun _ => s

/-- Drive an input. -/
def driveInput (i : SignalId) (v : Value R) : Simulation R Unit := do
  let signal := (← get).model.store.signal i
  unless signal.role.isInput do throw (.construction (.notAssignable signal.name))
  assign i v

/-- What registers load at the clock edge, in order; those that keep their value are left out. No
value changes meanwhile, so all of them share what is remembered. -/
def updates (memo : Store.Memo R) : List (Assignment R) → Simulation R (List (SignalId × Value R))
  | [] => return []
  | a :: rest => do
    let s ← get
    match a.timing with
    | .thisCycle => updates memo rest
    | .nextCycle c init =>
      if s.isHigh c.reset then return (a.signal, init) :: (← updates memo rest)
      else if s.isEnabled c then
        let (v, memo) ← evaluate memo a.expr
        return (a.signal, v) :: (← updates memo rest)
      else updates memo rest

/-- Drive inputs and let same-cycle assignments settle: the state that the clock edge sees. -/
def prepare (inputs : List (SignalId × Value R)) : Simulation R Unit := do
  inputs.forM fun (i, v) => driveInput i v
  settle

/-- Advance by one clock edge. All updates are computed before any is made. -/
def clockEdge : Simulation R Unit := do
  let loaded ← updates {} (← get).model.assignments.values
  loaded.forM fun (i, v) => assign i v
  modify fun s => { s with cycle := s.cycle + 1 }
  settle

/-- Drive inputs and advance by one clock edge. -/
def step (inputs : List (SignalId × Value R)) : Simulation R Unit := do
  prepare inputs
  clockEdge

end Simulator

end MixedSignal
