import MixedSignal.Error
import MixedSignal.Equation.LinearForm
import MixedSignal.Expr.Transform
import MixedSignal.Expr.Text
import MixedSignal.Linear.StateSpace

/-!
# Equation systems

A system of linear equations is solved for the derivatives of its states and for its outputs, once
for every setting of the selector bits. Mode `i` belongs to the setting whose bits read as `i`, the
first selector most significant.
-/

namespace MixedSignal

/-- The parts that signals play in an equation system. -/
structure SystemRoles where
  inputs : List SignalId := []
  states : List SignalId := []
  outputs : List SignalId := []
  selectors : List SignalId := []
  deriving Repr

/-- Computations on a store that may fail in any way; what was added before a failure stays. -/
abbrev Solving (R : Type) := ExceptT Error (StateM (Store R))

namespace Solving

variable {R : Type} [Scalar R]

/-- Run a construction. -/
def build {α : Type} (x : Build R α) : Solving R α :=
  ExceptT.mk (Except.mapError Error.construction <$> x.run)

/-- The bit of a selector in a mode. A selector that is listed twice has its last bit. -/
def modeSetting (selectors : List SignalId) (mode : Nat) (s : SignalId) : Option Bool :=
  (selectors.zipIdx.reverse.find? (·.1 == s)).map fun (_, i) =>
    mode.testBit (selectors.length - 1 - i)

/-! ## Equations as linear forms -/

/-- An equation as a linear form that is to be zero. -/
def formOf (setting : SignalId → Option Bool) (e : Equation) : Solving R (LinearForm R) := do
  let lhs ← build (Build.resolveCases setting e.lhs)
  let rhs ← build (Build.resolveCases setting e.rhs)
  let difference ← build (Build.sub (.node lhs) (.node rhs))
  let difference ← build (Build.distributeProducts difference)
  let s ← get
  let shown := s.text lhs ++ " == " ++ s.text rhs
  match LinearForm.ofNode? s difference with
  | none => throw (.system (.nonLinear shown))
  | some f =>
    if f.constant != 0 then throw (.system (.nonZeroConstant shown))
    return f

/-! ## Knowns and unknowns -/

/-- The known signals: inputs, then states. -/
def knowns (roles : SystemRoles) : List SignalId := (roles.inputs ++ roles.states).eraseDups

/-- Whether a variable is an unknown that the roles do not name. A derivative of something else than a
state, a selector and a parameter are none. -/
def internal? (s : Store R) (roles : SystemRoles) : LinearVar → Except SystemError (Option LinearVar)
  | .deriv x =>
    if roles.states.contains x then .ok none
    else .error (.unclassifiable ("d/dt(" ++ (s.signal x).name ++ ")"))
  | .signal x =>
    if (knowns roles).contains x then .ok none
    else
      let isParam := match (s.signal x).role with
        | .param _ => true
        | _ => false
      if roles.selectors.contains x || isParam then .error (.unclassifiable (s.signal x).name)
      else .ok (some (.signal x))

/-- The unknowns: derivatives of states, outputs, then internal signals in the order of their first
use. -/
def unknowns (s : Store R) (roles : SystemRoles) (forms : List (LinearForm R)) :
    Except SystemError (List LinearVar) := do
  let internal ← (forms.flatMap fun f => f.terms.map (·.1)).mapM (internal? s roles)
  return (roles.states.map LinearVar.deriv ++ roles.outputs.map LinearVar.signal
    ++ internal.filterMap id).eraseDups

/-! ## The solution -/

/-- The coefficients of the unknowns. -/
def unknownMatrix (forms : List (LinearForm R)) (unknowns : List LinearVar) : DenseMatrix R :=
  .ofRows (forms.map fun f => unknowns.map fun v =>
    match f.coefficient v with
    | some c => 0 + c
    | none => 0)

/-- The negated coefficients of the knowns. -/
def knownMatrix (forms : List (LinearForm R)) (unknowns : List LinearVar) (knowns : List SignalId) :
    DenseMatrix R :=
  .ofRows (forms.map fun f => knowns.map fun x =>
    match f.coefficient (.signal x) with
    | some c => if unknowns.contains (.signal x) then 0 else 0 - c
    | none => 0)

/-- A block of the solution; one without rows or columns is absent. -/
def cutBlock (x : DenseMatrix R) (row rows col cols : Nat) :
    Except SystemError (Option (DenseMatrix R)) :=
  if rows = 0 ∨ cols = 0 then .ok none
  else if row + rows ≤ x.rows ∧ col + cols ≤ x.cols then .ok (some (x.block row col rows cols))
  else .error .outOfBounds

/-- Every unknown in terms of the knowns, one row per unknown. -/
def solution (solve : Solver R) (forms : List (LinearForm R)) (unknowns : List LinearVar)
    (knowns : List SignalId) : Except SystemError (DenseMatrix R) :=
  if forms.length < unknowns.length then
    .error (.underConstrained forms.length unknowns.length)
  else if unknowns.length < forms.length then
    .error (.overConstrained forms.length unknowns.length)
  else if knowns.isEmpty then .ok (.zeros unknowns.length 0)
  else if unknowns.isEmpty then .error .outOfBounds
  else
    match solve (unknownMatrix forms unknowns) (knownMatrix forms unknowns knowns) with
    | some x => .ok x
    | none => .error .singular

/-- The blocks of a solution. -/
def blocks (roles : SystemRoles) (x : DenseMatrix R) : Except SystemError (StateSpace R) := do
  let inputs := roles.inputs.length
  let states := roles.states.length
  let outputs := roles.outputs.length
  return {
    a := ← cutBlock x 0 states inputs states
    b := ← cutBlock x 0 states 0 inputs
    c := ← cutBlock x states outputs inputs states
    d := ← cutBlock x states outputs 0 inputs }

/-- The system in one mode. -/
def mode (solve : Solver R) (equations : List Equation) (roles : SystemRoles)
    (setting : SignalId → Option Bool) : Solving R (StateSpace R) := do
  let forms ← equations.mapM (formOf setting)
  let s ← get
  let result : Except SystemError (StateSpace R) := do
    let unknowns ← unknowns s roles forms
    let x ← solution solve forms unknowns (knowns roles)
    blocks roles x
  match result with
  | .ok system => return system
  | .error e => throw (.system e)

/-- The system in every mode. -/
def systemWith (solve : Solver R) (equations : List Equation) (roles : SystemRoles) :
    Solving R (ModalSystem R) := do
  if 64 ≤ roles.selectors.length then
    throw (.construction (.caseCount 0 roles.selectors.length))
  let modes ← (List.range (Nat.pow 2 roles.selectors.length)).mapM fun m =>
    mode solve equations roles (modeSetting roles.selectors m)
  return ⟨modes⟩

/-- The system in every mode, solved by elimination. -/
def system (equations : List Equation) (roles : SystemRoles) : Solving R (ModalSystem R) :=
  systemWith DenseMatrix.solve? equations roles

end Solving

end MixedSignal
