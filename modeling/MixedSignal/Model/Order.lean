import MixedSignal.Dependency
import MixedSignal.Expr.Reads
import MixedSignal.Model.Basic

/-!
# The order of same-cycle assignments

Each signal that is driven in the same cycle comes after those that its expression reads.
-/

namespace MixedSignal.Model

variable {R : Type}

/-- Whether a signal is driven in the same cycle. -/
def isCombinational (m : Model R) (i : SignalId) : Bool :=
  (m.assignments.get? i).any (·.isCombinational)

/-- The signals driven in the same cycle that the expression of a signal reads. -/
def combinationalReads (m : Model R) (i : SignalId) : List SignalId :=
  match m.assignments.get? i with
  | some a => (m.store.signalsIn a.expr).filter m.isCombinational
  | none => []

/-- The signals driven in the same cycle, each after those it reads, unless there is a cycle. -/
def combinationalOrder (m : Model R) : Except EmitError (List SignalId) :=
  let nodes := m.assignments.keys.filter m.isCombinational
  match Dependency.dependencyOrder nodes.length m.combinationalReads nodes with
  | .ok order => .ok order
  | .error cycle => .error (.combinationalCycle (cycle.map fun i => (m.store.signal i).name))

end MixedSignal.Model
