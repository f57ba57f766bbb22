import Std.Data.TreeSet
import MixedSignal.Expr.Node

/-!
# What an expression reads

`Store.occurrences` lists the nodes of an expression depth first, each operand before the next, a
shared node once for every use. The derivatives and selectors of an expression are read off that list
in the order of their first use. Its signals are collected with a stack of nodes that are still to be
visited, and no node is visited twice (`Store.collectSignals`).
-/

namespace MixedSignal.Store

variable {R : Type}

/-- The nodes of an expression, depth first from the left. -/
def occurrences (s : Store R) (i : NodeId) : List NodeId :=
  i :: (s.children i).flatMap fun j => if _h : j < i then occurrences s j else []
termination_by i

/-- The signal a node reads; a derivative reads its signal. -/
def readSignal? : NodeKind R → Option SignalId
  | .signal s => some s
  | .deriv s => some s
  | _ => none

/-- The signal under a derivative. -/
def derivSignal? : NodeKind R → Option SignalId
  | .deriv s => some s
  | _ => none

/-- The selectors of a case table. -/
def selectors : NodeKind R → List SignalId
  | .cases _ selectors => selectors
  | _ => []

/-- The signals with one more behind them, unless it is one of them. -/
def withRead (found : List SignalId) (x : SignalId) : List SignalId :=
  if x ∈ found then found else found ++ [x]

/-- The nodes of an expression are the node itself and those of its operands. -/
theorem occurrences_eq (s : Store R) (i : NodeId) :
    s.occurrences i = i :: ((s.children i).filter (· < i)).flatMap s.occurrences := by
  rw [occurrences]
  congr 1
  induction s.children i with
  | nil => rfl
  | cons j js ih =>
    rw [List.flatMap_cons, List.filter_cons, ih]
    by_cases h : j < i <;> simp [h]

/-- Add the signals that the nodes on a stack and those below them read, in the order of their first
use. A node that was seen before is passed over. The operands of any other node go on top of the
stack, the first one uppermost. -/
def collectSignals (s : Store R) (seen : Std.TreeSet NodeId) (found : List SignalId) :
    List NodeId → List SignalId
  | [] => found
  | i :: stack =>
    if seen.contains i then collectSignals s seen found stack
    else
      let found := (readSignal? (s.kind i)).elim found (withRead found)
      collectSignals s (seen.insert i) found ((s.children i).filter (· < i) ++ stack)
termination_by stack => (stack.flatMap s.occurrences).length
decreasing_by
  all_goals
    simp only [List.flatMap_cons, List.flatMap_append, List.length_append, s.occurrences_eq i,
      List.length_cons]
    omega

/-- Add the signals that an expression reads to those found before. -/
def addSignalsIn (s : Store R) (found : List SignalId) (i : NodeId) : List SignalId :=
  s.collectSignals {} found [i]

/-- The signals an expression reads. -/
def signalsIn (s : Store R) (i : NodeId) : List SignalId := s.addSignalsIn [] i

/-- The signals whose derivatives an expression reads. -/
def derivsIn (s : Store R) (i : NodeId) : List SignalId :=
  ((s.occurrences i).filterMap fun j => derivSignal? (s.kind j)).eraseDups

/-- The selectors of the case tables of an expression. -/
def selectorsIn (s : Store R) (i : NodeId) : List SignalId :=
  ((s.occurrences i).flatMap fun j => selectors (s.kind j)).eraseDups

end MixedSignal.Store
