import MixedSignal.Expr.Node

/-!
# Linear forms

A constant plus a weighted sum of variables, read off an expression whose constants have been
multiplied into sums.
-/

namespace MixedSignal

/-- A variable of an equation: a signal, or the derivative of one. -/
inductive LinearVar where
  | signal (s : SignalId)
  | deriv (s : SignalId)
  deriving DecidableEq, Repr

/-- `constant + Σ coefficient * variable`, variables in the order of their first use. -/
structure LinearForm (R : Type) where
  constant : R
  terms : List (LinearVar × R)
  deriving Repr

namespace LinearForm

variable {R : Type} [Scalar R]

/-- The form that is zero. -/
def zero : LinearForm R := ⟨0, []⟩

/-- Add a coefficient to that of a variable. -/
def addTerm (terms : List (LinearVar × R)) (v : LinearVar) (c : R) : List (LinearVar × R) :=
  match terms with
  | [] => [(v, 0 + c)]
  | (w, d) :: rest => if w = v then (w, d + c) :: rest else (w, d) :: addTerm rest v c

/-- The coefficient of a variable. -/
def coefficient (f : LinearForm R) (v : LinearVar) : Option R := f.terms.lookup v

/-- The variable that a node reads. -/
def leafVar? (s : Store R) (i : NodeId) : Option LinearVar :=
  match s.kind i with
  | .signal x => some (.signal x)
  | .deriv x => some (.deriv x)
  | _ => none

/-- The variable and coefficient of a term. -/
def term? (s : Store R) (i : NodeId) : Option (LinearVar × R) :=
  match s.kind i with
  | .arith .product [a, b] => do
    let c ← s.const? b
    return (← leafVar? s a, c.toScalar)
  | _ => (leafVar? s i).map (·, 1)

/-- Add a term of a sum to a form. -/
def addNode? (s : Store R) (f : LinearForm R) (i : NodeId) : Option (LinearForm R) :=
  match s.const? i with
  | some v => some { f with constant := f.constant + v.toScalar }
  | none => (term? s i).map fun (v, c) => { f with terms := addTerm f.terms v c }

/-- The terms of a sum, or the expression itself. -/
def summands (s : Store R) (i : NodeId) : List NodeId :=
  match s.kind i with
  | .arith .sum xs => xs
  | _ => [i]

/-- Read an expression as a linear form, if it is one. -/
def ofNode? (s : Store R) (i : NodeId) : Option (LinearForm R) :=
  (summands s i).foldlM (addNode? s) zero

end LinearForm

end MixedSignal
