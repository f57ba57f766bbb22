import MixedSignal.Linear.Exponential

/-!
# Numerical routines

Equation systems are solved and sampled by a solver of linear equations and an exponential of
matrices. Both are a parameter of what uses them, so that statements about models hold for any
routines. Doubles use elimination and Padé approximants.
-/

namespace MixedSignal

/-- Solvers of `u * x = v` for square `u`. -/
abbrev Solver (R : Type) := DenseMatrix R → DenseMatrix R → Option (DenseMatrix R)

/-- The routines that linear systems are solved and sampled with. -/
class Numerics (R : Type) where
  solve? : Solver R
  /-- The exponential of a square matrix. -/
  exp : DenseMatrix R → DenseMatrix R

/-- Elimination and Padé approximants. -/
def Numerics.standard (R : Type) [Scalar R] : Numerics R := ⟨DenseMatrix.solve?, DenseMatrix.exp⟩

instance : Numerics Float := .standard Float

end MixedSignal
