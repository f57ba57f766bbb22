import MixedSignal.Linear.StateSpace

/-!
# Transfer functions

A quotient of two polynomials, coefficients from the highest power down, and its realization as a
state-space system with one input and one output. `TransferFunction.toStateSpace` is the controllable
canonical form; `TransferFunction.ofStateSpace` finds the characteristic polynomial and the adjugate
of `z - A` by one recursion on the power.
-/

namespace MixedSignal

/-- The quotient `num / den`. The leading coefficient of `den` is one, and `num` is as long as `den`. -/
structure TransferFunction (R : Type) where
  num : List R
  den : List R
  deriving Repr

namespace TransferFunction

variable {R : Type} [Scalar R]

/-- The transfer function with the given coefficients, scaled to a leading one. -/
def ofCoefficients (num den : List R) : Except SystemError (TransferFunction R) :=
  let num := num.dropWhile (· == 0)
  match den.dropWhile (· == 0) with
  | [] => .error .zeroDenominator
  | lead :: rest =>
    let den := lead :: rest
    if den.length < num.length then
      .error (.improperTransferFunction (num.length - 1) (den.length - 1))
    else
      .ok ⟨List.replicate (den.length - num.length) 0 ++ num.map (· / lead), den.map (· / lead)⟩

/-- The degree of the denominator. -/
def order (t : TransferFunction R) : Nat := t.den.length - 1

/-- The controllable canonical form: the companion matrix of the denominator, the first unit vector
as input, and the numerator reduced by its leading coefficient as output. -/
def toStateSpace (t : TransferFunction R) : StateSpace R :=
  let n := t.order
  let den (i : Nat) : R := t.den.getD i 0
  let num (i : Nat) : R := t.num.getD i 0
  let d := some (.ofFn 1 1 fun _ _ => num 0)
  if n = 0 then { d }
  else {
    a := some (.ofFn n n fun i j => if i = 0 then -den (j + 1) else if i = j + 1 then 1 else 0)
    b := some (.ofFn n 1 fun i _ => if i = 0 then 1 else 0)
    c := some (.ofFn 1 n fun _ j => num (j + 1) - den (j + 1) * num 0)
    d }

/-- One step of the recursion from the `k`-th coefficient: the next matrix of the adjugate is
`A M + c 1`, and the next coefficient is the trace of `A` times it, negated and divided by `k + 1`. -/
def nextCoefficient (a m : DenseMatrix R) (c : R) (k : Nat) : DenseMatrix R × R :=
  let m := (a.mul m).add ((DenseMatrix.identity a.rows).scale c)
  (m, -(a.mul m).trace / Scalar.ofInt (k + 1))

/-- The coefficients of the characteristic polynomial after the `k`-th, and the matrices of the
adjugate, for `n` steps from a matrix and coefficient. -/
def characteristic (a : DenseMatrix R) : Nat → Nat → DenseMatrix R → R → List (DenseMatrix R × R)
  | 0, _, _, _ => []
  | n + 1, k, m, c =>
    let next := nextCoefficient a m c k
    next :: characteristic a n (k + 1) next.1 next.2

/-- The transfer function `C (z - A)⁻¹ B + D` of a system with one input and one output. -/
def ofStateSpace (s : StateSpace R) : TransferFunction R :=
  let d := s.coefficient .d 0 0
  let steps := match s.a with
    | some a => characteristic a a.rows 0 (.zeros a.rows a.rows) 1
    | none => []
  let den := 1 :: steps.map (·.2)
  let feedthrough := den.map (d * ·)
  let num := match s.b, s.c, feedthrough with
    | some b, some c, lead :: rest =>
      lead :: List.zipWith (fun x (m, _) => x + ((c.mul m).mul b).get 0 0) rest steps
    | _, _, _ => feedthrough
  ⟨num, den⟩

end TransferFunction

end MixedSignal
