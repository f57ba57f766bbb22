import MixedSignal.Linear.DenseMatrix

/-!
# Solving linear systems

Gaussian elimination with partial pivoting on rows that carry their right-hand sides along: the row
with the largest leading coefficient moves to the front, is subtracted from the others, and the
smaller system that remains is solved first. A system is singular exactly when a pivot is zero.
-/

namespace MixedSignal.Elimination

variable {R : Type} [Scalar R]

/-- The coefficients of the unknowns and the right-hand sides of one equation. -/
structure Row (R : Type) where
  coeffs : List R
  rhs : List R
  deriving Repr

/-- The leading coefficient. -/
def Row.lead (r : Row R) : R := r.coeffs.headD 0

/-- The place of the row with the largest leading coefficient, the first one of several. -/
def pivotIndex (rows : List (Row R)) : Nat :=
  match rows with
  | [] => 0
  | first :: rest =>
    (rest.zipIdx 1).foldl (fun (best : Nat × R) (r, i) =>
      if Scalar.lt best.2 (Scalar.abs r.lead) then (i, Scalar.abs r.lead) else best)
      (0, Scalar.abs first.lead) |>.1

/-- The pivot row and the others; the first row takes the place of the pivot. -/
def choosePivot (rows : List (Row R)) : Option (Row R × List (Row R)) :=
  match rows with
  | [] => none
  | first :: rest =>
    match pivotIndex rows with
    | 0 => some (first, rest)
    | k + 1 => (rest[k]?).map fun pivot => (pivot, rest.set k first)

/-- `xs - factor * ps`, entry by entry. -/
def subtractMultiple (factor : R) (ps xs : List R) : List R :=
  List.zipWith (fun p x => -p * factor + x) ps xs

/-- Subtract the multiple of the pivot row that clears the leading coefficient, and drop the latter. -/
def Row.reduce (pivot : Row R) (inverse : R) (r : Row R) : Row R :=
  let factor := r.lead * inverse
  ⟨subtractMultiple factor pivot.coeffs.tail r.coeffs.tail,
    subtractMultiple factor pivot.rhs r.rhs⟩

/-- The first unknown from the pivot row and the unknowns after it, for every right-hand side. -/
def Row.substitute (pivot : Row R) (later : List (List R)) : List R :=
  pivot.rhs.mapIdx fun j b =>
    ((pivot.coeffs.tail.zip later).foldr (fun (u, xs) acc => -(xs.getD j 0) * u + acc) b)
      / pivot.lead

/-- The unknowns of a system of `n` equations, one row of values per unknown. -/
def solveRows : Nat → List (Row R) → Option (List (List R))
  | 0, _ => some []
  | n + 1, rows => do
    let (pivot, rest) ← choosePivot rows
    if pivot.lead == 0 then none
    else
      let later ← solveRows n (rest.map (pivot.reduce (1 / pivot.lead)))
      return pivot.substitute later :: later

end MixedSignal.Elimination

namespace MixedSignal.DenseMatrix

variable {R : Type} [Scalar R]

/-- The matrix `x` with `u * x = v`, for square `u`. -/
def solve? (u v : DenseMatrix R) : Option (DenseMatrix R) :=
  let rows := (List.range u.rows).map fun i => (⟨u.row i, v.row i⟩ : Elimination.Row R)
  (Elimination.solveRows u.rows rows).map fun x =>
    ofFn u.rows v.cols fun i j => (x.getD i []).getD j 0

end MixedSignal.DenseMatrix
