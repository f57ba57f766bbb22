import MixedSignal.Scalar

/-!
# Dense matrices

Rectangles of scalars, stored row by row. An entry outside the rectangle reads as zero; `get?` tells
the two apart.
-/

namespace MixedSignal

/-- A matrix of the given shape, its entries row by row. -/
structure DenseMatrix (R : Type) where
  rows : Nat
  cols : Nat
  entries : Array R
  deriving DecidableEq, Repr

namespace DenseMatrix

variable {R : Type} [Scalar R]

/-- The matrix with the given entries. -/
def ofFn (rows cols : Nat) (f : Nat → Nat → R) : DenseMatrix R :=
  ⟨rows, cols, Array.ofFn (n := rows * cols) fun k => f (k / cols) (k % cols)⟩

/-- An entry, unless it lies outside. -/
def get? (m : DenseMatrix R) (i j : Nat) : Option R :=
  if i < m.rows ∧ j < m.cols then m.entries[i * m.cols + j]? else none

/-- An entry; zero outside. -/
def get (m : DenseMatrix R) (i j : Nat) : R := (m.get? i j).getD 0

/-- The matrix with the given rows; the first row sets the number of columns. -/
def ofRows (rows : List (List R)) : DenseMatrix R :=
  ofFn rows.length (rows.head?.elim 0 List.length) fun i j => (rows.getD i []).getD j 0

/-- A row as a list. -/
def row (m : DenseMatrix R) (i : Nat) : List R := (List.range m.cols).map (m.get i)

/-- All rows as lists. -/
def toRows (m : DenseMatrix R) : List (List R) := (List.range m.rows).map m.row

/-- All zeros. -/
def zeros (rows cols : Nat) : DenseMatrix R := ofFn rows cols fun _ _ => 0

/-- Ones on the diagonal. -/
def identity (n : Nat) : DenseMatrix R := ofFn n n fun i j => if i = j then 1 else 0

/-- A function of every entry. -/
def map (f : R → R) (m : DenseMatrix R) : DenseMatrix R := ofFn m.rows m.cols fun i j => f (m.get i j)

/-- Every entry times a scalar. -/
def scale (m : DenseMatrix R) (x : R) : DenseMatrix R := m.map (· * x)

/-- The sum of two matrices of one shape. -/
def add (m n : DenseMatrix R) : DenseMatrix R :=
  ofFn m.rows m.cols fun i j => m.get i j + n.get i j

/-- The difference of two matrices of one shape. -/
def sub (m n : DenseMatrix R) : DenseMatrix R :=
  ofFn m.rows m.cols fun i j => m.get i j - n.get i j

/-- The product of two matrices. -/
def mul (m n : DenseMatrix R) : DenseMatrix R :=
  ofFn m.rows n.cols fun i j =>
    Scalar.sum ((List.range m.cols).map fun k => m.get i k * n.get k j)

/-- The sum of the diagonal. -/
def trace (m : DenseMatrix R) : R :=
  (List.range m.rows).foldl (fun t i => t + m.get i i) 0

/-- The largest sum of magnitudes in a column. -/
def norm (m : DenseMatrix R) : R :=
  (List.range m.cols).foldl (fun largest j =>
    Scalar.max largest
      (Scalar.sum ((List.range m.rows).map fun i => Scalar.abs (m.get i j)))) 0

/-- The rectangle of the given shape whose first entry is the one at `(i, j)`. -/
def block (m : DenseMatrix R) (i j rows cols : Nat) : DenseMatrix R :=
  ofFn rows cols fun r c => m.get (i + r) (j + c)

/-- Whether all entries are actual numbers. -/
def isFinite (m : DenseMatrix R) : Bool := m.entries.all Scalar.isFinite

end DenseMatrix

end MixedSignal
