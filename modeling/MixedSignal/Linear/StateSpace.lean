import MixedSignal.Linear.Error
import MixedSignal.Linear.Numerics

/-!
# State-space systems

`x' = A x + B u`, `y = C x + D u`, one such system for every mode. A block that would have no rows or
no columns is absent, and an absent block reads as zero.
-/

namespace MixedSignal

/-- The blocks of a linear system. -/
structure StateSpace (R : Type) where
  a : Option (DenseMatrix R) := none
  b : Option (DenseMatrix R) := none
  c : Option (DenseMatrix R) := none
  d : Option (DenseMatrix R) := none
  deriving DecidableEq, Repr

namespace StateSpace

variable {R : Type} [Scalar R]

/-- A block by its name. -/
def block (s : StateSpace R) : Block → Option (DenseMatrix R)
  | .a => s.a
  | .b => s.b
  | .c => s.c
  | .d => s.d

/-- A coefficient of a block, unless it lies outside. -/
def coefficient? (s : StateSpace R) (block : Block) (row col : Nat) : Option R :=
  match s.block block with
  | some m => m.get? row col
  | none => some 0

/-- A coefficient of a block. -/
def coefficient (s : StateSpace R) (block : Block) (row col : Nat) : R :=
  match s.block block with
  | some m => m.get row col
  | none => 0

/-- The integral of `exp (A t) B` over a step, as the upper right block of the exponential of
`[[A, B], [0, 0]]`. It is defined for singular `A` too. -/
def integratedInput [Numerics R] (a b : DenseMatrix R) (dt : R) : DenseMatrix R :=
  let n := a.rows
  let m := b.cols
  let whole : DenseMatrix R := .ofFn (n + m) (n + m) fun i j =>
    if i < n then (if j < n then a.get i j else b.get i (j - n)) else 0
  (Numerics.exp (whole.scale dt)).block 0 n n m

/-- The system sampled with a time step, inputs held over each step: `exp (A dt)` for `A`, and for `B`
the solution of `A B' = (exp (A dt) - 1) B`, or the integral if `A` is singular. -/
def discretize [Numerics R] (s : StateSpace R) (dt : R) : StateSpace R :=
  let a := s.a.map fun a => Numerics.exp (a.scale dt)
  let b := match s.a, a, s.b with
    | some a, some sampled, some b =>
      match Numerics.solve? a ((sampled.sub (.identity a.rows)).mul b) with
      | some x => if x.isFinite then some x else some (integratedInput a b dt)
      | none => some (integratedInput a b dt)
    | _, _, _ => none
  { s with a, b }

end StateSpace

/-- One system per mode; mode `i` is selected by the address `i`. -/
structure ModalSystem (R : Type) where
  modes : List (StateSpace R)
  deriving DecidableEq, Repr

namespace ModalSystem

variable {R : Type} [Scalar R]

/-- Every mode sampled with a time step. -/
def discretize [Numerics R] (s : ModalSystem R) (dt : R) : ModalSystem R := ⟨s.modes.map (·.discretize dt)⟩

/-- A coefficient in every mode, unless it lies outside in one of them. -/
def coefficients? (s : ModalSystem R) (block : Block) (row col : Nat) : Option (List R) :=
  s.modes.mapM (·.coefficient? block row col)

/-- A coefficient in every mode. -/
def coefficients (s : ModalSystem R) (block : Block) (row col : Nat) : List R :=
  s.modes.map (·.coefficient block row col)

/-- Whether some mode has the block. -/
def hasBlock (s : ModalSystem R) (block : Block) : Bool :=
  s.modes.any fun mode => (mode.block block).isSome

/-- The shape of each block. -/
def expectedShapes (states inputs outputs : Nat) : List (Block × (Nat × Nat)) :=
  [(.a, (states, states)), (.b, (states, inputs)), (.c, (outputs, states)), (.d, (outputs, inputs))]

/-- The first block of a mode that has another shape than expected. -/
def shapeError? (mode : Nat) (s : StateSpace R) (expected : List (Block × (Nat × Nat))) :
    Option SystemError :=
  expected.findSome? fun (block, shape) =>
    (s.block block).bind fun m =>
      if (m.rows, m.cols) = shape then none
      else some (.blockShape mode block shape (m.rows, m.cols))

/-- Check every block of every mode against the number of states, inputs and outputs. -/
def checkShape (s : ModalSystem R) (states inputs outputs : Nat) : Except SystemError Unit :=
  match s.modes.zipIdx.findSome? fun (mode, i) =>
      shapeError? i mode (expectedShapes states inputs outputs) with
  | some e => .error e
  | none => .ok ()

end ModalSystem

end MixedSignal
