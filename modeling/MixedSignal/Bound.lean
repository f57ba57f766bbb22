import MixedSignal.Scalar

/-!
# Bounds on real magnitudes

A real signal is known to lie in `[-b, b]` for a bound `b`. Bounds may depend on parameters of the
module that instantiates the compiled model, so they are expressions: `Bound.sum`, `Bound.product`
and `Bound.max` merge nested operators of the same kind and fold their constants into one, which
then stands last. The text of a bound is a compile-time expression of the emitted hardware
description.
-/

namespace MixedSignal

/-- An expression for a non-negative magnitude. -/
inductive Bound (R : Type) where
  /-- A known magnitude. -/
  | const (value : R)
  /-- The bound of a real pin or parameter, fixed by the instantiating module. -/
  | param (name : String)
  | sum (terms : List (Bound R))
  | product (terms : List (Bound R))
  | max (terms : List (Bound R))
  deriving Repr, Inhabited

/-- The operators of bounds. -/
inductive BoundOp where
  | sum
  | product
  | max
  deriving DecidableEq, Repr

namespace BoundOp

variable {R : Type} [Scalar R]

/-- The neutral element; of a maximum of magnitudes it is zero. -/
def identity : BoundOp → R
  | sum => 0
  | product => 1
  | max => 0

/-- The operator on known magnitudes. -/
def fold : BoundOp → R → R → R
  | sum, a, b => a + b
  | product, a, b => a * b
  | max, a, b => Scalar.max a b

/-- The operands of a bound of the same operator, or the bound itself. -/
def operands : BoundOp → Bound R → List (Bound R)
  | sum, .sum terms => terms
  | product, .product terms => terms
  | max, .max terms => terms
  | _, b => [b]

/-- The operator applied to operands as they are. -/
def apply : BoundOp → List (Bound R) → Bound R
  | sum, terms => .sum terms
  | product, terms => .product terms
  | max, terms => .max terms

end BoundOp

namespace Bound

variable {R : Type} [Scalar R]

/-- The known magnitude of a value. -/
def ofValue (v : R) : Bound R := .const (Scalar.abs v)

/-- The magnitude, if it is known. -/
def const? : Bound R → Option R
  | .const v => some v
  | _ => none

/-- Fold the known magnitudes of a list into one, from the left. -/
def foldConst (op : BoundOp) (terms : List (Bound R)) : Option R :=
  match terms.filterMap const? with
  | [] => none
  | v :: vs => some (vs.foldl op.fold v)

/-- The operator applied to operands: nested operators of the same kind are merged, known magnitudes
are folded and stand last, a neutral one is dropped, and a product with zero is zero. -/
def combine (op : BoundOp) (operands : List (Bound R)) : Bound R :=
  let flat := operands.flatMap op.operands
  let known := foldConst op flat
  let unknown := flat.filter (·.const?.isNone)
  if op = .product ∧ known.any (· == 0) then .const 0
  else
    let tail := match known with
      | some v => if unknown.isEmpty || v != op.identity then [.const v] else []
      | none => []
    match unknown ++ tail with
    | [] => .const op.identity
    | [b] => b
    | bs => op.apply bs

/-- The sum of bounds, in normal form. -/
def add (operands : List (Bound R)) : Bound R := combine .sum operands

/-- The product of bounds, in normal form. -/
def mul (operands : List (Bound R)) : Bound R := combine .product operands

/-- The largest of bounds, in normal form. -/
def largest (operands : List (Bound R)) : Bound R := combine .max operands

/-! ## Text -/

/-- Nested binary maxima of texts. -/
def maxText (R : Type) [Scalar R] : List String → String
  | [] => Scalar.literal (0 : R)
  | [t] => t
  | t :: ts => "`MAX_MATH(" ++ t ++ ", " ++ maxText R ts ++ ")"

/-- The bound as a compile-time expression of the emitted hardware description. -/
def text : Bound R → String
  | .const v => Scalar.literal v
  | .param name => "`RANGE_PARAM_REAL(" ++ name ++ ")"
  | .sum terms => "(" ++ String.intercalate "+" (terms.map text) ++ ")"
  | .product terms => "(" ++ String.intercalate "*" (terms.map text) ++ ")"
  | .max terms => maxText R (terms.map text)

/-- Equality of bounds, with the comparison of the scalars. -/
def beq : Bound R → Bound R → Bool
  | .const a, .const b => a == b
  | .param a, .param b => a == b
  | .sum as, .sum bs => beqList as bs
  | .product as, .product bs => beqList as bs
  | .max as, .max bs => beqList as bs
  | _, _ => false
where
  /-- Equality of lists of bounds. -/
  beqList : List (Bound R) → List (Bound R) → Bool
    | [], [] => true
    | a :: as, b :: bs => beq a b && beqList as bs
    | _, _ => false

instance : BEq (Bound R) := ⟨beq⟩

end Bound

/-- The width of a real word: a number, or that of a pin or parameter. -/
inductive WidthBound where
  | const (width : Nat)
  | param (name : String)
  deriving DecidableEq, Repr

/-- The exponent of a real word: a number, or that of a pin or parameter. -/
inductive ExponentBound where
  | const (exponent : Int)
  | param (name : String)
  deriving DecidableEq, Repr

/-- The width as a compile-time expression. -/
def WidthBound.text : WidthBound → String
  | .const width => toString width
  | .param name => "`WIDTH_PARAM_REAL(" ++ name ++ ")"

/-- The exponent as a compile-time expression. -/
def ExponentBound.text : ExponentBound → String
  | .const exponent => toString exponent
  | .param name => "`EXPONENT_PARAM_REAL(" ++ name ++ ")"

end MixedSignal
