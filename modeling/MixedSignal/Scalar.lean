import MixedSignal.Decimal.Integer
import MixedSignal.Decimal.Literal

/-!
# Scalars

Real quantities enter formats, expressions, linear systems and simulations through the class
`Scalar`: arithmetic, comparison, rounding to integers and a written form. Doubles are the instance
that runs. The class asks for no laws, so the same definitions can be read over any field, where
arithmetic is exact.
-/

namespace MixedSignal

/-- What the modelling language asks of a real number. -/
class Scalar (R : Type) extends
    Zero R, One R, Add R, Sub R, Neg R, Mul R, Div R, BEq R, OfScientific R where
  /-- Where sums start: adding it changes no summand, not even the sign of a zero. -/
  sumStart : R
  /-- The scalar of an integer. -/
  ofInt : Int → R
  /-- Whether the first is below the second. -/
  lt : R → R → Bool
  /-- Whether the first is at most the second. -/
  le : R → R → Bool
  /-- The magnitude. -/
  abs : R → R
  /-- The smaller one; something undefined gives way to the other operand. -/
  min : R → R → R
  /-- The larger one; something undefined gives way to the other operand. -/
  max : R → R → R
  /-- The smallest of a list. -/
  minimum : List R → R
  /-- The largest of a list. -/
  maximum : List R → R
  /-- The nearest integer, a half away from zero, held in a 64-bit word. -/
  round : R → Int
  /-- The least integer that is not below, held in a 64-bit word. -/
  ceil : R → Int
  /-- The nearest natural number, a half upwards, or else the closest one that a 64-bit word holds. -/
  count : R → UInt64
  /-- A power of two. -/
  pow2 : Int → R
  /-- The binary logarithm. -/
  log2 : R → R
  /-- The exponential. -/
  exp : R → R
  /-- Whether the scalar is an actual number. -/
  isFinite : R → Bool
  /-- The literal of the scalar in the emitted hardware description. -/
  literal : R → String
  /-- The scalar as messages show it. -/
  plain : R → String

namespace Scalar

variable {R : Type} [Scalar R]

/-- The sum of a list, from the left. -/
def sum (xs : List R) : R := xs.foldl (· + ·) sumStart

/-- The product of a list, from the left. -/
def product (xs : List R) : R := xs.foldl (· * ·) 1

end Scalar

/-- The smaller of two doubles; a NaN gives way to the other operand. -/
def smallerFloat (x y : Float) : Float :=
  if x.isNaN then y else if y.isNaN then x else if y < x then y else x

/-- The larger of two doubles; a NaN gives way to the other operand. -/
def largerFloat (x y : Float) : Float :=
  if x.isNaN then y else if y.isNaN then x else if x < y then y else x

/-- Doubles. -/
instance : Scalar Float where
  zero := 0.0
  one := 1.0
  sumStart := -0.0
  ofInt := Decimal.ofInt
  lt x y := x < y
  le x y := x ≤ y
  abs := Float.abs
  min := smallerFloat
  max := largerFloat
  minimum xs := xs.foldl smallerFloat (1.0 / 0.0)
  maximum xs := xs.foldl largerFloat (-1.0 / 0.0)
  round x := x.round.toInt64.toInt
  ceil x := x.ceil.toInt64.toInt
  count x := x.round.toUInt64
  pow2 n := Float.scaleB 1.0 n
  log2 := Float.log2
  exp := Float.exp
  isFinite := Float.isFinite
  literal := Decimal.literal
  plain := Decimal.plain

end MixedSignal
