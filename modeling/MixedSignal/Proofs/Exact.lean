import Mathlib
import MixedSignal.Linear.Numerics
import MixedSignal.Proofs.Reduction

/-!
# Exact scalars

A `FieldScalar` is a scalar whose arithmetic is that of a field, with the integers in it. For an
`ExactScalar` the comparison for equality also decides equality. Least and greatest elements are only
asked to extend those of the integers and not to depend on the order of the operands, and magnitudes
only to tell zero from the rest. Over such scalars the operators act on lists as associative and
commutative operations do (`ArithOp.intExtension`).

Rational numbers are exact scalars. Integers that scalars are rounded to are held in 64-bit words, as
they are for doubles. Exponentials and logarithms are not rational in general; a polynomial and the
integer part stand in for them.
-/

namespace MixedSignal

/-- An operation that depends neither on the order nor on the grouping of its operands, that extends
one on the integers, and that `all` applies to lists. -/
structure IntExtension {R : Type} [IntCast R] (f : R → R → R) (g : Int → Int → Int)
    (all : List R → R) : Prop where
  assoc : ∀ a b c, f (f a b) c = f a (f b c)
  comm : ∀ a b, f a b = f b a
  cast : ∀ a b : Int, f a b = (g a b : Int)
  all_cons : ∀ x xs, all (x :: xs) = xs.foldl f x

/-- Scalars whose arithmetic is that of a field. -/
class FieldScalar (R : Type) extends Scalar R, Field R where
  sumStart_eq : (Scalar.sumStart : R) = 0
  ofInt_eq (k : Int) : (Scalar.ofInt k : R) = k

theorem Scalar.sum_eq {R : Type} [FieldScalar R] (xs : List R) : Scalar.sum xs = xs.sum := by
  rw [Scalar.sum, FieldScalar.sumStart_eq, List.sum_eq_foldl]

/-- Scalars whose arithmetic is exact. -/
class ExactScalar (R : Type) extends Scalar R, Field R where
  sumStart_eq : (Scalar.sumStart : R) = 0
  ofInt_eq (k : Int) : (Scalar.ofInt k : R) = k
  beq_iff (a b : R) : (a == b) = true ↔ a = b
  min_extends : IntExtension (R := R) Scalar.min Min.min Scalar.minimum
  max_extends : IntExtension (R := R) Scalar.max Max.max Scalar.maximum
  /-- Nothing is smaller in magnitude than zero. -/
  ne_zero_of_lt {a b : R} : Scalar.lt (Scalar.abs a) (Scalar.abs b) = true → b ≠ 0
  /-- Everything else is larger in magnitude than zero. -/
  zero_lt {b : R} : b ≠ 0 → Scalar.lt (Scalar.abs (0 : R)) (Scalar.abs b) = true

/-! ## Operators -/

section

variable {R : Type} [ExactScalar R] {v : Value R}

instance ExactScalar.lawfulBEq : LawfulBEq R where
  eq_of_beq h := (ExactScalar.beq_iff _ _).1 h
  rfl := (ExactScalar.beq_iff _ _).2 rfl

instance ExactScalar.toFieldScalar : FieldScalar R where
  sumStart_eq := ExactScalar.sumStart_eq
  ofInt_eq := ExactScalar.ofInt_eq

theorem Scalar.product_eq (xs : List R) : Scalar.product xs = xs.prod := by
  rw [Scalar.product, List.prod_eq_foldl]

namespace ArithOp

/-- The operator on two scalars. -/
def onScalar (op : ArithOp) (a b : R) : R :=
  match op with
  | sum => a + b
  | product => a * b
  | min => Scalar.min a b
  | max => Scalar.max a b

/-- On exact scalars every operator is a law of lists and extends the one on integers. -/
theorem intExtension (op : ArithOp) :
    IntExtension (R := R) op.onScalar op.onInt op.evalScalar := by
  cases op with
  | sum =>
    refine ⟨add_assoc, add_comm, fun a b => (Int.cast_add a b).symm, fun x xs => ?_⟩
    change (x :: xs).foldl (· + ·) Scalar.sumStart = xs.foldl (· + ·) x
    rw [ExactScalar.sumStart_eq, List.foldl_cons, zero_add]
  | product =>
    refine ⟨mul_assoc, mul_comm, fun a b => (Int.cast_mul a b).symm, fun x xs => ?_⟩
    change (x :: xs).foldl (· * ·) 1 = xs.foldl (· * ·) x
    rw [List.foldl_cons, one_mul]
  | min => exact ExactScalar.min_extends
  | max => exact ExactScalar.max_extends

variable (op : ArithOp)

instance : Std.Associative (op.onScalar (R := R)) := ⟨op.intExtension.assoc⟩

instance : Std.Commutative (op.onScalar (R := R)) := ⟨op.intExtension.comm⟩

/-- The value of the operator on scalars is what it makes of them. -/
theorem reduce_onScalar {xs : List R} (h : xs ≠ []) :
    MixedSignal.reduce op.onScalar xs = some (op.evalScalar xs) := by
  cases xs with
  | nil => exact absurd rfl h
  | cons x xs => rw [reduce_eq_foldl, op.intExtension.all_cons]

end ArithOp

/-! ## Values -/

namespace Value

theorem toScalar_int (k : Int) : (Value.int k : Value R).toScalar = k := ExactScalar.ofInt_eq k

theorem toScalar_of_isZero (h : v.isZero = true) : v.toScalar = 0 := by
  cases v with
  | int k =>
    obtain rfl : k = 0 := by simpa [isZero] using h
    rw [toScalar_int, Int.cast_zero]
  | real x => exact eq_of_beq (show (x == 0) = true from h)

theorem toScalar_of_isOne (h : v.isOne = true) : v.toScalar = 1 := by
  cases v with
  | int k =>
    obtain rfl : k = 1 := by simpa [isOne] using h
    rw [toScalar_int, Int.cast_one]
  | real x => exact eq_of_beq (show (x == 1) = true from h)

theorem toScalar_eq_of_beq {w : Value R} (h : (v == w) = true) : v.toScalar = w.toScalar := by
  cases v with
  | int k =>
    cases w with
    | int l => rw [eq_of_beq (show (k == l) = true from h)]
    | real y => exact absurd (show false = true from h) Bool.false_ne_true
  | real x =>
    cases w with
    | int l => exact absurd (show false = true from h) Bool.false_ne_true
    | real y => exact eq_of_beq (show (x == y) = true from h)

theorem toScalar_foldValues (op : ArithOp) (v w : Value R) :
    (Build.foldValues op v w).toScalar = op.onScalar v.toScalar w.toScalar := by
  cases v with
  | int a =>
    cases w with
    | int b =>
      change (Value.int (op.onInt a b) : Value R).toScalar = _
      rw [toScalar_int, toScalar_int, toScalar_int, op.intExtension.cast]
    | real y => rfl
  | real x => rfl

end Value

/-! ## Formats -/

mutual

/-- The test of bounds for equality decides it. -/
theorem Bound.beq_sound : ∀ {a b : Bound R}, a.beq b = true → a = b
  | .const x, .const y, h => congrArg Bound.const (LawfulBEq.eq_of_beq (show (x == y) = true from h))
  | .param x, .param y, h => congrArg Bound.param (LawfulBEq.eq_of_beq (show (x == y) = true from h))
  | .sum _, .sum _, h => congrArg Bound.sum (Bound.beqList_sound h)
  | .product _, .product _, h => congrArg Bound.product (Bound.beqList_sound h)
  | .max _, .max _, h => congrArg Bound.max (Bound.beqList_sound h)

theorem Bound.beqList_sound : ∀ {as bs : List (Bound R)}, Bound.beq.beqList as bs = true → as = bs
  | [], [], _ => rfl
  | a :: as, b :: bs, h => by
    obtain ⟨ha, has⟩ := Bool.and_eq_true_iff.1 h
    rw [Bound.beq_sound ha, Bound.beqList_sound has]

end

theorem Format.beq_sound {f g : Format R} (h : (f == g) = true) : f = g := by
  cases f with
  | real a =>
    cases g with
    | real b =>
      obtain ⟨hbounds, hexponent⟩ := Bool.and_eq_true_iff.1 h
      obtain ⟨hbound, hwidth⟩ := Bool.and_eq_true_iff.1 hbounds
      obtain ⟨bound, width, exponent⟩ := a
      obtain rfl := Bound.beq_sound hbound
      obtain rfl := LawfulBEq.eq_of_beq hwidth
      obtain rfl := LawfulBEq.eq_of_beq hexponent
      rfl
    | int b => cases h
  | int a =>
    cases g with
    | real b => cases h
    | int b => exact congrArg Format.int (LawfulBEq.eq_of_beq (show (a == b) = true from h))

end

/-! ## Rational numbers -/

/-- The nearest integer that a 64-bit word holds. -/
def saturate (k : Int) : Int := max (-2 ^ 63) (min k (2 ^ 63 - 1))

/-- Rational numbers. -/
instance : Scalar ℚ where
  sumStart := 0
  ofInt k := k
  lt x y := decide (x < y)
  le x y := decide (x ≤ y)
  abs x := |x|
  min x y := min x y
  max x y := max x y
  minimum xs := xs.min?.getD 0
  maximum xs := xs.max?.getD 0
  round x := saturate (if x < 0 then ⌈x - 1 / 2⌉ else ⌊x + 1 / 2⌋)
  ceil x := saturate ⌈x⌉
  count x := .ofNat (min ⌊x + 1 / 2⌋.toNat (2 ^ 64 - 1))
  pow2 n := 2 ^ n
  log2 x := Int.log 2 x
  exp x := 1 + x + x * x / 2
  isFinite _ := true
  literal x := toString x
  plain x := toString x

instance : ExactScalar ℚ where
  sumStart_eq := rfl
  ofInt_eq _ := rfl
  beq_iff _ _ := beq_iff_eq
  min_extends := ⟨min_assoc, min_comm, fun _ _ => Int.cast_min.symm, fun _ _ => rfl⟩
  max_extends := ⟨max_assoc, max_comm, fun _ _ => Int.cast_max.symm, fun _ _ => rfl⟩
  ne_zero_of_lt h := abs_pos.1 ((abs_nonneg _).trans_lt (of_decide_eq_true h))
  zero_lt hb := decide_eq_true (abs_zero.trans_lt (abs_pos.2 hb))

instance : Numerics ℚ := .standard ℚ

end MixedSignal
