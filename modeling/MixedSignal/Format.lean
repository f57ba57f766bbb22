import MixedSignal.Bound
import MixedSignal.IntRepr

/-!
# Formats and values

A format says what a signal or expression can hold: a real within a bound, or an integer within a
range and a width. `Format.arithmetic` and `Format.union` infer the format of a result from those of
the operands; for integers the inferred range is exact, so no width is too small. A `Value` is what a
constant or a register holds.
-/

namespace MixedSignal

/-- The value domains, from the most to the least specific. Operands of mixed domains are promoted to
the largest one present. -/
inductive Domain where
  | uint
  | sint
  | real
  deriving DecidableEq, Repr

namespace Domain

/-- The place in the promotion order. -/
def rank : Domain → Nat
  | uint => 0
  | sint => 1
  | real => 2

/-- The larger of two domains. -/
def join (a b : Domain) : Domain := if a.rank < b.rank then b else a

/-- The domain as messages name it. -/
def text : Domain → String
  | uint => "unsigned integer"
  | sint => "signed integer"
  | real => "real"

end Domain

/-- The operators that take any number of operands. -/
inductive ArithOp where
  | sum
  | product
  | min
  | max
  deriving DecidableEq, Repr

/-- The operator as messages name it. -/
def ArithOp.text : ArithOp → String
  | sum => "sum"
  | product => "product"
  | min => "min"
  | max => "max"

/-! ## Integer formats -/

/-- An integer of a given width, known to lie in a range. -/
structure IntFormat where
  signedness : Signedness
  width : Nat
  range : ClosedRange
  deriving DecidableEq, Repr

namespace IntFormat

/-- The narrowest format of the given signedness that holds the range. -/
def tight? (signedness : Signedness) (range : ClosedRange) : Option IntFormat :=
  (IntRepr.widthFor? signedness range).map (⟨signedness, ·, range⟩)

/-- The format of all values of the given width. -/
def full (signedness : Signedness) (width : Nat) : IntFormat :=
  ⟨signedness, width, IntRepr.range ⟨signedness, width⟩⟩

/-- The word that holds the integer. -/
def repr (f : IntFormat) : IntRepr := ⟨f.signedness, f.width⟩

/-- The domain of the signedness. -/
def domain (f : IntFormat) : Domain :=
  match f.signedness with
  | .signed => .sint
  | .unsigned => .uint

/-- The narrowest format for the range; an unsigned range that dips below zero wraps around to all
values of the width a signed word would need. -/
def tightOrFull (signedness : Signedness) (range : ClosedRange) : IntFormat :=
  (tight? signedness range).getD <|
    full signedness ((IntRepr.widthFor? .signed range).getD 1)

/-- The range of an operator's results on members of two ranges. -/
def arithmeticRange : ArithOp → ClosedRange → ClosedRange → ClosedRange
  | .sum, r, s => r.add s
  | .product, r, s => r.mul s
  | .min, r, s => r.minimum s
  | .max, r, s => r.maximum s

/-- The format of an operator's result. The operands have the same signedness. -/
def arithmetic (op : ArithOp) (a b : IntFormat) : IntFormat :=
  tightOrFull a.signedness (arithmeticRange op a.range b.range)

/-- The format that holds the values of both and is as wide as the wider one. The operands have the
same signedness. -/
def union (a b : IntFormat) : IntFormat :=
  let tight := tightOrFull a.signedness (a.range.hull b.range)
  { tight with width := max (max tight.width a.width) b.width }

/-- The format of an operator's result, if the operands have the same signedness. -/
def arithmetic? (a : IntFormat) (op : ArithOp) (b : IntFormat) : Option IntFormat :=
  if a.signedness = b.signedness then some (arithmetic op a b) else none

/-- The format that holds the values of both operands, if they have the same signedness. -/
def union? (a b : IntFormat) : Option IntFormat :=
  if a.signedness = b.signedness then some (union a b) else none

end IntFormat

/-! ## Real formats -/

/-- A real within a bound. Where width or exponent are missing, the real-number library of the
emitted description picks them. -/
structure RealFormat (R : Type) where
  bound : Bound R
  width : Option WidthBound := none
  exponent : Option ExponentBound := none
  deriving Repr

namespace RealFormat

variable {R : Type} [Scalar R]

/-- The format of a real pin or parameter, fixed by the instantiating module. -/
def param (name : String) : RealFormat R :=
  ⟨.param name, some (.param name), some (.param name)⟩

/-- The format of an operator's result: the extremes of a sum or product may coincide, and which
operand a minimum or maximum selects is only known at run time. -/
def arithmetic (op : ArithOp) (a b : RealFormat R) : RealFormat R :=
  match op with
  | .sum => ⟨.add [a.bound, b.bound], none, none⟩
  | .product => ⟨.mul [a.bound, b.bound], none, none⟩
  | .min | .max => ⟨.largest [a.bound, b.bound], none, none⟩

/-- Whether the value is within the bound, if that is known, with an allowance for rounding in the
computation of the bound itself. -/
def contains? (f : RealFormat R) (v : R) : Option Bool :=
  f.bound.const?.map fun b => Scalar.le (Scalar.abs v) (b * (1 + 1e-12))

end RealFormat

/-! ## Formats -/

/-- What a signal or an expression can hold. -/
inductive Format (R : Type) where
  | real (format : RealFormat R)
  | int (format : IntFormat)
  deriving Repr

/-- A real or an integer. -/
inductive Value (R : Type) where
  | real (v : R)
  | int (v : Int)
  deriving Repr

namespace Format

variable {R : Type} [Scalar R]

/-- A real of at most the given magnitude. -/
def ofMagnitude (v : R) : Format R := .real ⟨.ofValue v, none, none⟩

/-- All unsigned integers of a width. -/
def uint (width : Nat) : Format R := .int (.full .unsigned width)

/-- All signed integers of a width. -/
def sint (width : Nat) : Format R := .int (.full .signed width)

/-- One bit. -/
def bit : Format R := uint 1

/-- The domain of the format. -/
def domain : Format R → Domain
  | .real _ => .real
  | .int f => f.domain

/-- The integer format, if it is one. -/
def int? : Format R → Option IntFormat
  | .int f => some f
  | .real _ => none

/-- The real format, if it is one. -/
def real? : Format R → Option (RealFormat R)
  | .real f => some f
  | .int _ => none

/-- Whether values can be brought into the format. -/
def hasValues : Format R → Bool
  | .int f => f.repr.hasValues
  | .real _ => true

/-- Whether this is an unsigned integer of one bit. -/
def isBit : Format R → Bool
  | .int f => f.signedness == .unsigned && f.width == 1
  | .real _ => false

/-- The format of an operator's result on two operands of the same domain. -/
def arithmetic? (op : ArithOp) : Format R → Format R → Option (Format R)
  | .real a, .real b => some (.real (.arithmetic op a b))
  | .int a, .int b => (a.arithmetic? op b).map .int
  | _, _ => none

/-- The format that holds every value of two formats of the same domain. -/
def union? : Format R → Format R → Option (Format R)
  | .real a, .real b => some (.real ⟨.largest [a.bound, b.bound], none, none⟩)
  | .int a, .int b => (a.union? b).map .int
  | _, _ => none

/-- Whether the value can be held, unless that depends on parameters. -/
def contains? : Format R → Value R → Option Bool
  | .real f, .real v => f.contains? v
  | .real f, .int v => f.contains? (Scalar.ofInt v)
  | .int f, .int v => some (f.range.contains v)
  | .int _, .real _ => some false

/-- Equality of formats, with the comparison of the scalars. -/
def beq : Format R → Format R → Bool
  | .real a, .real b => a.bound == b.bound && a.width == b.width && a.exponent == b.exponent
  | .int a, .int b => a == b
  | _, _ => false

instance : BEq (Format R) := ⟨beq⟩

/-- The format as messages show it: `real(range=1.0)`, `uint[3](0..=7)`. -/
def text : Format R → String
  | .real f =>
    "real(range=" ++ f.bound.text
      ++ (f.width.elim "" fun w => ", width=" ++ w.text)
      ++ (f.exponent.elim "" fun e => ", exponent=" ++ e.text) ++ ")"
  | .int f =>
    (match f.signedness with | .signed => "sint" | .unsigned => "uint")
      ++ "[" ++ toString f.width ++ "](" ++ f.range.text ++ ")"

end Format

namespace Value

variable {R : Type} [Scalar R]

/-- Zero in the domain of a format. -/
def zeroFor : Format R → Value R
  | .real _ => .real 0
  | .int _ => .int 0

/-- Whether the value is zero. -/
def isZero : Value R → Bool
  | .real v => v == 0
  | .int v => v == 0

/-- Whether the value is one. -/
def isOne : Value R → Bool
  | .real v => v == 1
  | .int v => v == 1

/-- The value as a scalar. -/
def toScalar : Value R → R
  | .real v => v
  | .int v => Scalar.ofInt v

/-- The tightest format of exactly this value. -/
def format : Value R → Format R
  | .real v => .ofMagnitude v
  | .int v => .int (.tightOrFull (if v < 0 then .signed else .unsigned) (.single v))

/-- Equality of values, with the comparison of the scalars. -/
def beq : Value R → Value R → Bool
  | .real a, .real b => a == b
  | .int a, .int b => a == b
  | _, _ => false

instance : BEq (Value R) := ⟨beq⟩

/-- The value as it is written in texts. -/
def text : Value R → String
  | .real v => Scalar.literal v
  | .int v => toString v

end Value

end MixedSignal
