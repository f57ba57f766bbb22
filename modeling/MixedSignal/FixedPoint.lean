import MixedSignal.Scalar

/-!
# Fixed-point words

The word `i` with exponent `e` stands for `i * 2 ^ e`.
-/

namespace MixedSignal.FixedPoint

variable {R : Type} [Scalar R]

/-- Words are at most 64 bits wide. -/
def maxWidth : Nat := 64

/-- A power of two, with its exponent taken as a signed 32-bit word. Below one it is the reciprocal
of the power above one, and so it vanishes where that one is not finite. -/
def power (e : Int) : R :=
  let e := e.bmod (Nat.pow 2 32)
  if e < 0 then 1 / Scalar.pow2 (-e) else Scalar.pow2 e

/-- The smallest exponent at which a value of this magnitude fits a signed word of the given width.
Widths below 2 count as 2. -/
def exponent (v : R) (width : Nat) : Int :=
  if v == 0 then 0
  else
    let width := min (max width 2) maxWidth
    let largest : R := Scalar.pow2 (width - 1) - 1
    Scalar.ceil (Scalar.log2 (Scalar.abs v / largest))

/-- The word nearest to a value. -/
def encode (v : R) (e : Int) : Int := Scalar.round (v * power (-e))

/-- The value of a word. -/
def decode (word e : Int) : R := Scalar.ofInt word * power e

end MixedSignal.FixedPoint
