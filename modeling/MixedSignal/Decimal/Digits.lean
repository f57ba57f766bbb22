/-!
# Decimal digits of binary reals

A finite double is a dyadic rational `mantissa * 2 ^ exponent`, and every question about its
decimal digits is a question about natural numbers. `decode` reads the dyadic rational off the bits,
`shortest` finds the fewest digits that read back as the same double, `significant` rounds to a given
number of digits, and `nearest` goes the other way: the double closest to a quotient of naturals.
-/

namespace MixedSignal.Decimal

/-- What the bits of a double stand for. -/
inductive Decoded where
  | nan
  | infinite (negative : Bool)
  | finite (negative : Bool) (mantissa : Nat) (exponent : Int)
  deriving Repr, DecidableEq

/-- Read sign, mantissa and exponent off the bits. -/
def decode (x : Float) : Decoded :=
  let bits := x.toBits.toNat
  let negative := bits / Nat.pow 2 63 == 1
  let exponent : Nat := bits / Nat.pow 2 52 % Nat.pow 2 11
  let fraction := bits % Nat.pow 2 52
  if exponent == 2047 then
    if fraction == 0 then .infinite negative else .nan
  else if exponent == 0 then .finite negative fraction (-1074)
  else .finite negative (Nat.pow 2 52 + fraction) ((exponent : Int) - 1075)

/-- A decimal number `significand * 10 ^ exponent`. -/
structure Digits where
  significand : Nat
  exponent : Int
  deriving Repr, DecidableEq

/-! ## The decimal grid -/

/-- `m * 2 ^ q` measured in steps of `10 ^ p` is `m * (grid q p).1 / (grid q p).2`. -/
def grid (q p : Int) : Nat × Nat :=
  (Nat.pow 2 q.toNat * Nat.pow 10 (-p).toNat, Nat.pow 2 (-q).toNat * Nat.pow 10 p.toNat)

/-- Whether `m * 2 ^ q < 10 ^ k`. -/
def belowPower (m : Nat) (q k : Int) : Bool :=
  let (unit, den) := grid q k
  m * unit < den

/-- The place of the decimal point: the least `k` with `m * 2 ^ q < 10 ^ k`, for positive `m`. The
binary logarithm leaves only three candidates. -/
def pointPlace (m : Nat) (q : Int) : Int :=
  let estimate := ((m.log2 : Int) + q) * 30103 / 100000
  if belowPower m q estimate then estimate
  else if belowPower m q (estimate + 1) then estimate + 1
  else estimate + 2

/-! ## Fewest digits -/

/-- The reals that round to `m * 2 ^ q`, in quarters of `2 ^ q`: from half a unit below (a quarter
below a power of two, where the doubles get denser) to half a unit above. -/
def roundingInterval (m : Nat) (q : Int) : Nat × Nat :=
  (if m == Nat.pow 2 52 && q != -1074 then 4 * m - 1 else 4 * m - 2, 4 * m + 2)

/-- The number with `n` digits that reads back as `m * 2 ^ q`, if there is one. Only the two
neighbours of the value on the grid of `n` digits can; the nearer one wins, the larger on a tie. -/
def candidate (m : Nat) (q k : Int) (n : Nat) : Option Digits :=
  let (unit, den) := grid (q - 2) (k - n)
  let (lower, upper) := roundingInterval m q
  let inside (a b : Nat) : Bool := if m % 2 == 0 then a ≤ b else a < b
  let down := 4 * m * unit / den
  let up := down + 1
  let downFits := inside (lower * unit) (down * den)
  let upFits := inside (up * den) (upper * unit)
  let nearerDown := 2 * (4 * m * unit - down * den) < den
  if downFits && (nearerDown || !upFits) then some ⟨down, k - n⟩
  else if upFits then some ⟨up, k - n⟩
  else none

/-- Seventeen digits tell any two doubles apart. -/
def maxDigits : Nat := 17

/-- The fewest digits that read back as the double `m * 2 ^ q`, for positive `m`. -/
def shortest (m : Nat) (q : Int) : Digits :=
  let k := pointPlace m q
  ((List.range maxDigits).findSome? fun i => candidate m q k (i + 1)).getD ⟨0, 0⟩

/-! ## A given number of digits -/

/-- The quotient rounded to the nearest integer, a half to the even neighbour. -/
def roundDivEven (num den : Nat) : Nat :=
  let down := num / den
  let rest := 2 * (num % den)
  if rest < den || (rest == den && down % 2 == 0) then down else down + 1

/-- `m * 2 ^ q` rounded to `n` significant digits, for positive `m`. -/
def significant (m : Nat) (q : Int) (n : Nat) : Digits :=
  let p := pointPlace m q - n
  let (unit, den) := grid q p
  ⟨roundDivEven (m * unit) den, p⟩

/-! ## The nearest double -/

/-- The bits of the positive double `mantissa * 2 ^ exponent`, where the mantissa has 53 bits, or
fewer at the least exponent; a mantissa of `2 ^ 53` carries into the exponent by itself. -/
def encodeBits (mantissa : Nat) (exponent : Int) : Nat :=
  if mantissa < Nat.pow 2 52 then mantissa
  else min ((exponent + 1074).toNat * Nat.pow 2 52 + mantissa) (2047 * Nat.pow 2 52)

/-- The double nearest to `num / den`, ties to even; too large a quotient is infinite. -/
def nearest (num den : Nat) : Float :=
  if num == 0 then 0.0
  else
    let guess : Int := (num.log2 : Int) - (den.log2 : Int) - 52
    let mantissa (e : Int) : Nat := num * Nat.pow 2 (-e).toNat / (den * Nat.pow 2 e.toNat)
    let exponent := max (if mantissa guess < Nat.pow 2 52 then guess - 1 else guess) (-1074)
    let rounded := roundDivEven (num * Nat.pow 2 (-exponent).toNat) (den * Nat.pow 2 exponent.toNat)
    Float.ofBits (UInt64.ofNat (encodeBits rounded exponent))

end MixedSignal.Decimal
