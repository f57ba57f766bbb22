import MixedSignal.Linear.Solve

/-!
# The matrix exponential

Padé approximants of a degree picked by how fast the powers of the matrix grow; a matrix whose powers
grow too fast is first divided by a power of two, and the result squared as often. Powers, rather
than the norm of the matrix itself, decide: a badly scaled matrix can have a large norm and small
powers, and halving it for its norm alone would only lose digits.
-/

namespace MixedSignal.DenseMatrix

variable {R : Type} [Scalar R]

/-- The coefficients of the numerator of a Padé approximant of the exponential, lowest power first;
the denominator has alternating signs. -/
structure Approximant where
  coefficients : List Int

namespace Approximant

/-- Degree 3. -/
def three : Approximant := ⟨[120, 60, 12, 1]⟩

/-- Degree 5. -/
def five : Approximant := ⟨[30240, 15120, 3360, 420, 30, 1]⟩

/-- Degree 7. -/
def seven : Approximant := ⟨[17297280, 8648640, 1995840, 277200, 25200, 1512, 56, 1]⟩

/-- Degree 9. -/
def nine : Approximant :=
  ⟨[17643225600, 8821612800, 2075673600, 302702400, 30270240, 2162160, 110880, 3960, 90, 1]⟩

/-- Degree 13. -/
def thirteen : Approximant :=
  ⟨[64764752532480000, 32382376266240000, 7771770303897600, 1187353796428800, 129060195264000,
    10559470521600, 670442572800, 33522128640, 1323241920, 40840800, 960960, 16380, 182, 1]⟩

end Approximant

/-- Split a list into the entries at even and at odd places. -/
def splitParity {α : Type} : List α → List α × List α
  | [] => ([], [])
  | [x] => ([x], [])
  | x :: y :: rest => let (even, odd) := splitParity rest; (x :: even, y :: odd)

/-- The powers of a square matrix with the exponents 0, 2, 4, 6, 8 and 10. -/
structure EvenPowers (R : Type) where
  zeroth : DenseMatrix R
  second : DenseMatrix R
  fourth : DenseMatrix R
  sixth : DenseMatrix R
  eighth : DenseMatrix R
  tenth : DenseMatrix R

/-- The even powers of a square matrix. -/
def evenPowers (m : DenseMatrix R) : EvenPowers R :=
  let second := m.mul m
  let fourth := second.mul second
  let sixth := fourth.mul second
  ⟨identity m.rows, second, fourth, sixth, sixth.mul second, sixth.mul fourth⟩

/-- Add matrices with integer weights to a matrix, the last one first. -/
def addWeighted (start : DenseMatrix R) (weights : List Int) (terms : List (DenseMatrix R)) :
    DenseMatrix R :=
  (weights.zip terms).foldr (fun (w, term) sum => sum.add (term.scale (Scalar.ofInt w))) start

/-- A polynomial in the square of a matrix, lowest power first, of at most seven coefficients. More
than five of them are taken in two groups, so that the sixth power is the highest one in use. Small
terms are the first ones to be added. -/
def EvenPowers.polynomial (p : EvenPowers R) (coefficients : List Int) : DenseMatrix R :=
  let zero := zeros p.zeroth.rows p.zeroth.rows
  if coefficients.length ≤ 5 then
    zero.addWeighted coefficients [p.zeroth, p.second, p.fourth, p.sixth, p.eighth]
  else
    let high := zero.addWeighted (coefficients.drop 4) [p.second, p.fourth, p.sixth]
    (p.sixth.mul high).addWeighted (coefficients.take 4) [p.zeroth, p.second, p.fourth, p.sixth]

/-- The value of an approximant at a square matrix with the given even powers. -/
def approximate (m : DenseMatrix R) (powers : EvenPowers R) (p : Approximant) : DenseMatrix R :=
  let (evenCoefficients, oddCoefficients) := splitParity p.coefficients
  let even := powers.polynomial evenCoefficients
  let odd := m.mul (powers.polynomial oddCoefficients)
  ((even.sub odd).solve? (odd.add even)).getD (zeros m.rows m.rows)

/-- The binary logarithm of the `k`-th root of the norm of a `k`-th power: how fast powers grow. It
can be far below the logarithm of the norm of the matrix itself. -/
def growthRate (power : DenseMatrix R) (k : Nat) : R :=
  Scalar.log2 power.norm / Scalar.ofInt k

/-- No double needs more halvings than this to come below the limit of every approximant. -/
def halvingLimit : Nat := 1100

/-- The least natural number that is not below, cut off at the limit for halvings. -/
def wholeHalvings (x : R) : Nat := Nat.min (Scalar.ceil x).toNat halvingLimit

/-- The product of the first `n` positive integers. -/
def factorial : Nat → Nat
  | 0 => 1
  | n + 1 => (n + 1) * factorial n

/-- The halvings that rounding errors ask for when the approximant of a degree is used: the first
neglected term of the error is kept below half a unit in the last place of a double. -/
def errorHalvings (m : DenseMatrix R) (degree : Nat) : Nat :=
  let magnitudes := m.map Scalar.abs
  let sums := (List.range (2 * degree + 1)).foldl (fun v _ => v.mul magnitudes)
    (ofFn 1 m.rows fun _ _ => 1)
  let growth := sums.norm
  if growth == 0 then 0
  else
    let half := factorial degree
    let weight := factorial (2 * degree) / (half * half) * factorial (2 * degree + 1)
    let neglected := growth / m.norm / Scalar.ofInt weight
    wholeHalvings (Scalar.log2 (neglected / Scalar.pow2 (-53)) / Scalar.ofInt (2 * degree))

/-- Square a matrix repeatedly. -/
def squared (m : DenseMatrix R) : Nat → DenseMatrix R
  | 0 => m
  | n + 1 => (m.mul m).squared n

/-- The exponential of a square matrix: the first approximant whose limit the growth of the powers
keeps, or the largest one after halving. -/
def exp (m : DenseMatrix R) : DenseMatrix R :=
  if m.rows = 1 then m.map Scalar.exp
  else
    let powers := m.evenPowers
    let early := Scalar.max (growthRate powers.fourth 4) (growthRate powers.sixth 6)
    let middle := Scalar.max (growthRate powers.sixth 6) (growthRate powers.eighth 8)
    let late := Scalar.max (growthRate powers.eighth 8) (growthRate powers.tenth 10)
    let keeps (rate limit : R) (degree : Nat) : Bool :=
      Scalar.lt rate (Scalar.log2 limit) && m.errorHalvings degree == 0
    if keeps early 1.495585217958292e-2 3 then m.approximate powers .three
    else if keeps early 2.539398330063230e-1 5 then m.approximate powers .five
    else if keeps middle 9.504178996162932e-1 7 then m.approximate powers .seven
    else if keeps middle 2.097847961257068 9 then m.approximate powers .nine
    else
      let first := wholeHalvings (Scalar.min middle late - Scalar.log2 4.25)
      let n := first + (m.scale (Scalar.pow2 (-first))).errorHalvings 13
      let scaled := m.scale (Scalar.pow2 (-n))
      (scaled.approximate scaled.evenPowers .thirteen).squared n

end MixedSignal.DenseMatrix
