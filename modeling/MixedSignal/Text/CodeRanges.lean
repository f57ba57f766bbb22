/-!
# Ranges of code points

A character class as a list of ranges of code points, ascending and without overlap.
-/

namespace MixedSignal.Text

/-- The first and last code point of each range, in ascending order. -/
abbrev CodeRanges := List (Nat × Nat)

/-- The ranges of a class that is given by how many code points in a row are outside and inside it, in
turn, from a first code point on. -/
def CodeRanges.ofRuns (first : Nat) : List Nat → CodeRanges
  | outside :: inside :: runs =>
    (first + outside, first + outside + inside - 1) :: ofRuns (first + outside + inside) runs
  | _ => []

/-- Whether a character lies in one of the ranges: the first range that does not end before it is
the only one that can hold it. -/
def CodeRanges.contains (ranges : CodeRanges) (c : Char) : Bool :=
  match ranges.find? (c.toNat ≤ ·.2) with
  | some (first, _) => first ≤ c.toNat
  | none => false

end MixedSignal.Text
