import MixedSignal.ClosedRange

/-!
# Integer representations

A representation is a signedness and a width in bits. `IntRepr.forRange?` finds the narrowest one for
a range, `IntRepr.range` is the range of all its values, `IntRepr.wrap` brings any integer into that
range as hardware arithmetic does, and `IntRepr.bits` writes the two's complement word.
-/

namespace MixedSignal

/-- Whether the top bit of a word counts negatively. -/
inductive Signedness where
  | signed
  | unsigned
  deriving DecidableEq, Repr, Inhabited

/-- The signedness as messages name it. -/
def Signedness.text : Signedness → String
  | .signed => "signed"
  | .unsigned => "unsigned"

/-- The number of bits of a natural number, none for zero. -/
def bitLength (n : Nat) : Nat := if n = 0 then 0 else n.log2 + 1

/-- A word of `width` bits. -/
structure IntRepr where
  signedness : Signedness
  width : Nat
  deriving DecidableEq, Repr

namespace IntRepr

/-- The width needed by the values of a range: a negative value `-2 ^ k` takes `k` bits and the sign.
Widths are never zero. Unsigned words hold no negative values. -/
def widthFor? (signedness : Signedness) (r : ClosedRange) : Option Nat :=
  match signedness with
  | .unsigned => if r.lo < 0 then none else some (max (bitLength r.hi.toNat) 1)
  | .signed => some (max (bitLength (-r.lo - 1).toNat) (bitLength r.hi.toNat) + 1)

/-- The narrowest representation of the given signedness that holds every value of the range. -/
def forRange? (signedness : Signedness) (r : ClosedRange) : Option IntRepr :=
  (widthFor? signedness r).map (⟨signedness, ·⟩)

/-- Whether the word has values: the sign of a signed one takes a bit. Nothing else is ever asked for
its range or for the value that another one wraps around to. -/
def hasValues (repr : IntRepr) : Bool := repr.signedness == .unsigned || repr.width != 0

/-- All values of the representation. -/
def range (repr : IntRepr) : ClosedRange :=
  match repr.signedness with
  | .unsigned => {
      lo := 0
      hi := Int.pow 2 repr.width - 1
      lo_le_hi := by have : 0 < Int.pow 2 repr.width := Int.pow_pos (by decide)
                     omega }
  | .signed => {
      lo := -Int.pow 2 (repr.width - 1)
      hi := Int.pow 2 (repr.width - 1) - 1
      lo_le_hi := by have : 0 < Int.pow 2 (repr.width - 1) := Int.pow_pos (by decide)
                     omega }

/-- The value of the representation that is congruent to `v` modulo `2 ^ width`. -/
def wrap (repr : IntRepr) (v : Int) : Int :=
  let word := v % Int.pow 2 repr.width
  match repr.signedness with
  | .unsigned => word
  | .signed => if word ≥ Int.pow 2 (repr.width - 1) then word - Int.pow 2 repr.width else word

/-- The two's complement word of a value, most significant bit first: the digits of the value in the
word, a negative one moved up by `2 ^ width`, behind as many zeros as fill the width. Even an empty
word shows one digit. -/
def bits (repr : IntRepr) (v : Int) : String :=
  let wrapped := repr.wrap v
  let word := if wrapped < 0 then wrapped + Int.pow 2 repr.width else wrapped
  let digits := Nat.toDigits 2 word.toNat
  String.ofList (List.replicate (repr.width - digits.length) '0' ++ digits)

end IntRepr

end MixedSignal
