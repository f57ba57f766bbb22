import MixedSignal.Decimal.Digits

/-!
# Integers as doubles

An integer becomes a double in two steps. Its leading 64 bits are kept, with the last of them set if
a one is seen among the dropped bits, and what is kept goes to the nearest double. Up to 128 bits
every dropped bit is seen, so the result is the nearest double. Of a longer integer some dropped bits
are passed over; where only those hold a one, a value just beyond the middle between two doubles
counts as the middle itself and goes to the even one.
-/

namespace MixedSignal.Decimal

/-- The number of bits that are kept, and of each word that an integer is held in. -/
def wordSize : Nat := 64

/-- The number of bits below the leading ones. -/
def droppedBits (n : Nat) : Nat := n.log2 + 1 - wordSize

/-- The number of bits in the leading word. -/
def leadingWidth (n : Nat) : Nat := n.log2 % wordSize + 1

/-- Whether a one is seen among the dropped bits. All of them are looked at in the word where the
leading bits end; of each word below it, only as many low bits as the leading word has. -/
def seesDropped (n : Nat) : Bool :=
  let whole := droppedBits n / wordSize
  n % Nat.pow 2 (droppedBits n) / Nat.pow 2 (wordSize * whole) != 0 ||
    (List.range whole).any fun i => n >>> (wordSize * i) % Nat.pow 2 (leadingWidth n) != 0

/-- The leading bits, the last of them set if a one is seen below. -/
def leadingBits (n : Nat) : Nat := (n >>> droppedBits n) ||| (seesDropped n).toNat

/-- The double of a natural number. -/
def ofNat (n : Nat) : Float := nearest (leadingBits n * Nat.pow 2 (droppedBits n)) 1

/-- The double of an integer. -/
def ofInt (i : Int) : Float := if i < 0 then -ofNat i.natAbs else ofNat i.natAbs

end MixedSignal.Decimal
