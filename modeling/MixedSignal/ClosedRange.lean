/-!
# Closed integer ranges

The integers from `lo` to `hi`, both included. Ranges are never empty. Each operation on ranges gives
the smallest range that holds the results of the same operation on members, which is what makes the
widths inferred from ranges tight.
-/

namespace MixedSignal

/-- An integer times a power of two. Zero stays zero however far it is shifted, and no power is
computed for it. -/
def shiftedLeft (v : Int) (n : Nat) : Int := if v = 0 then 0 else v * Int.pow 2 n

/-- Shifting to the left is multiplying by a power of two. -/
theorem shiftedLeft_eq (v : Int) (n : Nat) : shiftedLeft v n = v * Int.pow 2 n := by
  unfold shiftedLeft
  split
  · simp [*]
  · rfl

/-- The integers from `lo` to `hi`. -/
@[ext]
structure ClosedRange where
  lo : Int
  hi : Int
  lo_le_hi : lo ≤ hi
  deriving DecidableEq, Repr

namespace ClosedRange

/-- The range between two bounds, unless they are reversed. -/
def ofBounds? (lo hi : Int) : Option ClosedRange :=
  if h : lo ≤ hi then some ⟨lo, hi, h⟩ else none

/-- The range of one value. -/
def single (v : Int) : ClosedRange := ⟨v, v, Int.le_refl v⟩

instance : Inhabited ClosedRange := ⟨single 0⟩

instance : Membership Int ClosedRange := ⟨fun r v => r.lo ≤ v ∧ v ≤ r.hi⟩

/-- A member lies between the bounds. -/
theorem mem_def {v : Int} {r : ClosedRange} : v ∈ r ↔ r.lo ≤ v ∧ v ≤ r.hi := Iff.rfl

instance (v : Int) (r : ClosedRange) : Decidable (v ∈ r) :=
  decidable_of_iff _ mem_def.symm

/-- Whether the range has the value as a member. -/
def contains (r : ClosedRange) (v : Int) : Bool := decide (v ∈ r)

/-- Whether every member of `s` is a member of `r`. -/
def containsRange (r s : ClosedRange) : Bool := decide (r.lo ≤ s.lo) && decide (s.hi ≤ r.hi)

/-- The smallest range that holds both. -/
def hull (r s : ClosedRange) : ClosedRange where
  lo := min r.lo s.lo
  hi := max r.hi s.hi
  lo_le_hi := by have := r.lo_le_hi; have := s.lo_le_hi; omega

/-- Sums of members. -/
def add (r s : ClosedRange) : ClosedRange where
  lo := r.lo + s.lo
  hi := r.hi + s.hi
  lo_le_hi := by have := r.lo_le_hi; have := s.lo_le_hi; omega

/-- Negated members. -/
def neg (r : ClosedRange) : ClosedRange where
  lo := -r.hi
  hi := -r.lo
  lo_le_hi := by have := r.lo_le_hi; omega

/-- Differences of members. -/
def sub (r s : ClosedRange) : ClosedRange := r.add s.neg

/-- Products of members. The extremes are among the products of the bounds. -/
def mul (r s : ClosedRange) : ClosedRange where
  lo := min (min (r.lo * s.lo) (r.lo * s.hi)) (min (r.hi * s.lo) (r.hi * s.hi))
  hi := max (max (r.lo * s.lo) (r.lo * s.hi)) (max (r.hi * s.lo) (r.hi * s.hi))
  lo_le_hi := by omega

/-- Smaller ones of two members. -/
def minimum (r s : ClosedRange) : ClosedRange where
  lo := min r.lo s.lo
  hi := min r.hi s.hi
  lo_le_hi := by have := r.lo_le_hi; have := s.lo_le_hi; omega

/-- Larger ones of two members. -/
def maximum (r s : ClosedRange) : ClosedRange where
  lo := max r.lo s.lo
  hi := max r.hi s.hi
  lo_le_hi := by have := r.lo_le_hi; have := s.lo_le_hi; omega

/-- Members shifted left, that is, times a power of two. -/
def shiftLeft (r : ClosedRange) (n : Nat) : ClosedRange where
  lo := shiftedLeft r.lo n
  hi := shiftedLeft r.hi n
  lo_le_hi := by
    simp only [shiftedLeft_eq]
    exact Int.mul_le_mul_of_nonneg_right r.lo_le_hi (Int.le_of_lt (Int.pow_pos (by decide)))

/-- Members shifted right, rounding towards negative infinity. -/
def shiftRight (r : ClosedRange) (n : Nat) : ClosedRange where
  lo := r.lo >>> n
  hi := r.hi >>> n
  lo_le_hi := by
    simp only [Int.shiftRight_eq_div_pow]
    exact Int.ediv_le_ediv (Int.natCast_pos.2 (Nat.two_pow_pos n)) r.lo_le_hi

/-- The range as messages show it, such as `-3..=9`. -/
def text (r : ClosedRange) : String := toString r.lo ++ "..=" ++ toString r.hi

end ClosedRange

end MixedSignal
