import Mathlib.Algebra.Order.Ring.Int
import Mathlib.Tactic.Linarith
import MixedSignal.Format

/-!
# Ranges, words and integer formats

A range operation holds the results of the operation on members. A word of fixed width leaves the
values of its range unchanged (`IntRepr.wrap_eq_self`) and brings every integer into it
(`IntRepr.wrap_mem`), and the width found for a range is the narrowest one
(`IntRepr.containsRange_iff`).

An integer format fits (`IntFormat.Fits`) if its range fits its word. A value in the range of such a
format is not changed by the word. The formats of results are built from those of the operands so
that they fit again. In any format, the values that it carries (`IntFormat.Carries`) are those in its
range that its word does not change, and the formats of results carry the results.
-/

namespace MixedSignal

/-! ## Ranges -/

namespace ClosedRange

variable {r s : ClosedRange} {v w : Int}

@[simp] theorem mem_single : v ∈ single w ↔ v = w := by
  simp only [mem_def, single]
  omega

theorem mem_add (hv : v ∈ r) (hw : w ∈ s) : v + w ∈ r.add s := by
  simp only [mem_def, add] at *
  omega

theorem mem_minimum (hv : v ∈ r) (hw : w ∈ s) : min v w ∈ r.minimum s := by
  simp only [mem_def, minimum] at *
  omega

theorem mem_maximum (hv : v ∈ r) (hw : w ∈ s) : max v w ∈ r.maximum s := by
  simp only [mem_def, maximum] at *
  omega

theorem mem_hull_left (hv : v ∈ r) : v ∈ r.hull s := by
  simp only [mem_def, hull] at *
  omega

theorem mem_hull_right (hv : v ∈ s) : v ∈ r.hull s := by
  simp only [mem_def, hull] at *
  omega

/-- A product with a fixed factor lies between the products of the bounds. -/
theorem mul_between {a b x : Int} (c : Int) (ha : a ≤ x) (hb : x ≤ b) :
    min (a * c) (b * c) ≤ x * c ∧ x * c ≤ max (a * c) (b * c) := by
  rcases le_total 0 c with hc | hc
  · exact ⟨min_le_of_left_le (mul_le_mul_of_nonneg_right ha hc),
      le_max_of_le_right (mul_le_mul_of_nonneg_right hb hc)⟩
  · exact ⟨min_le_of_right_le (mul_le_mul_of_nonpos_right hb hc),
      le_max_of_le_left (mul_le_mul_of_nonpos_right ha hc)⟩

theorem mem_mul (hv : v ∈ r) (hw : w ∈ s) : v * w ∈ r.mul s := by
  rw [mem_def] at hv hw
  obtain ⟨h1, h2⟩ := mul_between w hv.1 hv.2
  obtain ⟨h3, h4⟩ := mul_between r.lo hw.1 hw.2
  obtain ⟨h5, h6⟩ := mul_between r.hi hw.1 hw.2
  simp only [mul_comm _ r.lo, mul_comm _ r.hi] at h3 h4 h5 h6
  simp only [mem_def, mul]
  omega

theorem mem_shiftLeft (n : Nat) (hv : v ∈ r) : shiftedLeft v n ∈ r.shiftLeft n := by
  have h : (0 : Int) ≤ 2 ^ n := Int.pow_nonneg (by decide)
  simp only [mem_def, shiftLeft, shiftedLeft_eq, Int.pow_eq] at *
  exact ⟨mul_le_mul_of_nonneg_right hv.1 h, mul_le_mul_of_nonneg_right hv.2 h⟩

theorem mem_shiftRight (n : Nat) (hv : v ∈ r) : v >>> n ∈ r.shiftRight n := by
  have h : (0 : Int) < ((2 ^ n : Nat) : Int) := Int.natCast_pos.2 (Nat.two_pow_pos n)
  simp only [mem_def, shiftRight, Int.shiftRight_eq_div_pow] at *
  exact ⟨Int.ediv_le_ediv h hv.1, Int.ediv_le_ediv h hv.2⟩

theorem containsRange_iff : r.containsRange s = true ↔ r.lo ≤ s.lo ∧ s.hi ≤ r.hi := by
  simp [containsRange]

theorem mem_of_containsRange (h : r.containsRange s = true) (hv : v ∈ s) : v ∈ r := by
  rw [containsRange_iff] at h
  simp only [mem_def] at *
  omega

end ClosedRange

/-! ## Words -/

theorem bitLength_le_iff {n k : Nat} : bitLength n ≤ k ↔ n < 2 ^ k := by
  unfold bitLength
  split
  · simp [*]
  · rename_i h
    rw [← Nat.log2_lt h]
    omega

namespace IntRepr

variable {repr : IntRepr} {v : Int}

/-- Half the values of a signed word are not negative. -/
theorem two_pow_eq_double {width : Nat} (h : 0 < width) :
    (2 : Int) ^ width = 2 * 2 ^ (width - 1) := by
  obtain ⟨k, rfl⟩ : ∃ k, width = k + 1 := ⟨width - 1, by omega⟩
  rw [Nat.add_sub_cancel, pow_succ, mul_comm]

theorem two_pow_pos (n : Nat) : (0 : Int) < 2 ^ n := Int.pow_pos (by decide)

/-- A word has values unless it is signed and empty. -/
theorem hasValues_iff : repr.hasValues = true ↔ (repr.signedness = .signed → 0 < repr.width) := by
  unfold hasValues
  cases repr.signedness <;> simp [Nat.pos_iff_ne_zero]

/-- A word brings every integer into its range. -/
theorem wrap_mem (hw : repr.signedness = .signed → 0 < repr.width) : repr.wrap v ∈ repr.range := by
  obtain ⟨sg, width⟩ := repr
  have hpos := two_pow_pos width
  have h1 := Int.emod_nonneg v (ne_of_gt hpos)
  have h2 := Int.emod_lt_of_pos v hpos
  cases sg with
  | unsigned =>
    simp only [wrap, range, ClosedRange.mem_def, Int.pow_eq]
    omega
  | signed =>
    have hdouble : (2 : Int) ^ width = 2 * 2 ^ (width - 1) := two_pow_eq_double (hw rfl)
    simp only [wrap, range, ClosedRange.mem_def, Int.pow_eq]
    split <;> omega

/-- A word does not change the values of its range. -/
theorem wrap_eq_self (hw : repr.signedness = .signed → 0 < repr.width) (hv : v ∈ repr.range) :
    repr.wrap v = v := by
  obtain ⟨sg, width⟩ := repr
  have hpos := two_pow_pos width
  cases sg with
  | unsigned =>
    simp only [range, ClosedRange.mem_def, Int.pow_eq] at hv
    exact Int.emod_eq_of_lt hv.1 (Int.lt_of_le_sub_one hv.2)
  | signed =>
    have hdouble : (2 : Int) ^ width = 2 * 2 ^ (width - 1) := two_pow_eq_double (hw rfl)
    have hhalf := two_pow_pos (width - 1)
    simp only [range, ClosedRange.mem_def, Int.pow_eq] at hv
    simp only [wrap, Int.pow_eq]
    rcases le_or_gt 0 v with h | h
    · rw [Int.emod_eq_of_lt h (by omega), if_neg (by omega)]
    · have hmod : v % 2 ^ width = v + 2 ^ width := by
        rw [← Int.add_emod_right, Int.emod_eq_of_lt (by omega) (by omega)]
      rw [hmod, if_pos (by omega)]
      omega

/-- Wrapping keeps the residue. -/
theorem wrap_emod (repr : IntRepr) (v : Int) :
    repr.wrap v % Int.pow 2 repr.width = v % Int.pow 2 repr.width := by
  unfold wrap
  cases repr.signedness with
  | unsigned => exact Int.emod_emod_of_dvd v dvd_rfl
  | signed =>
    simp only
    split
    · rw [Int.sub_emod_right, Int.emod_emod_of_dvd v dvd_rfl]
    · exact Int.emod_emod_of_dvd v dvd_rfl

/-- What a word makes of a value depends on its residue only. -/
theorem wrap_congr {w : Int} (h : v % Int.pow 2 repr.width = w % Int.pow 2 repr.width) :
    repr.wrap v = repr.wrap w := by
  unfold wrap
  rw [h]

/-- A value of the word is not changed by it again, not even in a signed word of no width. -/
theorem wrap_wrap (repr : IntRepr) (v : Int) : repr.wrap (repr.wrap v) = repr.wrap v :=
  wrap_congr (repr.wrap_emod v)

@[simp] theorem wrap_zero : repr.wrap 0 = 0 := by
  obtain ⟨sg, width⟩ := repr
  cases sg with
  | unsigned => exact Int.zero_emod _
  | signed =>
    have hpos := two_pow_pos (width - 1)
    simp only [wrap, Int.zero_emod, Int.pow_eq]
    exact if_neg (by omega)

/-- A signed word without bits holds zero only. -/
theorem eq_zero_of_wrap_eq (hw : ¬(repr.signedness = .signed → 0 < repr.width))
    (h : repr.wrap v = v) : v = 0 := by
  obtain ⟨sg, width⟩ := repr
  obtain ⟨rfl, rfl⟩ : sg = .signed ∧ width = 0 := by simpa using hw
  simp only [wrap, Int.pow_eq, pow_zero, Int.emod_one] at h
  omega

/-- A value that a word does not change is in its range. -/
theorem mem_range_of_wrap_eq (h : repr.wrap v = v) : v ∈ repr.range := by
  by_cases hw : repr.signedness = .signed → 0 < repr.width
  · rw [← h]
    exact wrap_mem hw
  · rw [eq_zero_of_wrap_eq hw h]
    obtain ⟨sg, width⟩ := repr
    obtain ⟨rfl, rfl⟩ : sg = .signed ∧ width = 0 := by simpa using hw
    decide

theorem widthFor?_pos {sg : Signedness} {r : ClosedRange} {w : Nat}
    (h : widthFor? sg r = some w) : 0 < w := by
  cases sg with
  | unsigned =>
    simp only [widthFor?, Option.ite_none_left_eq_some, Option.some.injEq] at h
    omega
  | signed =>
    simp only [widthFor?, Option.some.injEq] at h
    omega

theorem toNat_lt_two_pow_iff {x : Int} {k : Nat} : x.toNat < 2 ^ k ↔ x < 2 ^ k := by
  have h : ((2 ^ k : Nat) : Int) = 2 ^ k := by norm_cast
  have := Nat.two_pow_pos k
  omega

/-- The width found for a range is the narrowest one that holds it. -/
theorem containsRange_iff {sg : Signedness} {r : ClosedRange} {w k : Nat}
    (h : widthFor? sg r = some w) (hk : 0 < k) :
    (range ⟨sg, k⟩).containsRange r = true ↔ w ≤ k := by
  cases sg with
  | unsigned =>
    simp only [widthFor?, Option.ite_none_left_eq_some, Option.some.injEq] at h
    obtain ⟨hlo, rfl⟩ := h
    simp only [ClosedRange.containsRange_iff, range, max_le_iff, bitLength_le_iff,
      toNat_lt_two_pow_iff, Int.pow_eq]
    omega
  | signed =>
    simp only [widthFor?, Option.some.injEq] at h
    obtain ⟨j, rfl⟩ : ∃ j, k = j + 1 := ⟨k - 1, by omega⟩
    subst h
    simp only [ClosedRange.containsRange_iff, range, Nat.add_le_add_iff_right, max_le_iff,
      bitLength_le_iff, toNat_lt_two_pow_iff, Nat.add_sub_cancel, Int.pow_eq]
    omega

/-- A range without negative values has a width of either signedness. -/
theorem widthFor?_isSome {sg : Signedness} {r : ClosedRange} (h : sg = .unsigned → 0 ≤ r.lo) :
    ∃ w, widthFor? sg r = some w := by
  cases sg with
  | unsigned => exact ⟨_, if_neg (by have := h rfl; omega)⟩
  | signed => exact ⟨_, rfl⟩

end IntRepr

/-! ## Integer formats -/

/-- The operator on two integers. -/
def ArithOp.onInt (op : ArithOp) (a b : Int) : Int :=
  match op with
  | .sum => a + b
  | .product => a * b
  | .min => Min.min a b
  | .max => Max.max a b

theorem ArithOp.onInt_nonneg (op : ArithOp) {a b : Int} (ha : 0 ≤ a) (hb : 0 ≤ b) :
    0 ≤ op.onInt a b := by
  cases op with
  | sum => exact add_nonneg ha hb
  | product => exact mul_nonneg ha hb
  | min => exact le_min ha hb
  | max => exact le_max_of_le_left ha

namespace IntFormat

/-- The range of the format fits its word, and a signed word has a bit for the sign. -/
def Fits (f : IntFormat) : Prop :=
  (f.signedness = .signed → 0 < f.width) ∧ f.repr.range.containsRange f.range = true

instance (f : IntFormat) : Decidable f.Fits := inferInstanceAs (Decidable (_ ∧ _))

variable {f g : IntFormat} {v : Int} {sg : Signedness} {r : ClosedRange}

/-- A value in the range of a format that fits is not changed by the word. -/
theorem Fits.wrap_eq_self (hf : f.Fits) (hv : v ∈ f.range) : f.repr.wrap v = v :=
  IntRepr.wrap_eq_self hf.1 (ClosedRange.mem_of_containsRange hf.2 hv)

/-- Unsigned formats that fit hold no negative values. -/
theorem Fits.lo_nonneg (hf : f.Fits) (hs : f.signedness = .unsigned) : 0 ≤ f.range.lo := by
  have h := (ClosedRange.containsRange_iff.1 hf.2).1
  obtain ⟨sg, width, range⟩ := f
  obtain rfl : sg = .unsigned := hs
  exact h

theorem full_fits {w : Nat} (h : sg = .signed → 0 < w) : (full sg w).Fits :=
  ⟨h, by simp [ClosedRange.containsRange_iff, full, repr]⟩

/-- The word of a full format brings every integer into the range of the format. -/
theorem wrap_mem_full {w : Nat} (h : sg = .signed → 0 < w) :
    (full sg w).repr.wrap v ∈ (full sg w).range :=
  IntRepr.wrap_mem h

/-- The narrowest format keeps the range, unless an unsigned one would hold negative values. -/
theorem tightOrFull_eq {w : Nat} (h : IntRepr.widthFor? sg r = some w) :
    tightOrFull sg r = ⟨sg, w, r⟩ := by
  simp [tightOrFull, tight?, h]

theorem exists_tightOrFull_eq (h : sg = .unsigned → 0 ≤ r.lo) :
    ∃ w, IntRepr.widthFor? sg r = some w ∧ tightOrFull sg r = ⟨sg, w, r⟩ := by
  obtain ⟨w, hw⟩ := IntRepr.widthFor?_isSome h
  exact ⟨w, hw, tightOrFull_eq hw⟩

@[simp] theorem tightOrFull_signedness : (tightOrFull sg r).signedness = sg := by
  unfold tightOrFull tight? full
  cases IntRepr.widthFor? sg r <;> rfl

theorem tightOrFull_range (h : sg = .unsigned → 0 ≤ r.lo) : (tightOrFull sg r).range = r := by
  obtain ⟨w, -, hw⟩ := exists_tightOrFull_eq h
  rw [hw]

/-- Any word as wide as the narrowest one holds the range. -/
theorem fits_of_tight_le {w : Nat} (h : sg = .unsigned → 0 ≤ r.lo)
    (hw : (tightOrFull sg r).width ≤ w) : Fits ⟨sg, w, r⟩ := by
  obtain ⟨w', hw', heq⟩ := exists_tightOrFull_eq h
  rw [heq] at hw
  have hpos := IntRepr.widthFor?_pos hw'
  have hpos' : 0 < w := Nat.lt_of_lt_of_le hpos hw
  exact ⟨fun _ => hpos', (IntRepr.containsRange_iff hw' hpos').2 hw⟩

theorem tightOrFull_fits (h : sg = .unsigned → 0 ≤ r.lo) : (tightOrFull sg r).Fits := by
  have hfits := fits_of_tight_le h le_rfl
  obtain ⟨w, -, heq⟩ := exists_tightOrFull_eq h
  rw [heq] at hfits ⊢
  exact hfits

theorem Fits.hasValues (hf : f.Fits) : f.repr.hasValues = true := IntRepr.hasValues_iff.2 hf.1

/-- An unsigned word that would hold negative values gets the width of a signed one. -/
theorem exists_tightOrFull_eq_full (h : r.lo < 0) :
    ∃ w, IntRepr.widthFor? .signed r = some w ∧ tightOrFull .unsigned r = full .unsigned w := by
  obtain ⟨w, hw⟩ : ∃ w, IntRepr.widthFor? .signed r = some w := IntRepr.widthFor?_isSome (by simp)
  have hnone : IntRepr.widthFor? .unsigned r = none := if_pos h
  exact ⟨w, hw, by simp [tightOrFull, tight?, hnone, hw]⟩

/-- The narrowest format has a bit. -/
theorem tightOrFull_width_pos : 0 < (tightOrFull sg r).width := by
  by_cases h : sg = .unsigned → 0 ≤ r.lo
  · obtain ⟨w, hw, heq⟩ := exists_tightOrFull_eq h
    rw [heq]
    exact IntRepr.widthFor?_pos hw
  · obtain ⟨rfl, hneg⟩ : sg = .unsigned ∧ r.lo < 0 := by simpa using h
    obtain ⟨w, hw, heq⟩ := exists_tightOrFull_eq_full hneg
    rw [heq]
    exact IntRepr.widthFor?_pos hw

theorem tightOrFull_hasValues : (tightOrFull sg r).repr.hasValues = true :=
  IntRepr.hasValues_iff.2 fun _ => tightOrFull_width_pos

theorem union_hasValues : (f.union g).repr.hasValues = true :=
  IntRepr.hasValues_iff.2 fun _ => lt_max_of_lt_left (lt_max_of_lt_left tightOrFull_width_pos)

/-! ## Carried values -/

/-- The value is in the range of the format, and the word of the format does not change it. In a
format that fits, the first part says it all. -/
def Carries (f : IntFormat) (k : Int) : Prop := k ∈ f.range ∧ f.repr.wrap k = k

instance (f : IntFormat) (k : Int) : Decidable (f.Carries k) := inferInstanceAs (Decidable (_ ∧ _))

theorem Fits.carries (hf : f.Fits) (hv : v ∈ f.range) : f.Carries v := ⟨hv, hf.wrap_eq_self hv⟩

theorem Carries.mem_repr (h : f.Carries v) : v ∈ f.repr.range := IntRepr.mem_range_of_wrap_eq h.2

/-- The values that an unsigned format carries are words of its width. -/
theorem Carries.word (h : f.Carries v) (hs : f.signedness = .unsigned) :
    0 ≤ v ∧ v < 2 ^ f.width := by
  have hmem := h.mem_repr
  obtain ⟨sg, width, range⟩ := f
  obtain rfl : sg = .unsigned := hs
  exact ⟨hmem.1, Int.lt_of_le_sub_one hmem.2⟩

/-- Any word as wide as the narrowest one for a range holds the members, unless it is unsigned and
they are negative. -/
theorem wrap_of_tight_le {w : Nat} (hv : v ∈ r) (hu : sg = .unsigned → 0 ≤ v)
    (hw : (tightOrFull sg r).width ≤ w) :
    v ∈ (tightOrFull sg r).range ∧ IntRepr.wrap ⟨sg, w⟩ v = v := by
  by_cases hlo : sg = .unsigned → 0 ≤ r.lo
  · rw [tightOrFull_range hlo]
    exact ⟨hv, (fits_of_tight_le hlo hw).wrap_eq_self hv⟩
  · -- the format is the full one of a width that a signed word would need
    obtain ⟨rfl, hneg⟩ : sg = .unsigned ∧ r.lo < 0 := by simpa using hlo
    obtain ⟨m, hm, heq⟩ := exists_tightOrFull_eq_full hneg
    have hpos := IntRepr.widthFor?_pos hm
    have hcontains := (IntRepr.containsRange_iff hm hpos).2 le_rfl
    have hhalf : (2 : Int) ^ (m - 1) ≤ 2 ^ m := pow_le_pow_right₀ (by decide) (Nat.sub_le m 1)
    have hlt : v < 2 ^ m :=
      (Int.lt_of_le_sub_one (ClosedRange.mem_of_containsRange hcontains hv).2).trans_le hhalf
    rw [heq] at hw ⊢
    have hle : (2 : Int) ^ m ≤ 2 ^ w := pow_le_pow_right₀ (by decide) hw
    refine ⟨⟨hu rfl, Int.le_sub_one_of_lt hlt⟩, ?_⟩
    exact IntRepr.wrap_eq_self (by simp) ⟨hu rfl, Int.le_sub_one_of_lt (hlt.trans_le hle)⟩

theorem carries_tightOrFull (hv : v ∈ r) (hu : sg = .unsigned → 0 ≤ v) :
    (tightOrFull sg r).Carries v := by
  have h := wrap_of_tight_le hv hu le_rfl
  have hrepr : (tightOrFull sg r).repr = ⟨sg, (tightOrFull sg r).width⟩ := by
    rw [repr, tightOrFull_signedness]
  exact ⟨h.1, by rw [hrepr, h.2]⟩

/-! ## Results of operators -/

/-- The range of an operator's results holds the results on members. -/
theorem mem_arithmeticRange (op : ArithOp) {r s : ClosedRange} {a b : Int} (ha : a ∈ r)
    (hb : b ∈ s) : op.onInt a b ∈ arithmeticRange op r s := by
  cases op with
  | sum => exact ClosedRange.mem_add ha hb
  | product => exact ClosedRange.mem_mul ha hb
  | min => exact ClosedRange.mem_minimum ha hb
  | max => exact ClosedRange.mem_maximum ha hb

/-- On ranges without negative values an operator has no negative results. -/
theorem arithmeticRange_lo_nonneg (op : ArithOp) {r s : ClosedRange} (hr : 0 ≤ r.lo)
    (hs : 0 ≤ s.lo) : 0 ≤ (arithmeticRange op r s).lo := by
  have hr' := hr.trans r.lo_le_hi
  have hs' := hs.trans s.lo_le_hi
  cases op with
  | sum => exact add_nonneg hr hs
  | product =>
    exact le_min (le_min (mul_nonneg hr hs) (mul_nonneg hr hs'))
      (le_min (mul_nonneg hr' hs) (mul_nonneg hr' hs'))
  | min => exact le_min hr hs
  | max => exact le_max_of_le_left hr

/-- Unsigned operands give an unsigned result without negative values. -/
theorem Fits.arithmeticRange_lo (op : ArithOp) (hf : f.Fits) (hg : g.Fits)
    (hs : f.signedness = g.signedness) :
    f.signedness = .unsigned → 0 ≤ (arithmeticRange op f.range g.range).lo := fun hu =>
  arithmeticRange_lo_nonneg op (hf.lo_nonneg hu) (hg.lo_nonneg (hs ▸ hu))

theorem Fits.arithmetic (op : ArithOp) (hf : f.Fits) (hg : g.Fits)
    (hs : f.signedness = g.signedness) : (IntFormat.arithmetic op f g).Fits :=
  tightOrFull_fits (hf.arithmeticRange_lo op hg hs)

theorem Fits.hull_lo (hf : f.Fits) (hg : g.Fits) (hs : f.signedness = g.signedness) :
    f.signedness = .unsigned → 0 ≤ (f.range.hull g.range).lo := fun hu =>
  le_min (hf.lo_nonneg hu) (hg.lo_nonneg (hs ▸ hu))

theorem Fits.union (hf : f.Fits) (hg : g.Fits) (hs : f.signedness = g.signedness) :
    (IntFormat.union f g).Fits := by
  have hlo := hf.hull_lo hg hs
  have h := fits_of_tight_le (w := max (max (tightOrFull f.signedness
    (f.range.hull g.range)).width f.width) g.width) hlo (by omega)
  have heq : IntFormat.union f g = ⟨f.signedness, max (max (tightOrFull f.signedness
      (f.range.hull g.range)).width f.width) g.width, f.range.hull g.range⟩ := by
    unfold IntFormat.union
    simp [tightOrFull_range hlo]
  rw [heq]
  exact h

@[simp] theorem arithmetic_signedness (op : ArithOp) :
    (IntFormat.arithmetic op f g).signedness = f.signedness :=
  tightOrFull_signedness

@[simp] theorem union_signedness : (IntFormat.union f g).signedness = f.signedness :=
  tightOrFull_signedness

theorem Carries.arithmetic (op : ArithOp) {a b : Int} (ha : f.Carries a) (hb : g.Carries b)
    (hs : f.signedness = g.signedness) : (IntFormat.arithmetic op f g).Carries (op.onInt a b) :=
  carries_tightOrFull (mem_arithmeticRange op ha.1 hb.1) fun hu =>
    op.onInt_nonneg (ha.word hu).1 (hb.word (hs ▸ hu)).1

theorem carries_union (hv : v ∈ f.range.hull g.range) (hu : f.signedness = .unsigned → 0 ≤ v) :
    (IntFormat.union f g).Carries v := by
  have hle : (tightOrFull f.signedness (f.range.hull g.range)).width ≤
      (IntFormat.union f g).width := by
    simp only [IntFormat.union]
    omega
  have h := wrap_of_tight_le hv hu hle
  have hrepr : (IntFormat.union f g).repr = ⟨f.signedness, (IntFormat.union f g).width⟩ := by
    rw [repr, union_signedness]
  exact ⟨h.1, by rw [hrepr, h.2]⟩

theorem Carries.union_left (h : f.Carries v) : (IntFormat.union f g).Carries v :=
  carries_union (ClosedRange.mem_hull_left h.1) fun hu => (h.word hu).1

theorem Carries.union_right (h : g.Carries v) (hs : f.signedness = g.signedness) :
    (IntFormat.union f g).Carries v :=
  carries_union (ClosedRange.mem_hull_right h.1) fun hu => (h.word (hs ▸ hu)).1

/-- Words grow with the shift, so a format shifted to the left fits. -/
theorem Fits.shiftLeft (hf : f.Fits) (n : Nat) :
    Fits ⟨f.signedness, f.width + n, f.range.shiftLeft n⟩ := by
  obtain ⟨sg, width, range⟩ := f
  obtain ⟨hw, hr⟩ := hf
  refine ⟨fun h => Nat.lt_of_lt_of_le (hw h) (Nat.le_add_right _ _), ?_⟩
  rw [ClosedRange.containsRange_iff] at hr ⊢
  have hpow := IntRepr.two_pow_pos n
  cases sg with
  | unsigned =>
    simp only [IntFormat.repr, IntRepr.range, ClosedRange.shiftLeft, shiftedLeft_eq,
      Int.pow_eq] at hr ⊢
    refine ⟨mul_nonneg hr.1 hpow.le, ?_⟩
    have := mul_le_mul_of_nonneg_right hr.2 hpow.le
    rw [sub_mul, ← pow_add, one_mul] at this
    omega
  | signed =>
    have hpos := hw rfl
    simp only at hpos
    simp only [IntFormat.repr, IntRepr.range, ClosedRange.shiftLeft, shiftedLeft_eq,
      Int.pow_eq] at hr ⊢
    have h1 := mul_le_mul_of_nonneg_right hr.1 hpow.le
    have h2 := mul_le_mul_of_nonneg_right hr.2 hpow.le
    rw [show width + n - 1 = width - 1 + n by omega, pow_add]
    rw [neg_mul] at h1
    rw [sub_mul, one_mul] at h2
    omega

theorem Carries.shiftLeft (h : f.Carries v) (n : Nat) :
    Carries ⟨f.signedness, f.width + n, f.range.shiftLeft n⟩ (shiftedLeft v n) := by
  refine ⟨ClosedRange.mem_shiftLeft n h.1, ?_⟩
  by_cases hw : f.signedness = .signed → 0 < f.width
  · -- the format of all words of the width fits, and so it does when it is shifted
    have hfull := (full_fits hw).shiftLeft n
    exact hfull.wrap_eq_self (ClosedRange.mem_shiftLeft n h.mem_repr)
  · rw [IntRepr.eq_zero_of_wrap_eq hw h.2, shiftedLeft_eq, zero_mul]
    exact IntRepr.wrap_zero

/-- A shift to the right keeps the sign of the lower bound. -/
theorem Fits.shiftRight_lo (hf : f.Fits) (n : Nat) :
    f.signedness = .unsigned → 0 ≤ (f.range.shiftRight n).lo := fun hu => by
  have h := hf.lo_nonneg hu
  simp only [ClosedRange.shiftRight, Int.shiftRight_eq_div_pow]
  exact Int.ediv_nonneg h (by positivity)

/-- An unsigned format fits a signed word with one bit more. -/
theorem Fits.toSigned (hf : f.Fits) (hu : f.signedness = .unsigned) {w : Nat}
    (hw : f.width + 1 ≤ w) : Fits ⟨.signed, w, f.range⟩ := by
  obtain ⟨sg, width, range⟩ := f
  obtain rfl : sg = .unsigned := hu
  refine ⟨fun _ => by simp only at hw ⊢; omega, ?_⟩
  have hr := ClosedRange.containsRange_iff.1 hf.2
  rw [ClosedRange.containsRange_iff]
  have hpow : (2 : Int) ^ width ≤ 2 ^ (w - 1) :=
    pow_le_pow_right₀ (by decide) (by simp only at hw; omega)
  have hhalf := IntRepr.two_pow_pos (w - 1)
  simp only [IntFormat.repr, IntRepr.range, Int.pow_eq] at hr ⊢
  omega

theorem Carries.shiftRight (h : f.Carries v) (n : Nat) :
    (tightOrFull f.signedness (f.range.shiftRight n)).Carries (v >>> n) := by
  refine carries_tightOrFull (ClosedRange.mem_shiftRight n h.1) fun hu => ?_
  rw [Int.shiftRight_eq_div_pow]
  exact Int.ediv_nonneg (h.word hu).1 (by positivity)

theorem Carries.toSigned (h : f.Carries v) (hu : f.signedness = .unsigned) {w : Nat}
    (hw : f.width + 1 ≤ w) : Carries ⟨.signed, w, f.range⟩ v := by
  have hfits : (full .unsigned f.width).Fits := full_fits (by simp)
  have hfull := hfits.toSigned rfl hw
  have hword := h.word hu
  exact ⟨h.1, hfull.wrap_eq_self ⟨hword.1, Int.le_sub_one_of_lt hword.2⟩⟩

end IntFormat

end MixedSignal
