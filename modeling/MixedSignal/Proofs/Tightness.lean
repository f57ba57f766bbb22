import MixedSignal.Proofs.Range

/-!
# Tightness of integer formats

The format of a result is as small as its operands allow. Its range is the image of the operands'
ranges under the operator, from the least to the greatest result (`ClosedRange.IsImage`); for a
product these are found among the products of the bounds, whatever the signs are. Its width is the
narrowest one for that range (`IntRepr.Narrowest`). A union has the hull of two ranges, and no more
bits than the wider operand. As every inferred width has a bit, the union of words without bits has
one too.
-/

namespace MixedSignal

namespace ClosedRange

variable {q r s : ClosedRange}

/-- The range holds the results on members of two ranges, and its ends are such results. -/
structure IsImage (q : ClosedRange) (g : Int → Int → Int) (r s : ClosedRange) : Prop where
  mem : ∀ x ∈ r, ∀ y ∈ s, g x y ∈ q
  lo : ∃ x ∈ r, ∃ y ∈ s, g x y = q.lo
  hi : ∃ x ∈ r, ∃ y ∈ s, g x y = q.hi

theorem lo_mem : r.lo ∈ r := ⟨le_rfl, r.lo_le_hi⟩

theorem hi_mem : r.hi ∈ r := ⟨r.lo_le_hi, le_rfl⟩

/-- A product of bounds is a product of members. -/
theorem exists_of_corner {v : Int}
    (h : v = r.lo * s.lo ∨ v = r.lo * s.hi ∨ v = r.hi * s.lo ∨ v = r.hi * s.hi) :
    ∃ x ∈ r, ∃ y ∈ s, x * y = v := by
  rcases h with rfl | rfl | rfl | rfl
  · exact ⟨r.lo, lo_mem, s.lo, lo_mem, rfl⟩
  · exact ⟨r.lo, lo_mem, s.hi, hi_mem, rfl⟩
  · exact ⟨r.hi, hi_mem, s.lo, lo_mem, rfl⟩
  · exact ⟨r.hi, hi_mem, s.hi, hi_mem, rfl⟩

theorem mul_isImage : (r.mul s).IsImage (· * ·) r s where
  mem _ hx _ hy := mem_mul hx hy
  lo := exists_of_corner (by simp only [mul]; omega)
  hi := exists_of_corner (by simp only [mul]; omega)

theorem containsRange_trans (h : q.containsRange r = true) (h' : r.containsRange s = true) :
    q.containsRange s = true := by
  rw [containsRange_iff] at *
  omega

/-- What holds two ranges holds their hull. -/
theorem containsRange_hull_iff : q.containsRange (r.hull s) = true ↔
    q.containsRange r = true ∧ q.containsRange s = true := by
  simp only [containsRange_iff, hull]
  omega

end ClosedRange

/-- The range inferred for an operator is the image of the operands' ranges. -/
theorem IntFormat.arithmeticRange_isImage (op : ArithOp) (r s : ClosedRange) :
    (arithmeticRange op r s).IsImage op.onInt r s := by
  cases op with
  | product => exact ClosedRange.mul_isImage
  | sum | min | max =>
    exact ⟨fun x hx y hy => mem_arithmeticRange _ hx hy,
      ⟨r.lo, ClosedRange.lo_mem, s.lo, ClosedRange.lo_mem, rfl⟩,
      ⟨r.hi, ClosedRange.hi_mem, s.hi, ClosedRange.hi_mem, rfl⟩⟩

/-! ## Widths -/

namespace IntRepr

variable {sg : Signedness} {r : ClosedRange} {w k : Nat}

/-- The width is the narrowest one, of one bit at least, whose words hold the range. -/
structure Narrowest (sg : Signedness) (r : ClosedRange) (w : Nat) : Prop where
  pos : 1 ≤ w
  holds : (range ⟨sg, w⟩).containsRange r = true
  least : ∀ k, 1 ≤ k → (range ⟨sg, k⟩).containsRange r = true → w ≤ k

/-- Wider words hold what narrower ones hold. -/
theorem range_mono (h : w ≤ k) : (range ⟨sg, k⟩).containsRange (range ⟨sg, w⟩) = true := by
  rw [ClosedRange.containsRange_iff]
  cases sg with
  | unsigned =>
    have hpow : (2 : Int) ^ w ≤ 2 ^ k := pow_le_pow_right₀ (by decide) h
    simp only [range, Int.pow_eq]
    omega
  | signed =>
    have hpow : (2 : Int) ^ (w - 1) ≤ 2 ^ (k - 1) := pow_le_pow_right₀ (by decide) (by omega)
    simp only [range, Int.pow_eq]
    omega

theorem widthFor?_narrowest (h : widthFor? sg r = some w) : Narrowest sg r w where
  pos := widthFor?_pos h
  holds := (containsRange_iff h (widthFor?_pos h)).2 le_rfl
  least _ hk := (containsRange_iff h hk).1

theorem widthFor?_eq_none_iff : widthFor? sg r = none ↔ sg = .unsigned ∧ r.lo < 0 := by
  constructor
  · intro h
    by_contra hnot
    have hlo (hu : sg = .unsigned) : 0 ≤ r.lo := not_lt.1 fun hlt => hnot ⟨hu, hlt⟩
    obtain ⟨w, hw⟩ := widthFor?_isSome hlo
    rw [hw] at h
    cases h
  · rintro ⟨rfl, hlo⟩
    exact if_pos hlo

end IntRepr

/-! ## Results of operators -/

namespace IntFormat

variable {a b : IntFormat}

/-- The hull of two ranges fits as many bits as the wider format has. -/
theorem Fits.hull_width_le (ha : a.Fits) (hb : b.Fits) (hs : a.signedness = b.signedness) {w : Nat}
    (h : IntRepr.Narrowest a.signedness (a.range.hull b.range) w) :
    w ≤ max (max a.width b.width) 1 := by
  refine h.least _ (le_max_right _ _) (ClosedRange.containsRange_hull_iff.2 ⟨?_, ?_⟩)
  · exact ClosedRange.containsRange_trans (IntRepr.range_mono (by omega)) ha.2
  · rw [hs]
    exact ClosedRange.containsRange_trans (IntRepr.range_mono (by omega)) hb.2

theorem Fits.union_eq (ha : a.Fits) (hb : b.Fits) (hs : a.signedness = b.signedness) :
    IntFormat.union a b =
      ⟨a.signedness, max (max a.width b.width) 1, a.range.hull b.range⟩ := by
  obtain ⟨w, hw, heq⟩ := exists_tightOrFull_eq (ha.hull_lo hb hs)
  have hnarrowest := IntRepr.widthFor?_narrowest hw
  have hle := ha.hull_width_le hb hs hnarrowest
  have hpos := hnarrowest.pos
  unfold IntFormat.union
  rw [heq]
  simp only [IntFormat.mk.injEq, true_and, and_true]
  omega

/-- The format of an operator's result holds the results and nothing beyond them on either side, in
the narrowest word for them; no format of an unsigned result has to take all values of a wider word
instead. A union holds the hull of both ranges in the wider of the two words, and in one bit if
neither has any. -/
theorem inferred_formats_tight (ha : a.Fits) (hb : b.Fits) (hs : a.signedness = b.signedness) :
    (∀ op : ArithOp, (arithmetic op a b).signedness = a.signedness ∧
      (arithmetic op a b).range.IsImage op.onInt a.range b.range ∧
      IntRepr.Narrowest a.signedness (arithmetic op a b).range (arithmetic op a b).width ∧
      tight? a.signedness (arithmeticRange op a.range b.range) = some (arithmetic op a b)) ∧
    (IntFormat.union a b).signedness = a.signedness ∧
    (IntFormat.union a b).range.lo = min a.range.lo b.range.lo ∧
    (IntFormat.union a b).range.hi = max a.range.hi b.range.hi ∧
    (IntFormat.union a b).width = max (max a.width b.width) 1 := by
  refine ⟨fun op => ?_, ?_⟩
  · obtain ⟨w, hw, heq⟩ := exists_tightOrFull_eq (ha.arithmeticRange_lo op hb hs)
    have hresult : arithmetic op a b =
        ⟨a.signedness, w, arithmeticRange op a.range b.range⟩ := heq
    rw [hresult]
    exact ⟨rfl, arithmeticRange_isImage op a.range b.range, IntRepr.widthFor?_narrowest hw,
      by rw [tight?, hw, Option.map_some]⟩
  · rw [ha.union_eq hb hs]
    exact ⟨rfl, rfl, rfl, rfl⟩

/-- From -8 to -2, in a word that is wider than it has to be. -/
def belowZero : IntFormat := ⟨.signed, 6, (ClosedRange.single (-8)).hull (.single (-2))⟩

/-- The products of -4 to 3 with -8 to -2 go from -24 to 32, which takes seven bits. -/
theorem inferred_formats_tight_product :
    (full .signed 3).Fits ∧ belowZero.Fits ∧
    (arithmetic .product (full .signed 3) belowZero).range.lo = -24 ∧
    (arithmetic .product (full .signed 3) belowZero).range.hi = 32 ∧
    (∃ x ∈ (full .signed 3).range, ∃ y ∈ belowZero.range, x * y = -24) ∧
    (∃ x ∈ (full .signed 3).range, ∃ y ∈ belowZero.range, x * y = 32) ∧
    IntRepr.Narrowest .signed (arithmetic .product (full .signed 3) belowZero).range 7 ∧
    (IntFormat.union (full .signed 3) belowZero).width = 6 := by
  have ha : (full .signed 3).Fits := by decide
  have hb : belowZero.Fits := by decide
  obtain ⟨harithmetic, -, -, -, hwidth⟩ := inferred_formats_tight ha hb rfl
  obtain ⟨-, himage, hnarrowest, -⟩ := harithmetic .product
  exact ⟨ha, hb, by decide, by decide, himage.lo, himage.hi, hnarrowest, hwidth⟩

/-- Zero fits a word without bits. The union of two such words has a bit, though neither has one. -/
theorem union_of_no_bits :
    (full .unsigned 0).Fits ∧ max (full .unsigned 0).width (full .unsigned 0).width = 0 ∧
    (IntFormat.union (full .unsigned 0) (full .unsigned 0)).width = 1 := by
  decide

end IntFormat

end MixedSignal
