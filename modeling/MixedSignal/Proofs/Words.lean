import Mathlib.Data.Int.ModEq
import MixedSignal.Proofs.TableFiles

/-!
# Words of fixed width

The range of a representation of `w` bits has one value for each residue modulo `2 ^ w`, and
`IntRepr.wrap` finds the one of the residue it is given (`IntRepr.eq_wrap_iff`). A narrower word asks
for less of the residue, so wrapping into a wider word first changes nothing, whatever its
signedness. The binary digits of a word form the residue itself.

The narrowest representation of a range is the one that `IntRepr.forRange?` finds. Each bit more at
least doubles the values of a word, so that of the full range of a representation is the
representation.
-/

namespace MixedSignal

/-- A range holds another one if it holds its members. -/
theorem ClosedRange.containsRange_iff_forall_mem {q r : ClosedRange} :
    q.containsRange r = true ↔ ∀ v ∈ r, v ∈ q := by
  constructor
  · exact fun h v hv => mem_of_containsRange h hv
  · intro h
    exact containsRange_iff.2 ⟨(h r.lo lo_mem).1, (h r.hi hi_mem).2⟩

namespace IntRepr

variable {repr wider : IntRepr} {sg : Signedness} {w k : Nat} {v x : Int} {r : ClosedRange}

/-! ## Residues -/

theorem wrap_modEq (repr : IntRepr) (v : Int) : repr.wrap v ≡ v [ZMOD 2 ^ repr.width] := by
  have h := repr.wrap_emod v
  rwa [Int.pow_eq] at h

theorem wrap_eq_wrap_of_modEq (h : x ≡ v [ZMOD 2 ^ repr.width]) : repr.wrap x = repr.wrap v :=
  wrap_congr (by rwa [Int.pow_eq])

/-- Of the values in the range exactly one has the residue of a given value. -/
theorem eq_wrap_iff (hw : 1 ≤ repr.width) :
    x = repr.wrap v ↔ x ∈ repr.range ∧ x ≡ v [ZMOD 2 ^ repr.width] := by
  constructor
  · rintro rfl
    exact ⟨wrap_mem fun _ => hw, repr.wrap_modEq v⟩
  · rintro ⟨hmem, hmod⟩
    calc x = repr.wrap x := (wrap_eq_self (fun _ => hw) hmem).symm
      _ = repr.wrap v := wrap_eq_wrap_of_modEq hmod

/-- The residue modulo a power of two determines that modulo a smaller one. -/
theorem wrap_wrap_of_le (h : repr.width ≤ wider.width) :
    repr.wrap (wider.wrap v) = repr.wrap v :=
  wrap_eq_wrap_of_modEq ((wider.wrap_modEq v).of_dvd (pow_dvd_pow 2 h))

/-- A word brings every integer to the one value in its range that has the same residue. It so leaves
the values of the range as they are, and a wider word before it makes no difference. What is written
of the value has one binary digit for each bit; the digits form the residue, and decode to the wrapped
value. -/
theorem words_faithful (hw : 1 ≤ repr.width) (v : Int) :
    (∀ x, x = repr.wrap v ↔ x ∈ repr.range ∧ x ≡ v [ZMOD 2 ^ repr.width]) ∧
    (v ∈ repr.range → repr.wrap v = v) ∧
    (∀ wider : IntRepr, repr.width ≤ wider.width → repr.wrap (wider.wrap v) = repr.wrap v) ∧
    (repr.bits v).toList.length = repr.width ∧
    (∀ c ∈ (repr.bits v).toList, c = '0' ∨ c = '1') ∧
    (numberOf (repr.bits v).toList : Int) = v % 2 ^ repr.width ∧
    decode repr.signedness (repr.bits v).toList = repr.wrap v := by
  exact ⟨fun x => eq_wrap_iff hw, wrap_eq_self fun _ => hw, fun wider => wrap_wrap_of_le,
    length_bits hw v, fun _ => mem_bits, repr.numberOf_bits v, decode_bits hw v⟩

/-- In a signed word of four bits -9 becomes 7, also by way of 247 in an unsigned word of eight. -/
theorem words_faithful_below_range :
    1 ≤ (⟨.signed, 4⟩ : IntRepr).width ∧ wrap ⟨.unsigned, 8⟩ (-9) = 247 ∧
    (∀ x, x = 7 ↔ x ∈ range ⟨.signed, 4⟩ ∧ x ≡ -9 [ZMOD 2 ^ 4]) ∧
    wrap ⟨.signed, 4⟩ 7 = 7 ∧ wrap ⟨.signed, 4⟩ 247 = 7 ∧
    (bits ⟨.signed, 4⟩ (-9)).toList = ['0', '1', '1', '1'] ∧
    (numberOf ['0', '1', '1', '1'] : Int) = -9 % 2 ^ 4 ∧
    decode .signed ['0', '1', '1', '1'] = 7 := by
  have hw : 1 ≤ (⟨.signed, 4⟩ : IntRepr).width := by decide
  have hwrap : wrap ⟨.signed, 4⟩ (-9) = 7 := by decide
  have hwide : wrap ⟨.unsigned, 8⟩ (-9) = 247 := by decide
  have hbits : (bits ⟨.signed, 4⟩ (-9)).toList = ['0', '1', '1', '1'] := by decide
  obtain ⟨hunique, -, hwider, -, -, hnumber, hdecode⟩ := words_faithful hw (-9)
  obtain ⟨-, hself, -⟩ := words_faithful hw 7
  have hnarrow := hwider ⟨.unsigned, 8⟩ (by decide)
  rw [hbits] at hnumber hdecode
  rw [hwrap] at hunique hnarrow hdecode
  rw [hwide] at hnarrow
  exact ⟨hw, hwide, hunique, hself (by decide), hnarrow, hbits, hnumber, hdecode⟩

/-! ## Narrowest representations -/

/-- A word holds all values of another one of the same signedness only if it is as wide. -/
theorem le_of_range_containsRange (hw : 1 ≤ w) (hk : 1 ≤ k)
    (h : (range ⟨sg, k⟩).containsRange (range ⟨sg, w⟩) = true) : w ≤ k := by
  have hhi := (ClosedRange.containsRange_iff.1 h).2
  cases sg with
  | unsigned =>
    have hpow : (2 : Int) ^ w ≤ 2 ^ k := Int.sub_le_sub_right_iff.1 hhi
    exact (pow_le_pow_iff_right₀ (by decide)).1 hpow
  | signed =>
    have hpow : (2 : Int) ^ (w - 1) ≤ 2 ^ (k - 1) := Int.sub_le_sub_right_iff.1 hhi
    have hle := (pow_le_pow_iff_right₀ (by decide)).1 hpow
    omega

theorem widthFor?_range (hw : 1 ≤ w) : widthFor? sg (range ⟨sg, w⟩) = some w := by
  have hlo (hu : sg = .unsigned) : 0 ≤ (range ⟨sg, w⟩).lo := by
    subst hu
    exact le_rfl
  obtain ⟨k, hk⟩ := widthFor?_isSome hlo
  have hnarrowest := widthFor?_narrowest hk
  have hself := ClosedRange.containsRange_iff_forall_mem.2 fun x (hx : x ∈ range ⟨sg, w⟩) => hx
  have hle := hnarrowest.least w hw hself
  have hge := le_of_range_containsRange hw hnarrowest.pos hnarrowest.holds
  rw [hk, le_antisymm hle hge]

/-- The representation found for a range has the signedness that was asked for and holds the members
of the range, and no narrower one does. There is none exactly for negative members of unsigned words.
That of all values of a word is the word itself. -/
theorem representation_narrowest (sg : Signedness) (r : ClosedRange) :
    (forRange? sg r = none ↔ sg = .unsigned ∧ r.lo < 0) ∧
    (∀ repr, forRange? sg r = some repr →
      repr.signedness = sg ∧ 1 ≤ repr.width ∧ (∀ v ∈ r, v ∈ repr.range) ∧
      ∀ k, 1 ≤ k → k < repr.width → ∃ v ∈ r, v ∉ range ⟨sg, k⟩) ∧
    ∀ w, 1 ≤ w → forRange? sg (range ⟨sg, w⟩) = some ⟨sg, w⟩ := by
  refine ⟨?_, fun repr h => ?_, fun w hw => ?_⟩
  · rw [forRange?, Option.map_eq_none_iff, widthFor?_eq_none_iff]
  · obtain ⟨w, hwidth, rfl⟩ := Option.map_eq_some_iff.1 h
    have hnarrowest := widthFor?_narrowest hwidth
    refine ⟨rfl, hnarrowest.pos, ClosedRange.containsRange_iff_forall_mem.1 hnarrowest.holds, ?_⟩
    intro k hk hlt
    by_contra hall
    push Not at hall
    have hle := hnarrowest.least k hk (ClosedRange.containsRange_iff_forall_mem.2 hall)
    exact hlt.not_ge hle
  · rw [forRange?, widthFor?_range hw, Option.map_some]

/-- From -9 to 7 takes five bits, as four end at -8, and no unsigned word holds it. -/
theorem representation_narrowest_below_power :
    forRange? .signed ⟨-9, 7, by decide⟩ = some ⟨.signed, 5⟩ ∧
    (∀ v ∈ (⟨-9, 7, by decide⟩ : ClosedRange), v ∈ range ⟨.signed, 5⟩) ∧
    (∃ v ∈ (⟨-9, 7, by decide⟩ : ClosedRange), v ∉ range ⟨.signed, 4⟩) ∧
    forRange? .unsigned ⟨-9, 7, by decide⟩ = none ∧
    forRange? .signed (range ⟨.signed, 1⟩) = some ⟨.signed, 1⟩ := by
  have hfound : forRange? .signed ⟨-9, 7, by decide⟩ = some ⟨.signed, 5⟩ := by decide
  obtain ⟨-, hsome, hfull⟩ := representation_narrowest .signed ⟨-9, 7, by decide⟩
  obtain ⟨hnone, -⟩ := representation_narrowest .unsigned ⟨-9, 7, by decide⟩
  obtain ⟨-, -, hholds, hleast⟩ := hsome _ hfound
  exact ⟨hfound, hholds, hleast 4 (by decide) (by decide), hnone.2 ⟨rfl, by decide⟩,
    hfull 1 (by decide)⟩

end IntRepr

end MixedSignal
