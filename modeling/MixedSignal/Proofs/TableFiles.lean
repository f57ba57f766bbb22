import Mathlib.Data.List.Forall2
import MixedSignal.Proofs.Tightness
import MixedSignal.Table

/-!
# Files of integer tables

A word is written as binary digits, the most significant one first. `numberOf` is the number that
digits form by their places, and in a signed word the first place counts negatively
(`IntRepr.decode`). What a word of the representation decodes to is the value that was written,
wrapped into it (`IntRepr.decode_bits`).

The values of a table are in the range of its representation, as its width is at least the narrowest
one that holds them all (`IntTable.NarrowestFor`). So the file of a table has a line for each value,
and the line decodes to it (`IntTable.IsWord`).
-/

namespace MixedSignal

/-! ## Binary digits -/

/-- The number that binary digits form. -/
def numberOf : List Char → Nat
  | [] => 0
  | c :: cs => (if c = '1' then 2 ^ cs.length else 0) + numberOf cs

theorem numberOf_append (cs ds : List Char) :
    numberOf (cs ++ ds) = numberOf cs * 2 ^ ds.length + numberOf ds := by
  induction cs with
  | nil => simp [numberOf]
  | cons c cs ih =>
    rw [List.cons_append, numberOf, numberOf, ih, List.length_append, pow_add, add_mul, ite_mul,
      zero_mul, add_assoc]

theorem numberOf_lt (cs : List Char) : numberOf cs < 2 ^ cs.length := by
  induction cs with
  | nil => simp [numberOf]
  | cons c cs ih =>
    rw [numberOf, List.length_cons, pow_succ]
    split <;> omega

theorem numberOf_replicate_zero (k : Nat) : numberOf (List.replicate k '0') = 0 := by
  induction k with
  | zero => rfl
  | succ k ih =>
    rw [List.replicate_succ, numberOf, ih]
    rfl

/-- The last digit of a number is its remainder, and the digits before it are those of its half. -/
theorem toDigits_two (n : Nat) :
    Nat.toDigits 2 n = (if n < 2 then [] else Nat.toDigits 2 (n / 2)) ++
      [if n % 2 = 1 then '1' else '0'] := by
  have hdigit : Nat.digitChar (n % 2) = if n % 2 = 1 then '1' else '0' := by
    rcases Nat.mod_two_eq_zero_or_one n with h | h <;> rw [h] <;> rfl
  rw [Nat.toDigits_eq_if (by decide), ← hdigit]
  split
  · rw [Nat.mod_eq_of_lt ‹_›, List.nil_append]
  · rfl

/-- The digits of a number form it. -/
theorem numberOf_toDigits (n : Nat) : numberOf (Nat.toDigits 2 n) = n := by
  induction n using Nat.strongRecOn with
  | _ n ih =>
    have hlast : numberOf [if n % 2 = 1 then '1' else '0'] = n % 2 := by
      rcases Nat.mod_two_eq_zero_or_one n with h | h <;> rw [h] <;> rfl
    rw [toDigits_two, numberOf_append, hlast, List.length_singleton]
    split
    · simp only [numberOf]
      omega
    · rw [ih (n / 2) (by omega)]
      omega

theorem mem_toDigits_two {n : Nat} {c : Char} (hc : c ∈ Nat.toDigits 2 n) : c = '0' ∨ c = '1' := by
  induction n using Nat.strongRecOn with
  | _ n ih =>
    rw [toDigits_two, List.mem_append, List.mem_singleton] at hc
    rcases hc with hc | rfl
    · split at hc
      · cases hc
      · exact ih (n / 2) (by omega) hc
    · split <;> simp

namespace IntRepr

variable {repr : IntRepr}

/-- The value of a word: of its digits the first one counts negatively, if the word is signed. -/
def decode (signedness : Signedness) (digits : List Char) : Int :=
  match signedness, digits with
  | .signed, c :: cs => numberOf cs - (if c = '1' then 2 ^ cs.length else 0)
  | _, digits => numberOf digits

theorem decode_unsigned (digits : List Char) : decode .unsigned digits = numberOf digits := by
  cases digits <;> rfl

/-- A word shows the digits of the residue of the value. -/
theorem bits_toList (v : Int) :
    (repr.bits v).toList =
      List.replicate (repr.width - (Nat.toDigits 2 (v % 2 ^ repr.width).toNat).length) '0' ++
        Nat.toDigits 2 (v % 2 ^ repr.width).toNat := by
  have hpos := two_pow_pos repr.width
  have hnonneg := Int.emod_nonneg v hpos.ne'
  have hlt := Int.emod_lt_of_pos v hpos
  have hword : (if repr.wrap v < 0 then repr.wrap v + 2 ^ repr.width else repr.wrap v) =
      v % 2 ^ repr.width := by
    simp only [wrap, Int.pow_eq]
    cases repr.signedness with
    | unsigned => exact if_neg (by simpa using hnonneg)
    | signed =>
      simp only
      split <;> split <;> omega
  simp only [bits, String.toList_ofList, Int.pow_eq, hword]

theorem toNat_emod_lt (v : Int) : (v % 2 ^ repr.width).toNat < 2 ^ repr.width :=
  toNat_lt_two_pow_iff.2 (Int.emod_lt_of_pos v (two_pow_pos repr.width))

theorem length_bits (hw : 0 < repr.width) (v : Int) :
    (repr.bits v).toList.length = repr.width := by
  have hlength := (Nat.length_toDigits_le_iff (b := 2) (by decide) hw).2 (repr.toNat_emod_lt v)
  rw [bits_toList, List.length_append, List.length_replicate]
  omega

theorem mem_bits {v : Int} {c : Char} (hc : c ∈ (repr.bits v).toList) : c = '0' ∨ c = '1' := by
  rw [bits_toList, List.mem_append] at hc
  rcases hc with hc | hc
  · exact .inl (List.mem_replicate.1 hc).2
  · exact mem_toDigits_two hc

/-- The digits of a word form the residue of the value. -/
theorem numberOf_bits (v : Int) : (numberOf (repr.bits v).toList : Int) = v % 2 ^ repr.width := by
  rw [bits_toList, numberOf_append, numberOf_replicate_zero, zero_mul, zero_add, numberOf_toDigits,
    Int.toNat_of_nonneg (Int.emod_nonneg v (two_pow_pos repr.width).ne')]

/-- What is written of a value decodes to the value wrapped into the representation. -/
theorem decode_bits (hw : 0 < repr.width) (v : Int) :
    decode repr.signedness (repr.bits v).toList = repr.wrap v := by
  have hnumber := repr.numberOf_bits v
  have hlength := length_bits hw v
  obtain ⟨sg, width⟩ := repr
  cases sg with
  | unsigned => rw [decode_unsigned, hnumber, wrap, Int.pow_eq]
  | signed =>
    obtain ⟨w, rfl⟩ : ∃ w, width = w + 1 := ⟨width - 1, by simp only at hw; omega⟩
    obtain ⟨c, cs, hcs⟩ : ∃ c cs, (bits ⟨.signed, w + 1⟩ v).toList = c :: cs :=
      List.exists_cons_of_length_eq_add_one hlength
    rw [hcs] at hnumber hlength ⊢
    obtain rfl : cs.length = w := by simpa using hlength
    -- the places behind the first one stay below it
    have hrest : (numberOf cs : Int) < 2 ^ cs.length := by exact_mod_cast numberOf_lt cs
    simp only [numberOf, pow_succ] at hnumber
    simp only [decode, wrap, Int.pow_eq, Nat.add_sub_cancel, pow_succ, ← hnumber]
    split <;> push_cast <;> split <;> omega

theorem zero_mem_range : 0 ∈ repr.range := mem_range_of_wrap_eq wrap_zero

end IntRepr

/-! ## Widths of tables -/

theorem ClosedRange.containsRange_single_iff {q : ClosedRange} {v : Int} :
    q.containsRange (single v) = true ↔ v ∈ q :=
  containsRange_iff

namespace IntTable

variable {R : Type} [Scalar R] {values : List Int} {sg : Signedness} {width : Option Nat}
  {t : IntTable}

/-- The width is the narrowest one, of one bit at least, whose words hold all values. -/
structure NarrowestFor (sg : Signedness) (values : List Int) (w : Nat) : Prop where
  pos : 1 ≤ w
  holds : ∀ v ∈ values, v ∈ IntRepr.range ⟨sg, w⟩
  least : ∀ k, 1 ≤ k → (∀ v ∈ values, v ∈ IntRepr.range ⟨sg, k⟩) → w ≤ k

theorem containsRange_foldl {q r : ClosedRange} :
    q.containsRange (values.foldl (fun r v => r.hull (.single v)) r) = true ↔
      q.containsRange r = true ∧ ∀ v ∈ values, v ∈ q := by
  induction values generalizing r with
  | nil => simp
  | cons v vs ih =>
    rw [List.foldl_cons, ih, ClosedRange.containsRange_hull_iff,
      ClosedRange.containsRange_single_iff, List.forall_mem_cons, and_assoc]

/-- A range holds that of some values if it holds them all. That of no values is zero's. -/
theorem containsRange_rangeOf {q : ClosedRange} (hq : values = [] → 0 ∈ q) :
    q.containsRange (rangeOf values) = true ↔ ∀ v ∈ values, v ∈ q := by
  cases values with
  | nil => simpa [rangeOf, ClosedRange.containsRange_single_iff] using hq
  | cons v vs =>
    rw [rangeOf, containsRange_foldl, ClosedRange.containsRange_single_iff, List.forall_mem_cons]

theorem mem_rangeOf {v : Int} (hv : v ∈ values) : v ∈ rangeOf values := by
  have hself : (rangeOf values).containsRange (rangeOf values) = true :=
    ClosedRange.containsRange_iff.2 ⟨le_rfl, le_rfl⟩
  rw [containsRange_rangeOf fun hnil => absurd hv (by simp [hnil])] at hself
  exact hself v hv

theorem narrowest_rangeOf_iff {w : Nat} :
    IntRepr.Narrowest sg (rangeOf values) w ↔ NarrowestFor sg values w := by
  have holds_iff (k : Nat) : (IntRepr.range ⟨sg, k⟩).containsRange (rangeOf values) = true ↔
      ∀ v ∈ values, v ∈ IntRepr.range ⟨sg, k⟩ :=
    containsRange_rangeOf fun _ => IntRepr.zero_mem_range
  constructor
  · rintro ⟨hpos, hholds, hleast⟩
    exact ⟨hpos, (holds_iff w).1 hholds, fun k hk h => hleast k hk ((holds_iff k).2 h)⟩
  · rintro ⟨hpos, hholds, hleast⟩
    exact ⟨hpos, (holds_iff w).2 hholds, fun k hk h => hleast k hk ((holds_iff k).1 h)⟩

theorem rangeOf_lo_neg_iff : (rangeOf values).lo < 0 ↔ ∃ v ∈ values, v < 0 := by
  have hle := (rangeOf values).lo_le_hi
  constructor
  · intro hlo
    by_contra hnone
    have hnonneg (v : Int) (hv : v ∈ values) : 0 ≤ v := not_lt.1 fun h => hnone ⟨v, hv, h⟩
    -- then all values lie between zero and the largest one
    have hholds : (ClosedRange.mk 0 (max 0 (rangeOf values).hi) (by omega)).containsRange
        (rangeOf values) = true := by
      rw [containsRange_rangeOf fun _ => ⟨le_rfl, le_max_left _ _⟩]
      intro v hv
      exact ⟨hnonneg v hv, le_max_of_le_right (mem_rangeOf hv).2⟩
    exact hlo.not_ge (ClosedRange.containsRange_iff.1 hholds).1
  · rintro ⟨v, hv, hneg⟩
    exact (mem_rangeOf hv).1.trans_lt hneg

theorem ofValues_of_none (h : IntRepr.widthFor? sg (rangeOf values) = none) :
    ofValues values sg width =
      .error (.notUnsigned ("table with values in " ++ (rangeOf values).text)) := by
  simp only [ofValues, h]

theorem ofValues_of_some {n : Nat} (h : IntRepr.widthFor? sg (rangeOf values) = some n) :
    ofValues values sg width = if width.getD n < n then .error (.tableWidth (width.getD n) n)
      else .ok ⟨values, sg, width.getD n⟩ := by
  simp only [ofValues, h]

theorem NarrowestFor.unique {n k : Nat} (hn : NarrowestFor sg values n)
    (hk : NarrowestFor sg values k) : n = k :=
  le_antisymm (hn.least k hk.pos hk.holds) (hk.least n hn.pos hn.holds)

/-- A table that was accepted is as wide as it was told to be, or as it has to be. -/
theorem ofValues_ok (h : ofValues values sg width = .ok t) :
    ∃ n, NarrowestFor sg values n ∧ n ≤ t.width ∧ t = ⟨values, sg, width.getD n⟩ := by
  cases hw : IntRepr.widthFor? sg (rangeOf values) with
  | none => simp [ofValues_of_none hw] at h
  | some n =>
    rw [ofValues_of_some hw] at h
    split at h
    · cases h
    · next hlarge =>
      cases h
      exact ⟨n, narrowest_rangeOf_iff.1 (IntRepr.widthFor?_narrowest hw), not_lt.1 hlarge, rfl⟩

theorem ofValues_error_iff {e : ConstructionError} :
    ofValues values sg width = .error e ↔
      (sg = .unsigned ∧ (∃ v ∈ values, v < 0) ∧
        e = .notUnsigned ("table with values in " ++ (rangeOf values).text)) ∨
      ∃ w n, width = some w ∧ NarrowestFor sg values n ∧ w < n ∧ e = .tableWidth w n := by
  cases hw : IntRepr.widthFor? sg (rangeOf values) with
  | none =>
    obtain ⟨rfl, hlo⟩ := IntRepr.widthFor?_eq_none_iff.1 hw
    rw [ofValues_of_none hw]
    constructor
    · rintro ⟨⟩
      exact .inl ⟨rfl, rangeOf_lo_neg_iff.1 hlo, rfl⟩
    · rintro (⟨-, -, rfl⟩ | ⟨w, n, -, hn, -⟩)
      · rfl
      · -- no unsigned word holds a negative value
        obtain ⟨v, hv, hneg⟩ := rangeOf_lo_neg_iff.1 hlo
        exact absurd (hn.holds v hv).1 hneg.not_ge
  | some n =>
    have hn := narrowest_rangeOf_iff.1 (IntRepr.widthFor?_narrowest hw)
    rw [ofValues_of_some hw]
    constructor
    · intro h
      split at h
      · next hlt =>
        cases h
        cases width with
        | none => exact absurd hlt (lt_irrefl n)
        | some w => exact .inr ⟨w, n, rfl, hn, hlt, rfl⟩
      · cases h
    · rintro (⟨rfl, hneg, -⟩ | ⟨w, k, rfl, hk, hlt, rfl⟩)
      · rw [IntRepr.widthFor?_eq_none_iff.2 ⟨rfl, rangeOf_lo_neg_iff.2 hneg⟩] at hw
        cases hw
      · obtain rfl := hk.unique hn
        exact if_pos hlt

/-! ## Files -/

/-- The line is a word of the table, and it stands for the value. -/
structure IsWord (t : IntTable) (line : List Char) (v : Int) : Prop where
  length : line.length = t.width
  binary : ∀ c ∈ line, c = '0' ∨ c = '1'
  value : IntRepr.decode t.signedness line = v

theorem isWord_bits {v : Int} (hw : 0 < t.width) (hv : v ∈ IntRepr.range ⟨t.signedness, t.width⟩) :
    t.IsWord (IntRepr.bits ⟨t.signedness, t.width⟩ v).toList v where
  length := IntRepr.length_bits hw v
  binary _ hc := IntRepr.mem_bits hc
  value := (IntRepr.decode_bits hw v).trans (IntRepr.wrap_eq_self (fun _ => hw) hv)

theorem contents_toList :
    (Table.contents (.int t : Table R)).toList =
      (t.values.map fun v => (IntRepr.bits ⟨t.signedness, t.width⟩ v).toList).flatMap
        (· ++ ['\n']) := by
  simp [Table.contents, Table.words, String.toList_join, List.flatMap_map]

/-- A table is refused exactly if it is unsigned and has a negative value, or is told to be narrower
than its values need. The file of one that is accepted has a line for each value, which decodes to
it. -/
theorem files_round_trip (values : List Int) (sg : Signedness) (width : Option Nat) :
    (∀ t, ofValues values sg width = .ok t →
      t.values = values ∧ t.signedness = sg ∧ (∀ w, width = some w → t.width = w) ∧
      (width = none → NarrowestFor sg values t.width) ∧
      ∃ lines : List (List Char),
        (Table.contents (.int t : Table R)).toList = lines.flatMap (· ++ ['\n']) ∧
        List.Forall₂ t.IsWord lines values) ∧
    ∀ e, ofValues values sg width = .error e ↔
      (sg = .unsigned ∧ (∃ v ∈ values, v < 0) ∧
        e = .notUnsigned ("table with values in " ++ (rangeOf values).text)) ∨
      ∃ w n, width = some w ∧ NarrowestFor sg values n ∧ w < n ∧ e = .tableWidth w n := by
  refine ⟨fun t h => ?_, fun e => ofValues_error_iff⟩
  obtain ⟨n, hn, hle, rfl⟩ := ofValues_ok h
  have hholds (v : Int) (hv : v ∈ values) : v ∈ IntRepr.range ⟨sg, width.getD n⟩ :=
    ClosedRange.mem_of_containsRange (IntRepr.range_mono hle) (hn.holds v hv)
  refine ⟨rfl, rfl, by rintro w rfl; rfl, by rintro rfl; exact hn, _, contents_toList, ?_⟩
  rw [List.forall₂_map_left_iff, List.forall₂_same]
  exact fun v hv => isWord_bits (hn.pos.trans hle) (hholds v hv)

/-- The most negative and the largest word of four bits decode to themselves, and they are refused
in three. -/
theorem files_round_trip_extremes :
    ofValues [-8, 7] .signed none = .ok ⟨[-8, 7], .signed, 4⟩ ∧
    (Table.contents (.int ⟨[-8, 7], .signed, 4⟩ : Table Float)).toList =
      "1000\n0111\n".toList ∧
    (∃ lines, "1000\n0111\n".toList = lines.flatMap (· ++ ['\n']) ∧
      List.Forall₂ (IsWord ⟨[-8, 7], .signed, 4⟩) lines [-8, 7]) ∧
    ofValues [-8, 7] .signed (some 3) = .error (.tableWidth 3 4) := by
  have hok : ofValues [-8, 7] .signed none = .ok ⟨[-8, 7], .signed, 4⟩ := rfl
  have hfile : (Table.contents (.int ⟨[-8, 7], .signed, 4⟩ : Table Float)).toList =
      "1000\n0111\n".toList := by decide +kernel
  obtain ⟨-, -, -, hnarrowest, lines, hlines, hwords⟩ :=
    (files_round_trip (R := Float) [-8, 7] .signed none).1 _ hok
  refine ⟨hok, hfile, ⟨lines, hfile ▸ hlines, hwords⟩, ?_⟩
  exact ((files_round_trip (R := Float) [-8, 7] .signed (some 3)).2 _).2
    (.inr ⟨3, 4, rfl, hnarrowest rfl, by decide, rfl⟩)

end IntTable

end MixedSignal
