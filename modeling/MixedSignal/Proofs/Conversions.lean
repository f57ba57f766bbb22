import Mathlib
import MixedSignal.Proofs.Simplification

/-!
# Conversions to integers

Which widths an operand can be converted to depends on its format only (`Build.Convertible`). A
conversion that succeeds makes an integer of the signedness and width that were asked for, in a
format that fits (`Build.Converted`). It keeps the value of an integer operand, except that an
operand that can be negative is read as an unsigned word. A conversion that fails does so with an
error that the caller can expect, unless a real is rounded into a word without bits or has a
negative bound (`Build.LacksFormat`).
-/

namespace MixedSignal

variable {R : Type} [Scalar R] {e : ConstructionError} {a : Operand R}

namespace IntFormat

/-- What an integer of the format is in a word of the given signedness and width: a word that cannot
be negative keeps the low bits of integers that can. -/
def converted (f : IntFormat) (target : Signedness) (width : Nat) (k : Int) : Int :=
  if target = .unsigned ∧ f.range.lo < 0 then k % 2 ^ width else k

variable {f g : IntFormat} {sg : Signedness} {r : ClosedRange} {k : Int}

/-- A format that fits and has the range of the operand keeps its values. -/
theorem Fits.wrap_eq_converted (hg : g.Fits) (hr : g.range = f.range) (hk : k ∈ f.range) :
    g.repr.wrap k = f.converted g.signedness g.width k := by
  rw [converted, if_neg]
  · exact hg.wrap_eq_self (hr ▸ hk)
  · rintro ⟨hsg, hlo⟩
    have := hg.lo_nonneg hsg
    rw [hr] at this
    omega

theorem tightOrFull_pos (h : sg = .unsigned → 0 ≤ r.lo) : 0 < (tightOrFull sg r).width := by
  obtain ⟨w, hw, heq⟩ := exists_tightOrFull_eq h
  rw [heq]
  exact IntRepr.widthFor?_pos hw

end IntFormat

/-- The operand has this value. -/
def Operand.Evaluates (s : Store R) (values : SignalId → Value R) : Operand R → Value R → Prop
  | .node i, v => s.eval values i = .ok v
  | .signal x, v => s.eval values (s.leaf x) = .ok v
  | .value w, v => w = v

namespace Build

open Store

variable {s s' : Store R} {target : Signedness} {width : Option Nat} {i j : NodeId}
  {f g : IntFormat} {values : SignalId → Value R} {k : Int}

/-! ## Widths -/

/-- The widths that an operand of this format can be converted to. Without a width, the format says
how wide the result is, unless the operand is real and has no constant bound, or can be negative and
the result cannot. -/
def Convertible (target : Signedness) : Format R → Option Nat → Prop
  | .int f, none => target = .signed ∨ 0 ≤ f.range.lo
  | .int f, some w => 0 < w ∧
    match f.signedness, target with
    | .unsigned, .signed => f.width < w
    | .signed, .unsigned => f.range.hi < 2 ^ w
    | _, _ => IntFormat.Fits ⟨target, w, f.range⟩
  | .real r, none => ∃ b, r.bound.const? = some b ∧ 0 ≤ Scalar.ceil b ∧
    (target = .unsigned → Scalar.ceil b = 0)
  | .real _, some w => 0 < w

/-- A rounded real would have no format: a signed word without bits, or a negative bound. -/
def LacksFormat (target : Signedness) : Format R → Option Nat → Prop
  | .int _, _ => False
  | .real r, none => ∃ b, r.bound.const? = some b ∧ Scalar.ceil b < 0
  | .real _, some w => target = .signed ∧ w = 0

/-- The error of a conversion that is not possible. -/
def Refused (target : Signedness) (format : Format R) (width : Option Nat)
    (e : ConstructionError) : Prop :=
  ¬Convertible target format width ∧ (e = .emptyFormat ↔ LacksFormat target format width)

/-- The second node is the first one, of the given format, as an integer of the signedness and width
that were asked for. -/
structure Converted (s : Store R) (target : Signedness) (format : Format R) (width : Option Nat)
    (i j : NodeId) (g : IntFormat) : Prop where
  lt : j < s.nodes.size
  format_eq : s.format j = .int g
  signedness : g.signedness = target
  pos : 0 < g.width
  width_eq : ∀ w, width = some w → g.width = w
  fits : g.Fits
  eval : ∀ f, format = .int f → ∀ values k, s.eval values i = .ok (.int k) → k ∈ f.range →
    s.eval values j = .ok (.int (f.converted target g.width k))

/-- A node that has the format already is not converted. -/
theorem Converted.refl (hi : i < s.nodes.size) (hf : s.format i = .int f) (hfit : f.Fits)
    (hpos : 0 < f.width) (hwidth : ∀ w, width = some w → f.width = w) :
    Converted s f.signedness (.int f) width i i f where
  lt := hi
  format_eq := hf
  signedness := rfl
  pos := hpos
  width_eq := hwidth
  fits := hfit
  eval f' hf' values k hk hmem := by
    cases hf'
    rw [hk, ← hfit.wrap_eq_converted rfl hmem, hfit.wrap_eq_self hmem]

/-- The format of a rounded real has the width that was asked for, or else the range of its bound. -/
inductive RoundsTo (r : RealFormat R) : Option Nat → IntFormat → Prop
  | width {w} (hw : 0 < w) : RoundsTo r (some w) (.full .signed w)
  | bound {b range} (hb : r.bound.const? = some b)
    (hrange : ClosedRange.ofBounds? (-Scalar.ceil b) (Scalar.ceil b) = some range) :
    RoundsTo r none (.tightOrFull .signed range)

theorem RoundsTo.any {r : RealFormat R} (h : RoundsTo r width g) : Rounding.any r g := by
  cases h with
  | width hw => exact .inl ⟨_, hw, rfl⟩
  | bound hb hrange => exact .inr ⟨_, _, hb, hrange, rfl⟩

theorem lo_of_ofBounds?_eq_some {c : Int} {range : ClosedRange}
    (h : ClosedRange.ofBounds? (-c) c = some range) : 0 ≤ c ∧ range.lo = -c := by
  obtain ⟨hle, heq⟩ := Option.dite_none_right_eq_some.1 h
  cases heq
  exact ⟨by omega, rfl⟩

namespace RoundsTo

variable {r : RealFormat R}

theorem signedness (h : RoundsTo r width g) : g.signedness = .signed := by
  cases h with
  | width => rfl
  | bound => exact IntFormat.tightOrFull_signedness

theorem pos (h : RoundsTo r width g) : 0 < g.width := by
  cases h with
  | width hw => exact hw
  | bound => exact IntFormat.tightOrFull_pos (by simp)

theorem width_eq (h : RoundsTo r width g) : ∀ w, width = some w → g.width = w := by
  cases h with
  | width =>
    rintro w ⟨⟩
    rfl
  | bound => simp

theorem ceil_nonneg (h : RoundsTo r none g) :
    ∃ b, r.bound.const? = some b ∧ 0 ≤ Scalar.ceil b ∧ g.range.lo = -Scalar.ceil b := by
  cases h with
  | @bound b range hb hrange =>
    rw [IntFormat.tightOrFull_range (by simp)]
    exact ⟨b, hb, lo_of_ofBounds?_eq_some hrange⟩

variable (h : RoundsTo r (width.map (· + 1)) g)
include h

/-- A real becomes an unsigned integer if the signed one of a bit more does. -/
theorem convertible_iff :
    Convertible .unsigned (.int g : Format R) width ↔ Convertible .unsigned (.real r) width := by
  cases width with
  | none =>
    obtain ⟨b, hb, hnonneg, hlo⟩ := h.ceil_nonneg
    simp only [Convertible, hlo, hb]
    constructor
    · rintro (hsg | hle)
      · cases hsg
      · exact ⟨b, rfl, hnonneg, fun _ => by omega⟩
    · rintro ⟨b', hb', -, hzero⟩
      cases hb'
      exact .inr (by simp [hzero])
  | some w =>
    cases h with
    | width => simp [Convertible, IntFormat.full, IntRepr.range]

theorem not_lacksFormat : ¬LacksFormat .unsigned (.real r) width := by
  cases width with
  | none =>
    obtain ⟨b, hb, hnonneg, -⟩ := h.ceil_nonneg
    simp [LacksFormat, hb, hnonneg]
  | some w => simp [LacksFormat]

theorem refused (he : Refused .unsigned (.int g : Format R) width e) :
    Refused .unsigned (.real r) width e :=
  ⟨mt h.convertible_iff.2 he.1, iff_of_false (mt he.2.1 not_false) h.not_lacksFormat⟩

end RoundsTo

section

variable (hs : s.WellTyped Rounding.any) (hi : i < s.nodes.size) (hf : s.format i = .int f)
include hs hi hf

end

/-- The format of a value carries it. -/
theorem carries_format (v : Value R) : v.format.Carries v := by
  cases v with
  | real x => trivial
  | int k =>
    have hnonneg : (if k < 0 then Signedness.signed else .unsigned) = .unsigned → 0 ≤ k := by
      split
      · simp
      · omega
    refine (IntFormat.tightOrFull_fits hnonneg).carries ?_
    rw [IntFormat.tightOrFull_range hnonneg]
    exact ClosedRange.mem_single.2 rfl

/-- An operand that has a value gives it to its node. -/
theorem eval_of_stands (hs : s.WellTyped Rounding.any) (hg : s.Grown Rounding.any s')
    (ha : a.Valid s) {v : Value R} (hv : a.Evaluates s values v) (hi : i < s'.nodes.size)
    (hstands : a.Stands s' i) : s'.eval values i = .ok v := by
  cases a with
  | node j =>
    obtain rfl : i = j := hstands
    exact (hs.eval_extends hg.toExtends ha values).trans hv
  | signal x =>
    obtain rfl : i = s'.leaf x := hstands
    rw [hg.toExtends.leaf_eq x ha, hs.eval_extends hg.toExtends (hs.leaf_lt x ha)]
    exact hv
  | value w =>
    obtain rfl : w = v := hv
    have hnode : s'.node i = ⟨.const w, w.format⟩ := hstands
    rw [(hg.wellTyped hs).eval_eq hi, format, hnode]
    exact congrArg Except.ok (carries_format w).coerce_eq

end Build

end MixedSignal
