import Mathlib
import MixedSignal.Proofs.BoundValue
import MixedSignal.Proofs.Overflow

/-!
# Magnitudes

The format of a real expression bounds its magnitude. If all signals have values that their formats
cover (`Format.Covers`), then every expression has such a value (`Store.WellTyped.eval_covered`).
Operators and selections combine the bounds of their operands as they combine magnitudes
(`RealFormat.abs_onScalar_le`, `Format.fold?_union_covers`), and an integer that becomes a real is in
its range.
-/

set_option linter.unusedSectionVars false

namespace MixedSignal

variable {R : Type} [ExactScalar R] [LinearOrder R] [OrderedScalar R] {params : String → R}
  (hparams : ∀ name, 0 ≤ params name) {v : Value R}

/-! ## Formats -/

namespace RealFormat

variable {a b : RealFormat R}

theorem arithmetic_nonneg (op : ArithOp) (ha : a.bound.Nonneg) (hb : b.bound.Nonneg) :
    (arithmetic op a b).bound.Nonneg := by
  have hpair : ∀ c ∈ [a.bound, b.bound], c.Nonneg := by simp [ha, hb]
  cases op with
  | sum => exact .combine .sum hpair
  | product => exact .combine .product hpair
  | min | max => exact .combine .max hpair

include hparams

/-- An operator takes magnitudes within two bounds to one within the bound of the result. -/
theorem abs_onScalar_le (op : ArithOp) (ha : a.bound.Nonneg) (hb : b.bound.Nonneg) {x y : R}
    (hx : |x| ≤ a.bound.value params) (hy : |y| ≤ b.bound.value params) :
    |op.onScalar x y| ≤ (arithmetic op a b).bound.value params := by
  have hpair := fun op => Bound.value_pair hparams op ha hb
  cases op with
  | sum =>
    calc |x + y| ≤ |x| + |y| := abs_add_le x y
      _ ≤ a.bound.value params + b.bound.value params := add_le_add hx hy
      _ = _ := (hpair .sum).symm
  | product =>
    calc |x * y| = |x| * |y| := abs_mul x y
      _ ≤ a.bound.value params * b.bound.value params :=
        mul_le_mul hx hy (abs_nonneg y) (ha.value_nonneg hparams)
      _ = _ := (hpair .product).symm
  | min =>
    calc |Scalar.min x y| ≤ max |x| |y| := by
          rw [OrderedScalar.min_eq]
          exact abs_min_le_max_abs_abs
      _ ≤ max (a.bound.value params) (b.bound.value params) := max_le_max hx hy
      _ = _ := ((hpair .max).trans (OrderedScalar.max_eq _ _)).symm
  | max =>
    calc |Scalar.max x y| ≤ max |x| |y| := by
          rw [OrderedScalar.max_eq]
          exact abs_max_le_max_abs_abs
      _ ≤ max (a.bound.value params) (b.bound.value params) := max_le_max hx hy
      _ = _ := ((hpair .max).trans (OrderedScalar.max_eq _ _)).symm

end RealFormat

/-- The format covers the value: a real is within the bound, an integer is in the range and a word of
the format. If the range fits the width, an integer in the range is such a word. -/
def Format.Covers (params : String → R) : Format R → Value R → Prop
  | .real f, .real x => |x| ≤ f.bound.value params
  | .int f, .int k => f.Carries k
  | _, _ => False

/-- All real formats among these have bounds without negative magnitudes. -/
def Format.AllNonneg (fs : List (Format R)) : Prop := ∀ f ∈ fs, ∀ g, f = .real g → g.bound.Nonneg

namespace Format

theorem covers_real_iff {f : RealFormat R} :
    (Format.real f).Covers params v ↔ ∃ x, v = .real x ∧ |x| ≤ f.bound.value params := by
  cases v with
  | real x => simp [Covers]
  | int k => simp [Covers]

theorem covers_int_iff {f : IntFormat} :
    (Format.int f).Covers params v ↔ ∃ k, v = .int k ∧ f.Carries k := by
  cases v with
  | real x => simp [Covers]
  | int k => simp [Covers]

theorem Covers.carries {f : Format R} (h : f.Covers params v) : f.Carries v := by
  cases f with
  | real f =>
    obtain ⟨x, rfl, -⟩ := covers_real_iff.1 h
    trivial
  | int f => exact carries_int_iff.2 (covers_int_iff.1 h)

theorem exists_real_of_domain {f : Format R} (h : f.domain = .real) : ∃ g, f = .real g := by
  cases f with
  | real g => exact ⟨g, rfl⟩
  | int g => exact absurd h (int_domain_ne_real g)

include hparams

/-- The format inferred for an operator on reals bounds the magnitude of its results. -/
theorem fold?_arithmetic_covers {op : ArithOp} {fs : List (Format R)} {g : RealFormat R}
    (hfs : AllNonneg fs) (h : fold? (arithmetic? op) fs = some (.real g)) :
    g.bound.Nonneg ∧ ∀ vs : List (Value R), List.Forall₂ (Covers params) fs vs →
      |op.evalScalar (vs.map Value.toScalar)| ≤ g.bound.value params := by
  have hgood : ∀ a b c : Format R, arithmetic? op a b = some c →
      (∀ g, a = .real g → g.bound.Nonneg) → (∀ g, b = .real g → g.bound.Nonneg) →
      ∀ g, c = .real g → g.bound.Nonneg := by
    intro a b c hc ha hb
    cases arithmetic?_eq_some.1 hc with
    | int => nofun
    | real =>
      rintro _ ⟨⟩
      exact RealFormat.arithmetic_nonneg op (ha _ rfl) (hb _ rfl)
  refine ⟨(fold?_spec (P := fun _ => False) (fun a b c hc ha hb => ⟨hgood a b c hc ha hb, by simp⟩)
    h hfs).1 g rfl, fun vs hvs => ?_⟩
  cases hvs with
  | nil => cases h
  | @cons f v fs vs hv hvs =>
    obtain ⟨a, rfl⟩ :=
      exists_real_of_domain (fold?_domain_eq (arithmetic?_keepsDomain op) h f (by simp))
    obtain ⟨x, rfl, hx⟩ := covers_real_iff.1 hv
    obtain ⟨ha, hfs⟩ := List.forall_mem_cons.1 hfs
    rw [List.map_cons, op.intExtension.all_cons, List.foldl_map]
    refine (foldlM_rel (P := fun c x => (∀ g, c = .real g → g.bound.Nonneg) ∧
      c.Covers params (.real x)) (fun a b c hc x v hx hv => ⟨hgood a b c hc hx.1 hv.1, ?_⟩)
      ((List.forall₂_and_left _ _).2 ⟨hfs, hvs⟩) h ⟨ha, hx⟩).2
    cases arithmetic?_eq_some.1 hc with
    | int => exact hx.2.elim
    | real =>
      obtain ⟨y, rfl, hy⟩ := covers_real_iff.1 hv.2
      exact RealFormat.abs_onScalar_le hparams op (hx.1 _ rfl) (hv.1 _ rfl) hx.2 hy

/-- The format inferred for a choice between reals has a bound that none of theirs exceeds. -/
theorem fold?_union_covers {fs : List (Format R)} {g : RealFormat R} (hfs : AllNonneg fs)
    (h : fold? union? fs = some (.real g)) :
    g.bound.Nonneg ∧ ∀ f ∈ fs, ∀ v : Value R, f.Covers params v → (Format.real g).Covers params v := by
  have hspec (v : Value R) := fold?_spec (G := fun f => ∀ g, f = .real g → g.bound.Nonneg)
    (P := fun f => f.domain = .real ∧ f.Covers params v) (fun a b c hc ha hb => ?_) h hfs
  · refine ⟨(hspec (.int 0)).1 g rfl, fun f hf v hv => ((hspec v).2 ⟨f, hf, ?_, hv⟩).2⟩
    exact fold?_domain_eq union?_keepsDomain h f hf
  cases union?_eq_some.1 hc with
  | int =>
    refine ⟨nofun, fun hone => ?_⟩
    rcases hone with ⟨hd, -⟩ | ⟨hd, -⟩ <;> exact absurd hd (int_domain_ne_real _)
  | real a b =>
    have hpair : ∀ c ∈ [a.bound, b.bound], c.Nonneg := by simp [ha a rfl, hb b rfl]
    have hmax := (Bound.value_pair hparams .max (ha a rfl) (hb b rfl)).trans (OrderedScalar.max_eq _ _)
    refine ⟨?_, fun hone => ⟨rfl, ?_⟩⟩
    · rintro _ ⟨⟩
      exact .combine .max hpair
    · rcases hone with ⟨-, hv⟩ | ⟨-, hv⟩
      all_goals obtain ⟨x, rfl, hx⟩ := covers_real_iff.1 hv
      · exact hx.trans (hmax ▸ le_max_left _ _)
      · exact hx.trans (hmax ▸ le_max_right _ _)

end Format

/-! ## Expressions -/

namespace Store

variable {rounding : Rounding R} {s : Store R} {values : SignalId → Value R}
  {operand : NodeId → Except EmitError (Value R)}

/-- The operand has a value that its format covers, and a bound without negative magnitudes. -/
structure Covered (s : Store R) (params : String → R)
    (operand : NodeId → Except EmitError (Value R)) (j : NodeId) : Prop where
  nonneg : ∀ f, s.format j = .real f → f.bound.Nonneg
  value : ∃ v, operand j = .ok v ∧ (s.format j).Covers params v

theorem Covered.delivers {j : NodeId} (h : s.Covered params operand j) : s.Delivers operand j := by
  obtain ⟨v, hv, hcovers⟩ := h.value
  exact ⟨v, hv, hcovers.carries⟩

theorem allNonneg_of_covered {xs : List NodeId} (h : ∀ x ∈ xs, s.Covered params operand x) :
    Format.AllNonneg (xs.map s.format) := by
  intro f hf
  obtain ⟨x, hx, rfl⟩ := List.mem_map.1 hf
  exact (h x hx).nonneg

/-- The magnitude of an integer in a range is at most that of the larger end. -/
theorem abs_cast_le {r : ClosedRange} {k : Int} (hk : k ∈ r) :
    |(k : R)| ≤ (Bound.ofValue (Scalar.ofInt (max (r.lo.natAbs : Int) r.hi.natAbs) : R)).value
      params := by
  have hint : |k| ≤ |max (r.lo.natAbs : Int) r.hi.natAbs| := by
    rw [ClosedRange.mem_def] at hk
    simp only [Int.abs_eq_natAbs]
    omega
  rw [Bound.ofValue, Bound.value, OrderedScalar.abs_eq, ExactScalar.ofInt_eq]
  exact_mod_cast hint

section

include hparams

/-- The bound of a real node is at least the magnitude of what it computes, if that is so for its
operands and for signals. -/
theorem Typed.covered {k : NodeKind R} {f : RealFormat R} (ht : s.Typed rounding k (.real f))
    (hvalue : s.HasValue k) (hop : ∀ j ∈ s.operands k, s.Covered params operand j)
    (hsignal : ∀ x, k = .signal x → (s.signal x).format.Covers params (values x) ∧
      ∀ g, (s.signal x).format = .real g → g.bound.Nonneg) :
    f.bound.Nonneg ∧ ∃ x, s.evalKind values operand ⟨k, .real f⟩ = .ok (.real x) ∧
      |x| ≤ f.bound.value params := by
  generalize hf : Format.real f = format at ht
  cases ht with
  | @signal x hx =>
    obtain ⟨hcovers, hnonneg⟩ := hsignal x rfl
    rw [← hf] at hcovers
    obtain ⟨y, hy, hle⟩ := Format.covers_real_iff.1 hcovers
    refine ⟨hnonneg f hf.symm, y, ?_, hle⟩
    have haux : (s.signal x).role.isAuxiliary = false := hvalue
    simp only [evalKind, haux, hy]
    rfl
  | @real x =>
    cases hf
    refine ⟨.ofValue x, x, rfl, ?_⟩
    rw [Bound.ofValue, Bound.value, OrderedScalar.abs_eq]
  | @arith op xs _ _ hfold =>
    subst hf
    have hxs : ∀ x ∈ xs, s.Covered params operand x := hop
    obtain ⟨vs, hvs, hcovers⟩ := mapM_forall₂ fun x hx => (hxs x hx).value
    obtain ⟨hnonneg, hle⟩ :=
      Format.fold?_arithmetic_covers hparams (allNonneg_of_covered hxs) hfold
    exact ⟨hnonneg, _, evalKind_arith_real hvs, hle vs hcovers⟩
  | @sintToReal a g ha _ =>
    cases hf
    obtain ⟨k, hk, hcarried⟩ := (hop a (by simp [operands])).delivers.int ha
    refine ⟨.ofValue _, (k : R), ?_, abs_cast_le hcarried.1⟩
    rw [← Value.toScalar_int]
    simp only [evalKind, hk]
    rfl
  | @select xs a w _ ha _ hlength _ hfold =>
    subst hf
    obtain ⟨n, hn, hlt⟩ := (hop a (by simp [operands])).delivers.unsigned ha
    obtain ⟨e, hget⟩ : ∃ e, xs[n]? = some e :=
      ⟨_, List.getElem?_eq_getElem (hlt.trans_eq hlength.symm)⟩
    have hmem : e ∈ xs := List.mem_of_getElem? hget
    obtain ⟨v, hv, hcovers⟩ := (hop e (by simp [operands, hmem])).value
    have hxs : ∀ x ∈ xs, s.Covered params operand x := fun x hx => hop x (by simp [operands, hx])
    obtain ⟨hnonneg, hcovered⟩ :=
      Format.fold?_union_covers hparams (allNonneg_of_covered hxs) hfold
    obtain ⟨x, rfl, hle⟩ :=
      Format.covers_real_iff.1 (hcovered _ (List.mem_map_of_mem hmem) v hcovers)
    exact ⟨hnonneg, x, (evalKind_select hn hget).trans hv, hle⟩
  | cases => exact hvalue.elim
  | deriv => exact hvalue.elim
  | _ => exact absurd hf (by simp [Format.bit, Format.uint])

/-- An expression has a value, and its format covers it. The induction is on the number of the node,
which is above those of its operands. -/
theorem WellTyped.eval_covered (h : s.WellTyped Rounding.explicit)
    (hbounds : ∀ x < s.signals.size, ∀ f, (s.signal x).format = .real f → f.bound.Nonneg)
    (hvalues : ∀ x < s.signals.size, (s.signal x).format.Covers params (values x)) :
    ∀ i < s.nodes.size, (∀ j ∈ s.occurrences i, s.HasValue (s.kind j)) →
      s.Covered params (s.eval values) i := by
  intro i
  induction i using Nat.strong_induction_on with
  | _ i ih =>
    intro hi hvalue
    have hself := hvalue i (s.mem_occurrences_self i)
    have hop : ∀ j ∈ s.children i, s.Covered params (s.eval values) j := by
      intro j hj
      have hlt := h.below i hi j hj
      exact ih j hlt (hlt.trans hi) fun k hk => hvalue k (occurrences_subset hj hlt hk)
    have ht := h.typed i hi
    cases hf : s.format i with
    | real f =>
      rw [hf] at ht
      obtain ⟨hnonneg, x, hx, hle⟩ := ht.covered hparams hself hop fun y hy =>
        ⟨hvalues y (h.signal_lt hi hy), hbounds y (h.signal_lt hi hy)⟩
      have hnode : s.node i = ⟨s.kind i, .real f⟩ := by rw [← hf]; rfl
      refine ⟨fun g hg => ?_, .real x, ?_, ?_⟩
      · rw [hf] at hg
        cases hg
        exact hnonneg
      · rw [h.eval_eq hi values, hnode, hx, hf]
        rfl
      · rw [hf]
        exact hle
    | int f =>
      obtain ⟨v, hv, hcarried, -⟩ := ht.yields hself (fun j hj => (hop j hj).delivers)
        (fun y hy => (hvalues y (h.signal_lt hi hy)).carries)
        fun a g hk hg x _ => h.round_carries hi hk hg _
      have heval : s.eval values i = .ok (v.coerce (s.format i)) := by
        rw [h.eval_eq hi values]
        exact congrArg (Except.map _) hv
      have hcovers : (s.format i).Covers params (v.coerce (s.format i)) := by
        simp only [hf] at hcarried ⊢
        exact Format.covers_int_iff.2 (Format.carries_int_iff.1 hcarried)
      refine ⟨fun g hg => ?_, _, heval, hcovers⟩
      rw [hf] at hg
      cases hg

end

/-- The bound of a real expression is at least the magnitude of its value, whatever the parameters
are, if all signals have values that their formats cover. The bounds are exact sums, products and
maxima of those they are made of. -/
theorem Built.magnitude_le_bound (params : String → R) (hparams : ∀ name, 0 ≤ params name) :
    (∀ terms : List (Bound R), (∀ b ∈ terms, b.Made) →
      (Bound.add terms).value params = (terms.map (Bound.value params)).sum ∧
      (Bound.mul terms).value params = (terms.map (Bound.value params)).prod ∧
      (Bound.largest terms).value params = (terms.map (Bound.value params)).foldr max 0) ∧
    ∀ (s : Store R) (values : SignalId → Value R), (s.Built fun s c => c.Explicit s) →
      (∀ x < s.signals.size, ∀ f, (s.signal x).format = .real f → f.bound.Made) →
      (∀ x < s.signals.size, (s.signal x).format.Covers params (values x)) →
      ∀ i < s.nodes.size, (∀ j ∈ s.occurrences i, s.HasValue (s.kind j)) →
        ∀ f, s.format i = .real f →
          ∃ x, s.eval values i = .ok (.real x) ∧ |x| ≤ f.bound.value params := by
  constructor
  · intro terms hmade
    have hnonneg : ∀ b ∈ terms, b.Nonneg := fun b hb => (hmade b hb).nonneg
    exact ⟨(Bound.combine_spec hparams .sum hnonneg).2,
      (Bound.combine_spec hparams .product hnonneg).2, (Bound.combine_spec hparams .max hnonneg).2⟩
  · intro s values hb hmade hvalues i hi hvalue f hf
    have hs : s.WellTyped Rounding.explicit := hb.wellTyped fun _ _ h => h.rounds
    obtain ⟨-, v, hv, hcovers⟩ := hs.eval_covered hparams
      (fun x hx f hf => (hmade x hx f hf).nonneg) hvalues i hi hvalue
    rw [hf] at hcovers
    obtain ⟨x, rfl, hle⟩ := Format.covers_real_iff.1 hcovers
    exact ⟨x, hv, hle⟩

/-- A store with a real input `u` of a bound that its module fixes, a signed input `n`, a bit `sel`,
and a choice between `max ((u - 2) * n) u` and 5. -/
@[irreducible]
def gainStore : Store ℚ :=
  Store.runAll {} [
    .signal "u" (.real (.param "u")) .input none,
    .signal "n" (.sint 3) .input none,
    .signal "sel" .bit .input none,
    .arithmetic .sum [.signal 0, .value (.real (-2))],
    .arithmetic .product [.node 5, .signal 1],
    .arithmetic .max [.node 7, .signal 0],
    .array [.node 8, .value (.real 5)] (.signal 2)]

/-- Values at which the bound of the choice is reached, if that of `u` is 3. -/
def gainValues (x : SignalId) : Value ℚ := [.real (-3), .int (-4)].getD x (.int 0)

theorem gainStore_computed :
    (gainStore.Built fun s c => c.Explicit s) ∧ gainStore.signals.size = 3 ∧
    (gainStore.signal 0).format = .real (.param "u") ∧ (gainStore.signal 1).format = .sint 3 ∧
    (gainStore.signal 2).format = .bit ∧
    gainStore.format 10 = .real ⟨.max [.product [.sum [.param "u", .const 2], .const 4],
      .param "u", .const 5], none, none⟩ ∧
    10 < gainStore.nodes.size ∧
    (∀ j ∈ gainStore.occurrences 10, gainStore.HasValue (gainStore.kind j)) ∧
    (gainStore.eval gainValues 10).toOption.map Value.toScalar = some 20 := by
  refine ⟨?_, ?_, Format.beq_sound ?_, Format.beq_sound ?_, Format.beq_sound ?_,
    Format.beq_sound ?_, ?_⟩
  · unfold gainStore
    refine Built.empty.runAll ⟨?_, trivial, ?_, trivial, ?_, trivial, ?_, trivial, ?_, trivial,
      ?_, trivial, ?_, trivial, trivial⟩
    all_goals decide +kernel
  all_goals decide +kernel

theorem gainStore_signal {x : SignalId} (hx : x < gainStore.signals.size) :
    (x = 0 ∧ (gainStore.signal x).format = .real (.param "u")) ∨
      ∃ f, (gainStore.signal x).format = .int f ∧ ∃ k, gainValues x = .int k ∧ f.Carries k := by
  obtain ⟨-, hsize, hu, hn, hsel, -⟩ := gainStore_computed
  rw [hsize] at hx
  interval_cases x
  · exact .inl ⟨rfl, hu⟩
  · exact .inr ⟨_, hn, -4, rfl, by decide⟩
  · exact .inr ⟨_, hsel, 0, rfl, by decide⟩

/-- With `u` at -3 and `n` at -4 the value is 20, and so is the bound. -/
theorem magnitude_le_bound_gain :
    (gainStore.Built fun s c => c.Explicit s) ∧
    (∀ x < gainStore.signals.size,
      (gainStore.signal x).format.Covers (fun _ => 3) (gainValues x)) ∧
    ∃ x, gainStore.eval gainValues 10 = .ok (.real x) ∧ x = 20 ∧ |x| ≤ 20 := by
  have hmade : ∀ x < gainStore.signals.size, ∀ f, (gainStore.signal x).format = .real f →
      f.bound.Made := by
    intro x hx f hf
    rcases gainStore_signal hx with ⟨-, h⟩ | ⟨g, h, -⟩
    · rw [h] at hf
      cases hf
      exact .param "u"
    · rw [h] at hf
      cases hf
  have hcovers : ∀ x < gainStore.signals.size,
      (gainStore.signal x).format.Covers (fun _ => 3) (gainValues x) := by
    intro x hx
    rcases gainStore_signal hx with ⟨rfl, h⟩ | ⟨g, h, hk⟩
    · rw [h]
      exact Format.covers_real_iff.2 ⟨-3, rfl, by norm_num [RealFormat.param, Bound.value]⟩
    · rw [h]
      exact Format.covers_int_iff.2 hk
  obtain ⟨hb, -, -, -, -, hformat, hi, hhas, hvalue⟩ := gainStore_computed
  obtain ⟨x, hx, hle⟩ := (Built.magnitude_le_bound (fun _ => (3 : ℚ)) (by norm_num)).2
    gainStore gainValues hb hmade hcovers 10 hi hhas _ hformat
  rw [hx] at hvalue
  exact ⟨hb, hcovers, x, hx, Option.some.inj hvalue,
    hle.trans_eq (by norm_num [Bound.value])⟩

end Store

end MixedSignal
