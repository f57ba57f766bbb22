import Mathlib
import MixedSignal.Proofs.Valuation

/-!
# Real arithmetic on signals

What is built for a system or a transfer function is real arithmetic on constants and signals, and
selections by the mode of a system (`Store.Numeric`). It may read integer signals, which are then
widened and converted. A word keeps its value when it is widened, so an integer is a real number in
such an expression: what it evaluates to is what it means (`Store.Numeric.eval`), provided that the
formats of the signals keep the values.

`Store.Conveys` joins this with a meaning, and the constructors establish it.
-/

set_option linter.unusedSectionVars false

namespace MixedSignal

/-- An unsigned word keeps its value in a signed word that is wider. -/
theorem Value.coerce_widen {R : Type} [Scalar R] {f : IntFormat} (hf : f.signedness = .unsigned)
    {w : Nat} (hw : f.width + 1 ≤ w) (r : ClosedRange) {v : Value R} (hv : v.coerce (.int f) = v) :
    (Value.int v.toInt).coerce (.int ⟨.signed, w, r⟩) = v := by
  obtain ⟨sg, width, range⟩ := f
  obtain rfl : sg = .unsigned := hf
  replace hw : width + 1 ≤ w := hw
  have hmem : IntRepr.wrap ⟨.unsigned, width⟩ v.toInt ∈ IntRepr.range ⟨.unsigned, width⟩ :=
    IntRepr.wrap_mem (by simp)
  cases v with
  | real x => cases hv
  | int k =>
    have hk : IntRepr.wrap ⟨.unsigned, width⟩ k = k := Value.int.inj hv
    have hpow : (2 : Int) ^ width ≤ 2 ^ (w - 1) :=
      pow_le_pow_right₀ (by decide) (by omega)
    have hpos := IntRepr.two_pow_pos (w - 1)
    rw [show (Value.int k : Value R).toInt = k from rfl, hk] at hmem
    simp only [IntRepr.range, ClosedRange.mem_def, Int.pow_eq] at hmem
    have hwide : k ∈ IntRepr.range ⟨.signed, w⟩ := by
      simp only [IntRepr.range, ClosedRange.mem_def, Int.pow_eq]
      omega
    exact congrArg Value.int (IntRepr.wrap_eq_self (fun _ => Nat.zero_lt_of_lt hw) hwide)

namespace Store

section

variable {R : Type} [Scalar R] {rounding : Rounding R} {s s' : Store R} {reads : SignalId → Prop}
  {mode : Option NodeId}

/-- Real arithmetic on constants and on signals, which are converted where they are integers, and
selections by the mode. -/
inductive Numeric (s : Store R) (reads : SignalId → Prop) (mode : Option NodeId) : NodeId → Prop
  | const {i c} (hi : i < s.nodes.size) (hd : (s.format i).domain = .real)
    (hk : s.kind i = .const c) : Numeric s reads mode i
  | signal {i x} (hi : i < s.nodes.size) (hk : s.kind i = .signal x) (hx : reads x) :
    Numeric s reads mode i
  | widen {i a} (hi : i < s.nodes.size) (hk : s.kind i = .convert .uintToSint a)
    (h : Numeric s reads mode a) : Numeric s reads mode i
  | toReal {i a} (hi : i < s.nodes.size) (hk : s.kind i = .convert .sintToReal a)
    (h : Numeric s reads mode a) : Numeric s reads mode i
  | arith {i op xs} (hi : i < s.nodes.size) (hd : (s.format i).domain = .real)
    (hk : s.kind i = .arith op xs) (h : ∀ x ∈ xs, Numeric s reads mode x) : Numeric s reads mode i
  | select {i xs a} (hi : i < s.nodes.size) (hd : (s.format i).domain = .real)
    (hk : s.kind i = .select xs a) (ha : a ∈ mode) (h : ∀ x ∈ xs, Numeric s reads mode x) :
    Numeric s reads mode i

variable {i : NodeId} {op : ArithOp} {xs : List NodeId}

namespace Numeric

variable (h : s.Numeric reads mode i)
include h

theorem lt : i < s.nodes.size := by
  cases h <;> assumption

theorem domain_of_const {c : Value R} (hk : s.kind i = .const c) : (s.format i).domain = .real := by
  cases h with
  | const _ hd | arith _ hd | select _ hd => exact hd
  | signal _ hk' | widen _ hk' | toReal _ hk' => cases hk.symm.trans hk'

theorem operands (hk : s.kind i = .arith op xs) : ∀ x ∈ xs, s.Numeric reads mode x := by
  cases h with
  | arith _ _ hk' hxs =>
    cases hk.symm.trans hk'
    exact hxs
  | const _ _ hk' | signal _ hk' | widen _ hk' | toReal _ hk' | select _ _ hk' =>
    cases hk.symm.trans hk'

theorem of_extends (he : s.Extends s') : s'.Numeric reads mode i := by
  induction h with
  | const hi hd hk =>
    exact .const (hi.trans_le he.size_le) (he.format_eq hi ▸ hd) ((he.kind_eq hi).trans hk)
  | signal hi hk hx => exact .signal (hi.trans_le he.size_le) ((he.kind_eq hi).trans hk) hx
  | widen hi hk _ ih => exact .widen (hi.trans_le he.size_le) ((he.kind_eq hi).trans hk) ih
  | toReal hi hk _ ih => exact .toReal (hi.trans_le he.size_le) ((he.kind_eq hi).trans hk) ih
  | arith hi hd hk _ ih =>
    exact .arith (hi.trans_le he.size_le) (he.format_eq hi ▸ hd) ((he.kind_eq hi).trans hk) ih
  | select hi hd hk ha _ ih =>
    exact .select (hi.trans_le he.size_le) (he.format_eq hi ▸ hd) ((he.kind_eq hi).trans hk) ha ih

/-- What is promoted to a larger domain is converted. -/
theorem promotes (hs : s.WellTyped rounding) {d : Domain} {j : NodeId} (hj : j < s.nodes.size)
    (hp : s.Promotes d i j) : s.Numeric reads mode j := by
  induction hp with
  | same => exact h
  | const hrank hv =>
    -- a constant is real already
    obtain ⟨c, hk⟩ : ∃ c, s.kind _ = .const c := by
      unfold const? at hv
      split at hv
      · exact ⟨_, ‹_›⟩
      · cases hv
    rw [h.domain_of_const hk] at hrank
    exact absurd hrank (not_lt.2 (Domain.rank_le_real _))
  | widen _ _ hnode => exact .widen hj (by rw [kind, hnode]) h
  | @toReal _ j k _ _ _ _ hnode _ ih =>
    have hk : k < j := hs.below j hj k (by simp [children, kind, hnode, Store.operands])
    exact .toReal hj (by rw [kind, hnode]) (ih h (hk.trans hj))

end Numeric

/-- Real arithmetic with a real result. -/
structure RealNumeric (s : Store R) (reads : SignalId → Prop) (mode : Option NodeId) (i : NodeId) :
    Prop where
  numeric : s.Numeric reads mode i
  domain : (s.format i).domain = .real

namespace RealNumeric

theorem operands (h : s.RealNumeric reads mode i) (hs : s.WellTyped rounding)
    (hk : s.kind i = .arith op xs) : ∀ x ∈ xs, s.RealNumeric reads mode x :=
  fun x hx => ⟨h.numeric.operands hk x hx,
    (hs.parts_domain h.numeric.lt x (by rwa [hk])).trans h.domain⟩

theorem of_extends (h : s.RealNumeric reads mode i) (he : s.Extends s') :
    s'.RealNumeric reads mode i :=
  ⟨h.numeric.of_extends he, by rw [he.format_eq h.numeric.lt, h.domain]⟩

theorem of_isConstant {c : Value R} (hi : i < s.nodes.size) (h : s.IsConstant c .real i) :
    s.RealNumeric reads mode i := by
  have hnode : s.node i = ⟨.const (.real c.toScalar), .ofMagnitude c.toScalar⟩ := h
  have hd : (s.format i).domain = .real := by
    rw [format, hnode]
    rfl
  exact ⟨.const hi hd (by rw [kind, hnode]), hd⟩

variable {f : Format R} (hs : s.WellTyped rounding) (hi : i < s.nodes.size)
  (h : ∀ x ∈ xs, s.RealNumeric reads mode x)
include hs hi h

theorem of_arith (hnode : s.node i = ⟨.arith op xs, f⟩) : s.RealNumeric reads mode i := by
  have hk : s.kind i = .arith op xs := by rw [kind, hnode]
  obtain ⟨x, hx⟩ := List.exists_mem_of_ne_nil xs (hs.operands_ne_nil hi hk)
  have hd : (s.format i).domain = .real := by
    rw [← hs.parts_domain hi x (by rwa [hk]), (h x hx).domain]
  exact ⟨.arith hi hd hk fun x hx => (h x hx).numeric, hd⟩

theorem of_select {a : NodeId} (hnode : s.node i = ⟨.select xs a, f⟩) (ha : a ∈ mode) :
    s.RealNumeric reads mode i := by
  have hk : s.kind i = .select xs a := by rw [kind, hnode]
  obtain ⟨w, -, -, hlength⟩ := hs.select_unsigned hi hk
  obtain ⟨x, hx⟩ := List.exists_mem_of_length_pos (hlength ▸ Nat.two_pow_pos w)
  have hd : (s.format i).domain = .real := by
    rw [← hs.parts_domain hi x (by rwa [hk]), (h x hx).domain]
  exact ⟨.select hi hd hk ha fun x hx => (h x hx).numeric, hd⟩

end RealNumeric

/-- An operand that is a signal, a real constant, or real arithmetic. -/
def NumericOperand (s : Store R) (reads : SignalId → Prop) (mode : Option NodeId) :
    Operand R → Prop
  | .node i => s.Numeric reads mode i
  | .signal x => x < s.signals.size ∧ reads x
  | .value c => c.format.domain = .real

namespace NumericOperand

variable {o : Operand R} (h : s.NumericOperand reads mode o)
include h

theorem valid : o.Valid s := by
  cases o with
  | node i => exact Numeric.lt h
  | signal x => exact h.1
  | value c => trivial

theorem numeric (hs : s.WellTyped rounding) (hg : s.Grown rounding s') (hi : i < s'.nodes.size)
    (hstands : o.Stands s' i) : s'.Numeric reads mode i := by
  cases o with
  | node j =>
    obtain rfl : i = j := hstands
    exact Numeric.of_extends h hg.toExtends
  | signal x =>
    obtain rfl : i = s'.leaf x := hstands
    exact .signal hi ((hg.wellTyped hs).leaf_kind x (hg.signals_eq ▸ h.1)) h.2
  | value c =>
    have hnode : s'.node i = ⟨.const c, c.format⟩ := hstands
    exact .const hi (by rw [format, hnode]; exact h) (by rw [kind, hnode])

end NumericOperand

end

end Store

namespace Build

open Store

section

variable {R : Type} [Scalar R] {rounding : Rounding R} {s u : Store R} {reads : SignalId → Prop}
  {mode : Option NodeId} {os : List (Operand R)} (hs : s.WellTyped rounding)
  (ho : ∀ o ∈ os, s.NumericOperand reads mode o)
  (hreal : ∃ o ∈ os, (operandFormat s o).domain = .real)
include hs ho hreal

/-- Operands are promoted to reals if one of them is real. -/
theorem Promoted.realNumeric (hu : s.Grown rounding u) {is js : List NodeId}
    (hp : Promoted u os is js) :
    commonDomain u is = .real ∧ ∀ j ∈ js, u.RealNumeric reads mode j := by
  obtain ⟨o, hmem, hdomain⟩ := hreal
  have hcommon : commonDomain u is = .real := by
    obtain ⟨i, hi, -, hstands⟩ := forall₂_exists_right hp.stands o hmem
    have hrank := rank_le_commonDomain (s := u) hi
    rw [format_of_stands hs (ho o hmem).valid hu hstands, hdomain] at hrank
    revert hrank
    cases commonDomain u is <;> simp [Domain.rank]
  refine ⟨hcommon, fun j hj => ?_⟩
  obtain ⟨i, hi, hlt, hij⟩ := forall₂_exists_left hp.promotes j hj
  obtain ⟨o, hmem, hlt', hstands⟩ := forall₂_exists_left hp.stands i hi
  exact ⟨((ho o hmem).numeric hs hu hlt' hstands).promotes (hu.wellTyped hs) hlt hij,
    hcommon ▸ (hp.domain_eq j hj).2⟩

theorem arithmetic_numeric (op : ArithOp) :
    Ensures (Grown rounding) (arithmetic op os) s (fun _ => True) fun j s' =>
      s'.RealNumeric reads mode j := by
  refine (arithmetic_ensures hs (fun o h => (ho o h).valid) fun _ _ _ => trivial).imp
    fun j s' hs' hj => ?_
  obtain ⟨hlt, u, is, js, hu, hu', hp, hcomb⟩ := hj
  obtain ⟨hcommon, hjs⟩ := Promoted.realNumeric hs ho hreal hu hp
  rw [hcommon] at hcomb
  exact hcomb.closed hlt (fun i xs hi hk => hi.operands (hu.wellTyped hs) hk)
    (fun i hi => hi.of_extends hu'.toExtends) (fun c i hi hc => .of_isConstant hi hc)
    (fun xs f i hi hnode hxs => .of_arith (hs'.wellTyped hs) hi hxs hnode) hjs

theorem array_numeric {a : NodeId} (ha : a < s.nodes.size) (hmode : a ∈ mode) :
    Ensures (Grown rounding) (array os (.node a)) s (fun _ => True) fun j s' =>
      s'.RealNumeric reads mode j := by
  refine (array_ensures (a := .node a) hs (fun o h => (ho o h).valid) ha fun _ _ => trivial).imp
    fun j s' hs' hj => ?_
  obtain ⟨hlt, u, is, js, i, w, hu, hu', hp, -, hstands, -, -, hsel⟩ := hj
  obtain rfl : i = a := hstands
  obtain ⟨-, hjs⟩ := Promoted.realNumeric hs ho hreal hu hp
  cases hsel with
  | same hhead => exact (hjs j (List.mem_of_mem_head? hhead)).of_extends hu'.toExtends
  | node hnode =>
    exact .of_select (hs'.wellTyped hs) hlt (fun x hx => (hjs x hx).of_extends hu'.toExtends)
      hnode hmode

end

end Build

variable {R : Type} [ExactScalar R] {rounding : Rounding R} {reads : SignalId → Prop}
  {mode : Option NodeId} {ρ : Reading R} {v : LinearVar → R} {a : R}

/-! ## Values -/

/-- Every address is the mode. -/
def Reading.ofMode (q : Nat) : Reading R where
  bit _ := false
  address _ := q
  other _ := 0

/-- The values of signals. There are no derivatives at run time, and zero stands in for them. -/
def LinearVar.current (v : SignalId → R) : LinearVar → R
  | .signal x => v x
  | .deriv _ => 0

namespace Store

variable {s s' : Store R} {i e : NodeId} {values : SignalId → Value R} {q : Nat}
  {operand : NodeId → Except EmitError (Value R)}

theorem coerce_real {f : Format R} (h : f.domain = .real) (v : Value R) :
    v.coerce f = .real v.toScalar := by
  cases f with
  | real => rfl
  | int f => exact absurd h (Format.int_domain_ne_real f)

theorem exists_of_eval_arith {op : ArithOp} {xs : List NodeId} {u : Value R}
    (hd : (s.format i).domain = .real) (hk : s.kind i = .arith op xs)
    (hu : (s.evalKind values operand (s.node i)).map (·.coerce (s.format i)) = .ok u) :
    ∃ vs, xs.mapM operand = .ok vs ∧
      (Value.real (op.evalScalar (vs.map Value.toScalar))).coerce (s.format i) = u := by
  rw [evalKind, show (s.node i).kind = .arith op xs from hk] at hu
  cases hvs : xs.mapM operand with
  | error e =>
    simp only [hvs] at hu
    cases hu
  | ok vs =>
    refine ⟨vs, rfl, ?_⟩
    simp only [hvs] at hu
    change (s.node i).format.domain = .real at hd
    cases hf : (s.node i).format with
    | real f =>
      rw [hf] at hu
      exact Except.ok.inj hu
    | int f =>
      rw [hf] at hd
      exact absurd hd (Format.int_domain_ne_real f)

theorem exists_of_eval_select {xs : List NodeId} {a : NodeId} (hk : s.kind i = .select xs a)
    (ha : ∀ w, operand a = .ok w → w = .int q) (he : xs[q]? = some e) {u : Value R}
    (hu : (s.evalKind values operand (s.node i)).map (·.coerce (s.format i)) = .ok u) :
    ∃ v, operand e = .ok v ∧ v.coerce (s.format i) = u := by
  cases hw : operand a with
  | error e =>
    rw [evalKind, show (s.node i).kind = .select xs a from hk] at hu
    simp only [hw] at hu
    cases hu
  | ok w =>
    obtain rfl := ha w hw
    have hnode : s.node i = ⟨.select xs a, s.format i⟩ := by
      rw [← hk]
      rfl
    rw [hnode, evalKind_select hw he] at hu
    cases hv : operand e with
    | error e =>
      rw [hv] at hu
      cases hu
    | ok v =>
      rw [hv] at hu
      exact ⟨v, rfl, Except.ok.inj hu⟩

theorem map_toScalar_eq {g : NodeId → R} {xs : List NodeId} {vs : List (Value R)}
    (h : List.Forall₂ (fun x v => operand x = .ok v) xs vs)
    (hg : ∀ x ∈ xs, ∀ v, operand x = .ok v → v.toScalar = g x) :
    vs.map Value.toScalar = xs.map g := by
  induction h with
  | nil => rfl
  | @cons x v xs vs hx _ ih =>
    rw [List.map_cons, List.map_cons, ih fun y hy => hg y (by simp [hy]), hg x (by simp) v hx]

/-- A conversion that has a value has an operand with a value. -/
theorem exists_of_eval_convert {conversion : Conversion} {a : NodeId}
    (hk : s.kind i = .convert conversion a) {u : Value R}
    (hu : (s.evalKind values operand (s.node i)).map (·.coerce (s.format i)) = .ok u) :
    ∃ v, operand a = .ok v := by
  cases hv : operand a with
  | ok v => exact ⟨v, rfl⟩
  | error e =>
    rw [evalKind, show (s.node i).kind = .convert conversion a from hk] at hu
    simp only [hv] at hu
    cases hu

/-- What an expression evaluates to is what it means, if the reading has the value of the selector,
and the formats of signals keep the values. -/
theorem Numeric.eval (h : s.Numeric reads mode i) (hs : s.WellTyped rounding)
    (hvalues : ∀ x < s.signals.size, reads x →
      ((values x).coerce (s.signal x).format).toScalar = (values x).toScalar)
    (hmode : ∀ a ∈ mode, (∀ w, s.eval values a = .ok w → w = .int (ρ.address a)) ∧
      ∀ w, s.Unsigned a w → ρ.address a < 2 ^ w)
    {u : Value R} (hu : s.eval values i = .ok u) :
    u.toScalar = s.meaning ρ (LinearVar.current fun x => (values x).toScalar) i := by
  induction h generalizing u with
  | @const i c hi hd hk =>
    rw [hs.eval_eq hi, evalKind, show (s.node i).kind = .const c from hk] at hu
    obtain rfl : c.coerce (s.format i) = u := Except.ok.inj hu
    rw [coerce_real hd, hs.meaning_eq hi, hk]
    rfl
  | @signal i x hi hk hx =>
    have ht := hs.typed i hi
    rw [hs.eval_eq hi, evalKind, show (s.node i).kind = .signal x from hk] at hu
    simp only at hu
    split at hu
    · cases hu
    · obtain rfl : (values x).coerce (s.format i) = u := Except.ok.inj hu
      rw [hk] at ht
      generalize hf : s.format i = f at ht
      cases ht with
      | signal hlt =>
        rw [hvalues x hlt hx, hs.meaning_eq hi, hk]
        rfl
  | @widen i a hi hk ha ih =>
    have ht := hs.typed i hi
    rw [hs.eval_eq hi] at hu
    obtain ⟨v, hv⟩ := exists_of_eval_convert hk hu
    rw [evalKind, show (s.node i).kind = .convert .uintToSint a from hk] at hu
    simp only [hv] at hu
    obtain rfl : (Value.int v.toInt).coerce (s.format i) = u := Except.ok.inj hu
    rw [hs.meaning_eq hi, hk]
    rw [hk] at ht
    generalize s.format i = f at ht
    cases ht with
    | uintToSint hformat hunsigned hw =>
      have hword := hs.eval_coerce ha.lt hv
      rw [hformat] at hword
      rw [Value.coerce_widen hunsigned hw _ hword]
      exact ih hv
  | @toReal i a hi hk ha ih =>
    have ht := hs.typed i hi
    rw [hs.eval_eq hi] at hu
    obtain ⟨v, hv⟩ := exists_of_eval_convert hk hu
    rw [evalKind, show (s.node i).kind = .convert .sintToReal a from hk] at hu
    simp only [hv] at hu
    obtain rfl : (Value.real v.toScalar).coerce (s.format i) = u := Except.ok.inj hu
    rw [hs.meaning_eq hi, hk]
    rw [hk] at ht
    generalize s.format i = f at ht
    cases ht with
    | sintToReal =>
      change v.toScalar = _
      exact ih hv
  | @arith i op xs hi hd hk _ ih =>
    rw [hs.eval_eq hi] at hu
    obtain ⟨vs, hvs, rfl⟩ := exists_of_eval_arith hd hk hu
    rw [coerce_real hd, hs.meaning_eq hi, hk]
    refine congrArg op.evalScalar ?_
    exact map_toScalar_eq (forall₂_of_mapM_eq_ok hvs) fun x hx v hv => ih x hx hv
  | @select i xs a hi hd hk ha _ ih =>
    obtain ⟨w, hw, -, hlength⟩ := hs.select_unsigned hi hk
    have hlt : ρ.address a < xs.length := hlength ▸ (hmode a ha).2 w hw
    have he := List.getElem?_eq_getElem hlt
    rw [hs.eval_eq hi] at hu
    obtain ⟨v, hv, rfl⟩ := exists_of_eval_select hk (hmode a ha).1 he hu
    rw [coerce_real hd, hs.meaning_eq hi, hk]
    -- there is an element for the mode, so that the address does not wrap around
    change v.toScalar = (xs[ρ.address a % xs.length]?).elim 0 _
    rw [Nat.mod_eq_of_lt hlt, he]
    exact ih _ (List.getElem_mem hlt) hv

/-- The node is real arithmetic with the meaning. -/
structure Conveys (rounding : Rounding R) (reads : SignalId → Prop) (mode : Option NodeId)
    (ρ : Reading R) (v : LinearVar → R) (s : Store R) (i : NodeId) (a : R) : Prop where
  wellTyped : s.WellTyped rounding
  numeric : s.RealNumeric reads mode i
  eq : s.meaning ρ v i = a

theorem Conveys.of_extends (h : Conveys rounding reads mode ρ v s i a) (he : s.Extends s')
    (hs' : s'.WellTyped rounding) : Conveys rounding reads mode ρ v s' i a where
  wellTyped := hs'
  numeric := h.numeric.of_extends he
  eq := (h.wellTyped.meaning_extends he i h.numeric.numeric.lt).trans h.eq

theorem Conveys.of_grown (h : Conveys rounding reads mode ρ v s i a) (hg : s.Grown rounding s') :
    Conveys rounding reads mode ρ v s' i a :=
  h.of_extends hg.toExtends (hg.wellTyped h.wellTyped)

theorem map_meaning_eq {is : List NodeId} {as : List R}
    (h : List.Forall₂ (Conveys rounding reads mode ρ v s) is as) :
    is.map (s.meaning ρ v) = as := by
  induction h with
  | nil => rfl
  | cons hi _ ih => rw [List.map_cons, hi.eq, ih]

end Store

/-! ## Constructions -/

namespace Build

open Store

variable {s : Store R}

theorem arithmetic_conveys (hs : s.WellTyped rounding) (op : ArithOp) {os : List (Operand R)}
    (ho : ∀ o ∈ os, s.NumericOperand reads mode o)
    (hreal : ∃ o ∈ os, (operandFormat s o).domain = .real) :
    Ensures (Grown rounding) (arithmetic op os) s (fun _ => True) fun j s' =>
      Conveys rounding reads mode ρ v s' j (op.evalScalar (os.map (operandMeaning s ρ v))) :=
  ((arithmetic_numeric hs ho hreal op).and
    (arithmetic_means ρ v hs op fun o h => (ho o h).valid)).imp fun _ _ hg hj =>
      ⟨hg.wellTyped hs, hj.1, hj.2.2⟩

theorem constant_conveys (hs : s.WellTyped rounding) (c : R) :
    Ensures (Grown rounding) (constant (.real c)) s (fun _ => True) fun j s' =>
      Conveys rounding reads mode ρ v s' j c := by
  have hc : s.NumericOperand reads mode (.value (.real c)) := rfl
  refine Ensures.imp (operand_ensures (o := .value (.real c)) hs trivial) fun j s' hg hj => ?_
  refine ⟨hg.wellTyped hs, ⟨hc.numeric hs hg hj.1 hj.2, ?_⟩,
    meaning_of_stands ρ v hs hg hc.valid hj.2⟩
  rw [format_of_stands hs hc.valid hg hj.2]
  rfl

/-- A coefficient for each mode is the one of the current mode. -/
theorem array_conveys (hs : s.WellTyped rounding) {a : NodeId} (ha : a < s.nodes.size)
    (hmode : a ∈ mode) {coefficients : List R} {q : Nat} {c : R} (hρ : ρ.address a = q)
    (hc : coefficients[q]? = some c) :
    Ensures (Grown rounding) (array (coefficients.map fun c => .value (.real c)) (.node a)) s
      (fun _ => True) fun j s' => Conveys rounding reads mode ρ v s' j c := by
  have ho : ∀ o ∈ coefficients.map fun c => Operand.value (.real c),
      s.NumericOperand reads mode o := by
    intro o ho
    obtain ⟨c, -, rfl⟩ := List.mem_map.1 ho
    rfl
  have hreal : ∃ o ∈ coefficients.map fun c => Operand.value (.real c),
      (operandFormat s o).domain = .real :=
    ⟨_, List.mem_map_of_mem (List.mem_of_getElem? hc), rfl⟩
  refine ((array_numeric hs ho hreal ha hmode).and
    (array_means ρ v hs (fun o h => (ho o h).valid) ha)).imp fun j s' hg hj => ?_
  refine ⟨hg.wellTyped hs, hj.1, hj.2.2.trans ?_⟩
  obtain ⟨hq, -⟩ := List.getElem?_eq_some_iff.1 hc
  rw [hρ, List.length_map, Nat.mod_eq_of_lt hq, List.map_map]
  simp [hc, operandMeaning, Value.toScalar]

end Build

namespace Model

open Store

variable {m : Model R} {x : SignalId}

/-- What an edit of the store conveys. -/
theorem build_conveys {x : Build R NodeId}
    (h : Ensures (Grown rounding) x m.store (fun _ => True) fun j s' =>
      Conveys rounding reads mode ρ v s' j a) :
    GrowsTo rounding m (Edit.build x) fun j m' =>
      Conveys rounding reads mode ρ v m'.store j a :=
  (Edit.build_ensures (fun _ _ => Grown.advances) h).imp fun _ _ _ hj => hj.1

theorem mul_conveys (hm : m.WellFormed rounding) {o : Operand R}
    (ho : m.store.NumericOperand reads mode o)
    (hreal : (Build.operandFormat m.store o).domain = .real)
    (hx : x < m.store.signals.size ∧ reads x) :
    GrowsTo rounding m (Edit.build (Build.mul o (.signal x)))
      fun j m' => Conveys rounding reads mode ρ v m'.store j
        (Build.operandMeaning m.store ρ v o * v (.signal x)) := by
  have ho' : ∀ o' ∈ [o, .signal x], m.store.NumericOperand reads mode o' := by
    simpa using ⟨ho, hx⟩
  have hproduct : ArithOp.product.evalScalar
      ([o, .signal x].map (Build.operandMeaning m.store ρ v)) =
      Build.operandMeaning m.store ρ v o * v (.signal x) :=
    (Scalar.product_eq _).trans List.prod_pair
  rw [← hproduct]
  exact build_conveys (Build.arithmetic_conveys hm.store .product ho' ⟨o, by simp, hreal⟩)

theorem sum_conveys (hm : m.WellFormed rounding) {js : List NodeId} {as : List R}
    (h : List.Forall₂ (Conveys rounding reads mode ρ v m.store) js as) (hne : js ≠ []) :
    GrowsTo rounding m (Edit.build (Build.sum (js.map .node)))
      fun e m' => Conveys rounding reads mode ρ v m'.store e as.sum := by
  have hjs : ∀ j ∈ js, m.store.RealNumeric reads mode j := by
    intro j hj
    obtain ⟨_, -, hj⟩ := forall₂_exists_right h j hj
    exact hj.numeric
  obtain ⟨j, hj⟩ := List.exists_mem_of_ne_nil js hne
  have hsum : ArithOp.sum.evalScalar
      ((js.map Operand.node).map (Build.operandMeaning m.store ρ v)) = as.sum := by
    rw [List.map_map, ← map_meaning_eq h]
    exact Scalar.sum_eq _
  rw [← hsum]
  exact build_conveys (Build.arithmetic_conveys hm.store .sum
    (List.forall_mem_map.2 fun j hj => (hjs j hj).numeric)
    ⟨.node j, List.mem_map_of_mem hj, (hjs j hj).domain⟩)

end Model

end MixedSignal
