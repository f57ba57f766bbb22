import Mathlib
import MixedSignal.Proofs.ScaledSums

/-!
# Linear expressions are recognized

Real signals, derivatives and constants are linear, and so are sums, differences and negations of
linear expressions, and products of which at most one factor is not a constant (`Store.Linear`).
Whatever the constructors make of such an expression has the shape of one (`Store.LinearShape`):
a constant, a variable, a sum, or an expression and a constant behind it. Multiplying the constants
into the sums keeps the shape and leaves no scaled sum, so constants, variables and scaled variables
are the only terms (`LinearForm.IsFlat`), which is what reading a linear form asks for.
-/

set_option linter.unusedSectionVars false

namespace MixedSignal

variable {R : Type} [Scalar R] {op : ArithOp} {o : Operand R}

theorem countP_le_of_forall₂ {α β : Type} {r : α → β → Prop} {p : α → Bool} {q : β → Bool}
    {xs : List α} {ys : List β} (h : List.Forall₂ r xs ys)
    (hpq : ∀ x y, r x y → q y = true → p x = true) : ys.countP q ≤ xs.countP p := by
  induction h with
  | nil => exact le_rfl
  | @cons x y xs ys hxy _ ih =>
    rw [List.countP_cons, List.countP_cons]
    by_cases hq : q y = true
    · simpa [hq, hpq x y hxy hq] using ih
    · rw [if_neg hq]
      omega

/-! ## Products with one factor that is not constant -/

namespace Store

open Build (terms flattened)

variable {rounding : Rounding R} {s s' : Store R} {i j : NodeId} {d : Domain}

/-- A constant is promoted to a constant. -/
theorem Promotes.exists_const? (h : s.Promotes d i j) {v : Value R} (hv : s.const? i = some v) :
    ∃ w, s.const? j = some w := by
  cases h with
  | same => exact ⟨v, hv⟩
  | const _ _ hj => exact IsConstant.exists_const? hj
  | widen _ _ _ hnone => cases hv.symm.trans hnone
  | toReal _ _ _ _ hnone => cases hv.symm.trans hnone

/-- If the node is a product, then it is one of an expression and a constant. -/
def ScalesOnce (s : Store R) (i : NodeId) : Prop :=
  ∀ xs, s.kind i = .arith .product xs → ∃ a b v, xs = [a, b] ∧ s.const? b = some v

/-- A product has no more terms than factors that are not constant. -/
theorem length_terms_le {nodes : List NodeId} (h : ∀ x ∈ nodes, s.ScalesOnce x) :
    (terms s .product nodes).length ≤ nodes.countP fun x => (s.const? x).isNone := by
  induction nodes with
  | nil => exact le_rfl
  | cons x nodes ih =>
    have hcons : terms s .product (x :: nodes) =
        (Build.flatten s .product x).filter (fun i => (s.const? i).isNone) ++
          terms s .product nodes := by
      simp [terms, flattened]
    have hhead : ((Build.flatten s .product x).filter fun i => (s.const? i).isNone).length ≤
        if (s.const? x).isNone = true then 1 else 0 := by
      unfold Build.flatten
      split
      · rename_i inner xs hk
        have hnone : s.const? x = none := by rw [const?, hk]
        split
        · rename_i hop
          obtain ⟨a, b, v, rfl, hb⟩ := h x (by simp) xs (hop ▸ hk)
          simp only [List.filter_cons, hb, hnone]
          split <;> simp
        · simp [hnone]
      · by_cases hnone : (s.const? x).isNone = true <;> simp [hnone]
    rw [hcons, List.length_append, List.countP_cons, Nat.add_comm]
    exact Nat.add_le_add (ih fun y hy => h y (by simp [hy])) hhead

/-- A product with at most one term is a constant, the term, or the term and a constant. -/
theorem Combines.product_cases {nodes : List NodeId} (h : Combines s s' .product d nodes j)
    (hs' : s'.WellTyped rounding) (hj : j < s'.nodes.size)
    (hlength : (terms s .product nodes).length ≤ 1) :
    (∃ v, s'.const? j = some v) ∨ j ∈ terms s .product nodes ∨
      ∃ t ∈ terms s .product nodes, ∃ c v, s'.kind j = .arith .product [t, c] ∧
        s'.const? c = some v := by
  cases h with
  | zero _ _ hc | neutral _ _ hc => exact .inl hc.exists_const?
  | single hxs =>
    generalize hj' : [j] = xs at hxs
    cases hxs with
    | unfolded => exact .inr (.inl (by rw [← hj']; simp))
    | folded _ _ hc =>
      have hlast := List.append_inj_right' (show [] ++ [j] = _ from hj') rfl
      obtain rfl := List.singleton_inj.1 hlast
      exact .inl hc.exists_const?
  | @node xs f hxs hnode =>
    have hk : s'.kind j = .arith .product xs := by rw [kind, hnode]
    have htwo := (hs'.normal hj hk).two_le
    cases hxs with
    | unfolded => omega
    | @folded v c _ _ hc =>
      rw [List.length_append, List.length_singleton] at htwo
      obtain ⟨t, ht⟩ := List.length_eq_one_iff.1 (by omega : (terms s .product nodes).length = 1)
      rw [ht] at hk
      obtain ⟨w, hw⟩ := hc.exists_const?
      exact .inr (.inr ⟨t, by simp [ht], c, w, hk, hw⟩)

/-! ## The shape of linear expressions -/

theorem Extends.leafVar?_eq (h : s.Extends s') (hi : i < s.nodes.size) :
    LinearForm.leafVar? s' i = LinearForm.leafVar? s i := by
  rw [LinearForm.leafVar?, LinearForm.leafVar?, h.kind_eq hi]

theorem kind_ne_arith_of_leafVar? {w : LinearVar} (h : LinearForm.leafVar? s i = some w)
    (op : ArithOp) (xs : List NodeId) : s.kind i ≠ .arith op xs := by
  intro hk
  simp [LinearForm.leafVar?, hk] at h

/-- A constant, a real variable, a sum of such expressions, or one of them and a constant factor
behind it. -/
@[mk_iff]
inductive LinearShape (s : Store R) : NodeId → Prop
  | const {i v} (h : s.const? i = some v) : LinearShape s i
  | var {i w} (h : LinearForm.leafVar? s i = some w) (hd : (s.format i).domain = .real) :
    LinearShape s i
  | sum {i xs} (hk : s.kind i = .arith .sum xs) (hxs : ∀ x ∈ xs, LinearShape s x) :
    LinearShape s i
  | scaled {i a b v} (hk : s.kind i = .arith .product [a, b]) (ha : LinearShape s a)
    (hb : s.const? b = some v) : LinearShape s i

namespace LinearShape

/-- The operands of a sum or product have the shape as well. -/
theorem operands (h : s.LinearShape i) {xs : List NodeId} (hk : s.kind i = .arith op xs) :
    ∀ x ∈ xs, s.LinearShape x := by
  cases h with
  | const hv => exact absurd hk (kind_ne_arith_of_const? hv op xs)
  | var hw => exact absurd hk (kind_ne_arith_of_leafVar? hw op xs)
  | sum hk' hxs =>
    cases hk.symm.trans hk'
    exact hxs
  | scaled hk' ha hb =>
    cases hk.symm.trans hk'
    simpa using ⟨ha, const hb⟩

theorem scalesOnce (h : s.LinearShape i) : s.ScalesOnce i := by
  intro xs hk
  cases h with
  | const hv => exact absurd hk (kind_ne_arith_of_const? hv _ xs)
  | var hw => exact absurd hk (kind_ne_arith_of_leafVar? hw _ xs)
  | sum hk' => cases hk.symm.trans hk'
  | scaled hk' _ hb =>
    cases hk.symm.trans hk'
    exact ⟨_, _, _, rfl, hb⟩

theorem of_extends_iff (hs : s.WellTyped rounding) (he : s.Extends s') (hi : i < s.nodes.size) :
    s'.LinearShape i ↔ s.LinearShape i := by
  induction i using Nat.strong_induction_on with
  | _ i ih =>
  have hlt : ∀ {op xs}, s.kind i = .arith op xs → ∀ x ∈ xs, x < i ∧ x < s.nodes.size :=
    fun hk x hx => ⟨hs.operand_lt hi hk x hx, (hs.operand_lt hi hk x hx).trans hi⟩
  rw [linearShape_iff, linearShape_iff, he.const?_eq hi, he.leafVar?_eq hi, he.format_eq hi,
    he.kind_eq hi]
  refine or_congr_right (or_congr_right (or_congr ?_ ?_))
  · refine exists_congr fun xs => and_congr_right fun hk => forall₂_congr fun x hx => ?_
    exact ih x (hlt hk x hx).1 (hlt hk x hx).2
  · refine exists_congr fun a => exists_congr fun b => exists_congr fun v =>
      and_congr_right fun hk => ?_
    rw [ih a (hlt hk a (by simp)).1 (hlt hk a (by simp)).2, he.const?_eq (hlt hk b (by simp)).2]

theorem of_extends (hs : s.WellTyped rounding) (he : s.Extends s') (h : s.LinearShape i)
    (hi : i < s.nodes.size) : s'.LinearShape i :=
  (of_extends_iff hs he hi).2 h

/-- Only constants can be integers. -/
theorem domain_eq_real (hs : s.WellTyped rounding) (h : s.LinearShape i) (hi : i < s.nodes.size)
    (hnone : s.const? i = none) : (s.format i).domain = .real := by
  -- the first operand of an operator is not constant, and it is of the same domain
  have hfirst : ∀ {i op xs}, i < s.nodes.size → s.kind i = .arith op xs →
      ∃ x ∈ xs, x < s.nodes.size ∧ s.const? x = none ∧
        (s.format x).domain = (s.format i).domain := by
    intro i op xs hi hk
    have hnormal := hs.normal hi hk
    have hlength := hnormal.two_le
    obtain ⟨x, hx⟩ := List.exists_mem_of_length_pos
      (by rw [List.length_dropLast]; omega : 0 < xs.dropLast.length)
    have hmem : x ∈ parts (s.kind i) := by
      rw [hk]
      exact List.dropLast_subset xs hx
    exact ⟨x, List.dropLast_subset xs hx, (hs.parts_lt hi x hmem).trans hi,
      hnormal.const_last x hx, hs.parts_domain hi x hmem⟩
  induction h with
  | const hv => cases hnone.symm.trans hv
  | var _ hd => exact hd
  | sum hk _ ih =>
    obtain ⟨x, hx, hlt, hx', hd⟩ := hfirst hi hk
    rw [← hd]
    exact ih x hx hlt hx'
  | scaled hk _ hb ih =>
    obtain ⟨x, hx, hlt, hx', hd⟩ := hfirst hi hk
    rw [← hd]
    rcases List.mem_pair.1 hx with rfl | rfl
    · exact ih hlt hx'
    · cases hx'.symm.trans hb

/-- Promotion changes constants only. -/
theorem promotes (hs : s.WellTyped rounding) (h : s.LinearShape i) (hi : i < s.nodes.size)
    (hp : s.Promotes d i j) : s.LinearShape j := by
  cases hv : s.const? i with
  | some v =>
    obtain ⟨w, hw⟩ := hp.exists_const? hv
    exact const hw
  | none =>
    have hreal := h.domain_eq_real hs hi hv
    obtain rfl : j = i := hp.eq_of_rank_le (by rw [hreal]; cases d <;> decide)
    exact h

end LinearShape

end Store

/-! ## Constructors -/

/-- The operand is a value, a real signal, or an expression with the shape of a linear one. -/
def Operand.LinearShape (s : Store R) : Operand R → Prop
  | .node i => i < s.nodes.size ∧ s.LinearShape i
  | .signal x => x < s.signals.size ∧ (s.signal x).format.domain = .real
  | .value _ => True

/-- The operand is a plain constant. -/
def Operand.isConstant (s : Store R) : Operand R → Bool
  | .node i => (s.const? i).isSome
  | .signal _ => false
  | .value _ => true

theorem Operand.LinearShape.valid {s : Store R} (h : o.LinearShape s) : o.Valid s := by
  cases o with
  | node i => exact h.1
  | signal x => exact h.1
  | value v => trivial

namespace Build

open Store

variable {rounding : Rounding R} {s u : Store R} {os : List (Operand R)}
  {E : ConstructionError → Prop}

/-- The construction makes an expression with the shape of a linear one. -/
abbrev MakesLinear (rounding : Rounding R) (s : Store R) (E : ConstructionError → Prop)
    (x : Build R NodeId) : Prop :=
  Ensures (Grown rounding) x s E fun j s' => j < s'.nodes.size ∧ s'.LinearShape j

section

variable (hs : s.WellTyped rounding)
include hs

/-- The node of an operand has its shape, and is constant if the operand is. -/
theorem linearShape_of_stands (hg : s.Grown rounding u) (ho : o.LinearShape s) {i : NodeId}
    (hi : o.Stands u i) : u.LinearShape i ∧ (o.isConstant s = true → ∃ v, u.const? i = some v) := by
  cases o with
  | node j =>
    obtain rfl : i = j := hi
    refine ⟨ho.2.of_extends hs hg.toExtends ho.1, fun hc => ?_⟩
    rw [hg.toExtends.const?_eq ho.1]
    exact Option.isSome_iff_exists.1 hc
  | signal x =>
    obtain rfl : i = u.leaf x := hi
    have hx : x < u.signals.size := hg.signals_eq ▸ ho.1
    have hu := hg.wellTyped hs
    have hk := hu.leaf_kind x hx
    refine ⟨.var (w := .signal x) (by rw [LinearForm.leafVar?, hk]) ?_, fun hc => by cases hc⟩
    have ht := hu.typed _ (hu.leaf_lt x hx)
    rw [hk] at ht
    generalize u.format (u.leaf x) = f at ht
    cases ht with
    | signal => rw [signal, hg.signals_eq]; exact ho.2
  | value v =>
    have hconst : u.const? i = some v := by rw [const?, kind, show u.node i = _ from hi]
    exact ⟨.const hconst, fun _ => ⟨v, hconst⟩⟩

/-- Promoted operands of linear shape have the shape, and constants stay constants. -/
theorem Promoted.linearShape (hg : s.Grown rounding u) (hos : ∀ o ∈ os, o.LinearShape s)
    {is js : List NodeId} (hp : Promoted u os is js) :
    (∀ j ∈ js, j < u.nodes.size ∧ u.LinearShape j) ∧
      js.countP (fun j => (u.const? j).isNone) ≤ os.countP fun o => !o.isConstant s := by
  have hu := hg.wellTyped hs
  have hboth : List.Forall₂ (fun o j => (j < u.nodes.size ∧ u.LinearShape j) ∧
      (o.isConstant s = true → ∃ v, u.const? j = some v)) os js := by
    refine forall₂_trans ?_ ((List.forall₂_and_left _ _).2 ⟨hos, hp.stands⟩) hp.promotes
    rintro o i j ⟨ho, hi, hstands⟩ ⟨hj, hpromotes⟩
    obtain ⟨hshape, hconst⟩ := linearShape_of_stands hs hg ho hstands
    refine ⟨⟨hj, hshape.promotes hu hi hpromotes⟩, fun hc => ?_⟩
    obtain ⟨v, hv⟩ := hconst hc
    exact hpromotes.exists_const? hv
  refine ⟨fun j hj => ?_, countP_le_of_forall₂ hboth fun o j hoj hnone => ?_⟩
  · obtain ⟨o, -, hoj⟩ := forall₂_exists_left hboth j hj
    exact hoj.1
  · rw [Bool.not_eq_true']
    by_contra hc
    obtain ⟨v, hv⟩ := hoj.2 (by simpa using hc)
    rw [hv] at hnone
    cases hnone

/-- Sums of linear shapes have the shape. -/
theorem sum_linearShape (hos : ∀ o ∈ os, o.LinearShape s) :
    MakesLinear rounding s E (sum os) := by
  refine (arithmetic_ensures hs (fun o ho => (hos o ho).valid) fun _ h => by simp at h).imp
    fun j s' _ hj => ⟨hj.1, ?_⟩
  obtain ⟨hlt, u, is, js, hu, hu', hp, hcomb⟩ := hj
  have hsu := hu.wellTyped hs
  refine hcomb.closed (P := fun i => i < u.nodes.size ∧ u.LinearShape i) hlt
    (fun i xs hi hk x hx => ⟨?_, hi.2.operands hk x hx⟩)
    (fun i hi => hi.2.of_extends hsu hu'.toExtends hi.1) (fun v i _ hc => ?_)
    (fun xs f i _ hnode hxs => .sum (by rw [kind, hnode]) hxs) (hp.linearShape hs hu hos).1
  · exact (hsu.operand_lt hi.1 hk x hx).trans hi.1
  · obtain ⟨w, hw⟩ := hc.exists_const?
    exact .const hw

/-- So have products, if at most one factor is not a plain constant. -/
theorem product_linearShape (hos : ∀ o ∈ os, o.LinearShape s)
    (hone : os.countP (fun o => !o.isConstant s) ≤ 1) :
    MakesLinear rounding s E (product os) := by
  refine (arithmetic_ensures hs (fun o ho => (hos o ho).valid) fun _ h => by simp at h).imp
    fun j s' hg hj => ⟨hj.1, ?_⟩
  obtain ⟨hlt, u, is, js, hu, hu', hp, hcomb⟩ := hj
  have hsu := hu.wellTyped hs
  obtain ⟨hjs, hcount⟩ := hp.linearShape hs hu hos
  have hterm : ∀ t ∈ terms u .product js, s'.LinearShape t := by
    intro t ht
    obtain ⟨hlt, hshape⟩ : t < u.nodes.size ∧ u.LinearShape t := by
      refine of_mem_terms (fun i xs hi hk x hx => ⟨?_, hi.2.operands hk x hx⟩) hjs ht
      exact (hsu.operand_lt hi.1 hk x hx).trans hi.1
    exact hshape.of_extends hsu hu'.toExtends hlt
  rcases hcomb.product_cases (hg.wellTyped hs) hlt
    ((length_terms_le fun x hx => (hjs x hx).2.scalesOnce).trans (hcount.trans hone)) with
    ⟨v, hv⟩ | hmem | ⟨t, ht, c, v, hk, hc⟩
  · exact .const hv
  · exact hterm j hmem
  · exact .scaled hk (hterm t ht) hc

theorem neg_linearShape {a : Operand R} (ha : a.LinearShape s) :
    MakesLinear rounding s E (neg a) := by
  refine product_linearShape hs (by simpa using ⟨trivial, ha⟩) ?_
  rw [List.countP_cons_of_neg (by simp [Operand.isConstant])]
  exact List.countP_le_length

theorem linearShape_of_grown (hg : s.Grown rounding u) (ho : o.LinearShape s) :
    o.LinearShape u := by
  cases o with
  | node i => exact ⟨ho.1.trans_le hg.size_le, ho.2.of_extends hs hg.toExtends ho.1⟩
  | signal x =>
    change x < u.signals.size ∧ (u.signal x).format.domain = .real
    rw [signal, hg.signals_eq]
    exact ho
  | value v => trivial

theorem sub_linearShape {a b : Operand R} (ha : a.LinearShape s) (hb : b.LinearShape s) :
    MakesLinear rounding s E (sub a b) := by
  refine (neg_linearShape hs hb).bind fun i u hu hi => sum_linearShape (hu.wellTyped hs) ?_
  simpa using ⟨linearShape_of_grown hs hu ha, hi⟩

end

theorem deriv_linearShape {x : SignalId} (hx : x < s.signals.size) :
    MakesLinear rounding s (fun _ => True) (deriv x) := by
  refine Ensures.get_bind ?_
  simp only
  split
  · rename_i hd
    refine (push_ensures (.deriv hx hd) (by simp [operands])).imp fun j t _ hj => ⟨hj.1, ?_⟩
    refine .var (w := .deriv x) ?_ ?_
    · rw [LinearForm.leafVar?, kind, hj.2]
    · rw [format, hj.2]
      exact hd
  · exact Ensures.throw trivial

theorem constant_linearShape (v : Value R) :
    MakesLinear rounding s E (constant v) := by
  refine (push_ensures (typed_constant v) (by simp [operands])).imp fun j t _ hj => ⟨hj.1, ?_⟩
  exact .const (v := v) (by rw [const?, kind, hj.2])

end Build

/-! ## Flat expressions -/

namespace LinearForm

open Store

variable {rounding : Rounding R} {s s' : Store R} {i : NodeId}

/-- A constant, a variable, or a variable and a constant factor behind it. -/
inductive IsTerm (s : Store R) : NodeId → Prop
  | const {i v} (h : s.const? i = some v) : IsTerm s i
  | var {i w} (h : leafVar? s i = some w) : IsTerm s i
  | scaled {i a b w v} (hk : s.kind i = .arith .product [a, b]) (ha : leafVar? s a = some w)
    (hb : s.const? b = some v) : IsTerm s i

/-- A sum of terms, or a single one. -/
def IsFlat (s : Store R) (i : NodeId) : Prop := ∀ x ∈ summands s i, IsTerm s x

namespace IsTerm

/-- A term is added to any form. -/
theorem exists_addNode? (h : IsTerm s i) (f : LinearForm R) : ∃ g, addNode? s f i = some g := by
  cases hv : s.const? i with
  | some v => exact ⟨{ f with constant := f.constant + v.toScalar }, by rw [addNode?, hv]⟩
  | none =>
    have hterm : ∃ t, term? s i = some t := by
      cases h with
      | const hv' => cases hv.symm.trans hv'
      | @var w hw =>
        refine ⟨(w, 1), ?_⟩
        unfold term?
        split
        · rename_i a b hk
          exact absurd hk (kind_ne_arith_of_leafVar? hw _ _)
        · rw [hw]
          rfl
      | @scaled a b w v hk ha hb =>
        refine ⟨(w, v.toScalar), ?_⟩
        simp only [term?, hk, hb, ha]
        rfl
    obtain ⟨t, ht⟩ := hterm
    exact ⟨{ f with terms := addTerm f.terms t.1 t.2 }, by rw [addNode?, hv, ht]; rfl⟩

end IsTerm

namespace IsFlat

/-- A distributed expression of linear shape is flat. -/
theorem of_linearShape (hs : s.WellTyped rounding) (hi : i < s.nodes.size) (h : s.LinearShape i)
    (hdist : s.IsDistributed i) : IsFlat s i := by
  -- a term is no sum, and no scaled sum, and no factor of a product is a product
  have hterm : ∀ x < s.nodes.size, s.LinearShape x → (∀ xs, s.kind x ≠ .arith .sum xs) →
      Transform.scaledSum? s x = none → IsTerm s x := by
    intro x hx hshape hsum hnone
    cases hshape with
    | const hv => exact .const hv
    | var hw => exact .var hw
    | sum hk => exact absurd hk (hsum _)
    | scaled hk ha hb =>
      have hnormal := hs.normal hx hk
      cases ha with
      | const hv => cases (hnormal.const_last _ (by simp)).symm.trans hv
      | var hw => exact .scaled hk hw hb
      | sum hka => simp [Transform.scaledSum?, hk, hka, hb] at hnone
      | scaled hka => exact absurd hka (hnormal.flat _ (by simp) _)
  intro x hx
  have hnone := hdist x hx
  by_cases hsum : ∃ xs, s.kind i = .arith .sum xs
  · obtain ⟨xs, hk⟩ := hsum
    rw [summands, hk] at hx
    exact hterm x ((hs.operand_lt hi hk x hx).trans hi) (h.operands hk x hx)
      ((hs.normal hi hk).flat x hx) hnone
  · rw [summands_of_ne_sum (by simpa using hsum), List.mem_singleton] at hx
    exact hx ▸ hterm i hi h (by simpa using hsum) (hx ▸ hnone)

/-- A flat expression is read as a linear form. -/
theorem exists_ofNode? (h : IsFlat s i) : ∃ form, ofNode? s i = some form := by
  have hfold : ∀ (xs : List NodeId) (f : LinearForm R), (∀ x ∈ xs, IsTerm s x) →
      ∃ g, xs.foldlM (addNode? s) f = some g := by
    intro xs
    induction xs with
    | nil => exact fun f _ => ⟨f, rfl⟩
    | cons x xs ih =>
      intro f hxs
      obtain ⟨g, hg⟩ := (hxs x (by simp)).exists_addNode? f
      obtain ⟨form, hform⟩ := ih g fun y hy => hxs y (by simp [hy])
      exact ⟨form, by rw [List.foldlM_cons, hg]; exact hform⟩
  exact hfold _ _ h

end IsFlat

end LinearForm

/-! ## Multiplying constants in -/

namespace Transform

open Store Build

variable {rounding : Rounding R} {s s' : Store R} {i j : NodeId}

/-- The second node has the shape of a linear expression if the first one has. -/
structure KeepsShape (rounding : Rounding R) (i j : NodeId) (s : Store R) : Prop
    extends Both rounding i j s where
  shape : s.LinearShape i → s.LinearShape j

theorem KeepsShape.of_grown (hg : s.Grown rounding s') (h : KeepsShape rounding i j s) :
    KeepsShape rounding i j s' where
  toBoth := h.toBoth.of_grown hg
  shape hi := (h.shape ((LinearShape.of_extends_iff h.wellTyped hg.toExtends h.left_lt).1 hi)).of_extends
    h.wellTyped hg.toExtends h.right_lt

/-- A node that is made from nodes of linear shape, if another one has it. -/
theorem keepsShape_ensures (hs : s.WellTyped rounding) (hi : i < s.nodes.size) {x : Build R NodeId}
    (hmakes : Makes rounding s x) (h : s.LinearShape i → MakesLinear rounding s (fun _ => True) x) :
    Ensures (Grown rounding) x s (fun _ => True) (KeepsShape rounding i) := by
  by_cases hshape : s.LinearShape i
  · exact (h hshape).imp fun j s' hg hj => ⟨.of_made hs hi hg hj.1, fun _ => hj.2⟩
  · refine Ensures.imp hmakes fun j s' hg hj => ⟨.of_made hs hi hg hj, fun hi' => ?_⟩
    exact absurd ((LinearShape.of_extends_iff hs hg.toExtends hi).1 hi') hshape

/-- The second node has the shape of a linear expression if the first one has, and is constant if the
first one is. -/
def KeepsConstants (rounding : Rounding R) (i j : NodeId) (s : Store R) : Prop :=
  KeepsShape rounding i j s ∧ ∀ v, s.const? i = some v → ∃ w, s.const? j = some w

/-- The operator of a node on the forms of its operands keeps the shape. -/
theorem form_keepsConstants (hs : s.WellTyped rounding) (hi : i < s.nodes.size) {xs ys : List NodeId}
    (hk : s.kind i = .arith op xs)
    (hys : List.Forall₂ (fun x y => KeepsConstants rounding x y s) xs ys) :
    Ensures (Grown rounding) (arithmetic op (ys.map .node)) s (fun _ => True)
      (KeepsConstants rounding i) := by
  have hvalid := valid_of_forall₂ hys fun _ _ h => h.1.right_lt
  refine (keepsShape_ensures hs hi (arithmetic_makes hs op hvalid) fun hshape => ?_).imp
    fun j s' hg hj => ⟨hj, fun v hv => ?_⟩
  · have hos : ∀ o ∈ ys.map Operand.node, o.LinearShape s := by
      refine List.forall_mem_map.2 fun y hy => ?_
      obtain ⟨x, hx, hxy⟩ := forall₂_exists_left hys y hy
      exact ⟨hxy.1.right_lt, hxy.1.shape (hshape.operands hk x hx)⟩
    cases hshape with
    | const hv => exact absurd hk (kind_ne_arith_of_const? hv op xs)
    | var hw => exact absurd hk (kind_ne_arith_of_leafVar? hw op xs)
    | sum hk' =>
      cases hk.symm.trans hk'
      exact sum_linearShape hs hos
    | scaled hk' _ hb =>
      cases hk.symm.trans hk'
      refine product_linearShape hs hos ?_
      cases hys with
      | cons _ hys =>
      cases hys with
      | cons hb' hnil =>
      cases hnil
      obtain ⟨w, hw⟩ := hb'.2 _ hb
      rw [List.map_cons, List.map_cons, List.map_nil, List.countP_cons,
        List.countP_cons_of_neg (by simp [Operand.isConstant, hw])]
      split <;> simp
  · exact absurd (kind_of_grown hg hi hk).2 (kind_ne_arith_of_const? hv op xs)

/-- Multiplying constants into sums keeps linear shapes, and constants. -/
theorem distributes_keepsConstants : Distributes (R := R) rounding (fun _ => True)
    (KeepsConstants rounding) (KeepsConstants rounding) fun _ => KeepsShape rounding where
  of_grown i j s s' hg h := by
    refine ⟨h.1.of_grown hg, fun v hv => ?_⟩
    rw [hg.toExtends.const?_eq h.1.left_lt] at hv
    rw [hg.toExtends.const?_eq h.1.right_lt]
    exact h.2 v hv
  multiple_of_grown _ _ _ _ _ hg h := h.of_grown hg
  leaf hs hi _ _ := ⟨⟨⟨hs, hi, hi⟩, id⟩, fun v hv => ⟨v, hv⟩⟩
  sum hs hi := form_keepsConstants hs hi
  product hs hi := form_keepsConstants hs hi
  unscaled h _ := h
  multiple := by
    intro s x c hs hx
    have hvalid : ∀ o ∈ [Operand.node x, .value c], o.Valid s := by simpa using ⟨hx, trivial⟩
    refine keepsShape_ensures hs hx (arithmetic_makes hs .product hvalid) fun hshape => ?_
    refine product_linearShape hs (by simpa using ⟨⟨hx, hshape⟩, trivial⟩) ?_
    rw [List.countP_cons, List.countP_cons_of_neg (by simp [Operand.isConstant])]
    split <;> simp
  scaled := by
    intro s s' i p terms c zs hs hp hscaled hg hzs
    have hp' := hp.1.of_grown hg
    have hvalid : ∀ o ∈ zs.map Operand.node, o.Valid s' := by
      refine valid_of_forall₂ hzs ?_
      rintro x z ⟨t, -, hz⟩
      exact hz.1.right_lt
    obtain ⟨a, b, hk, hka, -⟩ := scaledSum?_eq_some
      ((scaledSum?_extends hs hg.toExtends hp.1.right_lt).trans hscaled)
    refine (keepsShape_ensures hp'.wellTyped hp'.left_lt (arithmetic_makes hp'.wellTyped .sum hvalid)
      fun hshape => sum_linearShape hp'.wellTyped (List.forall_mem_map.2 fun z hz => ?_)).imp
      fun j t hg' hj => ⟨hj, fun v hv => ?_⟩
    · obtain ⟨x, hx, y, hxy, hyz⟩ := forall₂_exists_left hzs z hz
      have hterm := ((hp'.shape hshape).operands hk a (by simp)).operands hka x hx
      exact ⟨hyz.1.right_lt, hyz.1.shape (hxy.shape hterm)⟩
    · have hgrown := (trans_of (Grown rounding) hg hg').toExtends
      obtain ⟨w, hw⟩ := hp.2 v (by rw [← hgrown.const?_eq hp.1.left_lt, hv])
      rw [← hg.toExtends.const?_eq hp.1.right_lt] at hw
      exact absurd hk (kind_ne_arith_of_const? hw _ _)

end Transform

/-! ## Linear expressions -/

/-- The ways to combine linear expressions. -/
inductive Combination (R : Type) where
  | sum (operands : List (Operand R))
  | add (a b : Operand R)
  | sub (a b : Operand R)
  | neg (a : Operand R)
  | product (operands : List (Operand R))

namespace Combination

/-- The combination as a computation. -/
def build : Combination R → Build R NodeId
  | sum operands => Build.sum operands
  | add a b => Build.add a b
  | sub a b => Build.sub a b
  | neg a => Build.neg a
  | product operands => Build.product operands

/-- What is combined. -/
def operands : Combination R → List (Operand R)
  | sum operands | product operands => operands
  | add a b | sub a b => [a, b]
  | neg a => [a]

/-- At most one factor of a product is not a plain constant. -/
def ScalesOne (s : Store R) : Combination R → Prop
  | product operands => operands.countP (fun o => !o.isConstant s) ≤ 1
  | _ => True

instance (s : Store R) : (c : Combination R) → Decidable (c.ScalesOne s)
  | product operands => inferInstanceAs (Decidable (operands.countP (fun o => !o.isConstant s) ≤ 1))
  | sum _ | add _ _ | sub _ _ | neg _ => inferInstanceAs (Decidable True)

/-- The combination as a call. -/
def call : Combination R → Call R
  | sum operands => .arithmetic .sum operands
  | add a b => .arithmetic .sum [a, b]
  | sub a b => .sub a b
  | neg a => .neg a
  | product operands => .arithmetic .product operands

theorem outcome_call_snd (c : Combination R) (s : Store R) :
    (outcome c.call.run s).2 = (outcome c.build s).2 := by
  cases c <;> exact outcome_discard_snd _ s

theorem build_linearShape {rounding : Rounding R} {s : Store R} {E : ConstructionError → Prop}
    (hs : s.WellTyped rounding) {c : Combination R} (hos : ∀ o ∈ c.operands, o.LinearShape s)
    (hone : c.ScalesOne s) :
    Build.MakesLinear rounding s E c.build := by
  cases c with
  | sum os => exact Build.sum_linearShape hs hos
  | add a b => exact Build.sum_linearShape hs hos
  | sub a b => exact Build.sub_linearShape hs (hos a (by simp [operands])) (hos b (by simp [operands]))
  | neg a => exact Build.neg_linearShape hs (hos a (by simp [operands]))
  | product os => exact Build.product_linearShape hs hos hone

end Combination

namespace Store

open Build

/-- The node is a linear expression: a real signal, a derivative, a constant, or what is combined of
such. It stays one whatever is made from the store later. -/
inductive Linear : Store R → NodeId → Prop
  | signal {s x} (hs : s.Built fun _ _ => True) (hx : x < s.signals.size)
    (hd : (s.signal x).format.domain = .real) : Linear s (s.leaf x)
  | deriv {s s' x j} (hs : s.Built fun _ _ => True) (hx : x < s.signals.size)
    (h : outcome (Build.deriv x) s = (.ok j, s')) : Linear s' j
  | const {s s' v j} (hs : s.Built fun _ _ => True)
    (h : outcome (Build.constant v) s = (.ok j, s')) : Linear s' j
  | combine {s s' j} {c : Combination R} (hs : s.Built fun _ _ => True)
    (hnode : ∀ i, .node i ∈ c.operands → Linear s i)
    (hsignal : ∀ x, .signal x ∈ c.operands →
      x < s.signals.size ∧ (s.signal x).format.domain = .real)
    (hone : c.ScalesOne s) (h : outcome c.build s = (.ok j, s')) : Linear s' j
  | later {s i} (h : Linear s i) (c : Call R) (hc : c.Valid s) : Linear (outcome c.run s).2 i

variable {rounding : Rounding R} {s s' : Store R} {i j : NodeId}

/-- Linear expressions have the shape of one. -/
theorem Linear.linearShape (h : Linear s i) :
    s.WellTyped Rounding.any ∧ i < s.nodes.size ∧ s.LinearShape i := by
  induction h with
  | @signal s x hs hx hd =>
    have hwt := hs.wellTyped_any
    have ho : (Operand.signal x : Operand R).LinearShape s := ⟨hx, hd⟩
    exact ⟨hwt, hwt.leaf_lt x hx,
      (linearShape_of_stands hwt (refl_of _ s) ho (rfl : Operand.Stands s (.signal x) _)).1⟩
  | deriv hs hx hrun =>
    obtain ⟨hg, hj⟩ := (deriv_linearShape hx).elim_ok hrun
    exact ⟨hg.wellTyped hs.wellTyped_any, hj⟩
  | const hs hrun =>
    obtain ⟨hg, hj⟩ := (constant_linearShape (E := fun _ => False) _).elim_ok hrun
    exact ⟨hg.wellTyped hs.wellTyped_any, hj⟩
  | @combine s s' j c hs _ hsignal hone hrun ih =>
    have hos : ∀ o ∈ c.operands, o.LinearShape s := by
      intro o ho
      cases o with
      | node i => exact (ih i ho).2
      | signal x => exact hsignal x ho
      | value v => trivial
    obtain ⟨hg, hj⟩ :=
      (Combination.build_linearShape (E := fun _ => False) hs.wellTyped_any hos hone).elim_ok hrun
    exact ⟨hg.wellTyped hs.wellTyped_any, hj⟩
  | @later s i _ c hc ih =>
    obtain ⟨hs, hi, hshape⟩ := ih
    obtain ⟨hext, hs', -⟩ := Call.run_advances hs hc (c.rounds_any s) hs
    exact ⟨hs', hi.trans_le hext.size_le, hshape.of_extends hs hext hi⟩

/-- Once constants are multiplied into its sums, every linear expression reads as a linear form,
however deep it is nested, whatever it shares with others, and whatever its constants are. -/
theorem linear_recognized (s : Store R) (i : NodeId) (h : Linear s i) :
    ∃ j s' form, outcome (distributeProducts i) s = (.ok j, s') ∧
      LinearForm.ofNode? s' j = some form := by
  obtain ⟨hs, hi, hshape⟩ := h.linearShape
  obtain ⟨j, s', houtcome, hg, hj, hkeeps, -⟩ :=
    ((distributeProducts_ensures hs hi Transform.distributes_isDistributed).and
      (distributeProducts_ensures hs hi Transform.distributes_keepsConstants)).succeeds
  have hflat := LinearForm.IsFlat.of_linearShape hkeeps.wellTyped hkeeps.right_lt
    (hkeeps.shape (hshape.of_extends hs hg.toExtends hi)) hj.2
  obtain ⟨form, hform⟩ := hflat.exists_ofNode?
  exact ⟨j, s', form, houtcome, hform⟩

/-- Two reals, the difference `d = x' - y`, a product of it that is `d` again, and
`-3 * (d + 3 + x - 3 + d)`. -/
def sharedCalls : List (Call ℚ) := [
  .signal "x" (.ofMagnitude 8) .input none,
  .signal "y" (.ofMagnitude 8) .input none,
  .deriv 0,
  (Combination.sub (.node 2) (.signal 1)).call,
  (Combination.product [.value (.int 2), .node 7, .value (.real (1 / 2))]).call,
  (Combination.sum [.node 7, .value (.int 3), .signal 0, .value (.real (-3)), .node 7]).call,
  (Combination.product [.value (.int (-3)), .node 14]).call]

/-- The store after the first calls. -/
def sharedStage (n : Nat) : Store ℚ := Store.runAll {} (sharedCalls.take n)

theorem sharedStage_succ {n : Nat} {c : Call ℚ} (h : sharedCalls[n]? = some c) :
    sharedStage (n + 1) = (outcome c.run (sharedStage n)).2 := by
  rw [sharedStage, List.take_add_one, h, runAll_append]
  rfl

theorem sharedStage_built {n : Nat} (h : n < 8) :
    (sharedStage n).Built (fun _ _ => True) ∧ ∀ x < (sharedStage n).signals.size,
      ((sharedStage n).signal x).format.domain = .real := by
  have hall : ∀ n < 8, AllowsAll (fun _ _ => True) {} (sharedCalls.take n) ∧
      ∀ x < (sharedStage n).signals.size, ((sharedStage n).signal x).format.domain = .real := by
    decide +kernel
  exact ⟨Built.empty.runAll (hall n h).1, (hall n h).2⟩

theorem sharedStage_combine {n j : Nat} (hn : n < 8) {c : Combination ℚ}
    (hc : sharedCalls[n]? = some c.call) (hnode : ∀ i, .node i ∈ c.operands → Linear (sharedStage n) i)
    (h : (∀ o ∈ c.operands, o.Valid (sharedStage n)) ∧ c.ScalesOne (sharedStage n) ∧
      (outcome c.build (sharedStage n)).1.toOption = some j) : Linear (sharedStage (n + 1)) j := by
  obtain ⟨hbuilt, hreal⟩ := sharedStage_built hn
  rw [sharedStage_succ hc, c.outcome_call_snd]
  refine .combine hbuilt hnode (fun x hx => ?_) h.2.1 (outcome_eq_of_toOption h.2.2)
  have hlt : x < (sharedStage n).signals.size := h.1 _ hx
  exact ⟨hlt, hreal x hlt⟩

theorem sharedStage_linear : Linear (sharedStage 7) 18 := by
  have hrate : Linear (sharedStage 3) 2 := by
    have hrun : 0 < (sharedStage 2).signals.size ∧
        (outcome (Build.deriv 0) (sharedStage 2)).1.toOption = some 2 := by
      decide +kernel
    rw [sharedStage_succ (c := .deriv 0) rfl]
    exact outcome_discard_snd (Build.deriv 0) (sharedStage 2) ▸
      .deriv (sharedStage_built (by omega)).1 hrun.1 (outcome_eq_of_toOption hrun.2)
  have hdiff : Linear (sharedStage 4) 7 :=
    sharedStage_combine (c := .sub (.node 2) (.signal 1)) (by omega) rfl
      (by simpa [Combination.operands] using hrate) (by decide +kernel)
  have hsame : Linear (sharedStage 5) 7 :=
    sharedStage_combine (c := .product [.value (.int 2), .node 7, .value (.real (1 / 2))])
      (by omega) rfl (by simpa [Combination.operands] using hdiff) (by decide +kernel)
  have hsum : Linear (sharedStage 6) 14 :=
    sharedStage_combine
      (c := .sum [.node 7, .value (.int 3), .signal 0, .value (.real (-3)), .node 7])
      (by omega) rfl (by simpa [Combination.operands] using hsame) (by decide +kernel)
  exact sharedStage_combine (c := .product [.value (.int (-3)), .node 14]) (by omega) rfl
    (by simpa [Combination.operands] using hsum) (by decide +kernel)

theorem linear_recognized_shared :
    Linear (sharedStage 7) 18 ∧ (LinearForm.ofNode? (sharedStage 7) 18).isNone = true ∧
    ∃ j s' form, outcome (distributeProducts 18) (sharedStage 7) = (.ok j, s') ∧
      LinearForm.ofNode? s' j = some form ∧
      form.terms = [(.deriv 0, -6), (.signal 1, 6), (.signal 0, -3)] := by
  have hread : (LinearForm.ofNode? (sharedStage 7) 18).isNone = true ∧
      ((outcome (distributeProducts 18) (sharedStage 7)).1.toOption.bind
        (LinearForm.ofNode? (outcome (distributeProducts 18) (sharedStage 7)).2)).map (·.terms) =
          some [(.deriv 0, -6), (.signal 1, 6), (.signal 0, -3)] := by
    decide +kernel
  obtain ⟨j, s', form, hrun, hform⟩ := linear_recognized (sharedStage 7) 18 sharedStage_linear
  refine ⟨sharedStage_linear, hread.1, j, s', form, hrun, hform, ?_⟩
  have hterms := hread.2
  rw [hrun] at hterms
  change (LinearForm.ofNode? s' j).map (·.terms) = _ at hterms
  rw [hform] at hterms
  exact Option.some.inj hterms

end Store

end MixedSignal
