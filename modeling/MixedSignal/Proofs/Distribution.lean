import Mathlib
import MixedSignal.Proofs.Resolution

/-!
# Multiplying constants into sums

Multiplying constants into the sums of an expression never fails, and keeps its domain and its
value. Terms are scaled by constructors that simplify, and a scaled term is rewritten in turn. So
the argument is one about single nodes: a node and its form have the same value
(`Transform.SameValue`), a term and its multiple differ by the factor (`Transform.ScaledBy`), and
products distribute over sums.

An expression that reads as a linear form has the value of the form, for integers and reals alike.
-/

namespace MixedSignal

/-! ## Scaled terms -/

section

variable {R : Type} [Scalar R] {d : Domain} {c : Value R}

/-- A constant that a domain can have does not lead out of it. -/
theorem Value.InDomain.join_eq (h : c.InDomain d) :
    (Domain.uint.join d).join c.format.domain = d := by
  cases c with
  | real x =>
    obtain rfl : d = .real := h
    rfl
  | int k =>
    have hsign : ∀ g : Signedness, (Format.int (.tightOrFull g (.single k)) : Format R).domain =
        (Format.int ⟨g, 0, .single k⟩ : Format R).domain := by
      intro g
      cases g with
      | signed => exact Store.domain_eq_sint IntFormat.tightOrFull_signedness
      | unsigned => exact Store.domain_eq_uint IntFormat.tightOrFull_signedness
    rw [Value.format, hsign]
    cases d with
    | real => exact h.elim
    | sint =>
      split
      · rfl
      · rfl
    | uint =>
      rw [if_neg (not_lt.2 h)]
      rfl

namespace Store

variable {rounding : Rounding R} {s : Store R}

/-- A promoted constant stays the same, if it is one of the domain. -/
theorem Promotes.const?_eq (hs : s.WellTyped rounding) {i j : NodeId} (hi : i < s.nodes.size)
    (h : s.Promotes d i j) (hc : s.const? i = some c) (hd : c.InDomain d) :
    s.const? j = some c := by
  by_cases hle : d.rank ≤ (s.format i).domain.rank
  · rw [h.eq_of_rank_le hle, hc]
  · cases h with
    | same => exact hc
    | const _ hv hj =>
      obtain rfl : c = _ := Option.some.inj (hc.symm.trans hv)
      rw [const?, kind, hj]
      exact congrArg some (constantIn_fst hd)
    | widen _ _ _ hv => cases hc.symm.trans hv
    | toReal =>
      have hdomain := hs.const_inDomain hi hc
      cases c with
      | int k => exact hd.elim
      | real x =>
        rw [show (s.format i).domain = .real from hdomain] at hle
        exact absurd le_rfl hle

end Store

namespace Build

open Store

variable {rounding : Rounding R} {s : Store R} {E : ConstructionError → Prop}

/-- Scaling a node by a constant of its domain does not fail, and takes both as they are. -/
theorem mul_value_ensures (hs : s.WellTyped rounding) {x : NodeId} (hx : x < s.nodes.size)
    (hc : c.InDomain (s.format x).domain) :
    Ensures (Grown rounding) (mul (.node x) (.value c)) s E fun j s' => j < s'.nodes.size ∧
      ∃ u k, s.Grown rounding u ∧ u.Grown rounding s' ∧ k < u.nodes.size ∧
        (u.format k).domain = (s.format x).domain ∧ u.const? k = some c ∧
        Combines u s' .product (s.format x).domain [x, k] j := by
  have hvalid : ∀ o ∈ [Operand.node x, .value c], o.Valid s := by simpa using ⟨hx, trivial⟩
  refine (arithmetic_ensures hs hvalid fun hnil => absurd hnil (by simp)).imp fun j s' _ hj => ?_
  obtain ⟨hlt, u, is, js, hu, hu', hp, hcomb⟩ := hj
  have hsu := hu.wellTyped hs
  have hformat := hu.toExtends.format_eq hx
  have hdomain := hp.domain_eq
  obtain ⟨hstands, hpromotes⟩ := hp
  cases hstands with
  | @cons _ y _ _ hy hrest =>
  obtain rfl : y = x := hy.2
  cases hrest with
  | @cons _ l _ _ hl hnil =>
  cases hnil
  have hnode : u.node l = ⟨.const c, c.format⟩ := hl.2
  have hconst : u.const? l = some c := by rw [const?, kind, hnode]
  have hcommon : commonDomain u [y, l] = (s.format y).domain := by
    change (Domain.uint.join (u.format y).domain).join (u.format l).domain = _
    rw [hformat, show u.format l = c.format by rw [format, hnode]]
    exact hc.join_eq
  rw [hcommon] at hcomb hpromotes hdomain
  cases hpromotes with
  | @cons _ y' _ _ hy' hrest =>
  obtain rfl : y' = y := hy'.2.eq_of_rank_le (by rw [hformat])
  cases hrest with
  | @cons _ k _ _ hk hnil =>
  cases hnil
  exact ⟨hlt, u, k, hu, hu', hk.1, (hdomain k (by simp)).2,
    hk.2.const?_eq hsu hl.1 hconst hc, hcomb⟩

end Build

end

/-! ## Rewriting -/

namespace Transform

open Store Build

variable {R α : Type} [Scalar R] {rounding : Rounding R} {s s' : Store R} {σ : Valuation R}
  {d : Domain} {π : Value R → α} {f : ArithOp → α → α → α} {z : α} {i j : NodeId}
  {E : ConstructionError → Prop}

/-- The nodes are of one domain. In the domain `d` they have the same value, seen through `π`. -/
structure SameValue (rounding : Rounding R) (σ : Valuation R) (d : Domain) (π : Value R → α)
    (i j : NodeId) (s : Store R) : Prop extends Both rounding i j s where
  domain : (s.format j).domain = (s.format i).domain
  eq : (s.format i).domain = d → π (s.exact σ j) = π (s.exact σ i)

/-- The second node is the first one scaled by a constant, if it is one of the domain. -/
structure ScaledBy (rounding : Rounding R) (σ : Valuation R) (d : Domain) (π : Value R → α)
    (f : ArithOp → α → α → α) (c : Value R) (i j : NodeId) (s : Store R) : Prop
    extends Both rounding i j s where
  domain : c.InDomain (s.format i).domain → (s.format j).domain = (s.format i).domain
  eq : c.InDomain (s.format i).domain → (s.format i).domain = d →
    π (s.exact σ j) = f .product (π (s.exact σ i)) (π c)

theorem SameValue.of_grown (hg : s.Grown rounding s') (h : SameValue rounding σ d π i j s) :
    SameValue rounding σ d π i j s' := by
  have hleft := hg.toExtends.format_eq h.left_lt
  refine ⟨h.toBoth.of_grown hg, ?_, fun hd => ?_⟩
  · rw [hg.toExtends.format_eq h.right_lt, hleft, h.domain]
  · rw [hleft] at hd
    rw [h.wellTyped.exact_extends hg.toExtends j h.right_lt,
      h.wellTyped.exact_extends hg.toExtends i h.left_lt, h.eq hd]

theorem ScaledBy.of_grown {c : Value R} (hg : s.Grown rounding s')
    (h : ScaledBy rounding σ d π f c i j s) : ScaledBy rounding σ d π f c i j s' := by
  have hleft := hg.toExtends.format_eq h.left_lt
  refine ⟨h.toBoth.of_grown hg, fun hc => ?_, fun hc hd => ?_⟩
  · rw [hleft] at hc
    rw [hg.toExtends.format_eq h.right_lt, hleft, h.domain hc]
  · rw [hleft] at hc hd
    rw [h.wellTyped.exact_extends hg.toExtends j h.right_lt,
      h.wellTyped.exact_extends hg.toExtends i h.left_lt, h.eq hc hd]

section

variable (hA : Arithmetic d π f z) (hs : s.WellTyped rounding)
include hA hs

/-- An operator on nodes of the domain of another one has its value, if that is what the operator
makes of their values. -/
theorem arithmetic_sameValue (hi : i < s.nodes.size) {op : ArithOp} {ys : List NodeId}
    (hne : ys ≠ []) (hys : ∀ y ∈ ys, y < s.nodes.size ∧ (s.format y).domain = (s.format i).domain)
    (heq : (s.format i).domain = d →
      reduce (f op) ((ys.map (s.exact σ)).map π) = some (π (s.exact σ i))) :
    Ensures (Grown rounding) (arithmetic op (ys.map .node)) s E (SameValue rounding σ d π i) := by
  refine (nodes_ensures hs op hne hys).imp fun j s' hg hj => ?_
  obtain ⟨hlt, u, hu, hu', hcomb⟩ := hj
  have hsu := hu.wellTyped hs
  have hformat := hg.toExtends.format_eq hi
  have hys' : ∀ y ∈ ys, y < u.nodes.size ∧ (u.format y).domain = (s.format i).domain := by
    intro y hy
    rw [hu.toExtends.format_eq (hys y hy).1]
    exact ⟨(hys y hy).1.trans_le hu.size_le, (hys y hy).2⟩
  have hmap : ys.map (u.exact σ) = ys.map (s.exact σ) :=
    List.map_congr_left fun y hy => hs.exact_extends hu.toExtends y (hys y hy).1
  refine ⟨.of_made hs hi hg hlt, ?_, fun hd => ?_⟩
  · rw [domain_of_combines hsu hu' hne hys' hlt hcomb, hformat]
  · rw [hformat] at hd
    have hreduce := heq hd
    rw [← hmap] at hreduce
    rw [hd] at hys' hcomb
    rw [(SeenAs.of_combines hsu hu' hA hys' hlt hcomb hreduce).eq,
      hs.exact_extends hg.toExtends i hi]

/-- The operator of a node on the forms of its operands has its value. -/
theorem form_sameValue (hi : i < s.nodes.size) {op : ArithOp} {xs ys : List NodeId}
    (hk : s.kind i = .arith op xs)
    (hys : List.Forall₂ (fun x y => SameValue rounding σ d π x y s) xs ys) :
    Ensures (Grown rounding) (arithmetic op (ys.map .node)) s E (SameValue rounding σ d π i) := by
  have hpart : ∀ x ∈ xs, x ∈ parts (s.kind i) := by
    rw [hk]
    exact fun x hx => hx
  have hxs := hs.operands_ne_nil hi hk
  have hne : ys ≠ [] := by
    rintro rfl
    exact hxs (List.forall₂_nil_right_iff.1 hys)
  refine arithmetic_sameValue hA hs hi hne (fun y hy => ?_) fun hd => ?_
  · obtain ⟨x, hx, hxy⟩ := forall₂_exists_left hys y hy
    exact ⟨hxy.right_lt, hxy.domain.trans (hs.parts_domain hi x (hpart x hx))⟩
  · have hmap : (ys.map (s.exact σ)).map π = (xs.map (s.exact σ)).map π := by
      rw [List.map_map, List.map_map, ← List.forall₂_eq_eq_eq, List.forall₂_map_left_iff,
        List.forall₂_map_right_iff]
      refine ((List.forall₂_and_left _ _).2 ⟨hpart, hys⟩).flip.imp fun y x hxy => ?_
      exact hxy.2.eq ((hs.parts_domain hi x hxy.1).trans hd)
    rw [hmap, hA.eval op (s.format i) _ hd (by simpa using hxs), hs.exact_arith hi hk]

/-- A node is scaled without failure by a constant of its domain. -/
theorem mul_scaledBy (hi : i < s.nodes.size) (c : Value R) :
    Ensures (Grown rounding) (mul (.node i) (.value c)) s E (ScaledBy rounding σ d π f c i) := by
  by_cases hc : c.InDomain (s.format i).domain
  · refine (mul_value_ensures hs hi hc).imp fun j s' hg hj => ?_
    obtain ⟨hlt, u, k, hu, hu', hk, hkd, hkc, hcomb⟩ := hj
    have hsu := hu.wellTyped hs
    have hformat := hg.toExtends.format_eq hi
    have hnodes : ∀ x ∈ [i, k], x < u.nodes.size ∧ (u.format x).domain = (s.format i).domain := by
      have hiu : (u.format i).domain = (s.format i).domain := by rw [hu.toExtends.format_eq hi]
      simpa using ⟨⟨hi.trans_le hu.size_le, hiu⟩, hk, hkd⟩
    refine ⟨.of_made hs hi hg hlt, fun _ => ?_, fun _ hd => ?_⟩
    · rw [domain_of_combines hsu hu' (by simp) hnodes hlt hcomb, hformat]
    · rw [hformat] at hd
      rw [hd] at hnodes hcomb
      have hseen := SeenAs.of_combines (σ := σ) hsu hu' hA hnodes hlt hcomb rfl
      rw [hseen.eq, hs.exact_extends hg.toExtends i hi, hs.exact_extends hu.toExtends i hi,
        exact_of_const? hkc]
  · have hvalid : ∀ o ∈ [Operand.node i, .value c], o.Valid s := by simpa using ⟨hi, trivial⟩
    refine (arithmetic_ensures hs hvalid fun hnil => absurd hnil (by simp)).imp fun j s' hg hj => ?_
    have hformat := hg.toExtends.format_eq hi
    refine ⟨.of_made hs hi hg hj.1, fun hc' => ?_, fun hc' => ?_⟩
    · exact absurd (hformat ▸ hc') hc
    · exact absurd (hformat ▸ hc') hc

/-- The terms of a scaled sum and its factor are of its domain, and its value is what the product
makes of the value of the sum and of the factor. -/
theorem scaledSum?_exact {p : NodeId} (hp : p < s.nodes.size) {terms : List NodeId} {c : Value R}
    (h : scaledSum? s p = some (terms, c)) :
    terms ≠ [] ∧ c.InDomain (s.format p).domain ∧
      (∀ x ∈ terms, (s.format x).domain = (s.format p).domain) ∧
      ((s.format p).domain = d → (reduce (f .sum) ((terms.map (s.exact σ)).map π)).map
        (f .product · (π c)) = some (π (s.exact σ p))) := by
  obtain ⟨a, b, hk, hka, hc⟩ := scaledSum?_eq_some h
  have hpart : ∀ x ∈ [a, b], x ∈ parts (s.kind p) := by
    rw [hk]
    exact fun x hx => hx
  have hlt : ∀ x ∈ [a, b], x < s.nodes.size := fun x hx => (hs.parts_lt hp x (hpart x hx)).trans hp
  have had := hs.parts_domain hp a (hpart a (by simp))
  have hbd := hs.parts_domain hp b (hpart b (by simp))
  have ha := hlt a (by simp)
  refine ⟨hs.operands_ne_nil ha hka, ?_, fun x hx => ?_, fun hd => ?_⟩
  · rw [← hbd]
    exact hs.const_inDomain (hlt b (by simp)) hc
  · rw [← had]
    exact hs.parts_domain ha x (by rw [hka]; exact hx)
  · have hproduct := hA.eval .product (s.format p) [s.exact σ a, s.exact σ b] hd (by simp)
    rw [hA.eval .sum (s.format a) _ (had.trans hd) (by simpa using hs.operands_ne_nil ha hka),
      ← hs.exact_arith ha hka, hs.exact_arith hp hk, List.map_cons, List.map_cons, List.map_nil,
      ← hproduct, List.map_cons, List.map_cons, List.map_nil, exact_of_const? hc]
    rfl

end

/-- Multiplying constants into sums keeps values, if products distribute over sums. It does not
fail. -/
theorem distributes_sameValue (hA : Arithmetic d π f z)
    (hD : ∀ a b c, f .product (f .sum a b) c = f .sum (f .product a c) (f .product b c)) :
    Distributes rounding E (SameValue rounding σ d π) (SameValue rounding σ d π)
      (ScaledBy rounding σ d π f) where
  of_grown _ _ _ _ hg h := h.of_grown hg
  multiple_of_grown _ _ _ _ _ hg h := h.of_grown hg
  leaf hs hi _ _ := ⟨⟨hs, hi, hi⟩, rfl, fun _ => rfl⟩
  sum hs hi := form_sameValue hA hs hi
  product hs hi := form_sameValue hA hs hi
  unscaled h _ := h
  multiple hs hx := mul_scaledBy hA hs hx _
  scaled := by
    intro s s' i p terms c zs hs hp hscaled hg hzs
    have hs' := hg.wellTyped hs
    have hp' := hp.of_grown hg
    have hscaled' := (scaledSum?_extends hs hg.toExtends hp.right_lt).trans hscaled
    obtain ⟨hne, hc, hterm, hvalue⟩ := scaledSum?_exact (σ := σ) hA hs' hp'.right_lt hscaled'
    refine arithmetic_sameValue hA hs' hp'.left_lt ?_ (fun y hy => ?_) fun hd => ?_
    · rintro rfl
      exact hne (List.forall₂_nil_right_iff.1 hzs)
    · obtain ⟨x, hx, t, hxt, hty⟩ := forall₂_exists_left hzs y hy
      refine ⟨hty.right_lt, ?_⟩
      rw [hty.domain, hxt.domain (hterm x hx ▸ hc), hterm x hx, hp'.domain]
    · have hpd := hp'.domain.trans hd
      have hmap : (zs.map (s'.exact σ)).map π =
          ((terms.map (s'.exact σ)).map π).map (f .product · (π c)) := by
        rw [List.map_map, List.map_map, List.map_map, ← List.forall₂_eq_eq_eq,
          List.forall₂_map_left_iff, List.forall₂_map_right_iff]
        refine ((List.forall₂_and_left _ _).2 ⟨hterm, hzs⟩).flip.imp fun y x hxy => ?_
        obtain ⟨hx, t, hxt, hty⟩ := hxy
        have hcx : c.InDomain (s'.format x).domain := hx ▸ hc
        change π (s'.exact σ y) = f .product (π (s'.exact σ x)) (π c)
        rw [hty.eq ((hxt.domain hcx).trans (hx.trans hpd)), hxt.eq hcx (hx.trans hpd)]
      rw [hmap, reduce_map (f .sum) (fun a b => hD a b (π c)), hvalue hpd, hp'.eq hd]

end Transform

/-! ## Expressions -/

/-- The values of variables. -/
def Valuation.var {R : Type} [Scalar R] (σ : Valuation R) : LinearVar → R
  | .signal x => (σ.signal x).toScalar
  | .deriv x => σ.rate x

namespace Store

open Transform Build

section

variable {R : Type} [Scalar R] {rounding : Rounding R} {s s' : Store R} {i j : NodeId}

/-- Constants are multiplied into sums without failure, and the domain stays. Nothing is asked of
the scalars. -/
theorem WellTyped.exists_distributeProducts (hs : s.WellTyped rounding) (hi : i < s.nodes.size) :
    ∃ j s', outcome (distributeProducts i) s = (.ok j, s') ∧ j < s'.nodes.size ∧
      (s'.format j).domain = (s.format i).domain := by
  have hrun : Ensures (Grown rounding) (distributeProducts i) s (fun _ => False)
      (SameValue rounding ⟨fun _ => .int 0, fun _ => 0⟩ (s.format i).domain (fun _ => ()) i) :=
    distributeProducts_ensures hs hi (distributes_sameValue (Arithmetic.unit _) fun _ _ _ => rfl)
  obtain ⟨j, s', houtcome, hg, hj⟩ := hrun.succeeds
  exact ⟨j, s', houtcome, hj.right_lt, by rw [hj.domain, hg.toExtends.format_eq hi]⟩

end

variable {R : Type} [ExactScalar R] {rounding : Rounding R} {s s' : Store R} {i j : NodeId}
  {σ : Valuation R}

/-- With constants multiplied into sums an expression has the same value. -/
theorem WellTyped.exact_distributeProducts (hs : s.WellTyped rounding) (hi : i < s.nodes.size)
    (hrun : outcome (distributeProducts i) s = (.ok j, s')) (hσ : σ.Respects s) :
    s'.exact σ j = s.exact σ i := by
  have hsame : ∀ {α : Type} {π : Value R → α} {f : ArithOp → α → α → α} {z : α},
      Arithmetic (s.format i).domain π f z →
      (∀ a b c, f .product (f .sum a b) c = f .sum (f .product a c) (f .product b c)) →
      s.Grown rounding s' ∧ SameValue rounding σ (s.format i).domain π i j s' := fun hA hD =>
    (distributeProducts_ensures hs hi (distributes_sameValue (E := fun _ => False) hA hD)).elim_ok
      hrun
  obtain ⟨hg, hj⟩ := hsame (Arithmetic.unit _) fun _ _ _ => rfl
  have hformat := hg.toExtends.format_eq hi
  have hdomain : (s'.format i).domain = (s.format i).domain := by rw [hformat]
  have hσ' : σ.Respects s' := by
    intro x hx
    rw [signal, hg.signals_eq] at *
    exact hσ x hx
  have hleft := hj.wellTyped.exact_ofDomain hσ' j hj.right_lt
  rw [hj.domain, hformat] at hleft
  have hright := hs.exact_ofDomain hσ i hi
  rw [← hs.exact_extends hg.toExtends i hi] at hright ⊢
  by_cases hd : (s.format i).domain = .real
  · have heq := (hsame (hd ▸ Arithmetic.real) add_mul).2.eq hdomain
    exact Value.eq_of_toScalar_eq (hd ▸ hleft) (hd ▸ hright) heq
  · have heq := (hsame (Arithmetic.int hd) add_mul).2.eq hdomain
    exact Value.eq_of_toInt_eq hd hleft hright heq

/-- An operator on values of the domain of its format is the one on scalars. -/
theorem toScalar_evalIn (op : ArithOp) (g : Format R) {vs : List (Value R)} (hne : vs ≠ [])
    (hvs : ∀ v ∈ vs, v.OfDomain g.domain) :
    (op.evalIn g vs).toScalar = op.evalScalar (vs.map Value.toScalar) := by
  cases g with
  | real g => rfl
  | int g =>
    have hcast : vs.map Value.toScalar = (vs.map Value.toInt).map fun k : Int => (k : R) := by
      rw [List.map_map]
      refine List.map_congr_left fun v hv => ?_
      obtain ⟨k, rfl⟩ := Arithmetic.exists_int (Format.int_domain_ne_real g) (hvs v hv)
      exact Value.toScalar_int k
    have hscalars : vs.map (Value.toScalar (R := R)) ≠ [] := by simpa using hne
    have hreduce := op.reduce_onScalar hscalars
    rw [hcast, reduce_map op.onInt fun a b => (op.intExtension.cast a b).symm] at hreduce
    have hint : reduce op.onInt (vs.map Value.toInt) = some (op.evalInt (vs.map Value.toInt)) :=
      op.reduce_of_ne_nil (by simpa using hne)
    rw [hint] at hreduce
    rw [hcast, ← Option.some.inj hreduce]
    exact Value.toScalar_int _

/-- Sums and products have the values of the field, whether they are integers or reals. -/
theorem evaluates_exact (hs : s.WellTyped rounding) (hσ : σ.Respects s) :
    LinearForm.Evaluates s σ.var fun i => (s.exact σ i).toScalar := by
  have harith : ∀ {i op xs}, i < s.nodes.size → s.kind i = .arith op xs →
      (s.exact σ i).toScalar = op.evalScalar (xs.map fun x => (s.exact σ x).toScalar) := by
    intro i op xs hi hk
    rw [hs.exact_arith hi hk, toScalar_evalIn op _ (by simpa using hs.operands_ne_nil hi hk),
      List.map_map]
    · rfl
    · intro v hv
      obtain ⟨x, hx, rfl⟩ := List.mem_map.1 hv
      have hpart : x ∈ parts (s.kind i) := by
        rw [hk]
        exact hx
      rw [← hs.parts_domain hi x hpart]
      exact hs.exact_ofDomain hσ x ((hs.parts_lt hi x hpart).trans hi)
  refine ⟨fun h => ?_, fun h => by rw [exact_of_const? h], fun hi hk => ?_, fun hi hk => ?_⟩
  · rw [exact, exactKind]
    rcases LinearForm.kind_of_leafVar? h with ⟨x, hk, rfl⟩ | ⟨x, hk, rfl⟩
    · rw [show (s.node _).kind = _ from hk]
      rfl
    · rw [show (s.node _).kind = _ from hk]
      rfl
  · rw [harith hi hk]
    exact (Scalar.product_eq _).trans (by simp)
  · rw [harith hi hk]
    exact Scalar.sum_eq _

/-- Multiplying constants into the sums of an expression never fails, and keeps its domain and its
value under every valuation of signals and derivatives. Where an expression reads as a linear form,
each variable occurs once in the form, and the expression has its value. Values are those of the
simulator, where it has one and nothing is out of range. -/
theorem distribution_exact (s : Store R) (i : NodeId) (hb : s.Built fun _ _ => True)
    (hi : i < s.nodes.size) :
    (∃ j s', outcome (distributeProducts i) s = (.ok j, s') ∧ j < s'.nodes.size ∧
      (s'.format j).domain = (s.format i).domain ∧
      ∀ σ : Valuation R, σ.Respects s → s'.exact σ j = s.exact σ i) ∧
    (∀ form, LinearForm.ofNode? s i = some form → (form.terms.map Prod.fst).Nodup ∧
      ∀ σ : Valuation R, σ.Respects s →
        form.constant + (form.terms.map fun t => t.2 * σ.var t.1).sum = (s.exact σ i).toScalar) ∧
    ∀ σ : Valuation R, s.SignalsFit → (∀ j ∈ s.occurrences i, s.Safe σ.signal j) →
      s.eval σ.signal i = .ok (s.exact σ i) := by
  have hs := hb.wellTyped_any
  refine ⟨?_, fun form hform => ⟨LinearForm.nodup_of_ofNode? hform, fun σ hσ => ?_⟩,
    fun σ hsig hsafe => ?_⟩
  · obtain ⟨j, s', hrun, hj, hdomain⟩ := hs.exists_distributeProducts hi
    exact ⟨j, s', hrun, hj, hdomain, fun σ hσ => hs.exact_distributeProducts hi hrun hσ⟩
  · exact ((evaluates_exact hs hσ).eq_value hs hi hform).symm
  · exact hs.eval_eq_exact (fun _ _ => Rounding.any_fits) hsig i hi hsafe

/-- Two reals, `-3 * ((x + x') / 2 + y + 1 + x)`, and what multiplying the constants in makes of
it. -/
def scaledStore : Store ℚ :=
  Store.runAll {} [
    .signal "x" (.ofMagnitude 8) .input none,
    .signal "y" (.ofMagnitude 8) .input none,
    .deriv 0,
    .arithmetic .sum [.signal 0, .node 2],
    .arithmetic .product [.node 3, .value (.real (1 / 2))],
    .arithmetic .sum [.node 6, .signal 1, .value (.real 1), .signal 0],
    .arithmetic .product [.node 9, .value (.real (-3))],
    .distributeProducts 12]

/-- `x = 2`, `y = 1 / 3` and `x' = 7`. -/
def scaledValuation : Valuation ℚ where
  signal x := .real (if x = 0 then 2 else 1 / 3)
  rate _ := 7

theorem distribution_exact_scaled :
    (scaledStore.Built fun _ _ => True) ∧ 12 < scaledStore.nodes.size ∧
    54 < scaledStore.nodes.size ∧ scaledValuation.Respects scaledStore ∧
    (∃ j s', outcome (distributeProducts 12) scaledStore = (.ok j, s') ∧
      (s'.format j).domain = .real ∧ (s'.exact scaledValuation j).toScalar = -47 / 2) ∧
    ∃ form, LinearForm.ofNode? scaledStore 54 = some form ∧
      form.terms = [(.signal 0, -9 / 2), (.deriv 0, -3 / 2), (.signal 1, -3)] ∧
      (form.terms.map Prod.fst).Nodup ∧
      form.constant + (form.terms.map fun t => t.2 * scaledValuation.var t.1).sum =
        (scaledStore.exact scaledValuation 54).toScalar := by
  have hbuilt : scaledStore.Built fun _ _ => True := Built.empty.runAll (by decide +kernel)
  have hlt : 12 < scaledStore.nodes.size ∧ 54 < scaledStore.nodes.size := by decide +kernel
  have hrespects : scaledValuation.Respects scaledStore := by
    have hdomain : ∀ x < scaledStore.signals.size,
        (scaledStore.signal x).format.domain = .real := by
      decide +kernel
    exact hdomain
  obtain ⟨j, s', hrun, -, hdomain, hvalue⟩ := (distribution_exact scaledStore 12 hbuilt hlt.1).1
  have hreal : (scaledStore.format 12).domain = .real := by decide +kernel
  have hform : (LinearForm.ofNode? scaledStore 54).map (·.terms) =
      some [(.signal 0, -9 / 2), (.deriv 0, -3 / 2), (.signal 1, -3)] := by
    decide +kernel
  obtain ⟨form, hread, hterms⟩ := Option.map_eq_some_iff.1 hform
  obtain ⟨hnodup, hlinear⟩ := (distribution_exact scaledStore 54 hbuilt hlt.2).2.1 form hread
  refine ⟨hbuilt, hlt.1, hlt.2, hrespects, ⟨j, s', hrun, hdomain.trans hreal, ?_⟩, form, hread,
    hterms, hnodup, hlinear scaledValuation hrespects⟩
  rw [hvalue scaledValuation hrespects]
  decide +kernel

end Store

end MixedSignal
