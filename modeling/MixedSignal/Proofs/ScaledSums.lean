import Mathlib
import MixedSignal.Proofs.Distribution
import MixedSignal.Proofs.Invariants

/-!
# No scaled sum is left

Multiplying constants into sums ends for every expression, linear or not, and it does not fail. What it
leaves is no product of a sum and a constant, and if it is a sum, then none of its terms is one
(`Store.IsDistributed`).

The terms of a scaled sum are scaled and gone through again, and they are newer than the node that
they come from. What goes down is the depth (`Transform.distribute_agree`). Sums of distributed
expressions are distributed, and so are products, unless they are scaled sums, which are gone through
again (`Transform.distributes_isDistributed`).
-/

set_option linter.unusedSectionVars false

namespace MixedSignal

variable {R : Type} [Scalar R] {op : ArithOp} {d : Domain} {rounding : Rounding R} {s s' : Store R}
  {i j : NodeId}

namespace Store

open Build (terms flattened)
open Transform (scaledSum? scaledSum?_eq_some)
open LinearForm (summands)

theorem kind_ne_arith_of_const? {v : Value R} (h : s.const? i = some v) (op : ArithOp)
    (xs : List NodeId) : s.kind i ≠ .arith op xs := by
  intro hk
  simp [const?, hk] at h

theorem IsConstant.exists_const? {v : Value R} (h : s.IsConstant v d i) :
    ∃ w, s.const? i = some w := by
  have hconst : s.const? i = some (Build.constantIn v d).1 := by rw [const?, kind, h]
  exact ⟨_, hconst⟩

theorem flatten_eq_singleton (h : ∀ xs, s.kind i ≠ .arith op xs) : Build.flatten s op i = [i] := by
  unfold Build.flatten
  split
  · rename_i inner xs hk
    exact if_neg fun hop : inner = op => h xs (hop ▸ hk)
  · rfl

/-- If at most one operand is not constant, then there are two, and the last one is constant. -/
theorem Normal.eq_pair {xs : List NodeId} (h : s.Normal op xs)
    (hone : (xs.filter fun x => (s.const? x).isNone).length ≤ 1) :
    ∃ a c v, xs = [a, c] ∧ s.const? c = some v := by
  obtain ⟨htwo, -, hlast, -⟩ := h
  rcases xs with _ | ⟨a, _ | ⟨c, _ | ⟨b, xs⟩⟩⟩
  · simp at htwo
  · simp at htwo
  · cases hc : s.const? c with
    | some v => exact ⟨a, c, v, rfl, hc⟩
    | none => simp [hc, hlast a] at hone
  · simp [hlast a, hlast c] at hone

/-! ## Distributed expressions -/

/-- A product of two factors, of which one is a sum and the other one a constant. -/
def IsScaledSum (s : Store R) (i : NodeId) : Prop :=
  ∃ a b xs v, s.kind i = .arith .product [a, b] ∧
    (s.kind a = .arith .sum xs ∧ s.const? b = some v ∨
      s.const? a = some v ∧ s.kind b = .arith .sum xs)

/-- The constant of a product is its last factor. -/
theorem WellTyped.scaledSum?_of_isScaledSum (hs : s.WellTyped rounding) (hi : i < s.nodes.size)
    (h : s.IsScaledSum i) : scaledSum? s i ≠ none := by
  obtain ⟨a, b, xs, v, hk, ⟨ha, hb⟩ | ⟨ha, -⟩⟩ := h
  · simp only [scaledSum?, hk, ha, hb]
    simp
  · cases ((hs.normal hi hk).const_last a (by simp)).symm.trans ha

/-- Neither the expression nor one of its terms, if it is a sum, is a scaled sum. -/
def IsDistributed (s : Store R) (i : NodeId) : Prop :=
  ∀ x ∈ summands s i, scaledSum? s x = none

theorem scaledSum?_eq_none (h : ∀ xs, s.kind i ≠ .arith .product xs) : scaledSum? s i = none := by
  by_contra hsome
  obtain ⟨⟨xs, v⟩, hscaled⟩ := Option.ne_none_iff_exists'.1 hsome
  obtain ⟨a, b, hk, -⟩ := scaledSum?_eq_some hscaled
  exact h _ hk

theorem summands_of_ne_sum (h : ∀ xs, s.kind i ≠ .arith .sum xs) : summands s i = [i] := by
  unfold summands
  split
  · exact absurd ‹_› (h _)
  · rfl

theorem isDistributed_iff (h : ∀ xs, s.kind i ≠ .arith .sum xs) :
    s.IsDistributed i ↔ scaledSum? s i = none := by
  simp [IsDistributed, summands_of_ne_sum h]

theorem isDistributed_sum {xs : List NodeId} (hk : s.kind i = .arith .sum xs) :
    s.IsDistributed i ↔ ∀ x ∈ xs, scaledSum? s x = none := by
  rw [IsDistributed, summands, hk]

theorem isDistributed_of_const? {v : Value R} (h : s.const? i = some v) : s.IsDistributed i :=
  (isDistributed_iff (kind_ne_arith_of_const? h _)).2
    (scaledSum?_eq_none (kind_ne_arith_of_const? h _))

theorem IsDistributed.scaledSum?_eq_none (h : s.IsDistributed i) : scaledSum? s i = none := by
  by_cases hsum : ∃ xs, s.kind i = .arith .sum xs
  · obtain ⟨xs, hk⟩ := hsum
    exact Store.scaledSum?_eq_none (by simp [hk])
  · exact (isDistributed_iff (by simpa using hsum)).1 h

theorem IsDistributed.of_extends (h : s.IsDistributed i) (hs : s.WellTyped rounding)
    (he : s.Extends s') (hi : i < s.nodes.size) : s'.IsDistributed i := by
  have hsummands : summands s' i = summands s i := by rw [summands, summands, he.kind_eq hi]
  intro x hx
  rw [hsummands] at hx
  rw [Transform.scaledSum?_extends hs he (LinearForm.summands_lt hs hi x hx), h x hx]

/-! ## Sums and products of distributed expressions -/

section

variable (hs : s.WellTyped rounding) (hg : s.Grown rounding s') {ys : List NodeId}
  (hys : ∀ y ∈ ys, y < s.nodes.size ∧ s.IsDistributed y) (hj : j < s'.nodes.size)
include hs hg hys hj

/-- A sum of distributed expressions is distributed. -/
theorem Combines.isDistributed_sum (h : Combines s s' .sum d ys j) : s'.IsDistributed j := by
  refine h.closed (P := fun i => i < s.nodes.size ∧ s.IsDistributed i) hj (fun i xs hi hk x hx => ?_)
    (fun i hi => hi.2.of_extends hs hg.toExtends hi.1) (fun v i _ hc => ?_)
    (fun xs f i hi hnode hxs => ?_) hys
  · refine ⟨(hs.operand_lt hi.1 hk x hx).trans hi.1, ?_⟩
    rw [isDistributed_iff ((hs.normal hi.1 hk).flat x hx)]
    exact (Store.isDistributed_sum hk).1 hi.2 x hx
  · obtain ⟨w, hw⟩ := hc.exists_const?
    exact isDistributed_of_const? hw
  · have hk : s'.kind i = .arith .sum xs := by rw [kind, hnode]
    exact (Store.isDistributed_sum hk).2 fun x hx => (hxs x hx).scaledSum?_eq_none

omit hg hj in
/-- If a product has a single term, then that is one of the factors, or a factor of one of them and no
sum. -/
theorem term_cases {t : NodeId} (ht : terms s .product ys = [t]) :
    t ∈ ys ∨ t < s.nodes.size ∧ ∀ xs, s.kind t ≠ .arith .sum xs := by
  have hmem : t ∈ terms s .product ys := by simp [ht]
  obtain ⟨y, hy, hty⟩ := List.mem_flatMap.1 (List.mem_of_mem_filter hmem)
  by_cases hproduct : ∃ xs, s.kind y = .arith .product xs
  · obtain ⟨xs, hk⟩ := hproduct
    obtain ⟨hlt, hdist⟩ := hys y hy
    have hflatten : Build.flatten s .product y = xs := by simp [Build.flatten, hk]
    rw [hflatten] at hty
    obtain ⟨before, after, rfl⟩ := List.append_of_mem hy
    have hsplit : terms s .product (before ++ y :: after) = terms s .product before ++
        (xs.filter (fun x => (s.const? x).isNone) ++ terms s .product after) := by
      simp [terms, flattened, hflatten]
    have hone : (xs.filter fun x => (s.const? x).isNone).length ≤ 1 := by
      have hlength := congrArg List.length (hsplit.symm.trans ht)
      simp only [List.length_append, List.length_singleton] at hlength
      omega
    obtain ⟨a, c, v, rfl, hc⟩ := (hs.normal hlt hk).eq_pair hone
    have hnone : s.const? t = none := by simpa using List.of_mem_filter hmem
    rcases List.mem_pair.1 hty with rfl | rfl
    · refine .inr ⟨(hs.operand_lt hlt hk t (by simp)).trans hlt, fun zs hkt => ?_⟩
      have hscaled := hdist.scaledSum?_eq_none
      simp [scaledSum?, hk, hkt, hc] at hscaled
    · cases hnone.symm.trans hc
  · rw [flatten_eq_singleton (by simpa using hproduct), List.mem_singleton] at hty
    exact .inl (hty ▸ hy)

/-- A product of distributed expressions is distributed, unless it is a scaled sum. -/
theorem Combines.isDistributed_product (h : Combines s s' .product d ys j)
    (hnone : scaledSum? s' j = none) : s'.IsDistributed j := by
  cases h with
  | zero _ _ hc | neutral _ _ hc =>
    obtain ⟨w, hw⟩ := hc.exists_const?
    exact isDistributed_of_const? hw
  | single hxs =>
    generalize hj' : [j] = xs at hxs
    cases hxs with
    | unfolded =>
      rcases term_cases hs hys hj'.symm with hmem | ⟨hlt, hne⟩
      · exact (hys j hmem).2.of_extends hs hg.toExtends (hys j hmem).1
      · rw [← hg.toExtends.kind_eq hlt] at hne
        exact (isDistributed_iff hne).2 hnone
    | folded _ _ hc =>
      have hlast := List.append_inj_right' (show [] ++ [j] = _ from hj') rfl
      obtain rfl := List.singleton_inj.1 hlast
      obtain ⟨w, hw⟩ := hc.exists_const?
      exact isDistributed_of_const? hw
  | @node xs f hxs hnode =>
    have hk : s'.kind j = .arith .product xs := by rw [kind, hnode]
    exact (isDistributed_iff (by simp [hk])).2 hnone

end

end Store

namespace Build

open Store Transform

/-- An operator on distributed nodes makes a distributed node. A product may be a scaled sum instead. -/
theorem arithmetic_distributed (hs : s.WellTyped rounding) (op : ArithOp) {ys : List NodeId}
    (hys : ∀ y ∈ ys, y < s.nodes.size ∧ s.IsDistributed y) :
    Ensures (Grown rounding) (arithmetic op (ys.map .node)) s (fun _ => True) fun j s' =>
      op = .sum ∨ op = .product ∧ scaledSum? s' j = none → s'.IsDistributed j := by
  have hvalid : ∀ o ∈ ys.map Operand.node, o.Valid s :=
    List.forall_mem_map.2 fun y hy => (hys y hy).1
  refine (arithmetic_ensures hs hvalid fun _ _ _ => trivial).imp fun j s' _ hj hop => ?_
  obtain ⟨hlt, u, is, js, hu, hu', hp, hcomb⟩ := hj
  have hsu := hu.wellTyped hs
  have hjs : ∀ k ∈ js, k < u.nodes.size ∧ u.IsDistributed k := by
    intro k hk
    obtain ⟨hklt, hmem | hne⟩ := hp.mem_or_kind_ne hsu (by simp) k hk
    · obtain ⟨hylt, hdist⟩ := hys k (by simpa using hmem)
      exact ⟨hklt, hdist.of_extends hs hu.toExtends hylt⟩
    · exact ⟨hklt, (isDistributed_iff (hne .sum)).2 (scaledSum?_eq_none (hne .product))⟩
  rcases hop with rfl | ⟨rfl, hnone⟩
  · exact hcomb.isDistributed_sum hsu hu' hjs hlt
  · exact hcomb.isDistributed_product hsu hu' hjs hlt hnone

end Build

namespace Transform

open Store Build

/-- The second node is of the domain of the first one. Nothing is said about values. -/
abbrev SameDomain (rounding : Rounding R) : NodeId → NodeId → Store R → Prop :=
  SameValue rounding ⟨fun _ => .int 0, fun _ => 0⟩ .real fun _ => ()

/-- Multiplying constants into sums makes distributed expressions. -/
theorem distributes_isDistributed {E : ConstructionError → Prop} : Distributes (R := R) rounding E
    (fun i j s => SameDomain rounding i j s ∧ s.IsDistributed j)
    (fun i j s => SameDomain rounding i j s ∧ (scaledSum? s j = none → s.IsDistributed j))
    (ScaledBy rounding ⟨fun _ => .int 0, fun _ => 0⟩ .real (fun _ => ()) fun _ _ _ => ()) := by
  have hV : Distributes (R := R) rounding E (SameDomain rounding) (SameDomain rounding)
      (ScaledBy rounding _ .real (fun _ => ()) fun _ _ _ => ()) :=
    distributes_sameValue (Arithmetic.unit .real) fun _ _ _ => rfl
  have hforms : ∀ {s : Store R} {xs ys : List NodeId},
      List.Forall₂ (fun x y => SameDomain rounding x y s ∧ s.IsDistributed y) xs ys →
      ∀ y ∈ ys, y < s.nodes.size ∧ s.IsDistributed y := by
    intro s xs ys h y hy
    obtain ⟨x, -, hxy⟩ := forall₂_exists_left h y hy
    exact ⟨hxy.1.right_lt, hxy.2⟩
  refine ⟨?_, hV.multiple_of_grown, ?_, ?_, ?_, ?_, hV.multiple, ?_⟩
  · exact fun i j s s' hg h =>
      ⟨h.1.of_grown hg, h.2.of_extends h.1.wellTyped hg.toExtends h.1.right_lt⟩
  · exact fun hs hi hsum hproduct => ⟨hV.leaf hs hi hsum hproduct,
      (isDistributed_iff hsum).2 (scaledSum?_eq_none hproduct)⟩
  · exact fun hs hi hk hys => ((hV.sum hs hi hk (hys.imp fun _ _ h => h.1)).and
      (arithmetic_distributed hs .sum (hforms hys))).imp fun j s' _ h => ⟨h.1, h.2 (.inl rfl)⟩
  · exact fun hs hi hk hys => ((hV.product hs hi hk (hys.imp fun _ _ h => h.1)).and
      (arithmetic_distributed hs .product (hforms hys))).imp
        fun j s' _ h => ⟨h.1, fun hnone => h.2 (.inr ⟨rfl, hnone⟩)⟩
  · exact fun h hnone => ⟨h.1, h.2 hnone⟩
  · intro s s' i p terms c zs hs hp hscaled hg hzs
    refine ((hV.scaled hs hp.1 hscaled hg (hzs.imp fun x z h => h.imp fun t ht => ⟨ht.1, ht.2.1⟩)).and
      (arithmetic_distributed (hg.wellTyped hs) .sum fun z hz => ?_)).imp
        fun j t _ h => ⟨h.1, h.2 (.inl rfl)⟩
    obtain ⟨x, -, t, -, htz⟩ := forall₂_exists_left hzs z hz
    exact ⟨htz.1.right_lt, htz.2⟩

end Transform

namespace Store

open Build

/-- Multiplying constants into sums ends for every expression: whatever it would do after more levels
than the number of the node, it is not asked for. It does not fail, the result is of the domain of the
expression, and neither the result nor, if that is a sum, one of its terms is a product of a sum and a
constant. -/
theorem distribution_terminates (s : Store R) (i : NodeId) (hb : s.Built fun _ _ => True)
    (hi : i < s.nodes.size) :
    ∃ j s', outcome (distributeProducts i) s = (.ok j, s') ∧
      (∀ levels > i, ∀ next : NodeId → Transform R NodeId,
        outcome ((Transform.distributeStep^[levels] next i).run' {}) s = (.ok j, s')) ∧
      j < s'.nodes.size ∧ (s'.format j).domain = (s.format i).domain ∧ ¬s'.IsScaledSum j ∧
      ∀ terms, s'.kind j = .arith .sum terms → ∀ t ∈ terms, ¬s'.IsScaledSum t := by
  have hs := hb.wellTyped_any
  obtain ⟨j, s', houtcome, hg, ⟨⟨hs', -, hj⟩, hdomain, -⟩, hdist⟩ :=
    (distributeProducts_ensures hs hi Transform.distributes_isDistributed).succeeds
  have hnot : ∀ x < s'.nodes.size, Transform.scaledSum? s' x = none → ¬s'.IsScaledSum x :=
    fun x hx hnone h => hs'.scaledSum?_of_isScaledSum hx h hnone
  refine ⟨j, s', houtcome, fun levels hlevels next => ?_, hj, ?_, hnot j hj hdist.scaledSum?_eq_none,
    fun terms hk t ht => ?_⟩
  · rw [outcome_distributeProducts hs hi hlevels next, houtcome]
  · rw [hdomain, hg.toExtends.format_eq hi]
  · exact hnot t ((hs'.operand_lt hj hk t ht).trans hj) ((isDistributed_sum hk).1 hdist t ht)

/-- Two reals and `2 * ((x + y) * x + (x + y) / 2 + 1)`. -/
def nonlinearStore : Store ℚ :=
  Store.runAll {} [
    .signal "x" (.ofMagnitude 8) .input none,
    .signal "y" (.ofMagnitude 8) .input none,
    .arithmetic .sum [.signal 0, .signal 1],
    .arithmetic .product [.node 2, .signal 0],
    .arithmetic .product [.node 2, .value (.real (1 / 2))],
    .arithmetic .sum [.node 3, .node 6, .value (.real 1)],
    .arithmetic .product [.node 9, .value (.real 2)]]

theorem distribution_terminates_nonlinear :
    (nonlinearStore.Built fun _ _ => True) ∧ 12 < nonlinearStore.nodes.size ∧
    nonlinearStore.kind 12 = .arith .product [9, 11] ∧
    nonlinearStore.kind 9 = .arith .sum [3, 6, 8] ∧
    nonlinearStore.kind 6 = .arith .product [2, 5] ∧
    ∃ j s' terms, outcome (distributeProducts 12) nonlinearStore = (.ok j, s') ∧
      (∀ levels > 12, ∀ next : NodeId → Transform ℚ NodeId,
        outcome ((Transform.distributeStep^[levels] next 12).run' {}) nonlinearStore = (.ok j, s')) ∧
      (s'.format j).domain = .real ∧ s'.kind j = .arith .sum terms ∧ terms.length = 4 ∧
      ∀ t ∈ terms, ¬s'.IsScaledSum t := by
  have hbuilt : nonlinearStore.Built fun _ _ => True := Built.empty.runAll (by decide +kernel)
  have hstore : 12 < nonlinearStore.nodes.size ∧ (nonlinearStore.format 12).domain = .real ∧
      (nonlinearStore.kind 12).arith? = some (.product, [9, 11]) ∧
      (nonlinearStore.kind 9).arith? = some (.sum, [3, 6, 8]) ∧
      (nonlinearStore.kind 6).arith? = some (.product, [2, 5]) ∧
      ((outcome (distributeProducts 12) nonlinearStore).1.toOption.bind fun j =>
        ((outcome (distributeProducts 12) nonlinearStore).2.kind j).arith?).map
          (fun a => (a.1, a.2.length)) = some (.sum, 4) := by
    decide +kernel
  obtain ⟨hlt, hreal, h12, h9, h6, hsum⟩ := hstore
  obtain ⟨j, s', hrun, hends, -, hdomain, -, hterms⟩ :=
    distribution_terminates nonlinearStore 12 hbuilt hlt
  rw [hrun] at hsum
  obtain ⟨⟨op, terms⟩, hk, hlength⟩ := Option.map_eq_some_iff.1 hsum
  obtain ⟨rfl, hlength⟩ := Prod.mk.inj hlength
  have hkind := NodeKind.arith?_eq_some.1 hk
  exact ⟨hbuilt, hlt, NodeKind.arith?_eq_some.1 h12, NodeKind.arith?_eq_some.1 h9,
    NodeKind.arith?_eq_some.1 h6, j, s', terms, hrun, hends, hdomain.trans hreal, hkind, hlength,
    hterms terms hkind⟩

end Store

end MixedSignal
