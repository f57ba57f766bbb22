import MixedSignal.Proofs.Rewriting

/-!
# How deep operators are nested

Constants are multiplied into sums from the operands up, and where a scaled sum comes about, its terms
are scaled and gone through again. No scaled term is nested deeper than the sum it comes from, so the
depth of an expression bounds the recursion, and the number of a node bounds its depth
(`Store.WellTyped.nestedAtMost_self`). Relations between nodes and their forms that the constructors keep
(`Transform.Distributes`) hold in the end, and whatever is done beyond the depth does not matter
(`Transform.distribute_agree`).
-/

set_option linter.unusedSectionVars false

namespace MixedSignal

variable {R : Type} [Scalar R] {op : ArithOp} {d : Domain}

namespace Store

open Build (terms)

variable {rounding : Rounding R} {s s' : Store R}

/-- Operators are nested at most so deep in a node. -/
def NestedAtMost (s : Store R) : Nat → NodeId → Prop
  | 0, i => ∀ op xs, s.kind i ≠ .arith op xs
  | n + 1, i => ∀ op xs, s.kind i = .arith op xs → ∀ x ∈ xs, s.NestedAtMost n x

theorem nestedAtMost_of_kind {i : NodeId} (h : ∀ op xs, s.kind i ≠ .arith op xs) (n : Nat) :
    s.NestedAtMost n i := by
  cases n with
  | zero => exact h
  | succ n => exact fun op xs hk => absurd hk (h op xs)

namespace NestedAtMost

variable {n m : Nat} {i : NodeId}

theorem mono (h : s.NestedAtMost n i) (hnm : n ≤ m) : s.NestedAtMost m i := by
  induction m generalizing n i with
  | zero =>
    obtain rfl := Nat.le_zero.1 hnm
    exact h
  | succ m ih =>
    cases n with
    | zero => exact nestedAtMost_of_kind h _
    | succ n => exact fun op xs hk x hx => ih (h op xs hk x hx) (Nat.le_of_succ_le_succ hnm)

/-- The operands of an operator are nested less deep. -/
theorem operand (h : s.NestedAtMost n i) {xs : List NodeId} (hk : s.kind i = .arith op xs) :
    ∃ m, n = m + 1 ∧ ∀ x ∈ xs, s.NestedAtMost m x := by
  cases n with
  | zero => exact absurd hk (h op xs)
  | succ m => exact ⟨m, rfl, h op xs hk⟩

end NestedAtMost

theorem Extends.nestedAtMost_iff (h : s.Extends s') (hs : s.WellTyped rounding) {n : Nat} :
    ∀ {i : NodeId}, i < s.nodes.size → (s'.NestedAtMost n i ↔ s.NestedAtMost n i) := by
  induction n with
  | zero =>
    intro i hi
    simp only [NestedAtMost, h.kind_eq hi]
  | succ n ih =>
    intro i hi
    simp only [NestedAtMost, h.kind_eq hi]
    exact forall₃_congr fun op xs hk => forall₂_congr fun x hx =>
      ih ((hs.operand_lt hi hk x hx).trans hi)

/-- The operands of a node come before it. -/
theorem WellTyped.nestedAtMost_self (hs : s.WellTyped rounding) {i : NodeId}
    (hi : i < s.nodes.size) : s.NestedAtMost i i := by
  induction i using Nat.strong_induction_on with
  | _ i ih =>
    by_cases hk : ∃ op xs, s.kind i = .arith op xs
    · obtain ⟨op, xs, hk⟩ := hk
      have hlt := hs.operand_lt hi hk
      -- there are operands, so this is not the first node
      obtain ⟨x, hx⟩ := List.exists_mem_of_length_pos
        (Nat.lt_of_lt_of_le Nat.two_pos (hs.normal hi hk).two_le)
      obtain ⟨k, rfl⟩ := Nat.exists_eq_add_one.2 (Nat.zero_lt_of_lt (hlt x hx))
      intro op' ys hk' y hy
      cases hk.symm.trans hk'
      exact (ih y (hlt y hy) ((hlt y hy).trans hi)).mono (Nat.lt_succ_iff.1 (hlt y hy))
    · exact nestedAtMost_of_kind (fun op xs h => hk ⟨op, xs, h⟩) i

/-- Promotion makes constants and conversions, if anything. -/
theorem Promotes.eq_or_kind_ne {i j : NodeId} (h : s.Promotes d i j) :
    j = i ∨ ∀ op xs, s.kind j ≠ .arith op xs := by
  have hkind : ∀ {k : NodeKind R} {f : Format R}, s.node j = ⟨k, f⟩ → s.kind j = k := by
    intro k f hj
    rw [kind, hj]
  cases h with
  | same => exact .inl rfl
  | const _ _ hj | widen _ _ hj | toReal _ _ _ hj =>
    refine .inr fun op xs hk => ?_
    rw [hkind hj] at hk
    cases hk

theorem IsConstant.nestedAtMost {v : Value R} {i : NodeId} (h : s.IsConstant v d i) (n : Nat) :
    s.NestedAtMost n i := by
  refine nestedAtMost_of_kind (fun op xs hk => ?_) n
  rw [kind, h] at hk
  cases hk

/-- An operator is nested at most one level deeper than its operands, as those of nested nodes of the
operator become its own. -/
theorem Combines.nestedAtMost {nodes : List NodeId} {j : NodeId} (h : Combines s s' op d nodes j)
    (hs : s.WellTyped rounding) (hext : s.Extends s') {n : Nat}
    (hnodes : ∀ i ∈ nodes, i < s.nodes.size ∧ s.NestedAtMost n i) : s'.NestedAtMost (n + 1) j := by
  have hterms : ∀ x ∈ terms s op nodes, s'.NestedAtMost n x := by
    intro x hx
    obtain ⟨hlt, hnested⟩ : x < s.nodes.size ∧ s.NestedAtMost n x := by
      refine of_mem_terms (fun i xs hi hk y hy => ?_) hnodes hx
      obtain ⟨m, rfl, hm⟩ := hi.2.operand hk
      exact ⟨(hs.operand_lt hi.1 hk y hy).trans hi.1, (hm y hy).mono (Nat.le_succ m)⟩
    exact (hext.nestedAtMost_iff hs hlt).2 hnested
  have hrest : ∀ xs, Remaining s s' op d nodes xs → ∀ x ∈ xs, s'.NestedAtMost n x := by
    intro xs hxs x hx
    cases hxs with
    | unfolded => exact hterms x hx
    | folded _ _ hc =>
      rcases List.mem_append.1 hx with hx | hx
      · exact hterms x hx
      · obtain rfl := List.mem_singleton.1 hx
        exact hc.nestedAtMost n
  cases h with
  | zero _ _ hc | neutral _ _ hc => exact hc.nestedAtMost _
  | single hxs => exact (hrest _ hxs j (by simp)).mono (Nat.le_succ n)
  | node hxs hj =>
    intro op' ys hk
    rw [kind, hj] at hk
    cases hk
    exact hrest _ hxs

end Store

namespace Build

open Store

variable {rounding : Rounding R} {s : Store R}

/-- A promoted operand is one of the operands, or no operator. -/
theorem Promoted.mem_or_kind_ne (hs : s.WellTyped rounding) {os : List (Operand R)}
    {is js : List NodeId} (hp : Promoted s os is js)
    (ho : ∀ x, .signal x ∈ os → x < s.signals.size) :
    ∀ k ∈ js, k < s.nodes.size ∧ (.node k ∈ os ∨ ∀ op xs, s.kind k ≠ .arith op xs) := by
  intro k hk
  obtain ⟨i, hi, hlt, hpromotes⟩ := forall₂_exists_left hp.promotes k hk
  refine ⟨hlt, ?_⟩
  rcases hpromotes.eq_or_kind_ne with rfl | hne
  · obtain ⟨o, hmem, -, hstands⟩ := forall₂_exists_left hp.stands k hi
    cases o with
    | node j =>
      obtain rfl : k = j := hstands
      exact .inl hmem
    | signal x =>
      obtain rfl : k = s.leaf x := hstands
      refine .inr fun op xs hkind => ?_
      rw [hs.leaf_kind x (ho x hmem)] at hkind
      cases hkind
    | value v =>
      refine .inr fun op xs hkind => ?_
      rw [kind, hstands] at hkind
      cases hkind
  · exact .inr hne

theorem arithmetic_nestedAtMost (hs : s.WellTyped rounding) (op : ArithOp) {os : List (Operand R)}
    (ho : ∀ o ∈ os, o.Valid s) :
    Ensures (Grown rounding) (arithmetic op os) s (fun _ => True) fun j s' =>
      j < s'.nodes.size ∧ ∀ n, (∀ i, .node i ∈ os → s.NestedAtMost n i) →
        s'.NestedAtMost (n + 1) j := by
  refine (arithmetic_ensures hs ho fun _ _ _ => trivial).imp fun j s' _ hj => ⟨hj.1, fun n hn => ?_⟩
  obtain ⟨-, u, is, js, hu, hu', hp, hcombines⟩ := hj
  have hsu := hu.wellTyped hs
  refine hcombines.nestedAtMost hsu hu'.toExtends fun k hk => ?_
  obtain ⟨hlt, hmem | hne⟩ := hp.mem_or_kind_ne hsu (fun x hx => hu.signals_eq ▸ ho _ hx) k hk
  · exact ⟨hlt, (hu.toExtends.nestedAtMost_iff hs (ho _ hmem)).2 (hn k hmem)⟩
  · exact ⟨hlt, nestedAtMost_of_kind hne n⟩

end Build

namespace Transform

open Store Build

/-- The relation `Q` between nodes and their forms is kept when constants are multiplied into sums. A
product of forms is related to the node by `P`, and it is the form unless it is a scaled sum. Terms and
their multiples are related by `M`. -/
structure Distributes (rounding : Rounding R) (E : ConstructionError → Prop)
    (Q P : NodeId → NodeId → Store R → Prop) (M : Value R → NodeId → NodeId → Store R → Prop) :
    Prop where
  of_grown : ∀ i j s s', s.Grown rounding s' → Q i j s → Q i j s'
  multiple_of_grown : ∀ c i j s s', s.Grown rounding s' → M c i j s → M c i j s'
  leaf {s i} : s.WellTyped rounding → i < s.nodes.size → (∀ xs, s.kind i ≠ .arith .sum xs) →
    (∀ xs, s.kind i ≠ .arith .product xs) → Q i i s
  sum {s i xs ys} : s.WellTyped rounding → i < s.nodes.size → s.kind i = .arith .sum xs →
    List.Forall₂ (fun x y => Q x y s) xs ys →
    Ensures (Grown rounding) (Build.sum (ys.map .node)) s E (Q i)
  product {s i xs ys} : s.WellTyped rounding → i < s.nodes.size → s.kind i = .arith .product xs →
    List.Forall₂ (fun x y => Q x y s) xs ys →
    Ensures (Grown rounding) (Build.product (ys.map .node)) s E (P i)
  unscaled {s i p} : P i p s → scaledSum? s p = none → Q i p s
  multiple {s x c} : s.WellTyped rounding → x < s.nodes.size →
    Ensures (Grown rounding) (mul (.node x) (.value c)) s E (M c x)
  scaled {s s' i p terms c zs} : s.WellTyped rounding → P i p s → scaledSum? s p = some (terms, c) →
    s.Grown rounding s' →
    List.Forall₂ (fun x z => ∃ t, M c x t s' ∧ Q t z s') terms zs →
    Ensures (Grown rounding) (Build.sum (zs.map .node)) s' E (Q i)

variable {rounding : Rounding R} {s s' : Store R} {i j : NodeId} {E : ConstructionError → Prop}
  {Q P : NodeId → NodeId → Store R → Prop} {M : Value R → NodeId → NodeId → Store R → Prop}

/-! ## Scaled sums -/

/-- A scaled sum is a product of a sum and a constant. -/
theorem scaledSum?_eq_some {terms : List NodeId} {v : Value R}
    (h : scaledSum? s i = some (terms, v)) :
    ∃ a b, s.kind i = .arith .product [a, b] ∧ s.kind a = .arith .sum terms ∧
      s.const? b = some v := by
  unfold scaledSum? at h
  split at h
  · rename_i a b hk
    split at h
    · rename_i ys w hka hw
      obtain ⟨rfl, rfl⟩ := Prod.mk.inj (Option.some.inj h)
      exact ⟨a, b, hk, hka, hw⟩
    · cases h
  · cases h

theorem scaledSum?_extends (hs : s.WellTyped rounding) (he : s.Extends s') (hi : i < s.nodes.size) :
    scaledSum? s' i = scaledSum? s i := by
  rw [scaledSum?, scaledSum?, he.kind_eq hi]
  split
  · rename_i a b hk
    have hlt : ∀ x ∈ [a, b], x < s.nodes.size := fun x hx => (hs.operand_lt hi hk x hx).trans hi
    rw [he.kind_eq (hlt a (by simp)), he.const?_eq (hlt b (by simp))]
  · rfl

/-- The terms of a scaled sum exist. -/
theorem scaledSum?_lt (hs : s.WellTyped rounding) (hi : i < s.nodes.size) {terms : List NodeId}
    {v : Value R} (h : scaledSum? s i = some (terms, v)) :
    ∀ x ∈ terms, x < s.nodes.size := by
  obtain ⟨a, b, hk, hka, -⟩ := scaledSum?_eq_some h
  have ha := (hs.operand_lt hi hk a (by simp)).trans hi
  exact fun x hx => (hs.operand_lt ha hka x hx).trans ha

/-- Where a scaled sum is nested, its terms are nested two levels less deep. -/
theorem scaledSum?_nestedAtMost {terms : List NodeId} {v : Value R}
    (h : scaledSum? s i = some (terms, v)) {n : Nat} (hn : s.NestedAtMost n i) :
    ∃ m, n = m + 2 ∧ ∀ x ∈ terms, s.NestedAtMost m x := by
  obtain ⟨a, b, hk, hka, -⟩ := scaledSum?_eq_some h
  obtain ⟨k, rfl, hab⟩ := hn.operand hk
  obtain ⟨m, rfl, hm⟩ := (hab a (by simp)).operand hka
  exact ⟨m, rfl, hm⟩

/-! ## No form is deeper -/

/-- The second node is nested no deeper than the first one with so many levels on top. -/
structure NoDeeper (rounding : Rounding R) (levels : Nat) (i j : NodeId) (s : Store R) : Prop
    extends Both rounding i j s where
  nested : ∀ n, s.NestedAtMost n i → s.NestedAtMost (n + levels) j

theorem NoDeeper.of_grown {levels : Nat} (h : NoDeeper rounding levels i j s)
    (hg : s.Grown rounding s') : NoDeeper rounding levels i j s' where
  toBoth := h.toBoth.of_grown hg
  nested n hn := by
    rw [hg.toExtends.nestedAtMost_iff h.wellTyped h.right_lt]
    exact h.nested n ((hg.toExtends.nestedAtMost_iff h.wellTyped h.left_lt).1 hn)

section

variable (hs : s.WellTyped rounding)
include hs

/-- An operator on nodes that are no deeper than those of another node. -/
theorem arith_noDeeper {ys : List NodeId} (hi : i < s.nodes.size) (hys : ∀ y ∈ ys, y < s.nodes.size)
    (hnested : ∀ n, s.NestedAtMost n i → ∃ m, n = m + 1 ∧ ∀ y ∈ ys, s.NestedAtMost m y) :
    Ensures (Grown rounding) (arithmetic op (ys.map .node)) s (fun _ => True)
      (NoDeeper rounding 0 i) := by
  refine (arithmetic_nestedAtMost hs op (List.forall_mem_map.2 hys)).imp fun j s' hg hj =>
    ⟨.of_made hs hi hg hj.1, fun n hn => ?_⟩
  obtain ⟨m, rfl, hm⟩ := hnested n ((hg.toExtends.nestedAtMost_iff hs hi).1 hn)
  exact hj.2 m (by simpa using hm)

theorem form_noDeeper {xs ys : List NodeId} (hi : i < s.nodes.size) (hk : s.kind i = .arith op xs)
    (hys : List.Forall₂ (fun x y => NoDeeper rounding 0 x y s) xs ys) :
    Ensures (Grown rounding) (arithmetic op (ys.map .node)) s (fun _ => True)
      (NoDeeper rounding 0 i) := by
  refine arith_noDeeper hs hi (fun y hy => ?_) fun n hn => ?_
  · obtain ⟨x, -, hxy⟩ := forall₂_exists_left hys y hy
    exact hxy.right_lt
  · obtain ⟨m, rfl, hm⟩ := hn.operand hk
    refine ⟨m, rfl, fun y hy => ?_⟩
    obtain ⟨x, hx, hxy⟩ := forall₂_exists_left hys y hy
    exact hxy.nested m (hm x hx)

theorem mul_noDeeper {x : NodeId} (hx : x < s.nodes.size) (c : Value R) :
    Ensures (Grown rounding) (mul (.node x) (.value c)) s (fun _ => True)
      (NoDeeper rounding 1 x) := by
  refine (arithmetic_nestedAtMost hs .product (by simpa using ⟨hx, trivial⟩)).imp fun j s' hg hj =>
    ⟨.of_made hs hx hg hj.1, fun n hn => hj.2 n fun i hi => ?_⟩
  obtain rfl : i = x := by simpa using hi
  exact (hg.toExtends.nestedAtMost_iff hs hx).1 hn

/-- The sum of the terms of a scaled sum, after they are scaled, which takes one level, and then
rewritten. -/
theorem scaledSum_noDeeper {p : NodeId} (hp : NoDeeper rounding 0 i p s) {terms zs : List NodeId}
    {c : Value R} (hscaled : scaledSum? s p = some (terms, c)) (hg : s.Grown rounding s')
    (hzs : List.Forall₂ (fun x z => ∃ t, NoDeeper rounding 1 x t s' ∧ NoDeeper rounding 0 t z s')
      terms zs) :
    Ensures (Grown rounding) (Build.sum (zs.map .node)) s' (fun _ => True)
      (NoDeeper rounding 0 i) := by
  have hp' := hp.of_grown hg
  refine arith_noDeeper hp'.wellTyped hp'.left_lt (fun z hz => ?_) fun n hn => ?_
  · obtain ⟨x, -, t, -, htz⟩ := forall₂_exists_left hzs z hz
    exact htz.right_lt
  · have hn' := (hg.toExtends.nestedAtMost_iff hs hp.left_lt).1 hn
    obtain ⟨m, rfl, hm⟩ := scaledSum?_nestedAtMost hscaled (hp.nested n hn')
    refine ⟨m + 1, rfl, fun z hz => ?_⟩
    obtain ⟨x, hx, t, hxt, htz⟩ := forall₂_exists_left hzs z hz
    have hlt := scaledSum?_lt hs hp.right_lt hscaled x hx
    exact htz.nested _ (hxt.nested m ((hg.toExtends.nestedAtMost_iff hs hlt).2 (hm x hx)))

end

/-! ## The recursion ends -/

/-- The form of a node is related to it, and the recursion ends: where it goes down further than the node
is deep, it does not matter what is done at the lowest level. -/
theorem distribute_agree (hQ : Distributes rounding E Q P M) (next : NodeId → Transform R NodeId)
    (n : Nat) :
    ∀ (fuel levels : Nat) (i : NodeId) (s : Store R), n < fuel → n < levels →
      s.WellTyped rounding → i < s.nodes.size → s.NestedAtMost n i →
      Agree rounding (fun i j s => Q i j s ∧ NoDeeper rounding 0 i j s) (distribute fuel i)
        (distributeStep^[levels] next i) s E fun j s' => Q i j s' ∧ NoDeeper rounding 0 i j s' := by
  have hgrown : ∀ i j s s', s.Grown rounding s' → Q i j s ∧ NoDeeper rounding 0 i j s →
      Q i j s' ∧ NoDeeper rounding 0 i j s' :=
    fun i j s s' hg h => ⟨hQ.of_grown i j s s' hg h.1, h.2.of_grown hg⟩
  induction n using Nat.strong_induction_on with
  | _ n ih =>
    intro fuel levels i s hfuel hlevels hs hi hn
    obtain ⟨k, rfl⟩ := Nat.exists_eq_add_one.2 (Nat.zero_lt_of_lt hfuel)
    obtain ⟨k', rfl⟩ := Nat.exists_eq_add_one.2 (Nat.zero_lt_of_lt hlevels)
    rw [distribute, Function.iterate_succ_apply', distributeStep, distributeStep]
    refine .remember (.store_bind ?_)
    have hoperands : ∀ {op xs}, s.kind i = .arith op xs →
        Agree rounding (fun i j s => Q i j s ∧ NoDeeper rounding 0 i j s) (xs.mapM (distribute k))
          (xs.mapM (distributeStep^[k'] next)) s E fun ys s' =>
            List.Forall₂ (fun x y => Q x y s' ∧ NoDeeper rounding 0 x y s') xs ys := by
      intro op xs hk
      obtain ⟨m, rfl, hm⟩ := hn.operand hk
      refine .mapM hgrown xs s fun x hx s' hg => ?_
      have hlt := (hs.operand_lt hi hk x hx).trans hi
      exact ih m (by omega) k k' x s' (by omega) (by omega) (hg.wellTyped hs)
        (hlt.trans_le hg.size_le) ((hg.toExtends.nestedAtMost_iff hs hlt).2 (hm x hx))
    split
    · rename_i xs hk
      refine (hoperands hk).bind fun ys t ht hys => ?_
      have hst := ht.wellTyped hs
      obtain ⟨hi', hk'⟩ := kind_of_grown ht hi hk
      exact .lift hgrown ((hQ.sum hst hi' hk' (hys.imp fun _ _ h => h.1)).and
        (form_noDeeper hst hi' hk' (hys.imp fun _ _ h => h.2)))
    · rename_i xs hk
      refine (hoperands hk).bind fun ys t ht hys => ?_
      have hst := ht.wellTyped hs
      obtain ⟨hi', hk'⟩ := kind_of_grown ht hi hk
      refine Agree.bind (.lift hgrown ((hQ.product hst hi' hk' (hys.imp fun _ _ h => h.1)).and
        (form_noDeeper hst hi' hk' (hys.imp fun _ _ h => h.2)))) fun p u hu hp => ?_
      refine .store_bind ?_
      split
      · rename_i terms c hscaled
        have hsu := hp.2.wellTyped
        have hterms := scaledSum?_lt hsu hp.2.right_lt hscaled
        obtain ⟨l, rfl, hnested⟩ := scaledSum?_nestedAtMost hscaled (hp.2.nested n
          (((trans_of (Grown rounding) ht hu).toExtends.nestedAtMost_iff hs hi).2 hn))
        -- a multiple is rewritten in turn, so a term and its form are related through the multiple
        refine (Agree.mapM (S := fun x z w => ∃ t, (M c x t w ∧ NoDeeper rounding 1 x t w) ∧
          Q t z w ∧ NoDeeper rounding 0 t z w) ?_ terms u fun x hx w hw => ?_).bind
          fun zs w hw hzs => ?_
        · rintro x z w w' hw ⟨t, hm, hz⟩
          exact ⟨t, ⟨hQ.multiple_of_grown c x t w w' hw hm.1, hm.2.of_grown hw⟩,
            hgrown t z w w' hw hz⟩
        · have hsw := hw.wellTyped hsu
          have hxw := (hterms x hx).trans_le hw.size_le
          refine Agree.bind (.lift hgrown ((hQ.multiple hsw hxw).and (mul_noDeeper hsw hxw c)))
            fun t v hv hm => ?_
          -- a scaled term takes one level more than the term, which has two less than the product
          have hwv := trans_of (Grown rounding) hw hv
          have ht := hm.2.nested l ((hwv.toExtends.nestedAtMost_iff hsu (hterms x hx)).2
            (hnested x hx))
          refine (ih (l + 1) (by omega) k k' t v (by omega) (by omega) hm.2.wellTyped hm.2.right_lt
            ht).imp fun z v' hv' hz => ?_
          exact ⟨t, ⟨hQ.multiple_of_grown c x t v v' hv' hm.1, hm.2.of_grown hv'⟩, hz⟩
        · refine .lift hgrown ((hQ.scaled hsu hp.1 hscaled hw (hzs.imp ?_)).and
            (scaledSum_noDeeper hsu hp.2 hscaled hw (hzs.imp ?_)))
          · exact fun x z h => h.imp fun t ht => ⟨ht.1.1, ht.2.1⟩
          · exact fun x z h => h.imp fun t ht => ⟨ht.1.2, ht.2.2⟩
      · exact .pure ⟨hQ.unscaled hp.1 ‹_›, hp.2⟩
    · exact .pure ⟨hQ.leaf hs hi ‹_› ‹_›, ⟨⟨hs, hi, hi⟩, fun _ => id⟩⟩

theorem distributes_exists :
    Distributes (R := R) rounding (fun _ => True) Exists Exists fun _ => Exists where
  of_grown := relates_exists.of_grown
  multiple_of_grown _ := relates_exists.of_grown
  leaf _ h _ _ := h
  sum := relates_exists.arith
  product := relates_exists.arith
  unscaled h _ := h
  multiple := by
    intro s x c hs hx
    refine arithmetic_makes hs .product ?_
    simpa using ⟨hx, trivial⟩
  scaled := by
    intro s s' i p terms c zs hs hp hscaled hs' hzs
    refine arithmetic_makes (hs'.wellTyped hs) .sum (valid_of_forall₂ hzs ?_)
    rintro x z ⟨t, -, hz⟩
    exact hz

end Transform

namespace Build

open Store Transform

variable {rounding : Rounding R} {s : Store R} {i : NodeId} {E : ConstructionError → Prop}
  {Q P : NodeId → NodeId → Store R → Prop} {M : Value R → NodeId → NodeId → Store R → Prop}
  {levels : Nat} (hs : s.WellTyped rounding) (hi : i < s.nodes.size)
include hs hi

theorem distributeProducts_agree (hQ : Distributes rounding E Q P M) (hlevels : i < levels)
    (next : NodeId → Transform R NodeId) :
    outcome ((distributeStep^[levels] next i).run' {}) s = outcome (distributeProducts i) s ∧
      Ensures (Grown rounding) (distributeProducts i) s E fun j s' =>
        Q i j s' ∧ NoDeeper rounding 0 i j s' :=
  (distribute_agree hQ next i (i + 2) levels i s (by omega) hlevels hs hi
    (hs.nestedAtMost_self hi)).run'

theorem distributeProducts_ensures (hQ : Distributes rounding E Q P M) :
    Ensures (Grown rounding) (distributeProducts i) s E (Q i) :=
  (distributeProducts_agree hs hi hQ i.lt_succ_self pure).2.imp fun _ _ _ h => h.1

/-- Constants are multiplied into sums however many levels beyond its number a node is given, and
whatever is done at the lowest. -/
theorem outcome_distributeProducts (hlevels : i < levels) (next : NodeId → Transform R NodeId) :
    outcome ((distributeStep^[levels] next i).run' {}) s = outcome (distributeProducts i) s :=
  (distributeProducts_agree hs hi distributes_exists hlevels next).1

theorem distributeProducts_makes : Makes rounding s (distributeProducts i) :=
  distributeProducts_ensures hs hi distributes_exists

end Build

end MixedSignal
