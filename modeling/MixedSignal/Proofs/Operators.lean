import MixedSignal.Proofs.Promotion

/-!
# Operators and comparisons

What an operator on nodes of one domain becomes depends on the shape of its operands: nested nodes
of the operator, constants, and selections between zeros. `Store.Combines` says it in full.
Operators fail only on no operands, and comparisons never.
-/

set_option linter.unusedSectionVars false

namespace MixedSignal

variable {R : Type} [Scalar R] {is : List NodeId} {v : Value R} {os : List (Operand R)} {i : NodeId}

/-- The value is one that a constant of the domain can have. -/
def Value.InDomain : Value R → Domain → Prop
  | .real _, d => d = .real
  | .int _, .sint => True
  | .int k, .uint => 0 ≤ k
  | .int _, .real => False

namespace Store

open Build (flattened terms known)

variable {rounding : Rounding R} {s s' : Store R} {op : ArithOp} {d : Domain}

/-- A constant of a typed store is one of the domain of its node. -/
theorem WellTyped.const_inDomain (h : s.WellTyped rounding) (hi : i < s.nodes.size)
    (hv : s.const? i = some v) : v.InDomain (s.format i).domain := by
  have hk : s.kind i = .const v := by
    revert hv
    unfold const?
    split <;> simp_all
  have ht := h.typed i hi
  rw [hk] at ht
  generalize s.format i = f at ht ⊢
  cases ht with
  | real => rfl
  | @int sg k hsg =>
    cases sg with
    | signed =>
      rw [domain_eq_sint IntFormat.tightOrFull_signedness]
      trivial
    | unsigned =>
      rw [domain_eq_uint IntFormat.tightOrFull_signedness]
      exact hsg rfl

theorem constantIn_fst (h : v.InDomain d) : (Build.constantIn v d).1 = v := by
  cases v with
  | real x =>
    obtain rfl : d = .real := h
    rfl
  | int k =>
    cases d with
    | real => exact h.elim
    | sint => rfl
    | uint => rfl

theorem constantIn_snd_domain (h : v.InDomain d) : (Build.constantIn v d).2.domain = d := by
  refine constantIn_domain ?_
  rintro rfl
  cases v with
  | real x => exact absurd h (by simp [Value.InDomain])
  | int k => exact ⟨k, rfl, h⟩

theorem foldValues_inDomain {w : Value R} (hv : v.InDomain d) (hw : w.InDomain d) :
    (Build.foldValues op v w).InDomain d := by
  cases v with
  | real x =>
    obtain rfl : d = .real := hv
    rfl
  | int a =>
    cases w with
    | real y =>
      obtain rfl : d = .real := hw
      rfl
    | int b =>
      cases d with
      | real => exact hv
      | sint => trivial
      | uint =>
        have ha : 0 ≤ a := hv
        have hb : 0 ≤ b := hw
        change 0 ≤ op.onInt a b
        cases op with
        | sum => exact add_nonneg ha hb
        | product => exact mul_nonneg ha hb
        | min => exact le_min ha hb
        | max => exact ha.trans (le_max_left a b)

/-! ## Operators on nodes of one domain -/

/-- The node is the constant of the value in the domain. -/
def IsConstant (s : Store R) (v : Value R) (d : Domain) (i : NodeId) : Prop :=
  s.node i = ⟨.const (Build.constantIn v d).1, (Build.constantIn v d).2⟩

/-- What is left of operands: the terms, and behind them the folded constant if it matters. -/
inductive Remaining (s s' : Store R) (op : ArithOp) (d : Domain) (nodes : List NodeId) :
    List NodeId → Prop
  | unfolded (h : ∀ v, known s op nodes = some v →
      Build.isIdentity op v = true ∧ terms s op nodes ≠ []) :
    Remaining s s' op d nodes (terms s op nodes)
  | folded {v c} (hv : known s op nodes = some v) (hlt : c < s'.nodes.size)
    (hc : s'.IsConstant v d c) (h : terms s op nodes = [] ∨ Build.isIdentity op v = false) :
    Remaining s s' op d nodes (terms s op nodes ++ [c])

/-- The node that an operator on nodes of one domain becomes. -/
inductive Combines (s s' : Store R) (op : ArithOp) (d : Domain) (nodes : List NodeId) (j : NodeId) :
    Prop
  /-- A product with a zero factor. -/
  | zero (hop : op = .product)
    (h : (∃ v, known s op nodes = some v ∧ v.isZero = true) ∨
      ∃ i ∈ terms s op nodes, Build.isZeroArray s i = true)
    (hj : s'.IsConstant (.int 0) d j)
  /-- A sum or product of nothing. -/
  | neutral {k} (hnodes : flattened s op nodes = [])
    (hop : op = .sum ∧ k = 0 ∨ op = .product ∧ k = 1)
    (hj : s'.IsConstant (.int k) d j)
  /-- A single operand that is left. -/
  | single (h : Remaining s s' op d nodes [j])
  /-- A node of the operator. -/
  | node {xs f} (h : Remaining s s' op d nodes xs) (hj : s'.node j = ⟨.arith op xs, f⟩)

/-- What holds of nodes and passes to the operands of the operator holds of their terms. -/
theorem of_mem_terms {P : NodeId → Prop}
    (hP : ∀ i xs, P i → s.kind i = .arith op xs → ∀ x ∈ xs, P x) {nodes : List NodeId}
    (hnodes : ∀ i ∈ nodes, P i) {x : NodeId} (hx : x ∈ terms s op nodes) : P x := by
  obtain ⟨i, hi, hxi⟩ := List.mem_flatMap.1 (List.mem_of_mem_filter hx)
  unfold Build.flatten at hxi
  split at hxi
  · rename_i inner xs hk
    split at hxi
    · rename_i heq
      subst heq
      exact hP i xs (hnodes i hi) hk x hxi
    · exact List.mem_singleton.1 hxi ▸ hnodes i hi
  · exact List.mem_singleton.1 hxi ▸ hnodes i hi

/-- What holds of nodes, of constants, and of nodes of the operator with their operands, holds of
what the operator on the nodes becomes. -/
theorem Combines.closed {P P' : NodeId → Prop} {nodes : List NodeId} {j : NodeId}
    (h : Combines s s' op d nodes j) (hj : j < s'.nodes.size)
    (hP : ∀ i xs, P i → s.kind i = .arith op xs → ∀ x ∈ xs, P x) (hPP' : ∀ i, P i → P' i)
    (hconst : ∀ v j, j < s'.nodes.size → s'.IsConstant v d j → P' j)
    (harith : ∀ xs f j, j < s'.nodes.size → s'.node j = ⟨.arith op xs, f⟩ → (∀ x ∈ xs, P' x) →
      P' j)
    (hnodes : ∀ i ∈ nodes, P i) : P' j := by
  have hterms : ∀ x ∈ terms s op nodes, P' x := fun x hx => hPP' x (of_mem_terms hP hnodes hx)
  have hrest : ∀ xs, Remaining s s' op d nodes xs → ∀ x ∈ xs, P' x := by
    intro xs hxs x hx
    cases hxs with
    | unfolded => exact hterms x hx
    | folded _ hlt hc =>
      rcases List.mem_append.1 hx with hx | hx
      · exact hterms x hx
      · obtain rfl := List.mem_singleton.1 hx
        exact hconst _ _ hlt hc
  cases h with
  | zero _ _ hc => exact hconst _ _ hj hc
  | neutral _ _ hc => exact hconst _ _ hj hc
  | single hxs => exact hrest _ hxs j (by simp)
  | node hxs hnode => exact harith _ _ j hj hnode (hrest _ hxs)

/-- The flattened operands of typed nodes exist, are in the domain of the nodes, and are not of the
operator themselves. -/
theorem WellTyped.mem_flat (h : s.WellTyped rounding) {nodes : List NodeId}
    (hn : ∀ i ∈ nodes, i < s.nodes.size ∧ (s.format i).domain = d) {x : NodeId}
    (hx : x ∈ flattened s op nodes) :
    x < s.nodes.size ∧ (s.format x).domain = d ∧ ∀ ys, s.kind x ≠ .arith op ys := by
  obtain ⟨i, hi, hxi⟩ := List.mem_flatMap.1 hx
  obtain ⟨hlt, hd⟩ := hn i hi
  unfold Build.flatten at hxi
  split at hxi
  · rename_i inner ys hk
    split at hxi
    · rename_i heq
      subst heq
      -- a nested node of the operator, whose operands are simplified already
      have ht := h.typed i hlt
      rw [hk] at ht
      have hxlt : x < s.nodes.size := by
        refine (h.below i hlt x ?_).trans hlt
        rw [children, hk]
        exact hxi
      cases ht with
      | arith hnormal hf =>
        refine ⟨hxlt, ?_, hnormal.flat x hxi⟩
        rw [← hd]
        exact Format.fold?_domain_eq (Format.arithmetic?_keepsDomain inner) hf _
          (List.mem_map_of_mem hxi)
    · rename_i hne
      obtain rfl := List.mem_singleton.1 hxi
      refine ⟨hlt, hd, fun zs hz => hne ?_⟩
      rw [hk] at hz
      cases hz
      rfl
  · rename_i hk
    obtain rfl := List.mem_singleton.1 hxi
    exact ⟨hlt, hd, fun zs hz => hk op zs hz⟩

/-- Nodes are left when operands are flattened. -/
theorem WellTyped.flat_eq_nil (h : s.WellTyped rounding) {nodes : List NodeId}
    (hn : ∀ i ∈ nodes, i < s.nodes.size) (hflat : flattened s op nodes = []) : nodes = [] := by
  cases nodes with
  | nil => rfl
  | cons i nodes =>
    rw [flattened, List.flatMap_cons, List.append_eq_nil_iff] at hflat
    exfalso
    have hi := hflat.1
    unfold Build.flatten at hi
    split at hi
    · rename_i inner ys hk
      split at hi
      · have ht := h.typed i (hn i (by simp))
        rw [hk] at ht
        cases ht with
        | arith hnormal _ =>
          have := hnormal.two_le
          simp [hi] at this
      · simp at hi
    · simp at hi

/-- The folded constant of nodes of one domain is in that domain. -/
theorem WellTyped.known_inDomain (h : s.WellTyped rounding) {nodes : List NodeId}
    (hn : ∀ i ∈ nodes, i < s.nodes.size ∧ (s.format i).domain = d) (hv : known s op nodes = some v) :
    v.InDomain d := by
  have hconst : ∀ w ∈ (flattened s op nodes).filterMap s.const?, w.InDomain d := by
    intro w hw
    obtain ⟨x, hx, hxw⟩ := List.mem_filterMap.1 hw
    obtain ⟨hlt, hd, -⟩ := h.mem_flat hn hx
    rw [← hd]
    exact h.const_inDomain hlt hxw
  unfold known at hv
  split at hv
  · cases hv
  · rename_i w ws hws
    rw [hws] at hconst
    simp only [Option.some.injEq] at hv
    subst hv
    have hw : w.InDomain d := hconst w (by simp)
    replace hconst : ∀ w ∈ ws, w.InDomain d := fun u hu => hconst u (by simp [hu])
    clear hws
    induction ws generalizing w with
    | nil => exact hw
    | cons u ws ih =>
      exact ih _ (foldValues_inDomain hw (hconst u (by simp))) fun x hx => hconst x (by simp [hx])

theorem IsConstant.domain_eq (h : s.IsConstant v d i) (hv : v.InDomain d) :
    (s.format i).domain = d := by
  rw [format, h]
  exact constantIn_snd_domain hv

theorem IsConstant.const?_eq (h : s.IsConstant v d i) (hv : v.InDomain d) :
    s.const? i = some v := by
  unfold const? kind
  rw [h, constantIn_fst hv]

theorem Remaining.of_extends {nodes xs : List NodeId} {t : Store R}
    (h : Remaining s s' op d nodes xs) (ht : s'.Extends t) : Remaining s t op d nodes xs := by
  cases h with
  | unfolded hv => exact .unfolded hv
  | folded hv hlt hc hident =>
    exact .folded hv (hlt.trans_le ht.size_le) ((ht.node_eq _ hlt).trans hc) hident

variable (h : s.WellTyped rounding) (hs : s.Grown rounding s') {nodes xs : List NodeId}
  (hn : ∀ i ∈ nodes, i < s.nodes.size ∧ (s.format i).domain = d)
  (hxs : Remaining s s' op d nodes xs)
include h hs hn hxs

/-- What is left of nodes exists. -/
theorem Remaining.lt_size : ∀ x ∈ xs, x < s'.nodes.size := by
  have hterm : ∀ x ∈ terms s op nodes, x < s'.nodes.size := fun x hx =>
    (h.mem_flat hn (List.mem_of_mem_filter hx)).1.trans_le hs.size_le
  cases hxs with
  | unfolded => exact hterm
  | folded hv hlt hc =>
    intro x hx
    rcases List.mem_append.1 hx with hx | hx
    · exact hterm x hx
    · obtain rfl := List.mem_singleton.1 hx
      exact hlt

/-- What is left of nodes of one domain is simplified, if it is at least two operands. -/
theorem Remaining.normal (htwo : 2 ≤ xs.length)
    (hzero : op = .product → ∀ v, known s op nodes = some v → v.isZero = false) :
    s'.Normal op xs ∧ ∀ x ∈ xs, (s'.format x).domain = d := by
  have hext := hs.toExtends
  have hterm : ∀ x ∈ terms s op nodes,
      (s'.format x).domain = d ∧ (∀ ys, s'.kind x ≠ .arith op ys) ∧ s'.const? x = none := by
    intro x hx
    obtain ⟨hx, hnone⟩ := List.mem_filter.1 hx
    obtain ⟨hlt, hd, hk⟩ := h.mem_flat hn hx
    refine ⟨by rw [hext.format_eq hlt, hd], by rwa [hext.kind_eq hlt], ?_⟩
    rw [hext.const?_eq hlt]
    simpa using hnone
  cases hxs with
  | unfolded hv =>
    refine ⟨⟨htwo, fun x hx => (hterm x hx).2.1,
      fun x hx => (hterm x (List.dropLast_subset _ hx)).2.2, fun x hx v hc => ?_⟩,
      fun x hx => (hterm x hx).1⟩
    rw [(hterm x hx).2.2] at hc
    cases hc
  | @folded v c hv _ hc hident =>
    have hdom := h.known_inDomain hn hv
    have hlast := hc.const?_eq hdom
    refine ⟨⟨htwo, fun x hx => ?_, fun x hx => ?_, fun x hx w hw => ?_⟩, fun x hx => ?_⟩
    · rcases List.mem_append.1 hx with hx | hx
      · exact (hterm x hx).2.1
      · obtain rfl := List.mem_singleton.1 hx
        intro ys hk
        rw [kind, hc] at hk
        cases hk
    · rw [List.dropLast_concat] at hx
      exact (hterm x hx).2.2
    · rcases List.mem_append.1 hx with hx | hx
      · rw [(hterm x hx).2.2] at hw
        cases hw
      · obtain rfl := List.mem_singleton.1 hx
        obtain rfl : v = w := by simpa [hlast] using hw
        refine ⟨hident.resolve_left ?_, fun hop => hzero hop v hv⟩
        intro hnil
        simp [hnil] at htwo
    · rcases List.mem_append.1 hx with hx | hx
      · exact (hterm x hx).1
      · obtain rfl := List.mem_singleton.1 hx
        exact hc.domain_eq hdom

end Store

namespace Build

open Store

variable {rounding : Rounding R} {s : Store R} {E : ConstructionError → Prop}

theorem isConstant_ensures (v : Value R) (d : Domain) :
    Ensures (Grown rounding) (pushConstantIn v d) s E fun j s' =>
      j < s'.nodes.size ∧ s'.IsConstant v d j :=
  pushConstantIn_ensures v d

theorem remaining_ensures (op : ArithOp) (d : Domain) (nodes : List NodeId) :
    Ensures (Grown rounding) (remaining op d (terms s op nodes) (known s op nodes)) s E
      fun xs s' => Remaining s s' op d nodes xs := by
  unfold remaining
  split
  · rename_i v hv
    split
    · rename_i hcond
      refine (isConstant_ensures v d).bind fun c t _ hc => Ensures.pure (.folded hv hc.1 hc.2 ?_)
      simpa using hcond
    · rename_i hcond
      refine Ensures.pure (.unfolded fun w hw => ?_)
      obtain rfl : v = w := by simpa [hv] using hw
      simp only [Bool.or_eq_true, not_or] at hcond
      exact ⟨by simpa using hcond.2, by simpa using hcond.1⟩
  · rename_i hnone
    refine Ensures.pure (.unfolded fun w hw => ?_)
    simp [hnone] at hw

/-- Nothing is left only of no operands. -/
theorem flattened_eq_nil {s' : Store R} {op : ArithOp} {d : Domain} {nodes : List NodeId}
    (h : Remaining s s' op d nodes []) : flattened s op nodes = [] := by
  generalize hxs : ([] : List NodeId) = xs at h
  cases h with
  | folded => simp at hxs
  | unfolded hknown =>
    have hnil : terms s op nodes = [] := hxs.symm
    by_contra hne
    obtain ⟨x, hx⟩ := List.exists_mem_of_ne_nil (flattened s op nodes) (hnil ▸ hne)
    cases hc : s.const? x with
    | none =>
      have : x ∈ terms s op nodes := List.mem_filter.2 ⟨hx, by simp [hc]⟩
      simp [hnil] at this
    | some v =>
      have hv : v ∈ (flattened s op nodes).filterMap s.const? := List.mem_filterMap.2 ⟨x, hx, hc⟩
      cases hk : known s op nodes with
      | some w => exact (hknown w hk).2 hnil
      | none =>
        unfold known at hk
        split at hk
        · rename_i hempty
          simp [hempty] at hv
        · cases hk

/-- An operator on nodes of one domain fails only if there is nothing to choose from. -/
theorem combine_ensures (hs : s.WellTyped rounding) {op : ArithOp} {d : Domain}
    {nodes : List NodeId} (hn : ∀ i ∈ nodes, i < s.nodes.size ∧ (s.format i).domain = d)
    (hE : nodes = [] → op = .min ∨ op = .max → ∀ e, E e) :
    Ensures (Grown rounding) (combine op d nodes) s E fun j s' =>
      j < s'.nodes.size ∧ Combines s s' op d nodes j := by
  unfold combine
  refine Ensures.get_bind ?_
  simp only
  split
  · rename_i hzero
    refine (isConstant_ensures (.int 0) d).imp fun j t _ hj => ⟨hj.1, .zero hzero.1 ?_ hj.2⟩
    refine hzero.2.imp (fun h => ?_) fun h => ?_
    · cases hv : known s op nodes with
      | none => simp [hv] at h
      | some v => exact ⟨v, rfl, by simpa [hv] using h⟩
    · simpa [List.any_eq_true] using h
  · rename_i hzero
    have hnz : op = .product → ∀ v, known s op nodes = some v → v.isZero = false := by
      intro hop v hv
      by_contra hz
      exact hzero ⟨hop, .inl (by simp [hv, hz])⟩
    refine (remaining_ensures op d nodes).bind fun xs t ht hxs => ?_
    have hlt := hxs.lt_size hs ht hn
    unfold assemble
    split
    · have hnil := flattened_eq_nil hxs
      cases op with
      | sum =>
        exact (isConstant_ensures (.int 0) d).imp fun j u hu hj =>
          ⟨hj.1, .neutral hnil (.inl ⟨rfl, rfl⟩) hj.2⟩
      | product =>
        exact (isConstant_ensures (.int 1) d).imp fun j u hu hj =>
          ⟨hj.1, .neutral hnil (.inr ⟨rfl, rfl⟩) hj.2⟩
      | min =>
        exact Ensures.throw (hE (hs.flat_eq_nil (fun i hi => (hn i hi).1) hnil) (.inl rfl) _)
      | max =>
        exact Ensures.throw (hE (hs.flat_eq_nil (fun i hi => (hn i hi).1) hnil) (.inr rfl) _)
    · exact Ensures.pure ⟨hlt _ (by simp), .single hxs⟩
    · rename_i hne hone
      have htwo : 2 ≤ xs.length := by
        match xs, hne, hone with
        | [], hne, _ => exact absurd rfl hne
        | [x], _, hone => exact absurd rfl (hone x)
        | _ :: _ :: _, _, _ => simp
      obtain ⟨hnormal, hdom⟩ := hxs.normal hs ht hn htwo hnz
      have hne' : xs.map t.format ≠ [] := by simpa using hne
      obtain ⟨f, hf⟩ := Format.fold?_isSome (d := d) (Format.arithmetic?_keepsDomain op) hne'
        (by simpa using hdom)
      refine (foldFormats_ensures _ _ fun h => ?_).bind fun g u _ hg => ?_
      · simp [hf] at h
      · obtain ⟨rfl, hg⟩ := hg
        exact (push_ensures (.arith hnormal hg) hlt).imp fun j w hw hj =>
          ⟨hj.1, .node (hxs.of_extends hw.toExtends) hj.2⟩

/-! ## Operators on operands -/

/-- Operands stand as nodes, and these are promoted to their largest domain. -/
structure Promoted (s : Store R) (os : List (Operand R)) (is js : List NodeId) : Prop where
  stands : List.Forall₂ (fun o i => i < s.nodes.size ∧ o.Stands s i) os is
  promotes : List.Forall₂ (fun i j => j < s.nodes.size ∧ s.Promotes (commonDomain s is) i j) is js

theorem forall₂_stands_of_grown {s s' : Store R} (h : s.Grown rounding s')
    (hos : List.Forall₂ (fun o i => i < s.nodes.size ∧ o.Stands s i) os is) :
    List.Forall₂ (fun o i => i < s'.nodes.size ∧ o.Stands s' i) os is :=
  hos.imp fun _ _ hi => ⟨hi.1.trans_le h.size_le, stands_of_grown h hi.1 hi.2⟩

theorem commonDomain_of_grown {s s' : Store R} (h : s.Grown rounding s')
    (his : ∀ i ∈ is, i < s.nodes.size) : commonDomain s' is = commonDomain s is := by
  unfold commonDomain
  generalize Domain.uint = d
  induction is generalizing d with
  | nil => rfl
  | cons i is ih =>
    rw [List.foldl_cons, List.foldl_cons, h.toExtends.format_eq (his i (by simp))]
    exact ih (fun x hx => his x (by simp [hx])) _

theorem forall₂_lt {s : Store R} {α : Type} {Q : α → NodeId → Prop} {os : List α}
    (h : List.Forall₂ (fun o i => i < s.nodes.size ∧ Q o i) os is) :
    ∀ i ∈ is, i < s.nodes.size := by
  intro i hi
  obtain ⟨_, -, hlt, -⟩ := forall₂_exists_left h i hi
  exact hlt

/-- Promoted nodes are in the largest domain. -/
theorem Promoted.domain_eq {js : List NodeId} (h : Promoted s os is js) :
    ∀ j ∈ js, j < s.nodes.size ∧ (s.format j).domain = commonDomain s is := by
  have hp := h.promotes
  generalize commonDomain s is = d at hp ⊢
  clear h
  induction hp with
  | nil => simp
  | cons hj _ ih =>
    intro j hj'
    rcases List.mem_cons.1 hj' with rfl | hj'
    · exact ⟨hj.1, hj.2.domain_eq⟩
    · exact ih j hj'

theorem Promoted.of_grown {s s' : Store R} (hs : s.WellTyped rounding) (h : s.Grown rounding s')
    {js : List NodeId} (hp : Promoted s os is js) : Promoted s' os is js := by
  have hlt := forall₂_lt hp.stands
  refine ⟨forall₂_stands_of_grown h hp.stands, ?_⟩
  rw [commonDomain_of_grown h hlt]
  refine ((List.forall₂_and_left _ _).2 ⟨hlt, hp.promotes⟩).imp fun i j ⟨hi, hj, hij⟩ => ?_
  exact ⟨hj.trans_le h.size_le, promotes_of_grown h hs hi hj hij⟩

theorem Promoted.eq_of_nodes {nodes js : List NodeId}
    (h : Promoted s (nodes.map Operand.node) is js) : is = nodes := by
  have hstands := h.stands
  rw [List.forall₂_map_left_iff] at hstands
  clear h
  induction hstands with
  | nil => rfl
  | cons hi _ ih => exact congrArg₂ List.cons hi.2 ih

/-- Nodes of one domain are promoted to themselves. -/
theorem Promoted.eq_of_domain {js : List NodeId} {d : Domain} (h : Promoted s os is js)
    (hne : is ≠ []) (hd : ∀ i ∈ is, (s.format i).domain = d) : commonDomain s is = d ∧ js = is := by
  have hcommon := commonDomain_eq hne hd
  refine ⟨hcommon, ?_⟩
  have hp := h.promotes
  rw [hcommon] at hp
  clear h hcommon hne
  induction hp with
  | nil => rfl
  | cons hj _ ih =>
    rw [hj.2.eq_of_rank_le (by rw [hd _ (by simp)]), ih fun i hi => hd i (by simp [hi])]

/-- Nodes that stand for operands are promoted to their largest domain. -/
theorem promoteAll_ensures (hs : s.WellTyped rounding)
    (hos : List.Forall₂ (fun o i => i < s.nodes.size ∧ o.Stands s i) os is) :
    Ensures (Grown rounding) (is.mapM (promote · (commonDomain s is))) s E fun js s' =>
      Promoted s' os is js := by
  have hlt := forall₂_lt hos
  refine (promoted_ensures hs hlt fun i hi => rank_le_commonDomain hi).imp fun js t ht hjs => ?_
  exact ⟨forall₂_stands_of_grown ht hos, by rwa [commonDomain_of_grown ht hlt]⟩

/-- An operator on operands fails only if there is nothing to choose from. -/
theorem arithmetic_ensures (hs : s.WellTyped rounding) {op : ArithOp} (ho : ∀ o ∈ os, o.Valid s)
    (hE : os = [] → op = .min ∨ op = .max → ∀ e, E e) :
    Ensures (Grown rounding) (arithmetic op os) s E fun j s' => j < s'.nodes.size ∧
      ∃ u is js, s.Grown rounding u ∧ u.Grown rounding s' ∧ Promoted u os is js ∧
        Combines u s' op (commonDomain u is) js j := by
  unfold arithmetic
  refine (operands_ensures hs ho).bind fun is t ht his => ?_
  refine Ensures.get_bind ?_
  refine (promoteAll_ensures (ht.wellTyped hs) his).bind fun js u hu hjs => ?_
  rw [← commonDomain_of_grown hu (forall₂_lt his)]
  refine (combine_ensures (hu.wellTyped (ht.wellTyped hs)) hjs.domain_eq fun hnil => ?_).imp
    fun j v hv hj => ⟨hj.1, u, is, js, trans_of _ ht hu, hv, hjs, hj.2⟩
  refine hE (List.eq_nil_of_length_eq_zero ?_)
  rw [hjs.stands.length_eq, hjs.promotes.length_eq, hnil]
  rfl

/-- A comparison does not fail. -/
theorem compare_ensures (hs : s.WellTyped rounding) (op : CompareOp) {a b : Operand R}
    (ha : a.Valid s) (hb : b.Valid s) :
    Ensures (Grown rounding) (compare op a b) s E fun j s' => j < s'.nodes.size ∧
      ∃ i i' k k', Promoted s' [a, b] [i, i'] [k, k'] ∧ s'.node j = ⟨.compare op k k', .bit⟩ := by
  unfold compare
  refine (operand_ensures hs ha).bind fun i t ht hi => ?_
  refine (operand_ensures (ht.wellTyped hs) (valid_of_grown ht hb)).bind fun i' t' ht' hi' => ?_
  refine Ensures.get_bind ?_
  have hst' := ht'.wellTyped (ht.wellTyped hs)
  have hstands : List.Forall₂ (fun o i => i < t'.nodes.size ∧ o.Stands t' i) [a, b] [i, i'] :=
    .cons ⟨hi.1.trans_le ht'.size_le, stands_of_grown ht' hi.1 hi.2⟩ (.cons hi' .nil)
  have hi₀ : i < t'.nodes.size := hi.1.trans_le ht'.size_le
  have hfail : ∀ x ∈ [i, i'], (commonDomain t' [i, i']).rank < (t'.format x).domain.rank →
      ∀ e, E e := fun x hx h => absurd h (not_lt.2 (rank_le_commonDomain hx))
  refine (promote_ensures hst' hi₀ (hfail i (by simp))).bind fun k u hu hk => ?_
  have hsu := hu.wellTyped hst'
  have hi'₀ : i' < u.nodes.size := hi'.1.trans_le hu.size_le
  refine (promote_ensures hsu hi'₀ ?_).bind fun k' v hv hk' => ?_
  · rw [hu.toExtends.format_eq hi'.1]
    exact hfail i' (by simp)
  have huv : t'.Grown rounding v := trans_of _ hu hv
  have hpromoted : Promoted v [a, b] [i, i'] [k, k'] := by
    refine ⟨forall₂_stands_of_grown huv hstands, ?_⟩
    rw [commonDomain_of_grown huv (forall₂_lt hstands)]
    refine .cons ⟨hk.1.trans_le hv.size_le, ?_⟩ (.cons hk' .nil)
    exact promotes_of_grown hv hsu (hi₀.trans_le hu.size_le) hk.1 hk.2
  have hdomain := hpromoted.domain_eq
  have hkk' : (v.format k).domain = (v.format k').domain :=
    (hdomain k (by simp)).2.trans (hdomain k' (by simp)).2.symm
  refine (push_ensures (.compare hkk') ?_).imp fun j w hw hj =>
    ⟨hj.1, i, i', k, k', hpromoted.of_grown (hv.wellTyped hsu) hw, hj.2⟩
  intro x hx
  simp only [operands, List.mem_cons, List.not_mem_nil, or_false] at hx
  rcases hx with rfl | rfl
  · exact (hdomain x (by simp)).1
  · exact (hdomain x (by simp)).1

end Build

end MixedSignal
