import MixedSignal.Proofs.Valuation

/-!
# Resolving case tables

Resolving the tables of an expression by a setting of some selectors never fails. It keeps the
domain of the expression and its value wherever the bits agree with the setting, and it leaves no
table that the setting decides. An expression is rebuilt by constructors that simplify; that they
keep values is argued for every domain whose operators depend neither on order nor on grouping
(`Arithmetic`).
-/

set_option linter.unusedSectionVars false

namespace MixedSignal

/-! ## What the constructors make -/

namespace Store

variable {R α : Type} [Scalar R] {rounding : Rounding R} {s s' : Store R} {σ : Valuation R}
  {setting : SignalId → Option Bool} {d : Domain} {π : Value R → α} {f : ArithOp → α → α → α}
  {z : α} {op : ArithOp}

/-- No table that the setting decides is left in the expression. -/
inductive Resolved (s : Store R) (setting : SignalId → Option Bool) : NodeId → Prop
  | intro {i}
    (table : ∀ xs selectors, s.kind i = .cases xs selectors → selectors.mapM setting = none)
    (parts : ∀ x ∈ parts (s.kind i), Resolved s setting x) : Resolved s setting i

theorem Resolved.parts_resolved {i : NodeId} (h : s.Resolved setting i) :
    ∀ x ∈ parts (s.kind i), s.Resolved setting x := by
  cases h with
  | intro _ hparts => exact hparts

theorem Resolved.of_extends (hs : s.WellTyped rounding) (he : s.Extends s') {i : NodeId}
    (hi : i < s.nodes.size) (h : s.Resolved setting i) : s'.Resolved setting i := by
  induction h with
  | intro htable _ ih =>
    refine .intro ?_ ?_
    · rw [he.kind_eq hi]
      exact htable
    · rw [he.kind_eq hi]
      exact fun x hx => ih x hx ((hs.parts_lt hi x hx).trans hi)

theorem resolved_of_const? {i : NodeId} {v : Value R} (h : s.const? i = some v) :
    s.Resolved setting i := by
  have hkind : s.kind i = .const v := congrArg Node.kind (Denotes.node_of_const? h)
  refine .intro (fun xs selectors hk => ?_) ?_
  · rw [hkind] at hk
    cases hk
  · rw [hkind]
    simp [parts]

/-- The node exists and is of the domain, its tables are resolved, and its value is seen as `a`. -/
structure Shows (s : Store R) (σ : Valuation R) (setting : SignalId → Option Bool) (d : Domain)
    (π : Value R → α) (i : NodeId) (a : α) : Prop where
  lt : i < s.nodes.size
  domain : (s.format i).domain = d
  resolved : s.Resolved setting i
  eq : π (s.exact σ i) = a

/-- What an operator on resolved nodes of the domain becomes is resolved and of the domain, and its
value is what the operator makes of their values. -/
theorem Shows.of_combines (hs : s.WellTyped rounding) (hg : s.Grown rounding s')
    (hA : Arithmetic d π f z) {nodes : List NodeId}
    (hnodes : ∀ x ∈ nodes, x < s.nodes.size ∧ (s.format x).domain = d ∧ s.Resolved setting x)
    {j : NodeId} (hj : j < s'.nodes.size) (h : Combines s s' op d nodes j) {a : α}
    (ha : reduce (f op) ((nodes.map (s.exact σ)).map π) = some a) :
    s'.Shows σ setting d π j a := by
  have hseen := SeenAs.of_combines hs hg hA (fun x hx => ⟨(hnodes x hx).1, (hnodes x hx).2.1⟩) hj h ha
  have hresolved : s'.Resolved setting j := by
    refine h.closed (P := fun x => x < s.nodes.size ∧ s.Resolved setting x) hj ?_ ?_ ?_ ?_
      fun x hx => ⟨(hnodes x hx).1, (hnodes x hx).2.2⟩
    · rintro i xs ⟨hi, hresolved⟩ hk x hx
      have hpart : x ∈ parts (s.kind i) := by
        rw [hk]
        exact hx
      exact ⟨(hs.parts_lt hi x hpart).trans hi, hresolved.parts_resolved x hpart⟩
    · exact fun i hi => hi.2.of_extends hs hg.toExtends hi.1
    · intro v k _ hconst
      exact resolved_of_const? (v := (Build.constantIn v d).1) (by rw [const?, kind, hconst])
    · intro xs g k _ hnode hxs
      have hk : s'.kind k = .arith op xs := by rw [kind, hnode]
      refine .intro (fun ys selectors hk' => ?_) fun x hx => ?_
      · rw [hk] at hk'
        cases hk'
      · rw [hk] at hx
        exact hxs x hx
  exact ⟨hseen.lt, hseen.domain, hresolved, hseen.eq⟩

/-- Elements that are all the same have the same value. -/
theorem WellTyped.exact_of_allSame (hs : s.WellTyped rounding) (hA : Arithmetic d π f z)
    {xs : List NodeId} (hxs : ∀ x ∈ xs, x < s.nodes.size ∧ (s.format x).domain = d)
    {first : NodeId} (hfirst : first ∈ xs) (h : Build.allSame s first xs = true) {x : NodeId}
    (hx : x ∈ xs) : π (s.exact σ first) = π (s.exact σ x) := by
  have hinDomain : ∀ y ∈ xs, ∀ v, s.const? y = some v → v.InDomain d := by
    intro y hy v hv
    rw [← (hxs y hy).2]
    exact hs.const_inDomain (hxs y hy).1 hv
  have hsame := List.all_eq_true.1 h x hx
  simp only [Bool.or_eq_true] at hsame
  rcases hsame with heq | hconst
  · rw [eq_of_beq heq]
  · split at hconst
    · rename_i v w hv hw
      rw [exact_of_const? hv, exact_of_const? hw]
      exact (hA.same w v (hinDomain x hx w hw) (hinDomain first hfirst v hv) hconst).symm
    · cases hconst

end Store

/-! ## Rewriting -/

namespace Transform

open Store Build

variable {R α : Type} [Scalar R] {rounding : Rounding R} {s s' : Store R} {σ : Valuation R}
  {setting : SignalId → Option Bool} {d : Domain} {π : Value R → α} {f : ArithOp → α → α → α}
  {z : α} {i j : NodeId}

/-- The second node is the first with its tables resolved. In the domain `d` it has the same value,
seen through `π`, wherever the bits agree with the setting. -/
structure Resolution (rounding : Rounding R) (σ : Valuation R) (setting : SignalId → Option Bool)
    (d : Domain) (π : Value R → α) (i j : NodeId) (s : Store R) : Prop
    extends Both rounding i j s where
  domain : (s.format j).domain = (s.format i).domain
  resolved : s.Resolved setting j
  eq : σ.Agrees setting → (s.format i).domain = d → π (s.exact σ j) = π (s.exact σ i)

namespace Resolution

theorem of_grown (hg : s.Grown rounding s') (h : Resolution rounding σ setting d π i j s) :
    Resolution rounding σ setting d π i j s' where
  toBoth := h.toBoth.of_grown hg
  domain := by
    rw [hg.toExtends.format_eq h.right_lt, hg.toExtends.format_eq h.left_lt, h.domain]
  resolved := h.resolved.of_extends h.wellTyped hg.toExtends h.right_lt
  eq hσ hd := by
    rw [hg.toExtends.format_eq h.left_lt] at hd
    rw [h.wellTyped.exact_extends hg.toExtends j h.right_lt,
      h.wellTyped.exact_extends hg.toExtends i h.left_lt, h.eq hσ hd]

variable {xs ys : List NodeId}

/-- The resolved forms of what a node passes values on from. -/
theorem forms (hs : s.WellTyped rounding) (hi : i < s.nodes.size) (hparts : parts (s.kind i) = xs)
    (h : List.Forall₂ (fun x y => Resolution rounding σ setting d π x y s) xs ys) :
    ∀ y ∈ ys, y < s.nodes.size ∧ (s.format y).domain = (s.format i).domain ∧
      s.Resolved setting y := by
  intro y hy
  obtain ⟨x, hx, hxy⟩ := forall₂_exists_left h y hy
  refine ⟨hxy.right_lt, ?_, hxy.resolved⟩
  rw [hxy.domain, hs.parts_domain hi x (hparts ▸ hx)]

theorem map_eq (hs : s.WellTyped rounding) (hi : i < s.nodes.size)
    (hparts : ∀ x ∈ xs, x ∈ parts (s.kind i)) (hσ : σ.Agrees setting)
    (hd : (s.format i).domain = d)
    (h : List.Forall₂ (fun x y => Resolution rounding σ setting d π x y s) xs ys) :
    (ys.map (s.exact σ)).map π = (xs.map (s.exact σ)).map π := by
  induction h with
  | nil => rfl
  | @cons x y xs ys hxy _ ih =>
    have hx := (hs.parts_domain hi x (hparts x (by simp))).trans hd
    simp only [List.map_cons]
    rw [hxy.eq hσ hx, ih fun w hw => hparts w (by simp [hw])]

theorem ne_nil (h : List.Forall₂ (fun x y => Resolution rounding σ setting d π x y s) xs ys)
    (hxs : xs ≠ []) : ys ≠ [] := by
  rintro rfl
  exact hxs (List.forall₂_nil_right_iff.1 h)

/-- A node that passes a value on from resolved forms is resolved, and is of the domain of the node
that they are the forms of. -/
theorem of_parts (hs : s.WellTyped rounding) (hi : i < s.nodes.size) (hg : s.Grown rounding s')
    (hj : j < s'.nodes.size) (hne : ys ≠ []) (hparts : parts (s'.kind j) = ys)
    (hys : ∀ y ∈ ys, y < s.nodes.size ∧ (s.format y).domain = (s.format i).domain ∧
      s.Resolved setting y)
    (htable : ∀ zs selectors, s'.kind j = .cases zs selectors → selectors.mapM setting = none)
    (heq : σ.Agrees setting → (s.format i).domain = d →
      π (s'.exact σ j) = π (s.exact σ i)) : Resolution rounding σ setting d π i j s' := by
  have hs' := hg.wellTyped hs
  have hext := hg.toExtends
  refine ⟨.of_made hs hi hg hj, ?_, .intro htable fun y hy => ?_, fun hσ hd => ?_⟩
  · obtain ⟨y, hy⟩ := List.exists_mem_of_ne_nil ys hne
    rw [← hs'.parts_domain hj y (hparts ▸ hy), hext.format_eq (hys y hy).1, (hys y hy).2.1,
      hext.format_eq hi]
  · obtain ⟨hlt, -, hresolved⟩ := hys y (hparts ▸ hy)
    exact hresolved.of_extends hs hext hlt
  · rw [hext.format_eq hi] at hd
    rw [heq hσ hd, hs.exact_extends hext i hi]

theorem valid (h : List.Forall₂ (fun x y => Resolution rounding σ setting d π x y s) xs ys) :
    ∀ o ∈ ys.map Operand.node, o.Valid s :=
  valid_of_forall₂ h fun _ _ hxy => hxy.right_lt

/-! ### One node -/

/-- An operator on resolved operands does not fail. -/
theorem arithmetic_resolution (hA : Arithmetic d π f z) (hs : s.WellTyped rounding)
    (hi : i < s.nodes.size) {op : ArithOp} (hk : s.kind i = .arith op xs)
    (hys : List.Forall₂ (fun x y => Resolution rounding σ setting d π x y s) xs ys) :
    Ensures (Grown rounding) (arithmetic op (ys.map .node)) s (fun _ => False)
      (Resolution rounding σ setting d π i) := by
  have hxs := hs.operands_ne_nil hi hk
  have hne := ne_nil hys hxs
  have hparts : parts (s.kind i) = xs := by rw [hk]; rfl
  have hforms := forms hs hi hparts hys
  refine (nodes_ensures hs op hne fun y hy => ⟨(hforms y hy).1, (hforms y hy).2.1⟩).imp
    fun j s' hg hj => ?_
  obtain ⟨hlt, u, hu, hu', hcomb⟩ := hj
  have hsu := hu.wellTyped hs
  have hext := hg.toExtends
  have hforms' : ∀ y ∈ ys, y < u.nodes.size ∧ (u.format y).domain = (s.format i).domain ∧
      u.Resolved setting y := by
    intro y hy
    obtain ⟨hylt, hydomain, hyresolved⟩ := hforms y hy
    exact ⟨hylt.trans_le hu.size_le, by rw [hu.toExtends.format_eq hylt, hydomain],
      hyresolved.of_extends hs hu.toExtends hylt⟩
  have hmap : ys.map (u.exact σ) = ys.map (s.exact σ) :=
    List.map_congr_left fun y hy => hs.exact_extends hu.toExtends y (hforms y hy).1
  -- the shape of the result does not depend on values
  have hshape : s'.Shows σ setting (s.format i).domain (fun _ => ()) j () :=
    Shows.of_combines hsu hu' (Arithmetic.unit _) hforms' hlt hcomb
      ((Arithmetic.unit (R := R) _).eval op (s.format i) _ rfl (by simpa using hne))
  refine ⟨.of_made hs hi hg hlt, ?_, hshape.resolved, fun hσ hd => ?_⟩
  · rw [hshape.domain, hext.format_eq hi]
  · rw [hext.format_eq hi] at hd
    have hreduce : reduce (f op) ((ys.map (u.exact σ)).map π) = some (π (s.exact σ i)) := by
      rw [hmap, map_eq hs hi (fun x hx => hparts ▸ hx) hσ hd hys,
        hA.eval op (s.format i) _ hd (by simpa using hxs), hs.exact_arith hi hk]
    rw [hd] at hforms' hcomb
    rw [(Shows.of_combines hsu hu' hA hforms' hlt hcomb hreduce).eq, hs.exact_extends hext i hi]

/-- A selection between resolved elements does not fail. -/
theorem array_resolution (hA : Arithmetic d π f z) (hs : s.WellTyped rounding)
    (hi : i < s.nodes.size) {a : NodeId} (hk : s.kind i = .select xs a)
    (hys : List.Forall₂ (fun x y => Resolution rounding σ setting d π x y s) xs ys) :
    Ensures (Grown rounding) (array (ys.map .node) (.node a)) s (fun _ => False)
      (Resolution rounding σ setting d π i) := by
  have ha : a < i := hs.below i hi a (by simp [children, hk, operands])
  have hparts : parts (s.kind i) = xs := by rw [hk]; rfl
  have hforms := forms hs hi hparts hys
  obtain ⟨e, he, hexact⟩ := hs.exact_select (σ := σ) hi hk
  obtain ⟨y, hy, hey⟩ := forall₂_getElem?_left hys.flip he
  have hymem := List.mem_of_getElem? hy
  have hne : ys ≠ [] := List.ne_nil_of_mem hymem
  have hedomain := hs.parts_domain hi e (hparts ▸ List.mem_of_getElem? he)
  have haddresses : Addresses (s.format a) (ys.map (Operand.node (R := R))).length := by
    obtain ⟨w, ⟨r, hr⟩, hlt, hlength⟩ := hs.select_unsigned hi hk
    exact ⟨w, r, hr, hlt, by rw [List.length_map, ← hys.length_eq, hlength]⟩
  refine (array_ensures (a := .node a) hs (valid hys) (ha.trans hi)
    fun h => absurd haddresses h).imp fun j s' hg hj => ?_
  obtain ⟨hlt, u, is, js, i', w, hu, hu', hp, -, hstands, -, -, hsel⟩ := hj
  obtain rfl : i' = a := hstands
  obtain ⟨-, rfl⟩ :=
    hp.eq_of_nodes_domain hu hne fun y hy => ⟨(hforms y hy).1, (hforms y hy).2.1⟩
  have hext := hg.toExtends
  cases hsel with
  | same hhead hsame =>
    have hjmem := List.mem_of_mem_head? hhead
    obtain ⟨hjlt, hjdomain, hjresolved⟩ := hforms j hjmem
    refine of_grown hg ⟨⟨hs, hi, hjlt⟩, hjdomain, hjresolved, fun hσ hd => ?_⟩
    rw [hu.toExtends.allSame_eq hjlt fun x hx => (hforms x hx).1] at hsame
    rw [hexact, ← hey.eq hσ (hedomain.trans hd)]
    exact hs.exact_of_allSame hA (fun x hx => ⟨(hforms x hx).1, (hforms x hx).2.1.trans hd⟩)
      hjmem hsame hymem
  | node hnode =>
    have hkind : s'.kind j = .select js i' := by rw [kind, hnode]
    refine of_parts hs hi hg hlt hne (by rw [hkind]; rfl) hforms
      (fun zs selectors hz => by rw [hkind] at hz; cases hz) fun hσ hd => ?_
    obtain ⟨e', he', hexact'⟩ := (hg.wellTyped hs).exact_select (σ := σ) hlt hkind
    have haddress : s'.word i' (s'.exact σ i') = s.word i' (s.exact σ i') := by
      rw [hs.exact_extends hext i' (ha.trans hi), word, word, hext.width_eq (ha.trans hi)]
    rw [haddress, hy] at he'
    obtain rfl : y = e' := Option.some.inj he'
    rw [hexact', hs.exact_extends hext y hey.right_lt, hey.eq hσ (hedomain.trans hd), hexact]

/-- A table of resolved cases does not fail. -/
theorem eqnCase_resolution (hs : s.WellTyped rounding) (hi : i < s.nodes.size)
    {selectors : List SignalId} (hk : s.kind i = .cases xs selectors)
    (hnone : selectors.mapM setting = none)
    (hys : List.Forall₂ (fun x y => Resolution rounding σ setting d π x y s) xs ys) :
    Ensures (Grown rounding) (eqnCase (ys.map .node) selectors) s (fun _ => False)
      (Resolution rounding σ setting d π i) := by
  have hparts : parts (s.kind i) = xs := by rw [hk]; rfl
  have hforms := forms hs hi hparts hys
  obtain ⟨c, hc, hexact⟩ := hs.exact_cases (σ := σ) hi hk
  obtain ⟨y, hy, hcy⟩ := forall₂_getElem?_left hys.flip hc
  have hne : ys ≠ [] := List.ne_nil_of_mem (List.mem_of_getElem? hy)
  have hcdomain := hs.parts_domain hi c (hparts ▸ List.mem_of_getElem? hc)
  have htable : IsTable s selectors (ys.map (Operand.node (R := R))).length := by
    have ht := hs.typed i hi
    rw [hk] at ht
    cases ht with
    | cases _ hbit hlt hlength =>
      exact ⟨hbit, hlt, by rw [List.length_map, ← hys.length_eq, hlength]⟩
  refine (eqnCase_ensures hs (valid hys) (hs.selector_lt hi hk) fun h => absurd htable h).imp
    fun j s' hg hj => ?_
  obtain ⟨hlt, u, is, js, g, hu, hu', hp, hnode⟩ := hj
  obtain ⟨-, rfl⟩ :=
    hp.eq_of_nodes_domain hu hne fun y hy => ⟨(hforms y hy).1, (hforms y hy).2.1⟩
  have hkind : s'.kind j = .cases js selectors := by rw [kind, hnode]
  refine of_parts hs hi hg hlt hne (by rw [hkind]; rfl) hforms
    (fun zs selectors' hz => ?_) fun hσ hd => ?_
  · rw [hkind] at hz
    cases hz
    exact hnone
  · obtain ⟨c', hc', hexact'⟩ := (hg.wellTyped hs).exact_cases (σ := σ) hlt hkind
    rw [hy] at hc'
    obtain rfl : y = c' := Option.some.inj hc'
    rw [hexact', hs.exact_extends hg.toExtends y hcy.right_lt, hcy.eq hσ (hcdomain.trans hd),
      hexact]

end Resolution

theorem parts_of_kept {kind : NodeKind R} (h : Kept kind) : parts kind = [] := by
  cases kind <;> first | rfl | exact h.elim

theorem resolves_resolution (hA : Arithmetic d π f z) :
    Resolves rounding (fun _ => False) setting (Resolution rounding σ setting d π) where
  of_grown _ _ _ _ hg h := h.of_grown hg
  lt _ _ _ h := h.right_lt
  kept := by
    intro s i hs hi hk
    refine ⟨⟨hs, hi, hi⟩, rfl, .intro (fun xs selectors hcases => ?_) fun x hx => ?_,
      fun _ _ => rfl⟩
    · rw [hcases] at hk
      exact hk.elim
    · rw [parts_of_kept hk] at hx
      cases hx
  arith hs hi hk hys := Resolution.arithmetic_resolution hA hs hi hk hys
  select hs hi hk hys := Resolution.array_resolution hA hs hi hk hys
  table hs hi hk hnone hys := Resolution.eqnCase_resolution hs hi hk hnone hys
  case := by
    intro s i xs selectors bits c j hs hi hk hbits hc h
    have hcdomain := hs.parts_domain hi c (by rw [hk]; exact List.mem_of_getElem? hc)
    refine ⟨⟨hs, hi, h.right_lt⟩, h.domain.trans hcdomain, h.resolved, fun hσ hd => ?_⟩
    obtain ⟨c', hc', hexact⟩ := hs.exact_cases (σ := σ) hi hk
    rw [map_bit_eq hσ hbits, hc] at hc'
    obtain rfl : c = c' := Option.some.inj hc'
    rw [h.eq hσ (hcdomain.trans hd), hexact]

end Transform

/-! ## Expressions -/

namespace Store

open Transform Build

section

variable {R : Type} [Scalar R] {rounding : Rounding R} {s s' : Store R}
  {setting : SignalId → Option Bool} {i j : NodeId}

/-- Tables are resolved without failure, and the domain stays. Nothing is asked of the scalars. -/
theorem WellTyped.exists_resolveCases (hs : s.WellTyped rounding) (setting : SignalId → Option Bool)
    (hi : i < s.nodes.size) :
    ∃ j s', outcome (resolveCases setting i) s = (.ok j, s') ∧ j < s'.nodes.size ∧
      (s'.format j).domain = (s.format i).domain ∧ s'.Resolved setting j := by
  have hrun : Ensures (Grown rounding) (resolveCases setting i) s (fun _ => False)
      (Resolution rounding ⟨fun _ => .int 0, fun _ => 0⟩ setting (s.format i).domain
        (fun _ => ()) i) :=
    resolveCases_ensures (resolves_resolution (Arithmetic.unit _)) hs hi
  obtain ⟨j, s', houtcome, hg, hj⟩ := hrun.succeeds
  exact ⟨j, s', houtcome, hj.right_lt, by rw [hj.domain, hg.toExtends.format_eq hi], hj.resolved⟩

/-- The resolved expression has the value of the expression, if `π` tells the values of its domain
apart. -/
theorem WellTyped.exact_resolveCases {α : Type} {π : Value R → α} {f : ArithOp → α → α → α} {z : α}
    (hs : s.WellTyped rounding) (hi : i < s.nodes.size)
    (hrun : outcome (resolveCases setting i) s = (.ok j, s'))
    (hA : Arithmetic (s.format i).domain π f z)
    (hπ : ∀ v w, v.OfDomain (s.format i).domain → w.OfDomain (s.format i).domain → π v = π w →
      v = w)
    {σ : Valuation R} (hσ : σ.Respects s) (hagrees : σ.Agrees setting) :
    s'.exact σ j = s.exact σ i := by
  obtain ⟨hg, h⟩ := (resolveCases_ensures (resolves_resolution (σ := σ) hA) hs hi).elim_ok hrun
  have hformat := hg.toExtends.format_eq hi
  have hσ' : σ.Respects s' := by
    intro x hx
    rw [signal, hg.signals_eq] at *
    exact hσ x hx
  have hleft := h.wellTyped.exact_ofDomain hσ' j h.right_lt
  rw [h.domain, hformat] at hleft
  have heq := h.eq hagrees (congrArg Format.domain hformat)
  rw [hs.exact_extends hg.toExtends i hi] at heq
  exact hπ _ _ hleft (hs.exact_ofDomain hσ i hi) heq

theorem WellTyped.exact_resolveCases_int (hs : s.WellTyped rounding) (hi : i < s.nodes.size)
    (hrun : outcome (resolveCases setting i) s = (.ok j, s')) (hd : (s.format i).domain ≠ .real)
    {σ : Valuation R} (hσ : σ.Respects s) (hagrees : σ.Agrees setting) :
    s'.exact σ j = s.exact σ i := by
  refine hs.exact_resolveCases hi hrun (Arithmetic.int hd) (fun v w hv hw h => ?_) hσ hagrees
  exact Value.eq_of_toInt_eq hd hv hw h

end

theorem WellTyped.exact_resolveCases_real {R : Type} [ExactScalar R] {rounding : Rounding R}
    {s s' : Store R} {setting : SignalId → Option Bool} {i j : NodeId} (hs : s.WellTyped rounding)
    (hi : i < s.nodes.size) (hrun : outcome (resolveCases setting i) s = (.ok j, s'))
    (hd : (s.format i).domain = .real) {σ : Valuation R} (hσ : σ.Respects s)
    (hagrees : σ.Agrees setting) : s'.exact σ j = s.exact σ i := by
  refine hs.exact_resolveCases hi hrun (hd ▸ Arithmetic.real) (fun v w hv hw h => ?_) hσ hagrees
  rw [hd] at hv hw
  exact Value.eq_of_toScalar_eq hv hw h

/-- Resolving case tables by a setting of some selectors never fails. It keeps the domain, and the
value under every valuation that agrees with the setting, and no table is left that the setting
decides. Reals keep their values if arithmetic is exact. Values are those of the simulator, where it
has one and nothing is out of range. -/
theorem resolveCases_exact :
    (∀ (R : Type) [Scalar R] (s : Store R) (i : NodeId) (setting : SignalId → Option Bool),
      (s.Built fun _ _ => True) → i < s.nodes.size →
      ∃ j s', outcome (resolveCases setting i) s = (.ok j, s') ∧ j < s'.nodes.size ∧
        (s'.format j).domain = (s.format i).domain ∧ s'.Resolved setting j ∧
        ((s.format i).domain ≠ .real → ∀ σ : Valuation R, σ.Respects s → σ.Agrees setting →
          s'.exact σ j = s.exact σ i)) ∧
    (∀ (R : Type) [ExactScalar R] (s : Store R) (i : NodeId) (setting : SignalId → Option Bool),
      (s.Built fun _ _ => True) → i < s.nodes.size →
      ∃ j s', outcome (resolveCases setting i) s = (.ok j, s') ∧
        ∀ σ : Valuation R, σ.Respects s → σ.Agrees setting → s'.exact σ j = s.exact σ i) ∧
    ∀ (R : Type) [Scalar R] (s : Store R) (i : NodeId) (σ : Valuation R),
      (s.Built fun _ _ => True) → i < s.nodes.size → s.SignalsFit →
      (∀ j ∈ s.occurrences i, s.Safe σ.signal j) → s.eval σ.signal i = .ok (s.exact σ i) := by
  refine ⟨fun R _ s i setting hb hi => ?_, fun R _ s i setting hb hi => ?_,
    fun R _ s i σ hb hi hsig hsafe => ?_⟩
  · have hs := hb.wellTyped_any
    obtain ⟨j, s', hrun, hj, hdomain, hresolved⟩ := hs.exists_resolveCases setting hi
    exact ⟨j, s', hrun, hj, hdomain, hresolved, fun hd σ hσ hagrees =>
      hs.exact_resolveCases_int hi hrun hd hσ hagrees⟩
  · have hs := hb.wellTyped_any
    obtain ⟨j, s', hrun, -⟩ := hs.exists_resolveCases setting hi
    refine ⟨j, s', hrun, fun σ hσ hagrees => ?_⟩
    by_cases hd : (s.format i).domain = .real
    · exact hs.exact_resolveCases_real hi hrun hd hσ hagrees
    · exact hs.exact_resolveCases_int hi hrun hd hσ hagrees
  · have hs := hb.wellTyped_any
    exact hs.eval_eq_exact (fun _ _ => Rounding.any_fits) hsig i hi hsafe

/-- Two bits, an integer, and a table within the cases of another one, also below an operator. Both
tables read the second bit. -/
def nestedStore : Store ℚ :=
  Store.runAll {} [
    .signal "hold" .bit .input none,
    .signal "fast" .bit .input none,
    .signal "x" (.int (.full .signed 8)) .input none,
    .eqnCase [.signal 2, .value (.int (-3))] [1],
    .arithmetic .sum [.node 4, .value (.int 5)],
    .eqnCase [.node 4, .value (.int (-7)), .node 4, .node 8] [0, 1]]

/-- Both bits are set. -/
def nestedValuation : Valuation ℚ where
  signal x := .int (if x = 2 then 9 else 1)
  rate _ := 0

/-- Only the second bit has a setting, so the inner table is resolved and the outer one is kept. -/
def fastSetting (x : SignalId) : Option Bool := if x = 1 then some true else none

theorem resolveCases_exact_nested :
    (nestedStore.Built fun _ _ => True) ∧ 10 < nestedStore.nodes.size ∧
    nestedValuation.Respects nestedStore ∧ nestedValuation.Agrees fastSetting ∧
    ∃ j s', outcome (resolveCases fastSetting 10) nestedStore = (.ok j, s') ∧
      (s'.format j).domain = .sint ∧ s'.Resolved fastSetting j ∧
      s'.exact nestedValuation j = .int 2 := by
  have hbuilt : nestedStore.Built fun _ _ => True := Built.empty.runAll (by decide +kernel)
  have hlt : 10 < nestedStore.nodes.size := by decide +kernel
  have hrespects : nestedValuation.Respects nestedStore := by
    have hdomain : ∀ x < nestedStore.signals.size,
        (nestedStore.signal x).format.domain ≠ .real := by
      decide +kernel
    exact hdomain
  have hagrees : nestedValuation.Agrees fastSetting := by
    intro x b hx
    unfold fastSetting at hx
    split at hx
    · rename_i heq
      subst heq
      cases hx
      rfl
    · cases hx
  obtain ⟨j, s', hrun, hj, hdomain, hresolved, hvalue⟩ :=
    resolveCases_exact.1 ℚ nestedStore 10 fastSetting hbuilt hlt
  have hsint : (nestedStore.format 10).domain = .sint := by decide +kernel
  refine ⟨hbuilt, hlt, hrespects, hagrees, j, s', hrun, hdomain.trans hsint, hresolved, ?_⟩
  rw [hvalue (by rw [hsint]; decide) nestedValuation hrespects hagrees]
  cbv

end Store

end MixedSignal
