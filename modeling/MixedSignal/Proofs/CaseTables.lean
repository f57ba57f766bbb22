import MixedSignal.Proofs.Resolution

/-!
# Case tables that are left

Resolving case tables comes to the operands of sums, products, minima and maxima, to the elements of
selections, and to the cases of tables. It keeps every other node as it is, and the address of a
selection too. So a table is left in the result only if it is hidden (`Store.hiddenTables`): it
stands below such a node, as the conversions that promotion puts around integers, or in an address.
-/

set_option linter.unusedSectionVars false

namespace MixedSignal

variable {R : Type} [Scalar R]

namespace Store

/-- Whether a node is a case table. -/
def isTable : NodeKind R → Bool
  | .cases _ _ => true
  | _ => false

/-- The case tables of an expression. -/
def tablesIn (s : Store R) (i : NodeId) : List NodeId :=
  (s.occurrences i).filter fun t => isTable (s.kind t)

/-- All tables of the expression satisfy the property. -/
def TablesAmong (s : Store R) (T : NodeId → Prop) (i : NodeId) : Prop := ∀ t ∈ s.tablesIn i, T t

/-- The tables that a node hides: all those below it, if it passes no value on, and those in the
address, if it is a selection. -/
def tablesHiddenBy (s : Store R) (i : NodeId) : List NodeId :=
  match s.kind i with
  | .arith _ _ | .cases _ _ => []
  | .select _ a => s.tablesIn a
  | _ => s.tablesIn i

/-- The tables of an expression that resolving does not come to. -/
def hiddenTables (s : Store R) (i : NodeId) : List NodeId :=
  s.tablesHiddenBy i ++ (parts (s.kind i)).flatMap fun j =>
    if _h : j < i then s.hiddenTables j else []
termination_by i

variable {rounding : Rounding R} {s s' : Store R} {i j t : NodeId} {d : Domain}
  {T : NodeId → Prop}

theorem tablesIn_extends (hs : s.WellTyped rounding) (he : s.Extends s') (hi : i < s.nodes.size) :
    s'.tablesIn i = s.tablesIn i := by
  rw [tablesIn, tablesIn, hs.occurrences_extends he i hi]
  refine List.filter_congr fun t ht => ?_
  rw [he.kind_eq ((le_of_mem_occurrences i ht).trans_lt hi)]

/-- The tables below an operand are tables of the node. -/
theorem tablesIn_subset (hs : s.WellTyped rounding) (hi : i < s.nodes.size)
    (hj : j ∈ s.children i) : s.tablesIn j ⊆ s.tablesIn i :=
  List.filter_subset _ (occurrences_subset hj (hs.below i hi j hj))

/-- A node that is no table has the tables of its operands. -/
theorem exists_of_mem_tablesIn (hk : isTable (s.kind i) = false) (ht : t ∈ s.tablesIn i) :
    ∃ j ∈ s.children i, t ∈ s.tablesIn j := by
  obtain ⟨hmem, htable⟩ := List.mem_filter.1 ht
  rcases mem_occurrences_iff.1 hmem with rfl | ⟨j, hj, -, htj⟩
  · rw [hk] at htable
    cases htable
  · exact ⟨j, hj, List.mem_filter.2 ⟨htj, htable⟩⟩

theorem hiddenTables_subset (hs : s.WellTyped rounding) (hi : i < s.nodes.size)
    (hj : j ∈ parts (s.kind i)) : s.hiddenTables j ⊆ s.hiddenTables i := by
  intro t ht
  rw [hiddenTables.eq_def s i]
  refine List.mem_append_right _ (List.mem_flatMap.2 ⟨j, hj, ?_⟩)
  rwa [dif_pos (hs.parts_lt hi j hj)]

theorem tablesHiddenBy_subset (s : Store R) (i : NodeId) :
    s.tablesHiddenBy i ⊆ s.hiddenTables i := by
  rw [hiddenTables]
  exact List.subset_append_left _ _

theorem tablesHiddenBy_of_kept (hk : Transform.Kept (s.kind i)) :
    s.tablesHiddenBy i = s.tablesIn i := by
  unfold tablesHiddenBy
  split
  · rename_i heq
    rw [heq] at hk
    exact hk.elim
  · rename_i heq
    rw [heq] at hk
    exact hk.elim
  · rename_i heq
    rw [heq] at hk
    exact hk.elim
  · rfl

theorem tablesHiddenBy_of_select {xs : List NodeId} {a : NodeId} (hk : s.kind i = .select xs a) :
    s.tablesHiddenBy i = s.tablesIn a := by
  rw [tablesHiddenBy, hk]

theorem hiddenTables_extends (hs : s.WellTyped rounding) (he : s.Extends s') :
    ∀ i < s.nodes.size, s'.hiddenTables i = s.hiddenTables i := by
  have hby : ∀ i < s.nodes.size, s'.tablesHiddenBy i = s.tablesHiddenBy i := by
    intro i hi
    unfold tablesHiddenBy
    rw [he.kind_eq hi]
    split
    · rfl
    · rfl
    · rename_i xs a hk
      refine tablesIn_extends hs he ((hs.below i hi a ?_).trans hi)
      simp [children, hk, operands]
    · exact tablesIn_extends hs he hi
  intro i
  induction i using Nat.strong_induction_on with
  | _ i ih =>
    intro hi
    rw [hiddenTables.eq_def s i, hiddenTables.eq_def s' i, hby i hi, he.kind_eq hi]
    congr 1
    refine List.flatMap_congr fun j hj => ?_
    have hlt := hs.parts_lt hi j hj
    rw [dif_pos hlt, dif_pos hlt]
    exact ih j hlt (hlt.trans hi)

/-! ## Selectors -/

theorem mem_selectorsIn {x : SignalId} :
    x ∈ s.selectorsIn i ↔ ∃ j ∈ s.occurrences i, x ∈ selectors (s.kind j) := by
  simp [selectorsIn, List.mem_eraseDups]

theorem selectorsIn_subset (hs : s.WellTyped rounding) (hi : i < s.nodes.size)
    (hj : j ∈ s.children i) : s.selectorsIn j ⊆ s.selectorsIn i := by
  intro x hx
  obtain ⟨k, hk, hxk⟩ := mem_selectorsIn.1 hx
  exact mem_selectorsIn.2 ⟨k, occurrences_subset hj (hs.below i hi j hj) hk, hxk⟩

theorem mem_selectorsIn_extends (hs : s.WellTyped rounding) (he : s.Extends s')
    (hi : i < s.nodes.size) {x : SignalId} : x ∈ s'.selectorsIn i ↔ x ∈ s.selectorsIn i := by
  rw [mem_selectorsIn, mem_selectorsIn, hs.occurrences_extends he i hi]
  refine exists_congr fun j => and_congr_right fun hj => ?_
  rw [he.kind_eq ((le_of_mem_occurrences i hj).trans_lt hi)]

/-! ## What the constructors make -/

theorem IsConstant.tablesIn_eq_nil {v : Value R} (h : s.IsConstant v d i) : s.tablesIn i = [] := by
  have hk : s.kind i = .const (Build.constantIn v d).1 := by rw [kind, h]
  rw [List.eq_nil_iff_forall_not_mem]
  intro t ht
  obtain ⟨j, hj, -⟩ := exists_of_mem_tablesIn (by rw [hk]; rfl) ht
  simp [children, hk, operands] at hj

/-- Promotion adds no tables. -/
theorem Promotes.tablesIn_subset (h : s.Promotes d i j) : s.tablesIn j ⊆ s.tablesIn i := by
  induction h with
  | same => exact fun _ ht => ht
  | const _ _ hj =>
    rw [IsConstant.tablesIn_eq_nil hj]
    exact List.nil_subset _
  | @widen i j _ _ _ hj =>
    intro t ht
    have hk : s.kind j = .convert .uintToSint i := by rw [kind, hj]
    obtain ⟨k, hk', htk⟩ := exists_of_mem_tablesIn (by rw [hk]; rfl) ht
    obtain rfl : k = i := by simpa [children, hk, operands] using hk'
    exact htk
  | @toReal i j l _ _ _ _ hj _ ih =>
    intro t ht
    have hk : s.kind j = .convert .sintToReal l := by rw [kind, hj]
    obtain ⟨k, hk', htk⟩ := exists_of_mem_tablesIn (by rw [hk]; rfl) ht
    obtain rfl : k = l := by simpa [children, hk, operands] using hk'
    exact ih htk

end Store

namespace Build

open Store

variable {rounding : Rounding R} {s : Store R} {T : NodeId → Prop} {ys : List NodeId}

theorem Promoted.tablesIn {u : Store R} (hs : s.WellTyped rounding) (hg : s.Grown rounding u)
    (hys : ∀ y ∈ ys, y < s.nodes.size ∧ s.TablesAmong T y) {is js : List NodeId}
    (hp : Promoted u (ys.map .node) is js) :
    ∀ j ∈ js, j < u.nodes.size ∧ u.TablesAmong T j := by
  intro j hj
  obtain rfl := hp.eq_of_nodes
  obtain ⟨y, hy, hlt, hpromotes⟩ := forall₂_exists_left hp.promotes j hj
  refine ⟨hlt, fun t ht => (hys y hy).2 t ?_⟩
  rw [← tablesIn_extends hs hg.toExtends (hys y hy).1]
  exact hpromotes.tablesIn_subset ht

/-- An operator adds no tables. -/
theorem arithmetic_tablesIn (hs : s.WellTyped rounding) (op : ArithOp)
    (hys : ∀ y ∈ ys, y < s.nodes.size ∧ s.TablesAmong T y) :
    Ensures (Grown rounding) (arithmetic op (ys.map .node)) s (fun _ => True) fun j s' =>
      j < s'.nodes.size ∧ s'.TablesAmong T j := by
  have hvalid : ∀ o ∈ ys.map Operand.node, o.Valid s :=
    List.forall_mem_map.2 fun y hy => (hys y hy).1
  refine (arithmetic_ensures hs hvalid fun _ _ _ => trivial).imp fun j s' _ hj => ⟨hj.1, ?_⟩
  obtain ⟨hlt, u, is, js, hu, hu', hp, hcomb⟩ := hj
  have hsu := hu.wellTyped hs
  refine hcomb.closed (P := fun i => i < u.nodes.size ∧ u.TablesAmong T i) hlt
    (fun i xs hi hk x hx => ?_) (fun i hi => ?_) (fun v i _ hc => ?_)
    (fun xs f i _ hnode hxs => ?_) (hp.tablesIn hs hu hys)
  · have hchild : x ∈ u.children i := by simpa [children, hk, operands] using hx
    exact ⟨(hsu.below i hi.1 x hchild).trans hi.1,
      fun t ht => hi.2 t (tablesIn_subset hsu hi.1 hchild ht)⟩
  · rw [TablesAmong, tablesIn_extends hsu hu'.toExtends hi.1]
    exact hi.2
  · rw [TablesAmong, hc.tablesIn_eq_nil]
    simp
  · intro t ht
    have hk : s'.kind i = .arith op xs := by rw [kind, hnode]
    obtain ⟨x, hx, htx⟩ := exists_of_mem_tablesIn (by rw [hk]; rfl) ht
    exact hxs x (by simpa [children, hk, operands] using hx) t htx

/-- A selection has the tables of its elements and of its address. -/
theorem array_tablesIn (hs : s.WellTyped rounding) {a : NodeId} (ha : a < s.nodes.size)
    (hat : s.TablesAmong T a)
    (hys : ∀ y ∈ ys, y < s.nodes.size ∧ s.TablesAmong T y) :
    Ensures (Grown rounding) (array (ys.map .node) (.node a)) s (fun _ => True) fun j s' =>
      j < s'.nodes.size ∧ s'.TablesAmong T j := by
  have hvalid : ∀ o ∈ ys.map Operand.node, o.Valid s :=
    List.forall_mem_map.2 fun y hy => (hys y hy).1
  have haddress : Operand.Valid s (.node a) := ha
  refine (array_ensures hs hvalid haddress fun _ _ => trivial).imp
    fun j s' _ hj => ⟨hj.1, fun t ht => ?_⟩
  obtain ⟨hlt, u, is, js, i, w, hu, hu', hp, hi, hstands, -, -, hsel⟩ := hj
  obtain rfl : i = a := hstands
  have hsu := hu.wellTyped hs
  have hjs := hp.tablesIn hs hu hys
  cases hsel with
  | same hhead =>
    obtain ⟨hj, hjt⟩ := hjs j (List.mem_of_mem_head? hhead)
    rw [tablesIn_extends hsu hu'.toExtends hj] at ht
    exact hjt t ht
  | node hnode =>
    have hk : s'.kind j = .select js i := by rw [kind, hnode]
    obtain ⟨x, hx, htx⟩ := exists_of_mem_tablesIn (by rw [hk]; rfl) ht
    rcases List.mem_append.1 (show x ∈ js ++ [i] by simpa [children, hk, operands] using hx) with
      hx | hx
    · rw [tablesIn_extends hsu hu'.toExtends (hjs x hx).1] at htx
      exact (hjs x hx).2 t htx
    · obtain rfl := List.mem_singleton.1 hx
      rw [tablesIn_extends hsu hu'.toExtends hi, tablesIn_extends hs hu.toExtends ha] at htx
      exact hat t htx

end Build

/-! ## Resolving -/

namespace Transform

open Store Build

variable {rounding : Rounding R} {s s' : Store R} {setting : SignalId → Option Bool} {i j : NodeId}

/-- If the setting has all selectors of the first node, then the second one has only tables that the
first one hides. -/
structure LeavesHidden (rounding : Rounding R) (setting : SignalId → Option Bool) (i j : NodeId)
    (s : Store R) : Prop extends Both rounding i j s where
  hidden : (∀ x ∈ s.selectorsIn i, (setting x).isSome = true) →
    ∀ t ∈ s.tablesIn j, t ∈ s.hiddenTables i

theorem LeavesHidden.of_grown (hg : s.Grown rounding s') (h : LeavesHidden rounding setting i j s) :
    LeavesHidden rounding setting i j s' where
  toBoth := h.toBoth.of_grown hg
  hidden hset := by
    rw [tablesIn_extends h.wellTyped hg.toExtends h.right_lt,
      hiddenTables_extends h.wellTyped hg.toExtends i h.left_lt]
    refine h.hidden fun x hx => hset x ?_
    rwa [mem_selectorsIn_extends h.wellTyped hg.toExtends h.left_lt]

/-- The forms of the parts of a node have only tables that the node hides. -/
theorem LeavesHidden.of_parts (hs : s.WellTyped rounding) (hi : i < s.nodes.size)
    {xs ys : List NodeId} (hxs : ∀ x ∈ xs, x ∈ parts (s.kind i))
    (hys : List.Forall₂ (fun x y => LeavesHidden rounding setting x y s) xs ys) :
    ∀ y ∈ ys, y < s.nodes.size ∧ s.TablesAmong
      (fun t => (∀ x ∈ s.selectorsIn i, (setting x).isSome = true) → t ∈ s.hiddenTables i) y := by
  intro y hy
  obtain ⟨x, hx, hxy⟩ := forall₂_exists_left hys y hy
  have hsub := selectorsIn_subset hs hi (s.parts_subset _ (hxs x hx))
  refine ⟨hxy.right_lt, fun t ht hset => hiddenTables_subset hs hi (hxs x hx) ?_⟩
  exact hxy.hidden (fun z hz => hset z (hsub hz)) t ht

theorem LeavesHidden.of_tablesIn (hs : s.WellTyped rounding) (hi : i < s.nodes.size)
    {x : Build R NodeId} (h : Ensures (Grown rounding) x s (fun _ => True) fun j s' =>
      j < s'.nodes.size ∧ s'.TablesAmong
        (fun t => (∀ x ∈ s.selectorsIn i, (setting x).isSome = true) → t ∈ s.hiddenTables i) j) :
    Ensures (Grown rounding) x s (fun _ => True) (LeavesHidden rounding setting i) := by
  refine h.imp fun j s' hg hj => ⟨.of_made hs hi hg hj.1, fun hset t ht => ?_⟩
  rw [hiddenTables_extends hs hg.toExtends i hi]
  refine hj.2 t ht fun x hx => hset x ?_
  rwa [mem_selectorsIn_extends hs hg.toExtends hi]

theorem exists_mapM_setting {selectors : List SignalId}
    (h : ∀ x ∈ selectors, (setting x).isSome = true) : ∃ bits, selectors.mapM setting = some bits := by
  induction selectors with
  | nil => exact ⟨[], rfl⟩
  | cons x selectors ih =>
    obtain ⟨b, hb⟩ := Option.isSome_iff_exists.1 (h x (by simp))
    obtain ⟨bits, hbits⟩ := ih fun y hy => h y (by simp [hy])
    exact ⟨b :: bits, by simp [List.mapM_cons, hb, hbits]⟩

theorem resolves_leavesHidden :
    Resolves (R := R) rounding (fun _ => True) setting (LeavesHidden rounding setting) where
  of_grown _ _ _ _ hg h := h.of_grown hg
  lt _ _ _ h := h.right_lt
  kept := by
    intro s i hs hi hk
    refine ⟨⟨hs, hi, hi⟩, fun _ t ht => s.tablesHiddenBy_subset i ?_⟩
    rwa [tablesHiddenBy_of_kept hk]
  arith := by
    intro s i op xs ys hs hi hk hys
    refine LeavesHidden.of_tablesIn hs hi (arithmetic_tablesIn hs op (LeavesHidden.of_parts hs hi (fun x hx => ?_) hys))
    rw [hk]
    exact hx
  select := by
    intro s i xs ys a hs hi hk hys
    have ha : a < s.nodes.size :=
      (hs.below i hi a (by simp [children, hk, operands])).trans hi
    refine LeavesHidden.of_tablesIn hs hi (array_tablesIn hs ha (fun t ht _ => ?_)
      (LeavesHidden.of_parts hs hi (fun x hx => ?_) hys))
    · exact s.tablesHiddenBy_subset i (by rwa [tablesHiddenBy_of_select hk])
    · rw [hk]
      exact hx
  table := by
    intro s i xs ys selectors hs hi hk hnone hys
    refine LeavesHidden.of_tablesIn hs hi ((eqnCase_makes hs (valid_of_forall₂ hys fun _ _ h => h.right_lt)
      (hs.selector_lt hi hk)).imp fun j s' _ hj => ⟨hj, fun t _ hset => ?_⟩)
    -- the setting has the selectors of every table, so it decides this one
    obtain ⟨bits, hbits⟩ := exists_mapM_setting fun x (hx : x ∈ selectors) =>
      hset x (mem_selectorsIn.2 ⟨i, s.mem_occurrences_self i, by rw [hk]; exact hx⟩)
    cases hnone.symm.trans hbits
  case := by
    intro s i xs selectors bits c j hs hi hk hbits hc h
    have hpart : c ∈ parts (s.kind i) := by
      rw [hk]
      exact List.mem_of_getElem? hc
    have hsub := selectorsIn_subset hs hi (s.parts_subset _ hpart)
    refine ⟨⟨hs, hi, h.right_lt⟩, fun hset t ht => hiddenTables_subset hs hi hpart ?_⟩
    exact h.hidden (fun x hx => hset x (hsub hx)) t ht

end Transform

namespace Store

open Build

/-- If a setting has a value for every selector of an expression, then its case tables are resolved
without failure, and the only tables in the result are those that stood below nodes which pass no
value on, or in the address of a selection. Where there are none of those, no table is left. -/
theorem resolveCases_leaves_hidden (s : Store R) (i : NodeId) (setting : SignalId → Option Bool)
    (hb : s.Built fun _ _ => True) (hi : i < s.nodes.size)
    (hset : ∀ x ∈ s.selectorsIn i, (setting x).isSome = true) :
    ∃ j s', outcome (resolveCases setting i) s = (.ok j, s') ∧
      (∀ t ∈ s'.tablesIn j, t ∈ s.hiddenTables i) ∧
      (s.hiddenTables i = [] → s'.tablesIn j = []) := by
  have hs := hb.wellTyped_any
  obtain ⟨j, s', hrun, -⟩ := hs.exists_resolveCases setting hi
  obtain ⟨hg, hj⟩ := (resolveCases_ensures Transform.resolves_leavesHidden hs hi).elim_ok hrun
  have hleft : ∀ t ∈ s'.tablesIn j, t ∈ s.hiddenTables i := by
    rw [← hiddenTables_extends hs hg.toExtends i hi]
    refine hj.hidden fun x hx => hset x ?_
    rwa [mem_selectorsIn_extends hs hg.toExtends hi] at hx
  refine ⟨j, s', hrun, hleft, fun hnil => List.eq_nil_iff_forall_not_mem.2 fun t ht => ?_⟩
  have hmem := hleft t ht
  rw [hnil] at hmem
  cases hmem

/-- The two bits are set. -/
def bitsSetting (x : SignalId) : Option Bool := if x < 2 then some true else none

theorem resolveCases_leaves_hidden_nested :
    (nestedStore.Built fun _ _ => True) ∧ 10 < nestedStore.nodes.size ∧
    (∀ x ∈ nestedStore.selectorsIn 10, (bitsSetting x).isSome = true) ∧
    nestedStore.tablesIn 10 = [10, 4, 4, 4] ∧ nestedStore.hiddenTables 10 = [] ∧
    ∃ j s', outcome (resolveCases bitsSetting 10) nestedStore = (.ok j, s') ∧
      s'.tablesIn j = [] := by
  have hbuilt : nestedStore.Built fun _ _ => True := Built.empty.runAll (by decide +kernel)
  have hstore : 10 < nestedStore.nodes.size ∧
      (∀ x ∈ nestedStore.selectorsIn 10, (bitsSetting x).isSome = true) ∧
      nestedStore.tablesIn 10 = [10, 4, 4, 4] ∧ nestedStore.hiddenTables 10 = [] := by
    decide +kernel
  obtain ⟨hlt, hset, htables, hhidden⟩ := hstore
  obtain ⟨j, s', hrun, -, hnone⟩ :=
    resolveCases_leaves_hidden nestedStore 10 bitsSetting hbuilt hlt hset
  exact ⟨hbuilt, hlt, hset, htables, hhidden, j, s', hrun, hnone hhidden⟩

/-- A bit, a real, a table of integers and its product with the real, where a conversion stands around
the table. -/
def promotedStore : Store ℚ :=
  Store.runAll {} [
    .signal "s" .bit .input none,
    .signal "x" (.ofMagnitude 8) .input none,
    .eqnCase [.value (.int 1), .value (.int 2)] [0],
    .arithmetic .product [.node 4, .signal 1]]

/-- The table is left in the product, although the setting has its selector. -/
theorem promoted_table_left :
    (promotedStore.Built fun _ _ => True) ∧ 7 < promotedStore.nodes.size ∧
    promotedStore.selectorsIn 7 = [0] ∧ promotedStore.hiddenTables 7 = [4] ∧
    ∃ j s', outcome (resolveCases bitsSetting 7) promotedStore = (.ok j, s') ∧
      s'.tablesIn j = [4] := by
  have hbuilt : promotedStore.Built fun _ _ => True := Built.empty.runAll (by decide +kernel)
  have hstore : 7 < promotedStore.nodes.size ∧ promotedStore.selectorsIn 7 = [0] ∧
      promotedStore.hiddenTables 7 = [4] ∧
      (outcome (resolveCases bitsSetting 7) promotedStore).1.toOption.map
        (outcome (resolveCases bitsSetting 7) promotedStore).2.tablesIn = some [4] := by
    decide +kernel
  obtain ⟨hlt, hselectors, hhidden, hleft⟩ := hstore
  obtain ⟨j, hj, htables⟩ := Option.map_eq_some_iff.1 hleft
  exact ⟨hbuilt, hlt, hselectors, hhidden, j, _, outcome_eq_of_toOption hj, htables⟩

end Store

end MixedSignal
