import Mathlib.Data.Set.Card
import MixedSignal.Proofs.Settling

/-!
# Dependency orders are exact

The traversal visits exactly the nodes that can be reached (`components_reachable`), and the
components it finds are the classes of mutual reachability (`Layered.mem_iff_mutual`). So an order is
found exactly if no reachable node lies on a cycle, it is then an order of all reachable nodes
(`IsOrder`), and a refusal names the members of one cyclic component (`IsCyclicComponent`). For a
model this is the order in which same-cycle assignments are computed.
-/

set_option linter.unusedSectionVars false

namespace MixedSignal

namespace Dependency

variable {α : Type} [BEq α] [LawfulBEq α] {children : α → List α} {nodes order cycle : List α}
  {limit : Nat}

/-- The nodes that can be reached from some nodes. -/
def reachable (children : α → List α) (nodes : List α) : Set α :=
  { v | ∃ u ∈ nodes, Reaches children u v }

/-- The list has every reachable node once, and every node after those it depends on. -/
structure IsOrder (children : α → List α) (nodes order : List α) : Prop where
  nodup : order.Nodup
  mem_iff : ∀ v, v ∈ order ↔ v ∈ reachable children nodes
  after : ∀ v ∈ order, ∀ w ∈ children v, order.idxOf w < order.idxOf v

/-- The list has the members of one strongly connected component, each once. It can be reached and has
a cycle. -/
structure IsCyclicComponent (children : α → List α) (nodes cycle : List α) : Prop where
  nodup : cycle.Nodup
  reachable : ∀ v ∈ cycle, v ∈ reachable children nodes
  onCycle : ∃ v ∈ cycle, OnCycle children v
  mem_iff : ∀ v ∈ cycle, ∀ w, w ∈ cycle ↔ Reaches children v w ∧ Reaches children w v

/-! ## Orders -/

namespace Ordered

theorem nodup (h : Ordered children order) : order.Nodup := by
  induction h with
  | nil => exact List.nodup_nil
  | snoc _ hfresh _ ih => exact ih.append (List.nodup_singleton _) (by simpa using hfresh)

theorem idxOf_lt (h : Ordered children order) :
    ∀ v ∈ order, ∀ w ∈ children v, order.idxOf w < order.idxOf v := by
  induction h with
  | nil => simp
  | @snoc order v h hfresh hv ih =>
    intro x hx w hw
    by_cases hxo : x ∈ order
    · rw [List.idxOf_append_of_mem hxo, List.idxOf_append_of_mem (h.children_mem x hxo w hw)]
      exact ih x hxo w hw
    · obtain rfl : x = v := by simpa [hxo] using hx
      rw [List.idxOf_append_of_notMem hxo, List.idxOf_append_of_mem (hv w hw)]
      exact (List.idxOf_lt_length_of_mem (hv w hw)).trans_le (Nat.le_add_right ..)

end Ordered

/-! ## Components -/

namespace Layered

variable {cs : List (List α)}

theorem child_mem (h : Layered children cs) :
    ∀ x ∈ cs.flatten, ∀ w ∈ children x, w ∈ cs.flatten := by
  induction cs with
  | nil => simp
  | cons c cs ih =>
    obtain ⟨hcs, -, -, hedges⟩ := h
    intro x hx w hw
    rw [List.flatten_cons, List.mem_append] at hx ⊢
    rcases hx with hx | hx
    · exact hedges x hx w hw
    · exact .inr (ih hcs x hx w hw)

theorem reaches_mem (h : Layered children cs) {x y : α} (hx : x ∈ cs.flatten)
    (hxy : Reaches children x y) : y ∈ cs.flatten := by
  induction hxy with
  | refl => exact hx
  | tail _ hw ih => exact h.child_mem _ ih _ hw

/-- The nodes of a component are those that it reaches and that reach it. A node of an earlier
component reaches earlier ones only. -/
theorem mem_iff_mutual (h : Layered children cs) (hnodup : cs.flatten.Nodup) {c : List α}
    (hc : c ∈ cs) {x : α} (hx : x ∈ c) (y : α) :
    y ∈ c ↔ Reaches children x y ∧ Reaches children y x := by
  refine ⟨fun hy => ?_, fun ⟨hxy, hyx⟩ => ?_⟩
  · obtain ⟨-, hreach⟩ := h.of_mem c hc
    exact ⟨hreach x hx y hy, hreach y hy x hx⟩
  · induction cs with
    | nil => simp at hc
    | cons d cs ih =>
      have hall := h
      obtain ⟨hcs, -, -, -⟩ := h
      rw [List.flatten_cons, List.nodup_append] at hnodup
      obtain ⟨-, htail, hdisjoint⟩ := hnodup
      rcases List.mem_cons.1 hc with rfl | hc
      · have hy : y ∈ (c :: cs).flatten :=
          hall.reaches_mem (List.mem_flatten.2 ⟨c, List.mem_cons_self, hx⟩) hxy
        rw [List.flatten_cons, List.mem_append] at hy
        refine hy.resolve_right fun hy => ?_
        exact hdisjoint x hx x (hcs.reaches_mem hy hyx) rfl
      · exact ih hcs htail hc

end Layered

/-- Nodes that no edge leaves hold what can be reached from them. -/
theorem reachable_subset {graph : Finset α} (hnodes : ∀ v ∈ nodes, v ∈ graph)
    (hclosed : ∀ v ∈ graph, ∀ w ∈ children v, w ∈ graph) :
    reachable children nodes ⊆ (graph : Set α) := by
  rintro v ⟨u, hu, huv⟩
  induction huv with
  | refl => exact Finset.mem_coe.2 (hnodes u hu)
  | tail _ hw ih => exact Finset.mem_coe.2 (hclosed _ (Finset.mem_coe.1 ih) _ hw)

/-- The reachable nodes as a graph that no edge leaves. -/
theorem exists_closed_graph (hfinite : (reachable children nodes).Finite) :
    ∃ graph : List α, graph.length = (reachable children nodes).ncard ∧
      (∀ v, v ∈ graph ↔ v ∈ reachable children nodes) ∧
      (∀ v ∈ graph, ∀ w ∈ children v, w ∈ graph) ∧ ∀ v ∈ nodes, v ∈ graph := by
  have hgraph : ∀ v, v ∈ hfinite.toFinset.toList ↔ v ∈ reachable children nodes := fun v => by
    rw [Finset.mem_toList, Set.Finite.mem_toFinset]
  refine ⟨hfinite.toFinset.toList, ?_, hgraph, fun v hv w hw => ?_,
    fun v hv => (hgraph v).2 ⟨v, hv, .refl⟩⟩
  · rw [Finset.length_toList, Set.ncard_eq_toFinset_card _ hfinite]
  · obtain ⟨u, hu, huv⟩ := (hgraph v).1 hv
    exact (hgraph w).2 ⟨u, hu, huv.tail hw⟩

section

variable (hfinite : (reachable children nodes).Finite)
  (hlimit : (reachable children nodes).ncard ≤ limit)
include hfinite hlimit

/-- The components hold the reachable nodes, each once. -/
theorem components_reachable :
    Layered children (components limit children nodes).reverse ∧
      (components limit children nodes).reverse.flatten.Nodup ∧
      ∀ v, v ∈ (components limit children nodes).flatten ↔ v ∈ reachable children nodes := by
  obtain ⟨graph, hlength, hgraph, hclosed, hstart⟩ := exists_closed_graph hfinite
  obtain ⟨hlayered, hnodup, hall, hsubset⟩ :=
    components_spec hclosed (hlength.trans_le hlimit) hstart
  refine ⟨hlayered, hnodup, fun v => ⟨fun hv => (hgraph v).1 (hsubset v hv), ?_⟩⟩
  rintro ⟨u, hu, huv⟩
  have hmem : ∀ x, x ∈ (components limit children nodes).reverse.flatten ↔
      x ∈ (components limit children nodes).flatten := by simp
  exact (hmem v).1 (hlayered.reaches_mem ((hmem u).2 (hall u hu)) huv)

/-! ## Exactness -/

theorem isOrder_of_ok (h : dependencyOrder limit children nodes = .ok order) :
    IsOrder children nodes order := by
  obtain ⟨hlayered, hnodup, hmem⟩ := components_reachable hfinite hlimit
  unfold dependencyOrder at h
  simp only at h
  split at h
  · cases h
  · rename_i hnone
    obtain rfl := Except.ok.inj h
    have hordered := hlayered.ordered hnodup fun c hc => by
      simpa using List.find?_eq_none.1 hnone c (List.mem_reverse.1 hc)
    rw [List.reverse_reverse] at hordered
    exact ⟨hordered.nodup, hmem, hordered.idxOf_lt⟩

theorem isCyclicComponent_of_error (h : dependencyOrder limit children nodes = .error cycle) :
    IsCyclicComponent children nodes cycle := by
  obtain ⟨hlayered, hnodup, hmem⟩ := components_reachable hfinite hlimit
  unfold dependencyOrder at h
  simp only at h
  split at h
  · rename_i c hfind
    obtain rfl := Except.error.inj h
    have hc := List.mem_of_find?_eq_some hfind
    have hc' := List.mem_reverse.2 hc
    refine ⟨?_, fun v hv => ?_, ?_, fun v hv w => ?_⟩
    · exact List.nodup_reverse.2 ((List.nodup_flatten.1 hnodup).1 c hc')
    · exact (hmem v).1 (List.mem_flatten.2 ⟨c, hc, List.mem_reverse.1 hv⟩)
    · obtain ⟨v, hv, hcycle⟩ := hlayered.exists_onCycle hnodup hc' (List.find?_some hfind)
      exact ⟨v, List.mem_reverse.2 hv, hcycle⟩
    · rw [List.mem_reverse]
      exact hlayered.mem_iff_mutual hnodup hc' (List.mem_reverse.1 hv) w
  · cases h

end

/-- A node that comes after those it depends on is on no cycle. -/
theorem IsOrder.not_onCycle (h : IsOrder children nodes order) {v : α}
    (hv : v ∈ reachable children nodes) : ¬OnCycle children v := by
  intro hcycle
  have hlt : ∀ w, Relation.TransGen (fun v w => w ∈ children v) v w →
      w ∈ order ∧ order.idxOf w < order.idxOf v := by
    intro w hw
    induction hw with
    | single hw =>
      obtain ⟨u, hu, huv⟩ := hv
      exact ⟨(h.mem_iff _).2 ⟨u, hu, huv.tail hw⟩, h.after v ((h.mem_iff v).2 ⟨u, hu, huv⟩) _ hw⟩
    | tail _ hw ih =>
      obtain ⟨hmem, hlt⟩ := ih
      obtain ⟨u, hu, hux⟩ := (h.mem_iff _).1 hmem
      exact ⟨(h.mem_iff _).2 ⟨u, hu, hux.tail hw⟩, (h.after _ hmem _ hw).trans hlt⟩
  exact absurd (hlt v hcycle).2 (Nat.lt_irrefl _)

theorem exists_ok_iff (hfinite : (reachable children nodes).Finite)
    (hlimit : (reachable children nodes).ncard ≤ limit) :
    (∃ order, dependencyOrder limit children nodes = .ok order) ↔
      ∀ v ∈ reachable children nodes, ¬OnCycle children v := by
  constructor
  · rintro ⟨order, h⟩ v hv
    exact (isOrder_of_ok hfinite hlimit h).not_onCycle hv
  · intro hacyclic
    cases h : dependencyOrder limit children nodes with
    | ok order => exact ⟨order, rfl⟩
    | error cycle =>
      have hcycle := isCyclicComponent_of_error hfinite hlimit h
      obtain ⟨v, hv, hon⟩ := hcycle.onCycle
      exact absurd hon (hacyclic v (hcycle.reachable v hv))

end Dependency

/-! ## Same-cycle assignments -/

namespace Model

open Dependency

variable {R : Type} [Scalar R] {m : Model R}

/-- The signals that are driven in the same cycle reach no others. -/
theorem reachable_combinational (m : Model R) :
    reachable m.combinationalReads (m.assignments.keys.filter m.isCombinational) =
      { x | x ∈ m.assignments.keys.filter m.isCombinational } := by
  ext x
  constructor
  · rintro ⟨u, hu, hux⟩
    induction hux with
    | refl => exact hu
    | tail _ hx _ => exact combinationalReads_mem _ _ hx
  · exact fun hx => ⟨x, hx, .refl⟩

theorem finite_combinational (m : Model R) :
    (reachable m.combinationalReads (m.assignments.keys.filter m.isCombinational)).Finite := by
  rw [reachable_combinational]
  exact List.finite_toSet _

theorem ncard_combinational (m : Model R) :
    (reachable m.combinationalReads (m.assignments.keys.filter m.isCombinational)).ncard ≤
      (m.assignments.keys.filter m.isCombinational).length := by
  classical
  rw [reachable_combinational, ← List.coe_toFinset, Set.ncard_coe_finset]
  exact List.toFinset_card_le _

theorem combinationalOrder_eq_ok_iff {order : List SignalId} : m.combinationalOrder = .ok order ↔
    dependencyOrder (m.assignments.keys.filter m.isCombinational).length m.combinationalReads
      (m.assignments.keys.filter m.isCombinational) = .ok order := by
  unfold combinationalOrder
  simp only
  split
  · rename_i heq
    rw [heq, Except.ok.injEq, Except.ok.injEq]
  · rename_i heq
    simp [heq]

theorem combinationalOrder_eq_error {e : EmitError} (h : m.combinationalOrder = .error e) :
    ∃ cycle, e = .combinationalCycle (cycle.map fun x => (m.store.signal x).name) ∧
      dependencyOrder (m.assignments.keys.filter m.isCombinational).length m.combinationalReads
        (m.assignments.keys.filter m.isCombinational) = .error cycle := by
  unfold combinationalOrder at h
  simp only at h
  split at h
  · cases h
  · rename_i cycle heq
    exact ⟨cycle, (Except.error.inj h).symm, heq⟩

end Model

namespace Dependency

/-- The dependencies of a list of nodes, of which finitely many can be reached, have an order exactly
if no reachable node depends on itself, directly or through others. The order then has every
reachable node once and after those it depends on. Otherwise the answer is one strongly connected
component with a cycle. So the signals of a model that are driven in the same cycle are listed each
once and after those of them that its expression reads, or some of them do form a cycle. -/
theorem dependencyOrder_exact :
    (∀ {α : Type} [BEq α] [LawfulBEq α] (children : α → List α) (nodes : List α) (limit : Nat),
      (reachable children nodes).Finite → (reachable children nodes).ncard ≤ limit →
      ((∃ order, dependencyOrder limit children nodes = .ok order) ↔
        ∀ v ∈ reachable children nodes, ¬OnCycle children v) ∧
      (∀ order, dependencyOrder limit children nodes = .ok order →
        IsOrder children nodes order) ∧
      ∀ cycle, dependencyOrder limit children nodes = .error cycle →
        IsCyclicComponent children nodes cycle) ∧
    ∀ {R : Type} [Scalar R] (m : Model R),
      ((∃ order, m.combinationalOrder = .ok order) ↔
        ∀ x, m.isCombinational x = true → ¬OnCycle m.combinationalReads x) ∧
      (∀ order, m.combinationalOrder = .ok order → order.Nodup ∧
        (∀ x, x ∈ order ↔ ∃ a, m.assignment? x = some a ∧ a.timing = .thisCycle) ∧
        ∀ x ∈ order, ∀ a, m.assignment? x = some a → ∀ y ∈ m.store.signalsIn a.expr,
          y ∈ order → order.idxOf y < order.idxOf x) ∧
      ∀ e, m.combinationalOrder = .error e →
        ∃ cycle, e = .combinationalCycle (cycle.map fun x => (m.store.signal x).name) ∧
          IsCyclicComponent m.combinationalReads (m.assignments.keys.filter m.isCombinational)
            cycle := by
  refine ⟨fun children nodes limit hfinite hlimit => ⟨exists_ok_iff hfinite hlimit,
    fun order => isOrder_of_ok hfinite hlimit,
    fun cycle => isCyclicComponent_of_error hfinite hlimit⟩, fun m => ⟨?_, ?_, ?_⟩⟩
  · simp only [Model.combinationalOrder_eq_ok_iff]
    rw [exists_ok_iff m.finite_combinational m.ncard_combinational, m.reachable_combinational]
    simp only [Set.mem_ofPred_eq, Model.mem_combinational]
  · intro order h
    have horder := isOrder_of_ok m.finite_combinational m.ncard_combinational
      (Model.combinationalOrder_eq_ok_iff.1 h)
    have hmem : ∀ x, x ∈ order ↔ m.isCombinational x = true := by
      intro x
      rw [horder.mem_iff, m.reachable_combinational, Set.mem_ofPred_eq, Model.mem_combinational]
    refine ⟨horder.nodup, fun x => (hmem x).trans Model.isCombinational_iff,
      fun x hx a ha y hy hyo => ?_⟩
    exact horder.after x hx y ((Model.mem_combinationalReads ha).2 ⟨hy, (hmem y).1 hyo⟩)
  · intro e h
    obtain ⟨cycle, rfl, herror⟩ := Model.combinationalOrder_eq_error h
    exact ⟨cycle, rfl,
      isCyclicComponent_of_error m.finite_combinational m.ncard_combinational herror⟩

/-- Node 0 leads to 1 twice, 1 and 2 lead to each other, 2 to itself and to 3. -/
def loopChildren : Nat → List Nat
  | 0 => [1, 1]
  | 1 => [2]
  | 2 => [2, 3, 1]
  | _ => []

theorem reachable_loopChildren : reachable loopChildren [0, 0] ⊆ (Finset.range 4 : Set Nat) :=
  reachable_subset (by decide) (by decide)

/-- Nodes 1 and 2 are the component that is refused. -/
theorem dependencyOrder_exact_loop :
    (reachable loopChildren [0, 0]).Finite ∧ (reachable loopChildren [0, 0]).ncard ≤ 4 ∧
    dependencyOrder 4 loopChildren [0, 0] = .error [1, 2] ∧
    IsCyclicComponent loopChildren [0, 0] [1, 2] ∧
    ¬∀ v ∈ reachable loopChildren [0, 0], ¬OnCycle loopChildren v := by
  have hfinite := (Finset.finite_toSet _).subset reachable_loopChildren
  have hcard : (reachable loopChildren [0, 0]).ncard ≤ 4 :=
    (Set.ncard_le_ncard reachable_loopChildren (Finset.finite_toSet _)).trans
      (by rw [Set.ncard_coe_finset]; decide)
  have herror : dependencyOrder 4 loopChildren [0, 0] = .error [1, 2] := by rfl
  obtain ⟨hok, -, hcycle⟩ := dependencyOrder_exact.1 loopChildren [0, 0] 4 hfinite hcard
  refine ⟨hfinite, hcard, herror, hcycle _ herror, fun hacyclic => ?_⟩
  obtain ⟨order, horder⟩ := hok.2 hacyclic
  rw [herror] at horder
  cases horder

end Dependency

end MixedSignal
