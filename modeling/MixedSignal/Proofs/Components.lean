import MixedSignal.Proofs.Ordering

/-!
# Strongly connected components

The traversal lists the strongly connected components of the nodes that can be reached
(`AreComponents`): every node stands in one of them and once, two nodes stand together exactly if
each reaches the other, and a component comes after all others that it reaches.

The bound on the depth of the traversal is never met if it is at least the number of nodes that can
be reached (`Traversal.visit_succ_of_ready`): each visit on the way to a node has discovered a node
of its own. A larger bound therefore makes no difference, and the traversal ends by itself.
-/

set_option linter.unusedSectionVars false

namespace MixedSignal.Dependency

variable {α : Type} [BEq α] [LawfulBEq α] {children : α → List α} {graph nodes : List α}
  {limit : Nat}

/-! ## The traversal ends -/

section

variable (hgraph : ∀ v ∈ graph, ∀ w ∈ children v, w ∈ graph)
include hgraph

namespace Traversal

variable {t : Traversal α} {path : List α} {fuel : Nat} {v : α}

/-- Edges are followed alike with more fuel, if nodes are visited alike. -/
theorem foldl_follow_succ (hvisit : ∀ {path : List α} {w : α} {t : Traversal α},
      Ready children graph path fuel w t →
        t.visit children (fuel + 1) w = t.visit children fuel w) :
    ∀ (ws : List α) {t : Traversal α}, Ready children graph (v :: path) fuel v t →
      (∀ w ∈ ws, w ∈ children v) →
      ws.foldl (follow children (fuel + 1)) t = ws.foldl (follow children fuel) t
  | [], _, _, _ => rfl
  | w :: ws, t, h, hws => by
    have hw := hws w List.mem_cons_self
    have hfollow : follow children (fuel + 1) t w = follow children fuel t w := by
      rw [follow, follow, hvisit (h.child hgraph hw)]
    obtain ⟨hinv, hl, -⟩ := follow_keeps hgraph (visits hgraph fuel) h hw
    rw [List.foldl_cons, List.foldl_cons, hfollow]
    exact foldl_follow_succ hvisit ws (h.of_later hinv hl)
      fun x hx => hws x (List.mem_cons_of_mem _ hx)

/-- With fuel for all nodes that are left, more fuel makes no difference to a visit. -/
theorem visit_succ_of_ready (fuel : Nat) :
    ∀ {path : List α} {v : α} {t : Traversal α}, Ready children graph path fuel v t →
      t.visit children (fuel + 1) v = t.visit children fuel v := by
  induction fuel with
  | zero =>
    intro path v t h
    rw [visit_succ, if_pos (List.contains_iff_mem.2 h.mem_discovered)]
    rfl
  | succ fuel ih =>
    intro path v t h
    rw [visit_succ, visit_succ]
    split
    · rfl
    · rename_i hfresh
      have hfresh : v ∉ t.discovered := by simpa using hfresh
      rw [foldl_follow_succ hgraph ih (children v) (h.discover hfresh) fun _ => id]

end Traversal

theorem foldl_visit_succ (hlimit : graph.length ≤ limit) :
    ∀ (nodes : List α) (t : Traversal α), (∀ v ∈ nodes, v ∈ graph) →
      t.Inv children graph [] → t.starts = [] →
      nodes.foldl (fun t v => t.visit children (limit + 1) v) t =
        nodes.foldl (fun t v => t.visit children limit v) t
  | [], _, _, _, _ => rfl
  | v :: nodes, t, hnodes, hinv, hstarts => by
    have hready := Traversal.ready_of_starts hinv hstarts (hnodes v List.mem_cons_self) hlimit
    obtain ⟨hinv', hl, -⟩ := Traversal.visits hgraph limit [] v t hready
    rw [List.foldl_cons, List.foldl_cons, Traversal.visit_succ_of_ready hgraph limit hready]
    exact foldl_visit_succ hlimit nodes _ (fun x hx => hnodes x (List.mem_cons_of_mem _ hx)) hinv'
      (hl.starts_eq_nil hstarts)

end

/-- The components do not depend on the bound. -/
theorem components_limit (hfinite : (reachable children nodes).Finite)
    (hlimit : (reachable children nodes).ncard ≤ limit) :
    components limit children nodes =
      components (reachable children nodes).ncard children nodes := by
  obtain ⟨graph, hlength, hgraph, hclosed, hnodes⟩ := exists_closed_graph hfinite
  induction limit, hlimit using Nat.le_induction with
  | base => rfl
  | succ limit hle ih =>
    rw [← ih]
    unfold components
    rw [foldl_visit_succ hclosed (hlength.trans_le hle) nodes {} hnodes .empty rfl]

/-! ## The components -/

/-- The lists are the strongly connected components of the reachable nodes, each one after the
others that it reaches. -/
structure AreComponents (children : α → List α) (nodes : List α) (cs : List (List α)) : Prop where
  ne_nil : ∀ c ∈ cs, c ≠ []
  /-- No node stands twice, neither in one list nor in two. -/
  nodup : cs.flatten.Nodup
  mem_iff : ∀ v, v ∈ cs.flatten ↔ v ∈ reachable children nodes
  together_iff : ∀ v ∈ reachable children nodes, ∀ w,
    (∃ c ∈ cs, v ∈ c ∧ w ∈ c) ↔ Reaches children v w ∧ Reaches children w v
  before : ∀ (i j : Nat) (c d : List α), cs[i]? = some c → cs[j]? = some d → i ≠ j →
    ∀ v ∈ c, ∀ w ∈ d, Reaches children v w → j < i

namespace Layered

variable {cs ds : List (List α)}

/-- Earlier components are layered as well. -/
theorem of_append (h : Layered children (cs ++ ds)) : Layered children ds := by
  induction cs with
  | nil => exact h
  | cons c cs ih => exact ih h.1

/-- What a component reaches stands in it or before it. -/
theorem reaches_take (h : Layered children cs.reverse) {i : Nat} {c : List α} (hc : cs[i]? = some c)
    {v w : α} (hv : v ∈ c) (hvw : Reaches children v w) : w ∈ (cs.take (i + 1)).flatten := by
  have hsplit : cs.reverse = (cs.drop (i + 1)).reverse ++ (cs.take (i + 1)).reverse := by
    rw [← List.reverse_append, List.take_append_drop]
  have hmem : ∀ x, x ∈ (cs.take (i + 1)).reverse.flatten ↔ x ∈ (cs.take (i + 1)).flatten := by simp
  rw [hsplit] at h
  rw [← hmem]
  refine h.of_append.reaches_mem ((hmem v).2 (List.mem_flatten.2 ⟨c, ?_, hv⟩)) hvw
  rw [List.mem_take_iff_getElem]
  obtain ⟨hi, rfl⟩ := List.getElem?_eq_some_iff.1 hc
  exact ⟨i, by omega, rfl⟩

end Layered

/-- Lists that share no nodes have places of their own. -/
theorem eq_of_mem_flatten {cs : List (List α)} (hnodup : cs.flatten.Nodup) {i j : Nat}
    {c d : List α} (hc : cs[i]? = some c) (hd : cs[j]? = some d) {v : α} (hvc : v ∈ c)
    (hvd : v ∈ d) : i = j := by
  have hdisjoint := List.pairwise_iff_getElem.1 (List.nodup_flatten.1 hnodup).2
  obtain ⟨hi, rfl⟩ := List.getElem?_eq_some_iff.1 hc
  obtain ⟨hj, rfl⟩ := List.getElem?_eq_some_iff.1 hd
  rcases Nat.lt_trichotomy i j with hlt | heq | hlt
  · exact (hdisjoint i j hi hj hlt hvc hvd).elim
  · exact heq
  · exact (hdisjoint j i hj hi hlt hvd hvc).elim

theorem areComponents (hfinite : (reachable children nodes).Finite)
    (hlimit : (reachable children nodes).ncard ≤ limit) :
    AreComponents children nodes (components limit children nodes) := by
  obtain ⟨hlayered, hnodup, hmem⟩ := components_reachable hfinite hlimit
  have hnodup' : (components limit children nodes).flatten.Nodup :=
    ((List.reverse_perm _).flatten.nodup_iff).1 hnodup
  refine ⟨fun c hc => (hlayered.of_mem c (List.mem_reverse.2 hc)).1, hnodup', hmem,
    fun v hv w => ?_, fun i j c d hc hd hij v hv w hw hvw => ?_⟩
  · have hmutual := fun c (hc : c ∈ components limit children nodes) (hvc : v ∈ c) =>
      hlayered.mem_iff_mutual hnodup (List.mem_reverse.2 hc) hvc w
    constructor
    · rintro ⟨c, hc, hvc, hwc⟩
      exact (hmutual c hc hvc).1 hwc
    · intro h
      obtain ⟨c, hc, hvc⟩ := List.mem_flatten.1 ((hmem v).2 hv)
      exact ⟨c, hc, hvc, (hmutual c hc hvc).2 h⟩
  · obtain ⟨e, he, hwe⟩ := List.mem_flatten.1 (hlayered.reaches_take hc hv hvw)
    obtain ⟨k, hk, rfl⟩ := List.mem_take_iff_getElem.1 he
    have hkj := eq_of_mem_flatten hnodup' (List.getElem?_eq_getElem (by omega)) hd hwe hw
    omega

/-- If finitely many nodes can be reached, the traversal ends with their strongly connected
components, each one after the others that it reaches. It goes no deeper than there are nodes: no
bound of at least their number is ever met. -/
theorem components_exact {α : Type} [BEq α] [LawfulBEq α] (children : α → List α) (nodes : List α)
    (limit : Nat) (hfinite : (reachable children nodes).Finite)
    (hlimit : (reachable children nodes).ncard ≤ limit) :
    components limit children nodes = components (reachable children nodes).ncard children nodes ∧
      AreComponents children nodes (components limit children nodes) :=
  ⟨components_limit hfinite hlimit, areComponents hfinite hlimit⟩

/-- Nodes 0, 1 and 2 form a ring, with a shortcut from 0 to 2. They lead to 3, and so does 4, which
also leads to itself and into the ring. -/
def ringChildren : Nat → List Nat
  | 0 => [1, 2]
  | 1 => [2]
  | 2 => [0, 3]
  | 4 => [3, 4, 1]
  | _ => []

/-- The ring is one component. It comes after node 3 and before node 4. -/
theorem components_exact_ring :
    (reachable ringChildren [0, 4, 1]).Finite ∧ (reachable ringChildren [0, 4, 1]).ncard ≤ 5 ∧
    components 5 ringChildren [0, 4, 1] = [[3], [2, 1, 0], [4]] ∧
    AreComponents ringChildren [0, 4, 1] [[3], [2, 1, 0], [4]] := by
  have hsubset : reachable ringChildren [0, 4, 1] ⊆ (Finset.range 5 : Set Nat) :=
    reachable_subset (by decide) (by decide)
  have hfinite := (Finset.finite_toSet _).subset hsubset
  have hcard : (reachable ringChildren [0, 4, 1]).ncard ≤ 5 :=
    (Set.ncard_le_ncard hsubset (Finset.finite_toSet _)).trans
      (by rw [Set.ncard_coe_finset]; decide)
  have hcomponents : components 5 ringChildren [0, 4, 1] = [[3], [2, 1, 0], [4]] := by rfl
  refine ⟨hfinite, hcard, hcomponents, ?_⟩
  rw [← hcomponents]
  exact (components_exact ringChildren [0, 4, 1] 5 hfinite hcard).2

end MixedSignal.Dependency
