import Mathlib.Data.List.Nodup
import Mathlib.Data.List.Perm.Subperm
import Mathlib.Logic.Relation
import MixedSignal.Dependency

/-!
# Dependency orders

The traversal finds the strongly connected components, and so an order exists exactly if there is no
cycle: `dependencyOrder_ok` says that the order lists each node after the ones it depends on, and
`dependencyOrder_error` that a refused graph has a cycle.

`Traversal.Inv` is what every step of the traversal keeps. Nodes are compared by the number of their
discovery. A start reaches all open nodes discovered after it, an open node reaches the latest start
before it, and a followed edge does not lead from an open node to one before a start that the node
comes after. So the open nodes from a start on are a component when the start is left.
-/

set_option linter.unusedSectionVars false

namespace MixedSignal.Dependency

variable {α : Type} [BEq α] [LawfulBEq α] {children : α → List α} {graph : List α}

/-- A node can be reached from another one. -/
def Reaches (children : α → List α) : α → α → Prop :=
  Relation.ReflTransGen fun v w => w ∈ children v

/-- A node can be reached from itself by at least one edge. -/
def OnCycle (children : α → List α) (v : α) : Prop :=
  Relation.TransGen (fun v w => w ∈ children v) v v

/-! ## Orders -/

/-- Each node stands once and after the ones it depends on. -/
inductive Ordered (children : α → List α) : List α → Prop
  | nil : Ordered children []
  | snoc {order v} (h : Ordered children order) (hfresh : v ∉ order)
    (hv : ∀ w ∈ children v, w ∈ order) : Ordered children (order ++ [v])

namespace Ordered

variable {order : List α} {v : α}

theorem children_mem (h : Ordered children order) :
    ∀ v ∈ order, ∀ w ∈ children v, w ∈ order := by
  induction h with
  | nil => simp
  | snoc _ _ hv ih =>
    intro x hx w hw
    rcases List.mem_append.1 hx with hx | hx
    · exact List.mem_append_left _ (ih x hx w hw)
    · obtain rfl := List.mem_singleton.1 hx
      exact List.mem_append_left _ (hv w hw)

/-- What stands first is an order. -/
theorem of_append {rest : List α} (h : Ordered children (order ++ rest)) :
    Ordered children order := by
  generalize hall : order ++ rest = all at h
  induction h generalizing rest with
  | nil =>
    obtain ⟨rfl, -⟩ := List.append_eq_nil_iff.1 hall
    exact .nil
  | snoc h hfresh hv ih =>
    rcases List.eq_nil_or_concat rest with rfl | ⟨rest, w, rfl⟩
    · rw [List.append_nil] at hall
      rw [hall]
      exact .snoc h hfresh hv
    · rw [List.concat_eq_append, ← List.append_assoc] at hall
      exact ih (List.append_inj' hall rfl).1

theorem reaches_mem (h : Ordered children order) {w : α} (hv : v ∈ order)
    (hw : Reaches children v w) : w ∈ order := by
  induction hw with
  | refl => exact hv
  | tail _ hbc ih => exact h.children_mem _ ih _ hbc

/-- No node of an order lies on a cycle. -/
theorem not_onCycle (h : Ordered children order) : ∀ v ∈ order, ¬OnCycle children v := by
  induction h with
  | nil => simp
  | @snoc order v h hfresh hv ih =>
    intro x hx hcycle
    rcases List.mem_append.1 hx with hx | hx
    · exact ih x hx hcycle
    · obtain rfl := List.mem_singleton.1 hx
      obtain ⟨w, hw, hback⟩ := Relation.TransGen.head'_iff.1 hcycle
      exact hfresh (h.reaches_mem (hv w hw) hback)

end Ordered

/-- Components, the latest first. Each one is not empty, its nodes reach each other, and their edges
stay in it or lead to earlier ones. -/
def Layered (children : α → List α) : List (List α) → Prop
  | [] => True
  | c :: cs => Layered children cs ∧ c ≠ [] ∧ (∀ x ∈ c, ∀ y ∈ c, Reaches children x y) ∧
    ∀ x ∈ c, ∀ w ∈ children x, w ∈ c ∨ w ∈ cs.flatten

section

variable {cs : List (List α)} (h : Layered children cs)
include h

theorem Layered.of_mem : ∀ c ∈ cs, c ≠ [] ∧ ∀ x ∈ c, ∀ y ∈ c, Reaches children x y := by
  induction cs with
  | nil => simp
  | cons c cs ih =>
    obtain ⟨hcs, hne, hreach, -⟩ := h
    simpa using ⟨⟨hne, hreach⟩, fun d hd => ih hcs d hd⟩

/-- Components without cycles are single nodes, and these are in order. -/
theorem Layered.ordered (hnodup : cs.flatten.Nodup)
    (hacyclic : ∀ c ∈ cs, isCyclic children c = false) : Ordered children cs.reverse.flatten := by
  induction cs with
  | nil => exact .nil
  | cons c cs ih =>
    obtain ⟨hcs, hne, -, hedges⟩ := h
    rw [List.flatten_cons, List.nodup_append] at hnodup
    obtain ⟨-, hnodup, hdisjoint⟩ := hnodup
    have hc : isCyclic children c = false := hacyclic c List.mem_cons_self
    obtain ⟨v, rfl, hself⟩ : ∃ v, c = [v] ∧ v ∉ children v := by
      unfold isCyclic at hc
      split at hc
      · rename_i v
        exact ⟨v, rfl, by simpa using hc⟩
      · cases hc
    rw [List.reverse_cons, List.flatten_append, List.flatten_singleton]
    have hmem : ∀ x, x ∈ cs.reverse.flatten ↔ x ∈ cs.flatten := by simp
    refine .snoc (ih hcs hnodup fun d hd => hacyclic d (List.mem_cons_of_mem _ hd)) ?_ ?_
    · rw [hmem]
      exact fun hv => hdisjoint v List.mem_cons_self v hv rfl
    · intro w hw
      rw [hmem]
      rcases hedges v List.mem_cons_self w hw with hwv | hwcs
      · obtain rfl := List.mem_singleton.1 hwv
        exact absurd hw hself
      · exact hwcs

/-- A component of at least two nodes, or of one that depends on itself, has a cycle. -/
theorem Layered.exists_onCycle (hnodup : cs.flatten.Nodup) {c : List α} (hc : c ∈ cs)
    (hcyclic : isCyclic children c = true) : ∃ v ∈ c, OnCycle children v := by
  obtain ⟨hne, hreach⟩ := h.of_mem c hc
  match c, hne with
  | [v], _ =>
    have hv : v ∈ children v := by simpa [isCyclic] using hcyclic
    exact ⟨v, List.mem_cons_self, .single hv⟩
  | v :: w :: rest, _ =>
    have hvw : v ≠ w := by
      have hc := (List.nodup_flatten.1 hnodup).1 _ hc
      rintro rfl
      simp at hc
    have hto : Reaches children v w := hreach v (by simp) w (by simp)
    have hback : Reaches children w v := hreach w (by simp) v (by simp)
    refine ⟨v, List.mem_cons_self, ?_⟩
    rcases Relation.reflTransGen_iff_eq_or_transGen.1 hto with heq | htrans
    · exact absurd heq.symm hvw
    · exact htrans.trans_left hback

end

/-! ## The traversal -/

namespace Traversal

variable {t t' t'' : Traversal α} {path : List α} {fuel : Nat} {v w x : α}

theorem number_le (t : Traversal α) (v : α) : t.number v ≤ t.discovered.length := Nat.sub_le ..

theorem number_discover_self (t : Traversal α) (v : α) :
    (t.discover v).number v = t.discovered.length + 1 := by
  simp [number, discover]

theorem number_discover_of_ne (t : Traversal α) (h : w ≠ v) :
    (t.discover v).number w = t.number w := by
  have hne : (v == w) = false := by simpa using h.symm
  simp [number, discover, List.idxOf_cons, hne]

/-- A discovered node keeps its number. -/
theorem number_of_suffix (h : t.discovered <:+ t'.discovered) (hnodup : t'.discovered.Nodup)
    (hx : x ∈ t.discovered) : t'.number x = t.number x := by
  obtain ⟨l, hl⟩ := h
  rw [← hl, List.nodup_append] at hnodup
  have hxl : x ∉ l := fun hmem => hnodup.2.2 x hmem x hx rfl
  rw [number, number, ← hl, List.idxOf_append_of_notMem hxl, List.length_append]
  omega

/-- Nodes that are discovered later have larger numbers. -/
theorem length_lt_number (h : t.discovered <:+ t'.discovered) (hx : x ∈ t'.discovered)
    (hfresh : x ∉ t.discovered) : t.discovered.length < t'.number x := by
  obtain ⟨l, hl⟩ := h
  have hxl : x ∈ l := by
    rw [← hl, List.mem_append] at hx
    exact hx.resolve_right hfresh
  have hlt := List.idxOf_lt_length_of_mem hxl
  rw [number, ← hl, List.idxOf_append_of_mem hxl, List.length_append]
  omega

/-- The edge from an open node has been followed: it leads to a complete component, or to an open
node that no start before the former comes after. -/
def Followed (t : Traversal α) (x w : α) : Prop :=
  w ∈ t.closed ∨ w ∈ t.opened ∧ ∀ p ∈ t.starts, t.number p ≤ t.number x → t.number p ≤ t.number w

/-- What all steps of the traversal keep, while the visits of the nodes of `path` have not ended. -/
structure Inv (children : α → List α) (graph path : List α) (t : Traversal α) : Prop where
  nodup : t.discovered.Nodup
  subset : ∀ x ∈ t.discovered, x ∈ graph
  cover : ∀ x, x ∈ t.discovered ↔ x ∈ t.opened ∨ x ∈ t.closed
  apart : ∀ x ∈ t.opened, x ∉ t.closed
  opened_sorted : t.opened.Pairwise fun x y => t.number y < t.number x
  starts_sorted : t.starts.Pairwise fun x y => t.number y < t.number x
  starts_opened : ∀ p ∈ t.starts, p ∈ t.opened
  followed : ∀ x ∈ t.opened, x ∉ path → ∀ w ∈ children x, t.Followed x w
  start_reaches : ∀ p ∈ t.starts, ∀ x ∈ t.opened, t.number p ≤ t.number x → Reaches children p x
  reaches_start : ∀ x ∈ t.opened, ∃ p ∈ t.starts, t.number p ≤ t.number x ∧ Reaches children x p ∧
    ∀ q ∈ t.starts, t.number q ≤ t.number x → t.number q ≤ t.number p
  closed_eq : t.closed = t.components.flatten
  closed_nodup : t.closed.Nodup
  layered : Layered children t.components

/-- How the traversal goes on while nothing that was open is left. -/
structure Later (t t' : Traversal α) : Prop where
  discovered : t.discovered <:+ t'.discovered
  opened : ∀ x ∈ t.opened, x ∈ t'.opened
  closed : ∀ x ∈ t.closed, x ∈ t'.closed
  starts : t'.starts <:+ t.starts

theorem Later.refl (t : Traversal α) : Later t t :=
  ⟨List.suffix_rfl, fun _ => id, fun _ => id, List.suffix_rfl⟩

theorem Later.trans (h : Later t t') (h' : Later t' t'') : Later t t'' :=
  ⟨h.discovered.trans h'.discovered, fun x hx => h'.opened x (h.opened x hx),
    fun x hx => h'.closed x (h.closed x hx), h'.starts.trans h.starts⟩

namespace Inv

theorem empty : Inv children graph [] ({} : Traversal α) := by
  constructor <;> simp [Layered]

section

variable (h : Inv children graph path t)
include h

theorem opened_discovered (hx : x ∈ t.opened) : x ∈ t.discovered :=
  (h.cover x).2 (.inl hx)

/-- A followed edge stays followed. -/
theorem followed_later (h' : Inv children graph path t') (hl : Later t t') (hx : x ∈ t.discovered)
    (hf : t.Followed x w) : t'.Followed x w := by
  rcases hf with hw | ⟨hw, hp⟩
  · exact .inl (hl.closed w hw)
  · refine .inr ⟨hl.opened w hw, fun p hp' => ?_⟩
    have hstart := hl.starts.subset hp'
    have hnumber : ∀ y ∈ t.discovered, t'.number y = t.number y := fun y hy =>
      number_of_suffix hl.discovered h'.nodup hy
    rw [hnumber p (h.opened_discovered (h.starts_opened p hstart)), hnumber x hx,
      hnumber w (h.opened_discovered hw)]
    exact hp p hstart

/-- There is room for a node that has not been discovered. -/
theorem length_lt (hv : v ∈ graph) (hfresh : v ∉ t.discovered) :
    t.discovered.length < graph.length := by
  have hsub : v :: t.discovered ⊆ graph := by
    intro x hx
    rcases List.mem_cons.1 hx with rfl | hx
    · exact hv
    · exact h.subset x hx
  exact (List.subperm_of_subset (List.nodup_cons.2 ⟨hfresh, h.nodup⟩) hsub).length_le

/-- A discovered node is open and a start. Everything that starts must reach it. -/
theorem discover (hv : v ∈ graph) (hfresh : v ∉ t.discovered)
    (hreach : ∀ p ∈ t.starts, Reaches children p v) :
    Inv children graph (v :: path) (t.discover v) := by
  have hne : ∀ x ∈ t.opened, x ≠ v := by
    rintro x hx rfl
    exact hfresh (h.opened_discovered hx)
  have hnumber : ∀ x ∈ t.opened, (t.discover v).number x = t.number x := fun x hx =>
    t.number_discover_of_ne (hne x hx)
  have hself := t.number_discover_self v
  have hlt : ∀ x ∈ t.opened, (t.discover v).number x < (t.discover v).number v := by
    intro x hx
    rw [hnumber x hx, hself]
    exact Nat.lt_succ_of_le (t.number_le x)
  have hsorted : ∀ l : List α, (∀ x ∈ l, x ∈ t.opened) →
      l.Pairwise (fun x y => t.number y < t.number x) →
      (v :: l).Pairwise fun x y => (t.discover v).number y < (t.discover v).number x := by
    intro l hl hsorted
    refine .cons (fun y hy => hlt y (hl y hy)) (hsorted.imp_of_mem fun hx hy hxy => ?_)
    rwa [hnumber _ (hl _ hx), hnumber _ (hl _ hy)]
  refine ⟨List.nodup_cons.2 ⟨hfresh, h.nodup⟩, ?_, ?_, ?_, hsorted _ (fun _ => id) h.opened_sorted,
    hsorted _ h.starts_opened h.starts_sorted, ?_, ?_, ?_, ?_, h.closed_eq, h.closed_nodup,
    h.layered⟩
  · intro x hx
    rcases List.mem_cons.1 hx with rfl | hx
    · exact hv
    · exact h.subset x hx
  · intro x
    have hcover := h.cover x
    simp only [Traversal.discover, List.mem_cons, hcover, or_assoc]
  · intro x hx
    rcases List.mem_cons.1 hx with rfl | hx
    · exact fun hclosed => hfresh ((h.cover _).2 (.inr hclosed))
    · exact h.apart x hx
  · intro p hp
    rcases List.mem_cons.1 hp with rfl | hp
    · exact List.mem_cons_self
    · exact List.mem_cons_of_mem _ (h.starts_opened p hp)
  · intro x hx hpath w hw
    rw [List.mem_cons, not_or] at hpath
    have hxo : x ∈ t.opened := (List.mem_cons.1 hx).resolve_left hpath.1
    rcases h.followed x hxo hpath.2 w hw with hclosed | ⟨hopen, hstarts⟩
    · exact .inl hclosed
    · refine .inr ⟨List.mem_cons_of_mem _ hopen, fun p hp hle => ?_⟩
      rcases List.mem_cons.1 hp with rfl | hp
      · exact absurd hle (Nat.not_le.2 (hlt x hxo))
      · rw [hnumber p (h.starts_opened p hp), hnumber x hxo] at hle
        rw [hnumber p (h.starts_opened p hp), hnumber w hopen]
        exact hstarts p hp hle
  · intro p hp x hx hle
    rcases List.mem_cons.1 hx with rfl | hxo
    · rcases List.mem_cons.1 hp with rfl | hp
      · exact .refl
      · exact hreach p hp
    · rcases List.mem_cons.1 hp with rfl | hp
      · exact absurd hle (Nat.not_le.2 (hlt x hxo))
      · rw [hnumber p (h.starts_opened p hp), hnumber x hxo] at hle
        exact h.start_reaches p hp x hxo hle
  · intro x hx
    rcases List.mem_cons.1 hx with rfl | hxo
    · exact ⟨x, List.mem_cons_self, Nat.le_refl _, .refl, fun _ _ => id⟩
    · obtain ⟨p, hp, hle, hxp, hmax⟩ := h.reaches_start x hxo
      have hp' := hnumber p (h.starts_opened p hp)
      refine ⟨p, List.mem_cons_of_mem _ hp, by rwa [hp', hnumber x hxo], hxp, fun q hq hqx => ?_⟩
      rcases List.mem_cons.1 hq with rfl | hq
      · exact absurd hqx (Nat.not_le.2 (hlt x hxo))
      · rw [hnumber q (h.starts_opened q hq), hnumber x hxo] at hqx
        rw [hnumber q (h.starts_opened q hq), hp']
        exact hmax q hq hqx

/-- Meeting an open node again leaves the starts up to it. -/
theorem mem_meet_starts (p : α) :
    p ∈ (t.meet w).starts ↔ p ∈ t.starts ∧ t.number p ≤ t.number w := by
  have hsorted := h.starts_sorted
  change p ∈ t.starts.dropWhile _ ↔ _
  generalize t.starts = l at hsorted
  induction hsorted with
  | nil => simp
  | @cons q l hq _ ih =>
    rw [List.dropWhile_cons]
    split
    · rename_i hlt
      rw [ih, List.mem_cons]
      have hlt : t.number w < t.number q := by simpa using hlt
      constructor
      · rintro ⟨hp, hle⟩
        exact ⟨.inr hp, hle⟩
      · rintro ⟨rfl | hp, hle⟩
        · exact absurd hle (Nat.not_le.2 hlt)
        · exact ⟨hp, hle⟩
    · rename_i hle
      have hle : t.number q ≤ t.number w := by simpa using hle
      refine ⟨fun hp => ⟨hp, ?_⟩, And.left⟩
      rcases List.mem_cons.1 hp with rfl | hp
      · exact hle
      · exact Nat.le_trans (Nat.le_of_lt (hq p hp)) hle

end

theorem later_meet (t : Traversal α) (w : α) : Later t (t.meet w) :=
  ⟨List.suffix_rfl, fun _ => id, fun _ => id, List.dropWhile_suffix _⟩

/-- Meeting an open node again by an edge from a node that all starts reach: the starts after the
met node lie on a cycle with it. -/
theorem meet (h : Inv children graph path t) (hw : w ∈ t.opened) (hvw : w ∈ children v)
    (hreach : ∀ p ∈ t.starts, Reaches children p v) :
    Inv children graph path (t.meet w) ∧ (t.meet w).Followed v w := by
  have hmem := h.mem_meet_starts (w := w)
  refine ⟨⟨h.nodup, h.subset, h.cover, h.apart, h.opened_sorted, ?_, ?_, ?_, ?_, ?_, h.closed_eq,
    h.closed_nodup, h.layered⟩, ?_⟩
  · exact h.starts_sorted.sublist (List.dropWhile_suffix _).sublist
  · exact fun p hp => h.starts_opened p ((hmem p).1 hp).1
  · intro x hx hpath y hy
    rcases h.followed x hx hpath y hy with hclosed | ⟨hopen, hstarts⟩
    · exact .inl hclosed
    · exact .inr ⟨hopen, fun p hp => hstarts p ((hmem p).1 hp).1⟩
  · exact fun p hp => h.start_reaches p ((hmem p).1 hp).1
  · intro x hx
    obtain ⟨p, hp, hpx, hxp, hmax⟩ := h.reaches_start x hx
    by_cases hpw : t.number p ≤ t.number w
    · exact ⟨p, (hmem p).2 ⟨hp, hpw⟩, hpx, hxp, fun q hq => hmax q ((hmem q).1 hq).1⟩
    · -- the start is lost, and the node reaches the one before the met node
      obtain ⟨p', hp', hpw', hwp', hmax'⟩ := h.reaches_start w hw
      have hlt : t.number w ≤ t.number x := by omega
      refine ⟨p', (hmem p').2 ⟨hp', hpw'⟩, Nat.le_trans hpw' hlt, ?_, fun q hq _ => ?_⟩
      · exact ((hxp.trans (hreach p hp)).tail hvw).trans hwp'
      · exact hmax' q ((hmem q).1 hq).1 ((hmem q).1 hq).2
  · exact .inr ⟨hw, fun p hp _ => ((hmem p).1 hp).2⟩

end Inv

theorem splitThrough_eq {l : List α} (hv : v ∈ l) :
    ∃ before after, l = before ++ v :: after ∧ splitThrough v l = (before ++ [v], after) := by
  induction l with
  | nil => simp at hv
  | cons x l ih =>
    unfold splitThrough
    by_cases hx : x = v
    · subst hx
      exact ⟨[], l, rfl, by simp⟩
    · obtain ⟨before, after, rfl, hsplit⟩ := ih ((List.mem_cons.1 hv).resolve_left (Ne.symm hx))
      exact ⟨x :: before, after, rfl, by simp [hx, hsplit]⟩

namespace Inv

/-- Leaving a node that starts a component completes it: the open nodes from it on reach each
other, and their edges do not lead to other open nodes. -/
theorem finish_start (h : Inv children graph (v :: path) t) {starts : List α}
    (hstarts : t.starts = v :: starts) (hv : ∀ w ∈ children v, t.Followed v w)
    (hpath : ∀ x ∈ path, t.number x < t.number v) :
    Inv children graph path (t.finish v) ∧ (t.finish v).discovered = t.discovered ∧
      (t.finish v).starts = starts ∧
      (∀ x ∈ t.opened, t.number x < t.number v → x ∈ (t.finish v).opened) ∧
      ∀ x ∈ t.closed, x ∈ (t.finish v).closed := by
  have hstart : v ∈ t.starts := by simp [hstarts]
  have hvo := h.starts_opened v hstart
  obtain ⟨before, after, hopened, hsplit⟩ := splitThrough_eq hvo
  have hfinish : t.finish v = { t with
      starts := starts
      opened := after
      closed := (before ++ [v]) ++ t.closed
      components := (before ++ [v]) :: t.components } := by
    simp [Traversal.finish, hstarts, hsplit]
  have hsorted := h.opened_sorted
  rw [hopened, List.pairwise_append, List.pairwise_cons] at hsorted
  obtain ⟨hbefore_sorted, ⟨hafter_lt, hafter_sorted⟩, hbetween⟩ := hsorted
  have hmem : ∀ x, x ∈ t.opened ↔ x ∈ before ++ [v] ∨ x ∈ after := by
    intro x
    simp [hopened, or_assoc]
  have hcomponent : ∀ x ∈ before ++ [v], t.number v ≤ t.number x := by
    intro x hx
    rcases List.mem_append.1 hx with hx | hx
    · exact Nat.le_of_lt (hbetween x hx v List.mem_cons_self)
    · obtain rfl := List.mem_singleton.1 hx
      exact Nat.le_refl _
  have hstart_lt : ∀ p ∈ starts, t.number p < t.number v := by
    have hsorted := h.starts_sorted
    rw [hstarts] at hsorted
    exact fun p => List.rel_of_pairwise_cons hsorted
  have hlater : ∀ x ∈ t.opened, t.number x < t.number v → x ∈ after := by
    intro x hx hlt
    refine ((hmem x).1 hx).resolve_left fun hc => ?_
    exact absurd (hcomponent x hc) (Nat.not_le.2 hlt)
  -- the nodes of the component reach its start, and their edges stay among them
  have hback : ∀ x ∈ before ++ [v], Reaches children x v := by
    intro x hx
    obtain ⟨p, hp, -, hxp, hmax⟩ := h.reaches_start x ((hmem x).2 (.inl hx))
    rw [hstarts] at hp
    rcases List.mem_cons.1 hp with rfl | hp
    · exact hxp
    · exact absurd (hmax v hstart (hcomponent x hx)) (Nat.not_le.2 (hstart_lt p hp))
  have hedges : ∀ x ∈ before ++ [v], ∀ w ∈ children x, t.Followed x w := by
    intro x hx w hw
    by_cases hxv : x = v
    · exact hxv ▸ hv w (hxv ▸ hw)
    · refine h.followed x ((hmem x).2 (.inl hx)) ?_ w hw
      rw [List.mem_cons, not_or]
      exact ⟨hxv, fun hp => absurd (hpath x hp) (Nat.not_lt.2 (hcomponent x hx))⟩
  rw [hfinish]
  refine ⟨⟨h.nodup, h.subset, ?_, ?_, hafter_sorted, ?_, ?_, ?_, ?_, ?_, ?_, ?_, h.layered, ?_, ?_,
    ?_⟩,
    rfl, rfl, hlater, fun x hx => List.mem_append_right _ hx⟩
  · intro x
    simp only [h.cover, hmem, List.mem_append, or_assoc, or_left_comm]
  · intro x hx hclosed
    rcases List.mem_append.1 hclosed with hc | hc
    · exact absurd (hcomponent x hc) (Nat.not_le.2 (hafter_lt x hx))
    · exact h.apart x ((hmem x).2 (.inr hx)) hc
  · have hsorted := h.starts_sorted
    rw [hstarts] at hsorted
    exact hsorted.of_cons
  · intro p hp
    exact hlater p (h.starts_opened p (by simp [hstarts, hp])) (hstart_lt p hp)
  · intro x hx hxpath w hw
    have hxv : x ≠ v := by
      rintro rfl
      exact absurd (hafter_lt x hx) (Nat.lt_irrefl _)
    rcases h.followed x ((hmem x).2 (.inr hx)) (by simp [hxv, hxpath]) w hw with hc | ⟨ho, hs⟩
    · exact .inl (List.mem_append_right _ hc)
    · rcases (hmem w).1 ho with hc | ho
      · exact .inl (List.mem_append_left _ hc)
      · exact .inr ⟨ho, fun p hp => hs p (by simp [hstarts, hp])⟩
  · intro p hp x hx
    exact h.start_reaches p (by simp [hstarts, hp]) x ((hmem x).2 (.inr hx))
  · intro x hx
    obtain ⟨p, hp, hpx, hxp, hmax⟩ := h.reaches_start x ((hmem x).2 (.inr hx))
    rw [hstarts] at hp
    rcases List.mem_cons.1 hp with rfl | hp
    · exact absurd (hafter_lt x hx) (Nat.not_lt.2 hpx)
    · exact ⟨p, hp, hpx, hxp, fun q hq => hmax q (by simp [hstarts, hq])⟩
  · simp [h.closed_eq]
  · have hnodup : (before ++ [v]).Nodup := by
      have := h.opened_sorted.imp (S := (· ≠ ·)) fun {x y} hxy heq => absurd hxy (by simp [heq])
      rw [hopened, List.append_cons] at this
      exact (List.nodup_append.1 this).1
    refine List.nodup_append.2 ⟨hnodup, h.closed_nodup, ?_⟩
    rintro x hx _ hc rfl
    exact h.apart x ((hmem x).2 (.inl hx)) hc
  · simp
  · intro x hx y hy
    exact (hback x hx).trans (h.start_reaches v hstart y ((hmem y).2 (.inl hy)) (hcomponent y hy))
  · intro x hx w hw
    rw [← h.closed_eq]
    rcases hedges x hx w hw with hc | ⟨ho, hs⟩
    · exact .inr hc
    · refine .inl (((hmem w).1 ho).resolve_right fun ha => ?_)
      exact absurd (hs v hstart (hcomponent x hx)) (Nat.not_le.2 (hafter_lt w ha))

end Inv

/-- Follow an edge to a node. -/
def follow (children : α → List α) (fuel : Nat) (t : Traversal α) (w : α) : Traversal α :=
  if t.discovered.contains w then (if t.closed.contains w then t else t.meet w)
  else t.visit children fuel w

theorem visit_succ (fuel : Nat) (v : α) (t : Traversal α) :
    t.visit children (fuel + 1) v = if t.discovered.contains v then t
      else ((children v).foldl (follow children fuel) (t.discover v)).finish v :=
  rfl

/-- A node may be visited: the visits of the nodes on the path go on, all starts reach the node,
and there is fuel for what has not been discovered. -/
structure Ready (children : α → List α) (graph path : List α) (fuel : Nat) (v : α)
    (t : Traversal α) : Prop where
  inv : Inv children graph path t
  mem : v ∈ graph
  path_opened : ∀ x ∈ path, x ∈ t.opened
  starts_reach : ∀ p ∈ t.starts, Reaches children p v
  fuel_le : graph.length ≤ t.discovered.length + fuel

/-- Visits with this much fuel keep the invariant and discover the node. -/
def Visits (children : α → List α) (graph : List α) (fuel : Nat) : Prop :=
  ∀ path v t, Ready children graph path fuel v t →
    Inv children graph path (t.visit children fuel v) ∧ Later t (t.visit children fuel v) ∧
      v ∈ (t.visit children fuel v).discovered

/-- The node of a ready traversal is open while its edges are followed. -/
theorem Ready.of_later (h : Ready children graph path fuel v t) (hinv : Inv children graph path t')
    (hl : Later t t') : Ready children graph path fuel v t' where
  inv := hinv
  mem := h.mem
  path_opened x hx := hl.opened x (h.path_opened x hx)
  starts_reach p hp := h.starts_reach p (hl.starts.subset hp)
  fuel_le := Nat.le_trans h.fuel_le (Nat.add_le_add_right hl.discovered.length_le fuel)

/-- The edges of a discovered node may be followed. -/
theorem Ready.discover (h : Ready children graph path (fuel + 1) v t) (hfresh : v ∉ t.discovered) :
    Ready children graph (v :: path) fuel v (t.discover v) := by
  refine ⟨h.inv.discover h.mem hfresh h.starts_reach, h.mem, ?_, ?_, ?_⟩
  · intro x hx
    rcases List.mem_cons.1 hx with rfl | hx
    · exact List.mem_cons_self
    · exact List.mem_cons_of_mem _ (h.path_opened x hx)
  · intro p hp
    rcases List.mem_cons.1 hp with rfl | hp
    · exact .refl
    · exact h.starts_reach p hp
  · have hfuel := h.fuel_le
    simp only [Traversal.discover, List.length_cons]
    omega

/-- Without fuel everything has been discovered. -/
theorem Ready.mem_discovered (h : Ready children graph path 0 v t) : v ∈ t.discovered := by
  by_contra hfresh
  exact absurd h.fuel_le (Nat.not_le.2 (h.inv.length_lt h.mem hfresh))

/-- Leaving a node, whether it starts a component or not. -/
theorem finish_keeps (h : Inv children graph path t) (hfresh : v ∉ t.discovered)
    (h' : Inv children graph (v :: path) t') (hl : Later (t.discover v) t')
    (hpath : ∀ x ∈ path, x ∈ t.opened) (hv : ∀ w ∈ children v, t'.Followed v w) :
    Inv children graph path (t'.finish v) ∧ Later t (t'.finish v) ∧
      v ∈ (t'.finish v).discovered := by
  have hsuffix : t.discovered <:+ t'.discovered := (List.suffix_cons v _).trans hl.discovered
  have hvd : v ∈ t'.discovered := hl.discovered.subset List.mem_cons_self
  have hold : ∀ x ∈ t.discovered, t'.number x < t'.number v := by
    intro x hx
    rw [number_of_suffix hsuffix h'.nodup hx]
    exact Nat.lt_of_le_of_lt (t.number_le x) (length_lt_number hsuffix hvd hfresh)
  have hopened : ∀ x ∈ t.opened, x ∈ t'.opened := fun x hx =>
    hl.opened x (List.mem_cons_of_mem _ hx)
  by_cases hstart : ∃ starts, t'.starts = v :: starts
  · obtain ⟨starts, hstarts⟩ := hstart
    obtain ⟨hinv, hdiscovered, hs, ho, hc⟩ := h'.finish_start hstarts hv fun x hx =>
      hold x (h.opened_discovered (hpath x hx))
    refine ⟨hinv, ⟨hdiscovered ▸ hsuffix, fun x hx => ?_, fun x hx => hc x (hl.closed x hx), ?_⟩,
      hdiscovered ▸ hvd⟩
    · exact ho x (hopened x hx) (hold x (h.opened_discovered hx))
    · have hsub := hl.starts
      rw [hstarts] at hsub
      rw [hs]
      exact (List.suffix_cons_iff.1 hsub).elim (fun heq => (List.cons.inj heq).2 ▸ List.suffix_rfl)
        fun hsub => (List.suffix_cons v starts).trans hsub
  · have hfinish : t'.finish v = t' := by
      unfold finish
      split
      · rename_i top starts hstarts
        rw [if_neg]
        rintro htop
        exact hstart ⟨starts, by rw [hstarts, eq_of_beq htop]⟩
      · rfl
    rw [hfinish]
    refine ⟨{ h' with followed := fun x hx hxpath w hw => ?_ },
      ⟨hsuffix, hopened, hl.closed, ?_⟩, hvd⟩
    · by_cases hxv : x = v
      · exact hxv ▸ hv w (hxv ▸ hw)
      · exact h'.followed x hx (by simp [hxv, hxpath]) w hw
    · exact (List.suffix_cons_iff.1 hl.starts).resolve_left fun heq => hstart ⟨_, heq⟩

section

variable (hgraph : ∀ v ∈ graph, ∀ w ∈ children v, w ∈ graph)
include hgraph

/-- The node at the end of an edge may be visited. -/
theorem Ready.child (h : Ready children graph path fuel v t) (hw : w ∈ children v) :
    Ready children graph path fuel w t where
  inv := h.inv
  mem := hgraph v h.mem w hw
  path_opened := h.path_opened
  starts_reach p hp := (h.starts_reach p hp).tail hw
  fuel_le := h.fuel_le

/-- Following an edge keeps the invariant. -/
theorem follow_keeps (hvisit : Visits children graph fuel)
    (h : Ready children graph (v :: path) fuel v t) (hw : w ∈ children v) :
    Inv children graph (v :: path) (follow children fuel t w) ∧
      Later t (follow children fuel t w) ∧ (follow children fuel t w).Followed v w := by
  have hvd := h.inv.opened_discovered (h.path_opened v List.mem_cons_self)
  unfold follow
  split
  · rename_i hdiscovered
    split
    · rename_i hclosed
      exact ⟨h.inv, .refl t, .inl (by simpa using hclosed)⟩
    · rename_i hclosed
      have hopened : w ∈ t.opened :=
        ((h.inv.cover w).1 (by simpa using hdiscovered)).resolve_right (by simpa using hclosed)
      obtain ⟨hinv, hfollowed⟩ := h.inv.meet hopened hw h.starts_reach
      exact ⟨hinv, Inv.later_meet t w, hfollowed⟩
  · rename_i hfresh
    have hfresh : w ∉ t.discovered := by simpa using hfresh
    obtain ⟨hinv, hl, hwd⟩ := hvisit (v :: path) w t (h.child hgraph hw)
    refine ⟨hinv, hl, ?_⟩
    rcases (hinv.cover w).1 hwd with hopened | hclosed
    · refine .inr ⟨hopened, fun p _ hle => Nat.le_trans hle ?_⟩
      rw [number_of_suffix hl.discovered hinv.nodup hvd]
      exact Nat.le_trans (t.number_le v)
        (Nat.le_of_lt (length_lt_number hl.discovered hwd hfresh))
    · exact .inl hclosed

/-- Following all edges of a node keeps the invariant. -/
theorem foldl_follow_keeps (hvisit : Visits children graph fuel) :
    ∀ (ws : List α) {t : Traversal α}, Ready children graph (v :: path) fuel v t →
      (∀ w ∈ ws, w ∈ children v) →
      Inv children graph (v :: path) (ws.foldl (follow children fuel) t) ∧
        Later t (ws.foldl (follow children fuel) t) ∧
        ∀ w ∈ ws, (ws.foldl (follow children fuel) t).Followed v w
  | [], t, h, _ => ⟨h.inv, .refl t, by simp⟩
  | w :: ws, t, h, hws => by
    obtain ⟨hinv, hl, hw⟩ := follow_keeps hgraph hvisit h (hws w List.mem_cons_self)
    have hready := h.of_later hinv hl
    obtain ⟨hinv', hl', hws'⟩ := foldl_follow_keeps hvisit ws hready
      fun x hx => hws x (List.mem_cons_of_mem _ hx)
    refine ⟨hinv', hl.trans hl', fun x hx => ?_⟩
    rcases List.mem_cons.1 hx with rfl | hx
    · have hvd := hinv.opened_discovered (hready.path_opened v List.mem_cons_self)
      exact hinv.followed_later hinv' hl' hvd hw
    · exact hws' x hx

theorem visits : ∀ fuel, Visits children graph fuel
  | 0 => fun path v t h => ⟨h.inv, .refl t, h.mem_discovered⟩
  | fuel + 1 => fun path v t h => by
    rw [visit_succ]
    split
    · rename_i hdiscovered
      exact ⟨h.inv, .refl t, by simpa using hdiscovered⟩
    · rename_i hfresh
      have hfresh : v ∉ t.discovered := by simpa using hfresh
      obtain ⟨hinv, hl, hfollowed⟩ := foldl_follow_keeps hgraph (visits fuel) (children v)
        (h.discover hfresh) fun _ => id
      exact finish_keeps h.inv hfresh hinv hl h.path_opened hfollowed

end

end Traversal

/-! ## The order -/

variable {limit : Nat} {nodes : List α}

/-- Between visits from outside no node starts a component, and any node may be visited. -/
theorem Traversal.ready_of_starts {t : Traversal α} {v : α} (hinv : t.Inv children graph [])
    (hstarts : t.starts = []) (hv : v ∈ graph) (hlimit : graph.length ≤ limit) :
    Traversal.Ready children graph [] limit v t :=
  ⟨hinv, hv, by simp, by simp [hstarts], Nat.le_trans hlimit (Nat.le_add_left ..)⟩

theorem Traversal.Later.starts_eq_nil {t t' : Traversal α} (h : Traversal.Later t t')
    (hstarts : t.starts = []) : t'.starts = [] := by
  have hsuffix := h.starts
  rw [hstarts] at hsuffix
  exact List.suffix_nil.1 hsuffix

variable (hgraph : ∀ v ∈ graph, ∀ w ∈ children v, w ∈ graph) (hlimit : graph.length ≤ limit)
include hgraph hlimit

/-- What is left after all visits: no node is open. -/
theorem visitAll_spec :
    ∀ (nodes : List α) (t : Traversal α), (∀ v ∈ nodes, v ∈ graph) →
      t.Inv children graph [] → t.starts = [] →
      (nodes.foldl (fun t v => t.visit children limit v) t).Inv children graph [] ∧
        (nodes.foldl (fun t v => t.visit children limit v) t).starts = [] ∧
        (∀ v ∈ t.discovered,
          v ∈ (nodes.foldl (fun t v => t.visit children limit v) t).discovered) ∧
        ∀ v ∈ nodes, v ∈ (nodes.foldl (fun t v => t.visit children limit v) t).discovered
  | [], t, _, hinv, hstarts => ⟨hinv, hstarts, fun _ => id, by simp⟩
  | v :: nodes, t, hnodes, hinv, hstarts => by
    obtain ⟨hinv', hl, hv⟩ := Traversal.visits hgraph limit [] v t
      (Traversal.ready_of_starts hinv hstarts (hnodes v List.mem_cons_self) hlimit)
    obtain ⟨hinv'', hstarts'', hmem, hall⟩ := visitAll_spec nodes _
      (fun x hx => hnodes x (List.mem_cons_of_mem _ hx)) hinv' (hl.starts_eq_nil hstarts)
    refine ⟨hinv'', hstarts'', fun x hx => hmem x (hl.discovered.subset hx), fun x hx => ?_⟩
    rcases List.mem_cons.1 hx with rfl | hx
    · exact hmem x hv
    · exact hall x hx

/-- The components are complete and hold all nodes, each once. -/
theorem components_spec (hnodes : ∀ v ∈ nodes, v ∈ graph) :
    Layered children (components limit children nodes).reverse ∧
      (components limit children nodes).reverse.flatten.Nodup ∧
      (∀ v ∈ nodes, v ∈ (components limit children nodes).flatten) ∧
      ∀ v ∈ (components limit children nodes).flatten, v ∈ graph := by
  obtain ⟨hinv, hstarts, -, hall⟩ := visitAll_spec hgraph hlimit nodes {} hnodes .empty rfl
  unfold components
  rw [List.reverse_reverse]
  generalize nodes.foldl _ _ = t at hinv hstarts hall
  have hopened : ∀ x, x ∉ t.opened := by
    intro x hx
    obtain ⟨p, hp, -⟩ := hinv.reaches_start x hx
    rw [hstarts] at hp
    cases hp
  have hmem : ∀ x, x ∈ t.components.reverse.flatten ↔ x ∈ t.discovered := by
    intro x
    have hrev : x ∈ t.components.reverse.flatten ↔ x ∈ t.components.flatten := by simp
    rw [hrev, ← hinv.closed_eq, hinv.cover]
    exact ⟨.inr, fun h => h.resolve_left (hopened x)⟩
  refine ⟨hinv.layered, hinv.closed_eq ▸ hinv.closed_nodup, fun v hv => ?_, fun v hv => ?_⟩
  · exact (hmem v).2 (hall v hv)
  · exact hinv.subset v ((hmem v).1 hv)

/-- An order lists all nodes, each after those it depends on. -/
theorem dependencyOrder_ok (hnodes : ∀ v ∈ nodes, v ∈ graph) {order : List α}
    (h : dependencyOrder limit children nodes = .ok order) :
    Ordered children order ∧ (∀ v ∈ nodes, v ∈ order) ∧ ∀ v ∈ order, v ∈ graph := by
  obtain ⟨hlayered, hnodup, hall, hsubset⟩ := components_spec hgraph hlimit hnodes
  unfold dependencyOrder at h
  simp only at h
  split at h
  · cases h
  · rename_i hnone
    obtain rfl := Except.ok.inj h
    refine ⟨?_, hall, hsubset⟩
    have hordered := hlayered.ordered hnodup fun c hc => by
      simpa using List.find?_eq_none.1 hnone c (List.mem_reverse.1 hc)
    rwa [List.reverse_reverse] at hordered

/-- A graph is refused only for a cycle. -/
theorem dependencyOrder_error (hnodes : ∀ v ∈ nodes, v ∈ graph) {cycle : List α}
    (h : dependencyOrder limit children nodes = .error cycle) :
    ∃ v ∈ graph, OnCycle children v := by
  obtain ⟨hlayered, hnodup, -, hsubset⟩ := components_spec hgraph hlimit hnodes
  unfold dependencyOrder at h
  simp only at h
  split at h
  · rename_i c hfind
    have hmem := List.mem_of_find?_eq_some hfind
    obtain ⟨v, hv, hcycle⟩ := hlayered.exists_onCycle hnodup (List.mem_reverse.2 hmem)
      (List.find?_some hfind)
    exact ⟨v, hsubset v (List.mem_flatten.2 ⟨c, hmem, hv⟩), hcycle⟩
  · cases h

end MixedSignal.Dependency
