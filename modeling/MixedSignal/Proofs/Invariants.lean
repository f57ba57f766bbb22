import Mathlib
import MixedSignal.Proofs.Construction
import MixedSignal.Proofs.Exact

/-!
# Invariants of stores

What calls can build, they build in one direction: a node refers to older nodes only, and what was
made once is never changed. So every expression is a finite acyclic graph, and numbers of nodes and
signals keep their meaning (`Store.Built.store_invariant`).

What constructors make is simplified. `Store.Built.normal_form` says what is left of an arithmetic
operator and of a selection, however the nodes were made.
-/

set_option linter.unusedSectionVars false

namespace MixedSignal.NodeKind

variable {R : Type} {kind : NodeKind R}

/-- The operator and the operands of an arithmetic node. -/
def arith? : NodeKind R → Option (ArithOp × List NodeId)
  | .arith op xs => some (op, xs)
  | _ => none

/-- The elements and the address of a selection. -/
def select? : NodeKind R → Option (List NodeId × NodeId)
  | .select xs a => some (xs, a)
  | _ => none

theorem arith?_eq_some {op : ArithOp} {xs : List NodeId} :
    kind.arith? = some (op, xs) ↔ kind = .arith op xs := by
  cases kind <;> simp [arith?]

theorem select?_eq_some {xs : List NodeId} {a : NodeId} :
    kind.select? = some (xs, a) ↔ kind = .select xs a := by
  cases kind <;> simp [select?]

end MixedSignal.NodeKind

namespace MixedSignal.Store

variable {R : Type} [Scalar R] {rounding : Rounding R} {s : Store R} {xs : List NodeId}

/-! ## Nodes, leaves and names -/

/-- Whatever a node refers to, however indirectly, is older. -/
theorem WellTyped.lt_of_transGen (h : s.WellTyped rounding) {i j : NodeId}
    (hi : i < s.nodes.size) (hij : Relation.TransGen (fun a b => b ∈ s.children a) i j) : j < i := by
  induction hij with
  | single hj => exact h.below i hi _ hj
  | tail _ hk ih => exact (h.below _ (ih.trans hi) _ hk).trans ih

/-- A name is found exactly if a signal has it. -/
theorem WellNamed.outcome_signalNamed (h : s.WellNamed) {name : String} {x : SignalId} :
    outcome (Build.signalNamed name) s = (.ok x, s) ↔
      x < s.signals.size ∧ (s.signal x).name = name := by
  rw [← h.signalNamed?_eq_some_iff, Build.signalNamed, outcome_get_bind]
  cases hfound : s.signalNamed? name with
  | some y => simp [outcome_pure]
  | none => simp [outcome_throw]

/-- Calls, whether they succeed or fail, build acyclic expressions over signals with names of their
own, and they do not change what is there. -/
theorem Built.store_invariant (hb : s.Built fun _ _ => True) :
    (∀ i < s.nodes.size, ∀ j ∈ s.children i, j < i) ∧
    (∀ i < s.nodes.size, ∀ j, Relation.TransGen (fun a b => b ∈ s.children a) i j → j < i) ∧
    (∀ name x, outcome (Build.signalNamed name) s = (.ok x, s) ↔
      x < s.signals.size ∧ (s.signal x).name = name) ∧
    (∀ x < s.signals.size, Identifier.isValid (s.signal x).name = true) ∧
    (∀ x < s.signals.size, ∀ y < s.signals.size,
      (s.signal x).name = (s.signal y).name → x = y) ∧
    (∀ x < s.signals.size, s.leaf x < s.nodes.size ∧ s.kind (s.leaf x) = .signal x ∧
      s.format (s.leaf x) = (s.signal x).format) ∧
    ∀ c : Call R, c.Valid s →
      s.nodes.size ≤ (outcome c.run s).2.nodes.size ∧
      s.signals.size ≤ (outcome c.run s).2.signals.size ∧
      (∀ i < s.nodes.size, (outcome c.run s).2.kind i = s.kind i ∧
        (outcome c.run s).2.format i = s.format i) ∧
      ∀ x < s.signals.size, (outcome c.run s).2.signal x = s.signal x ∧
        (outcome c.run s).2.leaf x = s.leaf x := by
  have hs := hb.wellTyped_any
  have hn := hb.wellNamed
  refine ⟨hs.below, fun i hi j => hs.lt_of_transGen hi, fun name x => hn.outcome_signalNamed,
    hn.valid, hn.distinct,
    fun x hx => ⟨hs.leaf_lt x hx, hs.leaf_kind x hx, hs.leaf_format hx⟩, fun c hc => ?_⟩
  obtain ⟨hext, -⟩ := Call.run_advances hs hc (c.rounds_any s) hs
  exact ⟨hext.size_le, hext.signals_le, fun i hi => ⟨hext.kind_eq hi, hext.format_eq hi⟩,
    fun x hx => ⟨hext.signal_eq x hx, hext.leaf_eq x hx⟩⟩

/-- A store with an input `x` and a bit `fast`, whose nodes are `x + 7`, `2 x + 8`, a case table and
a selection between it and a constant. A second signal `x` was refused. -/
def selectionStore : Store ℚ :=
  Store.runAll {} [
    .signal "x" (.uint 4) .input none,
    .signal "fast" .bit .input none,
    .signal "x" .bit .input none,
    .arithmetic .sum [.value (.int 3), .signal 0, .value (.int 4)],
    .arithmetic .sum [.node 5, .signal 0, .value (.int 1)],
    .eqnCase [.signal 0, .node 8] [1],
    .array [.value (.int 5), .node 9] (.signal 1)]

theorem selectionStore_computed :
    (selectionStore.Built fun _ _ => True) ∧ selectionStore.nodes.size = 12 ∧
    (1 < selectionStore.signals.size ∧ (selectionStore.signal 1).name = "fast") ∧
    selectionStore.children 9 = [0, 8, 1] ∧ selectionStore.kind 8 = .arith .sum [0, 0, 7] ∧
    selectionStore.kind 11 = .select [10, 9] 1 ∧ ∃ f, selectionStore.format 11 = .int f := by
  refine ⟨Built.empty.runAll ?_, ?_, ?_, ?_, NodeKind.arith?_eq_some.1 ?_,
    NodeKind.select?_eq_some.1 ?_, Format.exists_int_of_ne_real ?_⟩
  all_goals decide +kernel

theorem store_invariant_selection :
    (selectionStore.Built fun _ _ => True) ∧ selectionStore.children 9 = [0, 8, 1] ∧
    (∀ j ∈ selectionStore.children 9, j < 9) ∧
    outcome (Build.signalNamed "fast") selectionStore = (.ok 1, selectionStore) ∧
    selectionStore.kind (selectionStore.leaf 1) = .signal 1 ∧
    (outcome (Call.run (.signal "x" .bit .input none)) selectionStore).2.signal 0 =
      selectionStore.signal 0 := by
  obtain ⟨hb, hsize, hfast, hchildren, -⟩ := selectionStore_computed
  obtain ⟨hbelow, -, hname, -, -, hleaf, hcall⟩ := hb.store_invariant
  refine ⟨hb, hchildren, hbelow 9 (by omega), (hname "fast" 1).2 hfast, (hleaf 1 hfast.1).2.1, ?_⟩
  obtain ⟨-, -, -, hsignal⟩ := hcall (.signal "x" .bit .input none) (by intro o ho; cases ho)
  exact (hsignal 0 (by omega)).1

/-! ## Normal forms -/

theorem kind_of_const? {i : NodeId} {v : Value R} : s.const? i = some v ↔ s.kind i = .const v := by
  unfold const?
  split <;> simp_all

/-- Only the last operand can be a constant. -/
theorem Normal.const_position {op : ArithOp} (h : s.Normal op xs) {k : Nat} {x : NodeId}
    {v : Value R} (hk : xs[k]? = some x) (hv : s.const? x = some v) : k + 1 = xs.length := by
  obtain ⟨hlt, rfl⟩ := List.getElem?_eq_some_iff.1 hk
  by_contra hne
  have hmem : xs[k] ∈ xs.dropLast := by
    rw [List.mem_iff_getElem]
    exact ⟨k, by simp; omega, by simp⟩
  rw [h.const_last _ hmem] at hv
  cases hv

/-- Equal constants are all the same. -/
theorem allSame_of_const {first : NodeId} {k : Int} (hfirst : s.const? first = some (.int k))
    (h : ∀ x ∈ xs, s.const? x = some (.int k)) : Build.allSame s first xs = true := by
  refine List.all_eq_true.2 fun x hx => ?_
  rw [hfirst, h x hx, Bool.or_eq_true]
  exact .inr (beq_self_eq_true k)

section

variable (h : s.WellTyped rounding) {i : NodeId} (hi : i < s.nodes.size)
include h hi

/-- The operands of an arithmetic node are simplified and in the domain of the result. -/
theorem WellTyped.arith_normal {op : ArithOp} (hkind : s.kind i = .arith op xs) :
    s.Normal op xs ∧ ∀ x ∈ xs, (s.format x).domain = (s.format i).domain := by
  have ht := h.typed i hi
  rw [hkind] at ht
  cases ht with
  | arith hnormal hf =>
    exact ⟨hnormal, fun x hx => Format.fold?_domain_eq (Format.arithmetic?_keepsDomain op) hf _
      (List.mem_map_of_mem hx)⟩

/-- A selection has an element for every address, all in its domain and not all the same. -/
theorem WellTyped.select_elements {a : NodeId} (hkind : s.kind i = .select xs a) :
    (∃ w r, s.format a = .int ⟨.unsigned, w, r⟩ ∧ xs.length = 2 ^ w) ∧
      (∀ x ∈ xs, (s.format x).domain = (s.format i).domain) ∧
      Build.allSame s (xs.headD 0) xs = false := by
  have ht := h.typed i hi
  rw [hkind] at ht
  cases ht with
  | @select _ _ w f ha _ hlength hsame hf =>
    obtain ⟨r, hr⟩ := ha
    exact ⟨⟨w, r, hr, hlength⟩, fun x hx => Format.fold?_domain_eq Format.union?_keepsDomain hf _
      (List.mem_map_of_mem hx), hsame⟩

/-- The elements of a selection between integers are not all one constant. -/
theorem WellTyped.exists_element_ne {a : NodeId} (hkind : s.kind i = .select xs a) {f : IntFormat}
    (hf : s.format i = .int f) (v : Value R) : ∃ x ∈ xs, s.kind x ≠ .const v := by
  obtain ⟨⟨w, _, -, hlength⟩, hdomain, hsame⟩ := h.select_elements hi hkind
  by_contra hall
  simp only [not_exists, not_and, not_not] at hall
  obtain ⟨x, l, rfl⟩ : ∃ x l, xs = x :: l := by
    refine List.exists_cons_of_ne_nil fun hnil => ?_
    rw [hnil] at hlength
    exact absurd hlength (Nat.two_pow_pos w).ne
  have hx : s.const? x = some v := kind_of_const?.2 (hall x (by simp))
  have hlt : x < s.nodes.size := (h.below i hi x (by simp [children, hkind, operands])).trans hi
  have hin := h.const_inDomain hlt hx
  rw [hdomain x (by simp), hf] at hin
  cases v with
  | real => exact absurd hin (Format.int_domain_ne_real f)
  | int k =>
    have hsame' := allSame_of_const hx fun y hy => kind_of_const?.2 (hall y hy)
    rw [List.headD_cons, hsame'] at hsame
    cases hsame

end

/-- Arithmetic operators are flat, have at least two operands, all in the domain of the result, and
at most a constant as the last one that makes a difference. Selections have an element for every
address, all in one domain, and if they are integers, not all of them are one constant. -/
theorem Built.normal_form (hb : s.Built fun _ _ => True) :
    (∀ i < s.nodes.size, ∀ op xs, s.kind i = .arith op xs →
      2 ≤ xs.length ∧
      (∀ x ∈ xs, (s.format x).domain = (s.format i).domain ∧ ∀ ys, s.kind x ≠ .arith op ys) ∧
      ∀ k x v, xs[k]? = some x → s.kind x = .const v →
        k + 1 = xs.length ∧ (op = .sum → v.isZero = false) ∧
        (op = .product → v.isZero = false ∧ v.isOne = false)) ∧
    ∀ i < s.nodes.size, ∀ xs a, s.kind i = .select xs a →
      (∃ w r, s.format a = .int ⟨.unsigned, w, r⟩ ∧ xs.length = 2 ^ w) ∧
      (∀ x ∈ xs, (s.format x).domain = (s.format i).domain) ∧
      ∀ f, s.format i = .int f → ∀ v, ∃ x ∈ xs, s.kind x ≠ .const v := by
  have hs := hb.wellTyped_any
  constructor
  · intro i hi op xs hkind
    obtain ⟨hnormal, hdomain⟩ := hs.arith_normal hi hkind
    refine ⟨hnormal.two_le, fun x hx => ⟨hdomain x hx, hnormal.flat x hx⟩, fun k x v hk hv => ?_⟩
    rw [← kind_of_const?] at hv
    obtain ⟨hidentity, hzero⟩ := hnormal.const_ne x (List.mem_of_getElem? hk) v hv
    refine ⟨hnormal.const_position hk hv, ?_, ?_⟩
    · rintro rfl
      exact hidentity
    · rintro rfl
      exact ⟨hzero rfl, hidentity⟩
  · intro i hi xs a hkind
    obtain ⟨haddress, hdomain, -⟩ := hs.select_elements hi hkind
    exact ⟨haddress, hdomain, fun f hf => hs.exists_element_ne hi hkind hf⟩

theorem normal_form_selection :
    (selectionStore.Built fun _ _ => True) ∧ selectionStore.kind 8 = .arith .sum [0, 0, 7] ∧
    (∀ v, selectionStore.kind 7 = .const v → v.isZero = false) ∧
    selectionStore.kind 11 = .select [10, 9] 1 ∧
    (∃ w r, selectionStore.format 1 = .int ⟨.unsigned, w, r⟩ ∧ 2 = 2 ^ w) ∧
    ∃ x ∈ [10, 9], selectionStore.kind x ≠ .const (.int 5) := by
  obtain ⟨hb, hsize, -, -, hsum, hselect, f, hf⟩ := selectionStore_computed
  obtain ⟨harith, hselection⟩ := hb.normal_form
  obtain ⟨-, -, hconst⟩ := harith 8 (by omega) _ _ hsum
  obtain ⟨haddress, -, hdiffer⟩ := hselection 11 (by omega) _ _ hselect
  exact ⟨hb, hsum, fun v hv => (hconst 2 7 v rfl hv).2.1 rfl, hselect, haddress,
    hdiffer f hf _⟩

end MixedSignal.Store
