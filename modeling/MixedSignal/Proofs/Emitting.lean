import MixedSignal.Proofs.Clocking
import MixedSignal.Proofs.Ordering
import MixedSignal.Verilog.Module

/-!
# Complete models are emitted

A case table or a derivative has no counterpart in hardware, and every other typed node has one, if
words that have values are wide enough for the partial results of minima and maxima. So the emission
of an expression fails exactly if it contains another node (`Emission.node_emits`), and a model is
compiled exactly if it is complete (`Model.Complete`) and the width of reals is allowed.

The names of computed nodes outlive an expression, and a node that has a name is not looked into
again. The invariant is therefore about names: they are only ever given to expressions that are in
hardware as a whole (`Emission.Sound`).
-/

set_option linter.unusedSectionVars false

namespace MixedSignal

variable {R : Type} [Scalar R] {xs : List NodeId} {i : NodeId}

/-- The kind has a counterpart in hardware: it is no case table and no derivative. -/
def NodeKind.InHardware : NodeKind R → Prop
  | .cases _ _ | .deriv _ => False
  | _ => True

instance : (k : NodeKind R) → Decidable k.InHardware
  | .cases _ _ | .deriv _ => isFalse id
  | .signal _ | .const _ | .arith _ _ | .compare _ _ _ | .bitwise _ _ | .bitNot _ | .shift _ _ _
  | .slice _ _ _ | .concat _ | .convert _ _ | .select _ _ => isTrue trivial

theorem Role.isInput_iff {r : Role R} : r.isInput = true ↔ r = .input := by
  cases r <;> simp [isInput]

theorem Role.isAuxiliary_iff {r : Role R} : r.isAuxiliary = true ↔ r = .auxiliary := by
  cases r <;> simp [isAuxiliary]

namespace Store

open Dependency

variable {rounding : Rounding R} {s : Store R}

/-! ## The nodes of an expression -/

/-- The partial results of a minimum or maximum of integers are in words that have values. -/
def HasPartials (s : Store R) : Node R → Prop
  | ⟨.arith .min xs, .int f⟩ | ⟨.arith .max xs, .int f⟩ =>
    (Verilog.Emission.partialRepr s xs f).hasValues = true
  | _ => True

/-- The node has a counterpart in hardware, with words for all partial results. -/
def Supports (s : Store R) (n : Node R) : Prop := n.kind.InHardware ∧ s.HasPartials n

/-- Every node of the expression has a counterpart in hardware. -/
def InHardware (s : Store R) (i : NodeId) : Prop :=
  ∀ j, Reaches s.children i j → s.Supports (s.node j)

/-- The expression reads the signal or its derivative. -/
def Reads (s : Store R) (i : NodeId) (x : SignalId) : Prop :=
  ∃ j, Reaches s.children i j ∧ (s.kind j = .signal x ∨ s.kind j = .deriv x)

theorem inHardware_iff :
    s.InHardware i ↔ s.Supports (s.node i) ∧ ∀ j ∈ s.children i, s.InHardware j := by
  refine ⟨fun h => ⟨h i .refl, fun j hj k hk => h k (.head hj hk)⟩, ?_⟩
  rintro ⟨hself, hchildren⟩ k hk
  rcases hk.cases_head with rfl | ⟨j, hj, hjk⟩
  · exact hself
  · exact hchildren j hj k hjk

theorem inHardware_of_const? {v : Value R} (h : s.const? i = some v) : s.InHardware i := by
  unfold const? at h
  split at h
  · rename_i w hk
    obtain ⟨f, hnode⟩ : ∃ f, s.node i = ⟨.const w, f⟩ := ⟨(s.node i).format, by rw [← hk]; rfl⟩
    rw [inHardware_iff, children, kind, hnode]
    exact ⟨⟨trivial, trivial⟩, by simp [operands]⟩
  · cases h

theorem le_widest {j : NodeId} (hj : j ∈ xs) {f g : IntFormat} (hf : s.format j = .int f) :
    f.width ≤ Verilog.Emission.widest s xs g := by
  have hmem : f.width ∈ (xs.filterMap fun i => (s.format i).int?).map (·.width) :=
    List.mem_map.2 ⟨f, List.mem_filterMap.2 ⟨j, hj, by simp [hf, Format.int?]⟩, rfl⟩
  obtain ⟨w, hw⟩ := Option.ne_none_iff_exists'.1
    (mt List.max?_eq_none_iff.1 (List.ne_nil_of_mem hmem))
  rw [Verilog.Emission.widest, hw]
  exact (List.max?_eq_some_iff.1 hw).2 _ hmem

/-- Partial results have the signedness of the operands and room for the widest one. -/
theorem Typed.hasPartials {k : NodeKind R} {f : Format R} (ht : s.Typed rounding k f)
    (hop : ∀ j ∈ s.operands k, (s.format j).hasValues = true) : s.HasPartials ⟨k, f⟩ := by
  cases ht with
  | @arith op xs f _ hf =>
    cases f with
    | real f => cases op <;> trivial
    | int f =>
      suffices hpartial : (Verilog.Emission.partialRepr s xs f).hasValues = true by
        cases op with
        | sum | product => trivial
        | min | max => exact hpartial
      refine IntRepr.hasValues_iff.2 fun hsigned => ?_
      obtain ⟨x, xs, rfl⟩ : ∃ y ys, xs = y :: ys := by
        refine List.exists_cons_of_ne_nil ?_
        rintro rfl
        cases hf
      have hdomain := Format.fold?_domain_eq (Format.arithmetic?_keepsDomain op) hf (s.format x)
        (by simp)
      have hx := hop x (by simp [operands])
      cases hg : s.format x with
      | real g =>
        rw [hg] at hdomain
        exact absurd hdomain.symm (Format.int_domain_ne_real f)
      | int g =>
        rw [hg] at hdomain hx
        have hpos := IntRepr.hasValues_iff.1 hx ((Format.domain_int_eq_iff.1 hdomain).trans hsigned)
        exact hpos.trans_le (le_widest (by simp) hg)
  | _ => trivial

/-- The traversal lists the nodes that can be reached, as operands come before the nodes that use
them. -/
theorem WellTyped.mem_occurrences_iff_reaches (h : s.WellTyped rounding) {k : NodeId} :
    ∀ i < s.nodes.size, (k ∈ s.occurrences i ↔ Reaches s.children i k) := by
  intro i
  induction i using Nat.strong_induction_on with
  | _ i ih =>
    intro hi
    rw [mem_occurrences_iff]
    constructor
    · rintro (rfl | ⟨j, hj, hlt, hk⟩)
      · exact .refl
      · exact .head hj ((ih j hlt (hlt.trans hi)).1 hk)
    · intro hk
      rcases hk.cases_head with rfl | ⟨j, hj, hjk⟩
      · exact .inl rfl
      · have hlt := h.below i hi j hj
        exact .inr ⟨j, hj, hlt, (ih j hlt (hlt.trans hi)).2 hjk⟩

theorem WellTyped.lt_of_reaches (h : s.WellTyped rounding) {j : NodeId} (hi : i < s.nodes.size)
    (hj : Reaches s.children i j) : j < s.nodes.size :=
  (le_of_mem_occurrences i ((h.mem_occurrences_iff_reaches i hi).2 hj)).trans_lt hi

/-- If all signals have values, then nothing but case tables and derivatives is not in hardware. -/
theorem WellTyped.inHardware_of_kinds (h : s.WellTyped Rounding.any)
    (hv : ∀ x < s.signals.size, (s.signal x).format.hasValues = true) (hi : i < s.nodes.size)
    (hk : ∀ j, Reaches s.children i j → (s.kind j).InHardware) : s.InHardware i := by
  intro j hj
  have hlt := h.lt_of_reaches hi hj
  refine ⟨hk j hj, (h.typed j hlt).hasPartials fun k hk => ?_⟩
  exact h.hasValues (fun _ _ => Rounding.any_fits) hv k ((h.below j hlt k hk).trans hlt)

theorem readSignal?_eq_some {k : NodeKind R} {x : SignalId} :
    readSignal? k = some x ↔ k = .signal x ∨ k = .deriv x := by
  cases k <;> simp [readSignal?]

theorem WellTyped.mem_signalsIn_iff_reads (h : s.WellTyped rounding) (hi : i < s.nodes.size)
    {x : SignalId} : x ∈ s.signalsIn i ↔ s.Reads i x := by
  rw [mem_signalsIn]
  refine exists_congr fun j => ?_
  rw [h.mem_occurrences_iff_reaches i hi, readSignal?_eq_some]

end Store

namespace Verilog.Emission

variable {rounding : Rounding R} {s : Store R} {E : EmitError → Prop} {α β : Type}

/-! ## What an emission does -/

/-- Only expressions that are in hardware have names. -/
def Sound (s : Store R) (l : Emitted R) : Prop :=
  ∀ i name, l.named[i]? = some name → s.InHardware i

/-- Names stay sound. -/
def Keeps (s : Store R) (l l' : Emitted R) : Prop := Sound s l → Sound s l'

instance : Std.Refl (Keeps s) := ⟨fun _ => id⟩

instance : IsTrans (Emitted R) (Keeps s) := ⟨fun _ _ _ h h' => h' ∘ h⟩

/-- The emission keeps names sound. The proposition holds if it succeeds, and an error is one of the
given ones. -/
def Emits (s : Store R) (E : EmitError → Prop) (x : Emission R α) (P : Prop) : Prop :=
  ∀ l, Sound s l → Ensures (Keeps s) x l E fun _ _ => P

namespace Emits

variable {x : Emission R α} {f : α → Emission R β} {P Q : Prop}

theorem pure (a : α) (h : P) : Emits s E (Pure.pure a) P := fun _ _ => Ensures.pure h

theorem throw {e : EmitError} (h : E e) : Emits s E (MonadExcept.throw e : Emission R α) P :=
  fun _ _ => Ensures.throw h

theorem bind (hx : Emits s E x P) (hf : ∀ a, P → Emits s E (f a) Q) : Emits s E (x >>= f) Q :=
  fun l hl => (hx l hl).bind fun a l' hk hp => hf a hp l' (hk hl)

theorem imp (hx : Emits s E x P) (h : P → Q) : Emits s E x Q :=
  fun l hl => (hx l hl).imp fun _ _ _ => h

theorem error {E' : EmitError → Prop} (hx : Emits s E x P) (h : ∀ e, E e → E' e) :
    Emits s E' x P :=
  fun l hl => (hx l hl).mono (fun _ => id) h fun _ _ _ => id

theorem mapM {γ : Type} {f : γ → Emission R β} {p : γ → Prop} {xs : List γ}
    (h : ∀ c ∈ xs, Emits s E (f c) (p c)) : Emits s E (xs.mapM f) (∀ c ∈ xs, p c) := by
  intro l hl
  refine (Ensures.mapM (Q := fun c _ _ => p c) (fun _ _ _ _ _ => id) xs l
    fun c hc l' hk => h c hc l' (hk hl)).imp fun _ _ _ hall c hc => ?_
  obtain ⟨_, -, hp⟩ := forall₂_exists_right hall c hc
  exact hp

end Emits

/-- A change that leaves the names of nodes alone. -/
theorem modifyGet_emits {f : Emitted R → α × Emitted R} (h : ∀ l, (f l).2.named = l.named) :
    Emits s E (modifyGet f) True := by
  intro l _
  refine Ensures.of_ok rfl (fun hl i name hi => hl i name ?_) trivial
  rwa [h] at hi

theorem modify_emits {f : Emitted R → Emitted R} (h : ∀ l, (f l).named = l.named) :
    Emits s E (modify f) True :=
  modifyGet_emits h

theorem emit_emits (t : Statement R) : Emits s E (emit t) True := modify_emits fun _ => rfl

theorem freshName_emits (base : String) : Emits s E (freshName base) True :=
  modifyGet_emits fun _ => rfl

theorem temporary_emits : Emits s E temporary True := freshName_emits _

theorem assignInt_emits (r : IntRepr) (source : Source) : Emits s E (assignInt r source) True :=
  temporary_emits.bind fun out _ => (emit_emits _).bind fun _ _ => (emit_emits _).bind fun _ _ =>
    .pure out trivial

/-! ## Arithmetic -/

theorem pairs_emits (op : ArithOp) : ∀ names, Emits s E (pairs op names) True
  | [] => .pure _ trivial
  | [_] => .pure _ trivial
  | _ :: _ :: rest => temporary_emits.bind fun _ _ => (emit_emits _).bind fun _ _ =>
    (pairs_emits op rest).bind fun _ _ => .pure _ trivial

theorem rounds_emits (op : ArithOp) : ∀ n names, Emits s E (rounds op n names) True
  | 0, _ => .pure _ trivial
  | n + 1, names => by
    unfold rounds
    split
    · exact .pure _ trivial
    · exact (pairs_emits op names).bind fun names' _ => rounds_emits op n names'

theorem tree_emits (op : ArithOp) (names : List String) : Emits s E (tree op names) True := by
  refine (rounds_emits op _ _).bind fun names' _ => ?_
  cases names' with
  | cons name _ => exact .pure _ trivial
  | nil => exact temporary_emits.bind fun _ _ => (emit_emits _).bind fun _ _ => .pure _ trivial

theorem constantFactor?_eq_some {op : ArithOp} {rest : List NodeId} {c : R}
    (h : constantFactor? s op xs = some (c, rest)) :
    ∃ last v, xs = rest ++ [last] ∧ s.const? last = some v := by
  unfold constantFactor? at h
  split at h
  · rename_i rest' _ _ last hrest hlast
    obtain ⟨v, hv, heq⟩ := Option.map_eq_some_iff.1 h
    obtain ⟨-, rfl⟩ := Prod.mk.inj heq
    refine ⟨last, v, ?_, hv⟩
    rw [← hrest, List.dropLast_append_getLast? last hlast]
  · cases h

variable {operand : NodeId → Emission R String}

/-- The constant factor of a product is not computed, but a constant is in hardware. -/
theorem realArith_emits (op : ArithOp) (h : ∀ j ∈ xs, Emits s E (operand j) (s.InHardware j)) :
    Emits s E (realArith s operand op xs) (∀ j ∈ xs, s.InHardware j) := by
  unfold realArith
  split
  · rename_i c rest hfactor
    obtain ⟨last, v, rfl, hv⟩ := constantFactor?_eq_some hfactor
    refine (Emits.mapM fun j hj => h j (List.mem_append_left _ hj)).bind fun names hrest => ?_
    refine (tree_emits _ _).bind fun product _ => temporary_emits.bind fun out _ => ?_
    refine (emit_emits _).bind fun _ _ => .pure out fun j hj => ?_
    rcases List.mem_append.1 hj with hj | hj
    · exact hrest j hj
    · obtain rfl := List.mem_singleton.1 hj
      exact Store.inHardware_of_const? hv
  · exact (Emits.mapM h).bind fun names hall => (tree_emits op names).imp fun _ => hall

theorem chain_emits (op : CompareOp) (p r : IntRepr) :
    ∀ found names, Emits s E (chain op p r found names) True
  | _, [] => .pure _ trivial
  | _, [_] => assignInt_emits _ _
  | _, _ :: b :: rest => (assignInt_emits p _).bind fun out _ => chain_emits op p r out (b :: rest)

theorem extremum_emits (op : CompareOp) (p r : IntRepr) (names : List String) :
    Emits s E (extremum op p r names) True := by
  cases names with
  | nil => exact assignInt_emits _ _
  | cons a rest => exact chain_emits op p r a rest

theorem intArith_emits (op : ArithOp) (f : IntFormat)
    (h : ∀ j ∈ xs, Emits s E (operand j) (s.InHardware j))
    (hE : ¬s.HasPartials ⟨.arith op xs, .int f⟩ → E .emptyWord) :
    Emits s E (intArith s operand op xs f)
      (s.HasPartials ⟨.arith op xs, .int f⟩ ∧ ∀ j ∈ xs, s.InHardware j) := by
  have hchained : ∀ order names, ((partialRepr s xs f).hasValues ≠ true → E .emptyWord) →
      Emits s E (if (partialRepr s xs f).hasValues then
          extremum order (partialRepr s xs f) f.repr names else throw .emptyWord)
        ((partialRepr s xs f).hasValues = true) := by
    intro order names hE
    split
    next hv => exact (extremum_emits _ _ _ _).imp fun _ => hv
    next hv => exact .throw (hE hv)
  refine (Emits.mapM h).bind fun names hall => ?_
  cases op with
  | sum | product => exact (assignInt_emits _ _).imp fun _ => ⟨trivial, hall⟩
  | min | max => exact (hchained _ _ hE).imp fun hv => ⟨hv, hall⟩

/-! ## Selections -/

theorem realEntry_emits (out value : String) (k : Nat) : Emits s E (realEntry out value k) True :=
  (freshName_emits _).bind fun _ _ => (emit_emits _).bind fun _ _ => (emit_emits _).bind fun _ _ =>
    .pure _ trivial

/-- A constant entry is written in place. -/
theorem intEntry_emits {j : NodeId} (h : Emits s E (operand j) (s.InHardware j)) :
    Emits s E (intEntry s operand j) (s.InHardware j) := by
  unfold intEntry
  split
  · rename_i v f hv _
    exact .pure _ (Store.inHardware_of_const? hv)
  · exact h

theorem select_emits (realWidth : Nat) (f : Format R) {a : NodeId}
    (ha : Emits s E (operand a) (s.InHardware a))
    (h : ∀ j ∈ xs, Emits s E (operand j) (s.InHardware j)) :
    Emits s E (select s realWidth operand f xs a) (s.InHardware a ∧ ∀ j ∈ xs, s.InHardware j) := by
  refine ha.bind fun address hself => temporary_emits.bind fun out _ => ?_
  have hfinish : ∀ entries, (∀ j ∈ xs, s.InHardware j) →
      Emits s E (emit (.select address entries out) >>= fun _ => pure out)
        (s.InHardware a ∧ ∀ j ∈ xs, s.InHardware j) :=
    fun entries hall => (emit_emits _).bind fun _ _ => .pure out ⟨hself, hall⟩
  cases f with
  | real f =>
    refine (Emits.mapM h).bind fun values hall => (emit_emits _).bind fun _ _ => ?_
    refine (Emits.mapM (p := fun _ => True) ?_).bind fun entries _ => hfinish entries hall
    rintro ⟨value, k⟩ -
    exact realEntry_emits out value k
  | int f =>
    refine (Emits.mapM fun j hj => intEntry_emits (h j hj)).bind fun entries hall => ?_
    exact (emit_emits _).bind fun _ _ => hfinish entries hall

/-! ## Nodes -/

theorem constant_emits (v : Value R) (f : Format R) : Emits s E (constant v f) True := by
  cases f with
  | real f => exact temporary_emits.bind fun _ _ => (emit_emits _).bind fun _ _ => .pure _ trivial
  | int f => exact assignInt_emits _ _

theorem compare_emits (op : CompareOp) {a b : NodeId}
    (ha : Emits s E (operand a) (s.InHardware a)) (hb : Emits s E (operand b) (s.InHardware b)) :
    Emits s E (compare s operand op a b) (s.InHardware a ∧ s.InHardware b) := by
  refine ha.bind fun x hx => hb.bind fun y hy => temporary_emits.bind fun out _ => ?_
  split
  · exact (emit_emits _).bind fun _ _ => .pure out ⟨hx, hy⟩
  · exact (emit_emits _).bind fun _ _ => (emit_emits _).bind fun _ _ => .pure out ⟨hx, hy⟩

/-- The operand is computed, and an integer made of its name. -/
theorem bind_assignInt_emits {j : NodeId} (h : Emits s E (operand j) (s.InHardware j)) (r : IntRepr)
    (source : String → Source) :
    Emits s E (operand j >>= fun x => assignInt r (source x)) (s.InHardware j) :=
  h.bind fun _ hj => (assignInt_emits _ _).imp fun _ => hj

theorem mapM_assignInt_emits (h : ∀ j ∈ xs, Emits s E (operand j) (s.InHardware j)) (r : IntRepr)
    (source : List String → Source) :
    Emits s E (xs.mapM operand >>= fun names => assignInt r (source names))
      (∀ j ∈ xs, s.InHardware j) :=
  (Emits.mapM h).bind fun _ hall => (assignInt_emits _ _).imp fun _ => hall

/-- The node has no counterpart in hardware. -/
def Unsupported (e : EmitError) : Prop :=
  e = .unsupportedNode "EqnCase" ∨ e = .unsupportedNode "Deriv" ∨ e = .emptyWord

/-- A typed node is emitted if it has a counterpart in hardware and its operands are emitted.
Nodes that compute on bits have integer formats. -/
theorem ofKind_emits {k : NodeKind R} {f : Format R} (ht : s.Typed rounding k f) (realWidth : Nat)
    (h : ∀ j ∈ s.operands k, Emits s E (operand j) (s.InHardware j))
    (hE : ¬s.Supports ⟨k, f⟩ → ∀ e, Unsupported e → E e) :
    Emits s E (ofKind s realWidth operand ⟨k, f⟩)
      (s.Supports ⟨k, f⟩ ∧ ∀ j ∈ s.operands k, s.InHardware j) := by
  cases ht with
  | signal => exact .pure _ ⟨⟨trivial, trivial⟩, by simp [Store.operands]⟩
  | int | real =>
    exact (constant_emits _ _).imp fun _ => ⟨⟨trivial, trivial⟩, by simp [Store.operands]⟩
  | @arith op xs f _ _ =>
    cases f with
    | real f =>
      refine (realArith_emits op h).imp fun hall => ⟨⟨trivial, ?_⟩, hall⟩
      cases op <;> trivial
    | int f =>
      refine (intArith_emits op f h fun hnot => ?_).imp fun hall => ⟨⟨trivial, hall.1⟩, hall.2⟩
      exact hE (fun h => hnot h.2) _ (.inr (.inr rfl))
  | compare =>
    refine (compare_emits _ (h _ (by simp [Store.operands]))
      (h _ (by simp [Store.operands]))).imp ?_
    exact fun hab => ⟨⟨trivial, trivial⟩, by simpa [Store.operands] using hab⟩
  | bitwise | concat =>
    exact (mapM_assignInt_emits h _ _).imp fun hall => ⟨⟨trivial, trivial⟩, hall⟩
  | bitNot | shiftLeft | shiftRight | slice =>
    refine (bind_assignInt_emits (h _ (by simp [Store.operands])) _ _).imp ?_
    exact fun ha => ⟨⟨trivial, trivial⟩, by simpa [Store.operands] using ha⟩
  | uintToSint | sintToUint | sintToUintOfNonneg | resize =>
    refine (bind_assignInt_emits (h _ (by simp [Store.operands])) _ _).imp ?_
    exact fun ha => ⟨⟨trivial, trivial⟩, by simpa [Store.operands] using ha⟩
  | sintToReal | realToSint =>
    refine (h _ (by simp [Store.operands])).bind fun x ha => temporary_emits.bind fun out _ => ?_
    exact (emit_emits _).bind fun _ _ => .pure out ⟨⟨trivial, trivial⟩, by simpa [Store.operands] using ha⟩
  | select =>
    refine (select_emits realWidth _ (h _ (by simp [Store.operands]))
      fun j hj => h j (by simp [Store.operands, hj])).imp fun hall => ⟨⟨trivial, trivial⟩, ?_⟩
    simpa [Store.operands, or_imp, forall_and] using hall.symm
  | cases => exact .throw (hE (fun h => h.1) _ (.inl rfl))
  | deriv => exact .throw (hE (fun h => h.1) _ (.inr (.inl rfl)))

/-- An expression is emitted exactly if it is in hardware. -/
theorem node_emits (hs : s.WellTyped rounding) (realWidth : Nat) : ∀ i < s.nodes.size,
    Emits s (fun e => Unsupported e ∧ ¬s.InHardware i) (node s realWidth i) (s.InHardware i) := by
  intro i
  induction i using Nat.strong_induction_on with
  | _ i ih =>
    intro hi
    have hkind : Emits s (fun e => Unsupported e ∧ ¬s.InHardware i)
        (ofKind s realWidth (fun j => if _h : j < i then node s realWidth j
          else throw (.unsupportedNode "")) (s.node i)) (s.InHardware i) := by
      refine (ofKind_emits (hs.typed i hi) realWidth (fun j hj => ?_) fun hk => ?_).imp
        Store.inHardware_iff.2
      · have hlt := hs.below i hi j hj
        simp only [hlt, ↓reduceDIte]
        exact (ih j hlt (hlt.trans hi)).error fun e he =>
          ⟨he.1, fun h => he.2 ((Store.inHardware_iff.1 h).2 j hj)⟩
      · exact fun e he => ⟨he, fun h => hk (Store.inHardware_iff.1 h).1⟩
    intro l hl
    rw [node]
    refine Ensures.get_bind ?_
    split
    · rename_i name hname
      exact Ensures.pure (hl i name hname)
    · refine (hkind l hl).bind fun name l' _ hself => ?_
      refine Ensures.of_ok rfl ?_ hself
      intro hl' j other hj
      change (l'.named.insert i name)[j]? = some other at hj
      rw [Std.HashMap.getElem?_insert] at hj
      split at hj
      · rename_i hij
        obtain rfl := eq_of_beq hij
        exact hself
      · exact hl' j other hj

end Verilog.Emission

namespace Model

open Dependency Store Verilog

variable {rounding : Rounding R} {m : Model R}

/-! ## Checks -/

/-- Nothing but warnings was added. -/
def Reported (m m' : Model R) : Prop := ∃ ds, m' = { m with diagnostics := ds }

instance : Std.Refl (Reported (R := R)) := ⟨fun m => ⟨m.diagnostics, rfl⟩⟩

instance : IsTrans (Model R) Reported where
  trans := by
    rintro m _ _ ⟨_, rfl⟩ ⟨ds, rfl⟩
    exact ⟨ds, rfl⟩

/-- A check fails with its own error. -/
theorem check_exact {ε α : Type} {E : Error → Prop} (f : ε → Error) (x : Except ε α)
    (hE : ∀ e, x = .error e → E (f e)) :
    Ensures Reported (check f x) m E fun a m' => m' = m ∧ x = .ok a := by
  cases x with
  | ok a => exact Ensures.pure ⟨rfl, rfl⟩
  | error e => exact Ensures.throw (hE e rfl)

/-- Every internal signal has a driver. -/
def Driven (m : Model R) : Prop :=
  ∀ x < m.store.signals.size, (m.store.signal x).role = .internal → ∃ a, m.assignment? x = some a

theorem checkDriven_ensures : Ensures Reported checkDriven m
    (fun e => ¬m.Driven ∧ ∃ name, e = .emit (.unassigned name)) fun _ _ => m.Driven := by
  unfold checkDriven
  refine Ensures.get_bind ?_
  have hmem : ∀ signal x, (signal, x) ∈ m.store.signals.toList.zipIdx ↔
      x < m.store.signals.size ∧ signal = m.store.signal x := by
    intro signal x
    rw [List.mem_zipIdx_iff_getElem?, Array.getElem?_toList, Array.getElem?_eq_some_iff]
    constructor
    · rintro ⟨hx, hget⟩
      exact ⟨hx, hget.symm.trans (by simp [Store.signal, Array.getD, hx])⟩
    · rintro ⟨hx, rfl⟩
      exact ⟨hx, by simp [Store.signal, Array.getD, hx]⟩
  refine (Ensures.forIn (Q := fun c _ => c.1.role = .internal → ∃ a, m.assignment? c.2 = some a)
    (fun _ _ _ _ => id) _ m fun c hc t _ => ?_).bind fun _ _ _ hall => Ensures.pure fun x hx => ?_
  · obtain ⟨signal, x⟩ := c
    obtain ⟨hx, rfl⟩ := (hmem _ _).1 hc
    simp only
    split
    · rename_i hcontains
      exact Ensures.pure ⟨rfl, fun _ => Option.isSome_iff_exists.1 hcontains⟩
    · rename_i hcontains
      split
      · rename_i hrole
        refine Ensures.throw_bind ⟨fun hdriven => ?_, _, rfl⟩
        exact hcontains (Option.isSome_iff_exists.2 (hdriven x hx hrole))
      · rename_i hrole
        exact Ensures.of_ok rfl ⟨_, rfl⟩ ⟨rfl, fun h => by rw [hrole] at h; cases h⟩
      · rename_i hinternal _
        exact Ensures.pure ⟨rfl, fun h => absurd h hinternal⟩
  · exact hall (m.store.signal x, x) ((hmem _ _).2 ⟨hx, rfl⟩)

/-- No assignment reads an equation variable. -/
def Eliminated (m : Model R) : Prop :=
  ∀ x a, m.assignment? x = some a →
    ∀ y, m.store.Reads a.expr y → (m.store.signal y).role ≠ .auxiliary

theorem WellFormed.reads_iff (hm : m.WellFormed rounding) {x y : SignalId} {a : Assignment R}
    (ha : m.assignment? x = some a) : y ∈ m.store.signalsIn a.expr ↔ m.store.Reads a.expr y :=
  hm.store.mem_signalsIn_iff_reads (hm.valid ha).2.expr_lt

theorem checkEliminated_eq_ok_iff (hm : m.WellFormed rounding) :
    m.checkEliminated = .ok () ↔ m.Eliminated := by
  have hnone : m.checkEliminated = .ok () ↔ m.variableRead? = none := by
    unfold checkEliminated
    split <;> simp_all
  rw [hnone, variableRead?, List.find?_eq_none]
  constructor
  · intro h x a ha y hy hrole
    obtain ⟨rfl, -⟩ := hm.valid ha
    have hread := (hm.reads_iff ha).2 hy
    exact h y (List.mem_flatMap.2 ⟨a, (Simulator.mem_values_iff hm).2 ha, hread⟩)
      (Role.isAuxiliary_iff.2 hrole)
  · intro h y hy hrole
    obtain ⟨a, ha, hread⟩ := List.mem_flatMap.1 hy
    have ha := (Simulator.mem_values_iff hm).1 ha
    exact h _ a ha y ((hm.reads_iff ha).1 hread) (Role.isAuxiliary_iff.1 hrole)

theorem checkEliminated_eq_error {e : EmitError} (h : m.checkEliminated = .error e) :
    ∃ name, e = .unassigned name := by
  unfold checkEliminated at h
  split at h
  · exact ⟨_, (Except.error.inj h).symm⟩
  · cases h

/-- The first signal is driven in the same cycle by an expression that reads the second, which is
driven in the same cycle, too. -/
def DependsOn (m : Model R) (x y : SignalId) : Prop :=
  m.isCombinational x = true ∧ m.isCombinational y = true ∧
    ∃ a, m.assignment? x = some a ∧ m.store.Reads a.expr y

/-- No signal depends on itself within a cycle. -/
def Acyclic (m : Model R) : Prop := ∀ x, ¬Relation.TransGen m.DependsOn x x

theorem acyclic_iff (hm : m.WellFormed rounding) :
    m.Acyclic ↔ ∀ x, m.isCombinational x = true → ¬OnCycle m.combinationalReads x := by
  have hreads : ∀ {x y}, y ∈ m.combinationalReads x → m.isCombinational x = true →
      m.DependsOn x y := by
    intro x y hy hx
    obtain ⟨a, ha, -⟩ := isCombinational_iff.1 hx
    obtain ⟨hread, hcomb⟩ := (mem_combinationalReads ha).1 hy
    exact ⟨hx, hcomb, a, ha, (hm.reads_iff ha).1 hread⟩
  constructor
  · intro h x hx hcycle
    refine h x ?_
    have hpath : ∀ y, Relation.TransGen (fun v w => w ∈ m.combinationalReads v) x y →
        m.isCombinational y = true ∧ Relation.TransGen m.DependsOn x y := by
      intro y hy
      induction hy with
      | single hy => exact ⟨(hreads hy hx).2.1, .single (hreads hy hx)⟩
      | tail _ hy ih => exact ⟨(hreads hy ih.1).2.1, ih.2.tail (hreads hy ih.1)⟩
    exact (hpath x hcycle).2
  · intro h x hcycle
    obtain ⟨y, hy, -⟩ := Relation.TransGen.head'_iff.1 hcycle
    refine h x hy.1 (Relation.TransGen.mono ?_ x x hcycle)
    rintro u v ⟨-, hv, a, ha, hread⟩
    exact (mem_combinationalReads ha).2 ⟨(hm.reads_iff ha).2 hread, hv⟩

theorem exists_combinationalOrder_iff (hm : m.WellFormed rounding) :
    (∃ order, m.combinationalOrder = .ok order) ↔ m.Acyclic := by
  simp only [combinationalOrder_eq_ok_iff]
  rw [exists_ok_iff m.finite_combinational m.ncard_combinational, m.reachable_combinational,
    acyclic_iff hm]
  simp only [Set.mem_ofPred_eq, mem_combinational]

/-! ## Emission -/

/-- Every assignment is in hardware. -/
def InHardware (m : Model R) : Prop :=
  ∀ x a, m.assignment? x = some a → m.store.InHardware a.expr

theorem assignmentBlock_emits (hm : m.WellFormed rounding) (settings : Settings)
    {a : Assignment R} (ha : a ∈ m.assignments.values) :
    Emission.Emits m.store (fun e => Emission.Unsupported e ∧ ¬m.InHardware)
      (m.assignmentBlock settings a) (m.store.InHardware a.expr) := by
  have ha := (Simulator.mem_values_iff hm).1 ha
  unfold assignmentBlock
  refine Emission.Emits.bind (Emission.modify_emits ?_) fun _ _ => ?_
  · exact fun _ => rfl
  refine ((Emission.node_emits hm.store settings.realWidth a.expr (hm.valid ha).2.expr_lt).error
    fun e he => ⟨he.1, fun h => he.2 (h _ a ha)⟩).bind fun source hself => ?_
  exact (Emission.emit_emits _).bind fun _ _ l hl => Ensures.get_bind (Ensures.pure hself)

/-- A model is emitted exactly if all its assignments are in hardware. No node has a name when
emission starts. -/
theorem emit_cases (hm : m.WellFormed rounding) (settings : Settings) :
    match m.emit settings with
    | .ok _ => m.InHardware
    | .error e => Emission.Unsupported e ∧ ¬m.InHardware := by
  have hmodel : (∀ a ∈ m.assignments.values, m.store.InHardware a.expr) → m.InHardware := by
    intro h x a ha
    obtain ⟨rfl, -⟩ := hm.valid ha
    exact h a ((Simulator.mem_values_iff hm).2 ha)
  have hall := (Emission.Emits.mapM fun a =>
    m.assignmentBlock_emits hm settings (a := a)).imp hmodel
  have hstart : ∀ (l : Emitted R) (f : List (List (Statement R)) → Verilog.Module R),
      l.named = {} →
      match (outcome (m.assignments.values.mapM (m.assignmentBlock settings)) l).1 >>=
          fun blocks => pure (f blocks) with
      | .ok _ => m.InHardware
      | .error e => Emission.Unsupported e ∧ ¬m.InHardware := by
    intro l f hl
    have hsound : Emission.Sound m.store l := fun i name hname => by simp [hl] at hname
    have hcases := (hall l hsound).2
    split at hcases
    · rename_i hrun
      rw [hrun]
      exact hcases
    · rename_i hrun
      rw [hrun]
      exact hcases
  exact hstart _ _ rfl

/-! ## Compilation -/

/-- Nothing is missing for hardware: internal signals have drivers, equation variables are gone,
same-cycle assignments have an order, and nothing is left that has a meaning only in equations. -/
structure Complete (m : Model R) : Prop where
  driven : m.Driven
  eliminated : m.Eliminated
  acyclic : m.Acyclic
  inHardware : m.InHardware

theorem validate_eq_ok_iff {settings : Settings} {u : Unit} :
    settings.validate = .ok u ↔ 2 ≤ settings.realWidth ∧ settings.realWidth ≤ 64 := by
  unfold Settings.validate
  change (if 2 ≤ settings.realWidth ∧ settings.realWidth ≤ 64 then _ else _) = _ ↔ _
  split <;> simp_all

/-- Why a model is refused: something is wrong with it or with the settings, and an unsupported node
is one that has a meaning only in equations. -/
def Refusal (m : Model R) (settings : Settings) (e : Error) : Prop :=
  ¬((2 ≤ settings.realWidth ∧ settings.realWidth ≤ 64) ∧ m.Complete) ∧
    ∀ variant, e = .emit (.unsupportedNode variant) → variant = "EqnCase" ∨ variant = "Deriv"

/-- A module is made exactly of a complete model. -/
theorem compileModule_ensures (hm : m.WellFormed rounding) (settings : Settings) :
    Ensures Reported (compileModule settings) m (m.Refusal settings)
      fun _ _ => (2 ≤ settings.realWidth ∧ settings.realWidth ≤ 64) ∧ m.Complete := by
  unfold compileModule
  refine Ensures.bind (check_exact _ _ fun e he => ⟨fun h => ?_, fun _ => by simp⟩)
    fun _ t _ ht => ?_
  · rw [validate_eq_ok_iff (u := ()).2 h.1] at he
    cases he
  obtain ⟨rfl, hvalid⟩ := ht
  have hwidth := validate_eq_ok_iff.1 hvalid
  refine (checkDriven_ensures.mono (fun _ => id) (fun e he => ?_) fun _ _ _ => id).bind
    fun _ t' ht' hdriven => ?_
  · obtain ⟨hnot, name, rfl⟩ := he
    exact ⟨fun h => hnot h.2.driven, fun _ => by simp⟩
  -- warnings are not looked at from here on
  obtain ⟨ds, rfl⟩ := ht'
  have hm' : WellFormed rounding { t with diagnostics := ds } := { hm with }
  refine Ensures.get_bind (Ensures.bind (check_exact _ _ fun e he => ⟨fun h => ?_, fun v => ?_⟩)
    fun _ t' _ ht' => ?_)
  · have hok := (checkEliminated_eq_ok_iff hm').2 h.2.eliminated
    rw [he] at hok
    cases hok
  · obtain ⟨name, rfl⟩ := checkEliminated_eq_error he
    simp
  obtain ⟨rfl, heliminated⟩ := ht'
  refine Ensures.get_bind (Ensures.bind (check_exact _ _ fun e he => ⟨fun h => ?_, fun v => ?_⟩)
    fun order t' _ ht' => ?_)
  · obtain ⟨order, hok⟩ := (exists_combinationalOrder_iff hm').2 h.2.acyclic
    rw [he] at hok
    cases hok
  · obtain ⟨cycle, rfl, -⟩ := combinationalOrder_eq_error he
    simp
  obtain ⟨rfl, horder⟩ := ht'
  have hemit := emit_cases hm' settings
  refine Ensures.get_bind (Ensures.imp (check_exact _ _ fun e he => ?_) fun module t' _ ht' => ?_)
  · rw [he] at hemit
    refine ⟨fun h => hemit.2 h.2.inHardware, fun variant hv => ?_⟩
    obtain rfl := Error.emit.inj hv
    simpa [Emission.Unsupported] using hemit.1
  · rw [ht'.2] at hemit
    exact ⟨hwidth, hdriven, (checkEliminated_eq_ok_iff hm').1 heliminated,
      (exists_combinationalOrder_iff hm').1 ⟨order, horder⟩, hemit⟩

theorem compile_ensures (hm : m.WellFormed rounding) (settings : Settings) :
    Ensures Reported (compile settings) m (m.Refusal settings)
      fun _ _ => (2 ≤ settings.realWidth ∧ settings.realWidth ≤ 64) ∧ m.Complete :=
  (compileModule_ensures hm settings).bind fun _ _ _ h => Ensures.pure h

theorem exists_compile (hm : m.WellFormed rounding) {settings : Settings}
    (h : (2 ≤ settings.realWidth ∧ settings.realWidth ≤ 64) ∧ m.Complete) :
    ∃ text m', outcome (compile settings) m = (.ok text, m') := by
  cases hrun : outcome (compile settings) m with
  | mk r m' =>
    cases r with
    | ok text => exact ⟨text, m', rfl⟩
    | error e => exact absurd h ((compile_ensures hm settings).elim_error hrun).2.1

/-- The default width of reals is one of those that are accepted. -/
theorem Complete.exists_compile (h : m.Complete) (hm : m.WellFormed rounding) :
    ∃ text m', outcome (compile {}) m = (.ok text, m') :=
  Model.exists_compile hm ⟨by decide, h⟩

theorem hasValues_iff : m.hasValues = true ↔
    ∀ x < m.store.signals.size, (m.store.signal x).format.hasValues = true := by
  unfold hasValues
  rw [Array.all_eq_true]
  refine forall₂_congr fun x hx => ?_
  simp [Store.signal, Array.getD, hx]

theorem inHardware_of_kinds (hm : m.WellFormed Rounding.any) (hv : m.hasValues = true)
    (h : ∀ x a, m.assignment? x = some a → ∀ j, Reaches m.store.children a.expr j →
      (m.store.kind j).InHardware) : m.InHardware := fun x a ha =>
  hm.store.inHardware_of_kinds (hasValues_iff.1 hv) (hm.valid ha).2.expr_lt (h x a ha)

/-- A model is compiled exactly if the width of reals is between 2 and 64 and the model is complete.
If all signals have values, then nothing but case tables and derivatives is not in hardware, and
these are the only nodes that are ever refused as unsupported. -/
theorem compile_succeeds_iff_complete [Numerics R] (hb : m.Built fun _ _ => True)
    (settings : Settings) :
    ((∃ text m', outcome (compile settings) m = (.ok text, m')) ↔
      (2 ≤ settings.realWidth ∧ settings.realWidth ≤ 64) ∧ m.Complete) ∧
    (m.hasValues = true → (m.InHardware ↔ ∀ x a, m.assignment? x = some a →
      ∀ j, Reaches m.store.children a.expr j → (m.store.kind j).InHardware)) ∧
    ∀ variant m', outcome (compile settings) m = (.error (.emit (.unsupportedNode variant)), m') →
      variant = "EqnCase" ∨ variant = "Deriv" := by
  have hm := hb.wellFormed_any
  have hcompile := compile_ensures hm settings
  refine ⟨⟨fun ⟨text, m', h⟩ => (hcompile.elim_ok h).2, exists_compile hm⟩, fun hv => ?_, ?_⟩
  · exact ⟨fun h x a ha j hj => (h x a ha j hj).1, inHardware_of_kinds hm hv⟩
  · exact fun variant m' herror => (hcompile.elim_error herror).2.2 variant rfl

/-- Completeness as it is computed, with an order of the same-cycle assignments. -/
def CompleteIn (m : Model R) (order : List SignalId) : Prop :=
  m.hasValues = true ∧
    (∀ x < m.store.signals.size, m.assignments.contains x = true ∨
      (m.store.signal x).role.isInput = true) ∧
    m.checkEliminated = .ok ⟨⟩ ∧ m.combinationalOrder = .ok order ∧
    ∀ a ∈ m.assignments.values, ∀ j ∈ m.store.occurrences a.expr, (m.store.kind j).InHardware

instance (m : Model R) (order : List SignalId) : Decidable (m.CompleteIn order) :=
  inferInstanceAs (Decidable (_ ∧ _ ∧ _ ∧ _ ∧ _))

theorem CompleteIn.complete {order : List SignalId} (h : m.CompleteIn order)
    (hm : m.WellFormed Rounding.any) : m.Complete := by
  obtain ⟨hv, hdriven, heliminated, horder, hnodes⟩ := h
  refine ⟨fun x hx hrole => ?_, (checkEliminated_eq_ok_iff hm).1 heliminated,
    (exists_combinationalOrder_iff hm).1 ⟨order, horder⟩,
    inHardware_of_kinds hm hv fun x a ha j hj => ?_⟩
  · rcases hdriven x hx with h | h
    · exact Option.isSome_iff_exists.1 h
    · rw [hrole] at h
      cases h
  · obtain ⟨rfl, hvalid⟩ := hm.valid ha
    exact hnodes a ((Simulator.mem_values_iff hm).2 ha) j
      ((hm.store.mem_occurrences_iff_reaches a.expr hvalid.expr_lt).2 hj)

/-- A model with a real `u`, a bit `s`, and the product of `u`, a gain that `s` selects, and a
constant. -/
def gainModel : Model ℚ :=
  Model.performAll { name := "m", dt := none } [.analogInput "u", .digitalInput "s" 1 .unsigned,
    .construct (.array [.value (.real 2), .value (.real 3)] (.signal 1)),
    .construct (.arithmetic .product [.node 4, .signal 0, .value (.real 5)]),
    .bindName "y" (.node 7)]

/-- A model with a bit `s` and a name for a case table over it. -/
def caseModel : Model ℚ :=
  Model.performAll { name := "m", dt := none } [.digitalInput "s" 1 .unsigned,
    .construct (.eqnCase [.value (.int 1), .value (.int 2)] [0]), .bindName "x" (.node 3)]

theorem gainModel_built : gainModel.Built fun _ _ => True :=
  .ofOperations (by decide +kernel)

theorem gainModel_complete : gainModel.Complete :=
  (by decide +kernel : gainModel.CompleteIn [2]).complete gainModel_built.wellFormed_any

/-- The product is compiled, the case table is not. -/
theorem compile_succeeds_iff_complete_gain :
    (gainModel.Built fun _ _ => True) ∧ gainModel.Complete ∧
    (∃ text m', outcome (compile {}) gainModel = (.ok text, m')) ∧
    (caseModel.Built fun _ _ => True) ∧
    ¬∃ text m', outcome (compile {}) caseModel = (.ok text, m') := by
  have hcase : caseModel.Built fun _ _ => True := .ofOperations (by decide +kernel)
  refine ⟨gainModel_built, gainModel_complete, ?_, hcase, fun h => ?_⟩
  · exact (compile_succeeds_iff_complete gainModel_built {}).1.2 ⟨by decide, gainModel_complete⟩
  · have hcomplete := ((compile_succeeds_iff_complete hcase {}).1.1 h).2
    exact absurd (hcomplete.inHardware 1 ⟨1, 3, .thisCycle⟩ (by with_unfolding_all rfl) 3 .refl).1
      (by decide +kernel)

end Model

end MixedSignal
