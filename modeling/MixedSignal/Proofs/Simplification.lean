import MixedSignal.Proofs.Construction
import MixedSignal.Proofs.Denotation
import MixedSignal.Proofs.Exact

/-!
# Simplification preserves integer values

A constructor may return a node that looks nothing like its operands: they are promoted, nested
nodes of the operator are flattened, constants are folded, and neutral or zero operands go. For
integers none of this changes the value. Operators, differences, limits and comparisons of integer
operands have the exact value, and a selection has that of the element at the address.
-/

namespace MixedSignal

variable {R : Type} [Scalar R] {o : Operand R} {op : ArithOp}

namespace ArithOp

/-- The exact result of an operator on integers. No integers have neither a smallest nor a largest
one. -/
def result? : ArithOp → List Int → Option Int
  | sum, ks => some ks.sum
  | product, ks => some ks.prod
  | min, ks => ks.min?
  | max, ks => ks.max?

theorem evalInt_of_result? {ks : List Int} {k : Int} (h : op.result? ks = some k) :
    op.evalInt ks = k := by
  cases op with
  | sum =>
    obtain rfl := Option.some.inj h
    exact List.sum_eq_foldl.symm
  | product =>
    obtain rfl := Option.some.inj h
    exact List.prod_eq_foldl.symm
  | min => exact congrArg (Option.getD · 0) h
  | max => exact congrArg (Option.getD · 0) h

theorem result?_eq_none {ks : List Int} (h : op.result? ks = none) :
    ks = [] ∧ (op = .min ∨ op = .max) := by
  cases op with
  | sum => cases h
  | product => cases h
  | min => exact ⟨List.min?_eq_none_iff.1 h, .inl rfl⟩
  | max => exact ⟨List.max?_eq_none_iff.1 h, .inr rfl⟩

end ArithOp

/-- The operand is an integer with this value. -/
def Operand.Denotes (s : Store R) (values : SignalId → Value R) : Operand R → Int → Prop
  | .node i, k => s.Denotes values i k
  | .signal x, k => x < s.signals.size ∧ s.Denotes values (s.leaf x) k
  | .value v, k => v = .int k

/-- The operand is an integer. -/
def Operand.IsInt (s : Store R) (o : Operand R) : Prop :=
  o.Valid s ∧ ∃ f, Build.operandFormat s o = .int f

namespace Build

open Store

variable {s u : Store R} {values : SignalId → Value R} {E : ConstructionError → Prop}
  {os : List (Operand R)} {ks : List Int} {a b : Operand R} {k l : Int}

theorem valid_of_denotes (h : o.Denotes s values k) : o.Valid s := by
  cases o with
  | node i => exact h.lt
  | signal x => exact h.1
  | value v => trivial

/-- The node that an operand becomes has its value. -/
theorem denotes_of_stands (hs : s.Admits values) (hg : s.Grown Rounding.any u)
    (ho : o.Denotes s values k) {i : NodeId} (hi : i < u.nodes.size) (hstands : o.Stands u i) :
    u.Denotes values i k := by
  cases o with
  | node j =>
    obtain rfl : i = j := hstands
    exact Store.Denotes.of_grown ho hs hg
  | signal x =>
    obtain ⟨hx, hk⟩ := ho
    obtain rfl : i = u.leaf x := hstands
    rw [hg.toExtends.leaf_eq x hx]
    exact hk.of_grown hs hg
  | value v =>
    obtain rfl : v = .int k := ho
    exact .of_const (hs.of_grown hg) hi hstands

theorem denotes_of_grown (hs : s.Admits values) (hg : s.Grown Rounding.any u)
    (ho : o.Denotes s values k) : o.Denotes u values k := by
  cases o with
  | node j => exact Store.Denotes.of_grown ho hs hg
  | signal x =>
    obtain ⟨hx, hk⟩ := ho
    refine ⟨by rwa [hg.signals_eq], ?_⟩
    rw [hg.toExtends.leaf_eq x hx]
    exact hk.of_grown hs hg
  | value v => exact ho

theorem isInt_of_denotes (hs : s.Admits values) (h : o.Denotes s values k) : o.IsInt s := by
  refine ⟨valid_of_denotes h, ?_⟩
  cases o with
  | node i => exact h.int
  | signal x =>
    obtain ⟨f, hf⟩ := h.2.int
    exact ⟨f, by rw [← hf, hs.wellTyped.leaf_format h.1]; rfl⟩
  | value v =>
    obtain rfl : v = .int k := h
    exact ⟨_, rfl⟩

theorem forall₂_isInt (hs : s.Admits values)
    (h : List.Forall₂ (Operand.Denotes s values) os ks) : ∀ o ∈ os, o.IsInt s := by
  intro o ho
  obtain ⟨k, -, hk⟩ := forall₂_exists_right h o ho
  exact isInt_of_denotes hs hk

/-- Integer operands are not promoted to reals. -/
theorem promoted_ne_real (hs : s.WellTyped Rounding.any) (hg : s.Grown Rounding.any u)
    {is js : List NodeId} (hp : Promoted u os is js) (ho : ∀ o ∈ os, o.IsInt s) :
    commonDomain u is ≠ .real := by
  refine commonDomain_ne_real fun i hi => ?_
  obtain ⟨o, homem, -, hstands⟩ := forall₂_exists_left hp.stands i hi
  obtain ⟨hvalid, f, hf⟩ := ho o homem
  rw [format_of_stands hs hvalid hg hstands, hf]
  exact Format.int_domain_ne_real f

section

variable (hs : s.Admits values)
include hs

/-- Promoted integer operands keep their values. -/
theorem promoted_denotes (hg : s.Grown Rounding.any u) {is js : List NodeId}
    (hp : Promoted u os is js) (hreal : commonDomain u is ≠ .real) :
    List.Forall₂ (fun o j => ∀ k, o.Denotes s values k → u.Denotes values j k) os js := by
  refine forall₂_trans (fun o i j hi hj k hk => ?_) hp.stands hp.promotes
  exact (denotes_of_stands hs hg hk hi.1 hi.2).of_promotes (hs.of_grown hg) hj.1 hj.2 hreal

/-! ## Constructors -/

theorem arithmetic_denotes (op : ArithOp) (ho : List.Forall₂ (Operand.Denotes s values) os ks)
    (hE : os = [] → op = .min ∨ op = .max → ∀ e, E e) :
    Ensures (Grown Rounding.any) (arithmetic op os) s E fun j s' =>
      s'.Denotes values j (op.evalInt ks) := by
  have hint := forall₂_isInt hs ho
  refine (arithmetic_ensures hs.wellTyped (fun o h => (hint o h).1) hE).imp fun j s' _ hj => ?_
  obtain ⟨hlt, u, is, js, hsu, hus', hp, hcomb⟩ := hj
  have hd := promoted_ne_real hs.wellTyped hsu hp hint
  have hjs : List.Forall₂ (u.Denotes values) js ks :=
    forall₂_trans (fun j o k hj hk => hj k hk) (promoted_denotes hs hsu hp hd).flip ho
  exact .of_combines (hs.of_grown hsu) hus' hd hjs hlt hcomb

theorem neg_denotes (ha : a.Denotes s values k) :
    Ensures (Grown Rounding.any) (neg a) s E fun j s' => s'.Denotes values j (-k) := by
  have hminus : (Operand.value (.int (-1)) : Operand R).Denotes s values (-1) := rfl
  refine (arithmetic_denotes hs .product (.cons hminus (.cons ha .nil)) (by simp)).imp
    fun j s' _ hj => ?_
  simpa [ArithOp.evalInt] using hj

theorem sub_denotes (ha : a.Denotes s values k) (hb : b.Denotes s values l) :
    Ensures (Grown Rounding.any) (sub a b) s E fun j s' => s'.Denotes values j (k - l) := by
  refine (neg_denotes hs hb).bind fun i t ht hneg => ?_
  have ha' := denotes_of_grown hs ht ha
  have hi : (Operand.node i : Operand R).Denotes t values (-l) := hneg
  refine (arithmetic_denotes (hs.of_grown ht) .sum (.cons ha' (.cons hi .nil)) (by simp)).imp
    fun j s' _ hj => ?_
  simpa [ArithOp.evalInt, sub_eq_add_neg] using hj

theorem clamp_denotes {lo hi : Operand R} {l h : Int} (ha : a.Denotes s values k)
    (hlo : lo.Denotes s values l) (hhi : hi.Denotes s values h) :
    Ensures (Grown Rounding.any) (clamp a lo hi) s E fun j s' =>
      s'.Denotes values j (max (min k h) l) := by
  refine (arithmetic_denotes hs .min (.cons ha (.cons hhi .nil)) (by simp)).bind
    fun i t ht hmin => ?_
  have hlo' := denotes_of_grown hs ht hlo
  have hi : (Operand.node i : Operand R).Denotes t values (ArithOp.min.evalInt [k, h]) := hmin
  refine (arithmetic_denotes (hs.of_grown ht) .max (.cons hi (.cons hlo' .nil)) (by simp)).imp
    fun j s' _ hj => ?_
  simpa [ArithOp.evalInt, List.min?, List.max?] using hj

theorem compare_denotes (op : CompareOp) (ha : a.Denotes s values k) (hb : b.Denotes s values l) :
    Ensures (Grown Rounding.any) (compare op a b) s E fun j s' =>
      s'.Denotes values j (op.evalInt k l).toNat := by
  have hint := forall₂_isInt hs (.cons ha (.cons hb .nil))
  refine (compare_ensures hs.wellTyped op (valid_of_denotes ha) (valid_of_denotes hb)).imp
    fun j s' hs' hj => ?_
  obtain ⟨hlt, i, i', x, y, hp, hnode⟩ := hj
  have hd := promoted_ne_real hs.wellTyped hs' hp hint
  cases promoted_denotes hs hs' hp hd with
  | cons hx hy =>
    cases hy with
    | cons hy _ => exact .of_compare (hs.of_grown hs') (hx k ha) (hy l hb) hlt hnode

/-- A selection between integer operands has the value of the one at the address. -/
theorem selectsOperand_eval (ho : ∀ o ∈ os, o.IsInt s) (ha : a.Denotes s values k) {s' : Store R}
    {j : NodeId} (hj : j < s'.nodes.size) (hsel : SelectsOperand Rounding.any s s' os a j) :
    0 ≤ k ∧ ∃ o, os[k.toNat]? = some o ∧
      ∀ l, o.Denotes s values l → s'.eval values j = .ok (.int l) := by
  obtain ⟨u, is, js, i, w, hsu, hus', hp, hi, hstands, hw, hlength, hsel⟩ := hsel
  have hd := promoted_ne_real hs.wellTyped hsu hp ho
  obtain ⟨hk, e, he, heval⟩ := Store.Denotes.eval_of_selects (hs.of_grown hsu) hus'
    (forall₂_lt hp.promotes) (denotes_of_stands hs hsu ha hi hstands) hw hlength hj hsel
  obtain ⟨o, hget, hoe⟩ := forall₂_getElem?_left (promoted_denotes hs hsu hp hd) he
  exact ⟨hk, o, hget, fun l hl => heval l (hoe l hl)⟩

theorem array_eval (ho : ∀ o ∈ os, o.IsInt s) (ha : a.Denotes s values k)
    (hE : ¬Addresses (operandFormat s a) os.length → ∀ e, E e) :
    Ensures (Grown Rounding.any) (array os a) s E fun j s' =>
      0 ≤ k ∧ ∃ o, os[k.toNat]? = some o ∧
        ∀ l, o.Denotes s values l → s'.eval values j = .ok (.int l) :=
  (array_ensures hs.wellTyped (fun o h => (ho o h).1) (valid_of_denotes ha) hE).imp
    fun _ _ _ hj => selectsOperand_eval hs ho ha hj.1 hj.2

end

theorem isInt_of_grown (hg : s.Grown Rounding.any u) (ho : o.IsInt s) : o.IsInt u := by
  obtain ⟨hvalid, f, hf⟩ := ho
  refine ⟨valid_of_grown hg hvalid, f, ?_⟩
  rw [← hf]
  cases o with
  | node i => exact hg.toExtends.format_eq hvalid
  | signal x => exact congrArg Signal.format (hg.toExtends.signal_eq x hvalid)
  | value v => rfl

theorem ifElse_eval (hs : s.Admits values) {c : Operand R} {m : Int} (hc : c.Denotes s values m)
    (ha : a.IsInt s) (hb : b.IsInt s) (hE : (operandFormat s c).isBit = false → ∀ e, E e) :
    Ensures (Grown Rounding.any) (ifElse c a b) s E fun j s' =>
      ∀ l, (if m = 0 then b else a).Denotes s values l → s'.eval values j = .ok (.int l) := by
  refine (ifElse_ensures hs.wellTyped (valid_of_denotes hc) ha.1 hb.1 hE).imp
    fun j s' _ hj l hl => ?_
  obtain ⟨hlt, t, i, ht, hi, hstands, hsel⟩ := hj
  have hm : (Operand.node i : Operand R).Denotes t values m :=
    denotes_of_stands hs ht hc hi hstands
  have hint : ∀ o ∈ [b, a], o.IsInt t := by
    simpa using ⟨isInt_of_grown ht hb, isInt_of_grown ht ha⟩
  obtain ⟨hnonneg, o, ho, heval⟩ := selectsOperand_eval (hs.of_grown ht) hint hm hlt hsel
  refine heval l (denotes_of_grown hs ht ?_)
  -- the condition is the address of one of two elements
  obtain ⟨n, rfl⟩ := Int.eq_ofNat_of_zero_le hnonneg
  rw [Int.toNat_natCast] at ho
  match n, ho with
  | 0, ho => simpa [← Option.some.inj ho] using hl
  | 1, ho => simpa [← Option.some.inj ho] using hl

/-! ## Exact values -/

/-- The computation succeeds, and what it makes is an integer with this value. -/
def Means (x : Build R NodeId) (s : Store R) (values : SignalId → Value R) (k : Int) : Prop :=
  ∃ j s', outcome x s = (.ok j, s') ∧ s'.eval values j = .ok (.int k)

theorem means_of_denotes {x : Build R NodeId} (h : Ensures (Grown Rounding.any) x s
    (fun _ => False) fun j s' => s'.Denotes values j k) : Means x s values k := by
  obtain ⟨j, s', hx, -, hj⟩ := h.succeeds
  exact ⟨j, s', hx, hj.eval⟩

/-- The least and the greatest of nothing cannot be made. -/
theorem arithmetic_nil (h : op = .min ∨ op = .max) (s : Store R) :
    outcome (arithmetic op []) s = (.error (.emptyOperands op.text), s) := by
  rcases h with rfl | rfl
  · rfl
  · rfl

/-- In a store made by constructors, a constructor applied to integers makes an expression with the
exact value, whatever is promoted, flattened, folded or dropped on the way. Operators fail only if
they have no result, and a selection gives the element at the address. -/
theorem constructors_exact (hs : s.Built fun _ _ => True) (hfit : s.SignalsFit)
    (hv : ∀ x < s.signals.size, (s.signal x).format.Holds (values x)) :
    (∀ (op : ArithOp) (os : List (Operand R)) (ks : List Int),
      List.Forall₂ (Operand.Denotes s values) os ks →
      match op.result? ks with
      | some k => Means (arithmetic op os) s values k
      | none => ∃ e, outcome (arithmetic op os) s = (.error e, s)) ∧
    (∀ (a : Operand R) k, a.Denotes s values k → Means (neg a) s values (-k)) ∧
    (∀ (a b : Operand R) k l, a.Denotes s values k → b.Denotes s values l →
      Means (sub a b) s values (k - l) ∧
      ∀ op, Means (compare op a b) s values (op.evalInt k l).toNat) ∧
    (∀ (a lo hi : Operand R) k l h,
      a.Denotes s values k → lo.Denotes s values l → hi.Denotes s values h →
      Means (clamp a lo hi) s values (max (min k h) l)) ∧
    (∀ (os : List (Operand R)) (a : Operand R) k, (∀ o ∈ os, o.IsInt s) → a.Denotes s values k →
      (Addresses (operandFormat s a) os.length → ∃ j s', outcome (array os a) s = (.ok j, s')) ∧
      ∀ j s', outcome (array os a) s = (.ok j, s') → 0 ≤ k ∧ ∃ o, os[k.toNat]? = some o ∧
        ∀ l, o.Denotes s values l → s'.eval values j = .ok (.int l)) ∧
    (∀ (c a b : Operand R) m, c.Denotes s values m → a.IsInt s → b.IsInt s →
      ((operandFormat s c).isBit = true → ∃ j s', outcome (ifElse c a b) s = (.ok j, s')) ∧
      ∀ j s', outcome (ifElse c a b) s = (.ok j, s') →
        ∀ l, (if m = 0 then b else a).Denotes s values l → s'.eval values j = .ok (.int l)) := by
  have hadmits : s.Admits values := ⟨hs.wellTyped_any, hfit, hv⟩
  refine ⟨fun op os ks h => ?_, fun a k h => means_of_denotes (neg_denotes hadmits h),
    fun a b k l ha hb => ⟨means_of_denotes (sub_denotes hadmits ha hb),
      fun op => means_of_denotes (compare_denotes hadmits op ha hb)⟩,
    fun a lo hi k l h ha hlo hhi => means_of_denotes (clamp_denotes hadmits ha hlo hhi),
    fun os a k ho ha => ⟨fun haddr => ?_, fun j s' hx => ?_⟩,
    fun c a b m hc ha hb => ⟨fun hbit => ?_, fun j s' hx => ?_⟩⟩
  · split
    · rename_i k hk
      rw [← ArithOp.evalInt_of_result? hk]
      refine means_of_denotes (arithmetic_denotes hadmits op h ?_)
      rintro rfl hop
      cases h
      rcases hop with rfl | rfl
      · cases hk
      · cases hk
    · rename_i hk
      obtain ⟨rfl, hop⟩ := ArithOp.result?_eq_none hk
      cases h
      exact ⟨_, arithmetic_nil hop s⟩
  · have harray := array_eval hadmits ho ha (E := fun _ => False) fun hno => absurd haddr hno
    obtain ⟨j, s', hx, -⟩ := harray.succeeds
    exact ⟨j, s', hx⟩
  · exact ((array_eval hadmits ho ha (E := fun _ => True) fun _ _ => trivial).elim_ok hx).2
  · have hif := ifElse_eval hadmits hc ha hb (E := fun _ => False) (by simp [hbit])
    obtain ⟨j, s', hx, -⟩ := hif.succeeds
    exact ⟨j, s', hx⟩
  · exact ((ifElse_eval hadmits hc ha hb (E := fun _ => True) fun _ _ => trivial).elim_ok hx).2

/-- A real signal with the bound 5, and the signal rounded to an integer of that bound. -/
def roundedStore : Store ℚ :=
  (outcome (Call.run (.toSint (.signal 0) none))
    (outcome (Call.run (.signal "y" (.ofMagnitude 5) .internal none)) {}).2).2

theorem roundedStore_computed :
    (roundedStore.Built fun _ _ => True) ∧ roundedStore.signals.size = 1 ∧
    1 < roundedStore.nodes.size := by
  refine ⟨.call (.call .empty _ ?_ trivial) _ ?_ trivial, ?_⟩
  · simp [Call.Valid, Call.operands]
  · intro o ho
    obtain rfl := List.mem_singleton.1 ho
    change 0 < _
    decide +kernel
  · decide +kernel

theorem roundedStore_signals {x : SignalId} (hx : x < roundedStore.signals.size) :
    (roundedStore.signal x).format = .ofMagnitude 5 := by
  obtain ⟨-, hsize, -⟩ := roundedStore_computed
  obtain rfl : x = 0 := Nat.lt_one_iff.1 (hsize ▸ hx)
  with_unfolding_all rfl

theorem roundedStore_signalsFit : roundedStore.SignalsFit := by
  intro x hx f hf
  rw [roundedStore_signals hx] at hf
  cases hf

theorem roundedStore_holds (y : ℚ) :
    ∀ x < roundedStore.signals.size, (roundedStore.signal x).format.Holds (.real y) := by
  intro x hx
  rw [roundedStore_signals hx]
  trivial

theorem roundedStore_denotes_three :
    (Operand.node 1 : Operand ℚ).Denotes roundedStore (fun _ => .real 3) 3 := by
  refine ⟨roundedStore_computed.2.2, ?_,
    ⟨⟨.signed, 4, ⟨-5, 5, by decide⟩⟩, by with_unfolding_all rfl⟩, by with_unfolding_all rfl⟩
  intro j hj a g hkind hformat x hx
  have hleaf : roundedStore.kind 0 = .signal 0 := by with_unfolding_all rfl
  have hround : roundedStore.kind 1 = .convert .realToSint 0 := by with_unfolding_all rfl
  have hrange : roundedStore.format 1 = .int ⟨.signed, 4, ⟨-5, 5, by decide⟩⟩ := by
    with_unfolding_all rfl
  have heval : roundedStore.eval (fun _ => .real 3) 0 = .ok (.real 3) := by with_unfolding_all rfl
  match j, le_of_mem_occurrences 1 hj with
  | 0, _ =>
    rw [hleaf] at hkind
    cases hkind
  | 1, _ =>
    rw [hround] at hkind
    rw [hrange] at hformat
    cases hkind
    cases hformat
    rw [heval] at hx
    cases hx
    decide +kernel

/-- A real within its bound is rounded and added up exactly. -/
theorem constructors_exact_rounded :
    (roundedStore.Built fun _ _ => True) ∧ roundedStore.SignalsFit ∧
    (∀ x < roundedStore.signals.size, (roundedStore.signal x).format.Holds (.real 3)) ∧
    (Operand.node 1 : Operand ℚ).Denotes roundedStore (fun _ => .real 3) 3 ∧
    Means (arithmetic .sum [.node 1, .value (.int 4), .node 1]) roundedStore
      (fun _ => .real 3) 10 := by
  have hexact :=
    constructors_exact roundedStore_computed.1 roundedStore_signalsFit (roundedStore_holds 3)
  have hnode := roundedStore_denotes_three
  have hvalue : (Operand.value (.int 4) : Operand ℚ).Denotes roundedStore (fun _ => .real 3) 4 :=
    rfl
  exact ⟨roundedStore_computed.1, roundedStore_signalsFit, roundedStore_holds 3, hnode,
    hexact.1 .sum _ _ (.cons hnode (.cons hvalue (.cons hnode .nil)))⟩

/-- A real beyond its bound may be rounded to an integer beyond the range of the conversion, and
then a sum has no room for the result: three times 7 is not -11. -/
theorem rounded_sum_wraps :
    (roundedStore.Built fun _ _ => True) ∧ roundedStore.SignalsFit ∧
    (∀ x < roundedStore.signals.size, (roundedStore.signal x).format.Holds (.real 7)) ∧
    (Operand.node 1 : Operand ℚ).IsInt roundedStore ∧
    roundedStore.eval (fun _ => .real 7) 1 = .ok (.int 7) ∧
    Means (arithmetic .sum [.node 1, .node 1, .node 1]) roundedStore (fun _ => .real 7) (-11) ∧
    ArithOp.sum.result? [7, 7, 7] = some 21 := by
  refine ⟨roundedStore_computed.1, roundedStore_signalsFit, roundedStore_holds 7,
    ⟨roundedStore_denotes_three.lt, ⟨.signed, 4, ⟨-5, 5, by decide⟩⟩, by with_unfolding_all rfl⟩,
    by with_unfolding_all rfl, ?_, rfl⟩
  refine ⟨2, (outcome (arithmetic .sum [.node 1, .node 1, .node 1]) roundedStore).2, ?_,
    by with_unfolding_all rfl⟩
  refine Prod.ext ?_ rfl
  with_unfolding_all rfl

end Build

end MixedSignal
