import Mathlib
import MixedSignal.Equation.LinearForm
import MixedSignal.Proofs.Exact
import MixedSignal.Proofs.Nesting

/-!
# What expressions mean exactly

Over exact scalars an expression has a meaning that does not mention formats: sums are sums of the
field, conversions between domains change nothing, and a case table is the case that the bits of its
selectors pick (`Store.meaning`). Equations speak about signals and their derivatives, and both may
have any value. Whatever is not arithmetic is left open by a `Reading`, which says what bits, addresses
and all other nodes are; every way to evaluate comparisons and words is a reading.

The constructors give what they make the meaning of the operator on the meanings of the operands, and
rewriting keeps the meaning (`Build.resolveCases_means`, `Build.distributeProducts_means`).
-/

namespace MixedSignal

/-- What an exact meaning takes from outside the arithmetic. -/
structure Reading (R : Type) where
  /-- The bits of selectors. -/
  bit : SignalId → Bool
  /-- The addresses of selections. -/
  address : NodeId → Nat
  /-- The values of nodes that are no arithmetic. -/
  other : NodeId → R

namespace Store

section

variable {R : Type} [Scalar R] {i : NodeId}

/-- The meaning of a node of a kind, from the meanings of its operands. An address wraps around at the
number of elements. -/
def meaningOf (ρ : Reading R) (v : LinearVar → R) (operand : NodeId → R) (i : NodeId) :
    NodeKind R → R
  | .signal x => v (.signal x)
  | .deriv x => v (.deriv x)
  | .const c => c.toScalar
  | .arith op xs => op.evalScalar (xs.map operand)
  | .convert .uintToSint a | .convert .sintToReal a => operand a
  | .select xs a => (xs[ρ.address a % xs.length]?).elim 0 operand
  | .cases xs selectors => (xs[Transform.address (selectors.map ρ.bit)]?).elim 0 operand
  | _ => ρ.other i

/-- The exact meaning of an expression for values of the variables. -/
def meaning (s : Store R) (ρ : Reading R) (v : LinearVar → R) (i : NodeId) : R :=
  meaningOf ρ v (fun j => if _h : j < i then meaning s ρ v j else 0) i (s.kind i)
termination_by i

theorem elim_getElem?_congr {α : Type} {a : α} {xs : List NodeId} {f g : NodeId → α}
    (h : ∀ x ∈ xs, f x = g x) (k : Nat) : (xs[k]?).elim a f = (xs[k]?).elim a g := by
  cases hk : xs[k]? with
  | none => rfl
  | some x => exact h x (List.mem_of_getElem? hk)

/-- The meaning of a node depends on those of its operands only. -/
theorem meaningOf_congr {ρ : Reading R} {v : LinearVar → R} {s : Store R} {f g : NodeId → R}
    {kind : NodeKind R} (h : ∀ j ∈ s.operands kind, f j = g j) :
    meaningOf ρ v f i kind = meaningOf ρ v g i kind := by
  cases kind with
  | arith op xs => exact congrArg op.evalScalar (List.map_congr_left h)
  | convert conversion a =>
    cases conversion with
    | uintToSint | sintToReal => exact h a (by simp [operands])
    | _ => rfl
  | select xs a => exact elim_getElem?_congr (fun x hx => h x (by simp [operands, hx])) _
  | cases xs selectors => exact elim_getElem?_congr (fun x hx => h x (by simp [operands, hx])) _
  | _ => rfl

variable {rounding : Rounding R} {s s' : Store R} {ρ : Reading R} {v : LinearVar → R}

theorem WellTyped.meaning_eq (hs : s.WellTyped rounding) (hi : i < s.nodes.size) :
    s.meaning ρ v i = meaningOf ρ v (s.meaning ρ v) i (s.kind i) := by
  rw [meaning]
  exact meaningOf_congr fun j hj => dif_pos (hs.below i hi j hj)

/-- The meaning of an expression stays when the store grows. -/
theorem WellTyped.meaning_extends (hs : s.WellTyped rounding) (h : s.Extends s') (i : NodeId)
    (hi : i < s.nodes.size) : s'.meaning ρ v i = s.meaning ρ v i := by
  induction i using Nat.strong_induction_on with
  | h i ih =>
    rw [meaning, meaning, h.kind_eq hi]
    refine meaningOf_congr (s := s) fun j hj => ?_
    have hlt := hs.below i hi j hj
    simp only [hlt, ↓reduceDIte]
    exact ih j hlt (hlt.trans hi)

theorem WellTyped.map_meaning_extends (hs : s.WellTyped rounding) (h : s.Extends s')
    {xs : List NodeId} (hxs : ∀ x ∈ xs, x < s.nodes.size) :
    xs.map (s'.meaning ρ v) = xs.map (s.meaning ρ v) :=
  List.map_congr_left fun x hx => hs.meaning_extends h x (hxs x hx)

theorem meaning_of_const? {c : Value R} (h : s.const? i = some c) :
    s.meaning ρ v i = c.toScalar := by
  rw [meaning]
  unfold const? at h
  split at h
  · rename_i hk
    cases h
    rw [hk]
    rfl
  · cases h

/-- The meanings of nodes that are looked up in a list. -/
theorem elim_getElem? {α : Type} (xs : List α) (f : α → R) (k : Nat) :
    (xs[k]?).elim 0 f = ((xs.map f)[k]?).getD 0 := by
  rw [List.getElem?_map]
  cases xs[k]? <;> rfl

end

/-! ## Operators -/

section

variable {R : Type} [ExactScalar R] {rounding : Rounding R} {s s' : Store R} {ρ : Reading R}
  {v : LinearVar → R} {op : ArithOp} {d : Domain} {j : NodeId}

/-- The node exists, is of the domain, and has the meaning. -/
structure HasMeaning (s : Store R) (ρ : Reading R) (v : LinearVar → R) (d : Domain) (i : NodeId)
    (a : R) : Prop where
  lt : i < s.nodes.size
  domain : (s.format i).domain = d
  eq : s.meaning ρ v i = a

/-- The constant is one of the domain and has the meaning. -/
def ConstMeaning (d : Domain) (c : Value R) (a : R) : Prop := c.InDomain d ∧ c.toScalar = a

theorem forall₂_hasMeaning {xs : List NodeId}
    (h : ∀ x ∈ xs, x < s.nodes.size ∧ (s.format x).domain = d) :
    List.Forall₂ (s.HasMeaning ρ v d) xs (xs.map (s.meaning ρ v)) := by
  rw [List.forall₂_map_right_iff, List.forall₂_same]
  exact fun x hx => ⟨(h x hx).1, (h x hx).2, rfl⟩

theorem eq_map_of_forall₂ {xs : List NodeId} {as : List R}
    (h : List.Forall₂ (s.HasMeaning ρ v d) xs as) : as = xs.map (s.meaning ρ v) := by
  induction h with
  | nil => rfl
  | cons hx _ ih => rw [List.map_cons, hx.eq, ih]

/-- A selection between zeros is zero. -/
theorem WellTyped.meaning_zeroArray (hs : s.WellTyped rounding) {i : NodeId}
    (hi : i < s.nodes.size) (h : Build.isZeroArray s i = true) : s.meaning ρ v i = 0 := by
  unfold Build.isZeroArray at h
  split at h
  · rename_i xs a hk
    rw [hs.meaning_eq hi, hk]
    change (xs[_]?).elim 0 (s.meaning ρ v) = 0
    cases he : xs[ρ.address a % xs.length]? with
    | none => rfl
    | some e =>
      obtain ⟨c, hc, hz⟩ : ∃ c, s.const? e = some c ∧ c.isZero = true := by
        simpa [Option.any_eq_true] using List.all_eq_true.1 h e (List.mem_of_getElem? he)
      exact (meaning_of_const? hc).trans (Value.toScalar_of_isZero hz)
  · cases h

/-- Operators act on meanings as they do on scalars. -/
theorem WellTyped.interprets (hs : s.WellTyped rounding) (op : ArithOp) (d : Domain) :
    s.Interprets op op.onScalar 0 (ConstMeaning d) (s.HasMeaning ρ v d) where
  const h hc := by
    refine ⟨?_, ?_⟩
    · rw [← h.domain]
      exact hs.const_inDomain h.lt hc
    · rw [← meaning_of_const? hc, h.eq]
  operands := by
    intro i xs a h hk
    have ht := hs.typed i h.lt
    rw [hk] at ht
    have hlt : ∀ x ∈ xs, x < s.nodes.size := fun x hx =>
      (hs.below i h.lt x (by rwa [children, hk])).trans h.lt
    generalize hf : s.format i = f at ht
    cases ht with
    | arith hnormal hfold =>
      have hdomain := Format.fold?_domain_eq (Format.arithmetic?_keepsDomain op) hfold
      refine ⟨_, forall₂_hasMeaning fun x hx => ⟨hlt x hx, ?_⟩, ?_⟩
      · rw [hdomain _ (List.mem_map_of_mem hx), ← hf, h.domain]
      · have hne : xs.map (s.meaning ρ v) ≠ [] := by
          intro hnil
          have := hnormal.two_le
          simp [List.map_eq_nil_iff.1 hnil] at this
        rw [op.reduce_onScalar hne, ← h.eq, hs.meaning_eq h.lt, hk]
        rfl
  fold := by
    rintro c e _ _ ⟨hc, rfl⟩ ⟨he, rfl⟩
    exact ⟨foldValues_inDomain hc he, Value.toScalar_foldValues op c e⟩
  identity := by
    rintro c _ ⟨-, rfl⟩ h b
    cases op with
    | sum =>
      rw [Value.toScalar_of_isZero h]
      exact add_zero b
    | product =>
      rw [Value.toScalar_of_isOne h]
      exact mul_one b
    | min | max => cases h
  zero := by
    rintro c _ - ⟨-, rfl⟩ h
    exact Value.toScalar_of_isZero h
  zeroArray _ h hz := h.eq.symm.trans (hs.meaning_zeroArray h.lt hz)
  absorbs := by
    rintro rfl a
    exact ⟨zero_mul a, mul_zero a⟩

theorem IsConstant.hasMeaning {c : Value R} (hj : j < s.nodes.size) (hc : c.InDomain d)
    (h : s.IsConstant c d j) : s.HasMeaning ρ v d j c.toScalar :=
  ⟨hj, h.domain_eq hc, meaning_of_const? (h.const?_eq hc)⟩

/-- A natural number is a constant of every domain. -/
theorem IsConstant.hasMeaning_natCast {k : Nat} (hj : j < s.nodes.size)
    (h : s.IsConstant (.int k) d j) : s.HasMeaning ρ v d j k := by
  cases d with
  | real =>
    have hkind : s.const? j = some (.real (Value.int (k : Int) : Value R).toScalar) := by
      rw [const?, kind, h]
      rfl
    refine ⟨hj, by rw [format, h]; rfl, (meaning_of_const? hkind).trans ?_⟩
    exact (Value.toScalar_int k).trans (Int.cast_natCast k)
  | sint | uint =>
    have hm := h.hasMeaning (ρ := ρ) (v := v) hj (by simp [Value.InDomain])
    rwa [Value.toScalar_int, Int.cast_natCast] at hm

theorem WellTyped.realizes (hs : s.WellTyped rounding) (op : ArithOp) (d : Domain) :
    s.Realizes op d op.onScalar 0 (ConstMeaning d) (s.HasMeaning ρ v d) where
  constant := by
    rintro c _ j ⟨hc, rfl⟩ hj h
    exact h.hasMeaning hj hc
  zero _ hj h := by
    have hm := IsConstant.hasMeaning_natCast (ρ := ρ) (v := v) (k := 0) hj h
    rwa [Nat.cast_zero] at hm
  arith := by
    intro xs as a j g hj hnode hxs ha
    obtain rfl := eq_map_of_forall₂ hxs
    have hk : s.kind j = .arith op xs := by rw [kind, hnode]
    have ht := hs.typed j hj
    rw [hk, format, hnode] at ht
    cases ht with
    | arith hnormal hfold =>
      obtain ⟨x, hx⟩ := List.exists_mem_of_length_pos (Nat.zero_lt_of_lt hnormal.two_le)
      obtain ⟨_, -, hm⟩ := forall₂_exists_right hxs x hx
      refine ⟨hj, ?_, ?_⟩
      · rw [format, hnode, ← hm.domain]
        exact (Format.fold?_domain_eq (Format.arithmetic?_keepsDomain op) hfold _
          (List.mem_map_of_mem hx)).symm
      · have hne : xs.map (s.meaning ρ v) ≠ [] := by
          intro hnil
          rw [hnil] at ha
          cases ha
        rw [op.reduce_onScalar hne] at ha
        rw [hs.meaning_eq hj, hk]
        exact Option.some.inj ha

/-- What an operator on nodes becomes means the operator on their meanings. -/
theorem WellTyped.meaning_of_combines (hs : s.WellTyped rounding) (hg : s.Grown rounding s')
    {nodes : List NodeId} (hnodes : ∀ i ∈ nodes, i < s.nodes.size ∧ (s.format i).domain = d)
    (hj : j < s'.nodes.size) (h : Combines s s' op d nodes j) :
    s'.meaning ρ v j = op.evalScalar (nodes.map (s.meaning ρ v)) := by
  have hs' := hg.wellTyped hs
  cases nodes with
  | nil =>
    obtain ⟨k, hconst, hop⟩ := h.of_nil hs' hj
    rcases hop with ⟨rfl, rfl⟩ | ⟨rfl, rfl⟩
    · rw [(IsConstant.hasMeaning_natCast (k := 0) hj hconst).eq, Nat.cast_zero]
      exact ExactScalar.sumStart_eq.symm
    · rw [(IsConstant.hasMeaning_natCast (k := 1) hj hconst).eq, Nat.cast_one]
      rfl
  | cons i nodes =>
    refine ((hs.interprets op d).of_combines (hs'.realizes op d) (fun x a hx => ?_)
      (forall₂_hasMeaning hnodes) (op.reduce_onScalar (by simp)) hj h).eq
    refine ⟨hx.lt.trans_le hg.size_le, ?_, ?_⟩
    · rw [hg.toExtends.format_eq hx.lt, hx.domain]
    · rw [hs.meaning_extends hg.toExtends x hx.lt, hx.eq]

/-- Promotion keeps the meaning. -/
theorem Promotes.meaning_eq (hs : s.WellTyped rounding) {i : NodeId} (hi : i < s.nodes.size)
    (hj : j < s.nodes.size) (h : s.Promotes d i j) : s.meaning ρ v j = s.meaning ρ v i := by
  induction h with
  | same => rfl
  | @const d i j c hrank hc hnode =>
    have hconst : s.const? j = some (Build.constantIn c d).1 := by rw [const?, kind, hnode]
    rw [meaning_of_const? hconst, meaning_of_const? hc]
    have hdomain := hs.const_inDomain hi hc
    cases d with
    | real => rfl
    | sint | uint =>
      cases c with
      | int k => rfl
      | real x =>
        -- a real constant is in the largest domain already
        rw [show (s.format i).domain = .real from hdomain] at hrank
        simp [Domain.rank] at hrank
  | widen _ _ hnode =>
    rw [hs.meaning_eq hj, kind, hnode]
    rfl
  | @toReal i j k f _ _ _ hnode _ ih =>
    have hk : k < j := hs.below j hj k (by simp [children, kind, hnode, operands])
    rw [hs.meaning_eq hj, kind, hnode, ← ih hi (hk.trans hj)]
    rfl

end

end Store

/-! ## Constructors -/

namespace Build

open Store

variable {R : Type} [ExactScalar R] {rounding : Rounding R} {s s' : Store R} (ρ : Reading R)
  (v : LinearVar → R) {os : List (Operand R)}

/-- The meaning of an operand. -/
def operandMeaning (s : Store R) (ρ : Reading R) (v : LinearVar → R) : Operand R → R
  | .node i => s.meaning ρ v i
  | .signal x => v (.signal x)
  | .value c => c.toScalar

section

variable (hs : s.WellTyped rounding)
include hs

theorem meaning_of_stands (hg : s.Grown rounding s') {o : Operand R} (ho : o.Valid s) {i : NodeId}
    (h : o.Stands s' i) : s'.meaning ρ v i = operandMeaning s ρ v o := by
  cases o with
  | node j =>
    obtain rfl : i = j := h
    exact hs.meaning_extends hg.toExtends i ho
  | signal x =>
    obtain rfl : i = s'.leaf x := h
    have hx : x < s'.signals.size := by
      rw [hg.signals_eq]
      exact ho
    rw [meaning, (hg.wellTyped hs).leaf_kind x hx]
    rfl
  | value c =>
    refine meaning_of_const? ?_
    rw [const?, kind, show s'.node i = ⟨.const c, c.format⟩ from h]

/-- Operands and the promoted nodes that they become mean the same. -/
theorem Promoted.map_meaning (hg : s.Grown rounding s') (ho : ∀ o ∈ os, o.Valid s)
    {is js : List NodeId} (h : Promoted s' os is js) :
    js.map (s'.meaning ρ v) = os.map (operandMeaning s ρ v) := by
  have hs' := hg.wellTyped hs
  have hlt := forall₂_lt h.stands
  obtain ⟨hstands, hpromotes⟩ := h
  generalize commonDomain s' is = d at hpromotes
  induction hstands generalizing js with
  | nil =>
    cases hpromotes
    rfl
  | cons hi _ ih =>
    cases hpromotes with
    | cons hj hjs =>
      rw [List.map_cons, List.map_cons, hj.2.meaning_eq hs' hi.1 hj.1,
        meaning_of_stands ρ v hs hg (ho _ (by simp)) hi.2,
        ih (fun o h => ho o (by simp [h])) (fun i h => hlt i (by simp [h])) hjs]

/-- An operator on operands means the operator on their meanings. -/
theorem arithmetic_means (op : ArithOp) (ho : ∀ o ∈ os, o.Valid s) :
    Ensures (Grown rounding) (arithmetic op os) s (fun _ => True) fun j s' =>
      j < s'.nodes.size ∧
        s'.meaning ρ v j = op.evalScalar (os.map (operandMeaning s ρ v)) := by
  refine (arithmetic_ensures hs ho fun _ _ _ => trivial).imp fun j s' _ hj => ⟨hj.1, ?_⟩
  obtain ⟨hlt, u, is, js, hu, hu', hpromoted, hcomb⟩ := hj
  rw [(hu.wellTyped hs).meaning_of_combines hu' hpromoted.domain_eq hlt hcomb,
    hpromoted.map_meaning ρ v hs hu ho]

/-- A difference means the difference of the meanings. -/
theorem sub_means {a b : Operand R} (ha : a.Valid s) (hb : b.Valid s) :
    Ensures (Grown rounding) (sub a b) s (fun _ => True) fun j s' => j < s'.nodes.size ∧
      s'.meaning ρ v j = operandMeaning s ρ v a - operandMeaning s ρ v b := by
  unfold sub neg
  have hfactors : ∀ o ∈ [.value (.int (-1)), b], o.Valid s := by simpa using ⟨trivial, hb⟩
  refine (arithmetic_means ρ v hs .product hfactors).bind fun k t ht hk => ?_
  have hvalid : ∀ o ∈ [a, .node k], o.Valid t := by simpa using ⟨valid_of_grown ht ha, hk.1⟩
  refine (arithmetic_means ρ v (ht.wellTyped hs) .sum hvalid).imp fun j s' _ hj => ⟨hj.1, ?_⟩
  have ha' : operandMeaning t ρ v a = operandMeaning s ρ v a := by
    cases a with
    | node i => exact hs.meaning_extends ht.toExtends i ha
    | signal | value => rfl
  have hk' : operandMeaning t ρ v (.node k) = -1 * operandMeaning s ρ v b := by
    change t.meaning ρ v k = _
    rw [hk.2]
    change Scalar.product [(Value.int (-1) : Value R).toScalar, _] = _
    rw [Scalar.product_eq, Value.toScalar_int]
    simp
  rw [hj.2]
  change Scalar.sum [_, _] = _
  rw [ha', hk', Scalar.sum_eq]
  simp [sub_eq_add_neg]

end

/-- Elements that are all the same mean the same. -/
theorem meaning_of_allSame {first : NodeId} {xs : List NodeId} (h : allSame s first xs = true)
    {x : NodeId} (hx : x ∈ xs) : s.meaning ρ v x = s.meaning ρ v first := by
  have hsame := List.all_eq_true.1 h x hx
  simp only [Bool.or_eq_true] at hsame
  rcases hsame with heq | hconst
  · rw [eq_of_beq heq]
  · split at hconst
    · rename_i c e hc he
      rw [meaning_of_const? hc, meaning_of_const? he, Value.toScalar_eq_of_beq hconst]
    · cases hconst

/-- A selection means what the element at the address means. -/
theorem array_means (hs : s.WellTyped rounding) {a : NodeId} (ho : ∀ o ∈ os, o.Valid s)
    (ha : a < s.nodes.size) :
    Ensures (Grown rounding) (array os (.node a)) s (fun _ => True) fun j s' =>
      j < s'.nodes.size ∧ s'.meaning ρ v j =
        ((os.map (operandMeaning s ρ v))[ρ.address a % os.length]?).getD 0 := by
  have hvalid : (Operand.node a : Operand R).Valid s := ha
  refine (array_ensures hs ho hvalid fun _ _ => trivial).imp fun j s' hs' hj => ⟨hj.1, ?_⟩
  obtain ⟨hlt, u, is, js, i, w, hu, hu', hpromoted, hi, hstands, -, hlength, hsel⟩ := hj
  obtain rfl : i = a := hstands
  have hsu := hu.wellTyped hs
  have hjs := hpromoted.map_meaning ρ v hs hu ho
  have hlen : js.length = os.length := by
    rw [← hpromoted.promotes.length_eq, ← hpromoted.stands.length_eq]
  rw [← hjs, ← hlen, ← elim_getElem?]
  cases hsel with
  | same hhead hsame =>
    have hpos : 0 < js.length := hlength ▸ Nat.two_pow_pos w
    rw [List.getElem?_eq_getElem (Nat.mod_lt _ hpos),
      hsu.meaning_extends hu'.toExtends j (hpromoted.domain_eq j (List.mem_of_mem_head? hhead)).1]
    exact (meaning_of_allSame ρ v hsame (List.getElem_mem _)).symm
  | node hnode =>
    rw [(hs'.wellTyped hs).meaning_eq hlt, kind, hnode]
    exact elim_getElem?_congr
      (fun x hx => hsu.meaning_extends hu'.toExtends x (hpromoted.domain_eq x hx).1) _

/-- A case table means what the case at the bits of the selectors means. -/
theorem eqnCase_means (hs : s.WellTyped rounding) (ho : ∀ o ∈ os, o.Valid s)
    {selectors : List SignalId} (hsel : ∀ x ∈ selectors, x < s.signals.size) :
    Ensures (Grown rounding) (eqnCase os selectors) s (fun _ => True) fun j s' =>
      j < s'.nodes.size ∧ s'.meaning ρ v j =
        ((os.map (operandMeaning s ρ v))[Transform.address (selectors.map ρ.bit)]?).getD 0 := by
  refine (eqnCase_ensures hs ho hsel fun _ _ => trivial).imp fun j s' hs' hj => ⟨hj.1, ?_⟩
  obtain ⟨hlt, u, is, js, f, hu, hu', hpromoted, hnode⟩ := hj
  rw [← hpromoted.map_meaning ρ v hs hu ho, ← elim_getElem?,
    (hs'.wellTyped hs).meaning_eq hlt, kind, hnode]
  exact elim_getElem?_congr (fun x hx =>
    (hu.wellTyped hs).meaning_extends hu'.toExtends x (hpromoted.domain_eq x hx).1) _

end Build

/-! ## Rewriting -/

/-- The bits of the reading are those that a setting gives. -/
def Reading.Agrees {R : Type} (ρ : Reading R) (setting : SignalId → Option Bool) : Prop :=
  ∀ x b, setting x = some b → ρ.bit x = b

namespace Transform

open Store Build

variable {R : Type} [ExactScalar R] {rounding : Rounding R} {s s' : Store R} {ρ : Reading R}
  {v : LinearVar → R}

/-- The nodes exist and mean the same. -/
structure SameMeaning (rounding : Rounding R) (ρ : Reading R) (v : LinearVar → R) (i j : NodeId)
    (s : Store R) : Prop extends Both rounding i j s where
  eq : s.meaning ρ v j = s.meaning ρ v i

namespace SameMeaning

theorem of_grown {i j : NodeId} (hg : s.Grown rounding s') (h : SameMeaning rounding ρ v i j s) :
    SameMeaning rounding ρ v i j s' where
  toBoth := h.toBoth.of_grown hg
  eq := by
    rw [h.wellTyped.meaning_extends hg.toExtends j h.right_lt, h.eq,
      h.wellTyped.meaning_extends hg.toExtends i h.left_lt]

/-- A construction of a node with the meaning of another one. -/
theorem of_ensures (hs : s.WellTyped rounding) {i : NodeId} (hi : i < s.nodes.size) {a : R}
    (ha : a = s.meaning ρ v i) {x : Build R NodeId}
    (hx : Ensures (Grown rounding) x s (fun _ => True) fun j s' =>
      j < s'.nodes.size ∧ s'.meaning ρ v j = a) :
    Ensures (Grown rounding) x s (fun _ => True) (SameMeaning rounding ρ v i) := by
  refine hx.imp fun j s' hg hj => ⟨.of_made hs hi hg hj.1, ?_⟩
  rw [hj.2, ha, hs.meaning_extends hg.toExtends i hi]

variable {xs ys : List NodeId} (h : List.Forall₂ (fun x y => SameMeaning rounding ρ v x y s) xs ys)
include h

theorem map_eq : (ys.map Operand.node).map (operandMeaning s ρ v) = xs.map (s.meaning ρ v) := by
  induction h with
  | nil => rfl
  | cons hx _ ih => exact congrArg₂ List.cons hx.eq ih

theorem valid : ∀ o ∈ ys.map Operand.node, o.Valid s :=
  valid_of_forall₂ h fun _ _ hxy => hxy.right_lt

theorem length_eq : (ys.map (Operand.node (R := R))).length = xs.length := by
  rw [List.length_map, h.length_eq]

end SameMeaning

theorem relates_sameMeaning : Relates rounding (fun _ => True) (SameMeaning rounding ρ v) where
  of_grown _ _ _ _ hg h := h.of_grown hg
  lt _ _ _ h := h.right_lt
  arith := by
    intro s i op xs ys hs hi hk hys
    refine SameMeaning.of_ensures hs hi ?_ (arithmetic_means ρ v hs op (SameMeaning.valid hys))
    rw [SameMeaning.map_eq hys, hs.meaning_eq hi, hk]
    rfl

/-- Resolving case tables keeps the meaning, if the setting is that of the bits. -/
theorem resolves_sameMeaning {setting : SignalId → Option Bool} (hρ : ρ.Agrees setting) :
    Resolves rounding (fun _ => True) setting (SameMeaning rounding ρ v) where
  toRelates := relates_sameMeaning
  kept hs hi _ := ⟨⟨hs, hi, hi⟩, rfl⟩
  select := by
    intro s i xs ys a hs hi hk hys
    have ha : a < i := hs.below i hi a (by simp [children, hk, operands])
    refine SameMeaning.of_ensures hs hi ?_
      (array_means ρ v hs (SameMeaning.valid hys) (ha.trans hi))
    rw [SameMeaning.map_eq hys, SameMeaning.length_eq hys, hs.meaning_eq hi, hk,
      ← elim_getElem?]
    rfl
  table := by
    intro s i xs ys selectors hs hi hk _ hys
    refine SameMeaning.of_ensures hs hi ?_
      (eqnCase_means ρ v hs (SameMeaning.valid hys) (hs.selector_lt hi hk))
    rw [SameMeaning.map_eq hys, hs.meaning_eq hi, hk, ← elim_getElem?]
    rfl
  case := by
    intro s i xs selectors bits c j hs hi hk hbits hc h
    refine ⟨⟨hs, hi, h.right_lt⟩, ?_⟩
    rw [h.eq, hs.meaning_eq hi, hk]
    change _ = (xs[address (selectors.map ρ.bit)]?).elim 0 (s.meaning ρ v)
    rw [map_bit_eq hρ hbits, hc]
    rfl

/-- The second node is a multiple of the first. -/
structure Multiple (rounding : Rounding R) (ρ : Reading R) (v : LinearVar → R) (c : Value R)
    (i j : NodeId) (s : Store R) : Prop extends Both rounding i j s where
  eq : s.meaning ρ v j = s.meaning ρ v i * c.toScalar

/-- A scaled sum means the factor times the sum of the terms. -/
theorem meaning_scaledSum (hs : s.WellTyped rounding) {p : NodeId} (hp : p < s.nodes.size)
    {terms : List NodeId} {c : Value R} (h : scaledSum? s p = some (terms, c)) :
    s.meaning ρ v p = (terms.map (s.meaning ρ v)).sum * c.toScalar := by
  obtain ⟨a, b, hk, hka, hc⟩ := scaledSum?_eq_some h
  have ha := (hs.operand_lt hp hk a (by simp)).trans hp
  rw [hs.meaning_eq hp, hk]
  change Scalar.product [s.meaning ρ v a, s.meaning ρ v b] = _
  rw [hs.meaning_eq ha, hka, meaning_of_const? hc, Scalar.product_eq]
  change [Scalar.sum (terms.map (s.meaning ρ v)), c.toScalar].prod = _
  rw [Scalar.sum_eq]
  simp

/-- Multiplying constants into sums keeps the meaning. -/
theorem distributes_sameMeaning :
    Distributes rounding (fun _ => True) (SameMeaning rounding ρ v) (SameMeaning rounding ρ v)
      (Multiple rounding ρ v) where
  of_grown _ _ _ _ hg h := h.of_grown hg
  leaf hs hi _ _ := ⟨⟨hs, hi, hi⟩, rfl⟩
  sum := relates_sameMeaning.arith
  product := relates_sameMeaning.arith
  unscaled h _ := h
  multiple_of_grown c i j s s' hg h := by
    refine ⟨h.toBoth.of_grown hg, ?_⟩
    rw [h.wellTyped.meaning_extends hg.toExtends j h.right_lt, h.eq,
      h.wellTyped.meaning_extends hg.toExtends i h.left_lt]
  multiple := by
    intro s x c hs hx
    have hvalid : ∀ o ∈ [Operand.node x, .value c], o.Valid s := by
      simpa using ⟨hx, trivial⟩
    refine (arithmetic_means ρ v hs .product hvalid).imp fun j s' hg hj =>
      ⟨.of_made hs hx hg hj.1, ?_⟩
    rw [hj.2, hs.meaning_extends hg.toExtends x hx]
    change Scalar.product [s.meaning ρ v x, c.toScalar] = _
    rw [Scalar.product_eq]
    simp
  scaled := by
    intro s s' i p terms c zs hs hp hscaled hg hzs
    have hs' := hg.wellTyped hs
    have hvalid : ∀ o ∈ zs.map Operand.node, o.Valid s' := by
      refine valid_of_forall₂ hzs ?_
      rintro x z ⟨t, -, hz⟩
      exact hz.right_lt
    refine SameMeaning.of_ensures hs' (hp.left_lt.trans_le hg.size_le) ?_
      (arithmetic_means ρ v hs' .sum hvalid)
    have hterms : (zs.map Operand.node).map (operandMeaning s' ρ v) =
        terms.map fun x => s'.meaning ρ v x * c.toScalar := by
      clear hvalid hscaled
      induction hzs with
      | nil => rfl
      | @cons x z _ _ hx _ ih =>
        obtain ⟨t, hm, hz⟩ := hx
        exact congrArg₂ List.cons (hz.eq.trans hm.eq) ih
    have hmap := hs.map_meaning_extends (ρ := ρ) (v := v) hg.toExtends
      (scaledSum?_lt hs hp.right_lt hscaled)
    change Scalar.sum _ = _
    rw [Scalar.sum_eq, hterms, List.sum_map_mul_right, hmap,
      hs.meaning_extends hg.toExtends i hp.left_lt, ← hp.eq,
      meaning_scaledSum hs hp.right_lt hscaled]

end Transform

namespace Build

open Store Transform

variable {R : Type} [ExactScalar R] {rounding : Rounding R} {s : Store R} {v : LinearVar → R}

/-- An expression with its case tables resolved means the same for bits that agree. -/
theorem resolveCases_means {ρ : Reading R} {setting : SignalId → Option Bool}
    (hρ : ρ.Agrees setting) (hs : s.WellTyped rounding) {i : NodeId} (hi : i < s.nodes.size) :
    Ensures (Grown rounding) (resolveCases setting i) s (fun _ => True)
      (SameMeaning rounding ρ v i) :=
  resolveCases_ensures (resolves_sameMeaning hρ) hs hi

/-- An expression with constants multiplied into sums means the same. -/
theorem distributeProducts_means (ρ : Reading R) (hs : s.WellTyped rounding) {i : NodeId}
    (hi : i < s.nodes.size) :
    Ensures (Grown rounding) (distributeProducts i) s (fun _ => True)
      (SameMeaning rounding ρ v i) :=
  distributeProducts_ensures hs hi distributes_sameMeaning

end Build

end MixedSignal
