import MixedSignal.Proofs.Constructors
import MixedSignal.Proofs.Reduction
import MixedSignal.Proofs.Soundness

/-!
# The values of integer nodes

`Store.Denotes` says that a node is an integer with a value. Promotion, flattening, folding of
constants and dropping of neutral or zero operands all keep what the operator makes of the values of
its operands (`ArithOp.reduce`), so the node that an operator becomes has the value of the operator
(`Store.Denotes.of_combines`), and the node that a selection becomes has the value of the element
(`Store.Denotes.of_selects`).
-/

set_option linter.unusedSectionVars false

namespace MixedSignal

variable {R : Type} [Scalar R] {xs : List NodeId} {ks : List Int}

/-! ## Operators on lists of integers -/

namespace ArithOp

instance (op : ArithOp) : Std.Associative op.onInt where
  assoc a b c := by
    cases op with
    | sum => exact add_assoc a b c
    | product => exact mul_assoc a b c
    | min => exact min_assoc a b c
    | max => exact max_assoc a b c

instance (op : ArithOp) : Std.Commutative op.onInt where
  comm a b := by
    cases op with
    | sum => exact add_comm a b
    | product => exact mul_comm a b
    | min => exact min_comm a b
    | max => exact max_comm a b

/-- What the operator makes of some integers, nothing of none. -/
def reduce (op : ArithOp) (ks : List Int) : Option Int :=
  ks.foldr (fun k r => (some k).merge op.onInt r) none

variable (op : ArithOp)

/-- The value of the operator on integers is what it makes of them. -/
theorem reduce_of_ne_nil (h : ks ≠ []) : op.reduce ks = some (op.evalInt ks) := by
  cases ks with
  | nil => exact absurd rfl h
  | cons k ks =>
    rw [evalInt_cons]
    exact reduce_eq_foldl op.onInt k ks

end ArithOp

namespace Store

variable {s s' : Store R} {values : SignalId → Value R} {op : ArithOp} {d : Domain}

/-! ## Integer nodes and their values -/

/-- The formats of the store fit, and the valuation gives the signals values that their formats
hold. -/
structure Admits (s : Store R) (values : SignalId → Value R) : Prop where
  wellTyped : s.WellTyped Rounding.any
  signalsFit : s.SignalsFit
  holds : ∀ x < s.signals.size, (s.signal x).format.Holds (values x)

theorem Admits.of_grown (h : s.Admits values) (hs : s.Grown Rounding.any s') :
    s'.Admits values where
  wellTyped := hs.wellTyped h.wellTyped
  signalsFit x hx := by
    rw [signal, hs.signals_eq] at *
    exact h.signalsFit x hx
  holds x hx := by
    rw [signal, hs.signals_eq] at *
    exact h.holds x hx

theorem Admits.fits (h : s.Admits values) {i : NodeId} (hi : i < s.nodes.size) :
    ∀ f, s.format i = .int f → f.Fits :=
  h.wellTyped.fits (fun _ _ => Rounding.any_fits) h.signalsFit i hi

/-- The node is an integer with this value. Reals that are rounded within its expression stay in
range. -/
structure Denotes (s : Store R) (values : SignalId → Value R) (i : NodeId) (k : Int) : Prop where
  lt : i < s.nodes.size
  rounds : s.RoundsInRange values i
  int : ∃ f, s.format i = .int f
  eval : s.eval values i = .ok (.int k)

namespace Denotes

variable {i j : NodeId} {k : Int}

section

variable (h : s.Denotes values i k) (hs : s.Admits values)
include h hs

theorem holds : (s.format i).Holds (.int k) :=
  hs.wellTyped.holds_of_eval (fun _ _ => Rounding.any_fits) hs.signalsFit hs.holds i h.lt h.rounds _
    h.eval

theorem gives : s.Gives (s.eval values) i :=
  ⟨_, h.eval, h.holds hs⟩

/-- A node keeps its value when the store grows. -/
theorem of_grown (hg : s.Grown Rounding.any s') : s'.Denotes values i k := by
  have hext := hg.toExtends
  refine ⟨h.lt.trans_le hg.size_le, fun j hj a g hk hf x hx => ?_, ?_, ?_⟩
  · rw [hs.wellTyped.occurrences_extends hext i h.lt] at hj
    have hjlt := (le_of_mem_occurrences i hj).trans_lt h.lt
    rw [hext.kind_eq hjlt] at hk
    rw [hext.format_eq hjlt] at hf
    have halt : a < j := hs.wellTyped.below j hjlt a (by simp [children, hk, operands])
    rw [hs.wellTyped.eval_extends hext (halt.trans hjlt)] at hx
    exact h.rounds j hj a g hk hf x hx
  · rw [hext.format_eq h.lt]
    exact h.int
  · rw [hs.wellTyped.eval_extends hext h.lt]
    exact h.eval

end

/-- A node has the value that it computes from operands with values. Signals and kinds that wrap are
left out. -/
theorem of_node (hs : s.Admits values) (hj : j < s.nodes.size) {kind : NodeKind R} {g : IntFormat}
    (hnode : s.node j = ⟨kind, .int g⟩) (hvalue : s.HasValue kind) (hwraps : ¬kind.Wraps)
    (hsignal : ∀ x, kind ≠ .signal x)
    (hop : ∀ c ∈ s.operands kind, s.Gives (s.eval values) c ∧ s.RoundsInRange values c)
    (hv : s.evalKind values (s.eval values) ⟨kind, .int g⟩ = .ok (.int k)) :
    s.Denotes values j k := by
  have hkind : s.kind j = kind := by rw [Store.kind, hnode]
  have hformat : s.format j = .int g := by rw [format, hnode]
  have hchild : ∀ c ∈ s.operands kind, c < j := fun c hc =>
    hs.wellTyped.below j hj c (by rwa [children, hkind])
  have hround : ∀ a, kind ≠ .convert .realToSint a := by
    rintro a rfl
    exact hwraps trivial
  have ht := hs.wellTyped.typed j hj
  rw [hkind, hformat] at ht
  have hcomputes : s.Computes values (s.eval values) ⟨kind, .int g⟩ :=
    ht.computes hvalue (by simpa [hformat] using hs.fits hj)
      (fun c hc => ⟨(hop c hc).1, hs.fits ((hchild c hc).trans hj)⟩)
      (fun x hx => absurd hx (hsignal x)) fun a _ ha => absurd ha (hround a)
  obtain ⟨v, hv', -, hheld⟩ := hcomputes
  obtain rfl : v = .int k := by
    rw [hv] at hv'
    cases hv'
    rfl
  refine ⟨hj, fun c hc a f hk => ?_, ⟨g, hformat⟩, ?_⟩
  · rcases mem_occurrences_iff.1 hc with rfl | ⟨l, hl, hlt, hcl⟩
    · rw [hkind] at hk
      exact absurd hk (hround a)
    · rw [children, hkind] at hl
      exact (hop l hl).2 c hcl a f hk
  · rw [hs.wellTyped.eval_eq hj, hnode, hv, hformat]
    exact congrArg Except.ok ((hheld hwraps).coerce_eq (by simpa [hformat] using hs.fits hj))

theorem of_const (hs : s.Admits values) (hj : j < s.nodes.size) {f : Format R}
    (hnode : s.node j = ⟨.const (.int k), f⟩) : s.Denotes values j k := by
  have ht := hs.wellTyped.typed j hj
  rw [Store.kind, format, hnode] at ht
  cases ht with
  | int h =>
    exact of_node hs hj hnode trivial not_false (by simp) (by simp [operands]) rfl

theorem node_of_const? {v : Value R} (h : s.const? i = some v) :
    s.node i = ⟨.const v, s.format i⟩ := by
  unfold const? at h
  split at h
  · rename_i w hk
    cases h
    rw [← hk]
    rfl
  · cases h

/-- The value of a constant is the constant. -/
theorem const_eq (h : s.Denotes values i k) (hs : s.Admits values) {v : Value R}
    (hv : s.const? i = some v) : v = .int k := by
  obtain ⟨f, hf⟩ := h.int
  have hdomain := hs.wellTyped.const_inDomain h.lt hv
  rw [hf] at hdomain
  cases v with
  | real x => exact absurd hdomain (Format.int_domain_ne_real f)
  | int c =>
    have heval := (of_const hs h.lt (node_of_const? hv)).eval
    rw [h.eval] at heval
    cases heval
    rfl

theorem of_isConstant (hs : s.Admits values) (hj : j < s.nodes.size) (hd : d ≠ .real)
    (h : s.IsConstant (.int k) d j) : s.Denotes values j k := by
  cases d with
  | real => exact absurd rfl hd
  | uint => exact of_const hs hj h
  | sint => exact of_const hs hj h

/-- Promotion within the integers keeps the value. -/
theorem of_promotes (h : s.Denotes values i k) (hs : s.Admits values) (hj : j < s.nodes.size)
    (hp : s.Promotes d i j) (hd : d ≠ .real) : s.Denotes values j k := by
  cases hp with
  | same => exact h
  | const hrank hv hnode =>
    obtain rfl := h.const_eq hs hv
    exact of_isConstant hs hj hd hnode
  | widen hi hsg hnode =>
    refine of_node hs hj hnode trivial not_false (by simp) ?_ (evalKind_uintToSint h.eval)
    intro c hc
    obtain rfl := List.mem_singleton.1 hc
    exact ⟨h.gives hs, h.rounds⟩
  | toReal => exact absurd rfl hd

/-! ## Operators -/

theorem mapM_eval (h : List.Forall₂ (s.Denotes values) xs ks) :
    xs.mapM (s.eval values) = .ok (ks.map .int) := by
  induction h with
  | nil => rfl
  | cons hx _ ih =>
    rw [List.mapM_cons, hx.eval, ih]
    rfl

theorem map_toInt (ks : List Int) :
    (ks.map fun k => (Value.int k : Value R)).map Value.toInt = ks := by
  simp [Function.comp_def, Value.toInt]

/-- A node of an operator has the value of the operator on the values of its operands. -/
theorem of_arith (hs : s.Admits values) (hj : j < s.nodes.size) {f : Format R}
    (hnode : s.node j = ⟨.arith op xs, f⟩) (hxs : List.Forall₂ (s.Denotes values) xs ks) :
    s.Denotes values j (op.evalInt ks) := by
  have hmem := forall₂_exists_right hxs
  have ht := hs.wellTyped.typed j hj
  rw [Store.kind, format, hnode] at ht
  cases ht with
  | arith hnormal hf =>
    obtain ⟨x, hx⟩ := List.exists_mem_of_length_pos (Nat.zero_lt_of_lt hnormal.two_le)
    obtain ⟨k, -, hk⟩ := hmem x hx
    obtain ⟨g, hg⟩ := hk.int
    -- the operands are integers, so the node is one
    have hdomain := Format.fold?_domain_eq (Format.arithmetic?_keepsDomain op) hf (s.format x)
      (List.mem_map_of_mem hx)
    rw [hg] at hdomain
    obtain ⟨g', rfl⟩ := Format.exists_int_of_ne_real (f := f)
      (by rw [← hdomain]; exact Format.int_domain_ne_real g)
    refine of_node hs hj hnode trivial not_false (by simp) (fun c hc => ?_) ?_
    · obtain ⟨l, -, hl⟩ := hmem c hc
      exact ⟨hl.gives hs, hl.rounds⟩
    · rw [evalKind_arith (mapM_eval hxs), map_toInt]

/-- Integer nodes that evaluate have integer values. -/
theorem exists_of_forall₂_eval (hs : s.Admits values) {vs : List (Value R)}
    (hxs : ∀ x ∈ xs, x < s.nodes.size ∧ (∃ g, s.format x = .int g) ∧ s.RoundsInRange values x)
    (hvs : List.Forall₂ (fun x v => s.eval values x = .ok v) xs vs) :
    ∃ ks, List.Forall₂ (s.Denotes values) xs ks := by
  induction hvs with
  | nil => exact ⟨[], .nil⟩
  | @cons x v xs vs hv _ ih =>
    obtain ⟨hlt, ⟨g, hg⟩, hround⟩ := hxs x (by simp)
    obtain ⟨ks, hks⟩ := ih fun y hy => hxs y (by simp [hy])
    have hheld := hs.wellTyped.holds_of_eval (fun _ _ => Rounding.any_fits) hs.signalsFit hs.holds x
      hlt hround v hv
    rw [hg] at hheld
    obtain ⟨k, rfl, -⟩ := Format.holds_int_iff.1 hheld
    exact ⟨k :: ks, .cons ⟨hlt, hround, ⟨g, hg⟩, hv⟩ hks⟩

/-- The operands of a node of an operator have values, and the node has that of the operator on
them. -/
theorem arith_operands (h : s.Denotes values i k) (hs : s.Admits values)
    (hkind : s.kind i = .arith op xs) :
    ∃ ks, List.Forall₂ (s.Denotes values) xs ks ∧ k = op.evalInt ks ∧ ks ≠ [] := by
  obtain ⟨f, hf⟩ := h.int
  have hnode : s.node i = ⟨.arith op xs, .int f⟩ := by rw [← hkind, ← hf]; rfl
  have ht := hs.wellTyped.typed i h.lt
  rw [hkind, hf] at ht
  have hchild : ∀ x ∈ xs, x ∈ s.children i := by
    intro x hx
    rwa [children, hkind]
  cases ht with
  | arith hnormal hfold =>
    have heval := h.eval
    rw [hs.wellTyped.eval_eq h.lt, hnode] at heval
    cases hvs : xs.mapM (s.eval values) with
    | error e =>
      simp only [evalKind, hvs] at heval
      cases heval
    | ok vs =>
      have hoperand : ∀ x ∈ xs, x < i ∧ ∃ g, s.format x = .int g := by
        intro x hx
        have hdomain :=
          Format.fold?_domain_eq (Format.arithmetic?_keepsDomain op) hfold (s.format x)
          (List.mem_map_of_mem hx)
        refine ⟨hs.wellTyped.below i h.lt x (hchild x hx), Format.exists_int_of_ne_real ?_⟩
        rw [hdomain]
        exact Format.int_domain_ne_real f
      have hrounds : ∀ x ∈ xs, s.RoundsInRange values x := fun x hx =>
        h.rounds.of_child (hchild x hx) (hoperand x hx).1
      obtain ⟨ks, hks⟩ := exists_of_forall₂_eval hs
        (fun x hx => ⟨(hoperand x hx).1.trans h.lt, (hoperand x hx).2, hrounds x hx⟩)
        (forall₂_of_mapM_eq_ok hvs)
      refine ⟨ks, hks, ?_, ?_⟩
      · have h' := (of_arith hs h.lt hnode hks).eval
        rw [h.eval] at h'
        cases h'
        rfl
      · rintro rfl
        cases hks
        exact absurd hnormal.two_le (by simp)

/-- A selection between zeros is zero. -/
theorem zeroArray_eq (h : s.Denotes values i k) (hs : s.Admits values)
    (hzero : Build.isZeroArray s i = true) : k = 0 := by
  obtain ⟨f, hf⟩ := h.int
  unfold Build.isZeroArray at hzero
  split at hzero
  · rename_i xs a hkind
    have hnode : s.node i = ⟨.select xs a, .int f⟩ := by rw [← hkind, ← hf]; rfl
    have ht := hs.wellTyped.typed i h.lt
    rw [hkind, hf] at ht
    cases ht with
    | select ha _ hlength _ hfold =>
      -- every element is a constant zero
      have helement : ∀ e ∈ xs, s.eval values e = .ok (.int 0) := by
        intro e he
        have hchild : e ∈ s.children i := by simp [children, hkind, operands, he]
        have hlt := (hs.wellTyped.below i h.lt e hchild).trans h.lt
        obtain ⟨v, hv, hvz⟩ : ∃ v, s.const? e = some v ∧ v.isZero = true := by
          simpa [Option.any_eq_true] using List.all_eq_true.1 hzero e he
        have hdomain := hs.wellTyped.const_inDomain hlt hv
        rw [Format.fold?_domain_eq Format.union?_keepsDomain hfold _ (List.mem_map_of_mem he)]
          at hdomain
        cases v with
        | real x => exact absurd hdomain (Format.int_domain_ne_real f)
        | int c =>
          obtain rfl : c = 0 := by simpa [Value.isZero] using hvz
          exact (of_const hs hlt (node_of_const? hv)).eval
      have heval := h.eval
      rw [hs.wellTyped.eval_eq h.lt, hnode, hf] at heval
      cases hva : s.eval values a with
      | error e =>
        simp only [evalKind, hva] at heval
        cases heval
      | ok v =>
        have hraw : s.evalKind values (s.eval values) ⟨.select xs a, .int f⟩ = .ok (.int 0) := by
          simp only [evalKind, hva, bind, Except.bind]
          split
          · rename_i e he
            split at he
            · cases he
            · exact helement e (List.mem_of_getElem? he)
          · rfl
        rw [hraw] at heval
        simpa [Except.map, Value.coerce, Value.toInt, eq_comm] using heval
  · simp at hzero

/-- Operators act on the values of integer nodes as they do on integers. -/
theorem interprets (hs : s.Admits values) (op : ArithOp) :
    s.Interprets op op.onInt 0 (fun v k => v = .int k) (s.Denotes values) where
  const h hv := h.const_eq hs hv
  operands h hkind := by
    obtain ⟨ks, hks, rfl, hne⟩ := h.arith_operands hs hkind
    exact ⟨ks, hks, op.reduce_of_ne_nil hne⟩
  fold := by
    rintro _ _ a b rfl rfl
    rfl
  identity := by
    rintro _ c rfl h b
    cases op with
    | sum =>
      obtain rfl : c = 0 := by simpa [Build.isIdentity, Value.isZero] using h
      exact add_zero b
    | product =>
      obtain rfl : c = 1 := by simpa [Build.isIdentity, Value.isOne] using h
      exact mul_one b
    | min | max => simp [Build.isIdentity] at h
  zero := by
    rintro _ c - rfl h
    simpa [Value.isZero] using h
  zeroArray _ h hzero := h.zeroArray_eq hs hzero
  absorbs := by
    rintro rfl a
    exact ⟨zero_mul a, mul_zero a⟩

theorem realizes (hs : s.Admits values) (op : ArithOp) (hd : d ≠ .real) :
    s.Realizes op d op.onInt 0 (fun v k => v = .int k) (s.Denotes values) where
  constant := by
    rintro _ c j rfl hj hconst
    exact of_isConstant hs hj hd hconst
  zero _ hj hconst := of_isConstant hs hj hd hconst
  arith := by
    intro xs ks k j g hj hnode hxs hk
    have hne : ks ≠ [] := by
      rintro rfl
      cases hk
    obtain rfl : op.evalInt ks = k := Option.some.inj ((op.reduce_of_ne_nil hne).symm.trans hk)
    exact of_arith hs hj hnode hxs

/-- What an operator on nodes becomes has the value of the operator on their values. -/
theorem of_combines (hs : s.Admits values) (hg : s.Grown Rounding.any s') (hd : d ≠ .real)
    {nodes : List NodeId} (h : List.Forall₂ (s.Denotes values) nodes ks) (hj : j < s'.nodes.size)
    (hcomb : Combines s s' op d nodes j) : s'.Denotes values j (op.evalInt ks) := by
  have hs' := hs.of_grown hg
  cases ks with
  | nil =>
    cases h
    obtain ⟨k, hconst, ⟨rfl, rfl⟩ | ⟨rfl, rfl⟩⟩ := hcomb.of_nil hs'.wellTyped hj
    · exact of_isConstant hs' hj hd hconst
    · exact of_isConstant hs' hj hd hconst
  | cons k ks =>
    exact (interprets hs op).of_combines (realizes hs' op hd) (fun _ _ hi => hi.of_grown hs hg) h
      (op.reduce_of_ne_nil (List.cons_ne_nil k ks)) hj hcomb

/-! ## Selections -/

/-- The first of elements that are all the same has the value of any other one. -/
theorem of_allSame (h : s.Denotes values i k) (hs : s.Admits values) (hj : j < s.nodes.size)
    (hsame : (i == j || match s.const? j, s.const? i with
      | some v, some w => w == v
      | _, _ => false) = true) : s.Denotes values j k := by
  rw [Bool.or_eq_true] at hsame
  rcases hsame with heq | hconst
  · obtain rfl := eq_of_beq heq
    exact h
  · split at hconst
    · rename_i v w hv hw
      obtain rfl := h.const_eq hs hw
      cases v with
      | int l =>
        obtain rfl : k = l := eq_of_beq (show (k == l) = true from hconst)
        exact of_const hs hj (node_of_const? hv)
      | real x => exact absurd (show false = true from hconst) Bool.false_ne_true
    · cases hconst

/-- What a selection becomes has the value of the element at the address. The other elements need
not have one. -/
theorem eval_of_selects (hs : s.Admits values) (hg : s.Grown Rounding.any s') {a : NodeId} {w : Nat}
    (hxs : ∀ x ∈ xs, x < s.nodes.size) (ha : s.Denotes values a k) (hw : s.Unsigned a w)
    (hlength : xs.length = 2 ^ w) (hj : j < s'.nodes.size) (hsel : Build.Selects s s' xs a j) :
    0 ≤ k ∧ ∃ e, xs[k.toNat]? = some e ∧
      ∀ l, s.Denotes values e l → s'.eval values j = .ok (.int l) := by
  have hs' := hs.of_grown hg
  obtain ⟨n, hn, hlt⟩ := (ha.gives hs).unsigned hw (hs.fits ha.lt)
  obtain rfl : k = n := by
    have heval := ha.eval
    rw [hn] at heval
    cases heval
    rfl
  obtain ⟨e, he⟩ : ∃ e, xs[n]? = some e :=
    ⟨_, List.getElem?_eq_getElem (hlt.trans_eq hlength.symm)⟩
  refine ⟨Int.natCast_nonneg n, e, he, fun l hl => ?_⟩
  have hmem := List.mem_of_getElem? he
  cases hsel with
  | same hhead hsame =>
    have hfirst := hl.of_allSame hs (hxs j (List.mem_of_mem_head? hhead))
      (List.all_eq_true.1 hsame e hmem)
    exact (hfirst.of_grown hs hg).eval
  | @node f hnode =>
    have hl' := hl.of_grown hs hg
    have ht := hs'.wellTyped.typed j hj
    rw [Store.kind, format, hnode] at ht
    cases ht with
    | select _ hlt _ _ hf =>
      -- the format of the selection carries whatever that of an element carries
      have hcarried := (Format.fold?_union_carries hf).2 _ (List.mem_map_of_mem hmem) _
        ((hl'.holds hs').carries (hs'.fits hl'.lt))
      rw [hs'.wellTyped.eval_eq hj, hnode,
        (evalKind_select (ha.of_grown hs hg).eval he).trans hl'.eval, format, hnode]
      exact congrArg Except.ok hcarried.coerce_eq

/-! ## Comparisons -/

theorem of_compare (hs : s.Admits values) {cop : CompareOp} {a b : NodeId} {l : Int}
    (ha : s.Denotes values a k) (hb : s.Denotes values b l) (hj : j < s.nodes.size)
    (hnode : s.node j = ⟨.compare cop a b, .bit⟩) :
    s.Denotes values j (cop.evalInt k l).toNat := by
  refine of_node hs hj hnode trivial not_false (by simp) (fun c hc => ?_)
    (evalKind_compare ha.eval hb.eval)
  simp only [operands, List.mem_cons, List.not_mem_nil, or_false] at hc
  rcases hc with rfl | rfl
  · exact ⟨ha.gives hs, ha.rounds⟩
  · exact ⟨hb.gives hs, hb.rounds⟩

end Denotes

end Store

end MixedSignal
