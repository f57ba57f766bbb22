import Mathlib
import MixedSignal.Proofs.Denotation
import MixedSignal.Proofs.Modes

/-!
# Values of expressions in equations

Inside equations an expression may hold case tables and derivatives, which the simulator does not
evaluate. `Store.exact` gives such expressions a value: a table is the case at the bits of its
selectors, the first most significant, a derivative is whatever a valuation says, and operators do
not wrap. Everything else is computed as the simulator does it. Where the simulator has a value and
nothing is rounded out of range, it is this one (`Store.WellTyped.eval_eq_exact`).

Operators then depend neither on the order nor on the grouping of their operands: on integers over
all scalars, on reals over exact ones. What the two have in common is `Arithmetic`. The constructors
simplify what they make, and keep values in every domain of that kind (`Store.SeenAs.of_combines`).
-/

set_option linter.unusedSectionVars false

namespace MixedSignal

/-- Values of signals and of their derivatives. -/
structure Valuation (R : Type) where
  signal : SignalId → Value R
  rate : SignalId → R

/-! ## Values without wrapping -/

section

variable {R : Type} [Scalar R] {v : Value R} {xs : List NodeId} {a : NodeId}

/-- The value is a real or an integer as the domain says. -/
def Value.OfDomain : Value R → Domain → Prop
  | .real _, d => d = .real
  | .int _, d => d ≠ .real

/-- The operator on values, in the domain of a format. -/
def ArithOp.evalIn (op : ArithOp) (f : Format R) (vs : List (Value R)) : Value R :=
  match f with
  | .real _ => .real (op.evalScalar (vs.map Value.toScalar))
  | .int _ => .int (op.evalInt (vs.map Value.toInt))

namespace Valuation

/-- Signals have values of their domains. -/
def Respects (σ : Valuation R) (s : Store R) : Prop :=
  ∀ x < s.signals.size, (σ.signal x).OfDomain (s.signal x).format.domain

/-- The bits of the signals are those that a setting gives. -/
def Agrees (σ : Valuation R) (setting : SignalId → Option Bool) : Prop :=
  ∀ x b, setting x = some b → (σ.signal x).bit = b

end Valuation

namespace Store

/-- The value as a word of the width of a node. -/
def word (s : Store R) (a : NodeId) (v : Value R) : Nat :=
  (IntRepr.wrap ⟨.unsigned, s.width a⟩ v.toInt).toNat

/-- The value of a node, from the values of its operands. The address of a selection is read as a
word. -/
def exactKind (s : Store R) (σ : Valuation R) (operand : NodeId → Value R) (n : Node R) : Value R :=
  match n.kind with
  | .signal x => σ.signal x
  | .deriv x => .real (σ.rate x)
  | .const v => v
  | .arith op xs => op.evalIn n.format (xs.map operand)
  | .select xs a => (xs[s.word a (operand a)]?).elim (.zeroFor n.format) operand
  | .cases xs selectors =>
    (xs[Transform.address (selectors.map fun x => (σ.signal x).bit)]?).elim
      (.zeroFor n.format) operand
  | _ =>
    match s.evalKind σ.signal (fun j => (.ok (operand j) : Except EmitError (Value R))) n with
    | .ok v => v.coerce n.format
    | .error _ => .zeroFor n.format

/-- The value of an expression, with exact operators and with case tables and derivatives. -/
def exact (s : Store R) (σ : Valuation R) (i : NodeId) : Value R :=
  s.exactKind σ (fun j => if _h : j < i then exact s σ j else .int 0) (s.node i)
termination_by i

/-- The nodes that a node passes values on from: the operands of an operator, the elements of a
selection, the cases of a table. They are of the domain of the node. -/
def parts : NodeKind R → List NodeId
  | .arith _ xs | .select xs _ | .cases xs _ => xs
  | _ => []

variable {rounding : Rounding R} {s s' : Store R} {σ : Valuation R}

/-- The value of a node depends on those of its operands and on their widths. -/
theorem exactKind_congr {f g : NodeId → Value R} {n : Node R}
    (hwidth : ∀ j ∈ s.operands n.kind, s.width j = s'.width j)
    (h : ∀ j ∈ s.operands n.kind, f j = g j) : s.exactKind σ f n = s'.exactKind σ g n := by
  have hother : (∀ x, n.kind ≠ .signal x) →
      s.evalKind σ.signal (fun j => (.ok (f j) : Except EmitError (Value R))) n =
        s'.evalKind σ.signal (fun j => .ok (g j)) n := fun hk =>
    evalKind_congr (fun x hx => absurd hx (hk x)) hwidth fun j hj => congrArg Except.ok (h j hj)
  obtain ⟨kind, format⟩ := n
  cases kind with
  | signal x => rfl
  | deriv x => rfl
  | const v => rfl
  | arith op xs => exact congrArg (op.evalIn format) (List.map_congr_left h)
  | select xs a =>
    have ha : a ∈ s.operands (.select xs a) := by simp [operands]
    simp only [exactKind, word, hwidth a ha, h a ha]
    exact elim_getElem?_congr (fun x hx => h x (by simp [operands, hx])) _
  | cases xs selectors =>
    exact elim_getElem?_congr (fun x hx => h x (by simp [operands, hx])) _
  | compare | bitwise | bitNot | shift | slice | concat | convert =>
    simp only [exactKind]
    rw [hother fun x hx => by cases hx]

theorem WellTyped.exact_eq (hs : s.WellTyped rounding) {i : NodeId} (hi : i < s.nodes.size) :
    s.exact σ i = s.exactKind σ (s.exact σ) (s.node i) := by
  rw [exact]
  exact exactKind_congr (fun _ _ => rfl) fun j hj => dif_pos (hs.below i hi j hj)

/-- The value of an expression stays when the store grows. -/
theorem WellTyped.exact_extends (hs : s.WellTyped rounding) (h : s.Extends s') (i : NodeId)
    (hi : i < s.nodes.size) : s'.exact σ i = s.exact σ i := by
  induction i using Nat.strong_induction_on with
  | h i ih =>
    rw [exact, exact, h.node_eq i hi]
    have hlt : ∀ j ∈ s.operands (s.node i).kind, j < i := hs.below i hi
    refine (exactKind_congr (fun j hj => ?_) fun j hj => ?_).symm
    · exact (h.width_eq ((hlt j hj).trans hi)).symm
    · simp only [hlt j hj, ↓reduceDIte]
      exact (ih j (hlt j hj) ((hlt j hj).trans hi)).symm

theorem exact_of_const? {i : NodeId} (h : s.const? i = some v) : s.exact σ i = v := by
  rw [exact, Denotes.node_of_const? h]
  rfl

/-! ## Domains -/

end Store

namespace Value

variable {d : Domain}

theorem InDomain.ofDomain (h : v.InDomain d) : v.OfDomain d := by
  cases v with
  | real x => exact h
  | int k =>
    rintro rfl
    exact h

theorem coerce_ofDomain (v : Value R) (f : Format R) : (v.coerce f).OfDomain f.domain := by
  cases f with
  | real g => rfl
  | int g => exact Format.int_domain_ne_real g

theorem zeroFor_ofDomain (f : Format R) : (zeroFor f).OfDomain f.domain := by
  cases f with
  | real g => rfl
  | int g => exact Format.int_domain_ne_real g

theorem evalIn_ofDomain (op : ArithOp) (f : Format R) (vs : List (Value R)) :
    (op.evalIn f vs).OfDomain f.domain := by
  cases f with
  | real g => rfl
  | int g => exact Format.int_domain_ne_real g

end Value

namespace Store

variable {rounding : Rounding R} {s s' : Store R} {σ : Valuation R}

theorem parts_subset (s : Store R) (kind : NodeKind R) : parts kind ⊆ s.operands kind := by
  cases kind <;> simp [parts, operands]

/-- What a node passes values on from is of its domain. -/
theorem WellTyped.parts_domain (hs : s.WellTyped rounding) {i : NodeId} (hi : i < s.nodes.size) :
    ∀ x ∈ parts (s.kind i), (s.format x).domain = (s.format i).domain := by
  have ht := hs.typed i hi
  generalize s.kind i = kind at ht ⊢
  generalize s.format i = f at ht ⊢
  intro x hx
  cases ht with
  | arith _ hf =>
    exact Format.fold?_domain_eq (Format.arithmetic?_keepsDomain _) hf _ (List.mem_map_of_mem hx)
  | select _ _ _ _ hf | cases _ _ _ _ hf =>
    exact Format.fold?_domain_eq Format.union?_keepsDomain hf _ (List.mem_map_of_mem hx)
  | _ => cases hx

theorem WellTyped.parts_lt (hs : s.WellTyped rounding) {i : NodeId} (hi : i < s.nodes.size) :
    ∀ x ∈ parts (s.kind i), x < i :=
  fun x hx => hs.below i hi x (s.parts_subset _ hx)

/-- The value of an expression is one of its domain, if those of the signals are. -/
theorem WellTyped.exact_ofDomain (hs : s.WellTyped rounding) (hσ : σ.Respects s) (i : NodeId)
    (hi : i < s.nodes.size) : (s.exact σ i).OfDomain (s.format i).domain := by
  induction i using Nat.strong_induction_on with
  | h i ih =>
    have hpart : ∀ x ∈ parts (s.kind i), (s.exact σ x).OfDomain (s.format i).domain := by
      intro x hx
      have hlt := hs.parts_lt hi x hx
      rw [← hs.parts_domain hi x hx]
      exact ih x hlt (hlt.trans hi)
    have hchosen : ∀ xs : List NodeId, parts (s.kind i) = xs → ∀ k : Nat,
        ((xs[k]?).elim (.zeroFor (s.format i)) (s.exact σ)).OfDomain (s.format i).domain := by
      rintro xs hxs k
      cases hk : xs[k]? with
      | none => exact Value.zeroFor_ofDomain _
      | some x => exact hpart x (hxs ▸ List.mem_of_getElem? hk)
    have ht := hs.typed i hi
    have hnode : s.node i = ⟨s.kind i, s.format i⟩ := rfl
    rw [hs.exact_eq hi, hnode]
    generalize hkind : s.kind i = kind at ht hpart hchosen
    generalize s.format i = f at ht hpart hchosen
    cases ht with
    | signal hx => exact hσ _ hx
    | int h => exact Format.int_domain_ne_real _
    | real => rfl
    | arith => exact Value.evalIn_ofDomain _ _ _
    | select => exact hchosen _ rfl _
    | cases => exact hchosen _ rfl _
    | deriv _ hd => exact hd
    | _ =>
      simp only [exactKind]
      split
      · exact Value.coerce_ofDomain _ _
      · exact Value.zeroFor_ofDomain _

theorem Unsigned.word_eq {w : Nat} (h : s.Unsigned a w) (v : Value R) :
    s.word a v = (v.toInt % 2 ^ w).toNat := by
  rw [word, h.width_eq]
  rfl

theorem Unsigned.word_lt {w : Nat} (h : s.Unsigned a w) (v : Value R) : s.word a v < 2 ^ w := by
  have hpos : (0 : Int) < 2 ^ w := IntRepr.two_pow_pos w
  have hlt := Int.emod_lt_of_pos v.toInt hpos
  rw [h.word_eq, Int.toNat_lt (Int.emod_nonneg _ hpos.ne')]
  exact_mod_cast hlt

theorem Unsigned.word_of_lt {w n : Nat} (h : s.Unsigned a w) (hn : n < 2 ^ w) :
    s.word a (.int n) = n := by
  rw [h.word_eq]
  change ((n : Int) % 2 ^ w).toNat = n
  have hlt : (n : Int) < 2 ^ w := by exact_mod_cast hn
  rw [Int.emod_eq_of_lt (Int.natCast_nonneg n) hlt, Int.toNat_natCast]

section

variable (hs : s.WellTyped rounding) {i : NodeId} (hi : i < s.nodes.size)
include hs hi

theorem WellTyped.exact_of_kind {kind : NodeKind R} (hk : s.kind i = kind) :
    s.exact σ i = s.exactKind σ (s.exact σ) ⟨kind, s.format i⟩ := by
  rw [hs.exact_eq hi, ← hk]
  rfl

/-- A selection has the value of the element at its address, and there is one. -/
theorem WellTyped.exact_select (hk : s.kind i = .select xs a) :
    ∃ e, xs[s.word a (s.exact σ a)]? = some e ∧ s.exact σ i = s.exact σ e := by
  obtain ⟨w, ha, -, hlength⟩ := hs.select_unsigned hi hk
  have hget := List.getElem?_eq_getElem ((ha.word_lt (s.exact σ a)).trans_eq hlength.symm)
  refine ⟨_, hget, ?_⟩
  rw [hs.exact_of_kind hi hk]
  simp only [exactKind, hget, Option.elim_some]

/-- A table has the value of the case at the bits of its selectors, and there is one. -/
theorem WellTyped.exact_cases {selectors : List SignalId} (hk : s.kind i = .cases xs selectors) :
    ∃ c, xs[Transform.address (selectors.map fun x => (σ.signal x).bit)]? = some c ∧
      s.exact σ i = s.exact σ c := by
  obtain ⟨c, hget⟩ := Transform.exists_case hs hi hk (List.length_map fun x => (σ.signal x).bit)
  refine ⟨c, hget, ?_⟩
  rw [hs.exact_of_kind hi hk]
  simp only [exactKind, hget, Option.elim_some]

end

theorem evalKind_arith_ok {values : SignalId → Value R} {operand : NodeId → Value R} (op : ArithOp)
    (xs : List NodeId) (g : Format R) :
    s.evalKind values (fun j => (.ok (operand j) : Except EmitError (Value R))) ⟨.arith op xs, g⟩ =
      .ok (op.evalIn g (xs.map operand)) := by
  have hrun : xs.mapM (fun j => (.ok (operand j) : Except EmitError (Value R))) =
      .ok (xs.map operand) := List.mapM_pure
  simp only [evalKind, hrun]
  cases g <;> rfl

theorem WellTyped.exact_arith (hs : s.WellTyped rounding) {i : NodeId} (hi : i < s.nodes.size)
    {op : ArithOp} (hk : s.kind i = .arith op xs) :
    s.exact σ i = op.evalIn (s.format i) (xs.map (s.exact σ)) := by
  rw [hs.exact_of_kind hi hk]
  rfl

theorem WellTyped.operands_ne_nil (hs : s.WellTyped rounding) {i : NodeId} (hi : i < s.nodes.size)
    {op : ArithOp} (hk : s.kind i = .arith op xs) : xs ≠ [] := by
  have ht := hs.typed i hi
  rw [hk] at ht
  rintro rfl
  cases ht with
  | arith hnormal => exact absurd hnormal.two_le (by simp)

/-- An expression that the simulator evaluates, with signals and rounded reals in range, has the
value that the simulator computes: nothing in it wraps then. -/
theorem WellTyped.eval_eq_exact (hs : s.WellTyped rounding) (hr : ∀ f g, rounding f g → g.Fits)
    (hsig : s.SignalsFit) : ∀ i < s.nodes.size, (∀ j ∈ s.occurrences i, s.Safe σ.signal j) →
      s.eval σ.signal i = .ok (s.exact σ i) := by
  intro i
  induction i using Nat.strong_induction_on with
  | _ i ih =>
    intro hi hsafe
    have hlt : ∀ j ∈ s.operands (s.node i).kind, j < i := hs.below i hi
    have hchild : ∀ j ∈ s.operands (s.node i).kind, s.eval σ.signal j = .ok (s.exact σ j) :=
      fun j hj => ih j (hlt j hj) ((hlt j hj).trans hi)
        fun k hk => hsafe k (occurrences_subset hj (hlt j hj) hk)
    obtain ⟨v, hv, -, hraw⟩ := (hs.eval_holds hr hsig i hi hsafe).2
    have hcoerce : ¬(s.kind i).Wraps → v.coerce (s.format i) = v := fun h =>
      (hraw h).coerce_eq (hs.fits hr hsig i hi)
    rw [hs.eval_eq hi, hv]
    change Except.ok (v.coerce (s.format i)) = _
    have hexact : s.evalKind σ.signal (s.eval σ.signal) (s.node i) =
        s.evalKind σ.signal (fun j => .ok (s.exact σ j)) (s.node i) :=
      evalKind_congr (fun _ _ => ⟨rfl, rfl⟩) (fun _ _ => rfl) hchild
    rw [hexact] at hv
    have hvalue := (hsafe i (s.mem_occurrences_self i)).hasValue
    rw [show s.node i = ⟨s.kind i, s.format i⟩ from rfl] at hv
    refine congrArg Except.ok ?_
    cases hk : s.kind i with
    | signal x =>
      rw [hk] at hv hcoerce hvalue
      have haux : (s.signal x).role.isAuxiliary = false := hvalue
      simp only [evalKind, haux] at hv
      cases hv
      rw [hcoerce not_false, hs.exact_of_kind hi hk]
      rfl
    | const c =>
      rw [hk] at hv hcoerce
      cases hv
      rw [hcoerce not_false, hs.exact_of_kind hi hk]
      rfl
    | arith op xs =>
      rw [hk] at hv hcoerce
      rw [hcoerce not_false, hs.exact_arith hi hk]
      exact (Except.ok.inj ((evalKind_arith_ok op xs (s.format i)).symm.trans hv)).symm
    | select xs a =>
      rw [hk] at hv hcoerce
      have ha : a ∈ s.children i := by simp [children, hk, operands]
      have halt := hs.below i hi a ha
      obtain ⟨w, hw, -⟩ := hs.select_unsigned hi hk
      -- the address is a word already
      obtain ⟨n, hn, hnlt⟩ := (hs.eval_holds hr hsig a (halt.trans hi) fun k hk =>
        hsafe k (occurrences_subset ha halt hk)).1.unsigned hw (hs.fits hr hsig a (halt.trans hi))
      have haddress : s.exact σ a = .int n := Except.ok.inj ((hchild a ha).symm.trans hn)
      obtain ⟨e, he, hexact⟩ := hs.exact_select (σ := σ) hi hk
      rw [haddress, hw.word_of_lt hnlt] at he
      rw [evalKind_select (congrArg Except.ok haddress) he] at hv
      rw [hcoerce not_false, hexact]
      exact (Except.ok.inj hv).symm
    | cases xs selectors =>
      rw [hk] at hvalue
      exact hvalue.elim
    | deriv x =>
      rw [hk] at hvalue
      exact hvalue.elim
    | compare | bitwise | bitNot | shift | slice | concat | convert =>
      rw [hk] at hv
      rw [hs.exact_of_kind hi hk]
      simp only [exactKind, hv]

end Store

/-! ## Arithmetic of a domain -/

/-- Operators act on the values of a domain, seen through `π`, as operations that depend neither on
order nor on grouping. Constants are folded and compared, and zeros and ones are recognised, as the
operations ask for. -/
structure Arithmetic {α : Type} (d : Domain) (π : Value R → α) (f : ArithOp → α → α → α) (z : α) :
    Prop where
  assoc : ∀ op, Std.Associative (f op)
  comm : ∀ op, Std.Commutative (f op)
  eval : ∀ op (g : Format R) vs, g.domain = d → vs ≠ [] →
    reduce (f op) (vs.map π) = some (π (op.evalIn g vs))
  fold : ∀ op v w, v.InDomain d → w.InDomain d →
    π (Build.foldValues op v w) = f op (π v) (π w)
  identity : ∀ op v, v.InDomain d → Build.isIdentity op v = true → ∀ b, f op b (π v) = b
  zero : ∀ v, v.InDomain d → v.isZero = true → π v = z
  constant_zero : π (Build.constantIn (.int 0) d).1 = z
  absorbs : ∀ a, f .product z a = z ∧ f .product a z = z
  same : ∀ v w, v.InDomain d → w.InDomain d → (v == w) = true → π v = π w

namespace Arithmetic

/-- Nothing is asked of values that are not looked at. -/
theorem unit (d : Domain) :
    Arithmetic (R := R) d (fun _ => ()) (fun _ _ _ => ()) () where
  assoc _ := ⟨fun _ _ _ => rfl⟩
  comm _ := ⟨fun _ _ => rfl⟩
  eval op g vs _ hne := by
    obtain ⟨v, vs, rfl⟩ := List.exists_cons_of_ne_nil hne
    have : Std.Associative fun _ _ : Unit => () := ⟨fun _ _ _ => rfl⟩
    rw [List.map_cons, reduce_eq_foldl]
  fold _ _ _ _ _ := rfl
  identity _ _ _ _ _ := rfl
  zero _ _ _ := rfl
  constant_zero := rfl
  absorbs _ := ⟨rfl, rfl⟩
  same _ _ _ _ _ := rfl

/-- A value of an integer domain is an integer. -/
theorem exists_int {d : Domain} (hd : d ≠ .real) (h : v.OfDomain d) : ∃ k, v = .int k := by
  cases v with
  | real x => exact absurd h hd
  | int k => exact ⟨k, rfl⟩

end Arithmetic

/-- Integers tell the values of an integer domain apart. -/
theorem Value.eq_of_toInt_eq {d : Domain} (hd : d ≠ .real) {w : Value R} (hv : v.OfDomain d)
    (hw : w.OfDomain d) (h : v.toInt = w.toInt) : v = w := by
  obtain ⟨a, rfl⟩ := Arithmetic.exists_int hd hv
  obtain ⟨b, rfl⟩ := Arithmetic.exists_int hd hw
  exact congrArg Value.int h

/-- Scalars tell reals apart. -/
theorem Value.eq_of_toScalar_eq {w : Value R} (hv : v.OfDomain .real) (hw : w.OfDomain .real)
    (h : v.toScalar = w.toScalar) : v = w := by
  cases v with
  | int a => exact absurd rfl hv
  | real x =>
    cases w with
    | int b => exact absurd rfl hw
    | real y => exact congrArg Value.real h

namespace Arithmetic

/-- Operators on integers are exact. -/
theorem int {d : Domain} (hd : d ≠ .real) :
    Arithmetic (R := R) d Value.toInt ArithOp.onInt 0 where
  assoc op := inferInstance
  comm op := inferInstance
  eval op g vs hg hne := by
    obtain ⟨g, rfl⟩ := Format.exists_int_of_ne_real (hg ▸ hd)
    exact op.reduce_of_ne_nil (by simpa using hne)
  fold op v w hv hw := by
    obtain ⟨a, rfl⟩ := exists_int hd hv.ofDomain
    obtain ⟨b, rfl⟩ := exists_int hd hw.ofDomain
    rfl
  identity op v hv h b := by
    obtain ⟨a, rfl⟩ := exists_int hd hv.ofDomain
    cases op with
    | sum =>
      obtain rfl : a = 0 := by simpa [Build.isIdentity, Value.isZero] using h
      exact add_zero b
    | product =>
      obtain rfl : a = 1 := by simpa [Build.isIdentity, Value.isOne] using h
      exact mul_one b
    | min | max => cases h
  zero v hv h := by
    obtain ⟨a, rfl⟩ := exists_int hd hv.ofDomain
    exact eq_of_beq (show (a == 0) = true from h)
  constant_zero := by
    cases d with
    | real => exact absurd rfl hd
    | sint | uint => rfl
  absorbs a := ⟨zero_mul a, mul_zero a⟩
  same v w hv hw h := by
    obtain ⟨a, rfl⟩ := exists_int hd hv.ofDomain
    obtain ⟨b, rfl⟩ := exists_int hd hw.ofDomain
    exact eq_of_beq (show (a == b) = true from h)

end Arithmetic

/-! ## Operators on nodes of one domain -/

namespace Store

open Build

variable {α : Type} {rounding : Rounding R} {s s' : Store R} {σ : Valuation R} {d : Domain}
  {π : Value R → α} {f : ArithOp → α → α → α} {z : α} {op : ArithOp}

/-- The node exists and is of the domain, and its value is seen as `a`. -/
structure SeenAs (s : Store R) (σ : Valuation R) (d : Domain) (π : Value R → α) (i : NodeId)
    (a : α) : Prop where
  lt : i < s.nodes.size
  domain : (s.format i).domain = d
  eq : π (s.exact σ i) = a

theorem SeenAs.of_grown (hs : s.WellTyped rounding) (hg : s.Grown rounding s') {i : NodeId} {a : α}
    (h : s.SeenAs σ d π i a) : s'.SeenAs σ d π i a where
  lt := h.lt.trans_le hg.size_le
  domain := by rw [hg.toExtends.format_eq h.lt, h.domain]
  eq := by rw [hs.exact_extends hg.toExtends i h.lt, h.eq]

theorem seenAs_of_const? {i : NodeId} (hi : i < s.nodes.size) (hd : (s.format i).domain = d)
    (h : s.const? i = some v) : s.SeenAs σ d π i (π v) :=
  ⟨hi, hd, by rw [exact_of_const? h]⟩

theorem eq_map_of_seenAs {as : List α} (h : List.Forall₂ (s.SeenAs σ d π) xs as) :
    as = (xs.map (s.exact σ)).map π := by
  induction h with
  | nil => rfl
  | cons hx _ ih => rw [List.map_cons, List.map_cons, hx.eq, ih]

variable (hs : s.WellTyped rounding)
include hs

/-- A selection between zeros is zero. -/
theorem WellTyped.exact_zeroArray (hA : Arithmetic d π f z) {i : NodeId} (hi : i < s.nodes.size)
    (hd : (s.format i).domain = d) (h : isZeroArray s i = true) : π (s.exact σ i) = z := by
  unfold isZeroArray at h
  split at h
  · rename_i xs a hk
    obtain ⟨e, he, hexact⟩ := hs.exact_select (σ := σ) hi hk
    have hmem := List.mem_of_getElem? he
    have hpart : e ∈ parts (s.kind i) := by
      rw [hk]
      exact hmem
    obtain ⟨c, hc, hz⟩ : ∃ c, s.const? e = some c ∧ c.isZero = true := by
      simpa [Option.any_eq_true] using List.all_eq_true.1 h e hmem
    have hdomain := hs.const_inDomain ((hs.parts_lt hi e hpart).trans hi) hc
    rw [hs.parts_domain hi e hpart, hd] at hdomain
    rw [hexact, exact_of_const? hc]
    exact hA.zero c hdomain hz
  · cases h

theorem WellTyped.interpretsExact (hA : Arithmetic d π f z) (op : ArithOp) :
    s.Interprets op (f op) z (fun v a => v.InDomain d ∧ π v = a) (s.SeenAs σ d π) where
  const h hc := by
    refine ⟨?_, ?_⟩
    · rw [← h.domain]
      exact hs.const_inDomain h.lt hc
    · rw [← h.eq, exact_of_const? hc]
  operands := by
    intro i xs a h hk
    have hpart : ∀ x ∈ xs, x ∈ parts (s.kind i) := by
      rw [hk]
      exact fun x hx => hx
    refine ⟨(xs.map (s.exact σ)).map π, ?_, ?_⟩
    · rw [List.map_map, List.forall₂_map_right_iff, List.forall₂_same]
      intro x hx
      refine ⟨(hs.parts_lt h.lt x (hpart x hx)).trans h.lt, ?_, rfl⟩
      rw [hs.parts_domain h.lt x (hpart x hx), h.domain]
    · rw [hA.eval op (s.format i) _ h.domain, ← h.eq, hs.exact_arith h.lt hk]
      simpa using hs.operands_ne_nil h.lt hk
  fold := by
    rintro v w _ _ ⟨hv, rfl⟩ ⟨hw, rfl⟩
    exact ⟨foldValues_inDomain hv hw, hA.fold op v w hv hw⟩
  identity := by
    rintro v _ ⟨hv, rfl⟩ h
    exact hA.identity op v hv h
  zero := by
    rintro v _ - ⟨hv, rfl⟩ h
    exact hA.zero v hv h
  zeroArray _ h hz := h.eq.symm.trans (hs.exact_zeroArray hA h.lt h.domain hz)
  absorbs := by
    rintro rfl
    exact hA.absorbs

theorem WellTyped.realizesExact (hA : Arithmetic d π f z) (op : ArithOp) :
    s.Realizes op d (f op) z (fun v a => v.InDomain d ∧ π v = a) (s.SeenAs σ d π) where
  constant := by
    rintro v _ j ⟨hv, rfl⟩ hj h
    exact seenAs_of_const? hj (h.domain_eq hv) (h.const?_eq hv)
  zero := by
    intro j _ hj h
    have hc : s.const? j = some (constantIn (.int 0) d).1 := by rw [const?, kind, h]
    rw [← hA.constant_zero]
    refine seenAs_of_const? hj ?_ hc
    rw [format, h]
    exact constantIn_domain fun _ => ⟨0, rfl, le_rfl⟩
  arith := by
    intro xs as a j g hj hnode hxs ha
    obtain rfl := eq_map_of_seenAs hxs
    have hk : s.kind j = .arith op xs := by rw [kind, hnode]
    have hne := hs.operands_ne_nil hj hk
    obtain ⟨x, hx⟩ := List.exists_mem_of_ne_nil xs hne
    obtain ⟨_, -, hxd⟩ := forall₂_exists_right hxs x hx
    have hdomain : (s.format j).domain = d := by
      rw [← hs.parts_domain hj x (by rw [hk]; exact hx), hxd.domain]
    refine ⟨hj, hdomain, ?_⟩
    rw [hA.eval op (s.format j) _ hdomain (by simpa using hne)] at ha
    rw [hs.exact_arith hj hk]
    exact Option.some.inj ha

/-- What an operator on nodes of the domain becomes is of the domain, and its value is what the
operator makes of their values. -/
theorem SeenAs.of_combines (hg : s.Grown rounding s') (hA : Arithmetic d π f z)
    {nodes : List NodeId} (hnodes : ∀ x ∈ nodes, x < s.nodes.size ∧ (s.format x).domain = d)
    {j : NodeId} (hj : j < s'.nodes.size) (h : Combines s s' op d nodes j) {a : α}
    (ha : reduce (f op) ((nodes.map (s.exact σ)).map π) = some a) : s'.SeenAs σ d π j a := by
  have := hA.assoc op
  have := hA.comm op
  refine (hs.interpretsExact hA op).of_combines ((hg.wellTyped hs).realizesExact hA op)
    (fun _ _ hx => hx.of_grown hs hg) ?_ ha hj h
  rw [List.map_map, List.forall₂_map_right_iff, List.forall₂_same]
  exact fun x hx => ⟨(hnodes x hx).1, (hnodes x hx).2, rfl⟩

/-- What an operator on nodes of the domain becomes is of the domain. -/
theorem domain_of_combines (hg : s.Grown rounding s') {nodes : List NodeId} (hne : nodes ≠ [])
    (hnodes : ∀ x ∈ nodes, x < s.nodes.size ∧ (s.format x).domain = d) {j : NodeId}
    (hj : j < s'.nodes.size) (h : Combines s s' op d nodes j) : (s'.format j).domain = d := by
  obtain ⟨x, hx⟩ := List.exists_mem_of_ne_nil nodes hne
  -- the domain does not depend on values, so none are looked at
  exact (SeenAs.of_combines (σ := ⟨fun _ => .int 0, fun _ => 0⟩) hs hg (Arithmetic.unit d) hnodes hj
    h ((Arithmetic.unit (R := R) d).eval op (s.format x) _ (hnodes x hx).2 (by simpa using hne))).domain

end Store

namespace Build

open Store

variable {rounding : Rounding R} {s : Store R} {d : Domain} {E : ConstructionError → Prop}

/-- Nodes of one domain are promoted to themselves. -/
theorem Promoted.eq_of_nodes_domain {u : Store R} (hu : s.Grown rounding u)
    {ys is js : List NodeId} (hp : Promoted u (ys.map Operand.node) is js) (hne : ys ≠ [])
    (hys : ∀ y ∈ ys, y < s.nodes.size ∧ (s.format y).domain = d) :
    commonDomain u is = d ∧ js = ys := by
  obtain rfl := hp.eq_of_nodes
  refine hp.eq_of_domain hne fun y hy => ?_
  rw [hu.toExtends.format_eq (hys y hy).1, (hys y hy).2]

/-- An operator on nodes of one domain does not fail, and takes them as they are. -/
theorem nodes_ensures (hs : s.WellTyped rounding) (op : ArithOp) {ys : List NodeId} (hne : ys ≠ [])
    (hys : ∀ y ∈ ys, y < s.nodes.size ∧ (s.format y).domain = d) :
    Ensures (Grown rounding) (arithmetic op (ys.map .node)) s E fun j s' =>
      j < s'.nodes.size ∧ ∃ u, s.Grown rounding u ∧ u.Grown rounding s' ∧
        Combines u s' op d ys j := by
  have hvalid : ∀ o ∈ ys.map Operand.node, o.Valid s :=
    List.forall_mem_map.2 fun y hy => (hys y hy).1
  refine (arithmetic_ensures hs hvalid fun hnil => absurd hnil (by simpa using hne)).imp
    fun j s' _ hj => ?_
  obtain ⟨hlt, u, is, js, hu, hu', hp, hcomb⟩ := hj
  obtain ⟨hcommon, rfl⟩ := hp.eq_of_nodes_domain hu hne hys
  exact ⟨hlt, u, hu, hu', hcommon ▸ hcomb⟩

end Build

end

/-- So are those on exact scalars. -/
theorem Arithmetic.real {R : Type} [ExactScalar R] :
    Arithmetic (R := R) .real Value.toScalar ArithOp.onScalar 0 where
  assoc op := inferInstance
  comm op := inferInstance
  eval op g vs hg hne := by
    cases g with
    | int g => exact absurd hg (Format.int_domain_ne_real g)
    | real g => exact op.reduce_onScalar (by simpa using hne)
  fold op v w _ _ := Value.toScalar_foldValues op v w
  identity op v _ h b := by
    cases op with
    | sum =>
      rw [Value.toScalar_of_isZero h]
      exact add_zero b
    | product =>
      rw [Value.toScalar_of_isOne h]
      exact mul_one b
    | min | max => cases h
  zero v _ h := Value.toScalar_of_isZero h
  constant_zero := (Value.toScalar_int 0).trans Int.cast_zero
  absorbs a := ⟨zero_mul a, mul_zero a⟩
  same v w _ _ h := Value.toScalar_eq_of_beq h

end MixedSignal
