import MixedSignal.Expr.Build
import MixedSignal.Proofs.Evaluation
import MixedSignal.Proofs.Outcome
import MixedSignal.Proofs.Range

/-!
# Typed expressions

`Store.Typed` is the judgement that a node of a kind may have a format. It has one rule for each way
a constructor makes a node, and the rule gives the format in terms of the formats of the operands.
The one choice left open is the format of a rounded real, which a `Rounding` decides.

A store is well typed (`Store.WellTyped`) if every node is, if operands are made before the nodes
that use them, and if every signal has the leaf that reads it. A constructor adds typed nodes and
nothing else (`Store.Grown`), so the store stays well typed whether the construction succeeds or
fails.
-/

set_option linter.unusedSectionVars false

namespace MixedSignal

variable {R : Type} [Scalar R] {i : NodeId} {xs : List NodeId}

/-- Formats combined from the left. -/
def Format.fold? (f : Format R → Format R → Option (Format R)) :
    List (Format R) → Option (Format R)
  | [] => none
  | x :: xs => xs.foldlM f x

/-- Which integer formats may hold the rounded values of a real format. -/
abbrev Rounding (R : Type) := RealFormat R → IntFormat → Prop

namespace Rounding

/-- A real is rounded into a word of a width that the caller gives. -/
def explicit : Rounding R := fun _ g => ∃ w, 0 < w ∧ g = .full .signed w

/-- A real is rounded into a word of a given width, or into the narrowest one for its bound. -/
def any : Rounding R := fun f g =>
  explicit f g ∨ ∃ b r, f.bound.const? = some b ∧
    ClosedRange.ofBounds? (-Scalar.ceil b) (Scalar.ceil b) = some r ∧ g = .tightOrFull .signed r

theorem explicit_fits {f : RealFormat R} {g : IntFormat} (h : explicit f g) : g.Fits := by
  obtain ⟨w, hw, rfl⟩ := h
  exact IntFormat.full_fits fun _ => hw

theorem any_fits {f : RealFormat R} {g : IntFormat} (h : any f g) : g.Fits := by
  rcases h with h | ⟨-, r, -, -, rfl⟩
  · exact explicit_fits h
  · exact IntFormat.tightOrFull_fits (by simp)

end Rounding

namespace Store

/-! ## The judgement -/

/-- The node is an unsigned integer of the given width. -/
def Unsigned (s : Store R) (i : NodeId) (w : Nat) : Prop :=
  ∃ r, s.format i = .int ⟨.unsigned, w, r⟩

/-- The operands of an operator are simplified: there are at least two, none is a node of the same
operator, only the last one may be a constant, and that one is neither neutral nor a zero factor. -/
structure Normal (s : Store R) (op : ArithOp) (xs : List NodeId) : Prop where
  two_le : 2 ≤ xs.length
  flat : ∀ x ∈ xs, ∀ ys, s.kind x ≠ .arith op ys
  const_last : ∀ x ∈ xs.dropLast, s.const? x = none
  const_ne : ∀ x ∈ xs, ∀ v, s.const? x = some v →
    Build.isIdentity op v = false ∧ (op = .product → v.isZero = false)

/-- A node of this kind may have this format. -/
inductive Typed (rounding : Rounding R) (s : Store R) : NodeKind R → Format R → Prop
  | signal {x} (hx : x < s.signals.size) : Typed rounding s (.signal x) (s.signal x).format
  | int {sg k} (h : sg = .unsigned → 0 ≤ k) :
    Typed rounding s (.const (.int k)) (.int (.tightOrFull sg (.single k)))
  | real {x} : Typed rounding s (.const (.real x)) (.ofMagnitude x)
  | arith {op xs f} (hnormal : s.Normal op xs)
    (hf : Format.fold? (Format.arithmetic? op) (xs.map s.format) = some f) :
    Typed rounding s (.arith op xs) f
  | compare {op a b} (h : (s.format a).domain = (s.format b).domain) :
    Typed rounding s (.compare op a b) .bit
  | bitwise {op xs ws} (hxs : List.Forall₂ s.Unsigned xs ws) (h : 2 ≤ xs.length) :
    Typed rounding s (.bitwise op xs) (.uint (ws.foldl max 0))
  | bitNot {a w} (ha : s.Unsigned a w) : Typed rounding s (.bitNot a) (.uint w)
  | shiftLeft {a f n} (ha : s.format a = .int f) (hn : n ≠ 0) :
    Typed rounding s (.shift .left a n) (.int ⟨f.signedness, f.width + n, f.range.shiftLeft n⟩)
  | shiftRight {a f n} (ha : s.format a = .int f) (hn : n ≠ 0) :
    Typed rounding s (.shift .right a n) (.int (.tightOrFull f.signedness (f.range.shiftRight n)))
  | slice {a f msb lsb} (ha : s.format a = .int f) (h : lsb ≤ msb) (hw : msb < f.width) :
    Typed rounding s (.slice a msb lsb) (.uint (msb - lsb + 1))
  | concat {xs ws} (hxs : List.Forall₂ s.Unsigned xs ws) (h : 2 ≤ xs.length) :
    Typed rounding s (.concat xs) (.uint (ws.foldl (· + ·) 0))
  | uintToSint {a f w} (ha : s.format a = .int f) (hs : f.signedness = .unsigned)
    (hw : f.width + 1 ≤ w) : Typed rounding s (.convert .uintToSint a) (.int ⟨.signed, w, f.range⟩)
  | sintToUint {a f w} (ha : s.format a = .int f) (hs : f.signedness = .signed)
    (hlo : f.range.lo < 0) (hpos : 0 < w) (hw : bitLength f.range.hi.toNat ≤ w) :
    Typed rounding s (.convert .sintToUint a) (.int (.full .unsigned w))
  | sintToUintOfNonneg {a f w} (ha : s.format a = .int f) (hs : f.signedness = .signed)
    (hlo : 0 ≤ f.range.lo) (hw : (IntFormat.tightOrFull .unsigned f.range).width ≤ w) :
    Typed rounding s (.convert .sintToUint a) (.int ⟨.unsigned, w, f.range⟩)
  | sintToReal {a f} (ha : s.format a = .int f) (hs : f.signedness = .signed) :
    Typed rounding s (.convert .sintToReal a)
      (.ofMagnitude (Scalar.ofInt (max (f.range.lo.natAbs : Int) f.range.hi.natAbs)))
  | realToSint {a f g} (ha : s.format a = .real f) (hg : rounding f g) :
    Typed rounding s (.convert .realToSint a) (.int g)
  | resize {a f w} (ha : s.format a = .int f) (hne : w ≠ f.width)
    (hw : (IntFormat.tightOrFull f.signedness f.range).width ≤ w) :
    Typed rounding s (.convert .resize a) (.int { f with width := w })
  | select {xs a w f} (ha : s.Unsigned a w) (hw : w < 64) (hlength : xs.length = 2 ^ w)
    (hsame : Build.allSame s (xs.headD 0) xs = false)
    (hf : Format.fold? Format.union? (xs.map s.format) = some f) :
    Typed rounding s (.select xs a) f
  | cases {xs selectors f} (hsel : ∀ x ∈ selectors, x < s.signals.size)
    (hbit : ∀ x ∈ selectors, (s.signal x).format.isBit = true) (hw : selectors.length < 64)
    (hlength : xs.length = 2 ^ selectors.length)
    (hf : Format.fold? Format.union? (xs.map s.format) = some f) :
    Typed rounding s (.cases xs selectors) f
  | deriv {x} (hx : x < s.signals.size) (hd : (s.signal x).format.domain = .real) :
    Typed rounding s (.deriv x) (s.signal x).format

/-- Every node is typed and comes after its operands, and every signal has its leaf. -/
structure WellTyped (rounding : Rounding R) (s : Store R) : Prop where
  typed : ∀ i < s.nodes.size, s.Typed rounding (s.kind i) (s.format i)
  below : ∀ i < s.nodes.size, ∀ j ∈ s.children i, j < i
  leaf_lt : ∀ x < s.signals.size, s.leaf x < s.nodes.size
  leaf_kind : ∀ x < s.signals.size, s.kind (s.leaf x) = .signal x
  leaves_size : s.leaves.size = s.signals.size

variable {rounding : Rounding R} {s s' : Store R}

theorem WellTyped.empty : WellTyped rounding ({} : Store R) where
  typed i hi := absurd hi (by simp)
  below i hi := absurd hi (by simp)
  leaf_lt x hx := absurd hx (by simp)
  leaf_kind x hx := absurd hx (by simp)
  leaves_size := rfl

namespace WellTyped

variable (h : s.WellTyped rounding)
include h

/-- The signals that nodes read exist. -/
theorem signal_lt (hi : i < s.nodes.size) {x : SignalId} (hk : s.kind i = .signal x) :
    x < s.signals.size := by
  have ht := h.typed i hi
  rw [hk] at ht
  generalize s.format i = f at ht
  cases ht with
  | signal hx => exact hx

theorem selector_lt (hi : i < s.nodes.size) {selectors : List SignalId}
    (hk : s.kind i = .cases xs selectors) : ∀ x ∈ selectors, x < s.signals.size := by
  have ht := h.typed i hi
  rw [hk] at ht
  cases ht with
  | cases hsel => exact hsel

/-- The operands of an operator are simplified. -/
theorem normal (hi : i < s.nodes.size) {op : ArithOp} (hk : s.kind i = .arith op xs) :
    s.Normal op xs := by
  have ht := h.typed i hi
  rw [hk] at ht
  cases ht with
  | arith hnormal => exact hnormal

theorem operand_lt (hi : i < s.nodes.size) {op : ArithOp} (hk : s.kind i = .arith op xs) :
    ∀ x ∈ xs, x < i :=
  fun x hx => h.below i hi x (by simpa [children, hk, operands] using hx)

/-- Signals that an expression mentions exist. -/
theorem mentioned_lt {j : NodeId} (hi : i < s.nodes.size) (hj : j ∈ s.occurrences i) {x : SignalId}
    (hx : readSignal? (s.kind j) = some x ∨ x ∈ selectors (s.kind j)) : x < s.signals.size := by
  have ht := h.typed j ((le_of_mem_occurrences i hj).trans_lt hi)
  generalize s.kind j = kind at ht hx
  generalize s.format j = f at ht
  cases ht with
  | signal hlt | deriv hlt =>
    obtain rfl : _ = x := by simpa [readSignal?, selectors] using hx
    exact hlt
  | cases hsel => exact hsel x (by simpa [readSignal?, selectors] using hx)
  | _ => simp [readSignal?, selectors] at hx

theorem signalsIn_lt (hi : i < s.nodes.size) : ∀ x ∈ s.signalsIn i, x < s.signals.size := by
  intro x hx
  obtain ⟨j, hj, hr⟩ := mem_signalsIn.1 hx
  exact h.mentioned_lt hi hj (.inl hr)

/-- The address of a selection is unsigned, and there is an element for each address. -/
theorem select_unsigned (hi : i < s.nodes.size) {a : NodeId} (hk : s.kind i = .select xs a) :
    ∃ w, s.Unsigned a w ∧ w < 64 ∧ xs.length = 2 ^ w := by
  have ht := h.typed i hi
  rw [hk] at ht
  cases ht with
  | select ha hw hlength => exact ⟨_, ha, hw, hlength⟩

/-- The format of a leaf is that of its signal. -/
theorem leaf_format {x : SignalId} (hx : x < s.signals.size) :
    s.format (s.leaf x) = (s.signal x).format := by
  have ht := h.typed _ (h.leaf_lt x hx)
  rw [h.leaf_kind x hx] at ht
  generalize s.format (s.leaf x) = f at ht ⊢
  cases ht with
  | signal => rfl

theorem eval_eq (hi : i < s.nodes.size) (values : SignalId → Value R) :
    s.eval values i =
      (s.evalKind values (s.eval values) (s.node i)).map fun v => v.coerce (s.format i) :=
  Store.eval_eq (h.below i hi) values

theorem children_extends (he : s.Extends s') (hi : i < s.nodes.size) :
    s'.children i = s.children i :=
  he.children_eq hi fun _ _ hk => h.selector_lt hi hk

/-- The nodes of an expression stay when the store grows. -/
theorem occurrences_extends (he : s.Extends s') :
    ∀ i < s.nodes.size, s'.occurrences i = s.occurrences i := by
  intro i
  induction i using Nat.strong_induction_on with
  | _ i ih =>
    intro hi
    rw [occurrences.eq_def s i, occurrences.eq_def s' i, h.children_extends he hi]
    congr 1
    refine List.flatMap_congr fun j hj => ?_
    have hlt := h.below i hi j hj
    simp only [hlt, ↓reduceDIte]
    exact ih j hlt (hlt.trans hi)

/-- The signals that an expression reads stay when the store grows. -/
theorem mem_signalsIn_extends (he : s.Extends s') (hi : i < s.nodes.size) {x : SignalId} :
    x ∈ s'.signalsIn i ↔ x ∈ s.signalsIn i := by
  rw [mem_signalsIn, mem_signalsIn, h.occurrences_extends he i hi]
  refine exists_congr fun j => and_congr_right fun hj => ?_
  rw [he.kind_eq ((le_of_mem_occurrences i hj).trans_lt hi)]

/-- The value of an expression of a well-typed store stays when the store grows. -/
theorem eval_extends (he : s.Extends s') (hi : i < s.nodes.size) (values : SignalId → Value R) :
    s'.eval values i = s.eval values i :=
  he.eval_eq h.below (fun _ hj _ hk => h.signal_lt hj hk) (fun _ hj _ _ hk => h.selector_lt hj hk)
    values i hi

end WellTyped

/-! ## Growth -/

section

variable (h : s.Extends s')
include h

theorem Extends.unsigned {w : Nat} (hi : i < s.nodes.size) (hu : s.Unsigned i w) :
    s'.Unsigned i w := by
  obtain ⟨r, hr⟩ := hu
  exact ⟨r, by rw [h.format_eq hi, hr]⟩

theorem Extends.forall₂_unsigned {ws : List Nat} (hxs : ∀ x ∈ xs, x < s.nodes.size)
    (hu : List.Forall₂ s.Unsigned xs ws) : List.Forall₂ s'.Unsigned xs ws := by
  induction hu with
  | nil => exact .nil
  | cons hx _ ih =>
    exact .cons (h.unsigned (hxs _ (by simp)) hx) (ih fun y hy => hxs y (by simp [hy]))

theorem Extends.map_format (hxs : ∀ x ∈ xs, x < s.nodes.size) :
    xs.map s'.format = xs.map s.format :=
  List.map_congr_left fun x hx => h.format_eq (hxs x hx)

theorem Extends.normal {op : ArithOp} (hxs : ∀ x ∈ xs, x < s.nodes.size) (hn : s.Normal op xs) :
    s'.Normal op xs where
  two_le := hn.two_le
  flat x hx := by
    rw [h.kind_eq (hxs x hx)]
    exact hn.flat x hx
  const_last x hx := by
    rw [h.const?_eq (hxs x (List.dropLast_subset xs hx))]
    exact hn.const_last x hx
  const_ne x hx := by
    rw [h.const?_eq (hxs x hx)]
    exact hn.const_ne x hx

theorem Extends.allSame_eq {first : NodeId} (hfirst : first < s.nodes.size)
    (hxs : ∀ x ∈ xs, x < s.nodes.size) : Build.allSame s' first xs = Build.allSame s first xs := by
  unfold Build.allSame
  rw [h.const?_eq hfirst]
  induction xs with
  | nil => rfl
  | cons x xs ih =>
    simp only [List.all_cons, h.const?_eq (hxs x (by simp))]
    rw [ih fun y hy => hxs y (by simp [hy])]

end

/-- The format of the only operand of a node. -/
theorem Extends.operand_format {a : NodeId} {f : Format R} (h : s.Extends s')
    (hop : ∀ j ∈ [a], j < s.nodes.size) (ha : s.format a = f) : s'.format a = f :=
  (h.format_eq (hop a (by simp))).trans ha

/-- A typed node stays typed when the store grows. -/
theorem Typed.of_extends {kind : NodeKind R} {f : Format R} (ht : s.Typed rounding kind f)
    (h : s.Extends s') (hop : ∀ j ∈ s.operands kind, j < s.nodes.size) :
    s'.Typed rounding kind f := by
  cases ht with
  | signal hx =>
    rw [← h.signal_eq _ hx]
    exact .signal (hx.trans_le h.signals_le)
  | int hk => exact .int hk
  | real => exact .real
  | @arith op xs f hnormal hf =>
    have hxs : ∀ x ∈ xs, x < s.nodes.size := hop
    exact .arith (h.normal hxs hnormal) (by rw [h.map_format hxs, hf])
  | compare hd =>
    refine .compare ?_
    rw [h.format_eq (hop _ (by simp [operands])), h.format_eq (hop _ (by simp [operands])), hd]
  | bitwise hxs hlen => exact .bitwise (h.forall₂_unsigned hop hxs) hlen
  | bitNot ha => exact .bitNot (h.unsigned (hop _ (by simp [operands])) ha)
  | shiftLeft ha hn => exact .shiftLeft (h.operand_format hop ha) hn
  | shiftRight ha hn => exact .shiftRight (h.operand_format hop ha) hn
  | slice ha hm hw => exact .slice (h.operand_format hop ha) hm hw
  | concat hxs hlen => exact .concat (h.forall₂_unsigned hop hxs) hlen
  | uintToSint ha hs hw => exact .uintToSint (h.operand_format hop ha) hs hw
  | sintToUint ha hs hlo hpos hw =>
    exact .sintToUint (h.operand_format hop ha) hs hlo hpos hw
  | sintToUintOfNonneg ha hs hlo hw =>
    exact .sintToUintOfNonneg (h.operand_format hop ha) hs hlo hw
  | sintToReal ha hs => exact .sintToReal (h.operand_format hop ha) hs
  | realToSint ha hg => exact .realToSint (h.operand_format hop ha) hg
  | resize ha hne hw => exact .resize (h.operand_format hop ha) hne hw
  | @select xs a w f ha hw hlength hsame hf =>
    have hxs : ∀ x ∈ xs, x < s.nodes.size := fun x hx => hop x (by simp [operands, hx])
    have hne : xs ≠ [] := by
      rintro rfl
      have := Nat.two_pow_pos w
      simp at hlength
      omega
    have hhead : xs.headD 0 ∈ xs := by
      obtain ⟨x, l, rfl⟩ := List.exists_cons_of_ne_nil hne
      simp
    refine .select (h.unsigned (hop _ (by simp [operands])) ha) hw hlength ?_ ?_
    · rw [h.allSame_eq (hxs _ hhead) hxs, hsame]
    · rw [h.map_format hxs, hf]
  | @cases xs selectors f hsel hbit hw hlength hf =>
    have hxs : ∀ x ∈ xs, x < s.nodes.size := fun x hx => hop x (by simp [operands, hx])
    refine .cases (fun x hx => (hsel x hx).trans_le h.signals_le) (fun x hx => ?_) hw hlength ?_
    · rw [h.signal_eq x (hsel x hx)]
      exact hbit x hx
    · rw [h.map_format hxs, hf]
  | deriv hx hd =>
    rw [← h.signal_eq _ hx] at hd ⊢
    exact .deriv (hx.trans_le h.signals_le) hd

/-- Nodes were added to the store, all of them typed; the signals are the same. -/
structure Grown (rounding : Rounding R) (s s' : Store R) : Prop where
  size_le : s.nodes.size ≤ s'.nodes.size
  node_eq : ∀ i < s.nodes.size, s'.node i = s.node i
  signals_eq : s'.signals = s.signals
  byName_eq : s'.byName = s.byName
  leaves_eq : s'.leaves = s.leaves
  wellTyped : s.WellTyped rounding → s'.WellTyped rounding

namespace Grown

theorem toExtends (h : s.Grown rounding s') : s.Extends s' where
  size_le := h.size_le
  node_eq := h.node_eq
  signals_le := by rw [h.signals_eq]
  signal_eq i _ := by rw [signal, signal, h.signals_eq]
  leaf_eq i _ := by rw [leaf, leaf, h.leaves_eq]

instance : Std.Refl (Grown (R := R) rounding) :=
  ⟨fun _ => ⟨le_rfl, fun _ _ => rfl, rfl, rfl, rfl, id⟩⟩

instance : IsTrans (Store R) (Grown rounding) where
  trans _ _ _ h h' := {
    size_le := h.size_le.trans h'.size_le
    node_eq := fun i hi => (h'.node_eq i (hi.trans_le h.size_le)).trans (h.node_eq i hi)
    signals_eq := h'.signals_eq.trans h.signals_eq
    byName_eq := h'.byName_eq.trans h.byName_eq
    leaves_eq := h'.leaves_eq.trans h.leaves_eq
    wellTyped := h'.wellTyped ∘ h.wellTyped }

end Grown

/-! ## Adding a node -/

@[simp] theorem push_fst (kind : NodeKind R) (f : Format R) : (s.push kind f).1 = s.nodes.size :=
  rfl

@[simp] theorem push_size (kind : NodeKind R) (f : Format R) :
    (s.push kind f).2.nodes.size = s.nodes.size + 1 := by
  simp [push]

theorem node_push_self (kind : NodeKind R) (f : Format R) :
    (s.push kind f).2.node s.nodes.size = ⟨kind, f⟩ := by
  simp [push, node, Array.getD]

theorem node_push_lt (kind : NodeKind R) (f : Format R) (hi : i < s.nodes.size) :
    (s.push kind f).2.node i = s.node i := by
  have hi' : i < s.nodes.size + 1 := Nat.lt_succ_of_lt hi
  simp [push, node, Array.getD, hi, hi', Array.getElem_push_lt]

/-- Adding a typed node with existing operands grows the store. -/
theorem Grown.push {k : NodeKind R} {f : Format R}
    (ht : s.WellTyped rounding → s.Typed rounding k f)
    (hop : ∀ j ∈ s.operands k, j < s.nodes.size) : s.Grown rounding (s.push k f).2 := by
  have hext : s.Extends (s.push k f).2 :=
    ⟨(push_size k f).symm ▸ Nat.le_succ _, fun _ hi => node_push_lt k f hi, le_rfl,
      fun _ _ => rfl, fun _ _ => rfl⟩
  refine ⟨hext.size_le, hext.node_eq, rfl, rfl, rfl, fun h => ?_⟩
  have hcases : ∀ i < (s.push k f).2.nodes.size, i < s.nodes.size ∨ i = s.nodes.size := by
    intro i hi
    rw [push_size] at hi
    omega
  refine ⟨fun i hi => ?_, fun i hi j hj => ?_, fun x hx => ?_, fun x hx => ?_, h.leaves_size⟩
  · rcases hcases i hi with hlt | rfl
    · rw [hext.kind_eq hlt, hext.format_eq hlt]
      exact (h.typed i hlt).of_extends hext fun j hj => (h.below i hlt j hj).trans hlt
    · rw [kind, format, node_push_self]
      exact (ht h).of_extends hext hop
  · rcases hcases i hi with hlt | rfl
    · rw [children, hext.kind_eq hlt] at hj
      exact h.below i hlt j hj
    · rw [children, kind, node_push_self] at hj
      exact hop j hj
  · exact (h.leaf_lt x hx).trans_le hext.size_le
  · exact (hext.kind_eq (h.leaf_lt x hx)).trans (h.leaf_kind x hx)

end Store

end MixedSignal
