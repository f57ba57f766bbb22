import MixedSignal.Proofs.Promotion

/-!
# Formats are sound

The format of a node holds every value that the node can have. For each rule of the typing
judgement, if the operands have values that their formats hold and that are words of their widths,
then the node has a value of that kind for its own format (`Store.Typed.yields`). Where the ranges
of signals fit their widths, all formats do, and holding a value is enough (`Store.Typed.computes`).
Except where a value is meant to wrap, the node computes that value before it is brought into the
format, so no integer overflows (`Store.WellTyped.eval_holds`).
-/

set_option linter.unusedSectionVars false

namespace MixedSignal

variable {R : Type} [Scalar R] {v : Value R} {f : Format R} {w : Nat} {xs : List NodeId}
  {j a i : NodeId} {op : ArithOp} {n : Node R} {k : NodeKind R}

/-- The format holds the value as it is. -/
def Format.Holds : Format R → Value R → Prop
  | .int f, .int k => k ∈ f.range
  | .real _, .real _ => True
  | _, _ => False

/-- The format holds the value, and also the word of an integer format does. -/
def Format.Carries : Format R → Value R → Prop
  | .int f, .int k => f.Carries k
  | .real _, .real _ => True
  | _, _ => False

namespace Format

theorem holds_int_iff {f : IntFormat} : (Format.int f).Holds v ↔ ∃ k, v = .int k ∧ k ∈ f.range := by
  cases v <;> simp [Holds]

theorem holds_real_iff {f : RealFormat R} : (Format.real f).Holds v ↔ ∃ x, v = .real x := by
  cases v <;> simp [Holds]

theorem carries_int_iff {f : IntFormat} :
    (Format.int f).Carries v ↔ ∃ k, v = .int k ∧ f.Carries k := by
  cases v <;> simp [Carries]

theorem carries_real_iff {f : RealFormat R} : (Format.real f).Carries v ↔ ∃ x, v = .real x := by
  cases v <;> simp [Carries]

theorem Carries.holds (h : f.Carries v) : f.Holds v := by
  cases f with
  | real g => exact holds_real_iff.2 (carries_real_iff.1 h)
  | int g =>
    obtain ⟨k, rfl, hk⟩ := carries_int_iff.1 h
    exact hk.1

/-- In formats that fit, holding a value is all. -/
theorem Holds.carries (h : f.Holds v) (hf : ∀ g, f = .int g → g.Fits) : f.Carries v := by
  cases f with
  | real g => exact carries_real_iff.2 (holds_real_iff.1 h)
  | int g =>
    obtain ⟨k, rfl, hk⟩ := holds_int_iff.1 h
    exact (hf g rfl).carries hk

/-- A value that a format carries is not changed when it is brought into the format. -/
theorem Carries.coerce_eq (h : f.Carries v) : v.coerce f = v := by
  cases f with
  | real g =>
    obtain ⟨x, rfl⟩ := carries_real_iff.1 h
    rfl
  | int g =>
    obtain ⟨k, rfl, hk⟩ := carries_int_iff.1 h
    exact congrArg Value.int hk.2

theorem Holds.coerce_eq (h : f.Holds v) (hf : ∀ g, f = .int g → g.Fits) : v.coerce f = v :=
  (h.carries hf).coerce_eq

theorem full_fits {sg : Signedness} (h : sg = .signed → 0 < w) :
    ∀ g, (Format.int (.full sg w) : Format R) = .int g → g.Fits := by
  rintro _ ⟨⟩
  exact IntFormat.full_fits h

theorem holds_uint {k : Nat} (h : k < 2 ^ w) : (Format.uint w : Format R).Holds (.int k) := by
  have hcast : ((2 ^ w : Nat) : Int) = 2 ^ w := by norm_cast
  refine ⟨Int.natCast_nonneg k, ?_⟩
  change (k : Int) ≤ 2 ^ w - 1
  omega

theorem carries_uint {k : Nat} (h : k < 2 ^ w) : (Format.uint w : Format R).Carries (.int k) :=
  (holds_uint h).carries (full_fits (by simp))

theorem carries_ofBool (b : Bool) : (Format.bit : Format R).Carries (.ofBool b) :=
  carries_uint (by cases b <;> decide)

/-- The format holds what the value becomes in it. -/
theorem full_holds_coerce {sg : Signedness} (h : sg = .signed → 0 < w) (v : Value R) :
    (Format.int (.full sg w)).Holds (v.coerce (.int (.full sg w))) :=
  IntFormat.wrap_mem_full h

end Format

theorem Value.coerce_coerce (v : Value R) (f : Format R) : (v.coerce f).coerce f = v.coerce f := by
  cases f with
  | real => rfl
  | int f => exact congrArg Value.int (f.repr.wrap_wrap _)

/-! ## Operators -/

/-- An operator on integers takes them from the left. -/
theorem ArithOp.evalInt_cons (op : ArithOp) (k : Int) (ks : List Int) :
    op.evalInt (k :: ks) = ks.foldl op.onInt k := by
  cases op with
  | sum =>
    change (k :: ks).foldl (· + ·) 0 = _
    rw [List.foldl_cons, zero_add]
    rfl
  | product =>
    change (k :: ks).foldl (· * ·) 1 = _
    rw [List.foldl_cons, one_mul]
    rfl
  | min =>
    change ((k :: ks).min?).getD 0 = _
    rw [List.min?_cons']
    rfl
  | max =>
    change ((k :: ks).max?).getD 0 = _
    rw [List.max?_cons']
    rfl

/-- All integer formats among these fit their words. -/
def Format.AllFit (fs : List (Format R)) : Prop := ∀ f ∈ fs, ∀ g, f = .int g → g.Fits

/-- An operator's result is carried by the inferred format. -/
theorem Format.fold?_arithmetic_carries {fs : List (Format R)} {g : IntFormat}
    (h : fold? (arithmetic? op) fs = some (.int g)) :
    (AllFit fs → g.Fits) ∧ ∀ vs : List (Value R), List.Forall₂ Format.Carries fs vs →
      g.Carries (op.evalInt (vs.map Value.toInt)) := by
  constructor
  · refine fun hfs => (fold?_spec (P := fun _ => False) (fun a b c hc ha hb => ?_) h hfs).1 g rfl
    cases arithmetic?_eq_some.1 hc with
    | real => exact ⟨nofun, by simp⟩
    | int hs =>
      refine ⟨?_, by simp⟩
      rintro _ ⟨⟩
      exact (ha _ rfl).arithmetic op (hb _ rfl) hs
  · intro vs hvs
    cases hvs with
    | nil => cases h
    | @cons f v fs vs hv hvs =>
      have hstep : ∀ a b c, arithmetic? op a b = some c → ∀ (k : Int) (v : Value R),
          a.Carries (.int k : Value R) → b.Carries v → c.Carries (.int (op.onInt k v.toInt)) := by
        intro a b c hc k v hk hv
        cases arithmetic?_eq_some.1 hc with
        | real => exact hk.elim
        | int hs =>
          obtain ⟨l, rfl, hl⟩ := carries_int_iff.1 hv
          exact IntFormat.Carries.arithmetic op hk hl hs
      rw [List.map_cons, ArithOp.evalInt_cons, List.foldl_map]
      obtain ⟨k, rfl⟩ : ∃ k, v = .int k := by
        have hd := fold?_domain_eq (arithmetic?_keepsDomain op) h f (by simp)
        obtain ⟨a, rfl⟩ := exists_int_of_ne_real (f := f) (by rw [hd]; exact int_domain_ne_real g)
        exact (carries_int_iff.1 hv).imp fun _ h => h.1
      exact foldlM_rel hstep hvs h hv

/-- Each of several values is carried by the inferred format. -/
theorem Format.fold?_union_carries {fs : List (Format R)} {c : Format R}
    (h : fold? union? fs = some c) :
    (AllFit fs → ∀ g, c = .int g → g.Fits) ∧
      ∀ f ∈ fs, ∀ v : Value R, f.Carries v → c.Carries v := by
  constructor
  · refine fun hfs => (fold?_spec (P := fun _ => False) (fun a b c hc ha hb => ?_) h hfs).1
    cases union?_eq_some.1 hc with
    | real => exact ⟨nofun, by simp⟩
    | int hs =>
      refine ⟨?_, by simp⟩
      rintro _ ⟨⟩
      exact (ha _ rfl).union (hb _ rfl) hs
  · refine fun f hf v hv => (fold?_spec (G := fun _ => True) (P := (·.Carries v))
      (fun a b c hc _ _ => ⟨trivial, fun hone => ?_⟩) h (by simp)).2 ⟨f, hf, hv⟩
    cases union?_eq_some.1 hc with
    | real =>
      simp only [carries_real_iff, or_self] at hone ⊢
      exact hone
    | int hs =>
      rcases hone with hv | hv
      all_goals
        obtain ⟨k, rfl, hk⟩ := carries_int_iff.1 hv
      · exact hk.union_left
      · exact hk.union_right hs

/-! ## Words -/

theorem BitOp.eval_lt (op : BitOp) {a b : Nat} (ha : a < 2 ^ w) (hb : b < 2 ^ w) :
    op.eval a b < 2 ^ w := by
  cases op with
  | and => exact Nat.and_lt_two_pow a hb
  | or => exact Nat.or_lt_two_pow ha hb
  | xor => exact Nat.xor_lt_two_pow ha hb

theorem BitOp.foldl_lt (op : BitOp) :
    ∀ {ns : List Nat} {n : Nat}, n < 2 ^ w → (∀ m ∈ ns, m < 2 ^ w) → ns.foldl op.eval n < 2 ^ w
  | [], _, hn, _ => hn
  | m :: ns, n, hn, hns => by
    rw [List.foldl_cons]
    exact foldl_lt op (op.eval_lt hn (hns m (by simp))) fun l hl => hns l (by simp [hl])

theorem le_foldl_max (ws : List Nat) (a : Nat) :
    a ≤ ws.foldl max a ∧ ∀ w ∈ ws, w ≤ ws.foldl max a := by
  induction ws generalizing a with
  | nil => simp
  | cons w ws ih =>
    obtain ⟨h1, h2⟩ := ih (max a w)
    refine ⟨(le_max_left a w).trans h1, fun x hx => ?_⟩
    rcases List.mem_cons.1 hx with rfl | hx
    · exact (le_max_right a x).trans h1
    · exact h2 x hx

/-- The bits of a word are put behind a number as the word is added to it. -/
theorem shiftLeft_or_word (v : Nat) {k : Nat} (hk : k < 2 ^ w) : v <<< w ||| k = v * 2 ^ w + k := by
  rw [← Nat.shiftLeft_add_eq_or_of_lt hk, Nat.shiftLeft_eq]

/-- Appending a word to a number makes it longer by the width of the word. -/
theorem append_word_lt {v k a : Nat} (hv : v < 2 ^ a) (hk : k < 2 ^ w) :
    v * 2 ^ w + k < 2 ^ (a + w) := by
  have h : (v + 1) * 2 ^ w ≤ 2 ^ a * 2 ^ w := Nat.mul_le_mul_right _ hv
  rw [add_mul, one_mul] at h
  rw [pow_add]
  omega

/-- Values of this kind are meant to wrap: negative integers as words, and rounded reals. -/
def NodeKind.Wraps : NodeKind R → Prop
  | .convert .sintToUint _ | .convert .realToSint _ => True
  | _ => False

namespace Store

variable {rounding : Rounding R} {s : Store R} {values : SignalId → Value R}
  {operand : NodeId → Except EmitError (Value R)}

/-- The value of an expression is in its format. -/
theorem WellTyped.eval_coerce (hs : s.WellTyped rounding) (hi : i < s.nodes.size) {u : Value R}
    (hu : s.eval values i = .ok u) : u.coerce (s.format i) = u := by
  rw [hs.eval_eq hi] at hu
  cases hv : s.evalKind values (s.eval values) (s.node i) with
  | error e =>
    rw [hv] at hu
    cases hu
  | ok v =>
    rw [hv] at hu
    rw [← Except.ok.inj hu, Value.coerce_coerce]

theorem Unsigned.width_eq (h : s.Unsigned i w) : s.width i = w := by
  obtain ⟨r, hr⟩ := h
  rw [width, hr]
  rfl

/-- The value of an unsigned expression is a word of its width. -/
theorem Unsigned.eval_lt {k : Nat} (h : s.Unsigned a k) (hs : s.WellTyped rounding)
    (ha : a < s.nodes.size) {w : Value R} (hw : s.eval values a = .ok w) :
    ∃ q : Nat, q < 2 ^ k ∧ w = .int q := by
  obtain ⟨r, hr⟩ := h
  have hword := hs.eval_coerce ha hw
  rw [hr] at hword
  have hmem : IntRepr.wrap ⟨.unsigned, k⟩ w.toInt ∈ IntRepr.range ⟨.unsigned, k⟩ :=
    IntRepr.wrap_mem (by simp)
  simp only [IntRepr.range, ClosedRange.mem_def, Int.pow_eq] at hmem
  refine ⟨(IntRepr.wrap ⟨.unsigned, k⟩ w.toInt).toNat, ?_, ?_⟩
  · zify
    omega
  · rw [Int.toNat_of_nonneg hmem.1]
    exact hword.symm

/-- The operand has a value, which its format holds. -/
def Gives (s : Store R) (operand : NodeId → Except EmitError (Value R)) (j : NodeId) : Prop :=
  ∃ v, operand j = .ok v ∧ (s.format j).Holds v

/-- The operand has a value, which its format carries. -/
def Delivers (s : Store R) (operand : NodeId → Except EmitError (Value R)) (j : NodeId) : Prop :=
  ∃ v, operand j = .ok v ∧ (s.format j).Carries v

theorem Gives.delivers (h : s.Gives operand j) (hfit : ∀ f, s.format j = .int f → f.Fits) :
    s.Delivers operand j := by
  obtain ⟨v, hv, hheld⟩ := h
  exact ⟨v, hv, hheld.carries hfit⟩

theorem Gives.int {f : IntFormat} (h : s.Gives operand j) (hf : s.format j = .int f) :
    ∃ k, operand j = .ok (.int k) ∧ k ∈ f.range := by
  obtain ⟨v, hv, hheld⟩ := h
  rw [hf] at hheld
  obtain ⟨k, rfl, hk⟩ := Format.holds_int_iff.1 hheld
  exact ⟨k, hv, hk⟩

theorem Delivers.int {f : IntFormat} (h : s.Delivers operand j) (hf : s.format j = .int f) :
    ∃ k, operand j = .ok (.int k) ∧ f.Carries k := by
  obtain ⟨v, hv, hcarried⟩ := h
  rw [hf] at hcarried
  obtain ⟨k, rfl, hk⟩ := Format.carries_int_iff.1 hcarried
  exact ⟨k, hv, hk⟩

theorem Delivers.unsigned (h : s.Delivers operand j) (hu : s.Unsigned j w) :
    ∃ n : Nat, operand j = .ok (.int n) ∧ n < 2 ^ w := by
  obtain ⟨r, hr⟩ := hu
  obtain ⟨k, hk, hcarried⟩ := h.int hr
  obtain ⟨hnonneg, hlt⟩ := hcarried.word rfl
  obtain ⟨n, rfl⟩ := Int.eq_ofNat_of_zero_le hnonneg
  exact ⟨n, hk, by exact_mod_cast hlt⟩

theorem Gives.unsigned (h : s.Gives operand j) (hu : s.Unsigned j w)
    (hfit : ∀ f, s.format j = .int f → f.Fits) : ∃ n : Nat, operand j = .ok (.int n) ∧ n < 2 ^ w :=
  (h.delivers hfit).unsigned hu

/-- Operands that each have a value of some kind have values of that kind together. -/
theorem mapM_forall₂ {P : Format R → Value R → Prop}
    (h : ∀ x ∈ xs, ∃ v, operand x = .ok v ∧ P (s.format x) v) :
    ∃ vs, xs.mapM operand = .ok vs ∧ List.Forall₂ P (xs.map s.format) vs := by
  induction xs with
  | nil => exact ⟨[], rfl, .nil⟩
  | cons x xs ih =>
    obtain ⟨v, hv, hheld⟩ := h x (by simp)
    obtain ⟨vs, hvs, hall⟩ := ih fun y hy => h y (by simp [hy])
    refine ⟨v :: vs, ?_, .cons hheld hall⟩
    rw [List.mapM_cons, hv, hvs]
    rfl

/-- Unsigned operands are words of their widths. -/
theorem mapM_words {ws : List Nat} (h : ∀ x ∈ xs, s.Delivers operand x)
    (hu : List.Forall₂ s.Unsigned xs ws) :
    ∃ ns : List Nat, xs.mapM operand = .ok (ns.map fun n : Nat => .int n) ∧
      ∀ n ∈ ns, n < 2 ^ ws.foldl max 0 := by
  have hwidth : ∀ w ∈ ws, w ≤ ws.foldl max 0 := (le_foldl_max ws 0).2
  generalize ws.foldl max 0 = width at hwidth ⊢
  induction hu with
  | nil => exact ⟨[], rfl, by simp⟩
  | @cons x w xs ws hx _ ih =>
    obtain ⟨n, hn, hlt⟩ := (h x (by simp)).unsigned hx
    obtain ⟨ns, hns, hall⟩ := ih (fun y hy => h y (by simp [hy])) fun y hy => hwidth y (by simp [hy])
    refine ⟨n :: ns, ?_, ?_⟩
    · rw [List.mapM_cons, hn, hns]
      rfl
    · have hle : 2 ^ w ≤ 2 ^ width := Nat.pow_le_pow_right (by decide) (hwidth w (by simp))
      simpa using ⟨hlt.trans_le hle, hall⟩

/-- Unsigned operands in a row are a word of all their widths. The induction carries the word made
of the operands so far. -/
theorem foldlM_words {ws : List Nat} (h : ∀ x ∈ xs, s.Delivers operand x)
    (hu : List.Forall₂ s.Unsigned xs ws) {v a : Nat} (hv : v < 2 ^ a) :
    ∃ k : Nat, xs.foldlM (fun (v : Nat) x => do
        return (v <<< s.width x) ||| (← operand x).toInt.toNat) v = .ok k ∧
      k < 2 ^ ws.foldl (· + ·) a := by
  induction hu generalizing v a with
  | nil => exact ⟨v, rfl, hv⟩
  | @cons x w xs ws hx _ ih =>
    obtain ⟨n, hn, hlt⟩ := (h x (by simp)).unsigned hx
    obtain ⟨k, hrun, hk⟩ := ih (fun y hy => h y (by simp [hy])) (append_word_lt hv hlt)
    rw [← shiftLeft_or_word v hlt] at hrun
    refine ⟨k, ?_, hk⟩
    rw [List.foldlM_cons, hn, hx.width_eq]
    exact hrun

/-! ## Nodes -/

/-- The kind has a value of its own: it is no case table, derivative or equation variable. -/
def HasValue (s : Store R) : NodeKind R → Prop
  | .signal x => (s.signal x).role.isAuxiliary = false
  | .cases _ _ | .deriv _ => False
  | _ => True

instance (s : Store R) : (k : NodeKind R) → Decidable (s.HasValue k)
  | .signal x => inferInstanceAs (Decidable ((s.signal x).role.isAuxiliary = false))
  | .cases _ _ | .deriv _ => isFalse not_false
  | .const _ | .arith _ _ | .compare _ _ _ | .bitwise _ _ | .bitNot _ | .shift _ _ _
  | .slice _ _ _ | .concat _ | .convert _ _ | .select _ _ => isTrue trivial

/-- What a node computes is held by its format, and also before it is brought into the format if it
is not meant to wrap. -/
def Computes (s : Store R) (values : SignalId → Value R)
    (operand : NodeId → Except EmitError (Value R)) (n : Node R) : Prop :=
  ∃ v, s.evalKind values operand n = .ok v ∧ n.format.Holds (v.coerce n.format) ∧
    (¬n.kind.Wraps → n.format.Holds v)

/-- What a node computes is carried by its format, and also before it is brought into the format if
it is not meant to wrap. -/
def Yields (s : Store R) (values : SignalId → Value R)
    (operand : NodeId → Except EmitError (Value R)) (n : Node R) : Prop :=
  ∃ v, s.evalKind values operand n = .ok v ∧ n.format.Carries (v.coerce n.format) ∧
    (¬n.kind.Wraps → n.format.Carries v)

/-- A result that the format carries as it is. -/
theorem Yields.of_carries (hv : s.evalKind values operand n = .ok v) (h : n.format.Carries v) :
    s.Yields values operand n :=
  ⟨v, hv, by rwa [h.coerce_eq], fun _ => h⟩

theorem Yields.computes (h : s.Yields values operand n) : s.Computes values operand n := by
  obtain ⟨v, hv, hcoerced, hcarried⟩ := h
  exact ⟨v, hv, hcoerced.holds, fun hwraps => (hcarried hwraps).holds⟩

theorem evalKind_arith {g : IntFormat} {vs : List (Value R)} (hvs : xs.mapM operand = .ok vs) :
    s.evalKind values operand ⟨.arith op xs, .int g⟩ =
      .ok (.int (op.evalInt (vs.map Value.toInt))) := by
  simp only [evalKind, hvs]
  rfl

theorem evalKind_arith_real {g : RealFormat R} {vs : List (Value R)}
    (hvs : xs.mapM operand = .ok vs) :
    s.evalKind values operand ⟨.arith op xs, .real g⟩ =
      .ok (.real (op.evalScalar (vs.map Value.toScalar))) := by
  simp only [evalKind, hvs]
  rfl

theorem evalKind_compare {op : CompareOp} {b : NodeId} {w : Value R} (hv : operand a = .ok v)
    (hw : operand b = .ok w) :
    s.evalKind values operand ⟨.compare op a b, f⟩ = .ok (.ofBool (op.eval v w)) := by
  simp only [evalKind, hv, hw]
  rfl

theorem evalKind_uintToSint {k : Int} (hk : operand a = .ok (.int k)) :
    s.evalKind values operand ⟨.convert .uintToSint a, f⟩ = .ok (.int k) := by
  simp only [evalKind, hk]
  rfl

/-- A selection gives the element at the address. -/
theorem evalKind_select {e : NodeId} {n : Nat} (hn : operand a = .ok (.int n))
    (hget : xs[n]? = some e) : s.evalKind values operand ⟨.select xs a, f⟩ = operand e := by
  have hselect : (if (Value.int n : Value R).toInt < 0 then none
      else xs[(Value.int n : Value R).toInt.toNat]?) = some e := by
    change (if (n : Int) < 0 then none else xs[(n : Int).toNat]?) = some e
    rw [if_neg (not_lt.2 (Int.natCast_nonneg n)), Int.toNat_natCast, hget]
  simp only [evalKind, hn, bind, Except.bind]
  rw [hselect]

/-- All integer signals have formats that fit their words. -/
def SignalsFit (s : Store R) : Prop :=
  ∀ x < s.signals.size, ∀ f, (s.signal x).format = .int f → f.Fits

theorem allFit_of_operands (h : ∀ x ∈ xs, ∀ g, s.format x = .int g → g.Fits) :
    Format.AllFit (xs.map s.format) := by
  intro f hf
  obtain ⟨x, hx, rfl⟩ := List.mem_map.1 hf
  exact h x hx

/-- The format of a typed node fits its word, if those of its operands do. -/
theorem Typed.fits (hr : ∀ f g, rounding f g → g.Fits) (ht : s.Typed rounding k f)
    (hsig : ∀ x, k = .signal x → ∀ g, (s.signal x).format = .int g → g.Fits)
    (hop : ∀ j ∈ s.operands k, ∀ g, s.format j = .int g → g.Fits) : ∀ g, f = .int g → g.Fits := by
  intro g hg
  cases ht with
  | signal => exact hsig _ rfl g hg
  | @int sg k h =>
    cases hg
    exact IntFormat.tightOrFull_fits h
  | real => cases hg
  | @arith op xs f _ hf =>
    subst hg
    exact (Format.fold?_arithmetic_carries hf).1 (allFit_of_operands hop)
  | compare | bitwise | bitNot | slice | concat =>
    cases hg
    exact IntFormat.full_fits (by simp)
  | shiftLeft ha _ =>
    cases hg
    exact (hop _ (by simp [operands]) _ ha).shiftLeft _
  | shiftRight ha _ =>
    cases hg
    exact IntFormat.tightOrFull_fits ((hop _ (by simp [operands]) _ ha).shiftRight_lo _)
  | uintToSint ha hs hw =>
    cases hg
    exact (hop _ (by simp [operands]) _ ha).toSigned hs hw
  | sintToUint =>
    cases hg
    exact IntFormat.full_fits (by simp)
  | sintToUintOfNonneg _ _ hlo hw =>
    cases hg
    exact IntFormat.fits_of_tight_le (fun _ => hlo) hw
  | sintToReal => cases hg
  | realToSint _ hround =>
    cases hg
    exact hr _ _ hround
  | resize ha _ hw =>
    cases hg
    exact IntFormat.fits_of_tight_le (hop _ (by simp [operands]) _ ha).lo_nonneg hw
  | @select xs a w f _ _ _ _ hf =>
    exact (Format.fold?_union_carries hf).1
      (allFit_of_operands fun x hx => hop x (by simp [operands, hx])) g hg
  | @cases xs selectors f _ _ _ _ hf =>
    exact (Format.fold?_union_carries hf).1
      (allFit_of_operands fun x hx => hop x (by simp [operands, hx])) g hg
  | deriv _ hd =>
    rw [hg] at hd
    exact absurd hd (Format.int_domain_ne_real g)

/-- A typed node computes a value that its format carries, if its operands do and if a signal has a
value that its format carries. What a rounded real becomes is carried by assumption. -/
theorem Typed.yields (ht : s.Typed rounding k f) (hvalue : s.HasValue k)
    (hop : ∀ j ∈ s.operands k, s.Delivers operand j)
    (hsignal : ∀ x, k = .signal x → (s.signal x).format.Carries (values x))
    (hround : ∀ a g, k = .convert .realToSint a → f = .int g → ∀ x,
      operand a = .ok (.real x) → g.Carries (g.repr.wrap (Scalar.round x))) :
    s.Yields values operand ⟨k, f⟩ := by
  cases ht with
  | @signal x hx =>
    refine .of_carries ?_ (hsignal x rfl)
    have haux : (s.signal x).role.isAuxiliary = false := hvalue
    simp only [evalKind, haux]
    rfl
  | @int sg k h =>
    exact .of_carries rfl (IntFormat.carries_tightOrFull (ClosedRange.mem_single.2 rfl) h)
  | real => exact .of_carries rfl trivial
  | @arith op xs f _ hf =>
    have hxs : ∀ x ∈ xs, s.Delivers operand x := hop
    obtain ⟨vs, hvs, hcarried⟩ := mapM_forall₂ (P := Format.Carries) hxs
    cases f with
    | real g => exact .of_carries (evalKind_arith_real hvs) trivial
    | int g =>
      exact .of_carries (evalKind_arith hvs)
        ((Format.fold?_arithmetic_carries hf).2 vs hcarried)
  | @compare op a b _ =>
    obtain ⟨v, hv, -⟩ := hop a (by simp [operands])
    obtain ⟨w, hw, -⟩ := hop b (by simp [operands])
    exact .of_carries (evalKind_compare hv hw) (Format.carries_ofBool _)
  | @bitwise op xs ws hws hlen =>
    have hxs : ∀ x ∈ xs, s.Delivers operand x := hop
    obtain ⟨ns, hns, hlt⟩ := mapM_words hxs hws
    have hwords : (ns.map fun n : Nat => (Value.int n : Value R)).map (·.toInt.toNat) = ns := by
      simp [Function.comp_def, Value.toInt]
    cases ns with
    | nil =>
      have hrun : s.evalKind values operand ⟨.bitwise op xs, .uint (ws.foldl max 0)⟩ =
          .ok (.int (0 : Nat)) := by
        simp only [evalKind, hns]
        rfl
      exact .of_carries hrun (Format.carries_uint (Nat.two_pow_pos _))
    | cons n ns =>
      have hrun : s.evalKind values operand ⟨.bitwise op xs, .uint (ws.foldl max 0)⟩ =
          .ok (.int (ns.foldl op.eval n : Nat)) := by
        simp only [evalKind, hns, bind, Except.bind, hwords]
        rfl
      exact .of_carries hrun
        (Format.carries_uint (op.foldl_lt (hlt n (by simp)) fun m hm => hlt m (by simp [hm])))
  | @bitNot a w ha =>
    obtain ⟨n, hn, hlt⟩ := (hop a (by simp [operands])).unsigned ha
    have hrun : s.evalKind values operand ⟨.bitNot a, .uint w⟩ =
        .ok (.int (2 ^ w - 1 - n : Nat)) := by
      have hcast : ((2 ^ w - 1 - n : Nat) : Int) = 2 ^ w - 1 - (n : Int) := by
        have hpow : ((2 ^ w : Nat) : Int) = 2 ^ w := by norm_cast
        omega
      rw [hcast]
      simp only [evalKind, hn]
      rfl
    exact .of_carries hrun (Format.carries_uint (by omega))
  | @shiftLeft a f n ha _ =>
    obtain ⟨k, hk, hcarried⟩ := (hop a (by simp [operands])).int ha
    refine .of_carries ?_ (show Format.Carries _ (.int (shiftedLeft k n)) from hcarried.shiftLeft n)
    simp only [evalKind, hk]
    rfl
  | @shiftRight a f n ha _ =>
    obtain ⟨k, hk, hcarried⟩ := (hop a (by simp [operands])).int ha
    refine .of_carries ?_ (show Format.Carries _ (.int (k >>> n)) from hcarried.shiftRight n)
    simp only [evalKind, hk]
    rfl
  | @slice a f msb lsb ha _ _ =>
    obtain ⟨k, hk, -⟩ := (hop a (by simp [operands])).int ha
    have hrun : s.evalKind values operand ⟨.slice a msb lsb, .uint (msb - lsb + 1)⟩ =
        .ok (.int (IntRepr.wrap ⟨.unsigned, msb - lsb + 1⟩
          (IntRepr.wrap ⟨.unsigned, s.width a⟩ k >>> lsb))) := by
      simp only [evalKind, hk]
      rfl
    exact .of_carries hrun ((IntFormat.full_fits (by simp)).carries (IntRepr.wrap_mem (by simp)))
  | @concat xs ws hws _ =>
    have hxs : ∀ x ∈ xs, s.Delivers operand x := hop
    obtain ⟨k, hk, hlt⟩ := foldlM_words hxs hws (v := 0) (a := 0) (by simp)
    have hrun : s.evalKind values operand ⟨.concat xs, .uint (ws.foldl (· + ·) 0)⟩ =
        .ok (.int k) := by
      simp only [evalKind, hk]
      rfl
    exact .of_carries hrun (Format.carries_uint hlt)
  | @uintToSint a f w ha hs hw =>
    obtain ⟨k, hk, hcarried⟩ := (hop a (by simp [operands])).int ha
    exact .of_carries (evalKind_uintToSint hk) (hcarried.toSigned hs hw)
  | @sintToUint a f w ha _ _ _ _ =>
    obtain ⟨k, hk, -⟩ := (hop a (by simp [operands])).int ha
    refine ⟨.int k, ?_, (Format.full_holds_coerce (by simp) _).carries (Format.full_fits (by simp)),
      fun h => absurd trivial h⟩
    simp only [evalKind, hk]
    rfl
  | @sintToUintOfNonneg a f w ha _ hlo hw =>
    obtain ⟨k, hk, hcarried⟩ := (hop a (by simp [operands])).int ha
    have hrun : s.evalKind values operand ⟨.convert .sintToUint a, .int ⟨.unsigned, w, f.range⟩⟩ =
        .ok (.int k) := by
      simp only [evalKind, hk]
      rfl
    exact .of_carries hrun ((IntFormat.fits_of_tight_le (fun _ => hlo) hw).carries hcarried.1)
  | @sintToReal a f ha _ =>
    obtain ⟨k, hk, -⟩ := (hop a (by simp [operands])).int ha
    refine .of_carries ?_ (show Format.Carries _ (.real (Scalar.ofInt k)) from trivial)
    simp only [evalKind, hk]
    rfl
  | @realToSint a f g ha _ =>
    obtain ⟨v, hv, hcarried⟩ := hop a (by simp [operands])
    rw [ha] at hcarried
    obtain ⟨x, rfl⟩ := Format.carries_real_iff.1 hcarried
    refine ⟨.int (Scalar.round x), ?_, hround a g rfl rfl x hv, fun h => absurd trivial h⟩
    simp only [evalKind, hv]
    rfl
  | @resize a f w ha _ hw =>
    obtain ⟨k, hk, hcarried⟩ := (hop a (by simp [operands])).int ha
    have hrun : s.evalKind values operand ⟨.convert .resize a, .int { f with width := w }⟩ =
        .ok (.int k) := by
      simp only [evalKind, hk]
      rfl
    have hword := IntFormat.wrap_of_tight_le hcarried.1 (fun hu => (hcarried.word hu).1) hw
    exact .of_carries hrun (show IntFormat.Carries _ k from ⟨hcarried.1, hword.2⟩)
  | @select xs a w f ha _ hlength _ hf =>
    obtain ⟨n, hn, hlt⟩ := (hop a (by simp [operands])).unsigned ha
    obtain ⟨e, hget⟩ : ∃ e, xs[n]? = some e :=
      ⟨_, List.getElem?_eq_getElem (hlt.trans_eq hlength.symm)⟩
    have hmem : e ∈ xs := List.mem_of_getElem? hget
    obtain ⟨v, hv, hcarried⟩ := hop e (by simp [operands, hmem])
    exact .of_carries ((evalKind_select hn hget).trans hv)
      ((Format.fold?_union_carries hf).2 _ (List.mem_map_of_mem hmem) v hcarried)
  | cases => exact hvalue.elim
  | deriv => exact hvalue.elim

/-- Where formats fit, it is enough that they hold the values of signals and operands and what a
rounded real becomes. -/
theorem Typed.computes (ht : s.Typed rounding k f) (hvalue : s.HasValue k)
    (hfit : ∀ g, f = .int g → g.Fits)
    (hop : ∀ j ∈ s.operands k, s.Gives operand j ∧ ∀ g, s.format j = .int g → g.Fits)
    (hsignal : ∀ x, k = .signal x → (s.signal x).format.Holds (values x))
    (hround : ∀ a g, k = .convert .realToSint a → f = .int g → ∀ x,
      operand a = .ok (.real x) → g.repr.wrap (Scalar.round x) ∈ g.range) :
    s.Computes values operand ⟨k, f⟩ := by
  refine Yields.computes (ht.yields hvalue (fun j hj => (hop j hj).1.delivers (hop j hj).2)
    (fun x hx => (hsignal x hx).carries ?_) fun a g hk hg x hx => ?_)
  · subst hx
    cases ht with
    | signal => exact hfit
  · exact (hfit g hg).carries (hround a g hk hg x hx)

/-! ## Expressions -/

/-- The format of an expression fits its word, if those of the signals it reads do. -/
theorem WellTyped.fits_of_signalsIn (h : s.WellTyped rounding)
    (hr : ∀ f g, rounding f g → g.Fits) : ∀ i < s.nodes.size,
      (∀ x ∈ s.signalsIn i, ∀ g, (s.signal x).format = .int g → g.Fits) →
      ∀ g, s.format i = .int g → g.Fits := by
  intro i
  induction i using Nat.strong_induction_on with
  | _ i ih =>
    intro hi hsig
    refine (h.typed i hi).fits hr (fun x hx => ?_) fun j hj => ?_
    · exact hsig x (mem_signalsIn.2 ⟨i, s.mem_occurrences_self i, by rw [hx]; rfl⟩)
    · have hlt := h.below i hi j hj
      refine ih j hlt (hlt.trans hi) fun x hx => hsig x ?_
      obtain ⟨k, hk, hread⟩ := mem_signalsIn.1 hx
      exact mem_signalsIn.2 ⟨k, occurrences_subset hj hlt hk, hread⟩

/-- All formats of a store fit their words, if those of its signals do. -/
theorem WellTyped.fits (h : s.WellTyped rounding) (hr : ∀ f g, rounding f g → g.Fits)
    (hsig : s.SignalsFit) (i : NodeId) (hi : i < s.nodes.size) :
    ∀ g, s.format i = .int g → g.Fits :=
  h.fits_of_signalsIn hr i hi fun x hx => hsig x (h.signalsIn_lt hi x hx)

/-! ## Words that have values -/

/-- The word of a typed node has values, if those of its operands do. -/
theorem Typed.hasValues (hr : ∀ f g, rounding f g → g.Fits) (ht : s.Typed rounding k f)
    (hsig : ∀ x, k = .signal x → (s.signal x).format.hasValues = true)
    (hop : ∀ j ∈ s.operands k, (s.format j).hasValues = true) : f.hasValues = true := by
  have hoperands : ∀ {xs : List NodeId}, (∀ x ∈ xs, (s.format x).hasValues = true) →
      ∀ g ∈ xs.map s.format, g.hasValues = true := by
    intro xs h g hg
    obtain ⟨x, hx, rfl⟩ := List.mem_map.1 hg
    exact h x hx
  have hunion : ∀ a b c : Format R, Format.union? a b = some c → c.hasValues = true := by
    intro a b c hc
    cases Format.union?_eq_some.1 hc with
    | real => rfl
    | int => exact IntFormat.union_hasValues
  cases ht with
  | signal => exact hsig _ rfl
  | int => exact IntFormat.tightOrFull_hasValues
  | real | sintToReal => rfl
  | compare | bitwise | bitNot | slice | concat | sintToUint | sintToUintOfNonneg => rfl
  | @arith op xs f _ hf =>
    refine (Format.fold?_spec (P := fun _ => True) (fun a b c hc _ _ => ⟨?_, fun _ => trivial⟩) hf
      (hoperands hop)).1
    cases Format.arithmetic?_eq_some.1 hc with
    | real => rfl
    | int => exact IntFormat.tightOrFull_hasValues
  | shiftLeft _ hn => exact IntRepr.hasValues_iff.2 fun _ => Nat.add_pos_right _ (Nat.pos_of_ne_zero hn)
  | shiftRight => exact IntFormat.tightOrFull_hasValues
  | uintToSint _ _ hw => exact IntRepr.hasValues_iff.2 fun _ => (Nat.succ_pos _).trans_le hw
  | realToSint _ hround => exact (hr _ _ hround).hasValues
  | resize _ _ hw =>
    exact IntRepr.hasValues_iff.2 fun _ => IntFormat.tightOrFull_width_pos.trans_le hw
  | select _ _ _ _ hf | cases _ _ _ _ hf =>
    exact (Format.fold?_spec (P := fun _ => True) (fun a b c hc _ _ => ⟨hunion a b c hc, fun _ =>
      trivial⟩) hf (hoperands fun x hx => hop x (by simp [operands, hx]))).1
  | @deriv x _ hd =>
    cases hf : (s.signal x).format with
    | real => rfl
    | int g =>
      rw [hf] at hd
      exact absurd hd (Format.int_domain_ne_real g)

/-- All words of a store have values, if those of its signals do. -/
theorem WellTyped.hasValues (h : s.WellTyped rounding) (hr : ∀ f g, rounding f g → g.Fits)
    (hsig : ∀ x < s.signals.size, (s.signal x).format.hasValues = true) :
    ∀ i < s.nodes.size, (s.format i).hasValues = true := by
  intro i
  induction i using Nat.strong_induction_on with
  | _ i ih =>
    intro hi
    refine (h.typed i hi).hasValues hr (fun x hx => hsig x (h.signal_lt hi hx)) fun j hj => ?_
    have hlt := h.below i hi j hj
    exact ih j hlt (hlt.trans hi)

/-! ## Values of expressions -/

/-- What the value of a node asks of a valuation: signals have values that their formats hold, and
what rounded reals become is held as well. -/
structure Safe (s : Store R) (values : SignalId → Value R) (i : NodeId) : Prop where
  hasValue : s.HasValue (s.kind i)
  signal : ∀ x, s.kind i = .signal x → (s.signal x).format.Holds (values x)
  round : ∀ a g, s.kind i = .convert .realToSint a → s.format i = .int g → ∀ x,
    s.eval values a = .ok (.real x) → g.repr.wrap (Scalar.round x) ∈ g.range

/-- An expression has a value, and its format holds it. The induction is on the number of the node,
which is above those of its operands. -/
theorem WellTyped.eval_holds (h : s.WellTyped rounding) (hr : ∀ f g, rounding f g → g.Fits)
    (hsig : s.SignalsFit) : ∀ i < s.nodes.size, (∀ j ∈ s.occurrences i, s.Safe values j) →
      s.Gives (s.eval values) i ∧ s.Computes values (s.eval values) (s.node i) := by
  intro i
  induction i using Nat.strong_induction_on with
  | _ i ih =>
    intro hi hsafe
    have hself := hsafe i (s.mem_occurrences_self i)
    have hcomputes : s.Computes values (s.eval values) (s.node i) := by
      refine (h.typed i hi).computes hself.hasValue (h.fits hr hsig i hi) (fun j hj => ?_)
        hself.signal hself.round
      have hlt := h.below i hi j hj
      exact ⟨(ih j hlt (hlt.trans hi) fun k hk => hsafe k (occurrences_subset hj hlt hk)).1,
        h.fits hr hsig j (hlt.trans hi)⟩
    refine ⟨?_, hcomputes⟩
    obtain ⟨v, hv, hheld, -⟩ := hcomputes
    refine ⟨v.coerce (s.format i), ?_, hheld⟩
    rw [h.eval_eq hi values, hv]
    rfl

/-- Every format holds some value. -/
theorem exists_holds (f : Format R) : ∃ v, f.Holds v := by
  cases f with
  | real g => exact ⟨.real 0, trivial⟩
  | int g => exact ⟨.int g.range.lo, le_rfl, g.range.lo_le_hi⟩

/-- A node that has a result is of a kind that has a value. -/
theorem hasValue_of_ok (h : s.evalKind values operand n = .ok v) : s.HasValue n.kind := by
  obtain ⟨k, f⟩ := n
  cases k with
  | signal x =>
    simp only [evalKind] at h
    split at h
    · cases h
    · rename_i haux
      simpa [HasValue] using haux
  | cases | deriv => cases h
  | _ => trivial

/-- What rounded reals of an expression become is held by the formats of their nodes. -/
def RoundsInRange (s : Store R) (values : SignalId → Value R) (i : NodeId) : Prop :=
  ∀ j ∈ s.occurrences i, ∀ a g, s.kind j = .convert .realToSint a → s.format j = .int g → ∀ x,
    s.eval values a = .ok (.real x) → g.repr.wrap (Scalar.round x) ∈ g.range

theorem RoundsInRange.of_child (h : s.RoundsInRange values i) (hj : j ∈ s.children i) (hlt : j < i) :
    s.RoundsInRange values j :=
  fun k hk => h k (occurrences_subset hj hlt hk)

/-- If an expression has a value, then its format holds it. Operands that the value does not depend
on need not have one: any value in their formats does for them. -/
theorem WellTyped.holds_of_eval (h : s.WellTyped rounding) (hr : ∀ f g, rounding f g → g.Fits)
    (hsig : s.SignalsFit) (hvalues : ∀ x < s.signals.size, (s.signal x).format.Holds (values x)) :
    ∀ i < s.nodes.size, s.RoundsInRange values i → ∀ v, s.eval values i = .ok v →
      (s.format i).Holds v := by
  intro i
  induction i using Nat.strong_induction_on with
  | _ i ih =>
    intro hi hround v hv
    rw [h.eval_eq hi values] at hv
    cases hraw : s.evalKind values (s.eval values) (s.node i) with
    | error e =>
      rw [hraw] at hv
      cases hv
    | ok r =>
      rw [hraw] at hv
      cases hv
      let filled (j : NodeId) : Except EmitError (Value R) := match s.eval values j with
        | .ok v => .ok v
        | .error _ => .ok (exists_holds (s.format j)).choose
      have hfilled : ∀ j v, s.eval values j = .ok v → filled j = .ok v := by
        intro j v hj
        simp only [filled, hj]
      have hcomputes : s.Computes values filled (s.node i) := by
        refine (h.typed i hi).computes (hasValue_of_ok hraw) (h.fits hr hsig i hi) (fun j hj => ?_)
          (fun x hx => hvalues x (h.signal_lt hi hx)) fun a g hk hg x hx => ?_
        · have hlt := h.below i hi j hj
          refine ⟨?_, h.fits hr hsig j (hlt.trans hi)⟩
          cases hj' : s.eval values j with
          | ok w =>
            exact ⟨w, hfilled j w hj', ih j hlt (hlt.trans hi) (hround.of_child hj hlt) w hj'⟩
          | error e =>
            exact ⟨_, by simp only [filled, hj'], (exists_holds (s.format j)).choose_spec⟩
        · refine hround i (s.mem_occurrences_self i) a g hk hg x ?_
          cases ha : s.eval values a with
          | ok w => rw [← hx, hfilled a w ha]
          | error e =>
            have hnode : s.node i = ⟨.convert .realToSint a, s.format i⟩ := by rw [← hk]; rfl
            rw [hnode] at hraw
            simp only [evalKind, ha] at hraw
            cases hraw
      obtain ⟨r', hr', hheld, -⟩ := hcomputes
      obtain rfl : r = r' := by
        have := succeeds_parallel.evalKind s values hfilled (s.node i) r hraw
        rw [hr'] at this
        cases this
        rfl
      exact hheld

end Store

end MixedSignal
