import Mathlib
import MixedSignal.Proofs.BitFields
import MixedSignal.Proofs.BlockEffects
import MixedSignal.Proofs.DelayLines
import MixedSignal.Proofs.FailedSteps

/-!
# Counters

The next value of a counter goes through three nodes: a sum with one, which is a bit wider than the
counter, a minimum with the largest value, unless the counter rolls over, and a slice of the lowest
bits. `Store.Follows` says of a node which function of the word of a signal it computes. Its format
carries the results of that function, which is why the slice finds the bits that it asks for, at a
width of one as well. So a counter is a register that counts up (`Model.Counts`).

A register loads at every clock edge that a step reaches, whether the step succeeds or fails
(`Simulator.step_register`). What one step does to a counter is to count its edge
(`Simulator.step_counts`), and so in every run the counter has counted the enabled edges since the
last one with a reset.
-/

set_option linter.unusedSectionVars false

namespace MixedSignal

variable {R : Type} [Scalar R]

/-! ## Operators with a constant -/

/-- A constant that is not negative is unsigned. -/
theorem Value.format_of_nonneg {c : Int} (hc : 0 ≤ c) :
    (Value.int c : Value R).format = .int (.tightOrFull .unsigned (.single c)) := by
  change Format.int (.tightOrFull (if c < 0 then .signed else .unsigned) (.single c)) = _
  rw [if_neg (not_lt.2 hc)]

theorem Build.constantIn_uint {c : Int} (hc : 0 ≤ c) :
    (constantIn (.int c) .uint : Value R × Format R) =
      (.int c, .int (.tightOrFull .unsigned (.single c))) := by
  change (Value.int c, Format.int (.tightOrFull (if _ ∨ c < 0 then .signed else .unsigned) _)) = _
  rw [if_neg (by simpa using hc)]

namespace Store

open Build

variable {rounding : Rounding R} {s s' : Store R} {op : ArithOp} {i j k : NodeId} {c : Int}

/-- The node is no constant, and the operator does not flatten it. -/
def IsTerm (s : Store R) (op : ArithOp) (i : NodeId) : Prop :=
  s.const? i = none ∧ flatten s op i = [i]

theorem IsTerm.of_signal {x : SignalId} (h : s.kind i = .signal x) : s.IsTerm op i := by
  simp [IsTerm, const?, flatten, h]

theorem IsTerm.of_arith {inner : ArithOp} {xs : List NodeId} (h : s.kind i = .arith inner xs)
    (hne : inner ≠ op) : s.IsTerm op i := by
  simp [IsTerm, const?, flatten, h, hne]

/-- A term and a constant that matters become a node of the operator. -/
theorem Combines.of_constant (h : Combines s s' op .uint [i, k] j) (hop : op ≠ .product)
    (hi : s.IsTerm op i) (hk : s.kind k = .const (.int c))
    (hmatters : isIdentity op (.int c : Value R) = false) :
    ∃ k' f, k' < s'.nodes.size ∧ s'.IsConstant (.int c) .uint k' ∧
      s'.node j = ⟨.arith op [i, k'], f⟩ := by
  have hknown : s.const? k = some (.int c) := by rw [const?, hk]
  have hflat : flatten s op k = [k] := by rw [flatten, hk]
  have hflattened : flattened s op [i, k] = [i, k] := by simp [flattened, hi.2, hflat]
  have hterms : terms s op [i, k] = [i] := by simp [terms, hflattened, hi.1, hknown]
  have hfolded : known s op [i, k] = some (.int c) := by simp [known, hflattened, hi.1, hknown]
  have hremaining : ∀ xs, Remaining s s' op .uint [i, k] xs →
      ∃ k', xs = [i, k'] ∧ k' < s'.nodes.size ∧ s'.IsConstant (.int c) .uint k' := by
    intro xs h
    cases h with
    | unfolded h =>
      have hidentity := (h _ hfolded).1
      rw [hmatters] at hidentity
      cases hidentity
    | @folded v k' hv hlt hk' h =>
      obtain rfl := Option.some.inj (hfolded.symm.trans hv)
      exact ⟨k', by rw [hterms]; rfl, hlt, hk'⟩
  cases h with
  | zero h => exact absurd h hop
  | neutral h =>
    rw [hflattened] at h
    cases h
  | single h =>
    obtain ⟨k', hj, -⟩ := hremaining _ h
    cases hj
  | @node xs f h hj =>
    obtain ⟨k', rfl, hlt, hk'⟩ := hremaining xs h
    exact ⟨k', f, hlt, hk', hj⟩

/-- The node is an unsigned integer that a function computes from the word of a signal. -/
structure Follows (s : Store R) (x : SignalId) (w : Nat) (i : NodeId) (f : IntFormat)
    (g : Nat → Int) : Prop where
  lt : i < s.nodes.size
  format : s.format i = .int f
  unsigned : f.signedness = .unsigned
  carries : ∀ n < 2 ^ w, f.Carries (g n)
  eval : ∀ (values : SignalId → Value R) (n : Nat), n < 2 ^ w → values x = .int n →
    s.eval values i = .ok (.int (g n))

variable {x : SignalId} {w : Nat} {f : IntFormat} {g : Nat → Int}

theorem Follows.of_extends (h : s.Follows x w i f g) (hs : s.WellTyped rounding)
    (he : s.Extends s') : s'.Follows x w i f g where
  lt := h.lt.trans_le he.size_le
  format := (he.format_eq h.lt).trans h.format
  unsigned := h.unsigned
  carries := h.carries
  eval values n hn hx := (hs.eval_extends he h.lt values).trans (h.eval values n hn hx)

/-- An integer that reaches half of the word is at least as wide as the word. -/
theorem Follows.width_le (h : s.Follows x w i f g) (hw : 0 < w) {n : Nat} (hn : n < 2 ^ w)
    (hlarge : 2 ^ (w - 1) ≤ g n) : w ≤ f.width := by
  obtain ⟨-, hlt⟩ := (h.carries n hn).word h.unsigned
  have hwidth : w - 1 < f.width :=
    (pow_lt_pow_iff_right₀ (by decide : (1 : Int) < 2)).1 (hlarge.trans_lt hlt)
  omega

variable (hs : s.WellTyped rounding)
include hs

/-- The leaf of a signal is the word of the signal. -/
theorem WellTyped.follows_leaf (hx : x < s.signals.size) (hf : (s.signal x).format = .uint w)
    (hrole : (s.signal x).role.isAuxiliary = false) :
    s.Follows x w (s.leaf x) (.full .unsigned w) fun n => n := by
  have hlt := hs.leaf_lt x hx
  have hkind : (s.node (s.leaf x)).kind = .signal x := hs.leaf_kind x hx
  refine ⟨hlt, (hs.leaf_format hx).trans hf, rfl, fun n hn => Format.carries_uint (R := R) hn,
    fun values n hn hvalue => ?_⟩
  rw [hs.eval_eq hlt, hs.leaf_format hx, hf, evalKind, hkind]
  simp only [hrole]
  rw [if_neg (by decide), hvalue]
  exact congrArg Except.ok (Format.carries_uint hn).coerce_eq

theorem WellTyped.eval_constant (hk : k < s.nodes.size) (hc : 0 ≤ c)
    (hconst : s.IsConstant (.int c) .uint k) (values : SignalId → Value R) :
    s.eval values k = .ok (.int c) := by
  have hcarried := carries_format (.int c : Value R)
  rw [Value.format_of_nonneg hc] at hcarried
  rw [IsConstant, constantIn_uint hc] at hconst
  rw [hs.eval_eq hk, format, hconst]
  exact congrArg Except.ok hcarried.coerce_eq

/-- An operator with a constant is computed by the operator. -/
theorem WellTyped.follows_arith (hj : j < s.nodes.size) {h : Format R}
    (hnode : s.node j = ⟨.arith op [i, k], h⟩) (hi : s.Follows x w i f g) (hk : k < s.nodes.size)
    (hc : 0 ≤ c) (hconst : s.IsConstant (.int c) .uint k) :
    ∃ f', s.Follows x w j f' fun n => op.onInt (g n) c := by
  have hformat : s.format k = .int (.tightOrFull .unsigned (.single c)) := by
    rw [format, hconst, constantIn_uint hc]
  have hresult : Format.fold? (Format.arithmetic? op) ([i, k].map s.format) =
      some (.int (.arithmetic op f (.tightOrFull .unsigned (.single c))) : Format R) := by
    simp only [List.map_cons, List.map_nil, hi.format, hformat]
    simp [Format.fold?, Format.arithmetic?, IntFormat.arithmetic?, hi.unsigned]
  have ht := hs.typed j hj
  rw [Store.kind, format, hnode] at ht
  cases ht with
  | arith hnormal hfold =>
    obtain rfl := Option.some.inj (hresult.symm.trans hfold)
    have hcarries : ∀ n < 2 ^ w,
        (IntFormat.arithmetic op f (.tightOrFull .unsigned (.single c))).Carries
          (op.onInt (g n) c) := fun n hn =>
      (hi.carries n hn).arithmetic op
        (IntFormat.carries_tightOrFull (ClosedRange.mem_single.2 rfl) fun _ => hc)
        (by rw [hi.unsigned, IntFormat.tightOrFull_signedness])
    refine ⟨_, hj, by rw [format, hnode], (IntFormat.arithmetic_signedness op).trans hi.unsigned,
      hcarries, fun values n hn hx => ?_⟩
    have hvalues : [i, k].mapM (s.eval values) = .ok [.int (g n), .int c] := by
      simp only [List.mapM_cons, List.mapM_nil, hi.eval values n hn hx,
        hs.eval_constant hk hc hconst values]
      rfl
    have heval : op.evalInt ([.int (g n), .int c].map (Value.toInt (R := R))) = op.onInt (g n) c :=
      op.evalInt_cons (g n) [c]
    rw [hs.eval_eq hj, format, hnode, evalKind_arith hvalues, heval]
    exact congrArg (fun k => Except.ok (Value.int k)) (hcarries n hn).2

/-- The lowest bits of an integer are its remainder. -/
theorem WellTyped.follows_slice (hj : j < s.nodes.size) (hw : 0 < w)
    (hnode : s.node j = ⟨.slice i (w - 1) 0, .uint (w - 1 - 0 + 1)⟩) (hi : s.Follows x w i f g) :
    s.Follows x w j (.full .unsigned w) fun n => g n % 2 ^ w := by
  have hplaces : w - 1 - 0 + 1 = w := by omega
  have hformat : s.format j = .int (.full .unsigned w) := by
    rw [format, hnode, hplaces]
    rfl
  refine ⟨hj, hformat, rfl, fun n _ => ?_, fun values n hn hx => ?_⟩
  · have hfits : (IntFormat.full .unsigned w).Fits := IntFormat.full_fits (by simp)
    exact hfits.carries (IntFormat.wrap_mem_full (by simp))
  · obtain ⟨hnonneg, hlt⟩ := (hi.carries n hn).word hi.unsigned
    obtain ⟨m, hm⟩ := Int.eq_ofNat_of_zero_le hnonneg
    have hwidth : s.width i = f.width := by
      rw [width, hi.format]
      rfl
    have hword := hs.isWord_slice hj hnode (hi.eval values n hn hx) (n := m)
      (by rw [hwidth, Int.emod_eq_of_lt hnonneg hlt, hm])
    rw [hword.eval, hm, fieldOf, hplaces, pow_zero, Nat.div_one]
    norm_cast

end Store

namespace Build

open Store

variable {rounding : Rounding R} {s : Store R} {c : Int} {x : SignalId} {w : Nat} {f : IntFormat}
  {g : Nat → Int}

/-- An operator on an operand that follows a signal and a constant that matters. -/
theorem arithmetic_follows (hs : s.WellTyped rounding) (op : ArithOp) (hop : op ≠ .product)
    {a : Operand R} (ha : a.Valid s) (hc : 0 ≤ c)
    (hmatters : isIdentity op (.int c : Value R) = false)
    (hfollows : ∀ (t : Store R) (i : NodeId), s.Grown rounding t → a.Stands t i →
      t.Follows x w i f g ∧ t.IsTerm op i) :
    Ensures (Grown rounding) (arithmetic op [a, .value (.int c)]) s (fun _ => False) fun j s' =>
      (∃ xs, s'.kind j = .arith op xs) ∧ ∃ f', s'.Follows x w j f' fun n => op.onInt (g n) c := by
  have hvalid : ∀ o ∈ [a, .value (.int c)], o.Valid s := by simpa using ⟨ha, trivial⟩
  refine (arithmetic_ensures hs hvalid (by simp)).imp fun j s' hs' hj => ?_
  obtain ⟨hlt, u, is, js, hu, hu', hp, hcombines⟩ := hj
  obtain ⟨i, k, rfl, hstands, hconst⟩ : ∃ i k, is = [i, k] ∧ a.Stands u i ∧
      u.node k = ⟨.const (.int c), (Value.int c : Value R).format⟩ := by
    have hstands := hp.stands
    cases hstands with
    | cons hi hrest =>
      cases hrest with
      | cons hk hnil =>
        cases hnil
        exact ⟨_, _, rfl, hi.2, hk.2⟩
  obtain ⟨hi, hterm⟩ := hfollows u i hu hstands
  have hdomain : ∀ x ∈ [i, k], (u.format x).domain = .uint := by
    have hformat : u.format k = .int (.tightOrFull .unsigned (.single c)) := by
      rw [format, hconst, Value.format_of_nonneg hc]
    simp [hi.format, hformat, Format.domain, IntFormat.domain, hi.unsigned]
  obtain ⟨hcommon, rfl⟩ := hp.eq_of_domain (by simp) hdomain
  rw [hcommon] at hcombines
  obtain ⟨k', h, hk', hconst', hnode⟩ :=
    hcombines.of_constant hop hterm (congrArg Node.kind hconst) hmatters
  have hus := hu.wellTyped hs
  exact ⟨⟨_, congrArg Node.kind hnode⟩,
    (hs'.wellTyped hs).follows_arith hlt hnode (hi.of_extends hus hu'.toExtends) hk' hc hconst'⟩

end Build

/-! ## Counters -/

namespace Model

open Store

variable {rounding : Rounding R} {m m' : Model R}

/-- The next number of a counter of a width: it rolls over, or stops at the largest one. -/
def countUp (w : Nat) (wrap : Bool) (n : Nat) : Int :=
  if wrap then (n + 1) % 2 ^ w else min (n + 1) (2 ^ w - 1)

/-- The signal is a register that counts up. -/
structure Counts (m : Model R) (x : SignalId) (w : Nat) (wrap : Bool) (c : Clocking) (init : Int) :
    Prop where
  format : (m.store.signal x).format = .uint w
  assigned : ∃ e, m.assignment? x = some ⟨x, e, .nextCycle c (.int init)⟩ ∧
    m.store.Follows x w e (.full .unsigned w) (countUp w wrap)

/-- The signal of a counter before it is driven. The signals that are to control it are bits. -/
structure Undriven (m : Model R) (x : SignalId) (name : String) (w : Nat) (init : Int)
    (clocking : Clocking) : Prop where
  lt : x < m.store.signals.size
  signal : m.store.signal x = counterSignal name w init
  fresh : x ∉ m.assignments.keys
  controls : ∀ c ∈ clocking.signals,
    c < m.store.signals.size ∧ (m.store.signal c).format.isBit = true

variable {x : SignalId} {name : String} {w : Nat} {init : Int} {clocking : Clocking}

theorem Undriven.of_moves (h : m.Undriven x name w init clocking)
    (hmoves : m.Moves rounding (Grown rounding) m')
    (hassignments : m'.assignments = m.assignments) :
    m'.Undriven x name w init clocking := by
  have hext := hmoves.store.toExtends
  refine ⟨h.lt.trans_le hext.signals_le, (hext.signal_eq x h.lt).trans h.signal,
    hassignments ▸ h.fresh, fun c hc => ?_⟩
  obtain ⟨hlt, hbit⟩ := h.controls c hc
  exact ⟨hlt.trans_le hext.signals_le, by rwa [hext.signal_eq c hlt]⟩

section

variable (hm : m.WellFormed rounding)
include hm

/-- A register loads the lowest bits of an integer. -/
theorem loadBits_follows (h : m.Undriven x name w init clocking) (hw : 0 < w)
    (hinit : init ∈ (IntFormat.full .unsigned w).range) {i : NodeId} {f : IntFormat} {g : Nat → Int}
    (hi : m.store.Follows x w i f g) (hwidth : w ≤ f.width) :
    Ensures (Moves rounding (Grown rounding)) (do
      let next ← Edit.build (Build.bitSlice (.node i) (w - 1) 0)
      setNextCycle x (.node next) clocking true
      return x) m (fun _ => False) fun y m' => y = x ∧
        (m'.store.signal x).format = .uint w ∧ ∃ e,
          m'.assignment? x = some ⟨x, e, .nextCycle clocking (.int init)⟩ ∧
          m'.store.Follows x w e (.full .unsigned w) fun n => g n % 2 ^ w := by
  have hslice : Ensures (Grown rounding) (Build.bitSlice (.node i) (w - 1) 0) m.store
      (fun _ => False) _ :=
    Build.bitSlice_ensures (a := .node i) hm.store hi.lt fun hno =>
      absurd ⟨f, hi.format, by omega⟩ hno
  refine (Edit.build_succeeds (fun _ _ => Grown.advances) hslice).bind fun j m₁ h₁ hj => ?_
  obtain ⟨⟨hj, i', -, hstands, hnode⟩, hassignments⟩ := hj
  obtain rfl : i' = i := hstands
  have hm₁ := h₁.wellFormed hm
  have hfollows := hm₁.store.follows_slice hj hw hnode
    (hi.of_extends hm.store h₁.store.toExtends)
  have hundriven := h.of_moves h₁ hassignments
  have hsignal := hundriven.signal
  have haccepted : (m₁.store.signal x).format.contains? (initialValue (m₁.store.signal x)) ≠
      some false := by
    rw [hsignal]
    simpa [counterSignal, initialValue, Format.contains?, ClosedRange.contains] using hinit
  obtain ⟨m₂, hrun⟩ := setNextCycle_fresh (m := m₁) (x := x) (e := j) clocking
    (by rw [hsignal]; rfl) hundriven.fresh (fun c hc => (hundriven.controls c hc).2)
    (congrArg Signal.format hsignal) hfollows.format rfl haccepted
  have hset := setNextCycle_ensures (o := .node j) hm₁ hundriven.lt hj clocking true
  obtain ⟨h₂, e, rfl, hassigned, -⟩ := hset.elim_ok hrun
  have hext := h₂.store.toExtends
  have hformat : (m₂.store.signal x).format = .uint w := by
    rw [hext.signal_eq x hundriven.lt, hsignal]
    rfl
  rw [hsignal] at hassigned
  exact (Ensures.of_ok (P := fun _ m' => m' = m₂) hrun h₂ rfl).bind fun _ _ _ h => Ensures.pure
    ⟨rfl, h ▸ hformat, _, h ▸ hassigned, h ▸ hfollows.of_extends hm₁.store hext⟩

/-- The sum with one follows the counter. -/
theorem increment_follows (h : m.Undriven x name w init clocking) :
    Ensures (Grown rounding) (Build.add (.signal x) (.value (.int 1))) m.store (fun _ => False)
      fun j s' => (∃ xs, s'.kind j = .arith .sum xs) ∧
        ∃ f, s'.Follows x w j f fun n => n + 1 :=
  Build.arithmetic_follows (a := .signal x) (f := .full .unsigned w) (g := fun n => n) (c := 1)
    hm.store .sum (by decide) h.lt (by decide) rfl fun t i ht hi => by
      obtain rfl : i = t.leaf x := hi
      have htyped := ht.wellTyped hm.store
      have hsignal := (ht.toExtends.signal_eq x h.lt).trans h.signal
      have hlt := h.lt.trans_le ht.toExtends.signals_le
      exact ⟨htyped.follows_leaf hlt (by rw [hsignal]; rfl) (by rw [hsignal]; rfl),
        .of_signal (htyped.leaf_kind x hlt)⟩

/-- Whether the incremented counter is limited or not, its lowest bits are the next number. -/
theorem limit_follows (hw : 0 < w) {i : NodeId} {f : IntFormat}
    (hi : m.store.Follows x w i f fun n => n + 1) (hkind : ∃ xs, m.store.kind i = .arith .sum xs)
    (wrap : Bool) :
    Ensures (Moves rounding (Grown rounding))
      (if wrap then pure i
        else Edit.build (Build.minimum [.node i, .value (.int (Int.pow 2 w - 1))]))
      m (fun _ => False) fun j m' => m'.assignments = m.assignments ∧
        ∃ f' g, m'.store.Follows x w j f' g ∧ w ≤ f'.width ∧
          ∀ n, g n % 2 ^ w = countUp w wrap n := by
  have hpos := IntRepr.two_pow_pos w
  have hhalf := IntRepr.two_pow_pos (w - 1)
  have hdouble := IntRepr.two_pow_eq_double hw
  have hlast : 2 ^ w - 1 < 2 ^ w := Nat.sub_lt (Nat.two_pow_pos w) Nat.one_pos
  have hcast : ((2 ^ w - 1 : Nat) : Int) = 2 ^ w - 1 := by
    rw [Nat.cast_sub Nat.one_le_two_pow]
    norm_cast
  cases wrap with
  | true => exact .pure ⟨rfl, f, _, hi, hi.width_le hw hlast (by omega), fun n => rfl⟩
  | false =>
    obtain ⟨xs, hkind⟩ := hkind
    have hmin := Build.arithmetic_follows (a := .node i) (c := 2 ^ w - 1) hm.store .min
      (by decide) hi.lt (by omega) rfl fun t j ht hj => by
        obtain rfl : j = i := hj
        exact ⟨hi.of_extends hm.store ht.toExtends,
          .of_arith ((ht.toExtends.kind_eq hi.lt).trans hkind) (by decide)⟩
    refine (Edit.build_succeeds (fun _ _ => Grown.advances) hmin).imp fun j m' _ hj => ?_
    obtain ⟨⟨-, f', hj⟩, hassignments⟩ := hj
    refine ⟨hassignments, f', _, hj, hj.width_le hw hlast (le_min (by omega) (by omega)),
      fun n => Int.emod_eq_of_lt (le_min (by omega) (by omega)) ?_⟩
    exact (min_le_right _ _).trans_lt (by omega)

/-- The signal of a counter counts up, once it loads the next number. -/
theorem countUp_counts (h : m.Undriven x name w init clocking) (hw : 0 < w)
    (hinit : init ∈ (IntFormat.full .unsigned w).range) (wrap : Bool) :
    Ensures (Moves rounding (Grown rounding)) (do
      let incremented ← Edit.build (Build.add (.signal x) (.value (.int 1)))
      let limited ← if wrap then pure incremented
        else Edit.build (Build.minimum [.node incremented, .value (.int (Int.pow 2 w - 1))])
      let next ← Edit.build (Build.bitSlice (.node limited) (w - 1) 0)
      setNextCycle x (.node next) clocking true
      return x) m (fun _ => False) fun y m' => y = x ∧ m'.Counts x w wrap clocking init := by
  refine (Edit.build_succeeds (fun _ _ => Grown.advances) (increment_follows hm h)).bind
    fun i m₁ h₁ hi => ?_
  obtain ⟨⟨hkind, f₁, hi⟩, hassignments₁⟩ := hi
  have hm₁ := h₁.wellFormed hm
  refine Ensures.of_ite_bind ((limit_follows hm₁ hw hi hkind wrap).bind fun j m₂ h₂ hj => ?_)
  obtain ⟨hassignments₂, f₂, g, hj, hwidth, hnext⟩ := hj
  have hundriven := (h.of_moves h₁ hassignments₁).of_moves h₂ hassignments₂
  refine (loadBits_follows (h₂.wellFormed hm₁) hundriven hw hinit hj hwidth).imp
    fun y m' _ hy => ?_
  obtain ⟨rfl, hformat, e, hassigned, hfollows⟩ := hy
  rw [funext hnext] at hfollows
  exact ⟨rfl, hformat, e, hassigned, hfollows⟩

/-- A counter can be added under a fresh name, if bits control it. -/
theorem addCounter_counts (hvalid : Identifier.isValid name = true)
    (hfresh : m.store.signalNamed? name = none) (hw : 0 < w) (hinit : 0 ≤ init ∧ init < 2 ^ w)
    (wrap : Bool)
    (hcontrols : ∀ c ∈ clocking.signals,
      c < m.store.signals.size ∧ (m.store.signal c).format.isBit = true) :
    Ensures (Moves rounding (Advances rounding)) (addCounter name w init wrap clocking) m
      (fun _ => False) fun x m' => m'.Counts x w wrap clocking init := by
  have hrange : init ∈ (IntFormat.full .unsigned w).range :=
    ⟨hinit.1, Int.le_sub_one_of_lt hinit.2⟩
  unfold addCounter
  refine (addDigital_fresh hvalid hfresh hw .unsigned hrange .internal).bind fun x m₁ h₁ hx => ?_
  obtain ⟨⟨rfl, hstore⟩, hassignments⟩ := hx
  have hext := (h₁.store hm.store).1
  have hundriven : m₁.Undriven m.store.signals.size name w init clocking := by
    refine ⟨?_, ?_, hassignments ▸ hm.fresh, fun c hc => ?_⟩
    · rw [hstore]
      simp [withSignal]
    · rw [hstore]
      exact signal_withSignal_self m.store _
    · obtain ⟨hlt, hbit⟩ := hcontrols c hc
      exact ⟨hlt.trans_le hext.signals_le, by rwa [hext.signal_eq c hlt]⟩
  refine (countUp_counts (h₁.wellFormed hm) hundriven hw hrange wrap).mono
    (fun _ h => { h with store := h.store.advances }) (fun _ => id) fun y m' _ hy => ?_
  exact hy.1 ▸ hy.2

end

theorem Counts.of_moves {wrap : Bool} (h : m.Counts x w wrap clocking init)
    (hm : m.WellFormed rounding) (hmoves : m.Moves rounding (Advances rounding) m') :
    m'.Counts x w wrap clocking init := by
  have hext := (hmoves.store hm.store).1
  obtain ⟨e, hassigned, hfollows⟩ := h.assigned
  have hx : x < m.store.signals.size := (hm.valid hassigned).2.signal_lt
  exact ⟨(congrArg Signal.format (hext.signal_eq x hx)).trans h.format, e,
    hmoves.assignment? hassigned, hfollows.of_extends hm.store hext⟩

end Model

namespace Simulator

open Model

variable {rounding : Rounding R} {m : Model R} {s s' : Simulator R} {x : SignalId}
  {inputs : List (SignalId × Value R)}

/-! ## Registers in a step -/

/-- Inputs do not change other signals. -/
theorem driven_of_not_isInput (hx : (m.store.signal x).role.isInput = false)
    (hinputs : ∀ input ∈ inputs, (m.store.signal input.1).role.isInput = true) :
    s.driven inputs x = s.value x := by
  unfold driven
  generalize s.value x = v
  induction inputs with
  | nil => rfl
  | cons input inputs ih =>
    have hne : input.1 ≠ x := by
      rintro rfl
      rw [hinputs input (by simp)] at hx
      cases hx
    rw [List.foldl_cons, if_neg hne]
    exact ih fun i hi => hinputs i (by simp [hi])

/-- Where same-cycle assignments stop, other signals are as they were. -/
theorem StopsAt.value_eq {base : SignalId → Value R} {e : EmitError} (h : StopsAt m base s e)
    (hs : Running m s) (hx : m.isCombinational x = false) : s.value x = base x := by
  obtain ⟨before, y, after, a, horder, -, hvalue, -⟩ := h
  refine hvalue x fun hmem => ?_
  have hcomb := (hs.order.mem_iff x).1 (horder ▸ List.mem_append_left _ hmem)
  rw [hx] at hcomb
  cases hcomb

/-- What a register with this clocking does at the clock edge of a state. -/
def Loaded (m : Model R) (a : Assignment R) (c : Clocking) (init : Value R) (p s : Simulator R) :
    Prop :=
  if p.isHigh c.reset then s.value a.signal = init.coerce (m.store.signal a.signal).format
  else if p.isEnabled c then ∃ v, m.store.eval p.value a.expr = .ok v ∧
    s.value a.signal = v.coerce (m.store.signal a.signal).format
  else s.value a.signal = p.value a.signal

/-- A step, whether it succeeds or fails, reaches the clock edge, where a register loads, or it does
not, and the register keeps its value. -/
theorem step_register (hm : m.WellFormed rounding) (hs : Running m s) {a : Assignment R}
    {c : Clocking} {init : Value R} (ha : m.assignment? a.signal = some a)
    (ht : a.timing = .nextCycle c init) (inputs : List (SignalId × Value R))
    (h : (outcome (step inputs) s).2 = s') :
    (s'.cycle = s.cycle ∧ s'.value a.signal = s.value a.signal) ∨
    ∃ p, outcome (prepare inputs) s = (.ok ⟨⟩, p) ∧ s'.cycle = s.cycle + 1 ∧
      p.value a.signal = s.value a.signal ∧ Loaded m a c init p s' := by
  have hcomb : m.isCombinational a.signal = false := isCombinational_of_nextCycle ha ht
  have hinput := not_isInput_of_assigned hm ha
  have hs' : Running m s' := h ▸ hs.evolves (step_evolves inputs).moved
  cases hrun : outcome (step inputs) s with
  | mk r t =>
    obtain rfl : t = s' := by rw [← h, hrun]
    cases r with
    | ok u =>
      obtain ⟨p, hp, hp', hclocked, -⟩ := step_clocked hm hs hrun
      refine .inr ⟨p, hp, ?_, prepare_register hm hs hp ha ht, hclocked.register hp'.toOf ha ht⟩
      rw [hclocked.cycle, (prepare_settled hm hs hp).2.2.1]
    | error e =>
      cases step_error hm hs hrun with
      | @refused _ before y v after hinputs hbefore hy hvalue hcycle =>
        refine .inl ⟨hcycle, ?_⟩
        rw [hvalue, driven_of_not_isInput hinput hbefore]
      | unsettled hinputs hcycle hstops =>
        exact .inl ⟨hcycle,
          (hstops.value_eq hs' hcomb).trans (driven_of_not_isInput hinput hinputs)⟩
      | unloaded hinputs hvalue hcycle =>
        exact .inl ⟨hcycle, (hvalue _ hcomb).trans (driven_of_not_isInput hinput hinputs)⟩
      | @clocked p q _ _ hinputs hprepare hclocked hkept hcycle hstops =>
        have hp := (prepare_settled hm hs hprepare).1
        refine .inr ⟨p, hprepare, hcycle, prepare_register hm hs hprepare ha ht, ?_⟩
        have hloaded := hclocked.register hp.toOf ha ht
        rw [Loaded, hstops.value_eq hs' hcomb]
        exact hloaded

/-! ## Counting in a run -/

/-- What a clock edge finds of the signals that control a register. -/
structure Edge where
  reset : Bool
  enabled : Bool
  deriving DecidableEq

/-- The enabled clock edges behind the last one with a reset. -/
def enabledSinceReset (es : List Edge) : Nat :=
  (es.reverse.takeWhile fun e => !e.reset).countP Edge.enabled

/-- The clock edge of a step for a register with this clocking. A step that fails before its clock
edge has none. -/
def edge (c : Clocking) (s : Simulator R) (inputs : List (SignalId × Value R)) : List Edge :=
  let p := (outcome (prepare inputs) s).2
  if (outcome (step inputs) s).2.cycle = s.cycle then [] else [⟨p.isHigh c.reset, p.isEnabled c⟩]

/-- The clock edges of a run for a register with this clocking. -/
def edges (c : Clocking) (s : Simulator R) : List (List (SignalId × Value R)) → List Edge
  | [] => []
  | inputs :: history => s.edge c inputs ++ edges c (outcome (step inputs) s).2 history

/-- The value of a counter after a number of enabled clock edges. -/
def counterValue (w : Nat) (wrap : Bool) (init : Int) (k : Nat) : Int :=
  if wrap then (init + k) % 2 ^ w else min (init + k) (2 ^ w - 1)

theorem enabledSinceReset_concat (es : List Edge) (e : Edge) :
    enabledSinceReset (es ++ [e]) =
      if e.reset then 0 else enabledSinceReset es + if e.enabled then 1 else 0 := by
  obtain ⟨reset, enabled⟩ := e
  cases reset with
  | true => simp [enabledSinceReset]
  | false => simp [enabledSinceReset, List.countP_cons]

theorem edges_concat (c : Clocking) (s : Simulator R) (history : List (List (SignalId × Value R)))
    (inputs : List (SignalId × Value R)) :
    s.edges c (history ++ [inputs]) = s.edges c history ++ (s.after history).edge c inputs := by
  induction history generalizing s with
  | nil => simp [edges, after]
  | cons first history ih =>
    rw [List.cons_append, edges, ih, edges, List.append_assoc]
    rfl

theorem counterValue_mem {w : Nat} {init : Int} (hinit : 0 ≤ init ∧ init < 2 ^ w) (wrap : Bool)
    (k : Nat) : 0 ≤ counterValue w wrap init k ∧ counterValue w wrap init k < 2 ^ w := by
  have hpos := IntRepr.two_pow_pos w
  cases wrap with
  | true => exact ⟨Int.emod_nonneg _ hpos.ne', Int.emod_lt_of_pos _ hpos⟩
  | false =>
    simp only [counterValue, Bool.false_eq_true, if_false]
    omega

theorem counterValue_zero {w : Nat} {init : Int} (hinit : 0 ≤ init ∧ init < 2 ^ w) (wrap : Bool) :
    counterValue w wrap init 0 = init := by
  cases wrap with
  | true => simpa [counterValue] using Int.emod_eq_of_lt hinit.1 hinit.2
  | false =>
    simp only [counterValue, Bool.false_eq_true, if_false]
    omega

/-- The next value of a counter is that after one more clock edge. -/
theorem countUp_counterValue {w : Nat} {init : Int} {wrap : Bool} {k n : Nat}
    (hn : counterValue w wrap init k = n) :
    countUp w wrap n = counterValue w wrap init (k + 1) := by
  cases wrap with
  | true =>
    simp only [counterValue, if_true] at hn
    simp only [countUp, counterValue, if_true, ← hn]
    rw [Int.emod_add_emod, Nat.cast_add_one, add_assoc]
  | false =>
    simp only [counterValue, Bool.false_eq_true, if_false] at hn
    simp only [countUp, counterValue, Bool.false_eq_true, if_false]
    omega

variable {w : Nat} {wrap : Bool} {clocking : Clocking} {init : Int}

theorem coerce_counterValue {f : Format R} (hf : f = .uint w) (hinit : 0 ≤ init ∧ init < 2 ^ w)
    (wrap : Bool) (k : Nat) :
    (Value.int (counterValue w wrap init k) : Value R).coerce f =
      .int (counterValue w wrap init k) := by
  obtain ⟨hnonneg, hlt⟩ := counterValue_mem hinit wrap k
  obtain ⟨n, hn⟩ := Int.eq_ofNat_of_zero_le hnonneg
  rw [hn] at hlt ⊢
  rw [hf]
  exact (Format.carries_uint (by exact_mod_cast hlt)).coerce_eq

/-- A clock edge with a reset starts the count anew, and any other is counted if it is enabled. -/
theorem loaded_counts (hx : m.Counts x w wrap clocking init) (hinit : 0 ≤ init ∧ init < 2 ^ w)
    {e : NodeId} (he : m.store.Follows x w e (.full .unsigned w) (countUp w wrap))
    {p : Simulator R} {k : Nat} (hvalue : p.value x = .int (counterValue w wrap init k))
    (h : Loaded m ⟨x, e, .nextCycle clocking (.int init)⟩ clocking (.int init) p s) :
    s.value x = .int (counterValue w wrap init
      (if p.isHigh clocking.reset then 0 else k + if p.isEnabled clocking then 1 else 0)) := by
  have hcoerce := coerce_counterValue hx.format hinit wrap
  unfold Loaded at h
  split_ifs at h ⊢ with hreset henabled
  · rw [h, ← hcoerce, counterValue_zero hinit]
  · obtain ⟨v, hv, hload⟩ := h
    obtain ⟨hnonneg, hlt⟩ := counterValue_mem hinit wrap k
    obtain ⟨n, hn⟩ := Int.eq_ofNat_of_zero_le hnonneg
    rw [hn] at hlt hvalue
    have hnext := he.eval p.value n (by exact_mod_cast hlt) hvalue
    obtain rfl := Except.ok.inj (hnext.symm.trans hv)
    rw [countUp_counterValue hn] at hload
    exact hload.trans (hcoerce _)
  · exact h.trans hvalue

/-- One step of a run counts its clock edge, if it has one. -/
theorem step_counts (hm : m.WellFormed rounding) (hs : Running m s)
    (hx : m.Counts x w wrap clocking init) (hinit : 0 ≤ init ∧ init < 2 ^ w) {es : List Edge}
    (hvalue : s.value x = .int (counterValue w wrap init (enabledSinceReset es)))
    (inputs : List (SignalId × Value R)) :
    (outcome (step inputs) s).2.cycle = s.cycle + (s.edge clocking inputs).length ∧
      (outcome (step inputs) s).2.value x = .int (counterValue w wrap init
        (enabledSinceReset (es ++ s.edge clocking inputs))) := by
  obtain ⟨e, hassigned, hfollows⟩ := hx.assigned
  rcases step_register (a := ⟨x, e, .nextCycle clocking (.int init)⟩) hm hs hassigned rfl
    inputs rfl with ⟨hcycle, hkept⟩ | ⟨p, hp, hcycle, hkept, hloaded⟩
  · rw [edge, if_pos hcycle, List.append_nil, ← hvalue]
    exact ⟨hcycle, hkept⟩
  · have hedge : s.edge clocking inputs = [⟨p.isHigh clocking.reset, p.isEnabled clocking⟩] := by
      rw [edge, hp, if_neg (by omega)]
    rw [hedge, enabledSinceReset_concat]
    exact ⟨hcycle, loaded_counts hx hinit hfollows (hkept.trans hvalue) hloaded⟩

/-- In every run a counter has counted the clock edges, of which there is one for each cycle. -/
theorem after_counts (hm : m.WellFormed rounding) (hx : m.Counts x w wrap clocking init)
    (hinit : 0 ≤ init ∧ init < 2 ^ w) (hstart : start m = .ok s)
    (history : List (List (SignalId × Value R))) :
    Reachable m (s.after history) ∧
      (s.after history).cycle = (s.edges clocking history).length ∧
      (s.after history).value x = .int (counterValue w wrap init
        (enabledSinceReset (s.edges clocking history))) := by
  induction history using List.reverseRecOn with
  | nil =>
    refine ⟨.start hstart, ?_, ?_⟩
    · obtain ⟨order, horder, -, hrun⟩ := start_eq_ok_iff.1 hstart
      exact ((settle_settled hm (running_reset horder)).elim_ok hrun).1.cycle
    · obtain ⟨e, hassigned, -⟩ := hx.assigned
      have hzero := coerce_counterValue hx.format hinit wrap 0
      rw [counterValue_zero hinit] at hzero
      exact ((start_register hm hstart hassigned rfl).trans hzero).trans
        (congrArg Value.int (counterValue_zero hinit wrap).symm)
  | append_singleton history inputs ih =>
    obtain ⟨hreachable, hcycle, hvalue⟩ := ih
    obtain ⟨hcycle', hvalue'⟩ := step_counts hm hreachable.running hx hinit hvalue inputs
    rw [edges_concat, List.length_append, ← hcycle, after, List.foldl_append]
    exact ⟨hreachable.step inputs, hcycle', hvalue'⟩

/-- Counters count. A counter can be added under a fresh name, if bits control it. Whatever is added
to the model later, in every run its value is the initial one and the number of enabled clock edges
since the last reset, taken modulo the size of the word or limited by its largest value. -/
theorem counters_count [Numerics R] (hb : m.Built fun _ _ => True) {name : String}
    (hvalid : Identifier.isValid name = true) (hfresh : m.store.signalNamed? name = none)
    (hw : 1 ≤ w) (hinit : 0 ≤ init ∧ init < 2 ^ w) (wrap : Bool)
    (hcontrols : ∀ c ∈ clocking.signals,
      c < m.store.signals.size ∧ (m.store.signal c).format.isBit = true) :
    ∃ x m', outcome (addCounter name w init wrap clocking) m = (.ok x, m') ∧
      ∀ ops, AllowsAll (fun _ _ => True) m' ops → ∀ s, start (m'.performAll ops) = .ok s →
        ∀ history, (s.after history).cycle = (s.edges clocking history).length ∧
          (s.after history).value x = .int (counterValue w wrap init
            (enabledSinceReset (s.edges clocking history))) := by
  have hm := hb.wellFormed_any
  obtain ⟨x, m', hrun, hmoved, hx⟩ :=
    (addCounter_counts hm hvalid hfresh hw hinit wrap hcontrols).succeeds
  have hm' := hmoved.wellFormed hm
  refine ⟨x, m', hrun, fun ops hops s hstart history => ?_⟩
  have hmoves := performAll_moves hm' hops
  exact (after_counts (hmoves.wellFormed hm') (hx.of_moves hm' hmoves) hinit hstart history).2

/-- A model with two bits as inputs. -/
def controlModel : Model ℚ :=
  Model.performAll { name := "m", dt := none } [.digitalInput "r" 1 .unsigned,
    .digitalInput "e" 1 .unsigned]

/-- The first input resets a register, and the second one enables it. -/
def bothControls : Clocking := { reset := some 0, enable := some 1 }

/-- The model with a counter of two bits that starts from 2. -/
def withCounter : Model ℚ := (outcome (addCounter "n" 2 2 true bothControls) controlModel).2

/-- The counter has a second name. -/
def counterModel : Model ℚ := withCounter.performAll [.bindName "z" (.signal 2)]

/-- The state in which a simulation of it starts. -/
def counterStart : Simulator ℚ := (outcome settle (reset counterModel [3])).2

/-- Two enabled steps, one with a reset, one that names no input, and three of which the second is
not enabled. -/
def counterHistory : List (List (SignalId × Value ℚ)) :=
  [[(1, .int 1)], [], [(0, .int 1)], [(2, .int 0)], [(0, .int 0)], [(1, .int 0)], [(1, .int 1)]]

theorem controlModel_built : controlModel.Built fun _ _ => True :=
  .ofOperations (by decide +kernel)

theorem controlModel_computed :
    (Identifier.isValid "n" = true ∧ controlModel.store.signalNamed? "n" = none ∧
      ∀ c ∈ bothControls.signals, c < controlModel.store.signals.size ∧
        (controlModel.store.signal c).format.isBit = true) ∧
    (outcome (addCounter "n" 2 2 true bothControls) controlModel).1.toOption = some 2 ∧
    (Operation.bindName "z" (.signal 2)).Valid withCounter ∧
    counterModel.combinationalOrder = .ok [3] := by
  decide +kernel

theorem counterStart_computed :
    ((outcome settle (reset counterModel [3])).1.isOk,
      counterStart.edges bothControls counterHistory) =
    (true, [⟨false, true⟩, ⟨false, true⟩, ⟨true, true⟩, ⟨false, true⟩, ⟨false, false⟩,
      ⟨false, true⟩]) := by
  cbv

/-- Two edges are counted since the reset, which takes the counter from 2 to 0. -/
theorem counters_count_controlled :
    (controlModel.Built fun _ _ => True) ∧ Identifier.isValid "n" = true ∧
    controlModel.store.signalNamed? "n" = none ∧
    (∀ c ∈ bothControls.signals, c < controlModel.store.signals.size ∧
      (controlModel.store.signal c).format.isBit = true) ∧
    outcome (addCounter "n" 2 2 true bothControls) controlModel = (.ok 2, withCounter) ∧
    withCounter.AllowsAll (fun _ _ => True) [.bindName "z" (.signal 2)] ∧
    start counterModel = .ok counterStart ∧ (counterStart.after counterHistory).cycle = 6 ∧
    (counterStart.after counterHistory).value 2 = .int 0 := by
  obtain ⟨⟨hvalid, hfresh, hcontrols⟩, hok, hallowed, horder⟩ := controlModel_computed
  obtain ⟨hsettled, hedges⟩ := Prod.mk.inj counterStart_computed
  have hrun : outcome (addCounter "n" 2 2 true bothControls) controlModel = (.ok 2, withCounter) :=
    outcome_eq_of_toOption hok
  have hops : withCounter.AllowsAll (fun _ _ => True) [.bindName "z" (.signal 2)] :=
    ⟨hallowed, trivial, trivial⟩
  have hstart : start counterModel = .ok counterStart :=
    start_of_isOk horder (by decide +kernel) hsettled
  obtain ⟨x, m', hrun', hcounts⟩ := counters_count controlModel_built hvalid hfresh
    (show 1 ≤ 2 by decide) (show (0 : Int) ≤ 2 ∧ (2 : Int) < 2 ^ 2 by decide) true hcontrols
  obtain ⟨hx, rfl⟩ := Prod.mk.inj (hrun.symm.trans hrun')
  obtain rfl := Except.ok.inj hx
  obtain ⟨hcycle, hvalue⟩ := hcounts _ hops _ hstart counterHistory
  rw [hedges] at hcycle hvalue
  exact ⟨controlModel_built, hvalid, hfresh, hcontrols, hrun, hops, hstart, hcycle, hvalue⟩

end Simulator

end MixedSignal
