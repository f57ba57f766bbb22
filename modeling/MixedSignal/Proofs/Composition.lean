import Mathlib
import MixedSignal.Proofs.Progress
import MixedSignal.Proofs.RealArithmetic

/-!
# Linear systems at run time

A discrete-time system is implemented by expressions for its rows: sums of products of coefficients
and signals, simplified as they are built. Coefficients that vanish take their signals with them, a
coefficient that is the same in all modes is a constant, and others are selected by the mode. The
exact meaning of a row is the row of the matrices all the same (`Model.systemRow_conveys`).

A row is made of real arithmetic only, and of selections by the mode. Where such an expression has a
value at run time, this is its meaning (`Store.Numeric.eval`). Outputs and registers therefore
follow the matrices of the current mode in every simulation.
-/

set_option linter.unusedSectionVars false

namespace MixedSignal

variable {R : Type} [ExactScalar R] {rounding : Rounding R} {S : StateSpace R} {x : SignalId}
  {e : NodeId}

/-- The selector is at the mode, if there is a selector and if it has a value. Without a value it
may be at any mode: no row that has a value depends on it then. -/
def Store.InMode (s : Store R) (values : SignalId → Value R) (mode : Option NodeId) (q : Nat) :
    Prop :=
  ∀ a ∈ mode, ∀ w, s.eval values a = .ok w → w = .int q

/-! ## Rows -/

namespace StateSpace

/-- A row of two blocks applied to states and inputs. -/
def rowValue (mode : StateSpace R) (stateBlock inputBlock : Block) (row : Nat)
    (states inputs : List SignalId) (v : SignalId → R) : R :=
  (∑ j : Fin states.length, mode.coefficient stateBlock row j * v (states.get j)) +
    ∑ j : Fin inputs.length, mode.coefficient inputBlock row j * v (inputs.get j)

end StateSpace

/-- A block that no mode has reads as zero. -/
theorem ModalSystem.coefficient_eq_zero {system : ModalSystem R} {block : Block}
    (h : system.hasBlock block ≠ true) (hS : S ∈ system.modes) (row col : Nat) :
    S.coefficient block row col = 0 := by
  have hnone : S.block block = none := by
    simpa using fun hsome => h (List.any_eq_true.2 ⟨S, hS, hsome⟩)
  rw [StateSpace.coefficient, hnone]

theorem sum_zipIdx {α : Type} (xs : List α) (f : α → Nat → R) :
    (xs.zipIdx.map fun p => f p.1 p.2).sum = ∑ j : Fin xs.length, f (xs.get j) j := by
  rw [← List.sum_ofFn]
  refine congrArg List.sum (List.ext_getElem (by simp) fun j h _ => ?_)
  simp

namespace Model

open Store

variable {m m' : Model R} {reads : SignalId → Prop} {mode : Option NodeId} {ρ : Reading R}
  {v : LinearVar → R} {q : Nat} {a : R}

/-- If there is a selector, it exists, and the reading puts it at the mode. -/
def AtMode (m : Model R) (mode : Option NodeId) (ρ : Reading R) (q : Nat) : Prop :=
  ∀ a ∈ mode, a < m.store.nodes.size ∧ ρ.address a = q

theorem AtMode.of_moves (h : m.AtMode mode ρ q) (h' : m.Moves rounding (Grown rounding) m') :
    m'.AtMode mode ρ q := fun a ha =>
  ⟨(h a ha).1.trans_le h'.store.size_le, (h a ha).2⟩

/-- The signals are real. -/
def AreReal (m : Model R) (xs : List SignalId) : Prop :=
  ∀ x ∈ xs, x < m.store.signals.size ∧ (m.store.signal x).format.domain = .real

theorem AreReal.of_extends {xs : List SignalId} (h : m.AreReal xs)
    (he : m.store.Extends m'.store) : m'.AreReal xs := fun x hx =>
  ⟨(h x hx).1.trans_le he.signals_le, by rw [he.signal_eq x (h x hx).1, (h x hx).2]⟩

theorem coefficientNode_conveys (hm : m.WellFormed rounding) (hmode : m.AtMode mode ρ q)
    {coefficients : List R} (hc : coefficients[q]? = some a) :
    GrowsTo rounding m (coefficientNode coefficients mode)
      fun j m' => Conveys rounding reads mode ρ v m'.store j a := by
  unfold coefficientNode
  cases mode with
  | some i =>
    obtain ⟨hi, hρ⟩ := hmode i rfl
    exact build_conveys (Build.array_conveys hm.store hi rfl hρ hc)
  | none =>
    simp only
    split
    · obtain ⟨rfl, rfl⟩ : q = 0 ∧ _ = a := by simpa [List.getElem?_singleton] using hc
      exact build_conveys (Build.constant_conveys hm.store _)
    · exact Ensures.throw trivial

theorem rowTerms_conveys (hm : m.WellFormed rounding) {system : ModalSystem R}
    (hS : system.modes[q]? = some S) (hmode : m.AtMode mode ρ q) {signals : List SignalId}
    (hreads : ∀ x ∈ signals, x < m.store.signals.size ∧ reads x) (block : Block) (row : Nat) :
    GrowsTo rounding m (rowTerms system block row signals mode) fun js m' =>
        ∃ as, List.Forall₂ (Conveys rounding reads mode ρ v m'.store) js as ∧ as.sum =
          ∑ j : Fin signals.length, S.coefficient block row j * v (.signal (signals.get j)) := by
  unfold rowTerms
  split
  · refine (Ensures.mapM (Q := fun p j (m' : Model R) => Conveys rounding reads mode ρ v m'.store j
      (S.coefficient block row p.2 * v (.signal p.1))) ?_ _ m ?_).imp fun js m' _ hjs => ?_
    · exact fun _ _ _ _ h hj => hj.of_grown h.store
    · rintro ⟨x, col⟩ hx m₁ h₁
      have hc : (system.coefficients block row col)[q]? = some (S.coefficient block row col) := by
        rw [ModalSystem.coefficients, List.getElem?_map, hS, Option.map_some]
      refine Ensures.bind (P := fun c m' => Conveys rounding reads mode ρ v m'.store c
        (S.coefficient block row col)) (coefficientNode_conveys (h₁.wellFormed hm)
          (hmode.of_moves h₁) hc) fun c m₂ h₂ hc => ?_
      have h₀₂ := trans_of _ h₁ h₂
      rw [← hc.eq]
      refine mul_conveys (o := .node c) (h₀₂.wellFormed hm) hc.numeric.numeric hc.numeric.domain ?_
      rw [h₀₂.store.signals_eq]
      exact hreads x (List.fst_mem_of_mem_zipIdx hx)
    · refine ⟨signals.zipIdx.map fun p => S.coefficient block row p.2 * v (.signal p.1), ?_,
        sum_zipIdx signals fun x col => S.coefficient block row col * v (.signal x)⟩
      rw [List.forall₂_map_right_iff]
      exact hjs.flip
  · rename_i hblock
    have hzero := ModalSystem.coefficient_eq_zero hblock (List.mem_of_getElem? hS) row
    exact Ensures.pure ⟨[], .nil, by simp [hzero]⟩

/-- What is built for a row of the system means the row of the matrices of the mode. -/
theorem systemRow_conveys (hm : m.WellFormed rounding) {system : ModalSystem R}
    (hS : system.modes[q]? = some S) (hmode : m.AtMode mode ρ q) {states inputs : List SignalId}
    (hreads : ∀ x ∈ states ++ inputs, x < m.store.signals.size ∧ reads x)
    (stateBlock inputBlock : Block) (row : Nat) :
    GrowsTo rounding m (systemRow system stateBlock inputBlock row states inputs mode)
      fun e m' => Conveys rounding reads mode ρ v m'.store e
        (S.rowValue stateBlock inputBlock row states inputs fun x => v (.signal x)) := by
  rw [List.forall_mem_append] at hreads
  refine (rowTerms_conveys (v := v) hm hS hmode hreads.1 stateBlock row).bind
    fun js m₁ h₁ hjs => ?_
  obtain ⟨as, has, hasum⟩ := hjs
  have hm₁ := h₁.wellFormed hm
  refine (rowTerms_conveys (v := v) hm₁ hS (hmode.of_moves h₁) (h₁.store.signals_eq ▸ hreads.2)
    inputBlock row).bind fun ks m₂ h₂ hks => ?_
  obtain ⟨bs, hbs, hbsum⟩ := hks
  have hall : List.Forall₂ (Conveys rounding reads mode ρ v m₂.store) (js ++ ks) (as ++ bs) :=
    List.rel_append (has.imp fun _ _ h => h.of_grown h₂.store) hbs
  have hsum : (as ++ bs).sum =
      S.rowValue stateBlock inputBlock row states inputs fun x => v (.signal x) := by
    rw [List.sum_append, hasum, hbsum, StateSpace.rowValue]
  have hm₂ := h₂.wellFormed hm₁
  rw [← hsum]
  split
  · rename_i hnil
    rw [hnil] at hall
    rw [List.forall₂_nil_left_iff.1 hall, List.sum_nil]
    exact build_conveys (Build.constant_conveys hm₂.store 0)
  · rename_i hne
    exact sum_conveys hm₂ hall hne

/-- The signal is driven at some time by an expression of the value. -/
def Drives (rounding : Rounding R) (reads : SignalId → Prop) (mode : Option NodeId) (ρ : Reading R)
    (v : LinearVar → R) (m : Model R) (timing : Timing R → Prop) (x : SignalId) (a : R) : Prop :=
  ∃ e t, timing t ∧ m.assignment? x = some ⟨x, e, t⟩ ∧ Conveys rounding reads mode ρ v m.store e a

theorem Drives.of_moves {G : Store R → Store R → Prop} {timing : Timing R → Prop}
    (h : Drives rounding reads mode ρ v m timing x a) (h' : m.Moves rounding G m')
    (hG : m.store.Advances rounding m'.store) : Drives rounding reads mode ρ v m' timing x a := by
  obtain ⟨e, t, ht, hassign, he⟩ := h
  obtain ⟨hext, hs', -⟩ := hG he.wellTyped
  exact ⟨e, t, ht, h'.assignment? hassign, he.of_extends hext hs'⟩

theorem setNextCycle_drives (hm : m.WellFormed rounding) (hx : x < m.store.signals.size)
    (he : Conveys rounding reads mode ρ v m.store e a) (clocking : Clocking) :
    GrowsTo rounding m (setNextCycle x (.node e) clocking true) fun _ m' =>
        Drives rounding reads mode ρ v m' (∃ init, · = .nextCycle clocking init) x a := by
  refine (setNextCycle_ensures (o := .node e) hm hx he.numeric.numeric.lt clocking true).imp
    fun _ m' h' hassign => ?_
  obtain ⟨_, rfl, hassign, -⟩ := hassign
  exact ⟨_, _, ⟨_, rfl⟩, hassign, he.of_grown h'.store⟩

theorem setThisCycle_drives (hm : m.WellFormed rounding) (hx : x < m.store.signals.size)
    (he : Conveys rounding reads mode ρ v m.store e a) :
    GrowsTo rounding m (setThisCycle x (.node e) true)
      fun _ m' => Drives rounding reads mode ρ v m' (· = .thisCycle) x a := by
  refine (setThisCycle_ensures (o := .node e) hm hx he.numeric.numeric.lt true).imp
    fun _ m' h' hassign => ?_
  obtain ⟨_, rfl, hassign, -⟩ := hassign
  exact ⟨_, _, rfl, hassign, he.of_grown h'.store⟩

/-- The rows of the system drive the states at the clock edge and the outputs in the same cycle. -/
theorem addDiscreteSystem_drives (hm : m.WellFormed rounding) {system : ModalSystem R}
    (hS : system.modes[q]? = some S) (hmode : m.AtMode mode ρ q)
    {inputs states outputs : List SignalId} (hreads : ∀ x ∈ states ++ inputs,
      x < m.store.signals.size ∧ reads x) (houtputs : ∀ x ∈ outputs, x < m.store.signals.size)
    (clocking : Clocking) :
    GrowsTo rounding m (addDiscreteSystem system inputs states outputs mode clocking) fun _ m' =>
        (∀ p ∈ states.zipIdx, Drives rounding reads mode ρ v m'
          (∃ init, · = .nextCycle clocking init) p.1
          (S.rowValue .a .b p.2 states inputs fun x => v (.signal x))) ∧
        ∀ p ∈ outputs.zipIdx, Drives rounding reads mode ρ v m' (· = .thisCycle) p.1
          (S.rowValue .c .d p.2 states inputs fun x => v (.signal x)) := by
  have hrow : ∀ stateBlock inputBlock row m', m.Moves rounding (Grown rounding) m' →
      GrowsTo rounding m' (systemRow system stateBlock inputBlock row states inputs mode)
        fun e m' => Conveys rounding reads mode ρ v m'.store e
          (S.rowValue stateBlock inputBlock row states inputs fun x => v (.signal x)) :=
    fun stateBlock inputBlock row m' h' => systemRow_conveys (h'.wellFormed hm) hS
      (hmode.of_moves h') (h'.store.signals_eq ▸ hreads) stateBlock inputBlock row
  have hkeep : ∀ {timing : Timing R → Prop} {x : SignalId} {a : R} {m₁ m₂ : Model R},
      m₁.Moves rounding (Grown rounding) m₂ → Drives rounding reads mode ρ v m₁ timing x a →
        Drives rounding reads mode ρ v m₂ timing x a :=
    fun h hdrives => hdrives.of_moves h h.store.advances
  unfold addDiscreteSystem
  refine (Ensures.of_kept (check_ensures _ _)).bind fun _ t _ ht => ?_
  obtain ⟨rfl, -⟩ := ht
  refine Ensures.bind (Ensures.forIn (Q := fun p m' =>
    Drives rounding reads mode ρ v m' (∃ init, · = .nextCycle clocking init) p.1
      (S.rowValue .a .b p.2 states inputs fun x => v (.signal x)))
    (fun _ _ _ => hkeep) _ t ?_) fun _ m₁ h₁ hregisters => ?_
  · rintro ⟨x, row⟩ hx m₁ h₁
    refine Ensures.bind (hrow .a .b row m₁ h₁) fun e m₂ h₂ he => ?_
    have h₀₂ := trans_of _ h₁ h₂
    have hlt := hreads x (List.mem_append_left _ (List.fst_mem_of_mem_zipIdx hx))
    rw [← h₀₂.store.signals_eq] at hlt
    exact (setNextCycle_drives (h₀₂.wellFormed hm) hlt.1 he clocking).bind
      fun _ _ _ hdrives => Ensures.pure ⟨rfl, hdrives⟩
  refine Ensures.bind (Ensures.forIn (Q := fun p m' =>
    Drives rounding reads mode ρ v m' (· = .thisCycle) p.1
      (S.rowValue .c .d p.2 states inputs fun x => v (.signal x)))
    (fun _ _ _ => hkeep) _ m₁ ?_) fun _ m₂ h₂ houts =>
      Ensures.pure ⟨fun p hp => hkeep h₂ (hregisters p hp), houts⟩
  rintro ⟨x, row⟩ hx m₂ h₂
  have h₀₂ := trans_of _ h₁ h₂
  refine Ensures.bind (hrow .c .d row m₂ h₀₂) fun e m₃ h₃ he => ?_
  have h₀₃ := trans_of _ h₀₂ h₃
  have hlt := houtputs x (List.fst_mem_of_mem_zipIdx hx)
  rw [← h₀₃.store.signals_eq] at hlt
  exact (setThisCycle_drives (h₀₃.wellFormed hm) hlt he).bind
    fun _ _ _ hdrives => Ensures.pure ⟨rfl, hdrives⟩

end Model

/-! ## Simulations -/

namespace Store

variable {s : Store R} {values : SignalId → Value R}

/-- The store holds a selector that tells the modes apart, or there is only one mode. -/
def Selector (s : Store R) (system : ModalSystem R) : Option NodeId → Prop
  | none => system.modes.length = 1
  | some a => a < s.nodes.size ∧ ∃ k, s.Unsigned a k ∧ system.modes.length = 2 ^ k

variable {system : ModalSystem R} {mode : Option NodeId}

theorem Selector.lt (h : s.Selector system mode) : ∀ a ∈ mode, a < s.nodes.size := by
  rintro a rfl
  exact h.1

theorem Selector.of_extends {s' : Store R} (h : s.Selector system mode) (he : s.Extends s') :
    s'.Selector system mode := by
  cases mode with
  | none => exact h
  | some a =>
    obtain ⟨ha, k, hk, hlength⟩ := h
    exact ⟨ha.trans_le he.size_le, k, he.unsigned ha hk, hlength⟩

/-- A mode is an address of the width of the selector. -/
theorem Selector.mode_lt (h : s.Selector system mode) {q : Nat} (hq : q < system.modes.length) :
    ∀ a ∈ mode, ∀ w, s.Unsigned a w → q < 2 ^ w := by
  rintro a rfl w ⟨r, hr⟩
  obtain ⟨-, k, ⟨r', hr'⟩, hlength⟩ := h
  rw [hr] at hr'
  cases hr'
  rwa [← hlength]

/-- There is always a mode. -/
theorem Selector.exists_mode (h : s.Selector system mode) (hs : s.WellTyped rounding)
    (values : SignalId → Value R) : ∃ q, q < system.modes.length ∧ s.InMode values mode q := by
  cases mode with
  | none =>
    have hone : system.modes.length = 1 := h
    exact ⟨0, by omega, by simp [InMode]⟩
  | some a =>
    obtain ⟨ha, k, hk, hlength⟩ := h
    cases hw : s.eval values a with
    | error e =>
      refine ⟨0, hlength ▸ Nat.two_pow_pos k, ?_⟩
      intro b hb w hw'
      rw [← Option.mem_some.1 hb, hw] at hw'
      cases hw'
    | ok w =>
      obtain ⟨q, hq, rfl⟩ := hk.eval_lt hs ha hw
      refine ⟨q, hlength ▸ hq, ?_⟩
      intro b hb w hw'
      rw [← Option.mem_some.1 hb, hw] at hw'
      exact (Except.ok.inj hw').symm

end Store

namespace Simulator

open Model Store

variable {m m' : Model R} {system : ModalSystem R} {inputs states outputs targets : List SignalId}
  {mode : Option NodeId} {p s s' : Simulator R}

/-- In `s'` the targets are the rows of the blocks applied to the states and inputs in `p`, for the
mode that the selector is at in `p`. -/
structure Follows (m : Model R) (system : ModalSystem R) (mode : Option NodeId)
    (stateBlock inputBlock : Block) (inputs states targets : List SignalId) (p s' : Simulator R) :
    Prop where
  exists_mode : ∃ q, q < system.modes.length ∧ m.store.InMode p.value mode q
  target : ∀ q S, m.store.InMode p.value mode q → system.modes[q]? = some S →
    ∀ i x, targets[i]? = some x →
      s'.value x = .real (S.rowValue stateBlock inputBlock i states inputs p.scalar)

/-- The model implements the system. -/
structure Implements (m : Model R) (system : ModalSystem R) (inputs states outputs : List SignalId)
    (mode : Option NodeId) : Prop where
  /-- Every state of a run is settled. -/
  settled : ∀ s, Run m s → m.Settled s.value
  /-- In settled states the outputs are `C x + D u`. -/
  output : ∀ s, Reachable m s → m.Settled s.value →
    Follows m system mode .c .d inputs states outputs s s
  /-- A step makes the states `A x + B u`, from the values right before the edge. These are the ones
  before the step, but for the inputs that it drives and what settles with them. -/
  state : ∀ s s' driven, Reachable m s → outcome (step driven) s = (.ok ⟨⟩, s') →
    ∃ p, (outcome (prepare driven) s = (.ok ⟨⟩, p) ∧ m.Settled p.value ∧
        ∀ x, m.isCombinational x = false → p.value x = s.driven driven x) ∧
      m.Settled s'.value ∧ Follows m system mode .a .b inputs states states p s'

/-- Every row of the system drives its target at a time. -/
def DrivesRows (m : Model R) (system : ModalSystem R) (mode : Option NodeId)
    (stateBlock inputBlock : Block) (inputs states targets : List SignalId)
    (timing : Timing R → Prop) : Prop :=
  ∀ q S v, system.modes[q]? = some S → ∀ p ∈ targets.zipIdx,
    Drives Rounding.any (· ∈ states ++ inputs) mode (.ofMode q) v m timing p.1
      (S.rowValue stateBlock inputBlock p.2 states inputs fun x => v (.signal x))

/-- Targets follow the system if they have the values that the expressions of their rows had. -/
theorem follows_of_drivesRows (hm : m.WellFormed Rounding.any)
    (hmode : m.store.Selector system mode) {stateBlock inputBlock : Block}
    {timing : Timing R → Prop} (hreal : m.AreReal (states ++ inputs)) (htargets : m.AreReal targets)
    (h : DrivesRows m system mode stateBlock inputBlock inputs states targets timing)
    (hvalue : ∀ x e t, timing t → m.assignment? x = some ⟨x, e, t⟩ →
      ∃ u, m.store.eval p.value e = .ok u ∧ s'.value x = u.coerce (m.store.signal x).format) :
    Follows m system mode stateBlock inputBlock inputs states targets p s' where
  exists_mode := hmode.exists_mode hm.store p.value
  target := by
    intro q S hq hS i x hx
    obtain ⟨e, t, ht, hassign, he⟩ := h q S (LinearVar.current p.scalar) hS (x, i)
      (List.mem_zipIdx_iff_getElem?.2 hx)
    obtain ⟨u, hu, hvalue⟩ := hvalue x e t ht hassign
    obtain ⟨hlt, -⟩ := List.getElem?_eq_some_iff.1 hS
    have hmeaning := he.numeric.numeric.eval (ρ := .ofMode q) hm.store
      (fun x _ hx => by rw [coerce_real (hreal x hx).2]; rfl)
      (fun a ha => ⟨hq a ha, hmode.mode_lt hlt a ha⟩) hu
    rw [hvalue, coerce_real (htargets x (List.mem_of_getElem? hx)).2, hmeaning]
    exact congrArg Value.real he.eq

/-- A model implements a system if its rows drive the states at the clock edge and the outputs in
the same cycle. -/
theorem implements_of_drivesRows (hm : m.WellFormed Rounding.any)
    (hmode : m.store.Selector system mode) (hreal : m.AreReal (states ++ inputs))
    (houtputs : m.AreReal outputs)
    (hregisters : DrivesRows m system mode .a .b inputs states states
      (∃ init, · = .nextCycle {} init))
    (hcombinational : DrivesRows m system mode .c .d inputs states outputs (· = .thisCycle)) :
    Implements m system inputs states outputs mode where
  settled s hs := hs.settled hm
  output s _ hs := by
    refine follows_of_drivesRows hm hmode hreal houtputs hcombinational ?_
    rintro x e _ rfl hassign
    exact hs x (isCombinational_iff.2 ⟨_, hassign, rfl⟩) _ hassign
  state s s' driven hs hstep := by
    obtain ⟨p, hprepare, hp, hclocked, hs'⟩ := step_clocked hm hs.running hstep
    obtain ⟨-, hsettled, -, hdriven⟩ := prepare_settled hm hs.running hprepare
    refine ⟨p, ⟨hprepare, hsettled, hdriven⟩, hs',
      follows_of_drivesRows hm hmode hreal (List.forall_mem_append.1 hreal).1 hregisters ?_⟩
    rintro x e _ ⟨init, rfl⟩ hassign
    -- without a reset and an enable the register loads at every edge
    simpa [isHigh, isEnabled] using hclocked.register hp.toOf hassign rfl

end Simulator

/-! ## Composition -/

namespace Model

open Store Simulator

variable {m m' : Model R} {system : ModalSystem R} {inputs states outputs : List SignalId}
  {mode : Option NodeId}

/-- A discrete-time system that is added to a model is implemented by it, whatever else is added
later: outputs and states follow its matrices in every simulation. -/
theorem discreteSystem_implemented [Numerics R] (hb : m.Built fun _ _ => True)
    (hinputs : m.AreReal inputs) (hstates : m.AreReal states) (houtputs : m.AreReal outputs)
    (hmode : m.store.Selector system mode)
    (h : outcome (addDiscreteSystem system inputs states outputs mode {}) m = (.ok ⟨⟩, m'))
    {ops : List (Operation R)} (hops : AllowsAll (fun _ _ => True) m' ops) :
    Implements (m'.performAll ops) system inputs states outputs mode := by
  have hm := hb.wellFormed_any
  have hreal : m.AreReal (states ++ inputs) := List.forall_mem_append.2 ⟨hstates, hinputs⟩
  have hknown : Clocking.Known m.store {} := fun x hx => absurd hx (by simp [Clocking.signals])
  have hadds := (addDiscreteSystem_ends hm hknown system (fun x hx => (hinputs x hx).1)
    (fun x hx => (hstates x hx).1) (fun x hx => (houtputs x hx).1) hmode.lt).elim_ok h
  have hm' := hadds.moves.wellFormed hm
  have hmoves := performAll_moves hm' hops
  have hext := (hadds.extends_store hm).trans (hmoves.store hm'.store).1
  -- the expression of a row is one for all modes and values
  have hdrives := fun q S v (hS : system.modes[q]? = some S) =>
    ((addDiscreteSystem_drives (ρ := .ofMode q) (v := v) hm hS (fun a ha => ⟨hmode.lt a ha, rfl⟩)
      (fun x hx => ⟨(hreal x hx).1, hx⟩) (fun x hx => (houtputs x hx).1) {}).elim_ok h).2
  refine implements_of_drivesRows (hmoves.wellFormed hm') (hmode.of_extends hext)
    (hreal.of_extends hext) (houtputs.of_extends hext) (fun q S v hS p hp => ?_)
    fun q S v hS p hp => ?_
  · exact ((hdrives q S v hS).1 p hp).of_moves hmoves hmoves.store
  · exact ((hdrives q S v hS).2 p hp).of_moves hmoves hmoves.store

/-- A model with an input `u`, a bit `s`, a state `x` and an output `y`. -/
def plantModel : Model ℚ :=
  Model.performAll { name := "m", dt := none } [.analogInput "u", .digitalInput "s" 1 .unsigned,
    .analogState "x" 10 0, .analogOutput "y" 0]

/-- A system with one state that halves. In the first mode the input is cut off, in the second one
it is tripled. The input never reaches the output directly. -/
def leakySystem : ModalSystem ℚ where
  modes := [
    { a := some ⟨1, 1, #[1 / 2]⟩, c := some ⟨1, 1, #[2]⟩, d := some ⟨1, 1, #[0]⟩ },
    { a := some ⟨1, 1, #[1 / 2]⟩, b := some ⟨1, 1, #[3]⟩, c := some ⟨1, 1, #[1]⟩ }]

/-- The plant with the system and a name for the output. -/
def leakyModel : Model ℚ :=
  (outcome (addDiscreteSystem leakySystem [0] [2] [3] (some 1) {}) plantModel).2.performAll
    [.bindName "z" (.signal 3)]

theorem plantModel_computed :
    (plantModel.Built fun _ _ => True) ∧
    (∀ x ∈ [0, 2, 3], x < plantModel.store.signals.size ∧
      (plantModel.store.signal x).format.domain = .real) ∧
    (plantModel.AllowsAll (fun _ _ => True) [
      .discreteSystem leakySystem [0] [2] [3] (some 1) {}, .bindName "z" (.signal 3)]) ∧
    (outcome (addDiscreteSystem leakySystem [0] [2] [3] (some 1) {}) plantModel).1 = .ok ⟨⟩ := by
  refine ⟨.ofOperations ?_, ?_, ?_, ?_⟩
  all_goals decide +kernel

theorem leakyModel_wellFormed : leakyModel.WellFormed Rounding.any := by
  obtain ⟨hb, -, hops, -⟩ := plantModel_computed
  exact (hb.performAll hops).wellFormed_any

theorem leakyModel_computed :
    leakyModel.Complete ∧ (∀ x < 2, (leakyModel.store.signal x).role.isInput = true) ∧
    1 < leakyModel.store.signals.size ∧ leakyModel.store.leaf 1 = 1 ∧
    (leakyModel.store.signal 1).format.isBit = true ∧
    (leakyModel.store.signal 0).format.domain = .real ∧
    (∀ x < 3, leakyModel.isCombinational x = false) ∧
    ((reset leakyModel []).value 2).toScalar = 0 ∧ leakyModel.hasValues = true := by
  refine ⟨CompleteIn.complete (?_ : leakyModel.CompleteIn [3, 4]) leakyModel_wellFormed, ?_⟩
  all_goals decide +kernel

/-- The selector of the plant is its bit. -/
theorem inMode_leaky {values : SignalId → Value ℚ} (h : values 1 = .int 1) :
    leakyModel.store.InMode values (some 1) 1 := by
  obtain ⟨-, hroles, hlt, hleaf, hbit, -⟩ := leakyModel_computed
  have hassigned : (leakyModel.store.signal 1).role.isAuxiliary = false := by
    rw [Role.isInput_iff.1 (hroles 1 (by decide))]
    rfl
  have heval := IsSelector.eval_leaf ⟨hlt, hbit, hassigned⟩ leakyModel_wellFormed.store values
  rw [h, hleaf] at heval
  intro a ha w hw
  rw [← Option.mem_some.1 ha, heval] at hw
  exact (Except.ok.inj hw).symm

/-- Before its first edge the plant has the inputs that are driven and the initial state. -/
theorem leaky_driven {s p : Simulator ℚ} (hstart : start leakyModel = .ok s)
    (h : ∀ x, leakyModel.isCombinational x = false →
      p.value x = s.driven [(0, .real 4), (1, .int 1)] x) :
    p.scalar 0 = 4 ∧ p.value 1 = .int 1 ∧ p.scalar 2 = 0 := by
  have hmodel := (Reachable.start hstart).running.model
  obtain ⟨-, -, -, -, hbit, hreal, hsequential, hinitial, -⟩ := leakyModel_computed
  refine ⟨?_, ?_, ?_⟩
  · rw [scalar, h 0 (hsequential 0 (by decide))]
    simp only [driven, List.foldl_cons, List.foldl_nil, hmodel, ↓reduceIte, one_ne_zero]
    rw [coerce_real hreal]
    rfl
  · rw [h 1 (hsequential 1 (by decide))]
    simp only [driven, List.foldl_cons, List.foldl_nil, hmodel, ↓reduceIte]
    rw [Value.coerce_of_isBit hbit]
    rfl
  · obtain ⟨order, horder, -, hsettle⟩ := start_eq_ok_iff.1 hstart
    have h2 := hsequential 2 (by decide)
    have hkept := ((settle_settled leakyModel_wellFormed (running_reset horder)).elim_ok
      hsettle).1.value 2 (by simp [h2])
    have hs : s.driven [(0, .real 4), (1, .int 1)] 2 = s.value 2 := rfl
    rw [scalar, h 2 h2, hs, hkept]
    exact hinitial

/-- In the second mode the input 4 makes the state 12. -/
theorem discreteSystem_implemented_leaky :
    (plantModel.Built fun _ _ => True) ∧ plantModel.AreReal [0] ∧ plantModel.AreReal [2] ∧
    plantModel.AreReal [3] ∧ plantModel.store.Selector leakySystem (some 1) ∧
    (outcome (addDiscreteSystem leakySystem [0] [2] [3] (some 1) {}) plantModel).1 = .ok ⟨⟩ ∧
    Implements leakyModel leakySystem [0] [2] [3] (some 1) ∧
    ∃ s s', start leakyModel = .ok s ∧
      outcome (step [(0, .real 4), (1, .int 1)]) s = (.ok ⟨⟩, s') ∧ s'.value 2 = .real 12 := by
  obtain ⟨hb, hreal, hops, hok⟩ := plantModel_computed
  obtain ⟨hcomplete, hroles, -, -, -, -, -, -, hvalues⟩ := leakyModel_computed
  have hu : plantModel.AreReal [0] := fun x hx => hreal x (by simp_all)
  have hx : plantModel.AreReal [2] := fun x hx => hreal x (by simp_all)
  have hy : plantModel.AreReal [3] := fun x hx => hreal x (by simp_all)
  have hmode : plantModel.store.Selector leakySystem (some 1) :=
    ⟨by decide +kernel, 1, ⟨_, by with_unfolding_all rfl⟩, rfl⟩
  have himplements : Implements leakyModel leakySystem [0] [2] [3] (some 1) :=
    discreteSystem_implemented hb hu hx hy hmode (Prod.ext hok rfl) hops.2.2
  have hm := leakyModel_wellFormed
  obtain ⟨s, hstart⟩ := exists_start hm hcomplete hvalues
  have hs := Reachable.start hstart
  have hinputs : ∀ input ∈ [((0 : SignalId), (.real 4 : Value ℚ)), (1, .int 1)],
      (leakyModel.store.signal input.1).role = .input := by
    simpa using ⟨Role.isInput_iff.1 (hroles 0 (by decide)),
      Role.isInput_iff.1 (hroles 1 (by decide))⟩
  obtain ⟨_, s', hstep, -⟩ :=
    (step_progress hm (hcomplete.evaluable hm) hs.running hinputs).succeeds
  refine ⟨hb, hu, hx, hy, hmode, hok, himplements, s, s', hstart, hstep, ?_⟩
  obtain ⟨p, ⟨-, -, hdriven⟩, -, hfollows⟩ := himplements.state s s' _ hs hstep
  obtain ⟨h0, h1, h2⟩ := leaky_driven hstart hdriven
  rw [hfollows.target 1 _ (inMode_leaky h1) rfl 0 2 rfl]
  norm_num [StateSpace.rowValue, StateSpace.coefficient, StateSpace.block, DenseMatrix.get,
    DenseMatrix.get?, h0, h2]

end Model

end MixedSignal
