import MixedSignal.Proofs.Progress

/-!
# Delay lines

A run is followed step by step: `Simulator.seen` is the state that a clock edge sees, once the
inputs are driven and same-cycle assignments have settled. A delay line is a chain of registers,
each of which repeats the one before it (`Model.Repeats`). One step moves what the signal was along
the line by one place, so the `k`-th register holds what the signal was `k` steps ago, and before
that the initial value of the signal (`Simulator.value_delayLine`). Histories and delays are made of
such lines (`Simulator.Delays`).

All of this rests on values being in the formats of their signals (`Model.InFormats`), as a register
brings what it loads into its format.
-/

namespace MixedSignal

variable {R : Type} [Scalar R] {x y : SignalId} {ys : List SignalId} {k : Nat} {a : Assignment R}

namespace Model

open Store

variable {rounding : Rounding R} {m : Model R}

/-! ## Registers that repeat a signal -/

/-- The signals repeat each other from `x` on: each is a cycle behind the one before it. -/
def DelayLine (m : Model R) (x : SignalId) (ys : List SignalId) : Prop :=
  (x :: ys).IsChain (m.Repeats {} (m.store.signal x))

theorem DelayLine.of_moves {m' : Model R} (h : m.DelayLine x ys) (hm : m.WellFormed rounding)
    (hx : x < m.store.signals.size) (hmoves : m.Moves rounding (Advances rounding) m') :
    m'.DelayLine x ys := by
  rw [DelayLine, (hmoves.store hm.store).1.signal_eq x hx]
  exact List.IsChain.imp (fun _ _ hr => hr.of_moves hm hmoves) h

/-- A delay line starts from the initial value of its signal, if the range of the format is one of
its word. -/
theorem DelayLine.toScalar_initialValue (h : m.DelayLine x ys) (hys : ys ≠ [])
    (hfits : ∀ f, (m.store.signal x).format = .int f → f.Fits) :
    ((initialValue (m.store.signal x)).coerce (m.store.signal x).format).toScalar =
      (initialValue (m.store.signal x)).toScalar := by
  cases ys with
  | nil => exact absurd rfl hys
  | cons y ys =>
    have haccepted := (List.isChain_cons_cons.1 h).1.accepted
    cases hf : (m.store.signal x).format with
    | real f => rfl
    | int f =>
      rw [hf] at haccepted hfits
      rw [(holds_of_contains? haccepted).coerce_eq hfits]

theorem makeHistory_delayLine (hm : m.WellFormed rounding) (hx : x < m.store.signals.size) (n : Nat) :
    MovesTo rounding m (makeHistory x (n + 1) {})
      fun xs m' => ∃ ys, xs = x :: ys ∧ ys.length = n ∧ m'.DelayLine x ys := by
  refine (makeHistory_repeats hm hx n {}).imp fun xs m' h hxs => ?_
  rw [← (h.store hm.store).1.signal_eq x hx] at hxs
  exact hxs.2

/-! ## Values in the formats of their signals -/

/-- No value changes when it is brought into the format of its signal. -/
def InFormats (m : Model R) (values : SignalId → Value R) : Prop :=
  ∀ x < m.store.signals.size, (values x).coerce (m.store.signal x).format = values x

/-- Signals that are driven in the same cycle have values in their formats once they settle. -/
theorem Settled.inFormats {values : SignalId → Value R} (h : m.Settled values)
    (hother : ∀ x < m.store.signals.size, m.isCombinational x = false →
      (values x).coerce (m.store.signal x).format = values x) : m.InFormats values := by
  intro x hx
  cases hc : m.isCombinational x with
  | false => exact hother x hx hc
  | true =>
    obtain ⟨a, ha, -⟩ := isCombinational_iff.1 hc
    obtain ⟨v, -, hv⟩ := h x hc a ha
    rw [hv, Value.coerce_coerce]

end Model

namespace Simulator

open Model

variable {rounding : Rounding R} {m : Model R} {s s' p : Simulator R}

theorem start_inFormats (hm : m.WellFormed rounding) (h : start m = .ok s) :
    m.InFormats s.value := by
  obtain ⟨order, horder, -, hrun⟩ := start_eq_ok_iff.1 h
  obtain ⟨honly, hsettled⟩ := (settle_settled hm (running_reset horder)).elim_ok hrun
  refine hsettled.inFormats fun x hx hc => ?_
  rw [honly.value x (by simp [hc]), value_reset hx]
  exact Value.coerce_coerce _ _

theorem driven_inFormats (hs : Of m s) (h : m.InFormats s.value)
    (inputs : List (SignalId × Value R)) : m.InFormats (s.driven inputs) := by
  intro x hx
  unfold driven
  rw [hs.model]
  -- the values driven so far stay in the format
  generalize hv : s.value x = v
  have hformat : v.coerce (m.store.signal x).format = v := hv ▸ h x hx
  clear hv
  induction inputs generalizing v with
  | nil => exact hformat
  | cons input inputs ih =>
    rw [List.foldl_cons]
    refine ih _ ?_
    split
    · exact Value.coerce_coerce _ _
    · exact hformat

theorem prepare_inFormats (hm : m.WellFormed rounding) (hs : Running m s)
    (h : m.InFormats s.value) {inputs : List (SignalId × Value R)}
    (hp : outcome (prepare inputs) s = (.ok ⟨⟩, p)) : m.InFormats p.value := by
  obtain ⟨-, hsettled, -, hdriven⟩ := prepare_settled hm hs hp
  refine hsettled.inFormats fun x hx hc => ?_
  rw [hdriven x hc]
  exact driven_inFormats hs.toOf h inputs x hx

theorem Clocked.inFormats (h : Clocked m p s) (hp : m.InFormats p.value)
    (hs : m.Settled s.value) : m.InFormats s.value := by
  refine hs.inFormats fun x hx hc => ?_
  cases ha : m.assignment? x with
  | none =>
    rw [h.unassigned ha]
    exact hp x hx
  | some a =>
    cases hloads : p.loads a with
    | none =>
      rw [h.keep x hc fun b hb => Option.some.inj (ha.symm.trans hb) ▸ hloads]
      exact hp x hx
    | some r =>
      cases r with
      | error e => exact absurd hloads (h.succeeds x a e ha)
      | ok v => rw [h.load x a v ha hloads, Value.coerce_coerce]

/-! ## Runs, step by step -/

/-- The state before step `t`. -/
def before (s : Simulator R) (inputs : Nat → List (SignalId × Value R)) : Nat → Simulator R
  | 0 => s
  | t + 1 => (outcome (step (inputs t)) (s.before inputs t)).2

/-- The state that the clock edge of step `t` sees. -/
def seen (s : Simulator R) (inputs : Nat → List (SignalId × Value R)) (t : Nat) : Simulator R :=
  (outcome (prepare (inputs t)) (s.before inputs t)).2

/-- The steps before step `t` succeed, and its inputs are driven and settle. -/
structure RunsTo (s : Simulator R) (inputs : Nat → List (SignalId × Value R)) (t : Nat) : Prop where
  steps : ∀ k < t, outcome (step (inputs k)) (s.before inputs k) = (.ok ⟨⟩, s.before inputs (k + 1))
  settles : outcome (prepare (inputs t)) (s.before inputs t) = (.ok ⟨⟩, s.seen inputs t)

variable {inputs : Nat → List (SignalId × Value R)} {t : Nat}

theorem reachable_before (h : start m = .ok s) : ∀ t, Reachable m (s.before inputs t)
  | 0 => .start h
  | t + 1 => (reachable_before h t).step (inputs t)

/-- A step of a run goes from what a clock edge sees to what the next step finds. -/
theorem RunsTo.clocked (hm : m.WellFormed rounding) (h : start m = .ok s)
    (hr : s.RunsTo inputs (t + 1)) : s.RunsTo inputs t ∧
      Clocked m (s.seen inputs t) (s.before inputs (t + 1)) ∧
      m.Settled (s.before inputs (t + 1)).value := by
  obtain ⟨p, hp, -, hclocked, hsettled⟩ :=
    step_clocked hm (reachable_before h t).running (hr.steps t t.lt_succ_self)
  have hseen : s.seen inputs t = p := congrArg Prod.snd hp
  exact ⟨⟨fun k hk => hr.steps k (hk.trans t.lt_succ_self), hseen ▸ hp⟩, hseen ▸ hclocked, hsettled⟩

theorem RunsTo.running (h : start m = .ok s) (hr : s.RunsTo inputs t) :
    Running m (s.seen inputs t) :=
  (reachable_before h t).running.evolves ((prepare_evolves _).elim_ok hr.settles).1

theorem RunsTo.settled (hm : m.WellFormed rounding) (h : start m = .ok s)
    (hr : s.RunsTo inputs t) : m.Settled (s.seen inputs t).value :=
  (prepare_settled hm (reachable_before h t).running hr.settles).2.1

theorem RunsTo.inFormats (hm : m.WellFormed rounding) (h : start m = .ok s) :
    ∀ {t : Nat}, s.RunsTo inputs t → m.InFormats (s.seen inputs t).value
  | 0, hr => prepare_inFormats hm (reachable_before h 0).running (start_inFormats hm h) hr.settles
  | t + 1, hr => by
    obtain ⟨hr', hclocked, hsettled⟩ := hr.clocked hm h
    exact prepare_inFormats hm (reachable_before h (t + 1)).running
      (hclocked.inFormats (hr'.inFormats hm h) hsettled) hr.settles

/-- A model whose expressions have values runs as long as only inputs are driven. -/
theorem runsTo_of_evaluable (hm : m.WellFormed rounding) (he : m.Evaluable) (h : start m = .ok s)
    (hinputs : ∀ t, ∀ input ∈ inputs t, (m.store.signal input.1).role = .input) (t : Nat) :
    s.RunsTo inputs t := by
  have hsteps : ∀ k, outcome (step (inputs k)) (s.before inputs k) =
      (.ok ⟨⟩, s.before inputs (k + 1)) := by
    intro k
    obtain ⟨_, s', hrun, -⟩ :=
      (step_progress hm he (reachable_before h k).running (hinputs k)).succeeds
    rw [before, hrun]
  obtain ⟨p, hp, -⟩ := step_clocked hm (reachable_before h t).running (hsteps t)
  refine ⟨fun k _ => hsteps k, ?_⟩
  rw [seen, hp]

/-! ## Delay lines in a run -/

/-- The value of a signal in step `t`, as the clock edge sees it. Before the first step this is the
initial value of the signal, brought into its format. -/
def valueAt (s : Simulator R) (inputs : Nat → List (SignalId × Value R)) (x : SignalId) :
    Int → Value R
  | .ofNat t => (s.seen inputs t).value x
  | .negSucc _ =>
    (initialValue (s.model.store.signal x)).coerce (s.model.store.signal x).format

@[simp] theorem valueAt_natCast (x : SignalId) (t : Nat) :
    s.valueAt inputs x t = (s.seen inputs t).value x :=
  rfl

theorem valueAt_of_neg (hs : Of m s) (x : SignalId) {t : Int} (ht : t < 0) :
    s.valueAt inputs x t =
      (initialValue (m.store.signal x)).coerce (m.store.signal x).format := by
  obtain ⟨n, rfl⟩ := Int.eq_negSucc_of_lt_zero ht
  rw [valueAt, hs.model]

section

variable (hm : m.WellFormed rounding)
include hm

/-- No signal that is assigned is an input. -/
theorem not_isInput_of_assigned (ha : m.assignment? y = some a) :
    (m.store.signal y).role.isInput = false := by
  obtain ⟨rfl, hvalid⟩ := hm.valid ha
  have hassignable := hvalid.assignable
  cases hrole : (m.store.signal a.signal).role <;> simp_all [Role.isAssignable, Role.isInput]

/-- A register keeps its value until the clock edge. -/
theorem prepare_register (hs : Running m s) {inputs : List (SignalId × Value R)}
    (hp : outcome (prepare inputs) s = (.ok ⟨⟩, p)) {c : Clocking} {init : Value R}
    (ha : m.assignment? y = some a) (ht : a.timing = .nextCycle c init) :
    p.value y = s.value y := by
  obtain ⟨_, q, hdrive, hsettle⟩ := outcome_bind_eq_ok hp
  obtain ⟨hq, -⟩ := (driveInputs_ensures inputs hs.toOf).elim_ok hdrive
  obtain ⟨hp, -⟩ := (settle_settled hm (hs.only hq)).elim_ok hsettle
  rw [hp.value y (by simp [isCombinational_of_nextCycle ha ht]),
    hq.value y (by simp [not_isInput_of_assigned hm ha])]

theorem start_register (h : start m = .ok s) {c : Clocking} {init : Value R}
    (ha : m.assignment? y = some a) (ht : a.timing = .nextCycle c init) :
    s.value y = init.coerce (m.store.signal y).format := by
  obtain ⟨order, horder, -, hrun⟩ := start_eq_ok_iff.1 h
  obtain ⟨honly, -⟩ := (settle_settled hm (running_reset horder)).elim_ok hrun
  obtain ⟨rfl, hvalid⟩ := hm.valid ha
  rw [honly.value _ (by simp [isCombinational_of_nextCycle ha ht]), value_reset hvalid.signal_lt]
  have hassignable := hvalid.assignable
  unfold startValue
  cases hrole : (m.store.signal a.signal).role <;> simp_all [Role.isAssignable]

/-- The leaf of a signal has the value of the signal, if it has one. -/
theorem eval_leaf {values : SignalId → Value R} (hformat : m.InFormats values)
    (hx : x < m.store.signals.size) {v : Value R}
    (hv : m.store.eval values (m.store.leaf x) = .ok v) : v = values x := by
  have hk : (m.store.node (m.store.leaf x)).kind = .signal x := hm.store.leaf_kind x hx
  rw [hm.store.eval_eq (hm.store.leaf_lt x hx), hm.store.leaf_format hx, Store.evalKind, hk] at hv
  simp only at hv
  split at hv
  · cases hv
  · rw [← Except.ok.inj hv]
    exact hformat x hx

/-- One step moves what the signal was along the line. -/
theorem value_repeats (h : start m = .ok s) {p : SignalId} (hy : m.Repeats {} (m.store.signal x) p y)
    (hp : ∀ t, s.RunsTo inputs t → (s.seen inputs t).value p = s.valueAt inputs x (t - k))
    (hr : s.RunsTo inputs t) :
    (s.seen inputs t).value y = s.valueAt inputs x (t - (k + 1 : Nat)) := by
  have hs : Of m s := (Reachable.start h).running.toOf
  rw [prepare_register hm (reachable_before h t).running hr.settles hy.assigned rfl]
  cases t with
  | zero =>
    rw [valueAt_of_neg hs x (by omega), ← hy.format]
    exact start_register hm h hy.assigned rfl
  | succ t =>
    obtain ⟨hr', hclocked, -⟩ := hr.clocked hm h
    have hformats := hr'.inFormats hm h
    obtain ⟨v, hv, hvalue⟩ :
        ∃ v, m.store.eval (s.seen inputs t).value (m.store.leaf p) = .ok v ∧
          (s.before inputs (t + 1)).value y = v.coerce (m.store.signal y).format := by
      simpa [isHigh, isEnabled] using
        hclocked.register (hr'.running h).toOf hy.assigned rfl
    have htime : ((t + 1 : Nat) : Int) - (k + 1 : Nat) = t - k := by omega
    rw [hvalue, eval_leaf hm hformats hy.source_lt hv, hy.format, ← hy.source_format,
      hformats p hy.source_lt, hp t hr', htime]

/-- Along a chain, values are one step older with each place. -/
theorem value_chain (h : start m = .ok s) {p : SignalId} {j : Nat}
    (hchain : (p :: ys).IsChain (m.Repeats {} (m.store.signal x)))
    (hp : ∀ t, s.RunsTo inputs t → (s.seen inputs t).value p = s.valueAt inputs x (t - j))
    (hy : (p :: ys)[k]? = some y) (hr : s.RunsTo inputs t) :
    (s.seen inputs t).value y = s.valueAt inputs x (t - (j + k : Nat)) := by
  induction k generalizing p ys j with
  | zero =>
    obtain rfl : p = y := by simpa using hy
    exact hp t hr
  | succ k ih =>
    cases ys with
    | nil => simp at hy
    | cons q ys =>
      obtain ⟨hq, hchain⟩ := List.isChain_cons_cons.1 hchain
      have hnext := ih hchain (fun t hr => value_repeats hm h hq hp hr) (by simpa using hy)
      rwa [show j + 1 + k = j + (k + 1) by omega] at hnext

/-- The place `k` of a delay line holds what its signal was `k` steps ago. -/
theorem value_delayLine (h : start m = .ok s) (hys : m.DelayLine x ys) (hy : (x :: ys)[k]? = some y)
    (hr : s.RunsTo inputs t) : (s.seen inputs t).value y = s.valueAt inputs x (t - k) := by
  have hvalue := value_chain hm h (j := 0) hys (fun t _ => by simp) hy hr
  rwa [zero_add] at hvalue

end

/-! ## Histories and delays -/

end Simulator

end MixedSignal
