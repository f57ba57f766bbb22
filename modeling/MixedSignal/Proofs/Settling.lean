import MixedSignal.Proofs.Dependency
import MixedSignal.Proofs.Exact
import MixedSignal.Proofs.Modelling
import MixedSignal.Simulator

/-!
# Settled states

A valuation is settled if every signal that is driven in the same cycle has the value of its
expression. In a dependency order the expression of a signal reads no signal that comes later, so
one pass settles a state (`settle_settled`), the settled valuation with given values of the other
signals is unique (`Settled.unique`), and a pass in any order finds it if there is one
(`settle_of_settled`).
-/

set_option linter.unusedSectionVars false

namespace MixedSignal

variable {R : Type} [Scalar R] {x : SignalId} {a : Assignment R} {values : SignalId → Value R}

namespace Model

open Dependency

variable {m : Model R}

/-! ## The order of same-cycle assignments -/

theorem isCombinational_iff : m.isCombinational x = true ↔
    ∃ a, m.assignment? x = some a ∧ a.timing = .thisCycle := by
  unfold isCombinational assignment?
  cases m.assignments.get? x with
  | none => simp
  | some a =>
    cases ha : a.timing <;> simp [Assignment.isCombinational, ha]

theorem isCombinational_of_nextCycle {c : Clocking} {init : Value R} (ha : m.assignment? x = some a)
    (ht : a.timing = .nextCycle c init) : m.isCombinational x = false := by
  cases hc : m.isCombinational x with
  | false => rfl
  | true =>
    obtain ⟨b, hb, htiming⟩ := isCombinational_iff.1 hc
    obtain rfl := Option.some.inj (ha.symm.trans hb)
    rw [ht] at htiming
    cases htiming

theorem mem_combinationalReads {y : SignalId} (ha : m.assignment? x = some a) :
    y ∈ m.combinationalReads x ↔ y ∈ m.store.signalsIn a.expr ∧ m.isCombinational y = true := by
  have ha : m.assignments.get? x = some a := ha
  simp [combinationalReads, ha]

/-- The order lists the signals driven in the same cycle, each once and after those it reads. -/
structure ValidOrder (m : Model R) (order : List SignalId) : Prop where
  ordered : Ordered m.combinationalReads order
  mem_iff : ∀ x, x ∈ order ↔ m.isCombinational x = true

/-- The signals driven in the same cycle. -/
theorem mem_combinational (x : SignalId) :
    x ∈ m.assignments.keys.filter m.isCombinational ↔ m.isCombinational x = true := by
  rw [List.mem_filter]
  refine ⟨And.right, fun hx => ⟨?_, hx⟩⟩
  obtain ⟨a, ha, -⟩ := isCombinational_iff.1 hx
  exact List.mem_map_of_mem (f := Prod.fst) (OrderedMap.mem_entries_of_get? ha)

theorem combinationalReads_mem (x y : SignalId) (hy : y ∈ m.combinationalReads x) :
    y ∈ m.assignments.keys.filter m.isCombinational := by
  rw [mem_combinational]
  unfold combinationalReads at hy
  split at hy
  · exact List.of_mem_filter hy
  · cases hy

theorem combinationalOrder_ok {order : List SignalId} (h : m.combinationalOrder = .ok order) :
    m.ValidOrder order := by
  unfold combinationalOrder at h
  simp only at h
  split at h
  · rename_i order' horder
    obtain rfl := Except.ok.inj h
    obtain ⟨hordered, hall, hsubset⟩ := dependencyOrder_ok
      (fun v _ w => combinationalReads_mem v w) le_rfl (fun _ => id) horder
    exact ⟨hordered, fun x => ⟨fun hx => (mem_combinational x).1 (hsubset x hx),
      fun hx => hall x ((mem_combinational x).2 hx)⟩⟩
  · cases h

theorem combinationalOrder_error {e : EmitError} (h : m.combinationalOrder = .error e) :
    ∃ x, m.isCombinational x = true ∧ OnCycle m.combinationalReads x := by
  unfold combinationalOrder at h
  simp only at h
  split at h
  · cases h
  · rename_i cycle hcycle
    obtain ⟨x, hx, hcycle⟩ := dependencyOrder_error
      (fun v _ w => combinationalReads_mem v w) le_rfl (fun _ => id) hcycle
    exact ⟨x, (mem_combinational x).1 hx, hcycle⟩

/-! ## Settled valuations -/

/-- The signal has the value of its expression, brought into its format. -/
def SettledAt (m : Model R) (values : SignalId → Value R) (x : SignalId) : Prop :=
  ∀ a, m.assignment? x = some a →
    ∃ v, m.store.eval values a.expr = .ok v ∧ values x = v.coerce (m.store.signal x).format

/-- All signals driven in the same cycle have the values of their expressions. -/
def Settled (m : Model R) (values : SignalId → Value R) : Prop :=
  ∀ x, m.isCombinational x = true → m.SettledAt values x

/-- An expression reads driven signals of an order and signals that are not driven in the same
cycle. -/
theorem eval_congr_of_reads {values' : SignalId → Value R} {order : List SignalId}
    (ha : m.assignment? x = some a) (hreads : ∀ y ∈ m.combinationalReads x, y ∈ order)
    (horder : ∀ y ∈ order, values y = values' y)
    (hother : ∀ y, m.isCombinational y = false → values y = values' y) :
    m.store.eval values a.expr = m.store.eval values' a.expr := by
  refine Store.eval_congr a.expr fun y hy => ?_
  cases hc : m.isCombinational y with
  | false => exact hother y hc
  | true => exact horder y (hreads y ((mem_combinationalReads ha).2 ⟨hy, hc⟩))

/-- Settled valuations agree if they do so on the signals that are not driven in the same cycle. -/
theorem Settled.unique {order : List SignalId} (ho : m.ValidOrder order)
    {values' : SignalId → Value R} (h : m.Settled values) (h' : m.Settled values')
    (hother : ∀ x, m.isCombinational x = false → values x = values' x) : values = values' := by
  have hagree : ∀ order, Ordered m.combinationalReads order →
      (∀ x ∈ order, m.isCombinational x = true) → ∀ x ∈ order, values x = values' x := by
    intro order ho
    induction ho with
    | nil => simp
    | @snoc order v _ _ hv ih =>
      intro hcomb x hx
      have ih := ih fun y hy => hcomb y (List.mem_append_left _ hy)
      rcases List.mem_append.1 hx with hx | hx
      · exact ih x hx
      · obtain rfl := List.mem_singleton.1 hx
        have hc := hcomb x (by simp)
        obtain ⟨a, ha, -⟩ := isCombinational_iff.1 hc
        obtain ⟨w, hw, hx⟩ := h x hc a ha
        obtain ⟨w', hw', hx'⟩ := h' x hc a ha
        rw [eval_congr_of_reads ha hv ih hother, hw'] at hw
        rw [hx, hx', Except.ok.inj hw]
  funext x
  cases hc : m.isCombinational x with
  | false => exact hother x hc
  | true => exact hagree order ho.ordered (fun y => (ho.mem_iff y).1) x ((ho.mem_iff x).2 hc)

end Model

namespace Simulator

open Dependency Model

variable {rounding : Rounding R} {m : Model R} {s s' : Simulator R} {p q : SignalId → Prop}

/-! ## Values -/

theorem value_setValue_self (hx : x < s.values.size) (v : Value R) :
    (s.setValue x v).value x = v.coerce (s.model.store.signal x).format := by
  simp [value, setValue, Array.getD, hx]

theorem value_setValue_of_ne {y : SignalId} (h : y ≠ x) (v : Value R) :
    (s.setValue x v).value y = s.value y := by
  simp [value, setValue, Array.getD_eq_getD_getElem?, Array.getElem?_setIfInBounds_ne h.symm]

/-- Only values of the given signals may change. -/
structure Only (p : SignalId → Prop) (s s' : Simulator R) : Prop where
  model : s'.model = s.model
  order : s'.order = s.order
  cycle : s'.cycle = s.cycle
  size : s'.values.size = s.values.size
  value : ∀ x, ¬p x → s'.value x = s.value x

instance : Std.Refl (Only (R := R) p) := ⟨fun _ => ⟨rfl, rfl, rfl, rfl, fun _ _ => rfl⟩⟩

instance : IsTrans (Simulator R) (Only p) where
  trans _ _ _ h h' := ⟨h'.model.trans h.model, h'.order.trans h.order, h'.cycle.trans h.cycle,
    h'.size.trans h.size, fun x hx => (h'.value x hx).trans (h.value x hx)⟩

theorem Only.mono (h : Only p s s') (hpq : ∀ x, p x → q x) : Only q s s' :=
  ⟨h.model, h.order, h.cycle, h.size, fun x hx => h.value x fun hp => hx (hpq x hp)⟩

theorem only_setValue (hx : p x) (v : Value R) : Only p s (s.setValue x v) := by
  refine ⟨rfl, rfl, rfl, by simp [setValue], fun y hy => value_setValue_of_ne ?_ v⟩
  rintro rfl
  exact hy hx

/-- There is a value for each signal of the model. -/
structure Of (m : Model R) (s : Simulator R) : Prop where
  model : s.model = m
  size : s.values.size = m.store.signals.size

theorem Of.only (h : Of m s) (h' : Only p s s') : Of m s' :=
  ⟨h'.model.trans h.model, h'.size.trans h.size⟩

theorem Of.eval (h : Of m s) (i : NodeId) : s.eval i = m.store.eval s.value i := by
  rw [Simulator.eval, h.model]

/-! ## Same-cycle assignments -/

theorem evaluate_ok {memo : Store.Memo R} (hmemo : s.model.store.Remembers s.value memo)
    {i : NodeId} {v : Value R} (hv : s.eval i = .ok v) :
    ∃ memo', outcome (evaluate memo i) s = (.ok (v, memo'), s) ∧
      s.model.store.Remembers s.value memo' := by
  have h := s.model.store.evalShared_agrees s.value i memo hmemo
  rw [show s.model.store.eval s.value i = .ok v from hv] at h
  obtain ⟨memo', hrun, hmemo'⟩ := h
  refine ⟨memo', ?_, hmemo'⟩
  unfold evaluate
  rw [outcome_get_bind]
  have hfrom : s.evalFrom memo i = .ok (v, memo') := hrun
  simp only [hfrom, outcome_pure]

theorem evaluate_error {memo : Store.Memo R} (hmemo : s.model.store.Remembers s.value memo)
    {i : NodeId} {e : EmitError} (he : s.eval i = .error e) :
    outcome (evaluate memo i) s = (.error (.emit e), s) := by
  have h := s.model.store.evalShared_agrees s.value i memo hmemo
  rw [show s.model.store.eval s.value i = .error e from he] at h
  unfold evaluate
  rw [outcome_get_bind]
  have hfrom : s.evalFrom memo i = .error e := h
  simp only [hfrom, outcome_throw]

theorem remembers_empty (values : SignalId → Value R) (store : Store R) :
    store.Remembers values {} := by
  intro i v hi
  simp at hi

/-- A same-cycle assignment gives its signal the value of the expression, or fails with it. -/
theorem settleSignal_ensures (hs : Of m s) (hm : m.WellFormed rounding)
    (ha : m.assignment? x = some a) (hx : p x) :
    Ensures (Only p) (settleSignal x) s (fun _ => ∃ e, m.store.eval s.value a.expr = .error e)
      fun _ s' => ∃ v, m.store.eval s.value a.expr = .ok v ∧
        s'.value x = v.coerce (m.store.signal x).format ∧ ∀ y, y ≠ x → s'.value y = s.value y := by
  have hlt : x < s.values.size := by
    obtain ⟨rfl, hvalid⟩ := hm.valid ha
    rw [hs.size]
    exact hvalid.signal_lt
  have ha' : s.model.assignment? x = some a := by rw [hs.model, ha]
  unfold settleSignal
  refine Ensures.get_bind ?_
  simp only [ha']
  rw [← hs.eval]
  cases hv : s.eval a.expr with
  | ok v =>
    obtain ⟨memo, hrun, -⟩ := evaluate_ok (remembers_empty _ _) hv
    refine Ensures.of_ok (outcome_bind_ok hrun) (only_setValue hx v) ⟨v, rfl, ?_, ?_⟩
    · rw [value_setValue_self hlt, hs.model]
    · exact fun y hy => value_setValue_of_ne hy v
  | error e =>
    refine Ensures.of_error (outcome_bind_error (evaluate_error (remembers_empty _ _) hv))
      (refl_of _ s) ⟨e, rfl⟩

section

variable (hm : m.WellFormed rounding) {order : List SignalId}
  (ho : Ordered m.combinationalReads order) (hcomb : ∀ x ∈ order, m.isCombinational x = true)
  (hs : Of m s)
include hm ho hcomb hs

/-- One pass over a dependency order settles its signals. A signal that was settled stays so, as its
expression reads no signal that comes later. -/
theorem forM_settle_ensures :
    Ensures (Only (· ∈ order)) (order.forM settleSignal) s (fun _ => True) fun _ s' =>
      ∀ x ∈ order, m.SettledAt s'.value x := by
  induction ho with
  | nil => exact Ensures.pure (by simp)
  | @snoc order v ho hfresh hv ih =>
    have ih := ih fun x hx => hcomb x (List.mem_append_left _ hx)
    have ih' : Ensures (Only (· ∈ order ++ [v])) (order.forM settleSignal) s (fun _ => True)
        fun _ s' => Only (· ∈ order) s s' ∧ ∀ x ∈ order, m.SettledAt s'.value x :=
      ih.mono (fun t ht => ht.mono fun x hx => List.mem_append_left _ hx) (fun _ => id)
        fun _ t ht hsettled => ⟨ht, hsettled⟩
    refine ih'.forM_concat fun t _ ht => ?_
    obtain ⟨hst, hsettled⟩ := ht
    have hcv := hcomb v (by simp)
    obtain ⟨a, ha, -⟩ := isCombinational_iff.1 hcv
    refine ((settleSignal_ensures (hs.only hst) hm ha (by simp)).mono (fun _ => id)
      (fun _ _ => trivial) fun _ u _ hu x hx => ?_)
    obtain ⟨w, hw, hself, hother⟩ := hu
    have hread : ∀ x b, m.assignment? x = some b → v ∉ m.combinationalReads x →
        m.store.eval u.value b.expr = m.store.eval t.value b.expr := by
      intro x b hb hnot
      refine Store.eval_congr b.expr fun y hy => hother y ?_
      rintro rfl
      exact hnot ((mem_combinationalReads hb).2 ⟨hy, hcv⟩)
    rcases List.mem_append.1 hx with hx | hx
    · intro b hb
      obtain ⟨w', hw', hx'⟩ := hsettled x hx b hb
      refine ⟨w', ?_, ?_⟩
      · rw [hread x b hb fun hmem => hfresh (ho.children_mem x hx v hmem), hw']
      · rw [hother x fun heq => hfresh (heq ▸ hx), hx']
    · obtain rfl := List.mem_singleton.1 hx
      intro b hb
      rw [ha] at hb
      obtain rfl := Option.some.inj hb
      refine ⟨w, ?_, hself⟩
      rw [hread x a ha fun hmem => hfresh (hv x hmem), hw]

/-- A pass over a dependency order finds a settled valuation with the same values of other signals.
-/
theorem forM_settle_of_settled (hvalues : m.Settled values)
    (hother : ∀ x, m.isCombinational x = false → s.value x = values x) :
    Ensures (Only fun x => m.isCombinational x = true) (order.forM settleSignal) s (fun _ => False)
      fun _ s' => ∀ x ∈ order, s'.value x = values x := by
  induction ho with
  | nil => exact Ensures.pure (by simp)
  | @snoc order v ho hfresh hv ih =>
    refine (ih fun x hx => hcomb x (List.mem_append_left _ hx)).forM_concat fun t ht hvals => ?_
    have hcv := hcomb v (by simp)
    obtain ⟨a, ha, -⟩ := isCombinational_iff.1 hcv
    obtain ⟨w, hw, hvw⟩ := hvalues v hcv a ha
    have hother' : ∀ x, m.isCombinational x = false → t.value x = values x := by
      intro x hx
      rw [ht.value x (by simp [hx]), hother x hx]
    have heval := eval_congr_of_reads ha hv hvals hother'
    refine (settleSignal_ensures (hs.only ht) hm ha hcv).mono (fun _ => id) ?_ ?_
    · rintro _ ⟨e, he⟩
      rw [heval, hw] at he
      cases he
    · rintro _ u - ⟨w', hw', hself, hne⟩ x hx
      rw [heval, hw] at hw'
      obtain rfl := Except.ok.inj hw'
      by_cases hxv : x = v
      · rw [hxv, hself, hvw]
      · have hx' : x ∈ order := by simpa [hxv] using hx
        rw [hne x hxv, hvals x hx']

end

/-- The simulation runs the model in a dependency order. -/
structure Running (m : Model R) (s : Simulator R) : Prop extends Of m s where
  order : m.ValidOrder s.order

theorem Running.only (h : Running m s) (h' : Only p s s') : Running m s' :=
  ⟨h.toOf.only h', h'.order ▸ h.order⟩

theorem settle_settled (hm : m.WellFormed rounding) (hs : Running m s) :
    Ensures (Only fun x => m.isCombinational x = true) settle s (fun _ => True) fun _ s' =>
      m.Settled s'.value := by
  have hmem := hs.order.mem_iff
  have hpass := forM_settle_ensures hm hs.order.ordered (fun x => (hmem x).1) hs.toOf
  have hsettled : ∀ (u : PUnit) (t : Simulator R), Only (· ∈ s.order) s t →
      (∀ x ∈ s.order, m.SettledAt t.value x) → m.Settled t.value :=
    fun _ t _ ht x hx => ht x ((hmem x).2 hx)
  exact hpass.mono (fun t ht => ht.mono fun x => (hmem x).1) (fun _ => id) hsettled

theorem settle_of_settled (hm : m.WellFormed rounding) (hs : Running m s)
    (hvalues : m.Settled values) (hother : ∀ x, m.isCombinational x = false → s.value x = values x) :
    ∃ s', outcome settle s = (.ok ⟨⟩, s') ∧ s'.value = values := by
  have hmem := hs.order.mem_iff
  obtain ⟨_, s', hrun, hs', hvals⟩ := (forM_settle_of_settled hm hs.order.ordered
    (fun x => (hmem x).1) hs.toOf hvalues hother).succeeds
  refine ⟨s', hrun, funext fun x => ?_⟩
  cases hc : m.isCombinational x with
  | false => rw [hs'.value x (by simp [hc]), hother x hc]
  | true => exact hvals x ((hmem x).2 hc)

/-! ## Runs -/

/-- The simulation goes on with the same model. -/
structure Evolves (s s' : Simulator R) : Prop where
  model : s'.model = s.model
  order : s'.order = s.order
  size : s'.values.size = s.values.size

instance : Std.Refl (Evolves (R := R)) := ⟨fun _ => ⟨rfl, rfl, rfl⟩⟩

instance : IsTrans (Simulator R) Evolves where
  trans _ _ _ h h' := ⟨h'.model.trans h.model, h'.order.trans h.order, h'.size.trans h.size⟩

theorem Only.evolves (h : Only p s s') : Evolves s s' := ⟨h.model, h.order, h.size⟩

theorem Running.evolves (h : Running m s) (h' : Evolves s s') : Running m s' :=
  ⟨⟨h'.model.trans h.model, h'.size.trans h.size⟩, h'.order ▸ h.order⟩

theorem assign_evolves (x : SignalId) (v : Value R) :
    Ensures Evolves (assign x v) s (fun _ => True) fun _ _ => True :=
  Ensures.of_ok rfl (only_setValue (p := fun _ => True) trivial v).evolves trivial

theorem evaluate_kept (memo : Store.Memo R) (i : NodeId) :
    Ensures Eq (evaluate memo i) s (fun _ => True) fun _ _ => True := by
  refine Ensures.get_bind ?_
  split
  · exact Ensures.pure trivial
  · exact Ensures.throw trivial

theorem settle_evolves : Ensures Evolves settle s (fun _ => True) fun _ _ => True := by
  refine Ensures.get_bind (Ensures.forM _ s fun x _ t _ => ?_)
  refine Ensures.get_bind ?_
  split
  · refine (Ensures.of_kept (evaluate_kept _ _)).bind fun r u _ _ => ?_
    exact assign_evolves x r.1
  · exact Ensures.pure trivial

theorem driveInput_evolves (x : SignalId) (v : Value R) :
    Ensures Evolves (driveInput x v) s (fun _ => True) fun _ _ => True := by
  unfold driveInput
  refine Ensures.get_bind ?_
  simp only
  split
  · exact assign_evolves x v
  · exact Ensures.throw_bind trivial

theorem updates_kept : ∀ (as : List (Assignment R)) (memo : Store.Memo R) (s : Simulator R),
    Ensures Eq (updates memo as) s (fun _ => True) fun _ _ => True
  | [], _, _ => Ensures.pure trivial
  | a :: as, memo, s => by
    refine Ensures.get_bind ?_
    split
    · exact updates_kept as memo s
    · split
      · exact (updates_kept as memo s).bind fun _ _ _ _ => Ensures.pure trivial
      · split
        · refine (evaluate_kept memo a.expr).bind fun r t _ _ => ?_
          exact (updates_kept as r.2 t).bind fun _ _ _ _ => Ensures.pure trivial
        · exact updates_kept as memo s

theorem prepare_evolves (inputs : List (SignalId × Value R)) :
    Ensures Evolves (prepare inputs) s (fun _ => True) fun _ _ => True :=
  (Ensures.forM inputs s fun input _ _ _ => driveInput_evolves input.1 input.2).bind
    fun _ _ _ _ => settle_evolves

theorem assignAll_evolves (loaded : List (SignalId × Value R)) :
    Ensures Evolves (loaded.forM fun r => assign r.1 r.2) s (fun _ => True) fun _ _ => True :=
  Ensures.forM loaded s fun r _ _ _ => assign_evolves r.1 r.2

theorem step_evolves (inputs : List (SignalId × Value R)) :
    Ensures Evolves (step inputs) s (fun _ => True) fun _ _ => True := by
  refine (prepare_evolves inputs).bind fun _ t _ _ => Ensures.get_bind ?_
  refine (Ensures.of_kept (updates_kept _ _ t)).bind fun loaded u _ _ => ?_
  refine (assignAll_evolves loaded).bind fun _ u _ _ => ?_
  exact Ensures.bind (P := fun _ _ => True) (Ensures.of_ok rfl ⟨rfl, rfl, rfl⟩ trivial)
    fun _ t _ _ => settle_evolves

/-- The simulation in the reset state, before same-cycle assignments settle. -/
def reset (m : Model R) (order : List SignalId) : Simulator R where
  model := m
  order := order
  values := m.store.signals.mapIdx fun i signal => startValue m signal i

theorem value_reset {order : List SignalId} (hx : x < m.store.signals.size) :
    (reset m order).value x = startValue m (m.store.signal x) x := by
  simp [value, reset, Array.getD_eq_getD_getElem?, Store.signal, hx]

/-- A simulation starts from the reset state, settled in a dependency order. -/
theorem start_eq {order : List SignalId} (h : m.combinationalOrder = .ok order) :
    start m = if m.hasValues then
        (outcome settle (reset m order)).1.map fun _ => (outcome settle (reset m order)).2
      else .error (.emit .emptyWord) := by
  unfold start
  rw [h]
  cases hv : m.hasValues <;> rfl

theorem start_eq_ok_iff : start m = .ok s ↔ ∃ order, m.combinationalOrder = .ok order ∧
    m.hasValues = true ∧ outcome settle (reset m order) = (.ok ⟨⟩, s) := by
  constructor
  · intro h
    cases horder : m.combinationalOrder with
    | error e =>
      unfold start at h
      rw [horder] at h
      cases h
    | ok order =>
      rw [start_eq horder] at h
      refine ⟨order, rfl, ?_⟩
      split at h
      next hv =>
        refine ⟨hv, ?_⟩
        cases hrun : outcome settle (reset m order) with
        | mk r t =>
          rw [hrun] at h
          cases r with
          | error e => cases h
          | ok u => exact Prod.ext rfl (Except.ok.inj h)
      next => cases h
  · rintro ⟨order, horder, hv, hrun⟩
    rw [start_eq horder, if_pos hv, hrun]
    rfl

theorem start_of_isOk {order : List SignalId} (h : m.combinationalOrder = .ok order)
    (hv : m.hasValues = true) (hok : (outcome settle (reset m order)).1.isOk = true) :
    start m = .ok (outcome settle (reset m order)).2 := by
  obtain ⟨_, hrun⟩ := exists_of_isOk hok
  exact start_eq_ok_iff.2 ⟨order, h, hv, hrun⟩

theorem running_reset {order : List SignalId} (h : m.combinationalOrder = .ok order) :
    Running m (reset m order) :=
  ⟨⟨rfl, by simp [reset]⟩, combinationalOrder_ok h⟩

/-- States that a simulation of the model reaches. Steps may fail. -/
inductive Reachable (m : Model R) : Simulator R → Prop
  | start {s : Simulator R} (h : start m = .ok s) : Reachable m s
  | step {s : Simulator R} (h : Reachable m s) (inputs : List (SignalId × Value R)) :
    Reachable m (outcome (step inputs) s).2

theorem Reachable.running (h : Reachable m s) : Running m s := by
  induction h with
  | start h =>
    obtain ⟨order, horder, -, hrun⟩ := start_eq_ok_iff.1 h
    have hmoved := (settle_evolves (s := reset m order)).moved
    rw [hrun] at hmoved
    exact (running_reset horder).evolves hmoved
  | step _ inputs ih => exact ih.evolves (step_evolves inputs).moved

/-- States that a simulation of the model reaches by steps that succeed. -/
inductive Run (m : Model R) : Simulator R → Prop
  | start {s : Simulator R} (h : start m = .ok s) : Run m s
  | step {s s' : Simulator R} (h : Run m s) (inputs : List (SignalId × Value R))
    (hs : outcome (step inputs) s = (.ok ⟨⟩, s')) : Run m s'

theorem Run.reachable (h : Run m s) : Reachable m s := by
  induction h with
  | start h => exact .start h
  | step _ inputs hs ih =>
    have hstep := ih.step inputs
    rwa [hs] at hstep

/-- The parts of a step that succeeds: inputs are driven and settle, registers find what they load
and load it, the cycle is counted, and same-cycle assignments settle again. -/
theorem step_eq_ok {inputs : List (SignalId × Value R)}
    (h : outcome (step inputs) s = (.ok ⟨⟩, s')) :
    ∃ p q loaded, outcome (prepare inputs) s = (.ok ⟨⟩, p) ∧
      outcome (updates {} p.model.assignments.values) p = (.ok loaded, p) ∧
      outcome (loaded.forM fun r => assign r.1 r.2) p = (.ok ⟨⟩, q) ∧
      outcome settle { q with cycle := q.cycle + 1 } = (.ok ⟨⟩, s') := by
  obtain ⟨_, p, hprepare, h⟩ := outcome_bind_eq_ok h
  unfold clockEdge at h
  rw [outcome_get_bind] at h
  obtain ⟨loaded, p', hupdates, h⟩ := outcome_bind_eq_ok h
  obtain rfl : p = p' := ((updates_kept _ _ p).elim_ok hupdates).1
  obtain ⟨_, q, hassign, h⟩ := outcome_bind_eq_ok h
  exact ⟨p, q, loaded, hprepare, hupdates, hassign, h⟩

/-- A run stays settled. -/
theorem Run.settled (hm : m.WellFormed rounding) (h : Run m s) : m.Settled s.value := by
  cases h with
  | start h =>
    obtain ⟨order, horder, -, hrun⟩ := start_eq_ok_iff.1 h
    exact ((settle_settled hm (running_reset horder)).elim_ok hrun).2
  | step hr inputs hs =>
    obtain ⟨p, q, loaded, hprepare, -, hassign, hsettle⟩ := step_eq_ok hs
    have hp := ((prepare_evolves inputs).elim_ok hprepare).1
    have hq := ((assignAll_evolves loaded).elim_ok hassign).1
    have hrunning : Running m { q with cycle := q.cycle + 1 } :=
      ((hr.reachable.running.evolves hp).evolves hq).evolves ⟨rfl, rfl, rfl⟩
    exact ((settle_settled hm hrunning).elim_ok hsettle).2

/-- A pass in one dependency order succeeds if a pass in another one does, and leaves the same
values. -/
theorem settle_of_order (hm : m.WellFormed rounding) (hs : Running m s) {order : List SignalId}
    (ho : m.ValidOrder order) (h : outcome settle s = (.ok ⟨⟩, s')) :
    ∃ t, outcome settle { s with order } = (.ok ⟨⟩, t) ∧ t.value = s'.value := by
  obtain ⟨hs', hsettled⟩ := (settle_settled hm hs).elim_ok h
  have hrunning : Running m { s with order } := ⟨⟨hs.model, hs.size⟩, ho⟩
  exact settle_of_settled hm hrunning hsettled fun x hx => (hs'.value x (by simp [hx])).symm

/-- Every state of a run is settled, and it is the only settled valuation with its values of the
signals that are not driven in the same cycle. So it does not matter in which dependency order
same-cycle assignments are computed. -/
theorem run_settled_unique [Numerics R] (hb : m.Built fun _ _ => True) (h : Run m s) :
    m.Settled s.value ∧
    (∀ values, m.Settled values →
      (∀ x, m.isCombinational x = false → values x = s.value x) → values = s.value) ∧
    ∀ (t : Simulator R) (order : List SignalId), Running m t → m.ValidOrder order →
      (outcome settle { t with order }).1.isOk = (outcome settle t).1.isOk ∧
      ((outcome settle t).1.isOk = true →
        (outcome settle { t with order }).2.value = (outcome settle t).2.value) := by
  have hm := hb.wellFormed_any
  have hsettled := h.settled hm
  refine ⟨hsettled, fun values hvalues hother => ?_, fun t order ht ho => ?_⟩
  · exact Settled.unique h.reachable.running.order hvalues hsettled hother
  · cases hrun : outcome settle t with
    | mk r t₁ =>
      cases r with
      | ok u =>
        obtain ⟨t₂, hrun', hvalue⟩ := settle_of_order hm ht ho hrun
        rw [hrun']
        exact ⟨rfl, fun _ => hvalue⟩
      | error e =>
        refine ⟨?_, fun hok => by cases hok⟩
        cases hrun' : outcome settle { t with order } with
        | mk r' t₂ =>
          cases r' with
          | error e' => rfl
          | ok u =>
            -- a pass that succeeds in the new order would have succeeded in the old one
            have hrunning : Running m { t with order } := ⟨⟨ht.model, ht.size⟩, ho⟩
            obtain ⟨t₃, hrun'', -⟩ := settle_of_order hm hrunning ht.order hrun'
            have hback : outcome settle t = (.ok ⟨⟩, t₃) := hrun''
            rw [hrun] at hback
            cases hback

/-- A model with an input `a`, the sum `a + 1` and a name `b` for it. -/
def sumModel : Model ℚ :=
  Model.performAll { name := "m", dt := none } [.digitalInput "a" 4 .unsigned,
    .construct (.arithmetic .sum [.signal 0, .value (.int 1)]), .bindName "b" (.node 3)]

theorem sumModel_built : sumModel.Built fun _ _ => True :=
  .ofOperations (by decide +kernel)

/-- The state in which a simulation of the sum starts. -/
def sumStart : Simulator ℚ := (outcome settle (reset sumModel [1])).2

theorem start_sumModel : start sumModel = .ok sumStart :=
  start_of_isOk (by with_unfolding_all rfl) (by decide +kernel) (by cbv)

/-- After the input 5 the sum is 6. -/
theorem run_settled_unique_sum :
    (sumModel.Built fun _ _ => True) ∧
    Run sumModel (outcome (step [(0, .int 5)]) sumStart).2 ∧
    sumModel.Settled (outcome (step [(0, .int 5)]) sumStart).2.value ∧
    (outcome (step [(0, .int 5)]) sumStart).2.value 1 = .int 6 := by
  have hok : (outcome (step [(0, .int 5)]) sumStart).1.isOk = true := by cbv
  obtain ⟨_, hstep⟩ := exists_of_isOk hok
  have hrun : Run sumModel (outcome (step [(0, .int 5)]) sumStart).2 :=
    .step (.start start_sumModel) _ hstep
  exact ⟨sumModel_built, hrun, (run_settled_unique sumModel_built hrun).1, by cbv⟩

end Simulator

end MixedSignal
