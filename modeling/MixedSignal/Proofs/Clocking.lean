import MixedSignal.Proofs.Settling

/-!
# Clock edges

At a clock edge all registers load values that are computed in one state, the one that the inputs
leave once same-cycle assignments have settled. `Clocked` says what they hold afterwards. It
determines every value that is not driven in the same cycle and speaks of no order, so two models
whose assignments were inserted in different orders run alike (`Lockstep`).
-/

set_option linter.unusedSectionVars false

namespace MixedSignal

variable {R : Type} [Scalar R] {x : SignalId}

namespace Simulator

open Dependency Model

variable {rounding : Rounding R} {m : Model R} {s s' p q : Simulator R}

/-! ## What registers load -/

/-- What the signal of an assignment loads at a clock edge, if anything. -/
def loads (s : Simulator R) (a : Assignment R) : Option (Except EmitError (Value R)) :=
  match a.timing with
  | .thisCycle => none
  | .nextCycle c init =>
    if s.isHigh c.reset then some (.ok init)
    else if s.isEnabled c then some (s.eval a.expr)
    else none

/-- The list holds what the assignments load, and none of them fails. -/
structure Loads (s : Simulator R) (as : List (Assignment R)) (loaded : List (SignalId × Value R)) :
    Prop where
  succeeds : ∀ a ∈ as, ∀ e, s.loads a ≠ some (.error e)
  mem_iff : ∀ x v, (x, v) ∈ loaded ↔ ∃ a ∈ as, a.signal = x ∧ s.loads a = some (.ok v)
  sublist : (loaded.map Prod.fst).Sublist (as.map Assignment.signal)

variable {as : List (Assignment R)} {a : Assignment R} {loaded : List (SignalId × Value R)}

theorem Loads.nil : Loads s [] [] := ⟨by simp, by simp, by simp⟩

theorem Loads.keep (h : Loads s as loaded) (ha : s.loads a = none) : Loads s (a :: as) loaded where
  succeeds := by
    intro b hb e
    rcases List.mem_cons.1 hb with rfl | hb
    · simp [ha]
    · exact h.succeeds b hb e
  mem_iff x v := by simp [h.mem_iff, ha]
  sublist := h.sublist.cons _

theorem Loads.load (h : Loads s as loaded) {v : Value R} (ha : s.loads a = some (.ok v)) :
    Loads s (a :: as) ((a.signal, v) :: loaded) where
  succeeds := by
    intro b hb e
    rcases List.mem_cons.1 hb with rfl | hb
    · simp [ha]
    · exact h.succeeds b hb e
  mem_iff x w := by
    simp only [List.mem_cons, Prod.mk.injEq, h.mem_iff, exists_eq_or_imp, ha, Option.some.injEq,
      Except.ok.injEq]
    exact or_congr_left (and_congr eq_comm eq_comm)
  sublist := h.sublist.cons_cons _

/-- The updates are what the assignments load. All are computed in the same state, which makes it
sound to share what is remembered. -/
theorem updates_ensures : ∀ (as : List (Assignment R)) (memo : Store.Memo R),
    s.model.store.Remembers s.value memo →
    Ensures Eq (updates memo as) s
      (fun e => ∃ a ∈ as, ∃ e', s.loads a = some (.error e') ∧ e = .emit e')
      fun loaded _ => Loads s as loaded
  | [], _, _ => Ensures.pure .nil
  | a :: as, memo, hmemo => by
    have ih : ∀ memo, s.model.store.Remembers s.value memo →
        Ensures Eq (updates memo as) s
          (fun e => ∃ b ∈ a :: as, ∃ e', s.loads b = some (.error e') ∧ e = .emit e')
          fun loaded _ => Loads s as loaded := fun memo hmemo =>
      (updates_ensures as memo hmemo).mono (fun _ => id)
        (fun _ ⟨b, hb, he⟩ => ⟨b, List.mem_cons_of_mem _ hb, he⟩) fun _ _ _ => id
    refine Ensures.get_bind ?_
    split
    · rename_i ha
      exact (ih memo hmemo).imp fun _ _ _ h => h.keep (by simp [loads, ha])
    · rename_i c init ha
      split
      · rename_i hreset
        refine (ih memo hmemo).bind fun loaded t _ h => Ensures.pure ?_
        exact h.load (by simp [loads, ha, hreset])
      · rename_i hreset
        split
        · rename_i henable
          have hloads : s.loads a = some (s.eval a.expr) := by simp [loads, ha, hreset, henable]
          cases hv : s.eval a.expr with
          | ok v =>
            obtain ⟨memo', hrun, hmemo'⟩ := evaluate_ok hmemo hv
            have hstep : Ensures Eq (evaluate memo a.expr) s
                (fun e => ∃ b ∈ a :: as, ∃ e', s.loads b = some (.error e') ∧ e = .emit e')
                fun r t => r = (v, memo') ∧ s = t := .of_ok hrun rfl ⟨rfl, rfl⟩
            refine hstep.bind ?_
            rintro _ _ - ⟨rfl, rfl⟩
            refine (ih memo' hmemo').bind fun loaded t _ h => Ensures.pure ?_
            exact h.load (by rw [hloads, hv])
          | error e =>
            refine .of_error (outcome_bind_error (evaluate_error hmemo hv)) rfl ?_
            exact ⟨a, List.mem_cons_self, e, by rw [hloads, hv], rfl⟩
        · rename_i henable
          exact (ih memo hmemo).imp fun _ _ _ h => h.keep (by simp [loads, ha, hreset, henable])

/-- Loaded values are held afterwards, as no register loads twice. -/
theorem assignAll_ensures : ∀ (loaded : List (SignalId × Value R)) (s : Simulator R),
    (loaded.map Prod.fst).Nodup → (∀ r ∈ loaded, r.1 < s.values.size) →
    Ensures (Only (· ∈ loaded.map Prod.fst)) (loaded.forM fun r => assign r.1 r.2) s
      (fun _ => False) fun _ s' => ∀ r ∈ loaded,
        s'.value r.1 = r.2.coerce (s.model.store.signal r.1).format
  | [], _, _, _ => Ensures.pure (by simp)
  | (x, v) :: loaded, s, hnodup, hlt => by
    rw [List.map_cons, List.nodup_cons] at hnodup
    obtain ⟨hx, hnodup⟩ := hnodup
    have hfirst : Ensures (Only (· ∈ ((x, v) :: loaded).map Prod.fst)) (assign x v) s
        (fun _ => False) fun _ t => t = s.setValue x v := .of_ok rfl (only_setValue (by simp) v) rfl
    refine hfirst.bind ?_
    rintro _ _ - rfl
    refine (assignAll_ensures loaded (s.setValue x v) hnodup fun r hr => ?_).mono
      (fun t ht => ht.mono fun y hy => by simp at hy ⊢; exact .inr hy) (fun _ => id)
      fun _ t ht h r hr => ?_
    · simpa [setValue] using hlt r (List.mem_cons_of_mem _ hr)
    · rcases List.mem_cons.1 hr with rfl | hr
      · rw [ht.value x hx, value_setValue_self (hlt (x, v) List.mem_cons_self)]
      · exact h r hr

/-! ## A clock edge -/

/-- What a clock edge in the state `p` leaves of the signals that are not driven in the same cycle.
-/
structure Clocked (m : Model R) (p q : Simulator R) : Prop where
  succeeds : ∀ x a e, m.assignment? x = some a → p.loads a ≠ some (.error e)
  load : ∀ x a v, m.assignment? x = some a → p.loads a = some (.ok v) →
    q.value x = v.coerce (m.store.signal x).format
  keep : ∀ x, m.isCombinational x = false →
    (∀ a, m.assignment? x = some a → p.loads a = none) → q.value x = p.value x
  cycle : q.cycle = p.cycle + 1

theorem mem_values_iff (hm : m.WellFormed rounding) :
    a ∈ m.assignments.values ↔ m.assignment? a.signal = some a := by
  constructor
  · intro ha
    obtain ⟨⟨x, _⟩, he, rfl⟩ := List.mem_map.1 ha
    obtain ⟨hx, -⟩ := hm.entries _ he
    exact OrderedMap.get?_of_mem_entries hm.nodup (hx ▸ he)
  · intro ha
    exact List.mem_map_of_mem (f := Prod.snd) (OrderedMap.mem_entries_of_get? ha)

theorem loads_of_isCombinational (hx : m.isCombinational x = true) (ha : m.assignment? x = some a) :
    p.loads a = none := by
  obtain ⟨b, hb, htiming⟩ := isCombinational_iff.1 hx
  obtain rfl := Option.some.inj (ha.symm.trans hb)
  simp [loads, htiming]

/-- Each signal is assigned once, so the updates can be made in any order. -/
theorem Loads.clocked (hm : m.WellFormed rounding) (hp : Of m p)
    (h : Loads p m.assignments.values loaded) :
    ∃ q, outcome (loaded.forM fun r => assign r.1 r.2) p = (.ok ⟨⟩, q) ∧
      Clocked m p { q with cycle := q.cycle + 1 } := by
  have hsignals : m.assignments.values.map Assignment.signal = m.assignments.keys := by
    rw [OrderedMap.values, OrderedMap.keys, List.map_map]
    exact List.map_congr_left fun e he => (hm.entries e he).1.symm
  have hnodup : (loaded.map Prod.fst).Nodup := (hsignals ▸ hm.nodup).sublist h.sublist
  have hmem : ∀ x v, (x, v) ∈ loaded ↔
      ∃ a, m.assignment? x = some a ∧ p.loads a = some (.ok v) := by
    intro x v
    rw [h.mem_iff]
    constructor
    · rintro ⟨a, ha, rfl, hv⟩
      exact ⟨a, (mem_values_iff hm).1 ha, hv⟩
    · rintro ⟨a, ha, hv⟩
      obtain ⟨rfl, -⟩ := hm.valid ha
      exact ⟨a, (mem_values_iff hm).2 ha, rfl, hv⟩
  have hlt : ∀ r ∈ loaded, r.1 < p.values.size := by
    rintro ⟨x, v⟩ hr
    obtain ⟨a, ha, -⟩ := (hmem x v).1 hr
    obtain ⟨rfl, hvalid⟩ := hm.valid ha
    exact hp.size ▸ hvalid.signal_lt
  obtain ⟨_, q, hrun, honly, hvalues⟩ := (assignAll_ensures loaded p hnodup hlt).succeeds
  refine ⟨q, hrun, ?_, ?_, ?_, congrArg (· + 1) honly.cycle⟩
  · intro x a e ha
    obtain ⟨rfl, -⟩ := hm.valid ha
    exact h.succeeds a ((mem_values_iff hm).2 ha) e
  · intro x a v ha hv
    rw [← hp.model]
    exact hvalues (x, v) ((hmem x v).2 ⟨a, ha, hv⟩)
  · intro x _ hkeep
    refine honly.value x fun hx => ?_
    obtain ⟨⟨y, v⟩, hr, rfl⟩ := List.mem_map.1 hx
    obtain ⟨a, ha, hv⟩ := (hmem y v).1 hr
    rw [hkeep a ha] at hv
    cases hv

/-- Same-cycle assignments that settle afterwards change none of it. -/
theorem Clocked.settle (h : Clocked m p q) (hq : Only (fun x => m.isCombinational x = true) q s) :
    Clocked m p s where
  succeeds := h.succeeds
  load x a v ha hv := by
    rw [hq.value x ?_, h.load x a v ha hv]
    intro hx
    rw [loads_of_isCombinational hx ha] at hv
    cases hv
  keep x hx hkeep := by rw [hq.value x (by simp [hx]), h.keep x hx hkeep]
  cycle := hq.cycle.trans h.cycle

/-- What a register holds after a clock edge. -/
theorem Clocked.register (h : Clocked m p q) (hp : Of m p) {c : Clocking} {init : Value R}
    (ha : m.assignment? x = some a) (ht : a.timing = .nextCycle c init) :
    if p.isHigh c.reset then q.value x = init.coerce (m.store.signal x).format
    else if p.isEnabled c then ∃ v, m.store.eval p.value a.expr = .ok v ∧
      q.value x = v.coerce (m.store.signal x).format
    else q.value x = p.value x := by
  have hloads : p.loads a = if p.isHigh c.reset then some (.ok init)
      else if p.isEnabled c then some (m.store.eval p.value a.expr) else none := by
    rw [loads, ht, hp.eval]
  split at hloads
  · rename_i hreset
    rw [if_pos hreset]
    exact h.load x a init ha hloads
  · rename_i hreset
    rw [if_neg hreset]
    split at hloads
    · rename_i henabled
      rw [if_pos henabled]
      cases hv : m.store.eval p.value a.expr with
      | error e => exact (h.succeeds x a e ha (hloads.trans (congrArg some hv))).elim
      | ok v => exact ⟨v, rfl, h.load x a v ha (hloads.trans (congrArg some hv))⟩
    · rename_i henabled
      rw [if_neg henabled]
      refine h.keep x (isCombinational_of_nextCycle ha ht) fun b hb => ?_
      obtain rfl := Option.some.inj (ha.symm.trans hb)
      exact hloads

/-- A signal without an assignment keeps its value. -/
theorem Clocked.unassigned (h : Clocked m p q) (ha : m.assignment? x = none) :
    q.value x = p.value x := by
  refine h.keep x ?_ (by simp [ha])
  cases hc : m.isCombinational x with
  | false => rfl
  | true =>
    obtain ⟨b, hb, -⟩ := isCombinational_iff.1 hc
    rw [ha] at hb
    cases hb

/-- What a step that succeeds does to a running simulation. -/
theorem step_clocked (hm : m.WellFormed rounding) (hs : Running m s)
    {inputs : List (SignalId × Value R)} (h : outcome (step inputs) s = (.ok ⟨⟩, s')) :
    ∃ p, outcome (prepare inputs) s = (.ok ⟨⟩, p) ∧ Running m p ∧ Clocked m p s' ∧
      m.Settled s'.value := by
  obtain ⟨p, q, loaded, hprepare, hupdates, hassign, hsettle⟩ := step_eq_ok h
  have hp := hs.evolves ((prepare_evolves inputs).elim_ok hprepare).1
  have hq := hp.evolves ((assignAll_evolves loaded).elim_ok hassign).1
  have hloads := ((updates_ensures _ _ (remembers_empty _ _)).elim_ok hupdates).2
  rw [hp.model] at hloads
  obtain ⟨q', hassign', hclocked⟩ := hloads.clocked hm hp.toOf
  obtain rfl : q = q' := by
    rw [hassign] at hassign'
    exact (Prod.mk.inj hassign').2
  have hrunning : Running m { q with cycle := q.cycle + 1 } := hq.evolves ⟨rfl, rfl, rfl⟩
  obtain ⟨honly, hsettled⟩ := (settle_settled hm hrunning).elim_ok hsettle
  exact ⟨p, hprepare, hp, hclocked.settle honly, hsettled⟩

/-! ## Inputs -/

/-- The value of a signal after inputs are driven; the last value driven counts. -/
def driven (s : Simulator R) (inputs : List (SignalId × Value R)) (x : SignalId) : Value R :=
  inputs.foldl (fun v input =>
    if input.1 = x then input.2.coerce (s.model.store.signal x).format else v) (s.value x)

theorem lt_of_isInput (h : (m.store.signal x).role.isInput = true) : x < m.store.signals.size := by
  by_contra hx
  rw [Store.signal, Array.getD_eq_getD_getElem?, Array.getElem?_eq_none (Nat.not_lt.1 hx)] at h
  cases h

theorem driven_setValue (hx : x < s.values.size) (v : Value R) (inputs : List (SignalId × Value R)) :
    (s.setValue x v).driven inputs = s.driven ((x, v) :: inputs) := by
  funext y
  unfold driven
  rw [List.foldl_cons]
  congr 1
  split
  · rename_i heq
    obtain rfl : x = y := heq
    exact value_setValue_self hx v
  · rename_i hne
    exact value_setValue_of_ne (Ne.symm hne) v

theorem outcome_driveInput (hs : Of m s) (x : SignalId) (v : Value R) :
    outcome (driveInput x v) s =
      if (m.store.signal x).role.isInput then (.ok ⟨⟩, s.setValue x v)
      else (.error (.construction (.notAssignable (m.store.signal x).name)), s) := by
  unfold driveInput
  rw [outcome_get_bind, hs.model]
  simp only
  split <;> rfl

theorem driveInputs_ensures : ∀ (inputs : List (SignalId × Value R)) {s : Simulator R}, Of m s →
    Ensures (Only fun x => (m.store.signal x).role.isInput = true)
      (inputs.forM fun (i, v) => driveInput i v) s (fun _ => True) fun _ t =>
        t.value = s.driven inputs
  | [], _, _ => Ensures.pure rfl
  | (x, v) :: inputs, s, hs => by
    have hrun := outcome_driveInput hs x v
    split at hrun
    · rename_i hx
      have honly : Only (fun x => (m.store.signal x).role.isInput = true) s (s.setValue x v) :=
        only_setValue hx v
      refine Ensures.bind (P := fun _ t => t = s.setValue x v) (.of_ok hrun honly rfl) ?_
      rintro _ _ - rfl
      rw [← driven_setValue (hs.size ▸ lt_of_isInput hx)]
      exact driveInputs_ensures inputs (hs.only honly)
    · exact .of_error (outcome_bind_error hrun) (refl_of _ s) trivial

theorem assignment?_of_not_isAssignable (hm : m.WellFormed rounding)
    (hx : (m.store.signal x).role.isAssignable = false) : m.assignment? x = none := by
  cases ha : m.assignment? x with
  | none => rfl
  | some a =>
    obtain ⟨rfl, hvalid⟩ := hm.valid ha
    rw [hvalid.assignable] at hx
    cases hx

/-- The state that a clock edge sees: inputs are driven and same-cycle assignments have settled. -/
theorem prepare_settled (hm : m.WellFormed rounding) (hs : Running m s)
    {inputs : List (SignalId × Value R)} (h : outcome (prepare inputs) s = (.ok ⟨⟩, p)) :
    Running m p ∧ m.Settled p.value ∧ p.cycle = s.cycle ∧
      ∀ x, m.isCombinational x = false → p.value x = s.driven inputs x := by
  obtain ⟨_, t, hdrive, hsettle⟩ := outcome_bind_eq_ok h
  obtain ⟨ht, hvalue⟩ := (driveInputs_ensures inputs hs.toOf).elim_ok hdrive
  obtain ⟨hp, hsettled⟩ := (settle_settled hm (hs.only ht)).elim_ok hsettle
  refine ⟨(hs.only ht).only hp, hsettled, hp.cycle.trans ht.cycle, fun x hx => ?_⟩
  rw [hp.value x (by simp [hx]), hvalue]

end Simulator

/-! ## Assignments in another order -/

theorem OrderedMap.get?_of_perm {κ β : Type} [BEq κ] [LawfulBEq κ] {m m' : OrderedMap κ β}
    (hnodup : m.keys.Nodup) (h : m.entries.Perm m'.entries) (k : κ) : m'.get? k = m.get? k := by
  have hnodup' : m'.keys.Nodup := (h.map Prod.fst).nodup hnodup
  cases hk : m.get? k with
  | none =>
    rw [get?_eq_none_iff] at hk ⊢
    exact fun hmem => hk ((h.map Prod.fst).mem_iff.2 hmem)
  | some v => exact get?_of_mem_entries hnodup' (h.mem_iff.1 (mem_entries_of_get? hk))

namespace Model

/-- The models differ at most in the order in which assignments were inserted. -/
structure Reordered (m₁ m₂ : Model R) : Prop where
  store : m₂.store = m₁.store
  entries : m₁.assignments.entries.Perm m₂.assignments.entries

variable {m₁ m₂ : Model R}

theorem Reordered.reverse (m : Model R) :
    Reordered m { m with assignments := ⟨m.assignments.entries.reverse⟩ } :=
  ⟨rfl, (List.reverse_perm _).symm⟩

theorem Reordered.wellFormed (h : Reordered m₁ m₂) (hm : m₁.WellFormed Rounding.any) :
    m₂.WellFormed Rounding.any where
  store := h.store ▸ hm.store
  names := h.store ▸ hm.names
  entries e he := h.store ▸ hm.entries e (h.entries.mem_iff.2 he)
  nodup := (h.entries.map Prod.fst).nodup hm.nodup

/-- The models assign alike. This is all that simulation depends on. -/
structure Alike (m₁ m₂ : Model R) : Prop where
  left : m₁.WellFormed Rounding.any
  right : m₂.WellFormed Rounding.any
  store : m₂.store = m₁.store
  assignment? : m₂.assignment? = m₁.assignment?

theorem Reordered.alike (h : Reordered m₁ m₂) (hm : m₁.WellFormed Rounding.any) : Alike m₁ m₂ where
  left := hm
  right := h.wellFormed hm
  store := h.store
  assignment? := funext fun x => OrderedMap.get?_of_perm hm.nodup h.entries x

namespace Alike

variable (h : Alike m₁ m₂)
include h

theorem symm : Alike m₂ m₁ := ⟨h.right, h.left, h.store.symm, h.assignment?.symm⟩

theorem isCombinational (x : SignalId) : m₂.isCombinational x = m₁.isCombinational x := by
  have hx : m₂.assignments.get? x = m₁.assignments.get? x := congrFun h.assignment? x
  simp only [Model.isCombinational, hx]

theorem combinationalReads : m₂.combinationalReads = m₁.combinationalReads := by
  funext x
  have hx : m₂.assignments.get? x = m₁.assignments.get? x := congrFun h.assignment? x
  simp only [Model.combinationalReads, hx, h.store, funext h.isCombinational]

theorem settled {values : SignalId → Value R} (hv : m₁.Settled values) : m₂.Settled values := by
  intro x hx a ha
  rw [h.isCombinational] at hx
  rw [h.assignment?] at ha
  rw [h.store]
  exact hv x hx a ha

/-- A dependency order of one model rules out cycles in the other. -/
theorem combinationalOrder {order : List SignalId} (ho : m₁.ValidOrder order) :
    ∃ order', m₂.combinationalOrder = .ok order' := by
  cases ho' : m₂.combinationalOrder with
  | ok order' => exact ⟨order', rfl⟩
  | error e =>
    obtain ⟨x, hx, hcycle⟩ := combinationalOrder_error ho'
    rw [h.combinationalReads] at hcycle
    rw [h.isCombinational] at hx
    exact (ho.ordered.not_onCycle x ((ho.mem_iff x).2 hx) hcycle).elim

theorem startValue (signal : Signal R) (x : SignalId) :
    Simulator.startValue m₂ signal x = Simulator.startValue m₁ signal x := by
  simp only [Simulator.startValue, h.assignment?]

theorem hasValues : m₂.hasValues = m₁.hasValues := by
  rw [Model.hasValues, Model.hasValues, h.store]

end Alike

end Model

namespace Simulator

open Dependency Model

variable {m₁ m₂ : Model R} {s₁ s₂ t₁ t₂ p₁ p₂ : Simulator R} {α β : Type}

/-- Simulations of two models that agree on the signals that are not driven in the same cycle. -/
structure Twins (m₁ m₂ : Model R) (s₁ s₂ : Simulator R) : Prop where
  left : Running m₁ s₁
  right : Running m₂ s₂
  value : ∀ x, m₁.isCombinational x = false → s₂.value x = s₁.value x
  cycle : s₂.cycle = s₁.cycle

/-- Both computations succeed or both fail, and they lead to states that agree. -/
def Lockstep (m₁ m₂ : Model R) (x₁ x₂ : Simulation R α) (s₁ s₂ : Simulator R)
    (P : α → α → Simulator R → Simulator R → Prop) : Prop :=
  Twins m₁ m₂ (outcome x₁ s₁).2 (outcome x₂ s₂).2 ∧
    match (outcome x₁ s₁).1, (outcome x₂ s₂).1 with
    | .ok a₁, .ok a₂ => P a₁ a₂ (outcome x₁ s₁).2 (outcome x₂ s₂).2
    | .error _, .error _ => True
    | _, _ => False

namespace Lockstep

variable {x₁ x₂ : Simulation R α} {P : α → α → Simulator R → Simulator R → Prop}

theorem of_ok {a₁ a₂ : α} (h₁ : outcome x₁ s₁ = (.ok a₁, t₁)) (h₂ : outcome x₂ s₂ = (.ok a₂, t₂))
    (ht : Twins m₁ m₂ t₁ t₂) (hP : P a₁ a₂ t₁ t₂) : Lockstep m₁ m₂ x₁ x₂ s₁ s₂ P := by
  unfold Lockstep
  rw [h₁, h₂]
  exact ⟨ht, hP⟩

theorem of_error {e₁ e₂ : Error} (h₁ : outcome x₁ s₁ = (.error e₁, t₁))
    (h₂ : outcome x₂ s₂ = (.error e₂, t₂)) (ht : Twins m₁ m₂ t₁ t₂) :
    Lockstep m₁ m₂ x₁ x₂ s₁ s₂ P := by
  unfold Lockstep
  rw [h₁, h₂]
  exact ⟨ht, trivial⟩

theorem get_bind {f₁ f₂ : Simulator R → Simulation R α}
    (h : Lockstep m₁ m₂ (f₁ s₁) (f₂ s₂) s₁ s₂ P) :
    Lockstep m₁ m₂ (get >>= f₁) (get >>= f₂) s₁ s₂ P :=
  h

theorem bind {f₁ f₂ : α → Simulation R β} {Q : β → β → Simulator R → Simulator R → Prop}
    (h : Lockstep m₁ m₂ x₁ x₂ s₁ s₂ P)
    (hf : ∀ a₁ a₂ t₁ t₂, Twins m₁ m₂ t₁ t₂ → P a₁ a₂ t₁ t₂ →
      Lockstep m₁ m₂ (f₁ a₁) (f₂ a₂) t₁ t₂ Q) :
    Lockstep m₁ m₂ (x₁ >>= f₁) (x₂ >>= f₂) s₁ s₂ Q := by
  unfold Lockstep at h
  cases h₁ : outcome x₁ s₁ with
  | mk r₁ t₁ =>
    cases h₂ : outcome x₂ s₂ with
    | mk r₂ t₂ =>
      rw [h₁, h₂] at h
      cases r₁ with
      | ok a₁ =>
        cases r₂ with
        | ok a₂ =>
          have hnext := hf a₁ a₂ t₁ t₂ h.1 h.2
          unfold Lockstep at hnext ⊢
          rwa [outcome_bind_ok h₁, outcome_bind_ok h₂]
        | error e₂ => exact h.2.elim
      | error e₁ =>
        cases r₂ with
        | ok a₂ => exact h.2.elim
        | error e₂ => exact of_error (outcome_bind_error h₁) (outcome_bind_error h₂) h.1

theorem isOk_eq (h : Lockstep m₁ m₂ x₁ x₂ s₁ s₂ P) :
    (outcome x₂ s₂).1.isOk = (outcome x₁ s₁).1.isOk := by
  unfold Lockstep at h
  cases h₁ : (outcome x₁ s₁).1 <;> cases h₂ : (outcome x₂ s₂).1 <;> rw [h₁, h₂] at h <;>
    first | rfl | exact h.2.elim

theorem elim (h : Lockstep m₁ m₂ x₁ x₂ s₁ s₂ P) (hok : (outcome x₁ s₁).1.isOk = true) :
    ∃ a₁ a₂, P a₁ a₂ (outcome x₁ s₁).2 (outcome x₂ s₂).2 := by
  unfold Lockstep at h
  cases h₁ : (outcome x₁ s₁).1 with
  | error e₁ =>
    rw [h₁] at hok
    cases hok
  | ok a₁ =>
    cases h₂ : (outcome x₂ s₂).1 with
    | error e₂ =>
      rw [h₁, h₂] at h
      exact h.2.elim
    | ok a₂ =>
      rw [h₁, h₂] at h
      exact ⟨a₁, a₂, h.2⟩

end Lockstep

variable (ha : Alike m₁ m₂)
include ha

theorem Twins.symm (h : Twins m₁ m₂ s₁ s₂) : Twins m₂ m₁ s₂ s₁ where
  left := h.right
  right := h.left
  value x hx := (h.value x (ha.isCombinational x ▸ hx)).symm
  cycle := h.cycle.symm

theorem Twins.setValue (h : Twins m₁ m₂ s₁ s₂) (hx : x < m₁.store.signals.size) (v : Value R) :
    Twins m₁ m₂ (s₁.setValue x v) (s₂.setValue x v) where
  left := h.left.only (only_setValue (p := fun _ => True) trivial v)
  right := h.right.only (only_setValue (p := fun _ => True) trivial v)
  value y hy := by
    by_cases hyx : y = x
    · have hx₁ : x < s₁.values.size := h.left.size ▸ hx
      have hx₂ : x < s₂.values.size := by rwa [h.right.size, ha.store]
      rw [hyx, value_setValue_self hx₁, value_setValue_self hx₂, h.left.model, h.right.model,
        ha.store]
    · rw [value_setValue_of_ne hyx, value_setValue_of_ne hyx, h.value y hy]
  cycle := h.cycle

theorem driveInputs_lockstep : ∀ (inputs : List (SignalId × Value R)) {s₁ s₂ : Simulator R},
    Twins m₁ m₂ s₁ s₂ →
    Lockstep m₁ m₂ (inputs.forM fun (i, v) => driveInput i v)
      (inputs.forM fun (i, v) => driveInput i v) s₁ s₂ fun _ _ _ _ => True
  | [], _, _, h => .of_ok rfl rfl h trivial
  | (x, v) :: inputs, s₁, s₂, h => by
    have h₁ := outcome_driveInput h.left.toOf x v
    have h₂ := outcome_driveInput h.right.toOf x v
    rw [ha.store] at h₂
    have hfirst : Lockstep m₁ m₂ (driveInput x v) (driveInput x v) s₁ s₂ fun _ _ _ _ => True := by
      split at h₁
      · rename_i hx
        rw [if_pos hx] at h₂
        exact .of_ok h₁ h₂ (h.setValue ha (lt_of_isInput hx) v) trivial
      · rename_i hx
        rw [if_neg hx] at h₂
        exact .of_error h₁ h₂ h
    exact hfirst.bind fun _ _ _ _ ht _ => driveInputs_lockstep inputs ht

/-- Both simulations settle to the only settled valuation that there is. -/
theorem Twins.settle_ok (h : Twins m₁ m₂ s₁ s₂) (hrun : outcome settle s₁ = (.ok ⟨⟩, t₁)) :
    ∃ t₂, outcome settle s₂ = (.ok ⟨⟩, t₂) ∧ t₂.value = t₁.value := by
  obtain ⟨honly, hsettled⟩ := (settle_settled ha.left h.left).elim_ok hrun
  refine settle_of_settled ha.right h.right (ha.settled hsettled) fun x hx => ?_
  rw [ha.isCombinational] at hx
  rw [h.value x hx, honly.value x (by simp [hx])]

/-- Settling keeps the agreement, whether it succeeds or fails. -/
theorem Twins.settled (h : Twins m₁ m₂ s₁ s₂) :
    Twins m₁ m₂ (outcome settle s₁).2 (outcome settle s₂).2 := by
  have h₁ := (settle_settled ha.left h.left).moved
  have h₂ := (settle_settled ha.right h.right).moved
  refine ⟨h.left.only h₁, h.right.only h₂, fun x hx => ?_, ?_⟩
  · rw [h₁.value x (by simp [hx]), h₂.value x (by simp [ha.isCombinational, hx]), h.value x hx]
  · rw [h₁.cycle, h₂.cycle, h.cycle]

theorem settle_lockstep (h : Twins m₁ m₂ s₁ s₂) :
    Lockstep m₁ m₂ settle settle s₁ s₂ fun _ _ t₁ t₂ => t₂.value = t₁.value := by
  have ht := h.settled ha
  cases h₁ : outcome settle s₁ with
  | mk r₁ t₁ =>
    cases h₂ : outcome settle s₂ with
    | mk r₂ t₂ =>
      rw [h₁, h₂] at ht
      cases r₁ with
      | ok u =>
        obtain ⟨t, hrun, hvalue⟩ := h.settle_ok ha h₁
        rw [hrun] at h₂
        obtain ⟨rfl, rfl⟩ := Prod.mk.inj h₂
        exact .of_ok h₁ hrun ht hvalue
      | error e₁ =>
        cases r₂ with
        | error e₂ => exact .of_error h₁ h₂ ht
        | ok u =>
          obtain ⟨t, hrun, -⟩ := (h.symm ha).settle_ok ha.symm h₂
          rw [hrun] at h₁
          cases h₁

theorem loads_eq (h : Twins m₁ m₂ p₁ p₂) (hvalue : p₂.value = p₁.value) (a : Assignment R) :
    p₂.loads a = p₁.loads a := by
  have heval : p₂.eval a.expr = p₁.eval a.expr := by
    rw [h.left.eval, h.right.eval, hvalue, ha.store]
  have hhigh : p₂.isHigh = p₁.isHigh := by
    funext control
    simp only [isHigh, hvalue]
  have henabled : p₂.isEnabled = p₁.isEnabled := by
    funext c
    simp only [isEnabled, hhigh]
  rw [loads, loads, heval, hhigh, henabled]

/-- If what registers load can be computed in one simulation, it can in the other. -/
theorem Twins.updates_ok (h : Twins m₁ m₂ p₁ p₂) (hvalue : p₂.value = p₁.value)
    {loaded : List (SignalId × Value R)}
    (hrun : outcome (updates {} p₁.model.assignments.values) p₁ = (.ok loaded, p₁)) :
    ∃ loaded', outcome (updates {} p₂.model.assignments.values) p₂ = (.ok loaded', p₂) := by
  have hupdates := updates_ensures (s := p₂) p₂.model.assignments.values {} (remembers_empty _ _)
  cases hrun' : outcome (updates {} p₂.model.assignments.values) p₂ with
  | mk r t =>
    cases r with
    | ok loaded' =>
      obtain ⟨rfl, -⟩ := hupdates.elim_ok hrun'
      exact ⟨loaded', rfl⟩
    | error e =>
      obtain ⟨-, a, hmem, e', he, -⟩ := hupdates.elim_error hrun'
      rw [h.right.model, mem_values_iff ha.right, ha.assignment?, ← mem_values_iff ha.left] at hmem
      have hloads := ((updates_ensures _ _ (remembers_empty _ _)).elim_ok hrun).2
      rw [h.left.model] at hloads
      rw [loads_eq ha h hvalue] at he
      exact (hloads.succeeds a hmem e' he).elim

theorem updates_lockstep (h : Twins m₁ m₂ p₁ p₂) (hvalue : p₂.value = p₁.value) :
    Lockstep m₁ m₂ (updates {} p₁.model.assignments.values) (updates {} p₂.model.assignments.values)
      p₁ p₂ fun loaded₁ loaded₂ t₁ t₂ => t₁ = p₁ ∧ t₂ = p₂ ∧
        Loads p₁ m₁.assignments.values loaded₁ ∧ Loads p₂ m₂.assignments.values loaded₂ := by
  have hupdates₁ := updates_ensures (s := p₁) p₁.model.assignments.values {} (remembers_empty _ _)
  have hupdates₂ := updates_ensures (s := p₂) p₂.model.assignments.values {} (remembers_empty _ _)
  cases h₁ : outcome (updates {} p₁.model.assignments.values) p₁ with
  | mk r₁ t₁ =>
    cases h₂ : outcome (updates {} p₂.model.assignments.values) p₂ with
    | mk r₂ t₂ =>
      cases r₁ with
      | ok loaded₁ =>
        obtain ⟨rfl, hloads₁⟩ := hupdates₁.elim_ok h₁
        obtain ⟨loaded₂, hrun⟩ := h.updates_ok ha hvalue h₁
        obtain ⟨-, hloads₂⟩ := hupdates₂.elim_ok hrun
        rw [h.left.model] at hloads₁
        rw [h.right.model] at hloads₂
        exact .of_ok h₁ hrun h ⟨rfl, rfl, hloads₁, hloads₂⟩
      | error e₁ =>
        obtain ⟨rfl, -⟩ := hupdates₁.elim_error h₁
        cases r₂ with
        | error e₂ =>
          obtain ⟨rfl, -⟩ := hupdates₂.elim_error h₂
          exact .of_error h₁ h₂ h
        | ok loaded₂ =>
          obtain ⟨rfl, -⟩ := hupdates₂.elim_ok h₂
          obtain ⟨loaded₁, hrun⟩ := (h.symm ha).updates_ok ha.symm hvalue.symm h₂
          rw [hrun] at h₁
          cases h₁

/-- A clock edge determines all values that are not driven in the same cycle. -/
theorem Clocked.agree (h : Twins m₁ m₂ p₁ p₂) (hvalue : p₂.value = p₁.value) {q₁ q₂ : Simulator R}
    (h₁ : Clocked m₁ p₁ q₁) (h₂ : Clocked m₂ p₂ q₂) (hx : m₁.isCombinational x = false) :
    q₂.value x = q₁.value x := by
  have hx₂ : m₂.isCombinational x = false := by rw [ha.isCombinational, hx]
  have hloads := loads_eq ha h hvalue
  have hassign := congrFun ha.assignment? x
  have hkeep : (∀ a, m₁.assignment? x = some a → p₁.loads a = none) → q₂.value x = q₁.value x := by
    intro hnone
    rw [h₁.keep x hx hnone, h₂.keep x hx₂ fun a h => hloads a ▸ hnone a (hassign ▸ h), hvalue]
  cases hxa : m₁.assignment? x with
  | none => exact hkeep (by simp [hxa])
  | some a =>
    cases hl : p₁.loads a with
    | none => exact hkeep (by simp [hxa, hl])
    | some r =>
      cases r with
      | error e => exact (h₁.succeeds x a e hxa hl).elim
      | ok v =>
        rw [h₁.load x a v hxa hl, h₂.load x a v (hassign.trans hxa) ((hloads a).trans hl), ha.store]

theorem clockEdge_lockstep (h : Twins m₁ m₂ p₁ p₂) (hvalue : p₂.value = p₁.value) :
    Lockstep m₁ m₂ clockEdge clockEdge p₁ p₂ fun _ _ t₁ t₂ => t₂.value = t₁.value := by
  unfold clockEdge
  refine Lockstep.get_bind ((updates_lockstep ha h hvalue).bind ?_)
  rintro loaded₁ loaded₂ _ _ - ⟨rfl, rfl, hloads₁, hloads₂⟩
  obtain ⟨q₁, hrun₁, hq₁⟩ := hloads₁.clocked ha.left h.left.toOf
  obtain ⟨q₂, hrun₂, hq₂⟩ := hloads₂.clocked ha.right h.right.toOf
  have htwins :
      Twins m₁ m₂ { q₁ with cycle := q₁.cycle + 1 } { q₂ with cycle := q₂.cycle + 1 } := by
    refine ⟨?_, ?_, fun x hx => Clocked.agree ha h hvalue hq₁ hq₂ hx, ?_⟩
    · exact (h.left.evolves ((assignAll_evolves _).elim_ok hrun₁).1).evolves ⟨rfl, rfl, rfl⟩
    · exact (h.right.evolves ((assignAll_evolves _).elim_ok hrun₂).1).evolves ⟨rfl, rfl, rfl⟩
    · rw [hq₁.cycle, hq₂.cycle, h.cycle]
  have hsettle := settle_lockstep ha htwins
  unfold Lockstep at hsettle ⊢
  rw [outcome_bind_ok hrun₁, outcome_bind_ok hrun₂]
  exact hsettle

/-- Steps with the same inputs go in lockstep. -/
theorem step_lockstep (h : Twins m₁ m₂ s₁ s₂) (inputs : List (SignalId × Value R)) :
    Lockstep m₁ m₂ (step inputs) (step inputs) s₁ s₂ fun _ _ t₁ t₂ => t₂.value = t₁.value := by
  have hprepare : Lockstep m₁ m₂ (prepare inputs) (prepare inputs) s₁ s₂
      fun _ _ t₁ t₂ => t₂.value = t₁.value :=
    (driveInputs_lockstep ha inputs h).bind fun _ _ _ _ ht _ => settle_lockstep ha ht
  exact hprepare.bind fun _ _ _ _ ht hvalue => clockEdge_lockstep ha ht hvalue

theorem start_twins (h : start m₁ = .ok s₁) :
    ∃ s₂, start m₂ = .ok s₂ ∧ Twins m₁ m₂ s₁ s₂ ∧ s₂.value = s₁.value := by
  obtain ⟨order₁, horder₁, hv, hrun₁⟩ := start_eq_ok_iff.1 h
  obtain ⟨order₂, horder₂⟩ := ha.combinationalOrder (combinationalOrder_ok horder₁)
  have hreset : Twins m₁ m₂ (reset m₁ order₁) (reset m₂ order₂) := by
    refine ⟨running_reset horder₁, running_reset horder₂, fun x _ => ?_, rfl⟩
    simp only [value, reset, ha.store, ha.startValue]
  obtain ⟨s₂, hrun₂, hvalue⟩ := hreset.settle_ok ha hrun₁
  have htwins := hreset.settled ha
  rw [hrun₁, hrun₂] at htwins
  exact ⟨s₂, start_eq_ok_iff.2 ⟨order₂, horder₂, ha.hasValues.trans hv, hrun₂⟩, htwins, hvalue⟩

theorem start_isOk : (start m₂).isOk = (start m₁).isOk := by
  cases h₁ : start m₁ with
  | ok s₁ =>
    obtain ⟨s₂, h₂, -⟩ := start_twins ha h₁
    rw [h₂]
    rfl
  | error e₁ =>
    cases h₂ : start m₂ with
    | error e₂ => rfl
    | ok s₂ =>
      obtain ⟨s, h, -⟩ := start_twins ha.symm h₂
      rw [h] at h₁
      cases h₁

omit ha

/-- The state after a history of steps, whether they succeed or fail. -/
def after (s : Simulator R) (history : List (List (SignalId × Value R))) : Simulator R :=
  history.foldl (fun s inputs => (outcome (step inputs) s).2) s

theorem Twins.after (ha : Alike m₁ m₂) (history : List (List (SignalId × Value R)))
    (h : Twins m₁ m₂ s₁ s₂) : Twins m₁ m₂ (s₁.after history) (s₂.after history) := by
  induction history generalizing s₁ s₂ with
  | nil => exact h
  | cons inputs history ih => exact ih (step_lockstep ha h inputs).1

/-- In a step all registers load what the state `p` makes of them, in which inputs are driven and
same-cycle assignments have settled. So the order in which assignments were inserted cannot be
observed. -/
theorem registers_load_together [Numerics R] :
    (∀ (m : Model R) (s s' : Simulator R) (inputs : List (SignalId × Value R)),
      (m.Built fun _ _ => True) → Reachable m s → outcome (step inputs) s = (.ok ⟨⟩, s') →
      ∃ p, outcome (prepare inputs) s = (.ok ⟨⟩, p) ∧
        (∀ x, m.isCombinational x = false → p.value x = s.driven inputs x) ∧
        m.Settled p.value ∧
        (∀ x a c init, m.assignment? x = some a → a.timing = .nextCycle c init →
          if p.isHigh c.reset then s'.value x = init.coerce (m.store.signal x).format
          else if p.isEnabled c then ∃ v, m.store.eval p.value a.expr = .ok v ∧
            s'.value x = v.coerce (m.store.signal x).format
          else s'.value x = p.value x) ∧
        (∀ x, (m.store.signal x).role.isAssignable = false ∨ m.assignment? x = none →
          s'.value x = p.value x) ∧
        s'.cycle = s.cycle + 1) ∧
    ∀ m₁ m₂ : Model R, (m₁.Built fun _ _ => True) → Reordered m₁ m₂ →
      (start m₂).isOk = (start m₁).isOk ∧
      ∀ s₁ s₂, start m₁ = .ok s₁ → start m₂ = .ok s₂ →
        s₂.value = s₁.value ∧
        ∀ history inputs,
          (outcome (step inputs) (s₂.after history)).1.isOk =
            (outcome (step inputs) (s₁.after history)).1.isOk ∧
          (s₂.after (history ++ [inputs])).cycle = (s₁.after (history ++ [inputs])).cycle ∧
          ((outcome (step inputs) (s₁.after history)).1.isOk = true →
            (s₂.after (history ++ [inputs])).value = (s₁.after (history ++ [inputs])).value) := by
  constructor
  · intro m s s' inputs hb hs h
    have hm := hb.wellFormed_any
    obtain ⟨p, hprepare, hp, hclocked, -⟩ := step_clocked hm hs.running h
    obtain ⟨-, hsettled, hcycle, hdriven⟩ := prepare_settled hm hs.running hprepare
    refine ⟨p, hprepare, hdriven, hsettled, ?_, ?_, ?_⟩
    · exact fun x a c init ha ht => hclocked.register hp.toOf ha ht
    · rintro x (hx | hx)
      · exact hclocked.unassigned (assignment?_of_not_isAssignable hm hx)
      · exact hclocked.unassigned hx
    · rw [hclocked.cycle, hcycle]
  · intro m₁ m₂ hb hr
    have ha := hr.alike (hb.wellFormed_any)
    refine ⟨start_isOk ha, fun s₁ s₂ h₁ h₂ => ?_⟩
    obtain ⟨s, h, htwins, hvalue⟩ := start_twins ha h₁
    obtain rfl := Except.ok.inj (h.symm.trans h₂)
    refine ⟨hvalue, fun history inputs => ?_⟩
    have hstep := step_lockstep ha (htwins.after ha history) inputs
    refine ⟨hstep.isOk_eq, (htwins.after ha (history ++ [inputs])).cycle, fun hok => ?_⟩
    obtain ⟨-, -, hequal⟩ := hstep.elim hok
    simpa [Simulator.after] using hequal

/-- A model with inputs `r` and `e` and two registers that swap their values. One of them is reset
by `r` and enabled by `e`. -/
def swapModel : Model ℚ :=
  Model.performAll { name := "m", dt := none } [.digitalInput "r" 1 .unsigned,
    .digitalInput "e" 1 .unsigned, .digitalState "a" 4 .unsigned 1, .digitalState "b" 4 .unsigned 2,
    .nextCycle 2 (.signal 3) ⟨none, some 0, some 1⟩ true, .nextCycle 3 (.signal 2) {} true]

/-- The registers in the other order. -/
def swapModelReversed : Model ℚ :=
  { swapModel with assignments := ⟨swapModel.assignments.entries.reverse⟩ }

theorem swapModel_reordered : Reordered swapModel swapModelReversed := .reverse swapModel

theorem swapModel_computed :
    (swapModel.Built fun _ _ => True) ∧ start swapModel = .ok (reset swapModel []) ∧
    start swapModelReversed = .ok (reset swapModelReversed []) ∧
    swapModel.isCombinational 2 = false ∧ swapModel.isCombinational 3 = false := by
  have hb : swapModel.Built fun _ _ => True := .ofOperations (by decide +kernel)
  have h : swapModel.combinationalOrder = .ok [] ∧ swapModel.hasValues = true ∧
      swapModelReversed.combinationalOrder = .ok [] ∧
      swapModel.isCombinational 2 = false ∧ swapModel.isCombinational 3 = false := by
    decide +kernel
  obtain ⟨horder, hvalues, horder', h2, h3⟩ := h
  exact ⟨hb, start_eq_ok_iff.2 ⟨[], horder, hvalues, rfl⟩,
    start_eq_ok_iff.2 ⟨[], horder',
      (swapModel_reordered.alike hb.wellFormed_any).hasValues.trans hvalues, rfl⟩, h2, h3⟩

/-- With `e` high each register loads what the other one held, whichever comes first. -/
theorem registers_load_together_swap :
    (swapModel.Built fun _ _ => True) ∧ Reordered swapModel swapModelReversed ∧
    Reachable swapModel (reset swapModel []) ∧
    (∃ p, outcome (prepare [(1, .int 1)]) (reset swapModel []) = (.ok ⟨⟩, p) ∧
      p.value 2 = .int 1 ∧ p.value 3 = .int 2) ∧
    ((reset swapModel []).after [[(1, .int 1)]]).value 2 = .int 2 ∧
    ((reset swapModel []).after [[(1, .int 1)]]).value 3 = .int 1 ∧
    ((reset swapModelReversed []).after [[(1, .int 1)]]).value =
      ((reset swapModel []).after [[(1, .int 1)]]).value := by
  obtain ⟨hb, hstart, hstart', h2, h3⟩ := swapModel_computed
  have hreachable := Reachable.start hstart
  have hok : (outcome (step [(1, .int 1)]) (reset swapModel [])).1.isOk = true := by cbv
  obtain ⟨_, hstep⟩ := exists_of_isOk hok
  obtain ⟨p, hprepare, hdriven, -⟩ := registers_load_together.1 swapModel _ _ [(1, .int 1)]
    hb hreachable hstep
  obtain ⟨-, hsame⟩ := registers_load_together.2 swapModel swapModelReversed hb swapModel_reordered
  refine ⟨hb, swapModel_reordered, hreachable, ⟨p, hprepare, ?_, ?_⟩, by cbv, by cbv, ?_⟩
  · rw [hdriven 2 h2]
    cbv
  · rw [hdriven 3 h3]
    cbv
  · have hstep := (hsame _ _ hstart hstart').2 [] [(1, .int 1)]
    exact hstep.2.2 hok

end Simulator

end MixedSignal
