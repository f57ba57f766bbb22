import MixedSignal.Proofs.Progress

/-!
# Failed steps

A step that fails keeps what it had done. Inputs are driven one by one, so an entry that is no input
is refused after those before it were written. Same-cycle assignments settle one by one, so one that
fails leaves those before it settled. At the clock edge all registers find what they load before any
of them loads, so an expression that fails there leaves a settled state; if same-cycle assignments
fail afterwards, registers have loaded and the cycle has been counted. `FailedStep` lists what can
be left.

No expression of a model that compiles fails, so there a step fails only at an entry that is no
input. Whatever a failed step left, the next step that succeeds leaves a settled state.
-/

namespace MixedSignal.Simulator

open Dependency Model

variable {R : Type} [Scalar R] {rounding : Rounding R} {m : Model R} {s s' : Simulator R}
  {inputs : List (SignalId × Value R)} {e : Error}

/-! ## Inputs -/

/-- Entries can be driven only if all of them are inputs. -/
theorem isInput_of_driveInputs (hs : Of m s)
    (h : outcome (inputs.forM fun (i, v) => driveInput i v) s = (.ok ⟨⟩, s')) :
    ∀ input ∈ inputs, (m.store.signal input.1).role.isInput = true := by
  induction inputs generalizing s with
  | nil => simp
  | cons input inputs ih =>
    obtain ⟨_, t, hfirst, hrest⟩ := outcome_bind_eq_ok h
    have hrun := outcome_driveInput hs input.1 input.2
    rw [show outcome (driveInput input.1 input.2) s = _ from hfirst] at hrun
    split at hrun
    · rename_i hinput
      obtain ⟨-, rfl⟩ := Prod.mk.inj hrun
      exact List.forall_mem_cons.2
        ⟨hinput, ih (hs.only (only_setValue (p := fun _ => True) trivial _)) hrest⟩
    · cases hrun

/-- Driving stops at the first entry that is no input. -/
theorem driveInputs_error (hs : Of m s)
    (h : outcome (inputs.forM fun (i, v) => driveInput i v) s = (.error e, s')) :
    ∃ before x v after, inputs = before ++ (x, v) :: after ∧
      (∀ input ∈ before, (m.store.signal input.1).role.isInput = true) ∧
      (m.store.signal x).role.isInput = false ∧
      e = .construction (.notAssignable (m.store.signal x).name) ∧
      s'.value = s.driven before ∧ s'.cycle = s.cycle := by
  obtain ⟨before, ⟨x, v⟩, after, t, rfl, hbefore, hx⟩ := outcome_forM_eq_error h
  obtain ⟨honly, hvalue⟩ := (driveInputs_ensures before hs).elim_ok hbefore
  have hrun := outcome_driveInput (hs.only honly) x v
  rw [show outcome (driveInput x v) t = _ from hx] at hrun
  split at hrun
  · cases hrun
  · rename_i hinput
    obtain ⟨he, rfl⟩ := Prod.mk.inj hrun
    exact ⟨before, x, v, after, rfl, isInput_of_driveInputs hs hbefore, by simpa using hinput,
      Except.error.inj he, hvalue, honly.cycle⟩

/-! ## Same-cycle assignments -/

/-- From the values `base`, same-cycle assignments have settled up to one whose expression fails. -/
def StopsAt (m : Model R) (base : SignalId → Value R) (s : Simulator R) (e : EmitError) : Prop :=
  ∃ before x after a, s.order = before ++ x :: after ∧ (∀ y ∈ before, m.SettledAt s.value y) ∧
    (∀ y, y ∉ before → s.value y = base y) ∧ m.assignment? x = some a ∧
    m.store.eval s.value a.expr = .error e

theorem settleSignal_error (hs : Of m s) {x : SignalId} {a : Assignment R}
    (ha : m.assignment? x = some a) (h : outcome (settleSignal x) s = (.error e, s')) :
    s' = s ∧ ∃ e', e = .emit e' ∧ m.store.eval s.value a.expr = .error e' := by
  have ha' : s.model.assignment? x = some a := by rw [hs.model, ha]
  unfold settleSignal at h
  rw [outcome_get_bind] at h
  simp only [ha'] at h
  rw [← hs.eval]
  cases hv : s.eval a.expr with
  | ok v =>
    obtain ⟨memo, hrun, -⟩ := evaluate_ok (remembers_empty _ _) hv
    rw [outcome_bind_ok hrun] at h
    cases h
  | error e' =>
    rw [outcome_bind_error (evaluate_error (remembers_empty _ _) hv)] at h
    obtain ⟨he, rfl⟩ := Prod.mk.inj h
    exact ⟨rfl, e', (Except.error.inj he).symm, rfl⟩

/-- Settling stops at a signal whose expression fails, with those before it settled. -/
theorem settle_error (hm : m.WellFormed rounding) (hs : Running m s)
    (h : outcome settle s = (.error e, s')) :
    s'.cycle = s.cycle ∧ ∃ e', e = .emit e' ∧ StopsAt m s.value s' e' := by
  unfold settle at h
  rw [outcome_get_bind] at h
  obtain ⟨before, x, after, t, horder, hbefore, hx⟩ := outcome_forM_eq_error h
  have hcomb : ∀ y ∈ before ++ x :: after, m.isCombinational y = true := fun y hy =>
    (hs.order.mem_iff y).1 (horder ▸ hy)
  have hordered : Ordered m.combinationalReads (before ++ x :: after) := horder ▸ hs.order.ordered
  obtain ⟨honly, hsettled⟩ := (forM_settle_ensures hm hordered.of_append
    (fun y hy => hcomb y (List.mem_append_left _ hy)) hs.toOf).elim_ok hbefore
  obtain ⟨a, ha, -⟩ := isCombinational_iff.1 (hcomb x (by simp))
  obtain ⟨rfl, e', rfl, he⟩ := settleSignal_error (hs.toOf.only honly) ha hx
  exact ⟨honly.cycle, e', rfl, before, x, after, a, honly.order.trans horder, hsettled,
    honly.value, ha, he⟩

/-! ## Registers -/

theorem assignAll_only (loaded : List (SignalId × Value R)) :
    Ensures (Only (· ∈ loaded.map Prod.fst)) (loaded.forM fun r => assign r.1 r.2) s
      (fun _ => True) fun _ _ => True :=
  Ensures.forM loaded s fun r hr _ _ =>
    .of_ok rfl (only_setValue (List.mem_map_of_mem (f := Prod.fst) hr) r.2) trivial

/-- No signal that is driven in the same cycle loads at the clock edge. -/
theorem Loads.not_mem_of_isCombinational (hm : m.WellFormed rounding) {p : Simulator R}
    {loaded : List (SignalId × Value R)} (h : Loads p m.assignments.values loaded) {x : SignalId}
    (hx : m.isCombinational x = true) : x ∉ loaded.map Prod.fst := by
  intro hmem
  obtain ⟨⟨y, v⟩, hr, rfl⟩ := List.mem_map.1 hmem
  obtain ⟨a, ha, rfl, hv⟩ := (h.mem_iff y v).1 hr
  rw [loads_of_isCombinational hx ((mem_values_iff hm).1 ha)] at hv
  cases hv

/-! ## Steps -/

/-- What a step that fails leaves. -/
inductive FailedStep (m : Model R) (s : Simulator R) (inputs : List (SignalId × Value R)) :
    Error → Simulator R → Prop
  /-- An entry is no input. Those before it are driven, and nothing else has changed. -/
  | refused {t before x v after} (hinputs : inputs = before ++ (x, v) :: after)
    (hbefore : ∀ input ∈ before, (m.store.signal input.1).role.isInput = true)
    (hx : (m.store.signal x).role.isInput = false) (hvalue : t.value = s.driven before)
    (hcycle : t.cycle = s.cycle) :
    FailedStep m s inputs (.construction (.notAssignable (m.store.signal x).name)) t
  /-- Inputs are driven, and same-cycle assignments have stopped before the clock edge. -/
  | unsettled {t e'} (hinputs : ∀ input ∈ inputs, (m.store.signal input.1).role.isInput = true)
    (hcycle : t.cycle = s.cycle) (hstops : StopsAt m (s.driven inputs) t e') :
    FailedStep m s inputs (.emit e') t
  /-- The state is the one that the clock edge sees, in which the expression of a register fails. -/
  | unloaded {t x a e'} (hinputs : ∀ input ∈ inputs, (m.store.signal input.1).role.isInput = true)
    (hvalue : ∀ x, m.isCombinational x = false → t.value x = s.driven inputs x)
    (hcycle : t.cycle = s.cycle) (hsettled : m.Settled t.value) (ha : m.assignment? x = some a)
    (he : t.loads a = some (.error e')) : FailedStep m s inputs (.emit e') t
  /-- Registers have loaded, and same-cycle assignments have stopped after the clock edge. -/
  | clocked {p q t e'} (hinputs : ∀ input ∈ inputs, (m.store.signal input.1).role.isInput = true)
    (hprepare : outcome (prepare inputs) s = (.ok ⟨⟩, p)) (hclocked : Clocked m p q)
    (hkept : ∀ x, m.isCombinational x = true → q.value x = p.value x)
    (hcycle : t.cycle = s.cycle + 1) (hstops : StopsAt m q.value t e') :
    FailedStep m s inputs (.emit e') t

theorem prepare_error (hm : m.WellFormed rounding) (hs : Running m s)
    (h : outcome (prepare inputs) s = (.error e, s')) : FailedStep m s inputs e s' := by
  rcases outcome_bind_eq_error h with hdrive | ⟨_, t, hdrive, hsettle⟩
  · obtain ⟨before, x, v, after, hinputs, hbefore, hx, rfl, hvalue, hcycle⟩ :=
      driveInputs_error hs.toOf hdrive
    exact .refused hinputs hbefore hx hvalue hcycle
  · obtain ⟨ht, hvalue⟩ := (driveInputs_ensures inputs hs.toOf).elim_ok hdrive
    obtain ⟨hcycle, e', rfl, hstops⟩ := settle_error hm (hs.only ht) hsettle
    rw [hvalue] at hstops
    exact .unsettled (isInput_of_driveInputs hs.toOf hdrive) (hcycle.trans ht.cycle) hstops

/-- A step fails in one of four ways, and leaves a state of that kind. -/
theorem step_error (hm : m.WellFormed rounding) (hs : Running m s)
    (h : outcome (step inputs) s = (.error e, s')) : FailedStep m s inputs e s' := by
  rcases outcome_bind_eq_error h with hprepare | ⟨_, p, hprepare, hedge⟩
  · exact prepare_error hm hs hprepare
  have hinputs : ∀ input ∈ inputs, (m.store.signal input.1).role.isInput = true := by
    obtain ⟨_, t, hdrive, -⟩ := outcome_bind_eq_ok hprepare
    exact isInput_of_driveInputs hs.toOf hdrive
  obtain ⟨hp, hsettled, hcycle, hvalue⟩ := prepare_settled hm hs hprepare
  unfold clockEdge at hedge
  rw [outcome_get_bind] at hedge
  have hupdates := updates_ensures (s := p) p.model.assignments.values {} (remembers_empty _ _)
  rcases outcome_bind_eq_error hedge with hfailed | ⟨loaded, p', hloaded, hrest⟩
  · obtain ⟨rfl, a, hmem, e', he, rfl⟩ := hupdates.elim_error hfailed
    rw [hp.model, mem_values_iff hm] at hmem
    exact .unloaded hinputs hvalue hcycle hsettled hmem he
  · obtain ⟨rfl, hloads⟩ := hupdates.elim_ok hloaded
    rw [hp.model] at hloads
    obtain ⟨q, hassign, hclocked⟩ := hloads.clocked hm hp.toOf
    rw [outcome_bind_ok hassign] at hrest
    have hq : Running m { q with cycle := q.cycle + 1 } :=
      (hp.evolves ((assignAll_evolves loaded).elim_ok hassign).1).evolves ⟨rfl, rfl, rfl⟩
    obtain ⟨hcycle', e', rfl, hstops⟩ := settle_error hm hq hrest
    refine .clocked hinputs hprepare hclocked (fun x hx => ?_) ?_ hstops
    · exact ((assignAll_only loaded).elim_ok hassign).1.value x
        (hloads.not_mem_of_isCombinational hm hx)
    · rw [hcycle', hclocked.cycle, hcycle]

/-- What a step that fails leaves of a simulation is one of four states. Nothing at all has changed
if the first entry is refused, and in a model that compiles a step fails only if it has an entry
that is no input. The next step that succeeds leaves a settled state. -/
theorem failed_step_leaves [Numerics R] (hb : m.Built fun _ _ => True) (hs : Reachable m s)
    (h : outcome (step inputs) s = (.error e, s')) :
    FailedStep m s inputs e s' ∧
    (∀ input rest, inputs = input :: rest → (m.store.signal input.1).role.isInput = false →
      s'.value = s.value ∧ s'.cycle = s.cycle) ∧
    (∀ settings text m', outcome (compile settings) m = (.ok text, m') →
      ∃ input ∈ inputs, (m.store.signal input.1).role.isInput = false) ∧
    ∀ next s'', outcome (step next) s' = (.ok ⟨⟩, s'') → m.Settled s''.value := by
  have hm := hb.wellFormed_any
  have hfailed := step_error hm hs.running h
  refine ⟨hfailed, ?_, fun settings text m' hrun => ?_, fun next s'' hnext => ?_⟩
  · rintro input rest rfl hinput
    cases hfailed with
    | @refused _ before _ _ _ hinputs hbefore _ hvalue hcycle =>
      cases before with
      | nil => exact ⟨hvalue, hcycle⟩
      | cons first before =>
        obtain ⟨rfl, -⟩ := List.cons.inj hinputs
        rw [hbefore input (by simp)] at hinput
        cases hinput
    | unsettled hinputs | unloaded hinputs | clocked hinputs =>
      rw [hinputs input (by simp)] at hinput
      cases hinput
  · obtain ⟨-, -, hcomplete⟩ := (compile_ensures hm settings).elim_ok hrun
    by_contra hall
    push Not at hall
    have hroles : ∀ input ∈ inputs, (m.store.signal input.1).role = .input := fun input hin =>
      Role.isInput_iff.1 (by simpa using hall input hin)
    exact ((step_progress hm (hcomplete.evaluable hm) hs.running hroles).elim_error h).2
  · have hreachable : Reachable m s' := by
      have hstep := hs.step inputs
      rwa [h] at hstep
    obtain ⟨_, -, -, -, hsettled⟩ := step_clocked hm hreachable.running hnext
    exact hsettled

/-- An input `x`, a name `w` for it, registers `s` and `h` that load `x` and `s`, and a signal `y`
that is zero unless `s` and `x` are high. Then it reads the unknown `z`, which has no value. -/
def gatedModel : Model ℚ :=
  Model.performAll { name := "m", dt := none } [.digitalInput "x" 1 .unsigned,
    .digitalState "s" 1 .unsigned 0, .digitalState "h" 1 .unsigned 0, .unknown "z",
    .construct (.bitwise .and [.signal 1, .signal 0]),
    .construct (.array [.value (.real 0), .signal 3] (.node 4)), .bindName "y" (.node 6),
    .bindName "w" (.signal 0), .nextCycle 1 (.signal 0) {} true,
    .nextCycle 2 (.signal 1) {} true]

theorem gatedModel_built : gatedModel.Built fun _ _ => True :=
  .ofOperations (by decide +kernel)

/-- The state in which a simulation of it starts. -/
def gatedStart : Simulator ℚ := (outcome settle (reset gatedModel [4, 5])).2

/-- The state after a step that drives `x` and then names the register `s`. -/
def gatedRefused : Simulator ℚ := (outcome (step [(0, .int 1), (1, .int 1)]) gatedStart).2

/-- The state after a step that drives `x`. -/
def gatedStopped : Simulator ℚ := (outcome (step [(0, .int 1)]) gatedStart).2

-- one evaluation for all values, as building the model is what takes long
theorem gated_computed :
    ([(outcome settle (reset gatedModel [4, 5])).1.isOk,
        (outcome (step [(0, .int 1), (1, .int 1)]) gatedStart).1.isOk,
        (outcome (step [(0, .int 1)]) gatedStart).1.isOk,
        (outcome (step [(1, .int 1), (0, .int 1)]) gatedStart).1.isOk,
        (outcome (step [(0, .int 0)]) gatedStopped).1.isOk],
      [gatedStart.values, gatedRefused.values, (outcome settle gatedRefused).2.values,
        gatedStopped.values],
      [gatedStart.cycle, gatedStopped.cycle]) =
    ([true, false, false, false, true],
      [#[.int 0, .int 0, .int 0, .real 0, .real 0, .int 0],
        #[.int 1, .int 0, .int 0, .real 0, .real 0, .int 0],
        #[.int 1, .int 0, .int 0, .real 0, .real 0, .int 1],
        #[.int 1, .int 1, .int 0, .real 0, .real 0, .int 1]],
      [0, 1]) := by
  cbv

theorem start_gatedModel : start gatedModel = .ok gatedStart := by
  have hcomputed := gated_computed
  simp only [Prod.mk.injEq, List.cons.injEq] at hcomputed
  exact start_of_isOk (by decide +kernel) (by decide +kernel) hcomputed.1.1

/-- A step that drives `x` and then names the register `s` fails, but `x` stays driven, and its name
`w` has not followed. A step that drives `x` alone fails at `y` after the clock edge: `s` has
loaded, and the cycle has been counted. -/
theorem failed_step_changes :
    (gatedModel.Built fun _ _ => True) ∧ start gatedModel = .ok gatedStart ∧
    ((outcome (step [(0, .int 1), (1, .int 1)]) gatedStart).1.isOk = false ∧
      gatedStart.value 0 = .int 0 ∧ gatedRefused.value 0 = .int 1 ∧
      gatedModel.Settled gatedStart.value ∧ ¬gatedModel.Settled gatedRefused.value) ∧
    (outcome (step [(0, .int 1)]) gatedStart).1.isOk = false ∧
      gatedStart.value 1 = .int 0 ∧ gatedStopped.value 1 = .int 1 ∧
      gatedStart.cycle = 0 ∧ gatedStopped.cycle = 1 := by
  have hm := gatedModel_built.wellFormed_any
  have hcomputed := gated_computed
  simp only [Prod.mk.injEq, List.cons.injEq] at hcomputed
  obtain ⟨⟨-, hfirst, hsecond, -⟩, ⟨hstart, hrefused, hsettle, hstopped, -⟩, hcycle, hcycle', -⟩ :=
    hcomputed
  refine ⟨gatedModel_built, start_gatedModel, ⟨hfirst, ?_, ?_, ?_, fun hsettled => ?_⟩,
    hsecond, ?_, ?_, hcycle, hcycle'⟩
  · rw [value, hstart]
    rfl
  · rw [value, hrefused]
    rfl
  · exact (Run.start start_gatedModel).settled hm
  · -- a settled state would stay as it is, but `w` follows `x`
    have hrunning : Running gatedModel gatedRefused :=
      ((Reachable.start start_gatedModel).step [(0, .int 1), (1, .int 1)]).running
    obtain ⟨t, hrun, hsame⟩ := settle_of_settled hm hrunning hsettled fun _ _ => rfl
    have hw := congrFun hsame 5
    rw [hrun] at hsettle
    rw [value, value, hsettle, hrefused] at hw
    cases hw
  · rw [value, hstart]
    rfl
  · rw [value, hstopped]
    rfl

/-- A step that names the register `s` first changes nothing. After the step that fails behind the
clock edge, one that drives `x` low settles again. -/
theorem failed_step_leaves_gated :
    (gatedModel.Built fun _ _ => True) ∧ Reachable gatedModel gatedStart ∧
    (∃ e t, outcome (step [(1, .int 1), (0, .int 1)]) gatedStart = (.error e, t) ∧
      t.value = gatedStart.value ∧ t.cycle = gatedStart.cycle) ∧
    ∃ e t, outcome (step [(0, .int 1)]) gatedStart = (.error e, gatedStopped) ∧
      FailedStep gatedModel gatedStart [(0, .int 1)] e gatedStopped ∧
      outcome (step [(0, .int 0)]) gatedStopped = (.ok ⟨⟩, t) ∧ gatedModel.Settled t.value := by
  have hreachable := Reachable.start start_gatedModel
  have hcomputed := gated_computed
  simp only [Prod.mk.injEq, List.cons.injEq] at hcomputed
  obtain ⟨⟨-, -, hstopped, hfirst, hnext, -⟩, -⟩ := hcomputed
  have hregister : (gatedModel.store.signal 1).role.isInput = false := by decide +kernel
  obtain ⟨e, hrun⟩ := exists_of_isOk_eq_false hfirst
  obtain ⟨-, hnothing, -⟩ := failed_step_leaves gatedModel_built hreachable hrun
  refine ⟨gatedModel_built, hreachable, ⟨e, _, hrun, hnothing _ _ rfl hregister⟩, ?_⟩
  obtain ⟨e, hrun⟩ := exists_of_isOk_eq_false hstopped
  obtain ⟨_, hrun'⟩ := exists_of_isOk hnext
  obtain ⟨hleft, -, -, hsettles⟩ := failed_step_leaves gatedModel_built hreachable hrun
  exact ⟨e, _, hrun, hleft, hrun', hsettles _ _ hrun'⟩

end MixedSignal.Simulator
