import MixedSignal.Proofs.Emitting

/-!
# Compiled models can be simulated

An expression has a value in every valuation if it has no case table, no derivative and no equation
variable (`Store.WellTyped.eval_ok`). These are what a compilation refuses, in all operands, while
evaluation meets only the selected element of a selection. So no evaluation in a compiled model
fails, whatever state a simulation is in, and steps that drive only inputs succeed
(`Simulator.step_progress`).

A compilation does not look at the words of equation variables, while a simulation has a value for
every signal. It does not start if a signal has a signed word without bits.
-/

set_option linter.unusedSectionVars false

namespace MixedSignal

variable {R : Type} [Scalar R]

/-! ## Evaluation -/

theorem exists_mapM_ok {ε α β : Type} {f : α → Except ε β} :
    ∀ {xs : List α}, (∀ x ∈ xs, ∃ y, f x = .ok y) → ∃ ys, xs.mapM f = .ok ys
  | [], _ => ⟨[], rfl⟩
  | x :: xs, h => by
    obtain ⟨y, hy⟩ := h x (by simp)
    obtain ⟨ys, hys⟩ := exists_mapM_ok fun z hz => h z (List.mem_cons_of_mem x hz)
    exact ⟨y :: ys, by rw [List.mapM_cons, hy, hys]; rfl⟩

theorem exists_foldlM_ok {ε α β : Type} {f : β → α → Except ε β} :
    ∀ {xs : List α} (b : β), (∀ x ∈ xs, ∀ b, ∃ c, f b x = .ok c) → ∃ c, xs.foldlM f b = .ok c
  | [], b, _ => ⟨b, rfl⟩
  | x :: xs, b, h => by
    obtain ⟨c, hc⟩ := h x (by simp) b
    obtain ⟨d, hd⟩ := exists_foldlM_ok c fun z hz => h z (List.mem_cons_of_mem x hz)
    exact ⟨d, by rw [List.foldlM_cons, hc]; exact hd⟩

namespace Store

open Dependency

variable {rounding : Rounding R} {s : Store R} {values : SignalId → Value R}

/-- A node whose kind has a value has a result, if its operands have values. -/
theorem evalKind_ok {operand : NodeId → Except EmitError (Value R)} {n : Node R}
    (hn : s.HasValue n.kind) (h : ∀ j ∈ s.operands n.kind, ∃ v, operand j = .ok v) :
    ∃ v, s.evalKind values operand n = .ok v := by
  obtain ⟨kind, format⟩ := n
  cases kind with
  | signal x =>
    have haux : (s.signal x).role.isAuxiliary = false := hn
    simp only [evalKind, haux]
    exact ⟨_, rfl⟩
  | const v => exact ⟨v, rfl⟩
  | arith op xs =>
    obtain ⟨vs, hvs⟩ : ∃ vs, xs.mapM operand = .ok vs := exists_mapM_ok h
    simp only [evalKind, hvs]
    cases format <;> exact ⟨_, rfl⟩
  | compare op a b =>
    obtain ⟨v, hv⟩ := h a (by simp [operands])
    obtain ⟨w, hw⟩ := h b (by simp [operands])
    exact ⟨_, evalKind_compare hv hw⟩
  | bitwise op xs =>
    obtain ⟨vs, hvs⟩ : ∃ vs, xs.mapM operand = .ok vs := exists_mapM_ok h
    simp only [evalKind, hvs, bind, Except.bind]
    split <;> exact ⟨_, rfl⟩
  | bitNot a | slice a =>
    obtain ⟨v, hv⟩ := h a (by simp [operands])
    simp only [evalKind, hv]
    exact ⟨_, rfl⟩
  | shift direction a =>
    obtain ⟨v, hv⟩ := h a (by simp [operands])
    cases direction <;> simp only [evalKind, hv] <;> exact ⟨_, rfl⟩
  | concat xs =>
    have hstep : ∀ x ∈ xs, ∀ k : Nat, ∃ l, (do
        return (k <<< s.width x) ||| (← operand x).toInt.toNat : Except EmitError Nat) = .ok l := by
      intro x hx k
      obtain ⟨v, hv⟩ := h x hx
      exact ⟨_, by rw [hv]; rfl⟩
    obtain ⟨k, hk⟩ := exists_foldlM_ok 0 hstep
    simp only [evalKind, hk]
    exact ⟨_, rfl⟩
  | convert conversion a =>
    obtain ⟨v, hv⟩ := h a (by simp [operands])
    cases conversion <;> simp only [evalKind, hv] <;> exact ⟨_, rfl⟩
  | select xs a =>
    obtain ⟨k, hk⟩ := h a (by simp [operands])
    simp only [evalKind, hk, bind, Except.bind]
    split
    · rename_i e he
      refine h e ?_
      split at he
      · cases he
      · simp [operands, List.mem_of_getElem? he]
    · exact ⟨_, rfl⟩
  | cases | deriv => exact hn.elim

/-- An expression has a value in every valuation, if all its nodes are of kinds that have one. -/
theorem WellTyped.eval_ok (h : s.WellTyped rounding) : ∀ i < s.nodes.size,
    (∀ j, Reaches s.children i j → s.HasValue (s.kind j)) → ∃ v, s.eval values i = .ok v := by
  intro i
  induction i using Nat.strong_induction_on with
  | _ i ih =>
    intro hi hvalue
    have hoperands : ∀ j ∈ s.children i, ∃ v, s.eval values j = .ok v := by
      intro j hj
      have hlt := h.below i hi j hj
      exact ih j hlt (hlt.trans hi) fun k hk => hvalue k (.head hj hk)
    obtain ⟨v, hv⟩ : ∃ v, s.evalKind values (s.eval values) (s.node i) = .ok v :=
      evalKind_ok (hvalue i .refl) hoperands
    exact ⟨_, by rw [h.eval_eq hi, hv]; rfl⟩

end Store

namespace Model

open Dependency Store

variable {rounding : Rounding R} {m : Model R}

/-- The expressions of all assignments have values in every valuation. -/
def Evaluable (m : Model R) : Prop :=
  ∀ x a, m.assignment? x = some a → ∀ values, ∃ v, m.store.eval values a.expr = .ok v

/-- Whatever has a counterpart in hardware has a value, equation variables apart. -/
theorem hasValue_of_inHardware {s : Store R} {k : NodeKind R} (hk : k.InHardware)
    (hsignal : ∀ x, k = .signal x → (s.signal x).role ≠ .auxiliary) : s.HasValue k := by
  cases k with
  | signal x =>
    have haux : ¬(s.signal x).role.isAuxiliary = true :=
      fun h => hsignal x rfl (Role.isAuxiliary_iff.1 h)
    simpa [HasValue] using haux
  | cases | deriv => exact hk.elim
  | _ => trivial

theorem Complete.evaluable (h : m.Complete) (hm : m.WellFormed rounding) : m.Evaluable := by
  intro x a ha values
  refine hm.store.eval_ok a.expr (hm.valid ha).2.expr_lt fun j hj => ?_
  exact hasValue_of_inHardware (h.inHardware x a ha j hj).1
    fun y hy => h.eliminated x a ha y ⟨j, hj, .inl hy⟩

theorem Reported.complete {m' : Model R} (h : m.Reported m') (hm : m.Complete) : m'.Complete := by
  obtain ⟨ds, rfl⟩ := h
  exact ⟨hm.driven, hm.eliminated, hm.acyclic, hm.inHardware⟩

theorem Reported.wellFormed {m' : Model R} (h : m.Reported m') (hm : m.WellFormed rounding) :
    m'.WellFormed rounding := by
  obtain ⟨ds, rfl⟩ := h
  exact { hm with }

end Model

namespace Simulator

open Model

variable {rounding : Rounding R} {m : Model R} {s : Simulator R}

/-! ## Simulation -/

theorem settle_progress (hm : m.WellFormed rounding) (he : m.Evaluable) (hs : Running m s) :
    Ensures Evolves settle s (fun _ => False) fun _ _ => True := by
  refine Ensures.get_bind (Ensures.forM _ s fun x hx t ht => ?_)
  obtain ⟨a, ha, -⟩ := isCombinational_iff.1 ((hs.order.mem_iff x).1 hx)
  refine (settleSignal_ensures (p := fun _ => True) (hs.evolves ht).toOf hm ha trivial).mono
    (fun _ => Only.evolves) ?_ fun _ _ _ _ => trivial
  rintro _ ⟨e, herror⟩
  obtain ⟨v, hv⟩ := he x a ha t.value
  rw [hv] at herror
  cases herror

theorem driveInputs_progress (inputs : List (SignalId × Value R)) (hs : Running m s)
    (h : ∀ input ∈ inputs, (m.store.signal input.1).role = .input) :
    Ensures Evolves (inputs.forM fun (i, v) => driveInput i v) s (fun _ => False)
      fun _ _ => True := by
  refine Ensures.forM inputs s fun input hin t ht => ?_
  have hrun := outcome_driveInput (hs.evolves ht).toOf input.1 input.2
  rw [h input hin] at hrun
  exact Ensures.of_ok hrun (only_setValue (p := fun _ => True) trivial _).evolves trivial

section

variable (hm : m.WellFormed rounding) (he : m.Evaluable) (hs : Running m s)
include hm he hs

theorem clockEdge_progress : Ensures Evolves clockEdge s (fun _ => False) fun _ _ => True := by
  have hupdates : Ensures Eq (updates {} s.model.assignments.values) s (fun _ => False)
      fun _ _ => True := by
    refine (updates_ensures _ _ (remembers_empty _ _)).mono (fun _ => id) ?_ fun _ _ _ _ => trivial
    rintro _ ⟨a, ha, e, herror, -⟩
    rw [hs.model, mem_values_iff hm] at ha
    obtain ⟨v, hv⟩ := he _ a ha s.value
    rw [← hs.eval] at hv
    -- what a register loads is its initial value or that of its expression
    unfold loads at herror
    split at herror
    · cases herror
    · split at herror
      · cases herror
      · split at herror
        · rw [hv] at herror
          cases herror
        · cases herror
  refine Ensures.get_bind ((Ensures.of_kept hupdates).bind fun loaded t ht _ => ?_)
  refine Ensures.bind (P := fun _ _ => True) (Ensures.forM loaded t fun r _ u _ => ?_)
    fun _ u hu _ => ?_
  · exact Ensures.of_ok rfl (only_setValue (p := fun _ => True) trivial _).evolves trivial
  refine Ensures.bind (P := fun _ _ => True) (Ensures.of_ok rfl ⟨rfl, rfl, rfl⟩ trivial)
    fun _ v hv _ => ?_
  exact settle_progress hm he (((hs.evolves ht).evolves hu).evolves hv)

/-- A step that drives only inputs succeeds. -/
theorem step_progress {inputs : List (SignalId × Value R)}
    (h : ∀ input ∈ inputs, (m.store.signal input.1).role = .input) :
    Ensures Evolves (step inputs) s (fun _ => False) fun _ _ => True := by
  refine ((driveInputs_progress inputs hs h).bind fun _ t ht _ =>
    settle_progress hm he (hs.evolves ht)).bind fun _ t ht _ => ?_
  exact clockEdge_progress hm he (hs.evolves ht)

/-- Steps that drive only inputs succeed, however many. -/
theorem steps_progress {history : List (List (SignalId × Value R))}
    (h : ∀ inputs ∈ history, ∀ input ∈ inputs, (m.store.signal input.1).role = .input) :
    Ensures Evolves (history.forM step) s (fun _ => False) fun _ _ => True :=
  Ensures.forM history s fun inputs hin _ ht => step_progress hm he (hs.evolves ht) (h inputs hin)

end

theorem exists_start (hm : m.WellFormed rounding) (h : m.Complete) (hv : m.hasValues = true) :
    ∃ s, start m = .ok s := by
  obtain ⟨order, horder⟩ := (exists_combinationalOrder_iff hm).2 h.acyclic
  obtain ⟨_, s, hrun, -⟩ :=
    (settle_progress hm (h.evaluable hm) (running_reset horder)).succeeds
  exact ⟨s, start_eq_ok_iff.2 ⟨order, horder, hv, hrun⟩⟩

theorem start_of_hasValues_eq_false (hm : m.WellFormed rounding) (h : m.Complete)
    (hv : m.hasValues = false) : start m = .error (.emit .emptyWord) := by
  obtain ⟨order, horder⟩ := (exists_combinationalOrder_iff hm).2 h.acyclic
  rw [start_eq horder, hv]
  rfl

/-- A model that compiles can be simulated if all its signals have values: a simulation starts, and
steps that drive only inputs succeed, however many and with whatever values. No simulation starts if
a signal has a signed word without bits. The warnings of the compilation make no difference. -/
theorem compiled_model_simulates [Numerics R] (hb : m.Built fun _ _ => True) {settings : Settings}
    {text : String} {m' : Model R} (h : outcome (compile settings) m = (.ok text, m')) :
    m.Reported m' ∧ ∀ n, m.Reported n →
      (m.hasValues = false → start n = .error (.emit .emptyWord)) ∧
      (m.hasValues = true → ∃ s, start n = .ok s ∧
        ∀ history : List (List (SignalId × Value R)),
          (∀ inputs ∈ history, ∀ input ∈ inputs, (m.store.signal input.1).role = .input) →
          ∃ s', outcome (history.forM step) s = (.ok ⟨⟩, s')) := by
  have hm := hb.wellFormed_any
  obtain ⟨hreported, -, hcomplete⟩ := (compile_ensures hm settings).elim_ok h
  refine ⟨hreported, fun n hn => ?_⟩
  have hwell := hn.wellFormed hm
  have hn' := hn.complete hcomplete
  obtain ⟨hvalues, hroles⟩ : n.hasValues = m.hasValues ∧
      ∀ x, (n.store.signal x).role = (m.store.signal x).role := by
    obtain ⟨ds, rfl⟩ := hn
    exact ⟨rfl, fun _ => rfl⟩
  refine ⟨fun hv => start_of_hasValues_eq_false hwell hn' (hvalues.trans hv), fun hv => ?_⟩
  obtain ⟨s, hstart⟩ := exists_start hwell hn' (hvalues.trans hv)
  refine ⟨s, hstart, fun history hinputs => ?_⟩
  have hinputs' : ∀ inputs ∈ history, ∀ input ∈ inputs, (n.store.signal input.1).role = .input :=
    fun inputs hin input hinput => (hroles _).trans (hinputs inputs hin input hinput)
  obtain ⟨_, s', hrun, -⟩ :=
    (steps_progress hwell (hn'.evaluable hwell) (Reachable.start hstart).running hinputs').succeeds
  exact ⟨s', hrun⟩

/-- The product of an input and a selected gain is computed in every cycle, also when the selecting
bit changes. -/
theorem compiled_model_simulates_gain :
    (gainModel.Built fun _ _ => True) ∧
    ∃ text m', outcome (compile {}) gainModel = (.ok text, m') ∧ ∃ s, start gainModel = .ok s ∧
      ∃ s', outcome ([[(0, .real 3)], [(1, .int 1)], []].forM step) s =
        (.ok ⟨⟩, s') := by
  obtain ⟨text, m', hrun⟩ := gainModel_complete.exists_compile gainModel_built.wellFormed_any
  obtain ⟨s, hstart, hsteps⟩ :=
    ((compiled_model_simulates gainModel_built hrun).2 gainModel (refl_of _ _)).2 (by decide +kernel)
  refine ⟨gainModel_built, text, m', hrun, s, hstart, hsteps _ ?_⟩
  have hinputs : ∀ x < 2, (gainModel.store.signal x).role.isInput = true := by decide +kernel
  have hroles : ∀ x < 2, (gainModel.store.signal x).role = .input :=
    fun x hx => Role.isInput_iff.1 (hinputs x hx)
  simp [hroles]

/-- A model with an equation variable in a signed word without bits. -/
def emptyWordModel : Model ℚ :=
  Model.performAll { name := "m", dt := none }
    [.construct (.signal "z" (.int ⟨.signed, 0, ⟨0, 0, le_rfl⟩⟩) .auxiliary none)]

/-- The equation variable is compiled, but has no value. -/
theorem empty_word_not_simulated : (emptyWordModel.Built fun _ _ => True) ∧
    (∃ text m', outcome (compile {}) emptyWordModel = (.ok text, m')) ∧
    start emptyWordModel = .error (.emit .emptyWord) := by
  have hb : emptyWordModel.Built fun _ _ => True := .ofOperations (by decide +kernel)
  have hm := hb.wellFormed_any
  have hnone : ∀ x, emptyWordModel.assignment? x = none := by
    intro x
    with_unfolding_all rfl
  have hcomplete : emptyWordModel.Complete := by
    refine ⟨fun x hx hrole => ?_, fun x a ha => ?_,
      (exists_combinationalOrder_iff hm).1 ⟨[], by decide +kernel⟩, fun x a ha => ?_⟩
    · obtain rfl : x = 0 := Nat.lt_one_iff.1 hx
      have haux : (emptyWordModel.store.signal 0).role.isAuxiliary = true := by decide +kernel
      simp [hrole, Role.isAuxiliary] at haux
    all_goals simp [hnone] at ha
  exact ⟨hb, hcomplete.exists_compile hm,
    start_of_hasValues_eq_false hm hcomplete (by decide +kernel)⟩

end Simulator

end MixedSignal
