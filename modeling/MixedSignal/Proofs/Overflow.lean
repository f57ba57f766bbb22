import MixedSignal.Proofs.Clocking

/-!
# No silent overflow

If signals have values in their formats, then every integer expression has a value in its own
format, and bringing the result of a node into its format changes it only where that is asked for.
In a model whose integer signals are traced (`Model.Traced`) every state of a simulation is of that
kind (`Simulator.Held`): it holds of the state in which a simulation starts, since same-cycle
assignments are computed in a dependency order, and everything that a step does keeps it, also when
the step fails.
-/

namespace MixedSignal

variable {R : Type} [Scalar R] {i : NodeId}

/-! ## Expressions -/

namespace Store

variable {s : Store R} {values : SignalId → Value R}

variable (h : s.WellTyped Rounding.explicit)
include h

/-- With a width for each rounded real, rounding wraps into the format. -/
theorem WellTyped.round_carries {a : NodeId} {g : IntFormat} (hi : i < s.nodes.size)
    (hk : s.kind i = .convert .realToSint a) (hg : s.format i = .int g) (k : Int) :
    g.Carries (g.repr.wrap k) := by
  have ht := h.typed i hi
  rw [hk, hg] at ht
  cases ht with
  | realToSint _ hround =>
    obtain ⟨w, hw, rfl⟩ := hround
    exact (IntFormat.full_fits fun _ => hw).carries (IntFormat.wrap_mem_full fun _ => hw)

theorem WellTyped.round_mem {a : NodeId} {g : IntFormat} (hi : i < s.nodes.size)
    (hk : s.kind i = .convert .realToSint a) (hg : s.format i = .int g) (k : Int) :
    g.repr.wrap k ∈ g.range :=
  (h.round_carries hi hk hg k).1

theorem WellTyped.roundsInRange (hi : i < s.nodes.size) : s.RoundsInRange values i :=
  fun _ hj _ _ hk hg _ _ => h.round_mem ((le_of_mem_occurrences i hj).trans_lt hi) hk hg _

theorem WellTyped.safe (hvalues : ∀ x < s.signals.size, (s.signal x).format.Holds (values x))
    (hi : i < s.nodes.size) (hvalue : ∀ j ∈ s.occurrences i, s.HasValue (s.kind j)) :
    ∀ j ∈ s.occurrences i, s.Safe values j := by
  intro j hj
  have hlt := (le_of_mem_occurrences i hj).trans_lt hi
  exact ⟨hvalue j hj, fun x hx => hvalues x (h.signal_lt hlt hx),
    fun _ _ hk hg _ _ => h.round_mem hlt hk hg _⟩

/-- A value that an expression has is held by its format, if those of the signals it reads are. -/
theorem WellTyped.holds_of_reads (hsig : s.SignalsFit) (hi : i < s.nodes.size)
    (hread : ∀ x ∈ s.signalsIn i, (s.signal x).format.Holds (values x)) {v : Value R}
    (hv : s.eval values i = .ok v) : (s.format i).Holds v := by
  classical
  -- other signals may as well have values in their formats
  let filled (x : SignalId) : Value R :=
    if (s.signal x).format.Holds (values x) then values x
    else (exists_holds (s.signal x).format).choose
  have hfilled : ∀ x, (s.signal x).format.Holds (filled x) := by
    intro x
    simp only [filled]
    split
    · assumption
    · exact (exists_holds (s.signal x).format).choose_spec
  have heq : s.eval filled i = s.eval values i := eval_congr i fun x hx => if_pos (hread x hx)
  exact h.holds_of_eval (fun _ _ => Rounding.explicit_fits) hsig (fun x _ => hfilled x) i hi
    (h.roundsInRange hi) v (heq.trans hv)

/-- An integer expression has a value in its format, and its node computes that value without
wrapping, unless it is a kind of node that is meant to wrap. -/
theorem WellTyped.eval_int (hsig : s.SignalsFit)
    (hvalues : ∀ x < s.signals.size, (s.signal x).format.Holds (values x)) (hi : i < s.nodes.size)
    (hvalue : ∀ j ∈ s.occurrences i, s.HasValue (s.kind j)) {f : IntFormat}
    (hf : s.format i = .int f) :
    ∃ v k, s.evalKind values (s.eval values) (s.node i) = .ok v ∧
      s.eval values i = .ok (.int k) ∧ k ∈ f.range ∧ (¬(s.kind i).Wraps → v = .int k) := by
  have hr : ∀ r g, Rounding.explicit (R := R) r g → g.Fits := fun _ _ => Rounding.explicit_fits
  obtain ⟨hgives, v, hv, -, hheld⟩ := h.eval_holds hr hsig i hi (h.safe hvalues hi hvalue)
  obtain ⟨k, hk, hmem⟩ := hgives.int hf
  refine ⟨v, k, hv, hk, hmem, fun hwraps => ?_⟩
  have hcoerce : v.coerce (s.format i) = v := (hheld hwraps).coerce_eq (h.fits hr hsig i hi)
  rw [h.eval_eq hi values, hv] at hk
  exact hcoerce.symm.trans (Except.ok.inj hk)

/-- The address of a selection finds an element. -/
theorem WellTyped.address_lt (hsig : s.SignalsFit)
    (hvalues : ∀ x < s.signals.size, (s.signal x).format.Holds (values x)) (hi : i < s.nodes.size)
    {elements : List NodeId} {address : NodeId} (hk : s.kind i = .select elements address)
    (hvalue : ∀ j ∈ s.occurrences address, s.HasValue (s.kind j)) :
    ∃ n < elements.length, s.eval values address = .ok (.int n) := by
  have hr : ∀ r g, Rounding.explicit (R := R) r g → g.Fits := fun _ _ => Rounding.explicit_fits
  have hlt : address < i := h.below i hi address (by simp [children, hk, operands])
  have ht := h.typed i hi
  rw [hk] at ht
  generalize s.format i = f at ht
  cases ht with
  | select ha _ hlength =>
    obtain ⟨hgives, -⟩ := h.eval_holds hr hsig address (hlt.trans hi)
      (h.safe hvalues (hlt.trans hi) hvalue)
    obtain ⟨n, hn, hlt'⟩ := hgives.unsigned ha (h.fits hr hsig address (hlt.trans hi))
    exact ⟨n, hlength ▸ hlt', hn⟩

end Store

/-! ## Traced models -/

namespace Model

variable {m : Model R} {x : SignalId} {a : Assignment R} {v : Value R}

/-- Integer signals of a traced model fit their words. The induction is on the number of the signal,
as what it depends on is older. -/
theorem Traced.signalsFit (ht : m.Traced) (hm : m.WellFormed Rounding.explicit) :
    m.store.SignalsFit := by
  intro x
  induction x using Nat.strong_induction_on with
  | _ x ih =>
    intro hx f hf
    cases ht x hx with
    | real h =>
      rw [h] at hf
      cases hf
    | full hw h =>
      rw [h] at hf
      cases hf
      exact IntFormat.full_fits fun _ => hw
    | bound ha hread he =>
      refine hm.store.fits_of_signalsIn (fun _ _ => Rounding.explicit_fits) _
        (hm.valid ha).2.expr_lt (fun y hy => ?_) f (he.trans hf)
      exact ih y (hread y hy) ((hread y hy).trans hx)
    | delayed _ hp hformat => exact ih _ hp (hp.trans hx) f (hformat.trans hf)

/-- The format of a signal holds whatever is brought into it, or the signal is driven by an
expression of its format and, if it is a register, starts within it. -/
theorem Traced.holds_or_driven (ht : m.Traced) (hm : m.WellFormed Rounding.explicit)
    (hx : x < m.store.signals.size) :
    (∀ v : Value R, (m.store.signal x).format.Holds (v.coerce (m.store.signal x).format)) ∨
    ∃ a, m.assignment? x = some a ∧ m.store.format a.expr = (m.store.signal x).format ∧
      ∀ c init, a.timing = .nextCycle c init → (m.store.signal x).format.Holds init := by
  cases ht x hx with
  | real h =>
    refine .inl fun v => ?_
    rw [h]
    trivial
  | full hw h =>
    refine .inl fun v => ?_
    rw [h]
    exact Format.full_holds_coerce (fun _ => hw) v
  | bound ha _ he => exact .inr ⟨_, ha, he, fun _ _ h => by cases h⟩
  | delayed ha hp hformat hinit =>
    refine .inr ⟨_, ha, (hm.store.leaf_format (hp.trans hx)).trans hformat, fun _ _ h => ?_⟩
    cases h
    exact hinit

theorem Traced.holds_coerce (ht : m.Traced) (hm : m.WellFormed Rounding.explicit)
    (hx : x < m.store.signals.size) (hv : (m.store.signal x).format.Holds v) :
    (m.store.signal x).format.Holds (v.coerce (m.store.signal x).format) := by
  rwa [hv.coerce_eq (ht.signalsFit hm x hx)]

/-- A value of the expression of a signal is held when it is brought into the format of the signal.
-/
theorem Traced.holds_driven (ht : m.Traced) (hm : m.WellFormed Rounding.explicit)
    (ha : m.assignment? x = some a) (hv : (m.store.format a.expr).Holds v) :
    (m.store.signal x).format.Holds (v.coerce (m.store.signal x).format) := by
  have hx : x < m.store.signals.size := (hm.valid ha).1 ▸ (hm.valid ha).2.signal_lt
  rcases ht.holds_or_driven hm hx with hall | ⟨b, hb, hformat, -⟩
  · exact hall v
  · obtain rfl := Option.some.inj (ha.symm.trans hb)
    exact ht.holds_coerce hm hx (hformat ▸ hv)

/-- The initial value of a register is held when it is brought into the format of the register. -/
theorem Traced.holds_init (ht : m.Traced) (hm : m.WellFormed Rounding.explicit)
    (ha : m.assignment? x = some a) {c : Clocking} {init : Value R}
    (htiming : a.timing = .nextCycle c init) :
    (m.store.signal x).format.Holds (init.coerce (m.store.signal x).format) := by
  have hx : x < m.store.signals.size := (hm.valid ha).1 ▸ (hm.valid ha).2.signal_lt
  rcases ht.holds_or_driven hm hx with hall | ⟨b, hb, -, hinit⟩
  · exact hall init
  · obtain rfl := Option.some.inj (ha.symm.trans hb)
    exact ht.holds_coerce hm hx (hinit c init htiming)

/-- Every value is held when it is brought into the format of a signal that is not driven. -/
theorem Traced.holds_undriven (ht : m.Traced) (hm : m.WellFormed Rounding.explicit)
    (hx : x < m.store.signals.size) (ha : m.assignment? x = none) (v : Value R) :
    (m.store.signal x).format.Holds (v.coerce (m.store.signal x).format) := by
  rcases ht.holds_or_driven hm hx with hall | ⟨b, hb, -⟩
  · exact hall v
  · rw [ha] at hb
    cases hb

end Model

/-! ## Simulations -/

namespace Simulator

open Dependency Model

variable {m : Model R} {s s' : Simulator R} {x : SignalId} {a : Assignment R} {v : Value R}

/-- All signals have values in their formats. -/
structure Held (m : Model R) (s : Simulator R) : Prop extends Of m s where
  holds : ∀ x < m.store.signals.size, (m.store.signal x).format.Holds (s.value x)

theorem Held.setValue (h : Held m s)
    (hv : (m.store.signal x).format.Holds (v.coerce (m.store.signal x).format)) :
    Held m (s.setValue x v) := by
  refine ⟨h.toOf.only (only_setValue (p := fun _ => True) trivial v), fun y hy => ?_⟩
  by_cases hyx : y = x
  · subst hyx
    rwa [value_setValue_self (h.size ▸ hy), h.model]
  · rw [value_setValue_of_ne hyx]
    exact h.holds y hy

/-- The computation keeps all values in their formats. -/
def KeepsHeld (m : Model R) (s s' : Simulator R) : Prop := Held m s → Held m s'

instance : Std.Refl (KeepsHeld m) := ⟨fun _ => id⟩

instance : IsTrans (Simulator R) (KeepsHeld m) where
  trans _ _ _ h h' := fun hs => h' (h hs)

theorem assign_keepsHeld (hv : (m.store.signal x).format.Holds
    (v.coerce (m.store.signal x).format)) :
    Ensures (KeepsHeld m) (assign x v) s (fun _ => True) fun _ _ => True :=
  .of_ok rfl (fun h => h.setValue hv) trivial

section

variable (hm : m.WellFormed Rounding.explicit) (ht : m.Traced)
include hm ht

section

variable (h : Held m s)
include h

theorem Held.eval_holds (hi : i < m.store.nodes.size) (hv : m.store.eval s.value i = .ok v) :
    (m.store.format i).Holds v :=
  hm.store.holds_of_reads (ht.signalsFit hm) hi
    (fun x hx => h.holds x (hm.store.signalsIn_lt hi x hx)) hv

theorem settleSignal_keepsHeld (x : SignalId) :
    Ensures (KeepsHeld m) (settleSignal x) s (fun _ => True) fun _ _ => True := by
  refine Ensures.get_bind ?_
  split
  · rename_i a ha
    rw [h.model] at ha
    cases hv : s.eval a.expr with
    | ok v =>
      obtain ⟨memo, hrun, -⟩ := evaluate_ok (remembers_empty _ _) hv
      rw [h.toOf.eval] at hv
      refine .of_ok (outcome_bind_ok hrun) (fun h => h.setValue ?_) trivial
      exact ht.holds_driven hm ha (h.eval_holds hm ht (hm.valid ha).2.expr_lt hv)
    | error e =>
      exact .of_error (outcome_bind_error (evaluate_error (remembers_empty _ _) hv)) id trivial
  · exact Ensures.pure trivial

theorem settle_keepsHeld : Ensures (KeepsHeld m) settle s (fun _ => True) fun _ _ => True :=
  Ensures.get_bind (Ensures.forM _ s fun x _ _ hs => settleSignal_keepsHeld hm ht (hs h) x)

/-- An input has a format that holds whatever is brought into it. -/
theorem driveInput_keepsHeld (x : SignalId) (v : Value R) :
    Ensures (KeepsHeld m) (driveInput x v) s (fun _ => True) fun _ _ => True := by
  have hrun := outcome_driveInput h.toOf x v
  split at hrun
  · rename_i hx
    have hassignable : (m.store.signal x).role.isAssignable = false := by
      cases hrole : (m.store.signal x).role <;> rw [hrole] at hx <;> first | rfl | cases hx
    have hnone := assignment?_of_not_isAssignable hm hassignable
    have hheld := ht.holds_undriven hm (lt_of_isInput hx) hnone v
    exact .of_ok hrun (fun h => h.setValue hheld) trivial
  · exact .of_error hrun id trivial

theorem prepare_keepsHeld (inputs : List (SignalId × Value R)) :
    Ensures (KeepsHeld m) (prepare inputs) s (fun _ => True) fun _ _ => True :=
  (Ensures.forM inputs s fun input _ _ hs =>
    driveInput_keepsHeld hm ht (hs h) input.1 input.2).bind
      fun _ _ hs _ => settle_keepsHeld hm ht (hs h)

/-- What a register loads is held by its format. -/
theorem Held.loads_holds (ha : m.assignment? x = some a) (hv : s.loads a = some (.ok v)) :
    (m.store.signal x).format.Holds (v.coerce (m.store.signal x).format) := by
  unfold loads at hv
  split at hv
  · cases hv
  · rename_i c init htiming
    split at hv
    · obtain rfl := Except.ok.inj (Option.some.inj hv)
      exact ht.holds_init hm ha htiming
    · split at hv
      · have hv := Option.some.inj hv
        rw [h.toOf.eval] at hv
        exact ht.holds_driven hm ha (h.eval_holds hm ht (hm.valid ha).2.expr_lt hv)
      · cases hv

theorem clockEdge_keepsHeld :
    Ensures (KeepsHeld m) clockEdge s (fun _ => True) fun _ _ => True := by
  refine Ensures.get_bind ?_
  have hupdates : Ensures Eq (updates {} s.model.assignments.values) s (fun _ => True)
      fun loaded _ => Loads s s.model.assignments.values loaded :=
    (updates_ensures _ _ (remembers_empty _ _)).mono (fun _ => id) (fun _ _ => trivial)
      fun _ _ _ => id
  refine (Ensures.of_kept hupdates).bind fun loaded t _ hloaded => ?_
  obtain ⟨rfl, hloads⟩ := hloaded
  rw [h.model] at hloads
  -- what is loaded was computed before the first register changes
  refine (Ensures.forM loaded t fun r hr u _ => assign_keepsHeld ?_).bind fun _ u hu _ => ?_
  · obtain ⟨a, ha, hsignal, hv⟩ := (hloads.mem_iff r.1 r.2).1 hr
    exact h.loads_holds hm ht (hsignal ▸ (mem_values_iff hm).1 ha) hv
  · have hcycle : Held m { u with cycle := u.cycle + 1 } :=
      ⟨⟨(hu h).model, (hu h).size⟩, (hu h).holds⟩
    refine Ensures.bind (P := fun _ w => w = { u with cycle := u.cycle + 1 })
      (.of_ok rfl (fun _ => hcycle) rfl) ?_
    rintro _ _ - rfl
    exact settle_keepsHeld hm ht hcycle

theorem step_keepsHeld (inputs : List (SignalId × Value R)) :
    Held m (outcome (step inputs) s).2 := by
  have hstep : Ensures (KeepsHeld m) (step inputs) s (fun _ => True) fun _ _ => True :=
    (prepare_keepsHeld hm ht h inputs).bind fun _ _ hs _ => clockEdge_keepsHeld hm ht (hs h)
  exact hstep.moved h

end

/-- The reset state has values in the formats of all signals that are not driven in the same cycle.
-/
theorem reset_holds (order : List SignalId) (hx : x < m.store.signals.size)
    (hc : m.isCombinational x = false) :
    (m.store.signal x).format.Holds ((reset m order).value x) := by
  rw [value_reset hx]
  unfold startValue
  cases ha : m.assignment? x with
  | none => exact ht.holds_undriven hm hx ha _
  | some a =>
    obtain ⟨rfl, hvalid⟩ := hm.valid ha
    cases htiming : a.timing with
    | thisCycle =>
      rw [isCombinational_iff.2 ⟨a, ha, htiming⟩] at hc
      cases hc
    | nextCycle c init =>
      have hassignable := hvalid.assignable
      have hinit := ht.holds_init hm ha htiming
      cases hrole : (m.store.signal a.signal).role with
      | param d =>
        rw [hrole] at hassignable
        cases hassignable
      | _ => simpa [htiming] using hinit

/-- One pass in a dependency order gives signals values in their formats, if the other signals have
such values. The signals that come first are read by those that come later. -/
theorem forM_settle_held {order : List SignalId}
    (ho : Ordered m.combinationalReads order) (hcomb : ∀ x ∈ order, m.isCombinational x = true)
    (hs : Of m s) (hother : ∀ x < m.store.signals.size, m.isCombinational x = false →
      (m.store.signal x).format.Holds (s.value x)) :
    Ensures (Only fun x => m.isCombinational x = true) (order.forM settleSignal) s (fun _ => True)
      fun _ s' => ∀ x ∈ order, (m.store.signal x).format.Holds (s'.value x) := by
  induction ho with
  | nil => exact Ensures.pure (by simp)
  | @snoc order x ho hfresh hreads ih =>
    refine (ih fun y hy => hcomb y (List.mem_append_left _ hy)).forM_concat fun t hst hheld => ?_
    have hc := hcomb x (by simp)
    obtain ⟨a, ha, -⟩ := isCombinational_iff.1 hc
    have hlt := (hm.valid ha).2.expr_lt
    have hread : ∀ y ∈ m.store.signalsIn a.expr, (m.store.signal y).format.Holds (t.value y) := by
      intro y hy
      cases hcy : m.isCombinational y with
      | true => exact hheld y (hreads y ((mem_combinationalReads ha).2 ⟨hy, hcy⟩))
      | false =>
        rw [hst.value y (by simp [hcy])]
        exact hother y (hm.store.signalsIn_lt hlt y hy) hcy
    refine (settleSignal_ensures (p := fun x => m.isCombinational x = true) (hs.only hst) hm ha
      hc).mono (fun _ => id) (fun _ _ => trivial) ?_
    rintro _ u - ⟨v, hv, hself, hne⟩ y hy
    by_cases hyx : y = x
    · rw [hyx, hself]
      exact ht.holds_driven hm ha (hm.store.holds_of_reads (ht.signalsFit hm) hlt hread hv)
    · rw [hne y hyx]
      exact hheld y (by simpa [hyx] using hy)

theorem start_held (h : start m = .ok s) : Held m s := by
  obtain ⟨order, horder, -, hrun⟩ := start_eq_ok_iff.1 h
  have hvalid := combinationalOrder_ok horder
  have hreset := running_reset horder
  have hother : ∀ x < m.store.signals.size, m.isCombinational x = false →
      (m.store.signal x).format.Holds ((reset m order).value x) :=
    fun x hx => reset_holds hm ht order hx
  obtain ⟨honly, hheld⟩ := (forM_settle_held hm ht hvalid.ordered
    (fun x => (hvalid.mem_iff x).1) hreset.toOf hother).elim_ok hrun
  refine ⟨hreset.toOf.only honly, fun x hx => ?_⟩
  cases hc : m.isCombinational x with
  | true => exact hheld x ((hvalid.mem_iff x).2 hc)
  | false =>
    rw [honly.value x (by simp [hc])]
    exact hother x hx hc

theorem Reachable.held (h : Reachable m s) : Held m s := by
  induction h with
  | start h => exact start_held hm ht h
  | step _ inputs ih => exact step_keepsHeld hm ht ih inputs

end

/-- Integer expressions have values in their formats, nodes do not wrap unless they are meant to,
and addresses find elements. In every state that a simulation reaches, integer signals have values
in their formats. -/
theorem integers_in_range [Numerics R] :
    (∀ (s : Store R) (values : SignalId → Value R), (s.Built fun s c => c.Explicit s) →
      s.SignalsFit → (∀ x < s.signals.size, (s.signal x).format.Holds (values x)) →
      (∀ i < s.nodes.size, (∀ j ∈ s.occurrences i, s.HasValue (s.kind j)) →
        ∀ f, s.format i = .int f →
          ∃ v k, s.evalKind values (s.eval values) (s.node i) = .ok v ∧
            s.eval values i = .ok (.int k) ∧ k ∈ f.range ∧ (¬(s.kind i).Wraps → v = .int k)) ∧
      ∀ i < s.nodes.size, ∀ elements address, s.kind i = .select elements address →
        (∀ j ∈ s.occurrences address, s.HasValue (s.kind j)) →
          ∃ n < elements.length, s.eval values address = .ok (.int n)) ∧
    ∀ (m : Model R) (s : Simulator R), m.Built Regular → Reachable m s →
      ∀ x < m.store.signals.size, ∀ f, (m.store.signal x).format = .int f →
        ∃ k, s.value x = .int k ∧ k ∈ f.range := by
  constructor
  · intro s values hb hsig hvalues
    have hs : s.WellTyped Rounding.explicit := hb.wellTyped fun _ _ h => h.rounds
    refine ⟨fun i hi hvalue f hf => ?_, fun i hi elements address hk hvalue => ?_⟩
    · exact hs.eval_int hsig hvalues hi hvalue hf
    · exact hs.address_lt hsig hvalues hi hk hvalue
  · intro m s hb h x hx f hf
    have hm : m.WellFormed Rounding.explicit := hb.wellFormed fun _ _ h => h.rounds
    have hvalue := (h.held hm hb.traced).holds x hx
    rw [hf] at hvalue
    exact Format.holds_int_iff.1 hvalue

/-- A store with an input `a` of four bits and the sum `a + 1`. -/
def sumStore : Store ℚ :=
  (outcome (Call.run (.arithmetic .sum [.signal 0, .value (.int 1)]))
    (outcome (Call.run (.signal "a" (.uint 4) .input none)) {}).2).2

theorem sumStore_computed :
    (sumStore.Built fun s c => c.Explicit s) ∧ sumStore.signals.size = 1 ∧
    3 < sumStore.nodes.size := by
  refine ⟨.call (.call .empty _ ?_ trivial) _ ?_ trivial, ?_⟩
  · intro o ho
    cases ho
  · change ∀ o ∈ [Operand.signal 0, .value (.int 1)], o.Valid _
    decide +kernel
  · decide +kernel

theorem sumStore_signal {x : SignalId} (hx : x < sumStore.signals.size) :
    sumStore.signal x = ⟨"a", .uint 4, .input, none⟩ := by
  obtain ⟨-, hsize, -⟩ := sumStore_computed
  obtain rfl : x = 0 := Nat.lt_one_iff.1 (hsize ▸ hx)
  with_unfolding_all rfl

/-- A model with an input `a`, the sum `a + 1`, a name `b` for it, and a register that repeats `a`.
-/
def delayModel : Model ℚ :=
  Model.performAll { name := "m", dt := none } [.digitalInput "a" 4 .unsigned,
    .construct (.arithmetic .sum [.signal 0, .value (.int 1)]), .bindName "b" (.node 3),
    .history 0 2 {}]

/-- The state in which a simulation of it starts. -/
def delayStart : Simulator ℚ := (outcome settle (reset delayModel [1])).2

theorem delayModel_computed :
    delayModel.Built Regular ∧ 1 < delayModel.store.signals.size ∧
    start delayModel = .ok delayStart := by
  refine ⟨.ofOperations ⟨by decide, by decide +kernel, ⟨trivial, .inr (.inl rfl)⟩,
    by decide +kernel, ⟨trivial, .inl fun x hle hlt => ?_⟩,
    by decide +kernel, ⟨trivial, .inr (.inl rfl)⟩,
    by decide +kernel, ⟨trivial, .inr (.inr ⟨rfl, by decide +kernel⟩)⟩, trivial⟩,
    by decide +kernel, start_of_isOk (by decide +kernel) (by decide +kernel) (by cbv)⟩
  -- the sum adds no signals
  exact absurd (hle.trans_lt hlt) (by decide +kernel)

/-- With `a` at its largest value, the sum needs the whole of its wider format. -/
theorem integers_in_range_sum :
    (sumStore.Built fun s c => c.Explicit s) ∧
    (∃ v k,
      sumStore.evalKind (fun _ => .int 15) (sumStore.eval fun _ => .int 15) (sumStore.node 3) =
        .ok v ∧
      sumStore.eval (fun _ => .int 15) 3 = .ok (.int k) ∧ k ∈ ClosedRange.mk 1 16 (by decide) ∧
      v = .int k) ∧
    delayModel.Built Regular ∧ Reachable delayModel (outcome (step [(0, .int 15)]) delayStart).2 ∧
    ∃ k, (outcome (step [(0, .int 15)]) delayStart).2.value 1 = .int k ∧
      k ∈ ClosedRange.mk 1 16 (by decide) := by
  obtain ⟨hb, -, hnode⟩ := sumStore_computed
  obtain ⟨hbuilt, hsignal, hstart⟩ := delayModel_computed
  have hreachable : Reachable delayModel (outcome (step [(0, .int 15)]) delayStart).2 :=
    .step (.start hstart) _
  have hfit : sumStore.SignalsFit := by
    intro x hx f hf
    rw [sumStore_signal hx] at hf
    cases hf
    exact IntFormat.full_fits (by simp)
  have hheld : ∀ x < sumStore.signals.size,
      (sumStore.signal x).format.Holds ((fun _ => .int 15 : SignalId → Value ℚ) x) := by
    intro x hx
    rw [sumStore_signal hx]
    exact Format.holds_uint (k := 15) (by decide)
  have hoccurrences : sumStore.occurrences 3 = [3, 0, 2] := by with_unfolding_all rfl
  have hvalue : ∀ j ∈ sumStore.occurrences 3, sumStore.HasValue (sumStore.kind j) := by
    rw [hoccurrences]
    intro j hj
    simp only [List.mem_cons, List.not_mem_nil, or_false] at hj
    rcases hj with rfl | rfl | rfl <;> cbv
  obtain ⟨v, k, hv, hk, hmem, heq⟩ := (integers_in_range.1 sumStore _ hb hfit hheld).1 3
    hnode hvalue ⟨.unsigned, 5, ⟨1, 16, by decide⟩⟩ (by with_unfolding_all rfl)
  refine ⟨hb, ⟨v, k, hv, hk, hmem, heq (by cbv)⟩, hbuilt, hreachable, ?_⟩
  exact integers_in_range.2 delayModel _ hbuilt hreachable 1 hsignal
    ⟨.unsigned, 5, ⟨1, 16, by decide⟩⟩ (by cbv)

/-- A model with a name `x` for the constant 3. A register that would repeat `x` starts at 0, which
its format does not hold, and so the edit that adds it fails. -/
def failedModel : Model ℚ :=
  Model.performAll { name := "m", dt := none } [.bindName "x" (.value (.int 3)), .history 0 2 {}]

/-- The signal of the register is left behind without a driver, at a value outside its format. -/
theorem failed_history_out_of_range :
    (failedModel.Built fun m op => op.Explicit m ∧ (op.addsTraced = true ∨ op.repeats = true)) ∧
    ∃ s f, start failedModel = .ok s ∧ (failedModel.store.signal 1).format = .int f ∧
      s.value 1 = .int 0 ∧ 0 ∉ f.range := by
  refine ⟨.ofOperations ⟨by decide, by decide +kernel, ⟨trivial, .inl rfl⟩,
    by decide +kernel, ⟨trivial, .inr rfl⟩, trivial⟩, (outcome settle (reset failedModel [0])).2,
    ⟨.unsigned, 2, ⟨3, 3, by decide⟩⟩, ?_, by with_unfolding_all rfl, by with_unfolding_all rfl,
    by decide⟩
  exact start_of_isOk (by with_unfolding_all rfl) (by decide +kernel) (by with_unfolding_all rfl)

end Simulator

end MixedSignal
