import Mathlib
import MixedSignal.Proofs.DelayLines
import MixedSignal.Proofs.RealArithmetic

/-!
# Difference equations at run time

A transfer function is implemented by a weighted sum of the past of its input and output, from which
coefficients that vanish are left out. The past stands in delay lines, so in every step of a run the
output is given by the difference equation of the sampled transfer function
(`Model.transferFunction_realized`).
-/

namespace MixedSignal

variable {R : Type} [ExactScalar R] {rounding : Rounding R}

/-! ## Weighted sums -/

/-- Weights that vanish make no difference. -/
theorem sum_filter_ne_zero {α : Type} (l : List (R × α)) (w : α → R) :
    ((l.filter (·.1 != 0)).map fun p => p.1 * w p.2).sum = (l.map fun p => p.1 * w p.2).sum := by
  induction l with
  | nil => rfl
  | cons p l ih =>
    by_cases hp : p.1 = 0
    · simp [hp, ih]
    · simp [hp, ih]

/-- The sum of weights times what stands at their places. -/
theorem sum_zip_eq_sum_range {α : Type} (cs : List R) (xs : List α) (w : α → R) (f : Nat → R)
    (hlength : cs.length = xs.length) (hf : ∀ i x, xs[i]? = some x → w x = f i) :
    ((cs.zip xs).map fun p => p.1 * w p.2).sum =
      ∑ i ∈ Finset.range cs.length, cs.getD i 0 * f i := by
  induction cs generalizing xs f with
  | nil => simp
  | cons c cs ih =>
    cases xs with
    | nil => simp at hlength
    | cons x xs =>
      have hrest := ih xs (fun i => f (i + 1)) (by simpa using hlength)
        fun i y hy => hf (i + 1) y (by simpa using hy)
      rw [List.zip_cons_cons, List.map_cons, List.sum_cons, hrest, List.length_cons,
        Finset.sum_range_succ', add_comm, hf 0 x (by simp)]
      simp

namespace Model

open Store

variable {m m' : Model R} {ρ : Reading R} {v : LinearVar → R}

theorem weightedTerms_conveys (hm : m.WellFormed rounding) (cs : List R) {xs : List SignalId}
    (hxs : ∀ x ∈ xs, x < m.store.signals.size) :
    GrowsTo rounding m (weightedTerms cs xs) fun js m' =>
      ∃ as, List.Forall₂ (Conveys rounding (fun _ => True) none ρ v m'.store) js as ∧
        as.sum = ((cs.zip xs).map fun p => p.1 * v (.signal p.2)).sum := by
  refine (Ensures.mapM (Q := fun p j (m' : Model R) => Conveys rounding (fun _ => True) none ρ v
    m'.store j (p.1 * v (.signal p.2))) ?_ _ m ?_).imp fun js m' _ hjs => ?_
  · exact fun _ _ _ _ h hj => hj.of_grown h.store
  · rintro ⟨c, x⟩ hx m₁ h₁
    refine mul_conveys (o := .value (.real c)) (h₁.wellFormed hm) rfl rfl ⟨?_, trivial⟩
    rw [h₁.store.signals_eq]
    exact hxs x (List.of_mem_zip (List.mem_of_mem_filter hx)).2
  · refine ⟨_, ?_, sum_filter_ne_zero (cs.zip xs) fun x => v (.signal x)⟩
    rw [List.forall₂_map_right_iff]
    exact hjs.flip

/-- What the delay lines and the weights of a transfer function make of the values of signals. -/
def weightedPast (t : TransferFunction R) (v : LinearVar → R) (us ys : List SignalId) : R :=
  ((t.num.zip us).map fun p => p.1 * v (.signal p.2)).sum +
    (((t.den.tail.map (-·)).zip ys).map fun p => p.1 * v (.signal p.2)).sum

/-- The past of the input and of the output stand in delay lines, and the weighted sum of what the
lines hold drives the output. -/
structure Recurrence (rounding : Rounding R) (ρ : Reading R) (v : LinearVar → R) (m : Model R)
    (t : TransferFunction R) (input output : SignalId) (us ys : List SignalId) (e : NodeId) :
    Prop where
  inputs_length : us.length = t.order
  outputs_length : ys.length = t.order
  inputs : m.DelayLine input us
  outputs : m.DelayLine output ys
  assigned : m.assignment? output = some ⟨output, e, .thisCycle⟩
  real : (m.store.signal output).format.domain = .real
  conveys : Conveys rounding (fun _ => True) none ρ v m.store e (weightedPast t v (input :: us) ys)

theorem Recurrence.of_moves {t : TransferFunction R} {input output : SignalId}
    {us ys : List SignalId} {e : NodeId} (h : Recurrence rounding ρ v m t input output us ys e)
    (hm : m.WellFormed rounding) (hinput : input < m.store.signals.size)
    (hmoves : m.Moves rounding (Advances rounding) m') :
    Recurrence rounding ρ v m' t input output us ys e := by
  have houtput := (hm.valid h.assigned).2.signal_lt
  obtain ⟨hext, hs', -⟩ := hmoves.store hm.store
  exact {
    inputs_length := h.inputs_length
    outputs_length := h.outputs_length
    inputs := h.inputs.of_moves hm hinput hmoves
    outputs := h.outputs.of_moves hm houtput hmoves
    assigned := hmoves.assignment? h.assigned
    real := by rw [hext.signal_eq output houtput, h.real]
    conveys := h.conveys.of_extends hext hs' }

/-- A value that is conveyed drives a signal. The signal is real, as the expression is. -/
theorem drive_conveys (hm : m.WellFormed rounding) {y : Edit R NodeId} {a : R}
    (hy : GrowsTo rounding m y fun j m' =>
      Conveys rounding (fun _ => True) none ρ v m'.store j a) {x : SignalId}
    (hx : x < m.store.signals.size) :
    GrowsTo rounding m (do setThisCycle x (.node (← y)) true)
      fun _ m' => ∃ e, m'.assignment? x = some ⟨x, e, .thisCycle⟩ ∧
        (m'.store.signal x).format.domain = .real ∧
          Conveys rounding (fun _ => True) none ρ v m'.store e a := by
  refine hy.bind fun e m₁ h₁ he => ?_
  have hx₁ : x < m₁.store.signals.size := by rwa [h₁.store.signals_eq]
  refine (setThisCycle_ensures (o := .node e) (h₁.wellFormed hm) hx₁ he.numeric.numeric.lt
    true).imp fun _ m₂ h₂ hdriven => ?_
  obtain ⟨_, rfl, hassign, hdomain⟩ := hdriven
  have he₂ := he.of_grown h₂.store
  refine ⟨_, hassign, ?_, he₂⟩
  rw [h₂.store.toExtends.signal_eq x hx₁]
  exact (hdomain rfl).2 he₂.numeric.domain

theorem addDifferenceEquation_recurs (hm : m.WellFormed rounding) (t : TransferFunction R)
    {input output : SignalId} (hinput : input < m.store.signals.size)
    (houtput : output < m.store.signals.size) :
    MovesTo rounding m (addDifferenceEquation t input output {}) fun _ m' =>
        ∃ us ys e, Recurrence rounding ρ v m' t input output us ys e := by
  unfold addDifferenceEquation
  refine (makeHistory_delayLine hm hinput t.order).bind fun _ m₁ h₁ hus => ?_
  obtain ⟨us, rfl, hus, hinputs⟩ := hus
  have hm₁ := h₁.wellFormed hm
  have hinput₁ := hinput.trans_le (h₁.store hm.store).1.signals_le
  have houtput₁ := houtput.trans_le (h₁.store hm.store).1.signals_le
  refine (makeHistory_delayLine hm₁ houtput₁ t.order).bind fun _ m₂ h₂ hys => ?_
  obtain ⟨ys, rfl, hys, houtputs⟩ := hys
  have hm₂ := h₂.wellFormed hm₁
  have hinput₂ := hinput₁.trans_le (h₂.store hm₁.store).1.signals_le
  have houtput₂ := houtput₁.trans_le (h₂.store hm₁.store).1.signals_le
  replace hinputs := hinputs.of_moves hm₁ hinput₁ h₂
  -- from here on only nodes and an assignment are added
  refine (ensures_of_grown (P := fun _ m' => ∃ e, m'.assignment? output =
    some ⟨output, e, .thisCycle⟩ ∧ (m'.store.signal output).format.domain = .real ∧
      Conveys rounding (fun _ => True) none ρ v m'.store e
        (weightedPast t v (input :: us) ys)) ?_).imp fun _ m' h' hdriven => ?_
  · refine (weightedTerms_conveys (ρ := ρ) (v := v) hm₂ t.num
      (lt_of_repeats hm₂ hinputs hinput₂)).bind fun js m₃ h₃ hjs => ?_
    obtain ⟨as, has, hasum⟩ := hjs
    have hm₃ := h₃.wellFormed hm₂
    have hys₃ : ∀ y ∈ ys, y < m₃.store.signals.size := by
      rw [h₃.store.signals_eq]
      exact fun y hy => lt_of_repeats hm₂ houtputs houtput₂ y (List.mem_cons_of_mem _ hy)
    refine (weightedTerms_conveys (ρ := ρ) (v := v) hm₃ (t.den.tail.map (-·)) hys₃).bind
      fun ks m₄ h₄ hks => ?_
    obtain ⟨bs, hbs, hbsum⟩ := hks
    have hm₄ := h₄.wellFormed hm₃
    have hall : List.Forall₂ (Conveys rounding (fun _ => True) none ρ v m₄.store) (js ++ ks)
        (as ++ bs) :=
      List.rel_append (has.imp fun _ _ h => h.of_grown h₄.store) hbs
    have hsum : (as ++ bs).sum = weightedPast t v (input :: us) ys := by
      rw [List.sum_append, hasum, hbsum, weightedPast]
    have houtput₄ : output < m₄.store.signals.size := by
      rwa [h₄.store.signals_eq, h₃.store.signals_eq]
    rw [← hsum]
    simp only
    split
    · rename_i hnil
      rw [hnil] at hall
      rw [List.forall₂_nil_left_iff.1 hall, List.sum_nil]
      exact drive_conveys hm₄ (build_conveys (Build.constant_conveys hm₄.store 0)) houtput₄
    · rename_i hne
      exact drive_conveys hm₄ (sum_conveys hm₄ hall hne) houtput₄
  · obtain ⟨hgrown, e, hassign, hreal, hconveys⟩ := hdriven
    exact ⟨us, ys, e, hus, hys, hinputs.of_moves hm₂ hinput₂ h', houtputs.of_moves hm₂ houtput₂ h',
      hassign, hreal, hconveys⟩

end Model

/-! ## Difference equations -/

namespace TransferFunction

/-- The right side of the difference equation: the weighted past of an input `u` and an output `y`
at the time `k`. -/
def response (t : TransferFunction R) (u y : Int → R) (k : Int) : R :=
  (∑ i ∈ Finset.range (t.order + 1), t.num.getD i 0 * u (k - i)) -
    ∑ j ∈ Finset.Ico 1 (t.order + 1), t.den.getD j 0 * y (k - j)

/-- Numerator and denominator are of one length, and the leading coefficient is one. -/
structure Proper (t : TransferFunction R) : Prop where
  num_length : t.num.length = t.order + 1
  den_head : t.den.head? = some 1

theorem Proper.den_length {t : TransferFunction R} (h : t.Proper) :
    t.den.length = t.order + 1 := by
  have hne : t.den ≠ [] := by
    rintro hnil
    have hhead := h.den_head
    rw [hnil] at hhead
    cases hhead
  have hpos := List.length_pos_of_ne_nil hne
  rw [order]
  omega

theorem ofStateSpace_proper (s : StateSpace R) : (ofStateSpace s).Proper := by
  constructor
  · unfold order ofStateSpace
    simp only
    split
    · rename_i b c lead rest hb hc hrest
      have hlength := congrArg List.length hrest
      simp only [List.length_map, List.length_cons] at hlength
      simp only [List.length_cons, List.length_zipWith, List.length_map, Nat.add_sub_cancel]
      omega
    · simp
  · rfl

end TransferFunction

namespace Model

open Store

variable {m m' : Model R} {ρ : Reading R}

/-- What the lines hold is the past, so their weighted sum is the difference equation. -/
theorem weightedPast_eq_response {t : TransferFunction R} (ht : t.Proper) {us ys : List SignalId}
    {input output : SignalId} (hus : us.length = t.order) (hys : ys.length = t.order)
    {w : SignalId → R} {u y : Int → R} {k : Int}
    (hu : ∀ (i : Nat) x, (input :: us)[i]? = some x → w x = u (k - i))
    (hy : ∀ (i : Nat) x, (output :: ys)[i]? = some x → w x = y (k - i)) :
    weightedPast t (LinearVar.current w) (input :: us) ys = t.response u y k := by
  have hnum := sum_zip_eq_sum_range t.num (input :: us) w (fun i => u (k - i))
    (by rw [ht.num_length, List.length_cons, hus]) hu
  have htail : (t.den.tail.map (-·)).length = t.order := by
    rw [List.length_map, List.length_tail, ht.den_length, Nat.add_sub_cancel]
  have hden := sum_zip_eq_sum_range (t.den.tail.map (-·)) ys w (fun i => y (k - (i + 1 : Nat)))
    (by rw [htail, hys]) fun i x hx => hy (i + 1) x (by simpa using hx)
  rw [ht.num_length] at hnum
  rw [htail] at hden
  change ((t.num.zip (input :: us)).map fun p => p.1 * w p.2).sum +
    (((t.den.tail.map (-·)).zip ys).map fun p => p.1 * w p.2).sum = _
  rw [hnum, hden, TransferFunction.response, Finset.sum_Ico_eq_sum_range, sub_eq_add_neg,
    ← Finset.sum_neg_distrib, Nat.add_sub_cancel]
  refine congrArg _ (Finset.sum_congr rfl fun j hj => ?_)
  have hj : j < t.order := Finset.mem_range.1 hj
  have hcoefficient : (t.den.tail.map (-·)).getD j 0 = -t.den.getD (1 + j) 0 := by
    have hlt : j + 1 < t.den.length := by
      rw [ht.den_length]
      omega
    simp [List.getD_eq_getElem?_getD, add_comm 1 j, List.getElem?_eq_getElem hlt]
  rw [hcoefficient, neg_mul, add_comm 1 j]

end Model

/-! ## Runs -/

/-- The initial value that is declared for the signal, zero if there is none. -/
def Signal.declaredInit (signal : Signal R) : R := (signal.init.map Value.toScalar).getD 0

theorem Model.toScalar_initialValue (signal : Signal R) :
    (initialValue signal).toScalar = signal.declaredInit := by
  unfold initialValue Signal.declaredInit
  cases signal.init with
  | some v => rfl
  | none =>
    cases signal.format with
    | real f => rfl
    | int f => exact (Value.toScalar_int 0).trans Int.cast_zero

namespace Simulator

open Model Store

variable {m m' : Model R} {t : TransferFunction R} {input output : SignalId}

/-- The value of a signal in a step, as a scalar. -/
def scalarAt (s : Simulator R) (inputs : Nat → List (SignalId × Value R)) (x : SignalId)
    (k : Int) : R :=
  (s.valueAt inputs x k).toScalar

theorem scalarAt_of_neg {s : Simulator R} (hs : Of m s)
    {inputs : Nat → List (SignalId × Value R)} (x : SignalId) {k : Int} (hk : k < 0) :
    s.scalarAt inputs x k =
      ((initialValue (m.store.signal x)).coerce (m.store.signal x).format).toScalar := by
  rw [scalarAt, valueAt_of_neg hs x hk]

/-- In simulations of the model the output follows the difference equation. -/
structure Realizes (m : Model R) (t : TransferFunction R) (input output : SignalId) : Prop where
  proper : t.Proper
  /-- In every step of every run the output is what the equation makes of the past. -/
  equation : ∀ s inputs k, start m = .ok s → s.RunsTo inputs k →
    s.scalarAt inputs output k =
      t.response (s.scalarAt inputs input) (s.scalarAt inputs output) k
  /-- Before the first step input and output have their declared initial values, if the ranges of
  their formats are ranges of their words. -/
  initial : ∀ x ∈ [input, output], 0 < t.order →
    (∀ f, (m.store.signal x).format = .int f → f.Fits) →
    ∀ s inputs, start m = .ok s → ∀ k < 0,
      s.scalarAt inputs x k = (m.store.signal x).declaredInit
  /-- A model that compiles and whose signals have values runs for any number of steps. -/
  progress : ∀ settings text m', outcome (compile settings) m = (.ok text, m') →
    m.hasValues = true → ∃ s, start m = .ok s ∧ ∀ inputs : Nat → List (SignalId × Value R),
      (∀ k, ∀ i ∈ inputs k, (m.store.signal i.1).role = .input) → ∀ k, s.RunsTo inputs k

theorem RunsTo.follows_recurrence (hm : m.WellFormed Rounding.any) (ht : t.Proper)
    {s : Simulator R} {inputs : Nat → List (SignalId × Value R)} {k : Nat}
    (hstart : start m = .ok s) (hr : s.RunsTo inputs k) {us ys : List SignalId} {e : NodeId}
    {ρ : Reading R}
    (h : Recurrence Rounding.any ρ (LinearVar.current (s.seen inputs k).scalar) m t input output
      us ys e) :
    s.scalarAt inputs output k =
      t.response (s.scalarAt inputs input) (s.scalarAt inputs output) k := by
  obtain ⟨u, hu, hvalue⟩ := hr.settled hm hstart output
    (isCombinational_iff.2 ⟨_, h.assigned, rfl⟩) _ h.assigned
  have hmeaning := h.conveys.numeric.numeric.eval (ρ := ρ) hm.store
    (fun x hx _ => by rw [hr.inFormats hm hstart x hx]) (by simp) hu
  have hinputs : ∀ (i : Nat) x, (input :: us)[i]? = some x →
      (s.seen inputs k).scalar x = s.scalarAt inputs input (k - i) := fun i x hx =>
    congrArg Value.toScalar (value_delayLine hm hstart h.inputs hx hr)
  have houtputs : ∀ (i : Nat) x, (output :: ys)[i]? = some x →
      (s.seen inputs k).scalar x = s.scalarAt inputs output (k - i) := fun i x hx =>
    congrArg Value.toScalar (value_delayLine hm hstart h.outputs hx hr)
  calc s.scalarAt inputs output k
      = u.toScalar := by
        rw [scalarAt, valueAt_natCast, hvalue, coerce_real h.real]
        rfl
    _ = weightedPast t (LinearVar.current (s.seen inputs k).scalar) (input :: us) ys :=
        hmeaning.trans h.conveys.eq
    _ = _ := weightedPast_eq_response ht h.inputs_length h.outputs_length hinputs houtputs

theorem realizes_of_recurrence (hm : m.WellFormed Rounding.any) (ht : t.Proper) {ρ : Reading R}
    (h : ∀ v, ∃ us ys e, Recurrence Rounding.any ρ v m t input output us ys e) :
    Realizes m t input output where
  proper := ht
  equation s inputs k hstart hr := by
    obtain ⟨us, ys, e, hrec⟩ := h (LinearVar.current (s.seen inputs k).scalar)
    exact hr.follows_recurrence hm ht hstart hrec
  initial x hx horder hfits s inputs hstart k hk := by
    obtain ⟨us, ys, e, hrec⟩ := h fun _ => 0
    rw [scalarAt_of_neg (Reachable.start hstart).running.toOf x hk, ← toScalar_initialValue]
    have hne : ∀ {zs : List SignalId}, zs.length = t.order → zs ≠ [] := fun hlength =>
      List.ne_nil_of_length_pos (hlength ▸ horder)
    rcases List.mem_pair.1 hx with rfl | rfl
    · exact hrec.inputs.toScalar_initialValue (hne hrec.inputs_length) hfits
    · exact hrec.outputs.toScalar_initialValue (hne hrec.outputs_length) hfits
  progress settings text m' hcompile hvalues := by
    obtain ⟨-, -, hcomplete⟩ := (compile_ensures hm settings).elim_ok hcompile
    obtain ⟨s, hstart⟩ := exists_start hm hcomplete hvalues
    exact ⟨s, hstart, fun inputs hinputs =>
      runsTo_of_evaluable hm (hcomplete.evaluable hm) hstart hinputs⟩

end Simulator

namespace Model

open Store Simulator

variable [Numerics R] {m m' : Model R} {input output : SignalId} {num den : List R}

/-- The sampled transfer function is realized by the model that a success leaves, and by all that it
moves on to. -/
theorem setTransferFunction_realizes (hm : m.WellFormed Rounding.any)
    (hinput : input < m.store.signals.size) (houtput : output < m.store.signals.size)
    (h : outcome (setTransferFunction input output num den {}) m = (.ok ⟨⟩, m')) :
    m.Moves Rounding.any (Advances Rounding.any) m' ∧
      ∃ dt t, m.dt = some dt ∧ TransferFunction.ofCoefficients num den = .ok t ∧
        ∀ m'', m'.Moves Rounding.any (Advances Rounding.any) m'' →
          Realizes m'' (.ofStateSpace (t.toStateSpace.discretize dt)) input output := by
  obtain ⟨dt, _, htimestep, h⟩ := outcome_bind_eq_ok h
  obtain ⟨rfl, hdt⟩ := timestep_ensures.elim_ok htimestep
  obtain ⟨t, _, hcheck, h⟩ := outcome_bind_eq_ok h
  obtain ⟨rfl, ht⟩ := (check_ensures _ _).elim_ok hcheck
  -- the expression and the lines are the same for all values of signals
  have hrec := fun v => (addDifferenceEquation_recurs (ρ := .ofMode 0) (v := v) hm _ hinput
    houtput).elim_ok h
  have hmoved := (hrec fun _ => 0).1
  have hm' := hmoved.wellFormed hm
  refine ⟨hmoved, dt, t, hdt, ht, fun m'' hmoves => ?_⟩
  refine realizes_of_recurrence (ρ := .ofMode 0) (hmoves.wellFormed hm')
    (TransferFunction.ofStateSpace_proper _) fun v => ?_
  obtain ⟨us, ys, e, hrec⟩ := (hrec v).2
  exact ⟨us, ys, e, hrec.of_moves hm'
    (hinput.trans_le (hmoved.store hm.store).1.signals_le) hmoves⟩

/-- A transfer function that is set is realized by the model, whatever else is added later: in every
step of every simulation the output is given by the difference equation of the sampled transfer
function. -/
theorem transferFunction_realized (hb : m.Built fun _ _ => True)
    (hinput : input < m.store.signals.size) (houtput : output < m.store.signals.size)
    (h : outcome (setTransferFunction input output num den {}) m = (.ok ⟨⟩, m'))
    {ops : List (Operation R)} (hops : AllowsAll (fun _ _ => True) m' ops) :
    ∃ dt t, m.dt = some dt ∧ TransferFunction.ofCoefficients num den = .ok t ∧
      Realizes (m'.performAll ops) (.ofStateSpace (t.toStateSpace.discretize dt)) input output := by
  have hm := hb.wellFormed_any
  obtain ⟨hmoved, dt, t, hdt, ht, hrealizes⟩ := setTransferFunction_realizes hm hinput houtput h
  refine ⟨dt, t, hdt, ht, hrealizes _ ?_⟩
  exact performAll_moves (hmoved.wellFormed hm) hops

/-- The difference equation of an integrator in steps of one. -/
theorem sampled_integrator {t : TransferFunction ℚ}
    (ht : TransferFunction.ofCoefficients [1] [1, 0] = .ok t) :
    TransferFunction.ofStateSpace (t.toStateSpace.discretize 1) = ⟨[0, 1], [1, -1]⟩ := by
  obtain rfl : ⟨[0, 1], [1, 0]⟩ = t := by
    refine Except.ok.inj (Eq.trans ?_ ht)
    with_unfolding_all rfl
  rw [TransferFunction.mk.injEq]
  decide +kernel

theorem response_integrator (u y : Int → ℚ) (k : Int) :
    (⟨[0, 1], [1, -1]⟩ : TransferFunction ℚ).response u y k = u (k - 1) + y (k - 1) := by
  simp [TransferFunction.response, TransferFunction.order, Finset.sum_range_succ]

/-- The model with an integrator from its first signal to the second. -/
def integrated (m : Model ℚ) : Model ℚ := (outcome (setTransferFunction 0 1 [1] [1, 0] {}) m).2

/-- A model with a signed inflow `x` and a level `y` that starts at 3. -/
def tankModel : Model ℚ :=
  Model.performAll { name := "m", dt := some 1 } [.digitalInput "x" 4 .signed, .analogOutput "y" 3]

/-- The level is the integrated inflow, and it has a second name. -/
def namedTank : Model ℚ := (integrated tankModel).performAll [.bindName "z" (.signal 1)]

theorem tankModel_computed :
    (tankModel.Built fun _ _ => True) ∧
    0 < tankModel.store.signals.size ∧ 1 < tankModel.store.signals.size ∧
    tankModel.dt = some 1 ∧
    (outcome (setTransferFunction 0 1 [1] [1, 0] {}) tankModel).1.isOk = true ∧
    (Operation.bindName "z" (.signal 1)).Valid (integrated tankModel) := by
  refine ⟨.ofOperations ?_, ?_⟩
  all_goals decide +kernel

theorem namedTank_computed :
    namedTank.CompleteIn [1, 4] ∧
    (namedTank.store.signal 0).role.isInput = true ∧ namedTank.isCombinational 0 = false ∧
    ((Value.int (-2) : Value ℚ).coerce (namedTank.store.signal 0).format).toScalar = -2 ∧
    (∀ x ∈ [0, 1], ∀ f ∈ (namedTank.store.signal x).format.int?, f.Fits) ∧
    (namedTank.store.signal 0).declaredInit = 0 ∧
    (namedTank.store.signal 1).declaredInit = 3 := by
  decide +kernel

/-- The level falls by 2 in each step after the first. -/
theorem scalarAt_namedTank (hm : namedTank.WellFormed Rounding.any)
    (h : Realizes namedTank ⟨[0, 1], [1, -1]⟩ 0 1) {s : Simulator ℚ}
    (hstart : start namedTank = .ok s) (hr : ∀ k, s.RunsTo (fun _ => [(0, .int (-2))]) k)
    (k : Nat) : s.scalarAt (fun _ => [(0, .int (-2))]) 1 k = 3 - 2 * k := by
  obtain ⟨-, -, hinput, hvalue, hfits, hx, hy⟩ := namedTank_computed
  have hpast : ∀ x ∈ [0, 1], ∀ k < 0, s.scalarAt (fun _ => [(0, .int (-2))]) x k =
      (namedTank.store.signal x).declaredInit := fun x hx =>
    h.initial x hx (by decide) (fun f hf => hfits x hx f (by rw [hf]; rfl)) s _ hstart
  have hstep : ∀ k : Nat, _ = _ := fun k =>
    (h.equation s _ k hstart (hr k)).trans (response_integrator _ _ k)
  induction k with
  | zero =>
    rw [hstep, hpast 0 (by simp) _ (by decide), hpast 1 (by simp) _ (by decide), hx, hy]
    norm_num
  | succ k ih =>
    have hinflow : s.scalarAt (fun _ => [(0, .int (-2))]) 0 k = -2 := by
      have hs : Running namedTank (s.before (fun _ => [(0, .int (-2))]) k) :=
        (reachable_before hstart k).running
      rw [scalarAt, valueAt_natCast, (prepare_settled hm hs (hr k).settles).2.2.2 0 hinput]
      simp only [driven, List.foldl_cons, List.foldl_nil, ↓reduceIte]
      rw [hs.model]
      exact hvalue
    have hlast : ((k + 1 : Nat) : Int) - 1 = k := by omega
    rw [hstep, hlast, hinflow, ih]
    push_cast
    ring

/-- With an inflow of -2 the level of the tank is 3, 1, -1 and so on, for ever. -/
theorem transferFunction_realized_tank :
    (tankModel.Built fun _ _ => True) ∧
    (0 < tankModel.store.signals.size ∧ 1 < tankModel.store.signals.size) ∧
    (outcome (setTransferFunction 0 1 [1] [1, 0] {}) tankModel).1.isOk = true ∧
    (integrated tankModel).AllowsAll (fun _ _ => True) [.bindName "z" (.signal 1)] ∧
    ∃ s, start namedTank = .ok s ∧ ∀ k : Nat, s.RunsTo (fun _ => [(0, .int (-2))]) k ∧
      s.scalarAt (fun _ => [(0, .int (-2))]) 1 k = 3 - 2 * k := by
  obtain ⟨hb, hx, hy, hdt, hok, hvalid⟩ := tankModel_computed
  obtain ⟨hcheck, hrole, -⟩ := namedTank_computed
  have hops : (integrated tankModel).AllowsAll (fun _ _ => True) [.bindName "z" (.signal 1)] :=
    ⟨hvalid, trivial, trivial⟩
  obtain ⟨_, hrun⟩ := exists_of_isOk hok
  rw [← integrated] at hrun
  have hrealizes : Realizes namedTank ⟨[0, 1], [1, -1]⟩ 0 1 := by
    obtain ⟨dt, t, hdt', ht, h⟩ := transferFunction_realized hb hx hy hrun hops
    obtain rfl := Option.some.inj (hdt.symm.trans hdt')
    rwa [sampled_integrator ht, ← namedTank] at h
  have hm : namedTank.WellFormed Rounding.any := by
    have hm := hb.wellFormed_any
    have hm' := (setTransferFunction_realizes hm hx hy hrun).1.wellFormed hm
    exact (performAll_moves hm' hops).wellFormed hm'
  obtain ⟨text, m', hcompile⟩ := (hcheck.complete hm).exists_compile hm
  obtain ⟨s, hstart, hruns⟩ := hrealizes.progress _ _ _ hcompile hcheck.1
  have hr : ∀ k, s.RunsTo (fun _ => [(0, .int (-2))]) k := hruns _ fun k i hi => by
    rw [List.mem_singleton.1 hi]
    exact Role.isInput_iff.1 hrole
  exact ⟨hb, ⟨hx, hy⟩, hok, hops, s, hstart, fun k =>
    ⟨hr k, scalarAt_namedTank hm hrealizes hstart hr k⟩⟩

end Model

end MixedSignal
