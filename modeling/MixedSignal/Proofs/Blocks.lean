import MixedSignal.Model.Blocks
import MixedSignal.Proofs.Editing

/-!
# Building blocks keep models well formed

Delay lines, counters, linear systems, transfer functions and tables are made of signals, nodes and
assignments, and so they keep a model well formed and the values of its signals in their formats.
-/

set_option linter.unusedSectionVars false

namespace MixedSignal

variable {R : Type} [Scalar R] {equations : List Equation} {x output : SignalId} {i : NodeId}

namespace Model

open Store

variable {rounding : Rounding R} {m : Model R}

/-! ## Delay lines -/

theorem holds_of_contains? {f : IntFormat} {v : Value R}
    (h : (Format.int f).contains? v ≠ some false) : (Format.int f).Holds v := by
  cases v with
  | real x => exact absurd rfl h
  | int k =>
    simpa [Format.contains?, Format.Holds, ClosedRange.contains, ClosedRange.mem_def] using h

/-- The register `y` repeats `p`. Both have the format of the signal, and the register starts from the
initial value of the signal, which the format does not refuse. -/
structure Repeats (clocking : Clocking) (signal : Signal R) (m : Model R) (p y : SignalId) : Prop where
  source_lt : p < m.store.signals.size
  source_format : (m.store.signal p).format = signal.format
  format : (m.store.signal y).format = signal.format
  assigned : m.assignment? y = some ⟨y, m.store.leaf p, .nextCycle clocking (initialValue signal)⟩
  accepted : signal.format.contains? (initialValue signal) ≠ some false

section

variable {clocking : Clocking} {signal : Signal R} {p : SignalId}

theorem Repeats.of_moves {m' : Model R} {y : SignalId} (h : m.Repeats clocking signal p y)
    (hm : m.WellFormed rounding) (hmoves : m.Moves rounding (Advances rounding) m') :
    m'.Repeats clocking signal p y := by
  have hext := (hmoves.store hm.store).1
  have hy : y < m.store.signals.size := (hm.valid h.assigned).2.signal_lt
  refine ⟨h.source_lt.trans_le hext.signals_le, ?_, ?_, ?_, h.accepted⟩
  · rw [hext.signal_eq p h.source_lt, h.source_format]
  · rw [hext.signal_eq y hy, h.format]
  · rw [hext.leaf_eq p h.source_lt]
    exact hmoves.assignment? h.assigned

theorem lt_of_repeats (hm : m.WellFormed rounding) {ys : List SignalId}
    (h : (p :: ys).IsChain (m.Repeats clocking signal)) (hp : p < m.store.signals.size) :
    ∀ y ∈ p :: ys, y < m.store.signals.size := by
  induction ys generalizing p with
  | nil => simpa using hp
  | cons q ys ih =>
    obtain ⟨hq, h⟩ := List.isChain_cons_cons.1 h
    exact List.forall_mem_cons.2 ⟨hp, ih h (hm.valid hq.assigned).2.signal_lt⟩

theorem delayRegister_repeats (hm : m.WellFormed rounding) (hp : p < m.store.signals.size)
    (hformat : (m.store.signal p).format = signal.format) (k : Nat) (clocking : Clocking) :
    MovesTo rounding m (delayRegister signal p k clocking) fun y m' =>
      m'.Repeats clocking signal p y ∧ (m.Traced → m'.Traced) := by
  unfold delayRegister
  refine (addRawSignal_ensures _ signal.format .internal (some (initialValue signal))).bind
    fun y m₁ h₁ hm₁ => ?_
  obtain ⟨⟨rfl, hstore⟩, -⟩ := hm₁
  have hext₁ := (h₁.store hm.store).1
  have hy : m.store.signals.size < m₁.store.signals.size := by
    rw [hstore]
    simp [withSignal]
  have hp₁ := hp.trans_le hext₁.signals_le
  refine (ensures_of_grown (setNextCycle_ensures (o := .signal p) (h₁.wellFormed hm) hy hp₁
    clocking true)).bind fun _ m₂ h₂ hm₂ => ?_
  obtain ⟨hgrown, _, rfl, hassign, haccepted⟩ := hm₂
  have hext₂ := hgrown.store.toExtends
  rw [hstore, signal_withSignal_self] at hassign haccepted
  have hrepeats : m₂.Repeats clocking signal p m.store.signals.size := by
    refine ⟨hp₁.trans_le hext₂.signals_le, ?_, ?_, hassign, haccepted rfl⟩
    · rw [hext₂.signal_eq p hp₁, hext₁.signal_eq p hp, hformat]
    · rw [hext₂.signal_eq _ hy, hstore, signal_withSignal_self]
  refine Ensures.pure ⟨hrepeats, fun ht => ?_⟩
  refine ht.of_withSignal hm (trans_of _ h₁ h₂) hstore hgrown ?_
  cases hf : signal.format with
  | real f => exact .real (hrepeats.format.trans hf)
  | int f =>
    have hinit := hrepeats.accepted
    rw [hf] at hinit
    refine .delayed hassign hp (hrepeats.source_format.trans hrepeats.format.symm) ?_
    rw [hrepeats.format, hf]
    exact holds_of_contains? hinit

theorem delayRegisters_repeat (clocking : Clocking) :
    ∀ (n k : Nat) (p : SignalId) (m : Model R), m.WellFormed rounding →
      p < m.store.signals.size → (m.store.signal p).format = signal.format →
      MovesTo rounding m (delayRegisters signal clocking n k p) fun ys m' =>
        ys.length = n ∧ (p :: ys).IsChain (m'.Repeats clocking signal) ∧ (m.Traced → m'.Traced)
  | 0, _, p, _, _, _, _ => Ensures.pure ⟨rfl, .singleton p, id⟩
  | n + 1, k, p, m, hm, hp, hformat => by
    refine (delayRegister_repeats hm hp hformat k clocking).bind fun y m₁ h₁ hy => ?_
    obtain ⟨hy, ht₁⟩ := hy
    have hm₁ := h₁.wellFormed hm
    refine (delayRegisters_repeat clocking n (k + 1) y m₁ hm₁ (hm₁.valid hy.assigned).2.signal_lt
      hy.format).bind fun ys m₂ h₂ hys => ?_
    obtain ⟨hlength, hchain, ht₂⟩ := hys
    exact Ensures.pure ⟨congrArg (· + 1) hlength, .cons_cons (hy.of_moves hm₁ h₂) hchain,
      fun ht => ht₂ (ht₁ ht)⟩

end

/-- The history of a signal is the signal and the registers behind it. -/
theorem makeHistory_repeats (hm : m.WellFormed rounding) (hx : x < m.store.signals.size) (n : Nat)
    (clocking : Clocking) :
    MovesTo rounding m (makeHistory x (n + 1) clocking) fun xs m' => (m.Traced → m'.Traced) ∧
      ∃ ys, xs = x :: ys ∧ ys.length = n ∧
        (x :: ys).IsChain (m'.Repeats clocking (m.store.signal x)) :=
  Ensures.get_bind <| (delayRegisters_repeat clocking n 1 x m hm hx rfl).bind fun ys _ _ hys =>
    Ensures.pure ⟨hys.2.2, ys, rfl, hys.1, hys.2.1⟩

theorem makeHistory_traced (hm : m.WellFormed rounding) (hx : x < m.store.signals.size)
    (length : Nat) (clocking : Clocking) :
    MovesTo rounding m (makeHistory x length clocking)
      fun xs m' => (∀ y ∈ xs, y < m'.store.signals.size) ∧
        (m.Traced → m'.Traced) := by
  cases length with
  | zero => exact Ensures.pure ⟨by simp, id⟩
  | succ n =>
    refine (makeHistory_repeats hm hx n clocking).imp fun xs m' h hxs => ?_
    obtain ⟨ht, ys, rfl, -, hchain⟩ := hxs
    exact ⟨lt_of_repeats (h.wellFormed hm) hchain (hx.trans_le (h.store hm.store).1.signals_le), ht⟩

theorem timestep_ensures :
    Ensures Eq (timestep (R := R)) m (fun _ => True) fun dt _ => m.dt = some dt := by
  refine Ensures.get_bind ?_
  split
  · exact Ensures.pure ‹_›
  · exact Ensures.throw trivial

section

variable (hm : m.WellFormed rounding)
include hm

theorem delay_traced (hx : x < m.store.signals.size) (cycles : UInt64) (clocking : Clocking) :
    MovesTo rounding m (delay x cycles clocking)
      fun y m' => y < m'.store.signals.size ∧ (m.Traced → m'.Traced) := by
  refine (makeHistory_traced hm hx _ clocking).bind fun xs m' h hxs => ?_
  obtain ⟨hlts, ht⟩ := hxs
  refine Ensures.pure ⟨?_, ht⟩
  cases hlast : xs.getLast? with
  | none => exact hx.trans_le (h.store hm.store).1.signals_le
  | some y => exact hlts y (List.mem_of_getLast? hlast)

theorem delayTime_traced (hx : x < m.store.signals.size) (time : R) (clocking : Clocking) :
    MovesTo rounding m (delayTime x time clocking)
      fun y m' => y < m'.store.signals.size ∧ (m.Traced → m'.Traced) := by
  refine (Ensures.of_kept timestep_ensures).bind fun dt t _ ht => ?_
  obtain ⟨rfl, -⟩ := ht
  simp only
  split
  · exact Ensures.throw_bind trivial
  · exact delay_traced hm hx _ clocking

/-! ## Linear systems -/

theorem constant_makes (c : R) : MakesNode rounding m (Edit.build (Build.constant (.real c))) := by
  have hc : (Operand.value (.real c)).Valid m.store := trivial
  exact .of_makes (.of_ensures (E := fun _ => True) (Build.operand_ensures hm.store hc))

theorem sum_makes {terms : List NodeId} (hterms : ∀ j ∈ terms, j < m.store.nodes.size) :
    MakesNode rounding m (Edit.build (Build.sum (terms.map .node))) := by
  refine .of_makes (Build.arithmetic_makes hm.store .sum fun o ho => ?_)
  obtain ⟨j, hj, rfl⟩ := List.mem_map.1 ho
  exact hterms j hj

theorem coefficientNode_makes (coefficients : List R) {mode : Option NodeId}
    (hmode : ∀ i ∈ mode, i < m.store.nodes.size) :
    MakesNode rounding m (coefficientNode coefficients mode) := by
  unfold coefficientNode
  cases mode with
  | some i =>
    have hvalid : ∀ o ∈ coefficients.map fun c => Operand.value (.real c), o.Valid m.store := by
      intro o ho
      obtain ⟨c, -, rfl⟩ := List.mem_map.1 ho
      trivial
    exact .of_makes (Build.array_makes (a := .node i) hm.store hvalid (hmode i rfl))
  | none =>
    simp only
    split
    · exact constant_makes hm _
    · exact Ensures.throw trivial

theorem rowTerms_ensures (system : ModalSystem R) (block : Block) (row : Nat)
    {signals : List SignalId} (hsignals : ∀ x ∈ signals, x < m.store.signals.size)
    {mode : Option NodeId} (hmode : ∀ i ∈ mode, i < m.store.nodes.size) :
    GrowsTo rounding m (rowTerms system block row signals mode)
      fun js m' => ∀ j ∈ js, j < m'.store.nodes.size := by
  unfold rowTerms
  split
  · refine (Ensures.mapM (Q := fun _ j (m' : Model R) => j < m'.store.nodes.size) ?_ _ m ?_).imp
      fun js m' _ hjs j hj => ?_
    · exact fun _ _ _ _ h hj => hj.trans_le h.store.size_le
    · rintro ⟨x, col⟩ hx m₁ h₁
      have hm₁ := h₁.wellFormed hm
      refine Ensures.bind (coefficientNode_makes hm₁ _ fun i hi =>
        (hmode i hi).trans_le h₁.store.size_le) fun c m₂ h₂ hc => ?_
      have hx₂ : x < m₂.store.signals.size := by
        rw [h₂.store.signals_eq, h₁.store.signals_eq]
        exact hsignals x (List.fst_mem_of_mem_zipIdx hx)
      have hvalid : ∀ o ∈ [Operand.node c, .signal x], o.Valid m₂.store := by
        simpa using ⟨hc, hx₂⟩
      exact MakesNode.of_makes (Build.arithmetic_makes (h₂.wellFormed hm₁).store .product hvalid)
    · obtain ⟨_, -, hlt⟩ := forall₂_exists_left hjs j hj
      exact hlt
  · exact Ensures.pure (by simp)

theorem systemRow_makes (system : ModalSystem R) (stateBlock inputBlock : Block) (row : Nat)
    {states inputs : List SignalId} (hstates : ∀ x ∈ states, x < m.store.signals.size)
    (hinputs : ∀ x ∈ inputs, x < m.store.signals.size) {mode : Option NodeId}
    (hmode : ∀ i ∈ mode, i < m.store.nodes.size) :
    MakesNode rounding m (systemRow system stateBlock inputBlock row states inputs mode) := by
  refine (rowTerms_ensures hm system stateBlock row hstates hmode).bind fun js m₁ h₁ hjs => ?_
  have hm₁ := h₁.wellFormed hm
  refine (rowTerms_ensures hm₁ system inputBlock row (fun x hx => by
      rw [h₁.store.signals_eq]
      exact hinputs x hx)
    fun i hi => (hmode i hi).trans_le h₁.store.size_le).bind fun ks m₂ h₂ hks => ?_
  have hterms : ∀ j ∈ js ++ ks, j < m₂.store.nodes.size := by
    intro j hj
    rcases List.mem_append.1 hj with hj | hj
    · exact (hjs j hj).trans_le h₂.store.size_le
    · exact hks j hj
  split
  · exact constant_makes (h₂.wellFormed hm₁) 0
  · exact sum_makes (h₂.wellFormed hm₁) hterms

end

end Model

/-! ## Equations -/

namespace Solving

open Store

variable {rounding : Rounding R} {s : Store R}

/-- The sides of the equations exist. -/
def Known (s : Store R) (equations : List Equation) : Prop :=
  ∀ e ∈ equations, e.lhs < s.nodes.size ∧ e.rhs < s.nodes.size

theorem Known.of_grown {t : Store R} (hk : Known s equations) (h : s.Grown rounding t) :
    Known t equations :=
  fun e he => ⟨(hk e he).1.trans_le h.size_le, (hk e he).2.trans_le h.size_le⟩

theorem Known.sides_lt (hk : Known s equations) :
    ∀ i ∈ equations.flatMap fun e => [e.lhs, e.rhs], i < s.nodes.size := by
  intro i hi
  obtain ⟨e, he, hi⟩ := List.mem_flatMap.1 hi
  rcases List.mem_pair.1 hi with rfl | rfl
  · exact (hk e he).1
  · exact (hk e he).2

variable (hs : s.WellTyped rounding)
include hs

theorem formOf_ensures (setting : SignalId → Option Bool) {e : Equation} (hl : e.lhs < s.nodes.size)
    (hr : e.rhs < s.nodes.size) :
    Ensures (Grown rounding) (formOf (R := R) setting e) s (fun _ => True) fun _ _ => True := by
  have hbuild : ∀ {x : Build R NodeId} {t : Store R}, Build.Makes rounding t x →
      Ensures (Grown rounding) (build x) t (fun _ => True) fun j t' => j < t'.nodes.size :=
    fun h => build_ensures h fun _ _ => trivial
  refine (hbuild (Build.resolveCases_makes hs setting hl)).bind fun l t ht hl' => ?_
  have hst := ht.wellTyped hs
  refine (hbuild (Build.resolveCases_makes hst setting (hr.trans_le ht.size_le))).bind
    fun r u hu hr' => ?_
  have hsu := hu.wellTyped hst
  refine (hbuild (Build.sub_makes (a := .node l) (b := .node r) hsu (hl'.trans_le hu.size_le)
    hr')).bind fun d v hv hd => ?_
  refine (hbuild (Build.distributeProducts_makes (hv.wellTyped hsu) hd)).bind fun _ w _ _ => ?_
  refine Ensures.get_bind ?_
  simp only
  split
  · exact Ensures.throw trivial
  · split
    · exact Ensures.throw_bind trivial
    · exact Ensures.pure trivial

theorem mode_ensures (solve : Solver R) (hk : Known s equations) (roles : SystemRoles)
    (setting : SignalId → Option Bool) :
    Ensures (Grown rounding) (mode solve equations roles setting) s (fun _ => True)
      fun _ _ => True := by
  refine (Ensures.mapM (Q := fun _ _ _ => True) (fun _ _ _ _ _ => id) equations s
    fun e he t ht => ?_).bind fun forms t _ _ => ?_
  · exact formOf_ensures (ht.wellTyped hs) setting ((hk e he).1.trans_le ht.size_le)
      ((hk e he).2.trans_le ht.size_le)
  · refine Ensures.get_bind ?_
    simp only
    split
    · exact Ensures.pure trivial
    · exact Ensures.throw trivial

/-- Solving a system adds nodes to the store. -/
theorem systemWith_ensures (solve : Solver R) (hk : Known s equations) (roles : SystemRoles) :
    Ensures (Grown rounding) (systemWith solve equations roles) s (fun _ => True)
      fun _ _ => True := by
  unfold systemWith
  simp only
  split
  · exact Ensures.throw_bind trivial
  · refine (Ensures.mapM (Q := fun _ _ _ => True) (fun _ _ _ _ _ => id) _ s
      fun n _ t ht => ?_).bind fun _ _ _ _ => Ensures.pure trivial
    exact mode_ensures (ht.wellTyped hs) _ (hk.of_grown ht) roles _

/-- A system has one mode for each setting of the selectors, and each is extracted on its own. -/
theorem modes_of_systemWith {solve : Solver R} (hk : Known s equations) {roles : SystemRoles}
    {system : ModalSystem R} {s' : Store R}
    (h : outcome (systemWith solve equations roles) s = (.ok system, s')) :
    system.modes.length = 2 ^ roles.selectors.length ∧
      ∀ (m : Nat) (result : StateSpace R), system.modes[m]? = some result →
        ∃ t t', s.Grown rounding t ∧ outcome
          (mode solve equations roles (modeSetting roles.selectors m)) t = (.ok result, t') := by
  unfold systemWith at h
  split at h
  · cases h
  · obtain ⟨modes, t, hmodes, h⟩ := outcome_bind_eq_ok h
    cases h
    have hall := Ensures.forall₂_of_outcome_mapM (G := Grown rounding) (fun m _ u hu => ?_) hmodes
    · refine ⟨?_, fun m result hresult => ?_⟩
      · simpa using hall.length_eq.symm
      · obtain ⟨n, hn, hresult⟩ := forall₂_getElem?_left hall hresult
        obtain ⟨hm, rfl⟩ := List.getElem?_eq_some_iff.1 hn
        simpa using hresult
    · exact (mode_ensures (hu.wellTyped hs) solve (hk.of_grown hu) roles _).moved

end Solving

namespace Store

variable {rounding : Rounding R} {s : Store R}

theorem WellTyped.derivsIn_lt (hs : s.WellTyped rounding) (hi : i < s.nodes.size) :
    ∀ x ∈ s.derivsIn i, x < s.signals.size := by
  intro x hx
  rw [derivsIn, List.mem_eraseDups, List.mem_filterMap] at hx
  obtain ⟨j, hj, hr⟩ := hx
  refine hs.mentioned_lt hi hj (.inl ?_)
  cases hk : s.kind j with
  | deriv y => rwa [hk] at hr
  | _ => simp [hk, derivSignal?] at hr

theorem WellTyped.selectorsIn_lt (hs : s.WellTyped rounding) (hi : i < s.nodes.size) :
    ∀ x ∈ s.selectorsIn i, x < s.signals.size := by
  intro x hx
  rw [selectorsIn, List.mem_eraseDups, List.mem_flatMap] at hx
  obtain ⟨j, hj, hr⟩ := hx
  exact hs.mentioned_lt hi hj (.inr hr)

end Store

namespace Model

open Store

variable {rounding : Rounding R} {m : Model R}

/-- The signals with given roles exist. -/
def PartialRoles.Known (s : Store R) (given : PartialRoles) : Prop :=
  ∀ xs ∈ [given.inputs, given.states, given.outputs, given.selectors], ∀ l ∈ xs, ∀ x ∈ l,
    x < s.signals.size

variable (hm : m.WellFormed rounding)
include hm

/-- The signals with inferred roles exist. -/
theorem inferRoles_lt (hk : Solving.Known m.store equations) {given : PartialRoles}
    (hg : given.Known m.store) :
    (∀ x ∈ (inferRoles m equations given).inputs, x < m.store.signals.size) ∧
    (∀ x ∈ (inferRoles m equations given).states, x < m.store.signals.size) ∧
    (∀ x ∈ (inferRoles m equations given).outputs, x < m.store.signals.size) ∧
    ∀ x ∈ (inferRoles m equations given).selectors, x < m.store.signals.size := by
  have hgather : ∀ f : NodeId → List SignalId,
      (∀ i < m.store.nodes.size, ∀ x ∈ f i, x < m.store.signals.size) →
      ∀ x ∈ ((equations.flatMap fun e => [e.lhs, e.rhs]).flatMap f).eraseDups,
        x < m.store.signals.size := by
    intro f hf x hx
    obtain ⟨i, hi, hx⟩ := List.mem_flatMap.1 (List.mem_eraseDups.1 hx)
    exact hf i (hk.sides_lt i hi) x hx
  have hread := hgather m.store.signalsIn fun i hi => hm.store.signalsIn_lt hi
  have hderiv := hgather m.store.derivsIn fun i hi => hm.store.derivsIn_lt hi
  have hselect := hgather m.store.selectorsIn fun i hi => hm.store.selectorsIn_lt hi
  -- a given role is taken as it is, and others are found among what the equations mention
  have hgetD : ∀ {o : Option (List SignalId)} {l : List SignalId},
      o ∈ [given.inputs, given.states, given.outputs, given.selectors] →
      (∀ x ∈ l, x < m.store.signals.size) → ∀ x ∈ o.getD l, x < m.store.signals.size := by
    intro o l ho hl
    cases o with
    | none => exact hl
    | some l' => exact hg _ ho l' rfl
  refine ⟨hgetD (by simp) ?_, hgetD (by simp) hderiv, hgetD (by simp) ?_, hgetD (by simp) hselect⟩
  · exact fun x hx => hread x (List.mem_of_mem_filter (List.mem_of_mem_filter hx))
  · exact fun x hx => hread x (List.mem_of_mem_filter (List.mem_of_mem_filter hx))

/-! ## Transfer functions and tables -/

theorem weightedTerms_ensures (coefficients : List R) {signals : List SignalId}
    (hsignals : ∀ x ∈ signals, x < m.store.signals.size) :
    GrowsTo rounding m (weightedTerms coefficients signals)
      fun js m' => ∀ j ∈ js, j < m'.store.nodes.size := by
  refine (Ensures.mapM (Q := fun _ j (m' : Model R) => j < m'.store.nodes.size) ?_ _ m ?_).imp
    fun js m' _ hjs j hj => ?_
  · exact fun _ _ _ _ h hj => hj.trans_le h.store.size_le
  · rintro ⟨c, x⟩ hx m₁ h₁
    have hx₁ : x < m₁.store.signals.size := by
      rw [h₁.store.signals_eq]
      exact hsignals x (List.of_mem_zip (List.mem_of_mem_filter hx)).2
    have hvalid : ∀ o ∈ [Operand.value (.real c), .signal x], o.Valid m₁.store := by
      simpa using ⟨trivial, hx₁⟩
    exact MakesNode.of_makes (Build.arithmetic_makes (h₁.wellFormed hm).store .product hvalid)
  · obtain ⟨_, -, hlt⟩ := forall₂_exists_left hjs j hj
    exact hlt

/-- A node that is made drives a signal. -/
theorem drive_grows {y : Edit R NodeId} (hy : MakesNode rounding m y)
    (hx : x < m.store.signals.size) :
    GrowsTo rounding m (do setThisCycle x (.node (← y)) true) fun _ _ => True := by
  refine Ensures.bind hy fun e m' h he => ?_
  have hx' : x < m'.store.signals.size := by rwa [h.store.signals_eq]
  exact (setThisCycle_ensures (o := .node e) (h.wellFormed hm) hx' he true).imp
    fun _ _ _ _ => trivial

theorem addDifferenceEquation_ensures (sampled : TransferFunction R) {input : SignalId}
    (hinput : input < m.store.signals.size) (houtput : output < m.store.signals.size)
    (clocking : Clocking) :
    MovesTo rounding m (addDifferenceEquation sampled input output clocking)
      fun _ m' => m.Traced → m'.Traced := by
  unfold addDifferenceEquation
  refine (makeHistory_traced hm hinput _ clocking).bind fun inputs m₁ h₁ hi => ?_
  have hm₁ := h₁.wellFormed hm
  have hext₁ := (h₁.store hm.store).1
  refine (makeHistory_traced hm₁ (houtput.trans_le hext₁.signals_le) _ clocking).bind
    fun outputs m₂ h₂ ho => ?_
  have hm₂ := h₂.wellFormed hm₁
  have hext₂ := (h₂.store hm₁.store).1
  -- from here on only nodes and an assignment are added
  refine (ensures_of_grown (P := fun _ _ => True) ?_).imp fun _ m' _ h' ht =>
    (ho.2 (hi.2 ht)).of_grown hm₂ h'.1
  refine (weightedTerms_ensures hm₂ sampled.num fun x hx =>
    (hi.1 x hx).trans_le hext₂.signals_le).bind fun js m₃ h₃ hjs => ?_
  have hm₃ := h₃.wellFormed hm₂
  have houtputs : ∀ x ∈ outputs.tail, x < m₃.store.signals.size := by
    rw [h₃.store.signals_eq]
    exact fun x hx => ho.1 x (List.mem_of_mem_tail hx)
  refine (weightedTerms_ensures hm₃ (sampled.den.tail.map fun c => -c) houtputs).bind
    fun ks m₄ h₄ hks => ?_
  have hm₄ := h₄.wellFormed hm₃
  have hterms : ∀ j ∈ js ++ ks, j < m₄.store.nodes.size := by
    intro j hj
    rcases List.mem_append.1 hj with hj | hj
    · exact (hjs j hj).trans_le h₄.store.size_le
    · exact hks j hj
  have hx : output < m₄.store.signals.size := by
    rw [h₄.store.signals_eq, h₃.store.signals_eq]
    exact (houtput.trans_le hext₁.signals_le).trans_le hext₂.signals_le
  simp only
  split
  · exact drive_grows hm₄ (constant_makes hm₄ 0) hx
  · exact drive_grows hm₄ (sum_makes hm₄ hterms) hx

theorem setTransferFunction_ensures [Numerics R] {input : SignalId}
    (hinput : input < m.store.signals.size) (houtput : output < m.store.signals.size)
    (num den : List R) (clocking : Clocking) :
    MovesTo rounding m (setTransferFunction input output num den clocking)
      fun _ m' => m.Traced → m'.Traced := by
  unfold setTransferFunction
  refine (Ensures.of_kept timestep_ensures).bind fun dt t _ ht => ?_
  obtain ⟨rfl, -⟩ := ht
  refine (Ensures.of_kept (check_ensures _ _)).bind fun f u _ hu => ?_
  obtain ⟨rfl, -⟩ := hu
  exact addDifferenceEquation_ensures hm _ hinput houtput clocking

/-- A lookup drives its output with a selection between the padded entries by the address. -/
theorem setFromTable_selects (houtput : output < m.store.signals.size) (name : String)
    (table : Table R) {address : Operand R} (haddress : address.Valid m.store) :
    GrowsTo rounding m (setFromTable output name table address) fun _ m' => ∃ w r e,
        Build.operandFormat m.store address = .int ⟨.unsigned, w, r⟩ ∧ table.length ≤ 2 ^ w ∧
        e < m'.store.nodes.size ∧ Build.SelectsOperand rounding m.store m'.store
          ((table.paddedValues (2 ^ w)).map .value) address e ∧
        m'.assignment? output = some ⟨output, e, .thisCycle⟩ := by
  unfold setFromTable
  simp only
  split
  · refine (Edit.build_ensures (fun _ _ => Grown.advances)
      (Build.operand_ensures hm.store haddress)).bind fun i m₁ h₁ hi => ?_
    obtain ⟨⟨hi, hstands⟩, -⟩ := hi
    have hm₁ := h₁.wellFormed hm
    refine (Edit.build_ensures (G := Grown rounding) (fun _ _ => Grown.advances)
      (Ensures.of_kept (Build.requireUnsigned_ensures i fun _ _ => trivial))).bind
      fun w m₂ h₂ hw => ?_
    obtain ⟨⟨-, r, hr⟩, -⟩ := hw
    have hformat : Build.operandFormat m.store address = .int ⟨.unsigned, w, r⟩ := by
      rw [← Build.format_of_stands hm.store haddress h₁.store hstands, hr]
    have hm₂ := h₂.wellFormed hm₁
    split
    · exact Ensures.throw_bind trivial
    · rename_i hsize
      have hvalues : ∀ o ∈ (table.paddedValues (2 ^ w)).map Operand.value,
          o.Valid m₂.store := by
        intro o ho
        obtain ⟨v, -, rfl⟩ := List.mem_map.1 ho
        trivial
      have hi₂ := hi.trans_le h₂.store.size_le
      refine (Edit.build_ensures (fun _ _ => Grown.advances) (Build.array_ensures
        (E := fun _ => True) (a := .node i) hm₂.store hvalues hi₂ fun _ _ => trivial)).bind
        fun e m₃ h₃ he => ?_
      obtain ⟨⟨he, hselects⟩, -⟩ := he
      have hselects' := hselects.of_stands (trans_of _ h₁.store h₂.store) hi₂
        (Build.stands_of_grown h₂.store hi hstands)
      have hm₃ := h₃.wellFormed hm₂
      refine Ensures.get_bind ?_
      split
      · rename_i tables _
        -- the table is kept, and the rest of the model does not change
        have hset : m₃.Moves rounding (Grown rounding) { m₃ with tables } :=
          ⟨refl_of _ m₃.store, List.prefix_rfl, fun h => { h with }, fun _ => id⟩
        have hx : output < m₃.store.signals.size := by
          rwa [h₃.store.signals_eq, h₂.store.signals_eq, h₁.store.signals_eq]
        refine Ensures.bind (P := fun _ m' => m' = { m₃ with tables }) (.of_ok rfl hset rfl) ?_
        rintro _ _ - rfl
        refine (setThisCycle_ensures (o := .node e) (hset.wellFormed hm₃) hx he true).imp
          fun _ m₄ h₄ hassigned => ?_
        obtain ⟨_, rfl, hassigned, -⟩ := hassigned
        exact ⟨w, r, _, hformat, not_lt.1 (not_or.1 hsize).2, he.trans_le h₄.store.size_le,
          hselects'.of_grown he h₄.store, hassigned⟩
      · exact Ensures.throw_bind trivial
  · exact Ensures.throw_bind trivial

end Model

end MixedSignal
