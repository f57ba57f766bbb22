import MixedSignal.Proofs.Effects

/-!
# What building blocks add

Delay lines, counters, linear systems, transfer functions and tables are made step by step. If one
fails, then the first of its steps stay: some registers of a delay line, drivers of some of the
signals, or a table whose output cannot be driven.
-/

namespace MixedSignal

variable {R : Type} [Scalar R] {n : Nat} {m' : Model R} {x output : SignalId}

namespace Model

open Store

variable {rounding : Rounding R} {clocking : Clocking} {m : Model R}

/-! ## Loops -/

/-- Of signals that were to be driven in turn, some first ones are driven, but not all. -/
def LeavesDriven (rounding : Rounding R) (clocking : Clocking) (m : Model R)
    (targets : List SignalId) (m' : Model R) : Prop :=
  ∃ pre x post, targets = pre ++ x :: post ∧ m.Adds rounding true clocking [] pre [] m'

theorem LeavesDriven.some {targets : List SignalId}
    (h : m.LeavesDriven rounding clocking targets m') : m.AddsSome rounding true clocking m' := by
  obtain ⟨_, _, _, _, h⟩ := h
  exact h.some

/-- A loop that drives one signal after the other. If it fails, then those before stay driven. -/
theorem forIn_ends {γ : Type} {f : γ → PUnit → Edit R (ForInStep PUnit)} {k : γ → SignalId} :
    ∀ (xs : List γ) (m : Model R), m.WellFormed rounding → clocking.Known m.store →
      (∀ c ∈ xs, ∀ m', m.Moves rounding (Advances rounding) m' →
        Ends (f c ⟨⟩) m' (fun m'' => m'.Same rounding true clocking m'') fun r m'' =>
          r = .yield ⟨⟩ ∧ m'.Adds rounding true clocking [] [k c] [] m'') →
      Ends (ForIn.forIn xs ⟨⟩ f) m
        (fun m' => m.LeavesDriven rounding clocking (xs.map k) m') fun _ m' =>
        m.Adds rounding true clocking [] (xs.map k) [] m'
  | [], m, _, _, _ => by
    rw [List.forIn_nil]
    exact .pure (.refl m)
  | c :: xs, m, hm, hc, h => by
    rw [List.forIn_cons]
    refine (h c (by simp) m (refl_of _ m)).bind
      (fun m' h' => ⟨[], k c, xs.map k, rfl, h'⟩) fun r m₁ h₁ => ?_
    obtain ⟨rfl, h₁⟩ := h₁
    refine (forIn_ends xs m₁ (h₁.moves.wellFormed hm) (hc.of_extends (h₁.extends_store hm))
      fun d hd m' hm' => h d (by simp [hd]) m' (trans_of _ h₁.moves hm')).imp ?_
      fun _ _ h' => h₁.trans h' hm hc
    rintro m' ⟨pre, x, post, hpre, h'⟩
    exact ⟨k c :: pre, x, post, by simp [hpre], h₁.trans h' hm hc⟩

/-! ## Delay lines -/

/-- The signal of the `k`-th register in the delay line of a signal. -/
def pastSignal (signal : Signal R) (k : Nat) : Signal R :=
  ⟨signal.name ++ "_" ++ toString k, signal.format, .internal, some (initialValue signal)⟩

/-- The signals of `n` registers from the `k`-th on. -/
def pastSignals (signal : Signal R) (k n : Nat) : List (Signal R) :=
  (List.range' k n).map (pastSignal signal)

theorem pastSignals_succ (signal : Signal R) (k n : Nat) :
    pastSignals signal k (n + 1) = pastSignal signal k :: pastSignals signal (k + 1) n := by
  simp [pastSignals, List.range'_succ]

/-- Signals for `i` registers from the `k`-th on were added, and the first `j` of them are driven:
each repeats the one before it, and the first one repeats `p`. -/
structure AddsLine (rounding : Rounding R) (clocking : Clocking) (m : Model R) (signal : Signal R)
    (p : SignalId) (k i j : Nat) (m' : Model R) : Prop where
  adds : m.Adds rounding true clocking (pastSignals signal k i)
    (List.range' m.store.signals.size j) [] m'
  repeats : (p :: List.range' m.store.signals.size j).IsChain (m'.Repeats clocking signal)

/-- All `n` registers from the `k`-th on were added and are driven. -/
abbrev AddsRegisters (rounding : Rounding R) (clocking : Clocking) (m : Model R)
    (signal : Signal R) (p : SignalId) (k n : Nat) (m' : Model R) : Prop :=
  m.AddsLine rounding clocking signal p k n n m'

/-- Only some first ones of `n` registers were added, and perhaps the signal of the next one, which
nothing drives. -/
def LeavesRegisters (rounding : Rounding R) (clocking : Clocking) (m : Model R)
    (signal : Signal R) (p : SignalId) (k n : Nat) (m' : Model R) : Prop :=
  ∃ i j, j < n ∧ (i = j ∨ i = j + 1) ∧ m.AddsLine rounding clocking signal p k i j m'

theorem LeavesRegisters.some {signal : Signal R} {p : SignalId} {k : Nat}
    (h : m.LeavesRegisters rounding clocking signal p k n m') :
    m.AddsSome rounding true clocking m' := by
  obtain ⟨_, _, _, _, h⟩ := h
  exact h.adds.some

/-- A line without registers. -/
theorem AddsLine.refl (m : Model R) (signal : Signal R) (p : SignalId) (k : Nat) :
    m.AddsLine rounding clocking signal p k 0 0 m :=
  ⟨.refl m, .singleton p⟩

/-- A line before nothing but nodes. -/
theorem AddsLine.same {signal : Signal R} {p : SignalId} {k i j : Nat} {m'' : Model R}
    (h : m.AddsLine rounding clocking signal p k i j m')
    (h' : m'.Same rounding true clocking m'') (hm : m.WellFormed rounding)
    (hc : clocking.Known m.store) : m.AddsLine rounding clocking signal p k i j m'' where
  adds := h.adds.same h' hm hc
  repeats := h.repeats.imp fun _ _ hr => hr.of_moves (h.adds.moves.wellFormed hm) h'.moves

/-- A line stands behind its first register. -/
theorem AddsLine.cons {signal : Signal R} {p : SignalId} {k i j : Nat} {m₁ : Model R}
    (h : m.AddsRegisters rounding clocking signal p k 1 m₁)
    (h' : m₁.AddsLine rounding clocking signal m.store.signals.size (k + 1) i j m')
    (hm : m.WellFormed rounding) (hc : clocking.Known m.store) :
    m.AddsLine rounding clocking signal p k (i + 1) (j + 1) m' := by
  have hsize : m₁.store.signals.size = m.store.signals.size + 1 := h.adds.size_eq
  have hrest := h'.adds
  have hrepeats := h'.repeats
  rw [hsize] at hrest hrepeats
  refine ⟨?_, ?_⟩
  · rw [pastSignals_succ, List.range'_succ]
    exact h.adds.trans hrest hm hc
  · rw [List.range'_succ]
    refine .cons_cons ?_ hrepeats
    exact (List.isChain_cons_cons.1 h.repeats).1.of_moves (h.adds.moves.wellFormed hm) h'.adds.moves

theorem delayRegister_ends (hm : m.WellFormed rounding) (hc : clocking.Known m.store)
    {signal : Signal R} {p : SignalId} (hp : p < m.store.signals.size)
    (hformat : (m.store.signal p).format = signal.format) (k : Nat) :
    Ends (delayRegister signal p k clocking) m
      (fun m' => m.LeavesRegisters rounding clocking signal p k 1 m') fun x m' =>
      x = m.store.signals.size ∧ m.AddsRegisters rounding clocking signal p k 1 m' := by
  suffices hadds : Ends (delayRegister signal p k clocking) m
      (fun m' => m.LeavesRegisters rounding clocking signal p k 1 m') fun x m' =>
      x = m.store.signals.size ∧ m.Adds rounding true clocking (pastSignals signal k 1)
        (List.range' m.store.signals.size 1) [] m' by
    refine (hadds.and_ensures (delayRegister_repeats hm hp hformat k clocking)).imp (fun _ => id) ?_
    rintro x m' ⟨⟨rfl, hadds⟩, hrepeats, -⟩
    exact ⟨rfl, hadds, .cons_cons hrepeats (.singleton _)⟩
  unfold delayRegister
  refine (addRawSignal_ends _ _ _ _).bind
    (fun m' h => ⟨0, 0, by simp, .inl rfl, h, .singleton p⟩) fun x m₁ h₁ => ?_
  obtain ⟨rfl, h₁⟩ := h₁
  have hext := h₁.extends_store hm
  have hx : m.store.signals.size < m₁.store.signals.size := by
    rw [h₁.size_eq]
    simp
  exact (setNextCycle_ends (o := .signal p) (h₁.moves.wellFormed hm) (hc.of_extends hext) hx
    (hp.trans_le hext.signals_le) true).bind
    (fun m' h => ⟨1, 0, by simp, .inr rfl, h₁.same h hm hc, .singleton p⟩)
    fun _ m' h => .pure ⟨rfl, h₁.trans h hm hc⟩

theorem delayRegisters_ends {signal : Signal R} :
    ∀ (n k : Nat) (p : SignalId) (m : Model R), m.WellFormed rounding → clocking.Known m.store →
      p < m.store.signals.size → (m.store.signal p).format = signal.format →
      Ends (delayRegisters signal clocking n k p) m
        (fun m' => m.LeavesRegisters rounding clocking signal p k n m') fun _ m' =>
        m.AddsRegisters rounding clocking signal p k n m'
  | 0, k, p, m, _, _, _, _ => .pure (.refl m signal p k)
  | n + 1, k, p, m, hm, hc, hp, hformat => by
    refine (delayRegister_ends hm hc hp hformat k).bind ?_ fun x m₁ h₁ => ?_
    · rintro m' ⟨i, j, hj, hij, h⟩
      exact ⟨i, j, by omega, hij, h⟩
    obtain ⟨rfl, h₁⟩ := h₁
    have hm₁ := h₁.adds.moves.wellFormed hm
    have hlast := (List.isChain_cons_cons.1 h₁.repeats).1
    refine (delayRegisters_ends n (k + 1) m.store.signals.size m₁ hm₁
      (hc.of_extends (h₁.adds.extends_store hm)) (hm₁.valid hlast.assigned).2.signal_lt
      hlast.format).bind ?_ fun _ m' h => .pure (.cons h₁ h hm hc)
    rintro m' ⟨i, j, hj, hij, h⟩
    exact ⟨i + 1, j + 1, by omega, by omega, .cons h₁ h hm hc⟩

variable (hm : m.WellFormed rounding) (hc : clocking.Known m.store)

include hm hc

theorem makeHistory_ends (hx : x < m.store.signals.size) (length : Nat) :
    Ends (makeHistory x length clocking) m
      (fun m' => m.LeavesRegisters rounding clocking (m.store.signal x) x 1 (length - 1) m')
      fun xs m' => m.AddsRegisters rounding clocking (m.store.signal x) x 1 (length - 1) m' ∧
        ∀ y ∈ xs, y < m'.store.signals.size := by
  refine Ends.and_ensures ?_ ((makeHistory_traced hm hx length clocking).imp fun _ _ _ h => h.1)
  unfold makeHistory
  cases length with
  | zero => exact .pure (.refl m _ x 1)
  | succ n =>
    exact Ends.get_bind ((delayRegisters_ends n 1 x m hm hc hx rfl).bind (fun _ => id)
      fun _ _ h => .pure h)

theorem delay_ends (hx : x < m.store.signals.size) (cycles : UInt64) :
    Ends (delay x cycles clocking) m
      (fun m' => m.LeavesRegisters rounding clocking (m.store.signal x) x 1
        ((cycles + 1).toNat - 1) m') fun _ m' =>
      m.AddsRegisters rounding clocking (m.store.signal x) x 1 ((cycles + 1).toNat - 1) m' :=
  (makeHistory_ends hm hc hx _).bind (fun _ => id) fun _ _ h => .pure h.1

/-! ## Counters -/

/-- The signal of a counter. -/
def counterSignal (name : String) (width : Nat) (init : Int) : Signal R :=
  ⟨name, .int (.full .unsigned width), .internal, some (.int init)⟩

theorem loadBits_ends {i : NodeId} (hx : x < m.store.signals.size) (hi : i < m.store.nodes.size)
    (width : Nat) :
    Ends (do
      let next ← Edit.build (Build.bitSlice (.node i) (width - 1) 0)
      setNextCycle x (.node next) clocking true
      return x) m (fun m' => m.Same rounding true clocking m') fun _ m' =>
        m.Adds rounding true clocking [] [x] [] m' := by
  refine Ends.bind (PlacesNode.of_makes (Build.bitSlice_makes (a := .node i) hm.store hi _ _))
    (fun _ => id) fun j m₁ h₁ => ?_
  obtain ⟨h₁, hj⟩ := h₁
  have hext := h₁.extends_store hm
  exact (setNextCycle_ends (o := .node j) (h₁.moves.wellFormed hm) (hc.of_extends hext)
    (hx.trans_le hext.signals_le) hj true).bind (fun _ h => h₁.same h hm hc)
    fun _ _ h => .pure (h.after h₁ hm hc)

/-- A counter that fails leaves nothing, or its signal without a driver. -/
theorem addCounter_ends (name : String) (width : Nat) (init : Int) (wrap : Bool) :
    Ends (addCounter name width init wrap clocking) m
      (fun m' => m.Same rounding true clocking m' ∨
        0 < width ∧ m.Adds rounding true clocking [counterSignal name width init] [] [] m')
      fun _ m' => 0 < width ∧
        m.Adds rounding true clocking [counterSignal name width init] [m.store.signals.size] [] m' := by
  unfold addCounter
  refine (addDigital_ends name width .unsigned init .internal).bind (fun _ => .inl) fun x m₁ h₁ => ?_
  obtain ⟨rfl, hw, h₁⟩ := h₁
  have hm₁ := h₁.moves.wellFormed hm
  have hc₁ := hc.of_extends (h₁.extends_store hm)
  have hx₁ : m.store.signals.size < m₁.store.signals.size := by
    rw [h₁.size_eq]
    simp
  -- from here on nodes are added, and the driver in the end
  suffices hload : Ends _ m₁ (fun m' => m₁.Same rounding true clocking m') fun _ m' =>
      m₁.Adds rounding true clocking [] [m.store.signals.size] [] m' from
    hload.imp (fun _ h => .inr ⟨hw, h₁.same h hm hc⟩) fun _ _ h => ⟨hw, h₁.trans h hm hc⟩
  have hsum : ∀ o ∈ [Operand.signal m.store.signals.size, .value (.int 1)], o.Valid m₁.store := by
    simpa using ⟨hx₁, trivial⟩
  refine Ends.bind (PlacesNode.of_makes (Build.arithmetic_makes hm₁.store .sum hsum)) (fun _ => id)
    fun i m₂ h₂ => ?_
  obtain ⟨h₂, hi⟩ := h₂
  have hm₂ := h₂.moves.wellFormed hm₁
  have hext₂ := h₂.extends_store hm₁
  have hc₂ := hc₁.of_extends hext₂
  have hx₂ := hx₁.trans_le hext₂.signals_le
  simp only
  split
  · exact (loadBits_ends hm₂ hc₂ hx₂ hi width).imp (fun _ h => h₂.same h hm₁ hc₁)
      fun _ _ h => h.after h₂ hm₁ hc₁
  · have hmin : ∀ o ∈ [Operand.node i, .value (.int (2 ^ width - 1))], o.Valid m₂.store := by
      simpa using ⟨hi, trivial⟩
    refine Ends.bind (PlacesNode.of_makes (Build.arithmetic_makes hm₂.store .min hmin))
      (fun _ h => h₂.same h hm₁ hc₁) fun j m₃ h₃ => ?_
    obtain ⟨h₃, hj⟩ := h₃
    have hext₃ := h₃.extends_store hm₂
    have h₁₃ := h₂.same h₃ hm₁ hc₁
    exact (loadBits_ends (h₃.moves.wellFormed hm₂) (hc₂.of_extends hext₃)
      (hx₂.trans_le hext₃.signals_le) hj width).imp (fun _ h => h₁₃.same h hm₁ hc₁)
      fun _ _ h => h.after h₁₃ hm₁ hc₁

/-! ## Linear systems -/

/-- A system that fails leaves nothing, or drivers of some first ones of its states and outputs. -/
theorem addDiscreteSystem_ends (system : ModalSystem R) {inputs states outputs : List SignalId}
    (hinputs : ∀ x ∈ inputs, x < m.store.signals.size)
    (hstates : ∀ x ∈ states, x < m.store.signals.size)
    (houtputs : ∀ x ∈ outputs, x < m.store.signals.size) {mode : Option NodeId}
    (hmode : ∀ i ∈ mode, i < m.store.nodes.size) :
    Ends (addDiscreteSystem system inputs states outputs mode clocking) m
      (fun m' => m.Same rounding true clocking m' ∨
        m.LeavesDriven rounding clocking (states ++ outputs) m') fun _ m' =>
      m.Adds rounding true clocking [] (states ++ outputs) [] m' := by
  have hrow : ∀ stateBlock inputBlock row m', m.Moves rounding (Advances rounding) m' →
      Ends (systemRow system stateBlock inputBlock row states inputs mode) m'
        (fun m'' => m'.Same rounding true clocking m'') fun e m'' =>
        m'.Same rounding true clocking m'' ∧ e < m''.store.nodes.size := by
    intro stateBlock inputBlock row m' h'
    have hext := (h'.store hm.store).1
    exact (systemRow_editsStore system stateBlock inputBlock row states inputs mode m').ends
      (systemRow_makes (h'.wellFormed hm) system stateBlock inputBlock row
        (fun x hx => (hstates x hx).trans_le hext.signals_le)
        (fun x hx => (hinputs x hx).trans_le hext.signals_le)
        fun i hi => (hmode i hi).trans_le hext.size_le)
  -- each row is built and then drives its signal
  have hrows : ∀ {stateBlock inputBlock : Block} {targets : List SignalId}
      {drive : SignalId → NodeId → Edit R PUnit} {m₁ : Model R},
      m.Moves rounding (Advances rounding) m₁ → (∀ x ∈ targets, x < m.store.signals.size) →
      (∀ x e m', m'.WellFormed rounding → clocking.Known m'.store → x < m'.store.signals.size →
        e < m'.store.nodes.size → Ends (drive x e) m' (fun m'' => m'.Same rounding true clocking m'')
          fun _ m'' => m'.Adds rounding true clocking [] [x] [] m'') →
      ∀ c ∈ targets.zipIdx, ∀ m', m₁.Moves rounding (Advances rounding) m' →
        Ends (do
          let e ← systemRow system stateBlock inputBlock c.2 states inputs mode
          drive c.1 e
          pure (ForInStep.yield PUnit.unit)) m' (fun m'' => m'.Same rounding true clocking m'')
          fun r m'' => r = .yield ⟨⟩ ∧ m'.Adds rounding true clocking [] [c.1] [] m'' := by
    intro stateBlock inputBlock targets drive m₁ h₁ htargets hdrive c hc' m' h'
    have h₀ := trans_of _ h₁ h'
    have hm' := h₀.wellFormed hm
    have hknown := hc.of_extends (h₀.store hm.store).1
    refine (hrow stateBlock inputBlock c.2 m' h₀).bind (fun _ => id) fun e m₂ h₂ => ?_
    obtain ⟨h₂, he⟩ := h₂
    have hext₂ := h₂.extends_store hm'
    have hx := (htargets c.1 (List.fst_mem_of_mem_zipIdx hc')).trans_le
      (h₀.store hm.store).1.signals_le
    exact (hdrive c.1 e m₂ (h₂.moves.wellFormed hm') (hknown.of_extends hext₂)
      (hx.trans_le hext₂.signals_le) he).bind (fun _ h => h₂.same h hm' hknown)
      fun _ _ h => .pure ⟨rfl, h.after h₂ hm' hknown⟩
  unfold addDiscreteSystem
  refine (check_ends _ _).bind (fun _ h => .inl (.of_kept h.1)) fun _ t ht => ?_
  obtain ⟨rfl, -⟩ := ht
  have hfst : ∀ l : List SignalId, l.zipIdx.map (·.1) = l := fun l => List.zipIdx_map_fst 0 l
  refine (forIn_ends (k := fun c => c.1) states.zipIdx t hm hc (hrows (refl_of _ t) hstates
    fun x e m' hm' hc' hx he => setNextCycle_ends (o := .node e) hm' hc' hx he true)).bind ?_
    fun _ m₁ h₁ => ?_
  · rintro m' ⟨pre, x, post, hpre, h⟩
    rw [hfst] at hpre
    exact .inr ⟨pre, x, post ++ outputs, by simp [hpre], h⟩
  rw [hfst] at h₁
  refine (forIn_ends (k := fun c => c.1) outputs.zipIdx m₁ (h₁.moves.wellFormed hm)
    (hc.of_extends (h₁.extends_store hm)) (hrows h₁.moves houtputs fun x e m' hm' hc' hx he =>
      (setThisCycle_ends (o := .node e) hm' hc' hx he true).imp (fun _ => And.left)
        fun _ _ => id)).bind ?_ fun _ m₂ h₂ => .pure ?_
  · rintro m' ⟨pre, x, post, hpre, h⟩
    refine .inr ⟨states ++ pre, x, post, ?_, h₁.trans h hm hc⟩
    rw [List.append_assoc, ← hpre, hfst]
  · rw [hfst] at h₂
    exact h₁.trans h₂ hm hc

/-- A system of equations that fails leaves nothing, or drivers of some first ones of its states and
outputs. -/
theorem addEquations_ends [Numerics R] {equations : List Equation}
    (hk : Solving.Known m.store equations) {given : PartialRoles} (hg : given.Known m.store) :
    Ends (addEquations equations given clocking) m
      (fun m' => m.Same rounding true clocking m' ∨ m.LeavesDriven rounding clocking
        ((inferRoles m equations given).states ++ (inferRoles m equations given).outputs) m')
      fun _ m' => m.Adds rounding true clocking []
        ((inferRoles m equations given).states ++ (inferRoles m equations given).outputs) [] m' := by
  unfold addEquations
  refine (Ends.of_kept timestep_ensures).bind (fun _ h => .inl (.of_kept h.1)) fun dt t ht => ?_
  obtain ⟨rfl, -⟩ := ht
  refine Ends.get_bind ?_
  obtain ⟨hinputs, hstates, houtputs, hselectors⟩ := inferRoles_lt hm hk hg
  generalize inferRoles t equations given = roles at hinputs hstates houtputs hselectors ⊢
  refine (Edit.onStore_ends true clocking (Solving.systemWith_ensures hm.store _ hk _)).bind
    (fun _ h => .inl h.1) fun system m₁ h₁ => ?_
  obtain ⟨h₁, -⟩ := h₁
  have hm₁ := h₁.moves.wellFormed hm
  have hext₁ := h₁.extends_store hm
  have hlt : ∀ {m' : Model R} {l : List SignalId}, t.store.Extends m'.store →
      (∀ x ∈ l, x < t.store.signals.size) → ∀ x ∈ l, x < m'.store.signals.size :=
    fun h hl x hx => (hl x hx).trans_le h.signals_le
  -- what the system adds is added to the model before the solution
  have hsystem : ∀ {m₂ : Model R} {mode : Option NodeId}, t.Same rounding true clocking m₂ →
      (∀ i ∈ mode, i < m₂.store.nodes.size) →
      Ends (addDiscreteSystem (system.discretize dt) roles.inputs roles.states roles.outputs mode
        clocking) m₂ (fun m' => t.Same rounding true clocking m' ∨
          t.LeavesDriven rounding clocking (roles.states ++ roles.outputs) m')
        fun _ m' => t.Adds rounding true clocking [] (roles.states ++ roles.outputs) [] m' := by
    intro m₂ mode h₂ hmode
    have hext₂ := h₂.extends_store hm
    refine (addDiscreteSystem_ends (h₂.moves.wellFormed hm) (hc.of_extends hext₂) _
      (hlt hext₂ hinputs) (hlt hext₂ hstates) (hlt hext₂ houtputs) hmode).imp ?_
      fun _ _ h => h.after h₂ hm hc
    rintro m' (h | ⟨pre, x, post, hpre, h⟩)
    · exact .inl (h₂.same h hm hc)
    · exact .inr ⟨pre, x, post, hpre, h.after h₂ hm hc⟩
  simp only
  split
  · exact hsystem h₁ (by simp)
  · have hvalid : ∀ o ∈ roles.selectors.map Operand.signal, o.Valid m₁.store := by
      intro o ho
      obtain ⟨x, hx, rfl⟩ := List.mem_map.1 ho
      exact hlt hext₁ hselectors x hx
    refine Ends.bind (Ends.map (T := fun o m' => m₁.Same rounding true clocking m' ∧
        ∀ i ∈ o, i < m'.store.nodes.size)
      (PlacesNode.of_makes (Build.concatenate_makes hm₁.store hvalid)) ?_)
      (fun _ h => .inl (h₁.same h hm hc)) fun mode m₂ h₂ => ?_
    · rintro j m' ⟨h, hj⟩
      refine ⟨h, fun i hi => ?_⟩
      obtain rfl := Option.some.inj hi
      exact hj
    · exact hsystem (h₁.same h₂.1 hm hc) h₂.2

/-! ## Transfer functions -/

/-- What is left of the delay lines of two signals, of `n` registers each: a part of the first line,
or the first line and behind it a part of the second or all of it. -/
def LeavesLines (rounding : Rounding R) (clocking : Clocking) (m : Model R)
    (input output : SignalId) (n : Nat) (m' : Model R) : Prop :=
  m.LeavesRegisters rounding clocking (m.store.signal input) input 1 n m' ∨
    ∃ m₁ i j, (i = j ∧ j ≤ n ∨ i = j + 1 ∧ j < n) ∧
      m.AddsRegisters rounding clocking (m.store.signal input) input 1 n m₁ ∧
      m₁.AddsLine rounding clocking (m.store.signal output) output 1 i j m'

theorem LeavesLines.some {input : SignalId}
    (h : m.LeavesLines rounding clocking input output n m') :
    m.AddsSome rounding true clocking m' := by
  rcases h with h | ⟨_, _, _, _, h, h'⟩
  · exact h.some
  · exact (h.adds.trans h'.adds hm hc).some

theorem addDifferenceEquation_ends (sampled : TransferFunction R) {input : SignalId}
    (hinput : input < m.store.signals.size) (houtput : output < m.store.signals.size) :
    Ends (addDifferenceEquation sampled input output clocking) m
      (fun m' => m.LeavesLines rounding clocking input output sampled.order m') fun _ m' =>
      m.Adds rounding true clocking (pastSignals (m.store.signal input) 1 sampled.order ++
          pastSignals (m.store.signal output) 1 sampled.order)
        (List.range' m.store.signals.size (sampled.order + sampled.order) ++ [output]) [] m' := by
  unfold addDifferenceEquation
  refine (makeHistory_ends hm hc hinput _).bind (fun _ => .inl) fun inputs m₁ h₁ => ?_
  obtain ⟨h₁, hi⟩ := h₁
  rw [Nat.add_sub_cancel] at h₁
  have hm₁ := h₁.adds.moves.wellFormed hm
  have hext₁ := h₁.adds.extends_store hm
  have hc₁ := hc.of_extends hext₁
  have houtput₁ := houtput.trans_le hext₁.signals_le
  refine (makeHistory_ends hm₁ hc₁ houtput₁ _).bind ?_ fun outputs m₂ h₂ => ?_
  · rintro m' ⟨i, j, hj, hij, h⟩
    rw [hext₁.signal_eq output houtput] at h
    exact .inr ⟨m₁, i, j, by omega, h₁, h⟩
  obtain ⟨h₂, ho⟩ := h₂
  rw [hext₁.signal_eq output houtput, Nat.add_sub_cancel] at h₂
  have hm₂ := h₂.adds.moves.wellFormed hm₁
  have hext₂ := h₂.adds.extends_store hm₁
  have hc₂ := hc₁.of_extends hext₂
  have hlines : m.Adds rounding true clocking (pastSignals (m.store.signal input) 1 sampled.order ++
      pastSignals (m.store.signal output) 1 sampled.order)
      (List.range' m.store.signals.size (sampled.order + sampled.order)) [] m₂ := by
    have hsize : m₁.store.signals.size = m.store.signals.size + sampled.order := by
      rw [h₁.adds.size_eq]
      simp [pastSignals]
    have hsecond := h₂.adds
    rw [hsize] at hsecond
    rw [← List.range'_append_1]
    exact h₁.adds.trans hsecond hm hc
  -- from here on nodes are added, and the driver in the end
  suffices hdrive : Ends _ m₂ (fun m' => m₂.Same rounding true clocking m') fun _ m' =>
      m₂.Adds rounding true clocking [] [output] [] m' from
    hdrive.imp (fun _ h => .inr ⟨m₁, _, _, .inl ⟨rfl, le_rfl⟩, h₁, h₂.same h hm₁ hc₁⟩)
      fun _ _ h => by simpa using hlines.trans h hm hc
  refine ((weightedTerms_editsStore _ _ m₂).ends (weightedTerms_ensures hm₂ sampled.num fun x hx =>
    (hi x hx).trans_le hext₂.signals_le)).bind (fun _ => id) fun js m₃ h₃ => ?_
  obtain ⟨h₃, hjs⟩ := h₃
  have hm₃ := h₃.moves.wellFormed hm₂
  have hext₃ := h₃.extends_store hm₂
  refine ((weightedTerms_editsStore _ _ m₃).ends (weightedTerms_ensures hm₃
    (sampled.den.tail.map fun c => -c) fun x hx =>
      (ho x (List.mem_of_mem_tail hx)).trans_le hext₃.signals_le)).bind
    (fun _ h => h₃.same h hm₂ hc₂) fun ks m₄ h₄ => ?_
  obtain ⟨h₄, hks⟩ := h₄
  have h₂₄ := h₃.same h₄ hm₂ hc₂
  have hm₄ := h₄.moves.wellFormed hm₃
  have hext₄ := h₄.extends_store hm₃
  have hterms : ∀ j ∈ js ++ ks, j < m₄.store.nodes.size := by
    intro j hj
    rcases List.mem_append.1 hj with hj | hj
    · exact (hjs j hj).trans_le hext₄.size_le
    · exact hks j hj
  have hx : output < m₄.store.signals.size :=
    (houtput₁.trans_le hext₂.signals_le).trans_le (h₂₄.extends_store hm₂).signals_le
  have hc₄ := hc₂.of_extends (h₂₄.extends_store hm₂)
  -- the sum drives the output
  have hset : ∀ {y : Build R NodeId}, Build.Makes rounding m₄.store y →
      Ends (do setThisCycle output (.node (← Edit.build y)) true) m₄
        (fun m' => m₂.Same rounding true clocking m') fun _ m' =>
        m₂.Adds rounding true clocking [] [output] [] m' := by
    intro y hy
    refine Ends.bind (PlacesNode.of_makes hy) (fun _ h => h₂₄.same h hm₂ hc₂) fun e m₅ h₅ => ?_
    obtain ⟨h₅, he⟩ := h₅
    have hext₅ := h₅.extends_store hm₄
    have h₂₅ := h₂₄.same h₅ hm₂ hc₂
    exact (setThisCycle_ends (o := .node e) (h₅.moves.wellFormed hm₄) (hc₄.of_extends hext₅)
      (hx.trans_le hext₅.signals_le) he true).imp (fun _ h => h₂₅.same h.1 hm₂ hc₂)
      fun _ _ h => h.after h₂₅ hm₂ hc₂
  simp only
  split
  · exact hset (.of_ensures (E := fun _ => True) (Build.operand_ensures (o := .value (.real 0))
      hm₄.store trivial))
  · refine hset (Build.arithmetic_makes hm₄.store .sum fun o ho => ?_)
    obtain ⟨j, hj, rfl⟩ := List.mem_map.1 ho
    exact hterms j hj

/-- A transfer function that is sampled leaves the delay lines if it fails later. -/
theorem setTransferFunction_ends [Numerics R] {input : SignalId}
    (hinput : input < m.store.signals.size) (houtput : output < m.store.signals.size)
    (num den : List R) :
    Ends (setTransferFunction input output num den clocking) m
      (fun m' => m.Same rounding true clocking m' ∨ ∃ dt t, m.dt = some dt ∧
        TransferFunction.ofCoefficients num den = .ok t ∧
        m.LeavesLines rounding clocking input output
          (TransferFunction.ofStateSpace (t.toStateSpace.discretize dt)).order m')
      fun _ m' => ∃ signals driven, m.Adds rounding true clocking signals driven [] m' := by
  unfold setTransferFunction
  refine (Ends.of_kept timestep_ensures).bind (fun _ h => .inl (.of_kept h.1)) fun dt t ht => ?_
  obtain ⟨rfl, hdt⟩ := ht
  refine (check_ends _ _).bind (fun _ h => .inl (.of_kept h.1)) fun f u hu => ?_
  obtain ⟨rfl, hf⟩ := hu
  exact (addDifferenceEquation_ends hm hc _ hinput houtput).imp
    (fun _ h => .inr ⟨dt, f, hdt, hf, h⟩) fun _ _ h => ⟨_, _, h⟩

end Model

/-! ## Tables -/

/-- Whether the entries of the table are reals. -/
def Table.isReal : Table R → Bool
  | .real _ => true
  | .int _ => false

theorem Table.isReal_iff {t : Table R} {v : Value R} (hv : v ∈ t.paddedValues n) :
    v.format.domain = .real ↔ t.isReal = true := by
  cases t with
  | real t =>
    rcases List.mem_append.1 hv with hv | hv
    · obtain ⟨x, -, rfl⟩ := List.mem_map.1 hv
      exact iff_of_true rfl rfl
    · obtain ⟨-, rfl⟩ := List.mem_replicate.1 hv
      exact iff_of_true rfl rfl
  | int t =>
    rcases List.mem_append.1 hv with hv | hv
    · obtain ⟨k, -, rfl⟩ := List.mem_map.1 hv
      exact iff_of_false (Format.int_domain_ne_real _) Bool.false_ne_true
    · obtain ⟨-, rfl⟩ := List.mem_replicate.1 hv
      exact iff_of_false (Format.int_domain_ne_real _) Bool.false_ne_true

namespace Build

open Store

variable {rounding : Rounding R} {s s' : Store R}

/-- A selection has the largest domain of its elements. -/
theorem SelectsOperand.domain_eq (hs' : s'.WellTyped rounding) {os : List (Operand R)}
    {a : Operand R} {j : NodeId} (hj : j < s'.nodes.size) (h : SelectsOperand rounding s s' os a j) :
    ∃ u is, u.Grown rounding s' ∧
      List.Forall₂ (fun o i => i < u.nodes.size ∧ o.Stands u i) os is ∧ is ≠ [] ∧
      (s'.format j).domain = commonDomain u is := by
  obtain ⟨u, is, js, i, w, -, hu, hp, -, -, -, hlength, hsel⟩ := h
  have hne : js ≠ [] := by
    rintro rfl
    exact (Nat.two_pow_pos w).ne hlength
  refine ⟨u, is, hu, hp.stands, fun his => ?_, ?_⟩
  · exact hne (List.length_eq_zero_iff.1 (by rw [← hp.promotes.length_eq, his]; rfl))
  · cases hsel with
    | same hj' _ =>
      obtain ⟨hlt, hd⟩ := hp.domain_eq j (List.mem_of_head? hj')
      rw [hu.toExtends.format_eq hlt, hd]
    | @node f hnode =>
      have htyped := hs'.typed j hj
      rw [kind, format, hnode] at htyped
      cases htyped with
      | select _ _ _ _ hf =>
        obtain ⟨x, xs, rfl⟩ := List.exists_cons_of_ne_nil hne
        obtain ⟨hlt, hd⟩ := hp.domain_eq x (by simp)
        rw [format, hnode, ← hd, ← hu.toExtends.format_eq hlt]
        exact (Format.fold?_domain_eq Format.union?_keepsDomain hf _ (by simp)).symm

/-- What is looked up in a table is real if the table is. -/
theorem lookup_isReal (hs' : s'.WellTyped rounding) {t : Table R} {a : Operand R} {j : NodeId}
    (hj : j < s'.nodes.size) (h : SelectsOperand rounding s s' ((t.paddedValues n).map .value) a j) :
    (s'.format j).domain = .real ↔ t.isReal = true := by
  obtain ⟨u, is, -, hstands, hne, hd⟩ := h.domain_eq hs' hj
  have hformat : ∀ i ∈ is, (u.format i).domain = .real ↔ t.isReal = true := by
    intro i hi
    rw [List.forall₂_map_left_iff] at hstands
    obtain ⟨v, hv, -, hnode⟩ := forall₂_exists_left hstands i hi
    rw [format, show u.node i = _ from hnode]
    exact Table.isReal_iff hv
  rw [hd]
  cases ht : t.isReal with
  | true =>
    have : ∀ i ∈ is, (u.format i).domain = .real := fun i hi => (hformat i hi).2 ht
    exact iff_of_true (commonDomain_eq hne this) rfl
  | false =>
    refine iff_of_false (commonDomain_ne_real fun i hi hreal => ?_) Bool.false_ne_true
    rw [(hformat i hi).1 hreal] at ht
    cases ht

end Build

namespace Model

open Store

variable {rounding : Rounding R} {clocking : Clocking} {m : Model R}

theorem agrees_iff {f g : Format R} : f.Agrees false g ↔ (f.domain = .real ↔ g.domain = .real) := by
  cases f with
  | real f =>
    cases g with
    | real g => exact iff_of_true trivial Iff.rfl
    | int g => simpa [Format.Agrees, Format.domain] using Format.int_domain_ne_real (R := R) g
  | int f =>
    cases g with
    | real g => simpa [Format.Agrees, Format.domain] using Format.int_domain_ne_real (R := R) f
    | int g =>
      refine iff_of_true (by simp [Format.Agrees]) ?_
      exact iff_of_false (Format.int_domain_ne_real f) (Format.int_domain_ne_real g)

/-- The output may not be driven, is driven already, or is real where the table is not, or the other
way round. -/
def RefusesTable (m : Model R) (output : SignalId) (table : Table R) : Prop :=
  (m.store.signal output).role.isAssignable = false ∨ output ∈ m.assignments.keys ∨
    ¬((m.store.signal output).format.domain = .real ↔ table.isReal = true)

/-- A table that fails leaves nothing, or itself if its output cannot be driven. -/
theorem setFromTable_ends (hm : m.WellFormed rounding) (hc : clocking.Known m.store)
    (houtput : output < m.store.signals.size) (name : String) (table : Table R)
    {address : Operand R} (haddress : address.Valid m.store) :
    Ends (setFromTable output name table address) m
      (fun m' => m.Same rounding true clocking m' ∨
        m.Adds rounding true clocking [] [] [(name, table)] m' ∧ m.RefusesTable output table)
      fun _ m' => m.Adds rounding true clocking [] [output] [(name, table)] m' := by
  unfold setFromTable
  simp only
  split
  · refine (Edit.build_ends true clocking (Build.operand_ensures (E := fun _ => False) hm.store
      haddress)).bind (fun _ h => .inl h.1) fun i m₁ h₁ => ?_
    obtain ⟨h₁, hi, -⟩ := h₁
    have hm₁ := h₁.moves.wellFormed hm
    refine (Edit.build_ends true clocking (Ensures.of_kept (G := Grown rounding)
      (Build.requireUnsigned_ensures (E := fun _ => True) i fun _ _ => trivial))).bind
      (fun _ h => .inl (h₁.same h.1 hm hc)) fun width m₂ h₂ => ?_
    obtain ⟨h₂, hstore, -⟩ := h₂
    have h₀₂ := h₁.same h₂ hm hc
    have hm₂ := h₂.moves.wellFormed hm₁
    split
    · exact .throw_bind (.inl h₀₂)
    · have hvalues : ∀ o ∈ (table.paddedValues (2 ^ width)).map Operand.value,
          o.Valid m₂.store := by
        intro o ho
        obtain ⟨v, -, rfl⟩ := List.mem_map.1 ho
        trivial
      refine (Edit.build_ends true clocking (Build.array_ensures (a := .node i)
        (E := fun _ => True) hm₂.store hvalues (hi.trans_le (h₂.extends_store hm₁).size_le)
        fun _ _ => trivial)).bind (fun _ h => .inl (h₀₂.same h.1 hm hc)) fun e m₃ h₃ => ?_
      obtain ⟨h₃, he, hlookup⟩ := h₃
      have h₀₃ := h₀₂.same h₃ hm hc
      have hm₃ := h₃.moves.wellFormed hm₂
      refine Ends.get_bind ?_
      split
      · rename_i tables hinsert
        obtain ⟨hfresh, hentries⟩ := OrderedMap.insertFirst?_eq_some hinsert
        -- the table is kept before the output is driven
        have h₄ : m₃.Adds rounding true clocking [] [] [(name, table)] { m₃ with tables } := by
          refine ⟨⟨refl_of _ m₃.store, List.prefix_rfl, fun h => { h with }, fun _ => id⟩, by simp,
            by simp, fun _ => .inl, hentries, fun hn => ?_⟩
          rw [OrderedMap.keys, hentries, List.map_append]
          exact List.nodup_append.2 ⟨hn, by simp, by
            rintro x hx y hy rfl
            obtain rfl : x = name := by simpa using hy
            exact hfresh hx⟩
        have h₀₄ := h₄.after h₀₃ hm hc
        have hext₄ := h₀₄.extends_store hm
        refine Ends.bind (Q := fun _ => False) (P := fun _ m' => m' = { m₃ with tables })
          (.of_ok rfl rfl) (fun _ => False.elim) fun _ m' hm' => ?_
        obtain rfl := hm'
        refine (setThisCycle_ends (o := .node e) (h₄.moves.wellFormed hm₃) (hc.of_extends hext₄)
          (houtput.trans_le hext₄.signals_le) he true).imp ?_ fun _ _ h => h₀₄.trans h hm hc
        rintro m' ⟨h, e', hstands, hrefuses⟩
        rw [show e' = e from hstands] at hrefuses
        have h₀ := h₀₄.same h hm hc
        refine .inr ⟨h₀, ?_⟩
        have hformat : (m'.store.format e).domain = .real ↔ table.isReal = true := by
          rw [(h.extends_store (h₄.moves.wellFormed hm₃)).format_eq he]
          exact Build.lookup_isReal hm₃.store he hlookup
        have hkeys : m'.assignments.keys = m.assignments.keys := by simpa using h₀.keys_eq
        rw [Refuses, agrees_iff, hformat, hkeys, (h₀.extends_store hm).signal_eq output houtput]
          at hrefuses
        exact hrefuses
      · exact .throw_bind (.inl h₀₃)
  · exact .throw_bind (.inl (.refl m))

end Model

end MixedSignal
