import MixedSignal.Proofs.Blocks

/-!
# What edits add

An edit may fail half-way, and what it has added by then stays. `Model.Adds` says what was added:
signals, drivers and tables, each behind those that were there, and nodes. Every driver that was
added has passed the checks of its edit (`Assignment.Sound`). `Ends` speaks of both ends of an edit,
so each edit has one lemma that says what it adds if it succeeds and what stays of it if it fails.
-/

set_option linter.unusedSectionVars false

namespace MixedSignal

/-! ## Results and failures -/

section

variable {ε σ α β : Type} {s' : σ} {e : ε} {a : α}

/-- A result satisfies `P` in the state that comes with it, and a failure leaves a state that
satisfies `Q`. -/
def Ends (x : ExceptT ε (StateM σ) α) (s : σ) (Q : σ → Prop) (P : α → σ → Prop) : Prop :=
  match outcome x s with
  | (.ok a, s') => P a s'
  | (.error _, s') => Q s'

namespace Ends

variable {x : ExceptT ε (StateM σ) α} {s : σ} {Q Q' : σ → Prop} {P P' : α → σ → Prop}

theorem of_ok (hx : outcome x s = (.ok a, s')) (h : P a s') : Ends x s Q P := by
  unfold Ends
  rw [hx]
  exact h

theorem of_error (hx : outcome x s = (.error e, s')) (h : Q s') : Ends x s Q P := by
  unfold Ends
  rw [hx]
  exact h

theorem elim_ok (h : Ends x s Q P) (hx : outcome x s = (.ok a, s')) : P a s' := by
  unfold Ends at h
  rwa [hx] at h

theorem elim_error (h : Ends x s Q P) (hx : outcome x s = (.error e, s')) : Q s' := by
  unfold Ends at h
  rwa [hx] at h

theorem imp (h : Ends x s Q P) (hQ : ∀ s', Q s' → Q' s') (hP : ∀ a s', P a s' → P' a s') :
    Ends x s Q' P' := by
  cases hx : outcome x s with
  | mk r s' =>
    cases r with
    | ok a => exact of_ok hx (hP a s' (h.elim_ok hx))
    | error e => exact of_error hx (hQ s' (h.elim_error hx))

theorem and_ensures {G : σ → σ → Prop} {E : ε → Prop} (h : Ends x s Q P) (h' : Ensures G x s E P') :
    Ends x s Q fun a s' => P a s' ∧ P' a s' := by
  cases hx : outcome x s with
  | mk r s' =>
    cases r with
    | ok a => exact of_ok hx ⟨h.elim_ok hx, (h'.elim_ok hx).2⟩
    | error e => exact of_error hx (h.elim_error hx)

theorem pure (h : P a s) : Ends (Pure.pure a : ExceptT ε (StateM σ) α) s Q P :=
  of_ok rfl h

theorem throw (h : Q s) : Ends (MonadExcept.throw e : ExceptT ε (StateM σ) α) s Q P :=
  of_error rfl h

theorem throw_bind {f : β → ExceptT ε (StateM σ) α} (h : Q s) :
    Ends (MonadExcept.throw e >>= f) s Q P :=
  of_error rfl h

theorem get_bind {f : σ → ExceptT ε (StateM σ) α} (h : Ends (f s) s Q P) :
    Ends (get >>= f) s Q P :=
  h

/-- A failure of the first part is a failure of the whole. -/
theorem bind {f : α → ExceptT ε (StateM σ) β} {P' : β → σ → Prop} (hx : Ends x s Q P)
    (hQ : ∀ s', Q s' → Q' s') (hf : ∀ a s', P a s' → Ends (f a) s' Q' P') :
    Ends (x >>= f) s Q' P' := by
  cases hr : outcome x s with
  | mk r s' =>
    cases r with
    | ok a =>
      have h := hf a s' (hx.elim_ok hr)
      unfold Ends at h ⊢
      rwa [outcome_bind_ok hr]
    | error e => exact of_error (outcome_bind_error hr) (hQ s' (hx.elim_error hr))

theorem map {f : α → β} {T : β → σ → Prop} (hx : Ends x s Q P)
    (hf : ∀ a s', P a s' → T (f a) s') : Ends (f <$> x) s Q T := by
  rw [map_eq_pure_bind]
  exact hx.bind (fun _ => id) fun a s' ha => pure (hf a s' ha)

/-- A computation that keeps the state. -/
theorem of_kept {E : ε → Prop} (h : Ensures Eq x s E P) :
    Ends x s (fun s' => s' = s ∧ ∃ e, E e) fun a s' => s' = s ∧ P a s := by
  cases hx : outcome x s with
  | mk r s' =>
    cases r with
    | ok a =>
      obtain ⟨rfl, ha⟩ := h.elim_ok hx
      exact of_ok hx ⟨rfl, ha⟩
    | error e =>
      obtain ⟨rfl, he⟩ := h.elim_error hx
      exact of_error hx ⟨rfl, e, he⟩

/-- What holds at both ends holds whatever the result is. -/
theorem iff_final {Q : σ → Prop} : Ends x s Q (fun _ s' => Q s') ↔ Q (outcome x s).2 := by
  unfold Ends
  cases outcome x s with
  | mk r s' => cases r <;> rfl

end Ends

end

variable {R : Type} [Scalar R]

/-! ## Checked assignments -/

/-- An expression of the second format may drive a signal of the first: both are real, or both are
integers, of one width if the signal is a register. -/
def Format.Agrees (registered : Bool) : Format R → Format R → Prop
  | .real _, .real _ => True
  | .int f, .int g => registered = true → f.width = g.width
  | _, _ => False

/-- The control signals of a register. -/
def Clocking.signals (c : Clocking) : List SignalId := [c.clock, c.reset, c.enable].filterMap id

/-- The signals that control when a value is loaded. -/
def Timing.controls : Timing R → List SignalId
  | .thisCycle => []
  | .nextCycle clocking _ => clocking.signals

/-- The control signals exist. -/
def Clocking.Known (s : Store R) (c : Clocking) : Prop := ∀ x ∈ c.signals, x < s.signals.size

/-- What an edit has checked of an assignment that it made: the assignment is controlled by bits,
which the clocking of the edit names, and if the edit checks formats, then they agree. -/
structure Assignment.Sound (checked : Bool) (clocking : Clocking) (s : Store R)
    (a : Assignment R) : Prop where
  controls : ∀ x ∈ a.timing.controls, x ∈ clocking.signals ∧ (s.signal x).format.isBit = true
  format : checked = true →
    (s.signal a.signal).format.Agrees (!a.isCombinational) (s.format a.expr)

theorem Clocking.Known.of_extends {clocking : Clocking} {s s' : Store R} (h : clocking.Known s)
    (hs : s.Extends s') : clocking.Known s' :=
  fun x hx => (h x hx).trans_le hs.signals_le

theorem Assignment.Sound.of_extends {checked : Bool} {clocking : Clocking} {s s' : Store R}
    {a : Assignment R} (h : a.Sound checked clocking s) (ha : a.Valid s) (hc : clocking.Known s)
    (hs : s.Extends s') : a.Sound checked clocking s' where
  controls x hx := by
    obtain ⟨hmem, hbit⟩ := h.controls x hx
    exact ⟨hmem, by rwa [hs.signal_eq x (hc x hmem)]⟩
  format hchecked := by
    rw [hs.signal_eq _ ha.signal_lt, hs.format_eq ha.expr_lt]
    exact h.format hchecked

namespace Model

open Store

variable {rounding : Rounding R} {checked : Bool} {clocking : Clocking} {m m' m'' : Model R}

theorem checkFormat_eq_ok_iff {s : Signal R} {f : Format R} {registered : Bool} {u : Unit} :
    checkFormat s f registered = .ok u ↔ s.format.Agrees registered f := by
  unfold checkFormat Format.Agrees
  cases s.format with
  | real g => cases f <;> simp
  | int g =>
    cases f with
    | real h => simp
    | int h =>
      simp only
      cases registered <;> simp

/-! ## Additions -/

/-- Signals, drivers and tables were added to a model, each behind those that were there. -/
structure Adds (rounding : Rounding R) (checked : Bool) (clocking : Clocking) (m : Model R)
    (signals : List (Signal R)) (driven : List SignalId) (tables : List (String × Table R))
    (m' : Model R) : Prop where
  moves : m.Moves rounding (Advances rounding) m'
  signals_eq : m'.store.signals.toList = m.store.signals.toList ++ signals
  keys_eq : m'.assignments.keys = m.assignments.keys ++ driven
  sound : ∀ e ∈ m'.assignments.entries,
    e ∈ m.assignments.entries ∨ e.2.Sound checked clocking m'.store
  tables_eq : m'.tables.entries = m.tables.entries ++ tables
  names : m.tables.keys.Nodup → m'.tables.keys.Nodup

/-- Nothing but nodes was added. -/
abbrev Same (rounding : Rounding R) (checked : Bool) (clocking : Clocking) (m m' : Model R) :
    Prop :=
  m.Adds rounding checked clocking [] [] [] m'

namespace Adds

variable {signals signals' : List (Signal R)} {driven driven' : List SignalId}
  {tables tables' : List (String × Table R)}

/-- A model of the same signals, drivers and tables. -/
theorem of_eq (h : m.Moves rounding (Advances rounding) m')
    (hsignals : m'.store.signals = m.store.signals) (ha : m'.assignments = m.assignments)
    (ht : m'.tables = m.tables) : m.Same rounding checked clocking m' where
  moves := h
  signals_eq := by rw [hsignals, List.append_nil]
  keys_eq := by rw [ha, List.append_nil]
  sound e he := .inl (ha ▸ he)
  tables_eq := by rw [ht, List.append_nil]
  names h := by rwa [ht]

theorem refl (m : Model R) : m.Same rounding checked clocking m := of_eq (refl_of _ m) rfl rfl rfl

theorem of_kept (h : m' = m) : m.Same rounding checked clocking m' := by
  rw [h]
  exact refl m

theorem of_grown {s : Store R} (h : m.store.Grown rounding s) :
    m.Same rounding checked clocking { m with store := s } :=
  of_eq (moves_of_store h.advances h.advances) h.signals_eq rfl rfl

section

variable (h : m.Adds rounding checked clocking signals driven tables m')
include h

theorem extends_store (hm : m.WellFormed rounding) : m.store.Extends m'.store :=
  (h.moves.store hm.store).1

theorem trans (h' : m'.Adds rounding checked clocking signals' driven' tables' m'')
    (hm : m.WellFormed rounding) (hc : clocking.Known m.store) :
    m.Adds rounding checked clocking (signals ++ signals') (driven ++ driven')
      (tables ++ tables') m'' where
  moves := trans_of _ h.moves h'.moves
  signals_eq := by rw [h'.signals_eq, h.signals_eq, List.append_assoc]
  keys_eq := by rw [h'.keys_eq, h.keys_eq, List.append_assoc]
  sound e he := by
    have hm' := h.moves.wellFormed hm
    rcases h'.sound e he with he' | hsound
    · refine (h.sound e he').imp_right fun hsound => ?_
      exact hsound.of_extends (hm'.entries e he').2 (hc.of_extends (h.extends_store hm))
        (h'.extends_store hm')
    · exact .inr hsound
  tables_eq := by rw [h'.tables_eq, h.tables_eq, List.append_assoc]
  names hn := h'.names (h.names hn)

/-- What was added before nothing but nodes. -/
theorem same (h' : m'.Same rounding checked clocking m'') (hm : m.WellFormed rounding)
    (hc : clocking.Known m.store) : m.Adds rounding checked clocking signals driven tables m'' := by
  simpa using h.trans h' hm hc

end

/-- What was added after nothing but nodes. -/
theorem after (h' : m'.Adds rounding checked clocking signals driven tables m'')
    (h : m.Same rounding checked clocking m') (hm : m.WellFormed rounding)
    (hc : clocking.Known m.store) :
    m.Adds rounding checked clocking signals driven tables m'' := by
  simpa using h.trans h' hm hc

theorem size_eq (h : m.Adds rounding checked clocking signals driven tables m') :
    m'.store.signals.size = m.store.signals.size + signals.length := by
  have := congrArg List.length h.signals_eq
  simpa using this

/-- Added signals whose formats hold all values of their words are kept in their formats. -/
theorem keeps (h : m.Adds rounding checked clocking signals driven tables m')
    (hfull : ∀ s ∈ signals, FormatFull s.format) : m.Keeps rounding m' := by
  refine ⟨h.moves, fun hm ht x hx => ?_⟩
  by_cases hlt : x < m.store.signals.size
  · exact (ht x hlt).of_moves hm h.moves (h.extends_store hm) hlt
  · have hmem : m'.store.signal x ∈ signals := by
      have hget : m'.store.signals.toList[x]? = some (m'.store.signal x) := by
        simp [Store.signal, hx]
      rw [h.signals_eq, List.getElem?_append_right (by simpa using hlt)] at hget
      exact List.mem_of_getElem? hget
    rcases hfull _ hmem with ⟨g, hg⟩ | ⟨sg, w, hw, hg⟩
    · exact .real hg
    · exact .full hw hg

end Adds

/-- Something was added, or nothing but nodes. -/
def AddsSome (rounding : Rounding R) (checked : Bool) (clocking : Clocking) (m m' : Model R) :
    Prop :=
  ∃ signals driven tables, m.Adds rounding checked clocking signals driven tables m'

theorem Adds.some {signals : List (Signal R)} {driven : List SignalId}
    {tables : List (String × Table R)}
    (h : m.Adds rounding checked clocking signals driven tables m') :
    m.AddsSome rounding checked clocking m' :=
  ⟨signals, driven, tables, h⟩

end Model

/-! ## Constructions -/

namespace Edit

open Store Model

variable {rounding : Rounding R} {m : Model R} {α : Type} {P : α → Store R → Prop}

theorem onStore_ends (checked : Bool) (clocking : Clocking) {x : Solving R α} {E : Error → Prop}
    (h : Ensures (Grown rounding) x m.store E P) :
    Ends (onStore x) m (fun m' => m.Same rounding checked clocking m' ∧ ∃ e, E e) fun a m' =>
      m.Same rounding checked clocking m' ∧ P a m'.store := by
  have hrun : outcome (onStore x) m =
      ((outcome x m.store).1, { m with store := (outcome x m.store).2 }) := rfl
  cases hx : outcome x m.store with
  | mk r s =>
    rw [hx] at hrun
    cases r with
    | ok a =>
      obtain ⟨hs, hP⟩ := h.elim_ok hx
      exact .of_ok hrun ⟨.of_grown hs, hP⟩
    | error e =>
      obtain ⟨hs, he⟩ := h.elim_error hx
      exact .of_error hrun ⟨.of_grown hs, e, he⟩

theorem build_ends (checked : Bool) (clocking : Clocking) {x : Build R α}
    {E : ConstructionError → Prop} (h : Ensures (Grown rounding) x m.store E P) :
    Ends (build x) m (fun m' => m.Same rounding checked clocking m' ∧ ∃ e, E e) fun a m' =>
      m.Same rounding checked clocking m' ∧ P a m'.store := by
  refine (onStore_ends checked clocking (E := fun _ => ∃ e, E e)
    (Solving.build_ensures h fun e he => ⟨e, he⟩)).imp ?_ fun _ _ => id
  rintro m' ⟨hm', -, he⟩
  exact ⟨hm', he⟩

end Edit

namespace Model

open Store

variable {rounding : Rounding R} {checked : Bool} {clocking : Clocking} {m : Model R}

/-- The edit adds nodes only and returns one that exists. -/
def PlacesNode (rounding : Rounding R) (checked : Bool) (clocking : Clocking) (m : Model R)
    (x : Edit R NodeId) : Prop :=
  Ends x m (fun m' => m.Same rounding checked clocking m') fun i m' =>
    m.Same rounding checked clocking m' ∧ i < m'.store.nodes.size

theorem PlacesNode.of_makes {x : Build R NodeId} (h : Build.Makes rounding m.store x) :
    PlacesNode rounding checked clocking m (Edit.build x) :=
  (Edit.build_ends checked clocking h).imp (fun _ => And.left) fun _ _ hi => hi

/-! ## Drivers -/

/-- The signal may not be driven, is driven already, or cannot be driven by that format. -/
def Refuses (m : Model R) (x : SignalId) (f : Format R) : Prop :=
  (m.store.signal x).role.isAssignable = false ∨ x ∈ m.assignments.keys ∨
    ¬(m.store.signal x).format.Agrees false f

theorem check_ends {ε α : Type} (f : ε → Error) (x : Except ε α) :
    Ends (check f x) m (fun m' => m' = m ∧ ∃ e, x = .error e) fun a m' => m' = m ∧ x = .ok a := by
  cases x with
  | ok a => exact .pure ⟨rfl, rfl⟩
  | error e => exact .throw ⟨rfl, e, rfl⟩

theorem checkAssignable_ends (x : SignalId) :
    Ends (checkAssignable x) m (fun m' => m' = m ∧
        ((m.store.signal x).role.isAssignable = false ∨ x ∈ m.assignments.keys)) fun _ m' =>
      m' = m ∧ (m.store.signal x).role.isAssignable = true ∧ x ∉ m.assignments.keys := by
  unfold checkAssignable
  refine Ends.get_bind ?_
  simp only
  split
  · rename_i hrole
    refine Ends.get_bind ?_
    split
    · rename_i hcontains
      refine .throw ⟨rfl, .inr (by_contra fun hkey => ?_)⟩
      rw [OrderedMap.contains, OrderedMap.get?_eq_none_iff.2 hkey] at hcontains
      cases hcontains
    · rename_i hcontains
      refine .pure ⟨rfl, hrole, OrderedMap.get?_eq_none_iff.1 ?_⟩
      simpa [OrderedMap.contains] using hcontains
  · rename_i hrole
    exact .throw_bind ⟨rfl, .inl (by simpa using hrole)⟩

theorem checkControl_ends (x : SignalId) :
    Ends (checkControl x) m (fun m' => m' = m ∧ (m.store.signal x).format.isBit = false) fun _ m' =>
      m' = m ∧ (m.store.signal x).format.isBit = true := by
  unfold checkControl
  refine Ends.get_bind ?_
  split
  · exact .pure ⟨rfl, ‹_›⟩
  · rename_i hbit
    exact .throw ⟨rfl, by simpa using hbit⟩

/-- Control signals are checked one after the other. -/
theorem checkControls_ends (xs : List SignalId) :
    Ends (ForIn.forIn xs PUnit.unit fun x _ => do
        checkControl x
        pure (ForInStep.yield PUnit.unit)) m
      (fun m' => m' = m ∧ ∃ x ∈ xs, (m.store.signal x).format.isBit = false) fun _ m' =>
      m' = m ∧ ∀ x ∈ xs, (m.store.signal x).format.isBit = true := by
  induction xs with
  | nil =>
    rw [List.forIn_nil]
    exact .pure ⟨rfl, by simp⟩
  | cons x xs ih =>
    rw [List.forIn_cons, bind_assoc]
    refine (checkControl_ends x).bind (fun m' h => ⟨h.1, x, by simp, h.2⟩) fun _ m' h => ?_
    obtain ⟨rfl, hx⟩ := h
    rw [pure_bind]
    refine ih.imp ?_ fun _ m' h => ⟨h.1, by simpa using ⟨hx, h.2⟩⟩
    rintro _ ⟨rfl, y, hy, hbit⟩
    exact ⟨rfl, y, by simp [hy], hbit⟩

/-- A signal that has no driver gets one. -/
theorem insertAssignment_ends {a : Assignment R} (ha : a.Valid m.store)
    (hfresh : a.signal ∉ m.assignments.keys) (hsound : a.Sound checked clocking m.store) :
    Ends (insertAssignment a) m (fun _ => False) fun _ m' =>
      m.Adds rounding checked clocking [] [a.signal] [] m' := by
  have hinsert : m.assignments.insertFirst? a.signal a =
      some ⟨m.assignments.entries ++ [(a.signal, a)]⟩ := by
    rw [OrderedMap.insertFirst?, OrderedMap.contains, OrderedMap.get?_eq_none_iff.2 hfresh]
    rfl
  have hrun : outcome (insertAssignment a) m =
      (.ok ⟨⟩, { m with assignments := ⟨m.assignments.entries ++ [(a.signal, a)]⟩ }) := by
    unfold insertAssignment
    rw [outcome_get_bind, hinsert]
    rfl
  refine .of_ok hrun ⟨((insertAssignment_ensures ha).elim_ok hrun).1, by simp, ?_, ?_, by simp, id⟩
  · simp [OrderedMap.keys]
  · intro e he
    rcases List.mem_append.1 he with he | he
    · exact .inl he
    · obtain rfl := List.mem_singleton.1 he
      exact .inr hsound

theorem setThisCycle_ends (hm : m.WellFormed rounding) (hc : clocking.Known m.store)
    {x : SignalId} {o : Operand R} (hx : x < m.store.signals.size) (ho : o.Valid m.store)
    (checked : Bool) :
    Ends (setThisCycle x o checked) m
      (fun m' => m.Same rounding checked clocking m' ∧
        ∃ e, o.Stands m'.store e ∧ m'.Refuses x (m'.store.format e)) fun _ m' =>
      m.Adds rounding checked clocking [] [x] [] m' := by
  unfold setThisCycle
  refine (Edit.build_ends checked clocking
    (Build.operand_ensures (E := fun _ => False) hm.store ho)).bind
    (fun _ h => h.2.choose_spec.elim) fun e m₁ h₁ => ?_
  obtain ⟨h₁, hlt, hstands⟩ := h₁
  refine (checkAssignable_ends x).bind ?_ fun _ t ht => ?_
  · rintro _ ⟨rfl, hrole | hkey⟩
    · exact ⟨h₁, e, hstands, .inl hrole⟩
    · exact ⟨h₁, e, hstands, .inr (.inl hkey)⟩
  obtain ⟨rfl, hrole, hfresh⟩ := ht
  have hvalid : (⟨x, e, .thisCycle⟩ : Assignment R).Valid t.store :=
    ⟨hx.trans_le (h₁.extends_store hm).signals_le, hlt, hrole⟩
  -- once the formats agree where that is asked for, the driver is added
  have hinsert : (checked = true → (t.store.signal x).format.Agrees false (t.store.format e)) →
      Ends (insertAssignment ⟨x, e, .thisCycle⟩) t (fun m' => m.Same rounding checked clocking m' ∧
        ∃ e, o.Stands m'.store e ∧ m'.Refuses x (m'.store.format e)) fun _ m' =>
        m.Adds rounding checked clocking [] [x] [] m' := fun hformat =>
    (insertAssignment_ends hvalid hfresh ⟨by simp [Timing.controls], hformat⟩).imp
      (fun _ => False.elim) fun _ _ h => h.after h₁ hm hc
  split
  · refine Ends.get_bind (Ends.get_bind ((check_ends _ _).bind ?_ fun _ u hu => ?_))
    · rintro _ ⟨rfl, err, herr⟩
      refine ⟨h₁, e, hstands, .inr (.inr fun hagrees => ?_)⟩
      rw [(checkFormat_eq_ok_iff (u := ())).2 hagrees] at herr
      cases herr
    · obtain ⟨rfl, hok⟩ := hu
      exact hinsert fun _ => checkFormat_eq_ok_iff.1 hok
  · rename_i hchecked
    exact hinsert fun h => absurd h hchecked

theorem setNextCycle_ends (hm : m.WellFormed rounding) (hc : clocking.Known m.store)
    {x : SignalId} {o : Operand R} (hx : x < m.store.signals.size) (ho : o.Valid m.store)
    (checked : Bool) :
    Ends (setNextCycle x o clocking checked) m (fun m' => m.Same rounding checked clocking m')
      fun _ m' => m.Adds rounding checked clocking [] [x] [] m' := by
  unfold setNextCycle
  refine (Edit.build_ends checked clocking
    (Build.operand_ensures (E := fun _ => False) hm.store ho)).bind
    (fun _ h => h.1) fun e m₁ h₁ => ?_
  obtain ⟨h₁, hlt, -⟩ := h₁
  refine (checkAssignable_ends x).bind (fun _ h => h.1 ▸ h₁) fun _ t ht => ?_
  obtain ⟨rfl, hrole, hfresh⟩ := ht
  refine (checkControls_ends clocking.signals).bind (fun _ h => h.1 ▸ h₁) fun _ u hu => ?_
  obtain ⟨rfl, hbits⟩ := hu
  refine Ends.get_bind ?_
  simp only
  have hvalid : (⟨x, e, .nextCycle clocking (initialValue (u.store.signal x))⟩ :
      Assignment R).Valid u.store := ⟨hx.trans_le (h₁.extends_store hm).signals_le, hlt, hrole⟩
  have hinsert : (checked = true → (u.store.signal x).format.Agrees true (u.store.format e)) →
      Ends (insertAssignment ⟨x, e, .nextCycle clocking (initialValue (u.store.signal x))⟩) u
        (fun m' => m.Same rounding checked clocking m') fun _ m' =>
        m.Adds rounding checked clocking [] [x] [] m' := fun hformat =>
    (insertAssignment_ends hvalid hfresh ⟨fun c hc => ⟨hc, hbits c hc⟩, hformat⟩).imp
      (fun _ => False.elim) fun _ _ h => h.after h₁ hm hc
  split
  · refine Ends.get_bind ((check_ends _ _).bind (fun _ h => h.1 ▸ h₁) fun _ v hv => ?_)
    obtain ⟨rfl, hformat⟩ := hv
    refine (check_ends _ _).bind (fun _ h => h.1 ▸ h₁) fun _ w hw => ?_
    obtain ⟨rfl, -⟩ := hw
    exact hinsert fun _ => checkFormat_eq_ok_iff.1 hformat
  · rename_i hchecked
    exact hinsert fun h => absurd h hchecked

/-! ## Edits of the store -/

/-- Only the store differs, as far as drivers and tables go. -/
def OnStore (m m' : Model R) : Prop := m'.assignments = m.assignments ∧ m'.tables = m.tables

instance : Std.Refl (OnStore (R := R)) := ⟨fun _ => ⟨rfl, rfl⟩⟩

instance : IsTrans (Model R) OnStore where
  trans _ _ _ h h' := ⟨h'.1.trans h.1, h'.2.trans h.2⟩

/-- Whatever is known of the result, the edit changes only the store. -/
abbrev EditsStore (m : Model R) {α : Type} (x : Edit R α) : Prop :=
  Ensures OnStore x m (fun _ => True) fun _ _ => True

theorem build_editsStore {α : Type} (x : Build R α) (m : Model R) : m.EditsStore (Edit.build x) :=
  .of_moved ⟨rfl, rfl⟩

theorem EditsStore.ends {α : Type} {x : Edit R α} {P : α → Model R → Prop} (h : m.EditsStore x)
    (hx : GrowsTo rounding m x P) :
    Ends x m (fun m' => m.Same rounding checked clocking m') fun a m' =>
      m.Same rounding checked clocking m' ∧ P a m' := by
  have hsame : ∀ m', m.Moves rounding (Grown rounding) m' → m.OnStore m' →
      m.Same rounding checked clocking m' := fun m' hm' hs =>
    .of_eq { hm' with store := hm'.store.advances } hm'.store.signals_eq hs.1 hs.2
  cases hr : outcome x m with
  | mk r m' =>
    cases r with
    | ok a =>
      obtain ⟨hm', hP⟩ := hx.elim_ok hr
      exact .of_ok hr ⟨hsame m' hm' (h.elim_ok hr).1, hP⟩
    | error e => exact .of_error hr (hsame m' (hx.elim_error hr).1 (h.elim_error hr).1)

theorem coefficientNode_editsStore (coefficients : List R) (mode : Option NodeId) (m : Model R) :
    m.EditsStore (coefficientNode coefficients mode) := by
  unfold coefficientNode
  split
  · exact build_editsStore _ m
  · split
    · exact build_editsStore _ m
    · exact Ensures.throw trivial

theorem mapM_editsStore {γ δ : Type} {f : γ → Edit R δ} (xs : List γ)
    (h : ∀ c m', EditsStore m' (f c)) (m : Model R) : m.EditsStore (xs.mapM f) :=
  (Ensures.mapM (Q := fun _ _ _ => True) (fun _ _ _ _ _ => id) xs m fun c _ m' _ => h c m').imp
    fun _ _ _ _ => trivial

theorem rowTerms_editsStore (system : ModalSystem R) (block : Block) (row : Nat)
    (signals : List SignalId) (mode : Option NodeId) (m : Model R) :
    m.EditsStore (rowTerms system block row signals mode) := by
  unfold rowTerms
  split
  · refine mapM_editsStore _ (fun c m' => ?_) m
    exact (coefficientNode_editsStore _ mode m').bind fun _ m'' _ _ => build_editsStore _ m''
  · exact Ensures.pure trivial

theorem systemRow_editsStore (system : ModalSystem R) (stateBlock inputBlock : Block) (row : Nat)
    (states inputs : List SignalId) (mode : Option NodeId) (m : Model R) :
    m.EditsStore (systemRow system stateBlock inputBlock row states inputs mode) := by
  refine (rowTerms_editsStore system stateBlock row states mode m).bind fun js m₁ _ _ => ?_
  refine (rowTerms_editsStore system inputBlock row inputs mode m₁).bind fun ks m₂ _ _ => ?_
  split
  · exact build_editsStore _ m₂
  · exact build_editsStore _ m₂

theorem weightedTerms_editsStore (coefficients : List R) (signals : List SignalId) (m : Model R) :
    m.EditsStore (weightedTerms coefficients signals) :=
  mapM_editsStore _ (fun _ m' => build_editsStore _ m') m

/-! ## Signals -/

theorem addRawSignal_ends (name : String) (format : Format R) (role : Role R)
    (init : Option (Value R)) :
    Ends (addRawSignal name format role init) m (fun m' => m.Same rounding checked clocking m')
      fun x m' => x = m.store.signals.size ∧
        m.Adds rounding checked clocking [⟨name, format, role, init⟩] [] [] m' := by
  rcases addRawSignal_cases m name format role init with hrun | ⟨e, hrun⟩
  · obtain ⟨hmoves, -⟩ := (addRawSignal_ensures name format role init).elim_ok hrun
    exact .of_ok hrun ⟨rfl, hmoves, by simp [withSignal], by simp, fun _ => .inl, by simp, id⟩
  · exact .of_error hrun (.refl m)

theorem addDigital_ends (name : String) (width : Nat) (signedness : Signedness) (init : Int)
    (role : Role R) :
    Ends (addDigital name width signedness init role) m
      (fun m' => m.Same rounding checked clocking m') fun x m' =>
        x = m.store.signals.size ∧ 0 < width ∧ m.Adds rounding checked clocking
          [⟨name, .int (.full signedness width), role, some (.int init)⟩] [] [] m' := by
  refine (check_ends _ _).bind (fun _ h => .of_kept h.1) fun f t ht => ?_
  obtain ⟨rfl, hf⟩ := ht
  obtain ⟨hw, rfl⟩ : 0 < width ∧ .int (.full signedness width) = f := by
    unfold intFormat at hf
    split at hf
    · cases hf
    · exact ⟨Nat.pos_of_ne_zero ‹_›, Except.ok.inj hf⟩
  refine (check_ends _ _).bind (fun _ h => .of_kept h.1) fun _ u hu => ?_
  obtain ⟨rfl, -⟩ := hu
  exact (addRawSignal_ends _ _ _ _).imp (fun _ => id) fun _ _ h => ⟨h.1, hw, h.2⟩

/-! ## Edits that only add -/

/-- The edit only adds to the model, whether it succeeds or fails. -/
abbrev OnlyAdds (rounding : Rounding R) (checked : Bool) (clocking : Clocking) (m : Model R)
    {α : Type} (x : Edit R α) : Prop :=
  Ends x m (fun m' => m.AddsSome rounding checked clocking m') fun _ m' =>
    m.AddsSome rounding checked clocking m'

theorem OnlyAdds.discard {α : Type} {x : Edit R α} (h : m.OnlyAdds rounding checked clocking x) :
    m.OnlyAdds rounding checked clocking (Functor.discard x) :=
  h.map fun _ _ => id

theorem OnlyAdds.check_bind {ε α β : Type} {f : ε → Error} {x : Except ε α} {y : α → Edit R β}
    (h : ∀ a, m.OnlyAdds rounding checked clocking (y a)) :
    m.OnlyAdds rounding checked clocking (check f x >>= y) := by
  refine (check_ends f x).bind (fun _ h => (Adds.of_kept h.1).some) fun a t ht => ?_
  obtain ⟨rfl, -⟩ := ht
  exact h a

theorem addRawSignal_onlyAdds (name : String) (format : Format R) (role : Role R)
    (init : Option (Value R)) :
    m.OnlyAdds rounding checked clocking (addRawSignal name format role init) :=
  (addRawSignal_ends name format role init).imp (fun _ h => h.some) fun _ _ h => h.2.some

theorem addDigital_onlyAdds (name : String) (width : Nat) (signedness : Signedness) (init : Int)
    (role : Role R) :
    m.OnlyAdds rounding checked clocking (addDigital name width signedness init role) :=
  (addDigital_ends name width signedness init role).imp (fun _ h => h.some) fun _ _ h => h.2.2.some

theorem addParam_onlyAdds (hm : m.WellFormed rounding) (hc : clocking.Known m.store)
    (name : String) (format : Format R) (default : Value R) :
    m.OnlyAdds rounding checked clocking (addParam name format default) := by
  refine (addRawSignal_ends name format (.param default) none).bind (fun _ h => h.some)
    fun x m₁ h₁ => ?_
  split
  · exact .of_ok rfl (h₁.2.same (.of_eq (moves_report m₁ _) rfl rfl rfl) hm hc).some
  · exact .pure h₁.2.some

theorem bindName_onlyAdds (hm : m.WellFormed rounding) (hc : clocking.Known m.store)
    (name : String) {o : Operand R} (ho : o.Valid m.store) :
    m.OnlyAdds rounding true clocking (bindName name o) := by
  unfold bindName
  refine (Edit.build_ends true clocking (Build.operand_ensures (E := fun _ => False) hm.store
    ho)).bind (fun _ h => h.1.some) fun e m₁ h₁ => ?_
  obtain ⟨h₁, he, -⟩ := h₁
  have hm₁ := h₁.moves.wellFormed hm
  refine Ends.get_bind ((addRawSignal_ends _ _ _ _).bind (fun _ h => (h₁.same h hm hc).some)
    fun x m₂ h₂ => ?_)
  obtain ⟨rfl, h₂⟩ := h₂
  have h₀₂ := h₁.trans h₂ hm hc
  have hext := h₂.extends_store hm₁
  have hx : m₁.store.signals.size < m₂.store.signals.size := by
    rw [h₂.size_eq]
    simp
  refine (setThisCycle_ends (o := .node e) (h₂.moves.wellFormed hm₁)
    (hc.of_extends (h₀₂.extends_store hm)) hx (he.trans_le hext.size_le) true).bind
    (fun _ h => (h₀₂.same h.1 hm hc).some) fun _ _ h => .pure (h₀₂.trans h hm hc).some

/-- The signals of a store that advances stay first. -/
theorem Adds.of_advances (hm : m.WellFormed rounding) {s : Store R}
    (h : m.store.Advances rounding s) :
    m.AddsSome rounding checked clocking { m with store := s } := by
  have hext := (h hm.store).1
  have htake : s.signals.toList.take m.store.signals.size = m.store.signals.toList := by
    refine List.ext_getElem (by simpa using hext.signals_le) fun i hi hi' => ?_
    have hlt : i < m.store.signals.size := by simpa using hi'
    have hsignal := hext.signal_eq i hlt
    simpa [signal, Array.getD, hlt, hlt.trans_le hext.signals_le] using hsignal
  refine ⟨s.signals.toList.drop m.store.signals.size, [], [], moves_of_store h h, ?_, by simp,
    fun _ => .inl, by simp, id⟩
  conv_lhs => rw [← List.take_append_drop m.store.signals.size s.signals.toList, htake]

end Model

end MixedSignal
