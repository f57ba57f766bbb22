import MixedSignal.Equation.System
import MixedSignal.Model.Basic
import MixedSignal.Proofs.Construction
import MixedSignal.Proofs.Soundness

/-!
# Edits keep models well formed

In a well-formed model all assignments refer to signals and nodes that exist, and a signal that is
driven may be driven by the module and has one assignment. `Model.Moves` is what every edit does,
also when it fails: the store moves along a relation, assignments are added behind the others, and
the model stays well formed.
-/

set_option linter.unusedSectionVars false

namespace MixedSignal

variable {R : Type} [Scalar R] {x : SignalId} {a : Assignment R} {name : String} {s : Store R}
  {o : Operand R}

/-! ## Maps in insertion order -/

namespace OrderedMap

variable {κ β : Type} [BEq κ] [LawfulBEq κ] {m : OrderedMap κ β} {k : κ} {v : β}

theorem get?_eq_none_iff : m.get? k = none ↔ k ∉ m.keys := by
  rw [get?, List.lookup_eq_none_iff, keys]
  constructor
  · intro h hk
    obtain ⟨e, he, rfl⟩ := List.mem_map.1 hk
    simpa using h e he
  · intro h e he
    simpa using fun heq : k = e.1 => h (heq ▸ List.mem_map_of_mem he)

theorem mem_entries_of_get? (h : m.get? k = some v) : (k, v) ∈ m.entries := by
  obtain ⟨l₁, l₂, hm, -⟩ := List.lookup_eq_some_iff.1 h
  simp [hm]

/-- An entry is found, as no key stands twice. -/
theorem get?_of_mem_entries (hnodup : m.keys.Nodup) (h : (k, v) ∈ m.entries) :
    m.get? k = some v := by
  obtain ⟨l₁, l₂, hm⟩ := List.append_of_mem h
  refine List.lookup_eq_some_iff.2 ⟨l₁, l₂, hm, fun e he => ?_⟩
  rw [keys, hm, List.map_append, List.nodup_append] at hnodup
  simpa using (hnodup.2.2 e.1 (List.mem_map_of_mem he) k (by simp)).symm

theorem get?_of_prefix {m' : OrderedMap κ β} (h : m.entries <+: m'.entries)
    (hv : m.get? k = some v) : m'.get? k = some v := by
  obtain ⟨l, hl⟩ := h
  have hv : m.entries.lookup k = some v := hv
  rw [get?, ← hl, List.lookup_append, hv]
  rfl

theorem insertFirst?_eq_some {m' : OrderedMap κ β} (h : m.insertFirst? k v = some m') :
    k ∉ m.keys ∧ m'.entries = m.entries ++ [(k, v)] := by
  unfold insertFirst? at h
  split at h
  · cases h
  · rename_i hc
    obtain rfl := Option.some.inj h
    refine ⟨get?_eq_none_iff.1 ?_, rfl⟩
    simpa [contains] using hc

end OrderedMap

/-! ## Well-formed models -/

/-- The assignment refers to what exists, and the module may drive its signal. -/
structure Assignment.Valid (s : Store R) (a : Assignment R) : Prop where
  signal_lt : a.signal < s.signals.size
  expr_lt : a.expr < s.nodes.size
  assignable : (s.signal a.signal).role.isAssignable = true

theorem Assignment.Valid.of_extends {s' : Store R} (h : a.Valid s) (hs : s.Extends s') :
    a.Valid s' where
  signal_lt := h.signal_lt.trans_le hs.signals_le
  expr_lt := h.expr_lt.trans_le hs.size_le
  assignable := by rw [hs.signal_eq _ h.signal_lt, h.assignable]

namespace Model

open Store

/-- The store is well typed, its signals have names of their own, and the assignments are valid, one
for each signal. -/
structure WellFormed (rounding : Rounding R) (m : Model R) : Prop where
  store : m.store.WellTyped rounding
  names : m.store.WellNamed
  entries : ∀ e ∈ m.assignments.entries, e.1 = e.2.signal ∧ e.2.Valid m.store
  nodup : m.assignments.keys.Nodup

/-- What is probed exists. -/
def Probed (m : Model R) : Prop := ∀ x ∈ m.probes, x < m.store.signals.size

variable {rounding : Rounding R} {G : Store R → Store R → Prop} {m m' m'' : Model R}

theorem WellFormed.valid (h : m.WellFormed rounding) (ha : m.assignment? x = some a) :
    a.signal = x ∧ a.Valid m.store := by
  obtain ⟨hsignal, hvalid⟩ := h.entries _ (OrderedMap.mem_entries_of_get? ha)
  exact ⟨hsignal.symm, hvalid⟩

/-- The next signal is not driven yet. -/
theorem WellFormed.fresh (h : m.WellFormed rounding) :
    m.store.signals.size ∉ m.assignments.keys := by
  intro hmem
  obtain ⟨e, he, hkey⟩ := List.mem_map.1 hmem
  obtain ⟨hsignal, hvalid⟩ := h.entries e he
  exact absurd (hkey ▸ hsignal ▸ hvalid.signal_lt) (lt_irrefl _)

theorem eq_of_ofName {dt : Option R} (h : ofName name dt = .ok m) : m = { name, dt } := by
  unfold ofName at h
  split at h
  · exact (Except.ok.inj h).symm
  · cases h

theorem wellFormed_ofName {dt : Option R} (h : ofName name dt = .ok m) : m.WellFormed rounding := by
  obtain rfl := eq_of_ofName h
  exact ⟨.empty, .empty, by simp, by simp [OrderedMap.keys]⟩

/-- What an edit does: the store moves, and valid assignments are added. -/
structure Moves (rounding : Rounding R) (G : Store R → Store R → Prop) (m m' : Model R) : Prop where
  store : G m.store m'.store
  assignments : m.assignments.entries <+: m'.assignments.entries
  wellFormed : m.WellFormed rounding → m'.WellFormed rounding
  probed : m.WellFormed rounding → m.Probed → m'.Probed

instance [Std.Refl G] : Std.Refl (Moves rounding G) :=
  ⟨fun m => ⟨refl_of G m.store, List.prefix_rfl, id, fun _ => id⟩⟩

instance [IsTrans (Store R) G] : IsTrans (Model R) (Moves rounding G) where
  trans _ _ _ h h' := ⟨trans_of G h.store h'.store, h.assignments.trans h'.assignments,
    fun hm => h'.wellFormed (h.wellFormed hm),
    fun hm hp => h'.probed (h.wellFormed hm) (h.probed hm hp)⟩

/-- The edit adds nodes and assignments, and a result satisfies `P`. -/
abbrev GrowsTo (rounding : Rounding R) (m : Model R) {α : Type} (x : Edit R α)
    (P : α → Model R → Prop) : Prop :=
  Ensures (Moves rounding (Grown rounding)) x m (fun _ => True) P

/-- The edit adds to the model, and a result satisfies `P`. -/
abbrev MovesTo (rounding : Rounding R) (m : Model R) {α : Type} (x : Edit R α)
    (P : α → Model R → Prop) : Prop :=
  Ensures (Moves rounding (Advances rounding)) x m (fun _ => True) P

theorem Moves.assignment? (h : m.Moves rounding G m') (ha : m.assignment? x = some a) :
    m'.assignment? x = some a :=
  OrderedMap.get?_of_prefix h.assignments ha

/-- A model whose store advances stays well formed. -/
theorem moves_of_store (hG : G m.store s) (hs : m.store.Advances rounding s) :
    m.Moves rounding G { m with store := s } where
  store := hG
  assignments := List.prefix_rfl
  wellFormed h := by
    obtain ⟨hext, hs', hnames⟩ := hs h.store
    refine ⟨hs', hnames h.names, fun e he => ?_, h.nodup⟩
    obtain ⟨hkey, hvalid⟩ := h.entries e he
    exact ⟨hkey, hvalid.of_extends hext⟩
  probed h hp x hx := (hp x hx).trans_le (hs h.store).1.signals_le

end Model

/-! ## Constructions within edits -/

section

open Model Store

variable {rounding : Rounding R} {G : Store R → Store R → Prop} {m : Model R} {α : Type}
  {E : Error → Prop} {P : α → Store R → Prop}

/-- Errors of a construction become errors of the computation around it. -/
theorem Solving.build_ensures {x : Build R α} {E' : ConstructionError → Prop}
    (h : Ensures G x s E' P) (hE : ∀ e, E' e → E (.construction e)) :
    Ensures G (Solving.build x) s E P := by
  have hrun : outcome (Solving.build x) s =
      ((outcome x s).1.mapError .construction, (outcome x s).2) := rfl
  cases hx : outcome x s with
  | mk r s' =>
    rw [hx] at hrun
    cases r with
    | ok a =>
      obtain ⟨hG, hP⟩ := h.elim_ok hx
      exact .of_ok hrun hG hP
    | error e =>
      obtain ⟨hG, he⟩ := h.elim_error hx
      exact .of_error hrun hG (hE e he)

theorem Edit.onStore_ensures {x : Solving R α} (hG : ∀ s s', G s s' → s.Advances rounding s')
    (h : Ensures G x m.store E P) :
    Ensures (Moves rounding G) (Edit.onStore x) m E fun a m' =>
      P a m'.store ∧ m'.assignments = m.assignments := by
  have hrun : outcome (Edit.onStore x) m =
      ((outcome x m.store).1, { m with store := (outcome x m.store).2 }) := rfl
  cases hx : outcome x m.store with
  | mk r s =>
    rw [hx] at hrun
    cases r with
    | ok a =>
      obtain ⟨hs, hP⟩ := h.elim_ok hx
      exact .of_ok hrun (moves_of_store hs (hG _ _ hs)) ⟨hP, rfl⟩
    | error e =>
      obtain ⟨hs, he⟩ := h.elim_error hx
      exact .of_error hrun (moves_of_store hs (hG _ _ hs)) he

theorem Edit.build_ensures {x : Build R α} (hG : ∀ s s', G s s' → s.Advances rounding s')
    (h : Ensures G x m.store (fun _ => True) P) :
    Ensures (Moves rounding G) (Edit.build x) m (fun _ => True) fun a m' =>
      P a m'.store ∧ m'.assignments = m.assignments :=
  Edit.onStore_ensures hG (Solving.build_ensures h fun _ _ => trivial)

theorem Edit.build_succeeds {x : Build R α} (hG : ∀ s s', G s s' → s.Advances rounding s')
    (h : Ensures G x m.store (fun _ => False) P) :
    Ensures (Moves rounding G) (Edit.build x) m (fun _ => False) fun a m' =>
      P a m'.store ∧ m'.assignments = m.assignments :=
  Edit.onStore_ensures hG (Solving.build_ensures h fun _ => False.elim)

end

/-! ## Assignments -/

namespace Model

open Store

variable {rounding : Rounding R} {G : Store R → Store R → Prop} [Std.Refl G]
  [IsTrans (Store R) G] {m : Model R}

theorem check_ensures {ε α : Type} (f : ε → Error) (x : Except ε α) :
    Ensures Eq (check f x) m (fun _ => True) fun a _ => x = .ok a := by
  cases x with
  | ok a => exact Ensures.pure rfl
  | error e => exact Ensures.throw trivial

theorem contains?_of_checkInit {f : Format R} {v : Value R} {u : Unit}
    (h : checkInit name f v = .ok u) : f.contains? v ≠ some false := by
  unfold checkInit at h
  split at h
  · cases h
  · assumption

/-- A real signal is driven by a real expression, and an integer by an integer. -/
theorem domain_of_checkFormat {s : Signal R} {f : Format R} {registered : Bool} {u : Unit}
    (h : checkFormat s f registered = .ok u) : s.format.domain = .real ↔ f.domain = .real := by
  unfold checkFormat at h
  cases hs : s.format with
  | real g =>
    cases f with
    | real g' => exact Iff.rfl
    | int g' => simp [hs] at h
  | int g =>
    cases f with
    | real g' => simp [hs] at h
    | int g' => simp [Format.int_domain_ne_real]

theorem checkAssignable_ensures (x : SignalId) :
    Ensures Eq (checkAssignable x) m (fun _ => True) fun _ m' =>
      (m'.store.signal x).role.isAssignable = true := by
  unfold checkAssignable
  refine Ensures.get_bind ?_
  simp only
  split
  · rename_i hrole
    refine Ensures.get_bind ?_
    split
    · exact Ensures.throw trivial
    · exact Ensures.pure hrole
  · exact Ensures.throw trivial

theorem checkControl_ensures (x : SignalId) :
    Ensures Eq (checkControl x) m (fun _ => True) fun _ _ => True := by
  unfold checkControl
  refine Ensures.get_bind ?_
  split
  · exact Ensures.pure trivial
  · exact Ensures.throw trivial

/-- A valid assignment is added behind the others. -/
theorem insertAssignment_ensures (ha : a.Valid m.store) :
    Ensures (Moves rounding G) (insertAssignment a) m (fun _ => True) fun _ m' =>
      m'.store = m.store ∧ m'.assignment? a.signal = some a := by
  refine Ensures.get_bind ?_
  split
  · rename_i assignments hinsert
    obtain ⟨hfresh, hentries⟩ := OrderedMap.insertFirst?_eq_some hinsert
    have hmoves : m.Moves rounding G { m with assignments } := by
      refine ⟨refl_of G m.store, hentries ▸ List.prefix_append .., fun h =>
        ⟨h.store, h.names, ?_, ?_⟩, fun _ => id⟩
      · intro e he
        rw [hentries, List.mem_append, List.mem_singleton] at he
        rcases he with he | rfl
        · exact h.entries e he
        · exact ⟨rfl, ha⟩
      · rw [OrderedMap.keys, hentries, List.map_append, List.nodup_append]
        refine ⟨h.nodup, by simp, ?_⟩
        rintro x hx y hy rfl
        obtain rfl : x = a.signal := by simpa using hy
        exact hfresh hx
    refine .of_ok rfl hmoves ⟨rfl, ?_⟩
    rw [assignment?, OrderedMap.get?, hentries, List.lookup_append,
      show m.assignments.entries.lookup a.signal = none from OrderedMap.get?_eq_none_iff.2 hfresh]
    simp
  · exact Ensures.throw trivial

theorem setThisCycle_ensures (hm : m.WellFormed rounding) (hx : x < m.store.signals.size)
    (ho : o.Valid m.store) (checked : Bool) :
    GrowsTo rounding m (setThisCycle x o checked)
      fun _ m' => ∃ e, o.Stands m'.store e ∧ m'.assignment? x = some ⟨x, e, .thisCycle⟩ ∧
        (checked = true → ((m.store.signal x).format.domain = .real ↔
          (m'.store.format e).domain = .real)) := by
  unfold setThisCycle
  refine (Edit.build_ensures (fun _ _ => Grown.advances)
    (Build.operand_ensures hm.store ho)).bind fun e m' h' he => ?_
  obtain ⟨⟨hlt, hstands⟩, -⟩ := he
  refine (Ensures.of_kept (checkAssignable_ensures x)).bind fun _ t _ ht => ?_
  obtain ⟨rfl, hrole⟩ := ht
  have hvalid : (⟨x, e, .thisCycle⟩ : Assignment R).Valid t.store :=
    ⟨hx.trans_le h'.store.toExtends.signals_le, hlt, hrole⟩
  rw [← h'.store.toExtends.signal_eq x hx]
  have hinsert : (checked = true → ((t.store.signal x).format.domain = .real ↔
        (t.store.format e).domain = .real)) →
      GrowsTo rounding t (insertAssignment ⟨x, e, .thisCycle⟩)
        fun _ m' => ∃ e, o.Stands m'.store e ∧
          m'.assignment? x = some ⟨x, e, .thisCycle⟩ ∧
          (checked = true → ((t.store.signal x).format.domain = .real ↔
            (m'.store.format e).domain = .real)) := fun hformat =>
    (insertAssignment_ensures hvalid).imp fun _ u _ hu =>
      ⟨e, hu.1 ▸ hstands, hu.2, hu.1 ▸ hformat⟩
  split
  · refine Ensures.get_bind (Ensures.get_bind ?_)
    refine (Ensures.of_kept (check_ensures _ _)).bind fun _ u _ hu => ?_
    obtain ⟨rfl, hok⟩ := hu
    exact hinsert fun _ => domain_of_checkFormat hok
  · rename_i hchecked
    exact hinsert fun h => absurd h hchecked

theorem checkFormat_self (s : Signal R) : checkFormat s s.format false = .ok () := by
  unfold checkFormat
  cases s.format <;> rfl

theorem checkAssignable_fresh (hrole : (m.store.signal x).role.isAssignable = true)
    (hfresh : x ∉ m.assignments.keys) : outcome (checkAssignable x) m = (.ok ⟨⟩, m) := by
  have hcontains : m.assignments.contains x = false := by
    rw [OrderedMap.contains, OrderedMap.get?_eq_none_iff.2 hfresh]
    rfl
  unfold checkAssignable
  change outcome (if (m.store.signal x).role.isAssignable then _ else _) m = _
  rw [if_pos hrole, outcome_get_bind, hcontains]
  rfl

theorem insertAssignment_fresh (hfresh : a.signal ∉ m.assignments.keys) :
    ∃ m', outcome (insertAssignment a) m = (.ok ⟨⟩, m') := by
  unfold insertAssignment
  rw [outcome_get_bind, OrderedMap.insertFirst?, OrderedMap.contains,
    OrderedMap.get?_eq_none_iff.2 hfresh]
  exact ⟨_, rfl⟩

/-- A signal that is not driven yet can be driven by an expression of its format. -/
theorem setThisCycle_fresh {e : NodeId} (hrole : (m.store.signal x).role.isAssignable = true)
    (hfresh : x ∉ m.assignments.keys) (hformat : m.store.format e = (m.store.signal x).format) :
    ∃ m', outcome (setThisCycle x (.node e) true) m = (.ok ⟨⟩, m') := by
  have hoperand : outcome (Edit.build (Build.operand (.node e))) m = (.ok e, m) := rfl
  have hcheck :
      outcome (check .format (checkFormat (m.store.signal x) (m.store.format e) false)) m =
        (.ok ⟨⟩, m) := by
    rw [hformat, checkFormat_self]
    rfl
  obtain ⟨m', hinsert⟩ := insertAssignment_fresh (m := m) (a := ⟨x, e, .thisCycle⟩) hfresh
  refine ⟨m', ?_⟩
  unfold setThisCycle
  rw [outcome_bind_ok hoperand, outcome_bind_ok (checkAssignable_fresh hrole hfresh)]
  exact (outcome_bind_ok hcheck).trans hinsert

/-- A register has the initial value of its signal. If it is checked, then the format does not
refuse that. -/
theorem setNextCycle_ensures (hm : m.WellFormed rounding) (hx : x < m.store.signals.size)
    (ho : o.Valid m.store) (clocking : Clocking) (checked : Bool) :
    GrowsTo rounding m (setNextCycle x o clocking checked)
      fun _ m' => ∃ e, o.Stands m'.store e ∧ m'.assignment? x =
        some ⟨x, e, .nextCycle clocking (initialValue (m.store.signal x))⟩ ∧
        (checked = true → (m.store.signal x).format.contains? (initialValue (m.store.signal x)) ≠
          some false) := by
  unfold setNextCycle
  refine (Edit.build_ensures (fun _ _ => Grown.advances)
    (Build.operand_ensures hm.store ho)).bind fun e m' h' he => ?_
  obtain ⟨⟨hlt, hstands⟩, -⟩ := he
  refine (Ensures.of_kept (checkAssignable_ensures x)).bind fun _ t _ ht => ?_
  obtain ⟨rfl, hrole⟩ := ht
  have hsignal : t.store.signal x = m.store.signal x := h'.store.toExtends.signal_eq x hx
  have hcontrols : Ensures Eq (ForIn.forIn
      ([clocking.clock, clocking.reset, clocking.enable].filterMap id) PUnit.unit fun x _ => do
        checkControl x
        pure (ForInStep.yield PUnit.unit)) t (fun _ => True) fun _ _ => True :=
    (Ensures.forIn (Q := fun _ _ => True) (fun _ _ _ _ => id) _ t fun c _ u _ =>
      (checkControl_ensures c).bind fun _ _ _ _ => Ensures.pure ⟨rfl, trivial⟩).imp
        fun _ _ _ _ => trivial
  refine (Ensures.of_kept hcontrols).bind fun _ u _ hu => ?_
  obtain ⟨rfl, -⟩ := hu
  refine Ensures.get_bind ?_
  simp only
  have hvalid : (⟨x, e, .nextCycle clocking (initialValue (u.store.signal x))⟩ :
      Assignment R).Valid u.store := ⟨hx.trans_le h'.store.toExtends.signals_le, hlt, hrole⟩
  rw [hsignal] at hvalid ⊢
  split
  · refine Ensures.get_bind ?_
    refine (Ensures.of_kept (check_ensures _ _)).bind fun _ v _ hv => ?_
    obtain ⟨rfl, -⟩ := hv
    refine (Ensures.of_kept (check_ensures _ _)).bind fun _ w _ hw => ?_
    obtain ⟨rfl, hinit⟩ := hw
    exact (insertAssignment_ensures hvalid).imp fun _ w _ hw =>
      ⟨e, hw.1 ▸ hstands, hw.2, fun _ => contains?_of_checkInit hinit⟩
  · rename_i hchecked
    exact (insertAssignment_ensures hvalid).imp fun _ w _ hw =>
      ⟨e, hw.1 ▸ hstands, hw.2, fun h => absurd h hchecked⟩

theorem checkControl_bit {c : SignalId} (h : (m.store.signal c).format.isBit = true) :
    outcome (checkControl c) m = (.ok ⟨⟩, m) := by
  unfold checkControl
  change outcome (if (m.store.signal c).format.isBit then _ else _) m = _
  rw [if_pos h]
  rfl

/-- A signal that is not driven yet can be a register for an integer of its width, if its initial
value is in range and bits control it. -/
theorem setNextCycle_fresh {e : NodeId} (clocking : Clocking)
    (hrole : (m.store.signal x).role.isAssignable = true) (hfresh : x ∉ m.assignments.keys)
    (hcontrols : ∀ c ∈ [clocking.clock, clocking.reset, clocking.enable].filterMap id,
      (m.store.signal c).format.isBit = true) {f f' : IntFormat}
    (hx : (m.store.signal x).format = .int f) (he : m.store.format e = .int f')
    (hwidth : f.width = f'.width)
    (hinit : (m.store.signal x).format.contains? (initialValue (m.store.signal x)) ≠ some false) :
    ∃ m', outcome (setNextCycle x (.node e) clocking true) m = (.ok ⟨⟩, m') := by
  have hoperand : outcome (Edit.build (Build.operand (.node e))) m = (.ok e, m) := rfl
  have hloop := outcome_forIn_kept (f := checkControl) _ (s := m) fun c hc =>
    checkControl_bit (hcontrols c hc)
  have hformat :
      outcome (check .format (checkFormat (m.store.signal x) (m.store.format e) true)) m =
        (.ok ⟨⟩, m) := by
    have hok : checkFormat (m.store.signal x) (m.store.format e) true = .ok () := by
      unfold checkFormat
      simp [hx, he, hwidth]
    rw [hok]
    rfl
  have hchecked : outcome (check .format (checkInit (m.store.signal x).name
      (m.store.signal x).format (initialValue (m.store.signal x)))) m = (.ok ⟨⟩, m) := by
    rw [checkInit, if_neg hinit]
    rfl
  obtain ⟨m', hinsert⟩ := insertAssignment_fresh (m := m)
    (a := ⟨x, e, .nextCycle clocking (initialValue (m.store.signal x))⟩) hfresh
  refine ⟨m', ?_⟩
  unfold setNextCycle
  rw [outcome_bind_ok hoperand, outcome_bind_ok (checkAssignable_fresh hrole hfresh)]
  refine (outcome_bind_ok hloop).trans ?_
  exact (outcome_bind_ok hformat).trans ((outcome_bind_ok hchecked).trans hinsert)

/-! ## Edits without signals -/

/-- The edit adds nodes and assignments and returns a node. -/
def MakesNode (rounding : Rounding R) (m : Model R) (x : Edit R NodeId) : Prop :=
  Ensures (Moves rounding (Grown rounding)) x m (fun _ => True) fun j m' => j < m'.store.nodes.size

theorem MakesNode.of_makes {x : Build R NodeId} (h : Build.Makes rounding m.store x) :
    MakesNode rounding m (Edit.build x) :=
  (Edit.build_ensures (fun _ _ => Grown.advances) h).imp fun _ _ _ hj => hj.1

/-! ## Where integers come from -/

/-- What keeps the values of a signal in its format: it is real, or its format holds all values of
its word, or it is driven by an expression of the same format, or it repeats another signal of the
same format from an initial value within it. The signals that the last two depend on are older. -/
inductive Origin (m : Model R) (x : SignalId) : Prop
  | real {f} (h : (m.store.signal x).format = .real f)
  | full {signedness width} (hw : 0 < width)
    (h : (m.store.signal x).format = .int (.full signedness width))
  | bound {e} (h : m.assignment? x = some ⟨x, e, .thisCycle⟩)
    (hread : ∀ y ∈ m.store.signalsIn e, y < x)
    (he : m.store.format e = (m.store.signal x).format)
  | delayed {p clocking init}
    (h : m.assignment? x = some ⟨x, m.store.leaf p, .nextCycle clocking init⟩)
    (hp : p < x) (hformat : (m.store.signal p).format = (m.store.signal x).format)
    (hinit : (m.store.signal x).format.Holds init)

/-- The values of all signals are kept in their formats. -/
def Traced (m : Model R) : Prop := ∀ x < m.store.signals.size, m.Origin x

/-- Edits do not change where the values of a signal come from. -/
theorem Origin.of_moves {m' : Model R} (ho : m.Origin x) (hm : m.WellFormed rounding)
    (h : m.Moves rounding G m') (hext : m.store.Extends m'.store) (hx : x < m.store.signals.size) :
    m'.Origin x := by
  have hsignal := hext.signal_eq x hx
  cases ho with
  | real h => exact .real (by rw [hsignal, h])
  | full hw h => exact .full hw (by rw [hsignal, h])
  | bound ha hread he =>
    have hlt := (hm.valid ha).2.expr_lt
    refine .bound (h.assignment? ha) (fun y hy => ?_) ?_
    · exact hread y ((hm.store.mem_signalsIn_extends hext hlt).1 hy)
    · rw [hsignal, ← he, hext.format_eq hlt]
  | delayed ha hp hformat hinit =>
    have ha' := h.assignment? ha
    rw [← hext.leaf_eq _ (hp.trans hx)] at ha'
    refine .delayed ha' hp ?_ (by rwa [hsignal])
    rw [hext.signal_eq _ (hp.trans hx), hsignal, hformat]

theorem Traced.of_grown {m' : Model R} (ht : m.Traced) (hm : m.WellFormed rounding)
    (h : m.Moves rounding (Grown rounding) m') : m'.Traced := by
  intro x hx
  rw [h.store.signals_eq] at hx
  exact (ht x hx).of_moves hm h h.store.toExtends hx

/-- What an edit does that keeps the values of all signals in their formats, also when it fails. -/
structure Keeps (rounding : Rounding R) (m m' : Model R) : Prop where
  moves : m.Moves rounding (Advances rounding) m'
  traced : m.WellFormed rounding → m.Traced → m'.Traced

instance : Std.Refl (Keeps (R := R) rounding) := ⟨fun m => ⟨refl_of _ m, fun _ => id⟩⟩

instance : IsTrans (Model R) (Keeps rounding) where
  trans _ _ _ h h' := ⟨trans_of _ h.moves h'.moves,
    fun hm ht => h'.traced (h.moves.wellFormed hm) (h.traced hm ht)⟩

theorem keeps_of_grown {m' : Model R} (h : m.Moves rounding (Grown rounding) m') :
    m.Keeps rounding m' :=
  ⟨{ h with store := h.store.advances }, fun hm ht => ht.of_grown hm h⟩

/-- Edits without signals keep the values of all signals in their formats. -/
theorem ensures_keeps {α : Type} {x : Edit R α} {P : α → Model R → Prop}
    (h : GrowsTo rounding m x P) :
    Ensures (Keeps rounding) x m (fun _ => True) P :=
  h.mono (fun _ => keeps_of_grown) (fun _ => id) fun _ _ _ => id

/-! ## Signals -/

/-- A signal is added as the last one, or its name is refused and nothing changes. -/
theorem addRawSignal_cases (m : Model R) (name : String) (format : Format R) (role : Role R)
    (init : Option (Value R)) :
    outcome (addRawSignal name format role init) m = (.ok m.store.signals.size,
        { m with store := m.store.withSignal ⟨name, format, role, init⟩ }) ∨
      ∃ e, outcome (addRawSignal name format role init) m = (.error e, m) := by
  have hrun : outcome (addRawSignal name format role init) m =
      ((outcome (Build.addSignal name format role init) m.store).1.mapError .construction,
        { m with store := (outcome (Build.addSignal name format role init) m.store).2 }) := rfl
  rcases Build.addSignal_cases m.store name format role init with ⟨h, -⟩ | ⟨e, h⟩
  · rw [h] at hrun
    exact .inl hrun
  · rw [h] at hrun
    exact .inr ⟨_, hrun⟩

/-- A signal is added as the last one. -/
theorem addRawSignal_ensures (name : String) (format : Format R) (role : Role R)
    (init : Option (Value R)) :
    MovesTo rounding m (addRawSignal name format role init) fun x m' => (x = m.store.signals.size ∧
        m'.store = m.store.withSignal ⟨name, format, role, init⟩) ∧
        m'.assignments = m.assignments :=
  Edit.build_ensures (fun _ _ => id) (Build.addSignal_ensures name format role init)

/-- An integer whose initial value is in range can be added under a fresh name. -/
theorem addDigital_fresh (hvalid : Identifier.isValid name = true)
    (hfresh : m.store.signalNamed? name = none) {w : Nat} (hw : 0 < w) (signedness : Signedness)
    {init : Int} (hinit : init ∈ (IntFormat.full signedness w).range) (role : Role R) :
    Ensures (Moves rounding (Advances rounding)) (addDigital name w signedness init role) m
      (fun _ => False) fun x m' => (x = m.store.signals.size ∧ m'.store =
        m.store.withSignal ⟨name, .int (.full signedness w), role, some (.int init)⟩) ∧
        m'.assignments = m.assignments := by
  have hformat : outcome (check .construction (intFormat (R := R) name w signedness)) m =
      (.ok (.int (.full signedness w)), m) := by
    rw [intFormat, if_neg hw.ne']
    rfl
  have hchecked : outcome (check .format (checkInit name (.int (.full signedness w) : Format R)
      (.int init))) m = (.ok ⟨⟩, m) := by
    have hcontains : (IntFormat.full signedness w).range.contains init = true := by
      simpa [ClosedRange.contains] using hinit
    rw [checkInit, Format.contains?, hcontains, if_neg (by decide)]
    rfl
  have hadd : Ensures (Moves rounding (Advances rounding)) (addRawSignal name
      (.int (.full signedness w)) role (some (.int init))) m (fun _ => False) _ :=
    Edit.build_succeeds (fun _ _ => id) (Build.addSignal_fresh hvalid hfresh _ _ _)
  unfold Ensures addDigital
  rw [outcome_bind_ok hformat, outcome_bind_ok hchecked]
  exact hadd

/-- A signal was added, and after it only nodes and assignments. The values of the signal are kept
in its format. -/
theorem Traced.of_withSignal {m' m'' : Model R} {s : Signal R} (ht : m.Traced)
    (hm : m.WellFormed rounding) (h : m.Moves rounding (Advances rounding) m'')
    (hstore : m'.store = m.store.withSignal s) (h' : m'.Moves rounding (Grown rounding) m'')
    (hnew : m''.Origin m.store.signals.size) : m''.Traced := by
  intro x hx
  have hsize : (m.store.withSignal s).signals.size = m.store.signals.size + 1 := by
    simp [withSignal]
  rw [h'.store.signals_eq, hstore, hsize] at hx
  rcases Nat.lt_or_eq_of_le (Nat.lt_succ_iff.1 hx) with hlt | rfl
  · exact (ht x hlt).of_moves hm h (h.store hm.store).1 hlt
  · exact hnew

/-- Nodes and assignments are added within an edit that adds signals. -/
theorem ensures_of_grown {α : Type} {x : Edit R α} {P : α → Model R → Prop}
    (h : GrowsTo rounding m x P) :
    MovesTo rounding m x fun a m' =>
      m.Moves rounding (Grown rounding) m' ∧ P a m' :=
  h.mono (fun _ hm => { hm with store := hm.store.advances }) (fun _ => id)
    fun _ _ hm hP => ⟨hm, hP⟩

/-- The edit adds a signal and keeps the values of all signals in their formats. -/
def AddsSignal (rounding : Rounding R) (m : Model R) (x : Edit R SignalId) : Prop :=
  Ensures (Keeps rounding) x m (fun _ => True) fun x m' => x < m'.store.signals.size

/-- The format alone keeps the values of a signal within it. -/
def FormatFull (f : Format R) : Prop :=
  (∃ g, f = .real g) ∨ ∃ signedness width, 0 < width ∧ f = .int (.full signedness width)

theorem addRawSignal_adds (name : String) {format : Format R} (hformat : FormatFull format)
    (role : Role R) (init : Option (Value R)) :
    AddsSignal rounding m (addRawSignal name format role init) := by
  rcases addRawSignal_cases m name format role init with hrun | ⟨e, hrun⟩
  · obtain ⟨hmoves, -⟩ := (addRawSignal_ensures name format role init).elim_ok hrun
    refine .of_ok hrun ⟨hmoves, fun hm ht => ?_⟩ (by simp [withSignal])
    refine ht.of_withSignal hm hmoves rfl (refl_of _ _) ?_
    have hsignal :=
      congrArg Signal.format (signal_withSignal_self m.store ⟨name, format, role, init⟩)
    rcases hformat with ⟨g, hg⟩ | ⟨sg, w, hw, hg⟩
    · exact .real (hsignal.trans hg)
    · exact .full hw (hsignal.trans hg)
  · exact .of_error hrun (refl_of _ m) trivial

theorem intFormat_full {width : Nat} {signedness : Signedness} {f : Format R}
    (h : intFormat name width signedness = .ok f) : FormatFull f := by
  unfold intFormat at h
  split at h
  · cases h
  · rename_i hw
    obtain rfl := Except.ok.inj h
    exact .inr ⟨signedness, width, Nat.pos_of_ne_zero hw, rfl⟩

/-- A check does not change the model. -/
theorem AddsSignal.check_bind {ε α : Type} {f : ε → Error} {x : Except ε α}
    {y : α → Edit R SignalId} (h : ∀ a, x = .ok a → AddsSignal rounding m (y a)) :
    AddsSignal rounding m (check f x >>= y) := by
  refine (Ensures.of_kept (check_ensures f x)).bind fun a t _ ht => ?_
  obtain ⟨rfl, ha⟩ := ht
  exact h a ha

theorem addDigitalInput_adds (name : String) (width : Nat) (signedness : Signedness) :
    AddsSignal rounding m (addDigitalInput name width signedness) :=
  .check_bind fun _ hf => addRawSignal_adds name (intFormat_full hf) .input none

theorem addDigital_adds (name : String) (width : Nat) (signedness : Signedness) (init : Int)
    (role : Role R) : AddsSignal rounding m (addDigital name width signedness init role) :=
  .check_bind fun _ hf => .check_bind fun _ _ => addRawSignal_adds name (intFormat_full hf) role _

/-- A warning changes nothing else. -/
theorem moves_report (m : Model R) (d : Diagnostic) :
    m.Moves rounding G { m with diagnostics := m.diagnostics ++ [d] } :=
  ⟨refl_of G m.store, List.prefix_rfl, fun h => { h with }, fun _ => id⟩

theorem addParam_adds (name : String) {format : Format R} (hformat : FormatFull format)
    (default : Value R) : AddsSignal rounding m (addParam name format default) := by
  refine (addRawSignal_adds name hformat _ none).bind fun x m' _ hx => ?_
  split
  · exact Ensures.of_ok rfl (keeps_of_grown (moves_report m' _)) hx
  · exact Ensures.pure hx

/-- A bound name has the format of its expression. Once its signal is added, it is driven as well.
-/
theorem bindName_adds (hm : m.WellFormed rounding) (name : String) (ho : o.Valid m.store) :
    AddsSignal rounding m (bindName name o) := by
  unfold bindName
  refine (ensures_keeps (Edit.build_ensures (fun _ _ => Grown.advances)
    (Build.operand_ensures hm.store ho))).bind fun e m₁ h₁ he => ?_
  obtain ⟨⟨he, -⟩, -⟩ := he
  have hm₁ := h₁.moves.wellFormed hm
  refine Ensures.get_bind ?_
  rcases addRawSignal_cases m₁ name (m₁.store.format e) .internal none with hadd | ⟨err, hadd⟩
  · have h₂ : m₁.Moves rounding (Advances rounding) _ :=
      ((addRawSignal_ensures _ _ _ _).elim_ok hadd).1
    generalize hm₂ : ({ m₁ with store := m₁.store.withSignal _ } : Model R) = m₂ at hadd h₂
    have hstore : m₂.store = m₁.store.withSignal _ := congrArg Model.store hm₂.symm
    have hext := (h₂.store hm₁.store).1
    have hx : m₁.store.signals.size < m₂.store.signals.size := by
      rw [hstore]
      simp [withSignal]
    have hsignal : m₂.store.signal m₁.store.signals.size =
        ⟨name, m₁.store.format e, .internal, none⟩ := by
      rw [hstore, signal_withSignal_self]
    have hfresh : m₁.store.signals.size ∉ m₂.assignments.keys := by
      rw [← hm₂]
      exact hm₁.fresh
    obtain ⟨m₃, hset⟩ := setThisCycle_fresh (e := e) (by rw [hsignal]; rfl) hfresh
      (by rw [hext.format_eq he, hsignal])
    obtain ⟨h₃, _, rfl, hassign, -⟩ := (setThisCycle_ensures (o := .node e) (h₂.wellFormed hm₁) hx
      (he.trans_le hext.size_le) true).elim_ok hset
    have hext₃ := h₃.store.toExtends
    refine .of_ok ((outcome_bind_ok hadd).trans (outcome_bind_ok hset))
      ⟨trans_of _ h₂ (keeps_of_grown h₃).moves, fun _ ht => ?_⟩ (hx.trans_le hext₃.signals_le)
    refine ht.of_withSignal hm₁ (trans_of _ h₂ (keeps_of_grown h₃).moves) hstore h₃ ?_
    refine .bound hassign (fun y hy => ?_) ?_
    · rw [(h₂.wellFormed hm₁).store.mem_signalsIn_extends hext₃ (he.trans_le hext.size_le),
        hm₁.store.mem_signalsIn_extends hext he] at hy
      exact hm₁.store.signalsIn_lt he y hy
    · rw [hext₃.format_eq (he.trans_le hext.size_le), hext.format_eq he, hext₃.signal_eq _ hx,
        hsignal]
  · exact .of_error (outcome_bind_error hadd) (refl_of _ m₁) trivial

end Model

end MixedSignal
