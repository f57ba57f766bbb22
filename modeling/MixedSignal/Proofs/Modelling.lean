import MixedSignal.Proofs.BlockEffects

/-!
# Models that can be built

`Operation` lists what a user may ask of a model. Operations may fail, and what they have changed by
then stays. Every model that a sequence of operations leads to is well formed. If moreover reals
become integers only with a width, and integer signals come from operations that keep their values
in their formats (`Model.Regular`), then the values of all signals are kept in their formats.
-/

set_option linter.unusedSectionVars false

namespace MixedSignal

variable {R : Type} [Scalar R]

/-- What a user may ask of a model. -/
inductive Operation (R : Type) where
  | construct (c : Call R)
  | solve (equations : List Equation) (roles : SystemRoles)
  | analogInput (name : String)
  | analogOutput (name : String) (init : R)
  | analogState (name : String) (range init : R)
  | analogParam (name : String) (range default : R)
  | digitalInput (name : String) (width : Nat) (signedness : Signedness)
  | digitalOutput (name : String) (width : Nat) (signedness : Signedness) (init : Int)
  | digitalState (name : String) (width : Nat) (signedness : Signedness) (init : Int)
  | digitalParam (name : String) (width : Nat) (signedness : Signedness) (default : Int)
  | signal (name : String) (format : Format R)
  | unknown (name : String)
  | signalNamed (name : String)
  | thisCycle (x : SignalId) (expr : Operand R) (checked : Bool)
  | nextCycle (x : SignalId) (expr : Operand R) (clocking : Clocking) (checked : Bool)
  | bindName (name : String) (expr : Operand R)
  | probe (x : SignalId)
  | equationSystem (equations : List Equation) (given : Model.PartialRoles) (clocking : Clocking)
  | discreteSystem (system : ModalSystem R) (inputs states outputs : List SignalId)
    (mode : Option NodeId) (clocking : Clocking)
  | counter (name : String) (width : Nat) (init : Int) (wrap : Bool) (clocking : Clocking)
  | history (x : SignalId) (length : Nat) (clocking : Clocking)
  | delay (x : SignalId) (cycles : UInt64) (clocking : Clocking)
  | delayTime (x : SignalId) (time : R) (clocking : Clocking)
  | transferFunction (input output : SignalId) (num den : List R) (clocking : Clocking)
  | fromTable (output : SignalId) (name : String) (table : Table R) (address : Operand R)

namespace Operation

open Store Model

/-- The operation as an edit. -/
def perform [Numerics R] : Operation R → Edit R Unit
  | construct c => Edit.build c.run
  | solve equations roles =>
    discard (Edit.onStore (Solving.systemWith Numerics.solve? equations roles))
  | analogInput name => discard (addAnalogInput name)
  | analogOutput name init => discard (addAnalogOutput name init)
  | analogState name range init => discard (addAnalogState name range init)
  | analogParam name range default => discard (addAnalogParam name range default)
  | digitalInput name width signedness => discard (addDigitalInput name width signedness)
  | digitalOutput name width signedness init =>
    discard (addDigitalOutput name width signedness init)
  | digitalState name width signedness init => discard (addDigitalState name width signedness init)
  | digitalParam name width signedness default =>
    discard (addDigitalParam name width signedness default)
  | signal name format => discard (Model.addSignal name format)
  | unknown name => discard (addVariable name)
  | signalNamed name => discard (Model.signalNamed name)
  | thisCycle x expr checked => setThisCycle x expr checked
  | nextCycle x expr clocking checked => setNextCycle x expr clocking checked
  | bindName name expr => discard (Model.bindName name expr)
  | probe x => addProbe x
  | equationSystem equations given clocking => addEquations equations given clocking
  | discreteSystem system inputs states outputs mode clocking =>
    addDiscreteSystem system inputs states outputs mode clocking
  | counter name width init wrap clocking => discard (addCounter name width init wrap clocking)
  | history x length clocking => discard (makeHistory x length clocking)
  | delay x cycles clocking => discard (Model.delay x cycles clocking)
  | delayTime x time clocking => discard (Model.delayTime x time clocking)
  | transferFunction input output num den clocking =>
    setTransferFunction input output num den clocking
  | fromTable output name table address => setFromTable output name table address

/-- The signals and expressions that the operation refers to. -/
def operands : Operation R → List (Operand R)
  | construct c => c.operands
  | solve equations _ => equations.flatMap fun e => [.node e.lhs, .node e.rhs]
  | thisCycle x expr _ => [.signal x, expr]
  | nextCycle x expr clocking _ => [.signal x, expr] ++ clocking.signals.map .signal
  | bindName _ expr => [expr]
  | probe x => [.signal x]
  | equationSystem equations given clocking =>
    (equations.flatMap fun e => [.node e.lhs, .node e.rhs]) ++
      ([given.inputs, given.states, given.outputs, given.selectors].filterMap id).flatten.map
        .signal ++ clocking.signals.map .signal
  | discreteSystem _ inputs states outputs mode clocking =>
    (inputs ++ states ++ outputs).map .signal ++ mode.toList.map .node ++
      clocking.signals.map .signal
  | counter _ _ _ _ clocking => clocking.signals.map .signal
  | history x _ clocking | delay x _ clocking | delayTime x _ clocking =>
    .signal x :: clocking.signals.map .signal
  | transferFunction input output _ _ clocking =>
    [.signal input, .signal output] ++ clocking.signals.map .signal
  | fromTable output _ _ address => [.signal output, address]
  | _ => []

/-- Everything that the operation refers to exists. -/
def Valid (m : Model R) (op : Operation R) : Prop := ∀ o ∈ op.operands, o.Valid m.store

instance (m : Model R) (op : Operation R) : Decidable (op.Valid m) :=
  inferInstanceAs (Decidable (∀ o ∈ op.operands, o.Valid m.store))

/-- The rounding allows what conversions of the operation make of reals. -/
def Rounds (rounding : Rounding R) (m : Model R) : Operation R → Prop
  | construct c => c.Rounds rounding m.store
  | _ => True

/-- A real is converted to an integer only with a width. -/
def Explicit (m : Model R) : Operation R → Prop
  | construct c => c.Explicit m.store
  | _ => True

/-- Whether the values of the signals that the operation adds are kept in their formats. -/
def addsTraced : Operation R → Bool
  | digitalInput .. | digitalOutput .. | digitalState .. | digitalParam .. | counter ..
  | bindName .. => true
  | _ => false

/-- Whether the operation adds registers that repeat a signal. Their values are kept in their
formats if it succeeds. -/
def repeats : Operation R → Bool
  | history .. | delay .. | delayTime .. | transferFunction .. => true
  | _ => false

theorem rounds_any (m : Model R) (op : Operation R) : op.Rounds Rounding.any m := by
  cases op with
  | construct c => exact c.rounds_any m.store
  | _ => trivial

variable {m : Model R}

/-- Whether the operation checks the formats of what it assigns. -/
def checked : Operation R → Bool
  | thisCycle _ _ checked | nextCycle _ _ _ checked => checked
  | _ => true

/-- The control signals of the registers that the operation makes. -/
def clocking : Operation R → Clocking
  | nextCycle _ _ clocking _ | equationSystem _ _ clocking | discreteSystem _ _ _ _ _ clocking
  | counter _ _ _ _ clocking | history _ _ clocking | delay _ _ clocking | delayTime _ _ clocking
  | transferFunction _ _ _ _ clocking => clocking
  | _ => {}

theorem Valid.clocking_known {op : Operation R} (hv : op.Valid m) : op.clocking.Known m.store := by
  intro x hx
  refine hv (.signal x) ?_
  cases op with
  | nextCycle | equationSystem | discreteSystem | counter | history | delay | delayTime
  | transferFunction =>
    have hx := List.mem_map_of_mem (f := Operand.signal (R := R)) hx
    simp only [operands, List.mem_append, List.mem_cons]
    tauto
  | _ => exact absurd hx (by simp [clocking, Clocking.signals])

theorem known_of_valid {equations : List Equation}
    (h : ∀ o ∈ equations.flatMap fun e => [Operand.node e.lhs, .node e.rhs], o.Valid m.store) :
    Solving.Known m.store equations := by
  intro e he
  exact ⟨h (.node e.lhs) (List.mem_flatMap.2 ⟨e, he, by simp⟩),
    h (.node e.rhs) (List.mem_flatMap.2 ⟨e, he, by simp⟩)⟩

theorem Valid.equations {equations : List Equation} {given : PartialRoles} {clocking : Clocking}
    (hv : (equationSystem equations given clocking : Operation R).Valid m) :
    Solving.Known m.store equations ∧ given.Known m.store := by
  refine ⟨known_of_valid fun o ho => hv o ?_, fun xs hxs l hl x hx => hv (.signal x) ?_⟩
  · exact List.mem_append_left _ (List.mem_append_left _ ho)
  · exact List.mem_append_left _ (List.mem_append_right _ (List.mem_map_of_mem
      (List.mem_flatten.2 ⟨l, List.mem_filterMap.2 ⟨xs, hxs, hl⟩, hx⟩)))

theorem Valid.system {system : ModalSystem R} {inputs states outputs : List SignalId}
    {mode : Option NodeId} {clocking : Clocking}
    (hv : (discreteSystem system inputs states outputs mode clocking).Valid m) :
    (∀ x ∈ inputs, x < m.store.signals.size) ∧ (∀ x ∈ states, x < m.store.signals.size) ∧
      (∀ x ∈ outputs, x < m.store.signals.size) ∧ ∀ i ∈ mode, i < m.store.nodes.size := by
  refine ⟨fun x hx => hv (.signal x) ?_, fun x hx => hv (.signal x) ?_,
    fun x hx => hv (.signal x) ?_, fun i hi => hv (.node i) ?_⟩
  · simp [operands, hx]
  · simp [operands, hx]
  · simp [operands, hx]
  · simp [operands, Option.mem_def.1 hi]

variable [Numerics R] {rounding : Rounding R}

/-- Whether it succeeds or fails, an operation only adds to a model. -/
theorem perform_adds (hm : m.WellFormed rounding) {op : Operation R} (hv : op.Valid m)
    (hr : op.Rounds rounding m) :
    m.AddsSome rounding op.checked op.clocking (outcome op.perform m).2 := by
  have hc := hv.clocking_known
  have hsignal : ∀ {x : SignalId}, Operand.signal x ∈ op.operands → x < m.store.signals.size :=
    fun hx => hv _ hx
  suffices h : m.OnlyAdds rounding op.checked op.clocking op.perform from Ends.iff_final.1 h
  cases op with
  | construct c =>
    exact Ends.iff_final.2 (Adds.of_advances hm (Call.run_advances hm.store hv hr))
  | solve equations roles =>
    exact OnlyAdds.discard ((Edit.onStore_ends _ _
      (Solving.systemWith_ensures hm.store _ (known_of_valid hv) roles)).imp
        (fun _ h => h.1.some) fun _ _ h => h.1.some)
  | analogInput | analogOutput | signal | unknown =>
    exact (addRawSignal_onlyAdds _ _ _ _).discard
  | analogState name range init =>
    exact OnlyAdds.discard (.check_bind fun _ => .check_bind fun _ => addRawSignal_onlyAdds _ _ _ _)
  | analogParam | digitalParam =>
    exact OnlyAdds.discard (.check_bind fun f => addParam_onlyAdds hm hc _ f _)
  | digitalInput => exact OnlyAdds.discard (.check_bind fun _ => addRawSignal_onlyAdds _ _ _ _)
  | digitalOutput | digitalState => exact (addDigital_onlyAdds _ _ _ _ _).discard
  | signalNamed name =>
    refine OnlyAdds.discard (Ends.iff_final.2 ?_)
    have hlookup : Ensures Eq (Build.signalNamed name) m.store (fun _ => True)
        fun _ _ => True := by
      refine Ensures.get_bind ?_
      split
      · exact Ensures.pure trivial
      · exact Ensures.throw trivial
    exact Adds.of_advances hm (hlookup.moved ▸ refl_of (Advances rounding) m.store)
  | thisCycle x expr checked =>
    exact (setThisCycle_ends hm hc (hsignal (by simp [operands])) (hv expr (by simp [operands]))
      checked).imp (fun _ h => h.1.some) fun _ _ h => h.some
  | nextCycle x expr clocking checked =>
    exact (setNextCycle_ends hm hc (hsignal (by simp [operands])) (hv expr (by simp [operands]))
      checked).imp (fun _ h => h.some) fun _ _ h => h.some
  | bindName name expr =>
    exact (bindName_onlyAdds hm hc name (hv expr (by simp [operands]))).discard
  | probe x =>
    refine Ends.iff_final.2 ?_
    change m.AddsSome rounding _ _ (if _ then m else _)
    split
    · exact (Adds.refl m).some
    · have hmoves : m.Moves rounding (Advances rounding) { m with probes := m.probes ++ [x] } := by
        refine ⟨refl_of _ m.store, List.prefix_rfl, fun h => { h with }, fun _ hp y hy => ?_⟩
        rcases List.mem_append.1 hy with hy | hy
        · exact hp y hy
        · obtain rfl := List.mem_singleton.1 hy
          exact hsignal (by simp [operands])
      exact (Adds.of_eq hmoves rfl rfl rfl).some
  | delayTime x time clocking =>
    refine OnlyAdds.discard ((Ends.of_kept timestep_ensures).bind
      (fun _ h => (Adds.of_kept h.1).some) fun dt t ht => ?_)
    obtain ⟨rfl, -⟩ := ht
    simp only
    split
    · exact .throw_bind (Adds.refl t).some
    · exact (delay_ends hm hc (hsignal (by simp [operands])) _).imp (fun _ h => h.some)
        fun _ _ h => h.adds.some
  | equationSystem equations given clocking =>
    exact (addEquations_ends hm hc hv.equations.1 hv.equations.2).imp
      (fun _ h => h.elim Adds.some LeavesDriven.some) fun _ _ h => h.some
  | discreteSystem system inputs states outputs mode clocking =>
    obtain ⟨hinputs, hstates, houtputs, hmode⟩ := hv.system
    exact (addDiscreteSystem_ends hm hc system hinputs hstates houtputs hmode).imp
      (fun _ h => h.elim Adds.some LeavesDriven.some) fun _ _ h => h.some
  | counter name width init wrap clocking =>
    exact OnlyAdds.discard ((addCounter_ends hm hc name width init wrap).imp
      (fun _ h => h.elim Adds.some fun h => h.2.some) fun _ _ h => h.2.some)
  | history x length clocking =>
    exact OnlyAdds.discard ((makeHistory_ends hm hc (hsignal (by simp [operands])) length).imp
      (fun _ h => h.some) fun _ _ h => h.1.adds.some)
  | delay x cycles clocking =>
    exact OnlyAdds.discard ((delay_ends hm hc (hsignal (by simp [operands])) cycles).imp
      (fun _ h => h.some) fun _ _ h => h.adds.some)
  | transferFunction input output num den clocking =>
    refine (setTransferFunction_ends hm hc (hsignal (by simp [operands]))
      (hsignal (by simp [operands])) num den).imp ?_ fun _ _ ⟨_, _, h⟩ => h.some
    rintro m' (h | ⟨_, _, _, _, h⟩)
    · exact h.some
    · exact h.some hm hc
  | fromTable output name table address =>
    exact (setFromTable_ends hm hc (hsignal (by simp [operands])) name table
      (hv address (by simp [operands]))).imp (fun _ h => h.elim Adds.some fun h => h.1.some)
      fun _ _ h => h.some

/-- Registers that repeat a signal are kept in their formats if they are all made. -/
theorem perform_ensures (hm : m.WellFormed rounding) {op : Operation R} (hv : op.Valid m)
    (hr : op.Rounds rounding m) :
    MovesTo rounding m op.perform fun _ m' =>
      op.repeats = true → m.Traced → m'.Traced := by
  have hsignal : ∀ {x : SignalId}, Operand.signal x ∈ op.operands → x < m.store.signals.size :=
    fun hx => hv _ hx
  cases op with
  | history x length clocking =>
    exact (makeHistory_traced hm (hsignal (by simp [operands])) length clocking).map
      fun _ _ _ hx _ => hx.2
  | delay x cycles clocking =>
    exact (delay_traced hm (hsignal (by simp [operands])) cycles clocking).map
      fun _ _ _ hx _ => hx.2
  | delayTime x time clocking =>
    exact (delayTime_traced hm (hsignal (by simp [operands])) time clocking).map
      fun _ _ _ hx _ => hx.2
  | transferFunction input output num den clocking =>
    exact (setTransferFunction_ensures hm (hsignal (by simp [operands]))
      (hsignal (by simp [operands])) num den clocking).imp fun _ _ _ ht _ => ht
  | _ =>
    obtain ⟨_, _, _, hadds⟩ := perform_adds hm hv hr
    exact (Ensures.of_moved hadds.moves).imp fun _ _ _ _ hrepeats => by cases hrepeats

/-- Whether they succeed or fail, these operations keep the values of all signals in their formats.
-/
theorem perform_keeps (hm : m.WellFormed rounding) {op : Operation R} (hv : op.Valid m)
    (hop : op.addsTraced = true) : m.Keeps rounding (outcome op.perform m).2 := by
  have hadds : ∀ {x : Edit R SignalId}, AddsSignal rounding m x →
      m.Keeps rounding (outcome (discard x) m).2 := fun h =>
    (h.map (Q := fun _ _ => True) fun _ _ _ _ => trivial).moved
  cases op with
  | digitalInput name width signedness => exact hadds (addDigitalInput_adds name width signedness)
  | digitalOutput name width signedness init =>
    exact hadds (addDigital_adds name width signedness init .output)
  | digitalState name width signedness init =>
    exact hadds (addDigital_adds name width signedness init .internal)
  | digitalParam name width signedness default =>
    exact hadds (.check_bind fun f hf => addParam_adds name (intFormat_full hf) _)
  | counter name width init wrap clocking =>
    have hkeeps : ∀ {driven : List SignalId} {m' : Model R}, 0 < width ∧ m.Adds rounding true
        clocking [counterSignal name width init] driven [] m' → m.Keeps rounding m' := fun h =>
      h.2.keeps (by simpa using .inr ⟨.unsigned, width, h.1, rfl⟩)
    exact Ends.iff_final.1 (((addCounter_ends hm hv.clocking_known name width init wrap).imp
      (fun _ h => h.elim (fun h => h.keeps (by simp)) hkeeps) fun _ _ => hkeeps).map fun _ _ => id)
  | bindName name expr => exact hadds (bindName_adds hm name (hv expr (by simp [operands])))
  | _ => cases hop

end Operation

namespace Model

open Store

variable [Numerics R] {rounding : Rounding R}

/-- Some sequence of allowed operations makes the model from an empty one. Operations may fail. -/
inductive Built (allowed : Model R → Operation R → Prop) : Model R → Prop
  | new {name dt m} (h : ofName name dt = .ok m) : Built allowed m
  | perform {m} (h : Built allowed m) (op : Operation R) (hv : op.Valid m) (ha : allowed m op) :
    Built allowed (outcome op.perform m).2

variable {m : Model R} {allowed : Model R → Operation R → Prop}

/-- The model that operations lead to. -/
def performAll (m : Model R) : List (Operation R) → Model R
  | [] => m
  | op :: ops => (outcome op.perform m).2.performAll ops

/-- Each operation is allowed when its turn comes. -/
def AllowsAll (allowed : Model R → Operation R → Prop) (m : Model R) : List (Operation R) → Prop
  | [] => True
  | op :: ops => op.Valid m ∧ allowed m op ∧ AllowsAll allowed (outcome op.perform m).2 ops

instance [∀ m op, Decidable (allowed m op)] :
    (m : Model R) → (ops : List (Operation R)) → Decidable (AllowsAll allowed m ops)
  | _, [] => inferInstanceAs (Decidable True)
  | m, op :: ops =>
    have : Decidable (AllowsAll allowed (outcome op.perform m).2 ops) :=
      instDecidableAllowsAll (outcome op.perform m).2 ops
    inferInstanceAs
      (Decidable (op.Valid m ∧ allowed m op ∧ AllowsAll allowed (outcome op.perform m).2 ops))

theorem Built.performAll (h : Built allowed m) {ops : List (Operation R)}
    (hops : AllowsAll allowed m ops) : Built allowed (m.performAll ops) := by
  induction ops generalizing m with
  | nil => exact h
  | cons op ops ih => exact ih (h.perform op hops.1 hops.2.1) hops.2.2

theorem Built.ofOperations {name : String} {dt : Option R} {ops : List (Operation R)}
    (h : Identifier.isValid name = true ∧ AllowsAll allowed { name, dt } ops) :
    Built allowed (Model.performAll { name, dt } ops) :=
  (Built.new (if_pos h.1)).performAll h.2

theorem performAll_moves (hm : m.WellFormed Rounding.any) {ops : List (Operation R)}
    (hops : AllowsAll allowed m ops) :
    m.Moves Rounding.any (Advances Rounding.any) (m.performAll ops) := by
  induction ops generalizing m with
  | nil => exact refl_of _ m
  | cons op ops ih =>
    have hmoved := (op.perform_ensures hm hops.1 (op.rounds_any m)).moved
    exact trans_of _ hmoved (ih (hmoved.wellFormed hm) hops.2.2)

theorem Built.wellFormed (hr : ∀ m op, allowed m op → op.Rounds rounding m) (h : Built allowed m) :
    m.WellFormed rounding := by
  induction h with
  | new h => exact wellFormed_ofName h
  | perform _ op hv ha ih => exact (op.perform_ensures ih hv (hr _ op ha)).moved.wellFormed ih

theorem Built.wellFormed_any (h : Built allowed m) : m.WellFormed Rounding.any :=
  h.wellFormed fun m op _ => op.rounds_any m

theorem Built.probed (h : Built allowed m) : m.Probed := by
  induction h with
  | new h =>
    obtain rfl := eq_of_ofName h
    exact fun _ => by simp
  | @perform m h op hv _ ih =>
    have hm := h.wellFormed_any
    exact (op.perform_ensures hm hv (op.rounds_any m)).moved.probed hm ih

/-- The operation converts reals to integers only with a width. It adds no integer signals, or it
keeps their values in their formats. If it adds registers that repeat a signal, it has to succeed.
-/
structure Regular (m : Model R) (op : Operation R) : Prop where
  explicit : op.Explicit m
  traced : (∀ x, m.store.signals.size ≤ x → x < (outcome op.perform m).2.store.signals.size →
      ((outcome op.perform m).2.store.signal x).format.domain = .real) ∨
    op.addsTraced = true ∨ op.repeats = true ∧ (outcome op.perform m).1.isOk = true

theorem Regular.rounds {op : Operation R} (h : m.Regular op) :
    op.Rounds Rounding.explicit m := by
  have hexplicit := h.explicit
  cases op with
  | construct c => exact hexplicit.rounds
  | _ => trivial

theorem Built.traced (h : Built Regular m) : m.Traced := by
  induction h with
  | new h =>
    intro x hx
    rw [eq_of_ofName h] at hx
    exact absurd hx (by simp)
  | @perform m hb op hv ha ih =>
    have hm := hb.wellFormed fun _ _ h => h.rounds
    have hop := op.perform_ensures hm hv ha.rounds
    have hmoves := hop.moved
    rcases ha.traced with hreal | hadds | ⟨hrepeats, hok⟩
    · intro x hx
      by_cases hlt : x < m.store.signals.size
      · exact (ih x hlt).of_moves hm hmoves (hmoves.store hm.store).1 hlt
      · have hdomain := hreal x (not_lt.1 hlt) hx
        cases hf : ((outcome op.perform m).2.store.signal x).format with
        | real f => exact .real hf
        | int f =>
          rw [hf] at hdomain
          exact absurd hdomain (Format.int_domain_ne_real f)
    · exact (op.perform_keeps hm hv hadds).traced hm ih
    · cases hout : outcome op.perform m with
      | mk r m' =>
        rw [hout] at hok
        cases r with
        | ok u => exact (hop.elim_ok hout).2 hrepeats ih
        | error e => cases hok

end Model

end MixedSignal
