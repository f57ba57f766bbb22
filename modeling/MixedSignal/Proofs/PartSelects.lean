import Mathlib
import MixedSignal.Proofs.StraightLine

/-!
# Part selects

A slice is written as a part select of the name of its operand. `Verilog.Module.Declares` says in
which shape a module declares a name that holds an integer: as a packed vector of some width, or as
a scalar. Names have one shape each. Signals and the results of all nodes but comparisons are
vectors of the width of their formats, so that a part select stays within them. The result of a
comparison is a scalar, and a part select of it is none that the language allows.
-/

set_option linter.unusedSectionVars false

namespace MixedSignal

variable {R : Type} [Scalar R] {a : NodeId} {f : IntFormat}

open Dependency

namespace NodeKind

/-- The operand and the bits of a slice. -/
def slice? : NodeKind R → Option (NodeId × Nat × Nat)
  | .slice a msb lsb => some (a, msb, lsb)
  | _ => none

/-- The operator and the operands of a comparison. -/
def compare? : NodeKind R → Option (CompareOp × NodeId × NodeId)
  | .compare op a b => some (op, a, b)
  | _ => none

variable {kind : NodeKind R}

theorem slice?_eq_some {msb lsb : Nat} :
    kind.slice? = some (a, msb, lsb) ↔ kind = .slice a msb lsb := by
  cases kind <;> simp [slice?]

theorem compare?_eq_some {op : CompareOp} {b : NodeId} :
    kind.compare? = some (op, a, b) ↔ kind = .compare op a b := by
  cases kind <;> simp [compare?]

end NodeKind

namespace Verilog

/-! ## Shapes of names -/

/-- How a name that holds an integer is declared. -/
inductive Shape where
  | vector (width : Nat)
  | scalar
  deriving DecidableEq, Repr

namespace Statement

/-- The integer that a statement declares, with its shape. A macro that rounds a real is given the
width of its result, a macro that compares reals is given none. -/
def shape? : Statement R → Option (String × Shape)
  | declareInt name r => some (name, .vector r.width)
  | realToInt _ width out => some (out, .vector width)
  | declareBit name | compareReal _ _ _ name => some (name, .scalar)
  | _ => none

/-- The name and the bits that a part select reads. -/
def partSelect? : Statement R → Option (String × Nat × Nat)
  | assign _ (.slice x msb lsb) => some (x, msb, lsb)
  | _ => none

theorem declared?_of_shape? {t : Statement R} {x : String} {shape : Shape}
    (h : t.shape? = some (x, shape)) : t.declared? = some x := by
  cases t with
  | declareInt | realToInt | declareBit | compareReal =>
    cases h
    rfl
  | _ => cases h

theorem driven?_of_partSelect? {t : Statement R} {x : String} {msb lsb : Nat}
    (h : t.partSelect? = some (x, msb, lsb)) : t.driven? ≠ none := by
  cases t with
  | assign => simp [driven?]
  | _ => cases h

end Statement

def Pin.shape? : Pin → Option (String × Shape)
  | inputInt name r | outputInt name r => some (name, .vector r.width)
  | inputReal _ | outputReal _ => none

def Parameter.shape? : Parameter R → Option (String × Shape)
  | int name default => some (name, .vector default.repr.width)
  | format _ | real _ _ => none

/-- The module declares the name in this shape. -/
def Module.Declares (module : Module R) (x : String) (shape : Shape) : Prop :=
  (∃ p ∈ module.pins, p.shape? = some (x, shape)) ∨
  (∃ p ∈ module.parameters, p.shape? = some (x, shape)) ∨
  ∃ t ∈ module.blocks.flatten, t.shape? = some (x, shape)

/-- The shape of the result of a node on integers. -/
def resultShape (width : Nat) : NodeKind R → Shape
  | .compare .. => .scalar
  | _ => .vector width

theorem resultShape_eq_vector {kind : NodeKind R} (h : ∀ op a b, kind ≠ .compare op a b)
    (width : Nat) : resultShape width kind = .vector width := by
  cases kind with
  | compare op a b => exact absurd rfl (h op a b)
  | _ => rfl

/-! ## Code of nodes -/

section

variable {rounding : Rounding R} {s : Store R} {realWidth : Nat} {naming naming' : Naming}
  {kind : NodeKind R} {op : ArithOp} {order : CompareOp} {partialRepr repr : IntRepr}
  {found out : String} {names outs : List String} {code : List (Statement R)}

theorem Pairs.no_partSelect (h : Pairs op names outs code) : ∀ t ∈ code, t.partSelect? = none := by
  induction h with
  | nil | odd => simp
  | pair _ ih => exact List.forall_mem_cons.2 ⟨rfl, ih⟩

theorem Tree.no_partSelect (h : Tree op names out code) : ∀ t ∈ code, t.partSelect? = none := by
  induction h with
  | leaf => simp
  | round hpairs _ ih =>
    exact fun t ht => (List.mem_append.1 ht).elim (hpairs.no_partSelect t) (ih t)

theorem Chain.no_partSelect (h : Chain order partialRepr repr found names out code) :
    ∀ t ∈ code, t.partSelect? = none := by
  induction h with
  | last => simp [Statement.partSelect?]
  | next _ ih => exact List.forall_mem_cons.2 ⟨rfl, List.forall_mem_cons.2 ⟨rfl, ih⟩⟩

/-- The result of a chain of comparisons is a vector. -/
theorem Chain.shape (h : Chain order partialRepr repr found names out code) :
    ∃ t ∈ code, t.shape? = some (out, .vector repr.width) := by
  induction h with
  | last => exact ⟨_, List.mem_cons_self, rfl⟩
  | next _ ih =>
    obtain ⟨t, ht, hshape⟩ := ih
    exact ⟨t, by simp [ht], hshape⟩

theorem entryCode_no_partSelect {values entries : List String} :
    ∀ t ∈ entryCode (R := R) out values entries, t.partSelect? = none := by
  intro t ht
  obtain ⟨⟨value, entry⟩, -, ht⟩ := List.mem_flatMap.1 ht
  simp only [List.mem_cons, List.not_mem_nil, or_false] at ht
  rcases ht with rfl | rfl <;> rfl

/-- Only slices are written as part selects, of the names of their operands. -/
theorem NodeCode.partSelect {f : Format R} (h : NodeCode s realWidth naming kind f out code)
    {t : Statement R} (ht : t ∈ code) {x : String} {msb lsb : Nat}
    (hselect : t.partSelect? = some (x, msb, lsb)) :
    ∃ a, kind = .slice a msb lsb ∧ naming a = some x := by
  have hnone : ∀ {t : Statement R}, t.partSelect? = some (x, msb, lsb) →
      ¬t.partSelect? = none := by
    intro t hsome hnone
    rw [hsome] at hnone
    cases hnone
  cases h with
  | signal => simp at ht
  | scaled _ _ htree =>
    rcases List.mem_append.1 ht with ht | ht
    · exact absurd (htree.no_partSelect t ht) (hnone hselect)
    · rw [List.mem_singleton.1 ht] at hselect
      cases hselect
  | tree _ _ _ htree => exact absurd (htree.no_partSelect t ht) (hnone hselect)
  | extremum _ _ hchain => exact absurd (hchain.no_partSelect t ht) (hnone hselect)
  | int hsource =>
    rcases List.mem_pair.1 ht with rfl | rfl
    · cases hselect
    · cases hsource with
      | slice ha =>
        cases hselect
        exact ⟨_, rfl, ha⟩
      | _ => cases hselect
  | selectReal =>
    rcases List.mem_append.1 ht with ht | ht
    · rcases List.mem_cons.1 ht with rfl | ht
      · cases hselect
      · exact absurd (entryCode_no_partSelect t ht) (hnone hselect)
    · rw [List.mem_singleton.1 ht] at hselect
      cases hselect
  | constInt | compareInt | selectInt =>
    rcases List.mem_pair.1 ht with rfl | rfl <;> cases hselect
  | constReal | compareReal | intToReal | realToInt =>
    rw [List.mem_singleton.1 ht] at hselect
    cases hselect

theorem NodeCode.exists_partSelect {msb lsb : Nat} {f : Format R}
    (h : NodeCode s realWidth naming (.slice a msb lsb) f out code) :
    ∃ t ∈ code, ∃ x, naming a = some x ∧ t.partSelect? = some (x, msb, lsb) := by
  cases h with
  | int hsource =>
    cases hsource with
    | slice ha => exact ⟨_, List.mem_cons_of_mem _ List.mem_cons_self, _, ha, rfl⟩

/-- The result of a node on integers is declared in the shape of its kind, unless it is a signal. -/
theorem NodeCode.shape (h : NodeCode s realWidth naming kind (.int f) out code)
    (ht : s.Typed rounding kind (.int f)) (hsignal : ∀ x, kind ≠ .signal x) :
    ∃ t ∈ code, t.shape? = some (out, resultShape f.width kind) := by
  cases h with
  | signal => exact absurd rfl (hsignal _)
  | extremum _ _ hchain => exact hchain.shape
  | int hsource =>
    refine ⟨_, List.mem_cons_self, ?_⟩
    cases hsource <;> rfl
  | intToReal => cases ht
  | constInt | compareReal | compareInt | realToInt | selectInt =>
    exact ⟨_, List.mem_cons_self, rfl⟩

/-- A name that is declared once is declared by one statement. -/
theorem eq_of_declared? (hnodup : (declaredIn code).Nodup) {t t' : Statement R} (ht : t ∈ code)
    (ht' : t' ∈ code) {x : String} (hx : t.declared? = some x) (hx' : t'.declared? = some x) :
    t = t' := by
  induction code with
  | nil => simp at ht
  | cons u code ih =>
    rw [declaredIn_cons, List.nodup_append'] at hnodup
    have hmem : ∀ {v : Statement R}, v ∈ code → v.declared? = some x → u.declared? ≠ some x :=
      fun hv hvx hux => hnodup.2.2 (Option.mem_toList.2 hux) (List.mem_filterMap.2 ⟨_, hv, hvx⟩)
    rcases List.mem_cons.1 ht with rfl | hrest
    · rcases List.mem_cons.1 ht' with rfl | hrest'
      · rfl
      · exact absurd hx (hmem hrest' hx')
    · rcases List.mem_cons.1 ht' with rfl | hrest'
      · exact absurd hx' (hmem hrest hx)
      · exact ih hnodup.2.1 hrest hrest'

/-- The code of a node reads names that are there in the end. -/
theorem Lowers.nodeCode_le {xs : List (Lowering R)} (h : Lowers s realWidth naming xs naming') :
    ∀ x ∈ xs, ∃ naming₁,
      NodeCode s realWidth naming₁ (s.kind x.node) (s.format x.node) x.name x.code ∧
      ∀ j y, naming₁ j = some y → naming' j = some y := by
  induction h with
  | nil => simp
  | @cons naming naming' x xs hnew hcode h ih =>
    refine List.forall_mem_cons.2 ⟨⟨naming, hcode, fun j y hy => h.gives ?_⟩, ih⟩
    rw [Function.update_of_ne, hy]
    rintro rfl
    rw [hnew] at hy
    cases hy

end

end Verilog

namespace Model

open Verilog

variable {rounding : Rounding R} {m : Model R} {settings : Settings}

theorem emit_pins {module : Verilog.Module R} (h : m.emit settings = .ok module) :
    module.pins = m.store.signals.toList.filterMap pin? := by
  unfold emit at h
  simp only at h
  cases hrun : ((m.assignments.values.mapM (m.assignmentBlock settings)).run.run
      { names := (paramValues m.store.signals.toList
        (.ofList (m.store.signals.toList.map (·.name)))).2 }).1 with
  | error e =>
    rw [hrun] at h
    cases h
  | ok blocks =>
    rw [hrun] at h
    obtain rfl := Except.ok.inj h
    rfl

/-- The name that drives a signal is that of the expression. -/
theorem Assigns.source_eq {naming naming' : Naming} {runs : List (Run R)}
    (h : Assigns m settings naming runs naming') :
    ∀ r ∈ runs, naming' r.assignment.expr = some r.source := by
  induction h with
  | nil => simp
  | cons _ hsource _ h ih => exact List.forall_mem_cons.2 ⟨h.lowers.gives hsource, ih⟩

namespace Assembled

variable {module : Verilog.Module R} {values : List (Signal R × String)} {runs : List (Run R)}
  {x : String} {shape : Shape} {t : Statement R} {signal : Signal R}

variable (h : m.Assembled settings module values runs)
include h

theorem mem_body :
    t ∈ module.blocks.flatten ↔ t ∈ values.filterMap paramDeclaration? ∨
      t ∈ m.store.signals.toList.filterMap (declaration? settings.realWidth) ∨
      (t ∈ codeOf (lowerings runs) ∨ ∃ r ∈ runs, t = m.drive settings r.assignment r.source) ∨
      ∃ y ∈ m.probes, m.probe y = t := by
  have hcode : codeOf (lowerings runs) = runs.flatMap fun r => codeOf r.lowerings :=
    List.flatMap_assoc
  rw [h.flatten_blocks, hcode]
  simp only [List.mem_append, List.mem_flatMap, Run.block, List.mem_singleton, List.mem_map,
    and_or_left, exists_or]

theorem mem_code (ht : t ∈ codeOf (lowerings runs)) : t ∈ module.blocks.flatten :=
  h.mem_body.2 (.inr (.inr (.inl (.inl ht))))

/-- What the body declares with a shape is an internal signal or a temporary. -/
theorem body_shape (ht : t ∈ module.blocks.flatten) (hshape : t.shape? = some (x, shape)) :
    (∃ signal ∈ m.store.signals.toList, declaration? settings.realWidth signal = some t) ∨
      t ∈ codeOf (lowerings runs) := by
  have hdeclared := Statement.declared?_of_shape? hshape
  rcases h.mem_body.1 ht with ht | ht | (ht | ⟨r, -, rfl⟩) | ⟨y, -, rfl⟩
  · obtain ⟨p, -, hp⟩ := List.mem_filterMap.1 ht
    obtain ⟨f, -, rfl⟩ := Option.map_eq_some_iff.1 hp
    cases hshape
  · exact .inl (List.mem_filterMap.1 ht)
  · exact .inr ht
  · rw [drive_declared?] at hdeclared
    cases hdeclared
  · rw [probe_declared?] at hdeclared
    cases hdeclared

end Assembled

theorem drive_partSelect? (m : Model R) (settings : Settings) (a : Assignment R) (source : String) :
    (m.drive settings a source).partSelect? = none := by
  dsimp only [drive]
  split <;> rfl

/-- The declaration that a signal adds to a module, with its shape. -/
theorem shape_of_pin? {signal : Signal R} {p : Pin} (hp : pin? signal = some p) {x : String}
    {shape : Shape} (hshape : p.shape? = some (x, shape)) :
    x = signal.name ∧ ∃ f, signal.format = .int f ∧ shape = .vector f.width := by
  unfold pin? at hp
  split at hp
  all_goals
    cases hp
    try cases hshape
  · rename_i hf
    exact ⟨rfl, _, hf, rfl⟩
  · rename_i hf
    exact ⟨rfl, _, hf, rfl⟩

theorem shape_of_parameter? {values : List (Signal R × String)} {signal : Signal R}
    {p : Parameter R} (hp : parameter? values signal = some p) {x : String} {shape : Shape}
    (hshape : p.shape? = some (x, shape)) :
    x = signal.name ∧ ∃ f, signal.format = .int f ∧ shape = .vector f.width := by
  unfold parameter? at hp
  split at hp
  · cases hp
    cases hshape
  · cases hp
    cases hshape
  · obtain ⟨v, -, rfl⟩ := Option.map_eq_some_iff.1 hp
    cases hshape
  · rename_i hf
    cases hp
    cases hshape
    exact ⟨rfl, _, hf, rfl⟩
  · cases hp

theorem shape_of_declaration? {realWidth : Nat} {signal : Signal R} {t : Statement R}
    (ht : declaration? realWidth signal = some t) {x : String} {shape : Shape}
    (hshape : t.shape? = some (x, shape)) :
    x = signal.name ∧ ∃ f, signal.format = .int f ∧ shape = .vector f.width := by
  unfold declaration? at ht
  split at ht
  · obtain rfl := Option.some.inj ht
    cases hf : signal.format with
    | real f =>
      rw [hf] at hshape
      cases hshape
    | int f =>
      rw [hf] at hshape
      cases hshape
      exact ⟨rfl, f, rfl, rfl⟩
  · cases ht

namespace Assembled

variable {module : Verilog.Module R} {values : List (Signal R × String)} {runs : List (Run R)}
  {x : String} {shape : Shape}

variable (h : m.Assembled settings module values runs)
include h

/-- What a module declares with a shape is a signal or a temporary. Signals are vectors. -/
theorem declares_cases (hpins : module.pins = m.store.signals.toList.filterMap pin?)
    (hx : module.Declares x shape) :
    (∃ signal ∈ m.store.signals.toList, x = signal.name ∧
      ∃ f, signal.format = .int f ∧ shape = .vector f.width) ∨
    ∃ t ∈ codeOf (lowerings runs), t.shape? = some (x, shape) := by
  rcases hx with ⟨p, hp, hshape⟩ | ⟨p, hp, hshape⟩ | ⟨t, ht, hshape⟩
  · rw [hpins] at hp
    obtain ⟨signal, hsignal, hp⟩ := List.mem_filterMap.1 hp
    exact .inl ⟨signal, hsignal, shape_of_pin? hp hshape⟩
  · rw [h.parameters] at hp
    obtain ⟨signal, hsignal, hp⟩ := List.mem_filterMap.1 hp
    exact .inl ⟨signal, hsignal, shape_of_parameter? hp hshape⟩
  · rcases h.body_shape ht hshape with ⟨signal, hsignal, ht⟩ | ht
    · exact .inl ⟨signal, hsignal, shape_of_declaration? ht hshape⟩
    · exact .inr ⟨t, ht, hshape⟩

/-- Names of temporaries are none of signals. -/
theorem fresh_shape {t : Statement R} (ht : t ∈ codeOf (lowerings runs))
    (hshape : t.shape? = some (x, shape)) : ∀ signal ∈ m.store.signals.toList, x ≠ signal.name := by
  rintro signal hsignal rfl
  exact h.fresh _ (List.mem_filterMap.2 ⟨t, ht, Statement.declared?_of_shape? hshape⟩)
    (List.mem_map_of_mem hsignal)

/-- An integer signal is declared as a vector, unless it is an equation variable. -/
theorem declares_signal (hm : m.WellFormed rounding)
    (hpins : module.pins = m.store.signals.toList.filterMap pin?) {y : SignalId}
    (hy : y < m.store.signals.size) (hrole : (m.store.signal y).role ≠ .auxiliary)
    (hf : (m.store.signal y).format = .int f) :
    module.Declares (m.store.signal y).name shape ↔ shape = .vector f.width := by
  have hmem := Store.signal_mem hy
  constructor
  · intro hx
    rcases h.declares_cases hpins hx with ⟨other, hother, hname, g, hg, rfl⟩ | ⟨t, ht, hshape⟩
    · obtain rfl := List.inj_on_of_nodup_map hm.names.nodup hmem hother hname
      rw [hf] at hg
      cases hg
      rfl
    · exact absurd rfl (h.fresh_shape ht hshape _ hmem)
  · rintro rfl
    cases hr : (m.store.signal y).role with
    | input =>
      refine .inl ⟨.inputInt _ f.repr, ?_, rfl⟩
      rw [hpins]
      exact List.mem_filterMap.2 ⟨_, hmem, by rw [pin?, hr, hf]⟩
    | output =>
      refine .inl ⟨.outputInt _ f.repr, ?_, rfl⟩
      rw [hpins]
      exact List.mem_filterMap.2 ⟨_, hmem, by rw [pin?, hr, hf]⟩
    | internal =>
      refine .inr (.inr ⟨.declareInt _ f.repr, h.mem_body.2 (.inr (.inl ?_)), rfl⟩)
      exact List.mem_filterMap.2 ⟨_, hmem, by rw [declaration?, hr, hf]; rfl⟩
    | param default =>
      refine .inr (.inl ⟨.int _ ⟨default.toInt, f.repr⟩, ?_, rfl⟩)
      rw [h.parameters]
      exact List.mem_filterMap.2 ⟨_, hmem, by rw [parameter?, hr, hf]⟩
    | auxiliary => exact absurd hr hrole

/-- A temporary is declared once, and so in one shape. -/
theorem declares_temporary (hpins : module.pins = m.store.signals.toList.filterMap pin?)
    {t : Statement R} (ht : t ∈ codeOf (lowerings runs)) {shape' : Shape}
    (hshape : t.shape? = some (x, shape')) : module.Declares x shape ↔ shape = shape' := by
  constructor
  · intro hx
    rcases h.declares_cases hpins hx with ⟨signal, hsignal, hname, -⟩ | ⟨t', ht', hshape'⟩
    · exact absurd hname (h.fresh_shape ht hshape signal hsignal)
    · obtain rfl := eq_of_declared? h.nodup ht ht' (Statement.declared?_of_shape? hshape)
        (Statement.declared?_of_shape? hshape')
      rw [hshape] at hshape'
      cases hshape'
      rfl
  · rintro rfl
    exact .inr (.inr ⟨t, h.mem_code ht, hshape⟩)

/-- Nodes that are lowered are parts of assigned expressions. -/
theorem exists_assignment (hm : m.WellFormed rounding) {y : Lowering R} (hy : y ∈ lowerings runs) :
    ∃ x a, m.assignment? x = some a ∧ Reaches m.store.children a.expr y.node := by
  obtain ⟨naming, hassigns⟩ := h.assigns
  obtain ⟨r, hr, hy⟩ := List.mem_flatMap.1 hy
  have ha : r.assignment ∈ m.assignments.values := h.assignments ▸ List.mem_map_of_mem hr
  exact ⟨_, _, (Simulator.mem_values_iff hm).1 ha, hassigns.reached r hr y hy⟩

theorem node_lt (hm : m.WellFormed rounding) {y : Lowering R} (hy : y ∈ lowerings runs) :
    y.node < m.store.nodes.size := by
  obtain ⟨x, a, ha, hreach⟩ := h.exists_assignment hm hy
  have hlt := (hm.valid ha).2.expr_lt
  have hmem := (hm.store.mem_occurrences_iff_reaches _ hlt).2 hreach
  exact (Store.le_of_mem_occurrences _ hmem).trans_lt hlt

/-- Signals that are lowered are no equation variables. -/
theorem role_ne_auxiliary (hm : m.WellFormed rounding) (heliminated : m.Eliminated) {y : Lowering R}
    (hy : y ∈ lowerings runs) {z : SignalId} (hkind : m.store.kind y.node = .signal z) :
    (m.store.signal z).role ≠ .auxiliary := by
  obtain ⟨x, a, ha, hreach⟩ := h.exists_assignment hm hy
  exact heliminated _ _ ha z ⟨y.node, hreach, .inl hkind⟩

/-- An integer node has a name of one shape, which depends on its kind. -/
theorem declares_node (hm : m.WellFormed rounding)
    (hpins : module.pins = m.store.signals.toList.filterMap pin?) (heliminated : m.Eliminated)
    {y : Lowering R} (hy : y ∈ lowerings runs) (hf : m.store.format y.node = .int f) :
    module.Declares y.name shape ↔ shape = resultShape f.width (m.store.kind y.node) := by
  obtain ⟨naming, hassigns⟩ := h.assigns
  obtain ⟨_, hcode⟩ := hassigns.lowers.nodeCode y hy
  have ht := hm.store.typed y.node (h.node_lt hm hy)
  rw [hf] at hcode ht
  by_cases hsignal : ∃ z, m.store.kind y.node = .signal z
  · obtain ⟨z, hkind⟩ := hsignal
    have hrole := h.role_ne_auxiliary hm heliminated hy hkind
    rw [hkind] at hcode ht ⊢
    obtain ⟨z', hz, hkind', hname, -⟩ | ⟨hother, -⟩ := hcode.name_cases
    · cases hkind'
      have hformat : (m.store.signal z).format = .int f := by
        generalize Format.int f = g at ht ⊢
        cases ht with
        | signal => rfl
      rw [hname]
      exact h.declares_signal hm hpins hz hrole hformat
    · exact absurd rfl (hother z)
  · obtain ⟨t, htmem, hshape⟩ := hcode.shape ht fun z hz => hsignal ⟨z, hz⟩
    exact h.declares_temporary hpins (List.mem_flatMap.2 ⟨y, hy, htmem⟩) hshape

/-- A part select is that of a slice, of the name of its operand. -/
theorem partSelect {t : Statement R} (ht : t ∈ module.blocks.flatten) {msb lsb : Nat}
    (hselect : t.partSelect? = some (x, msb, lsb)) :
    ∃ y ∈ lowerings runs, ∃ z ∈ lowerings runs,
      m.store.kind y.node = .slice z.node msb lsb ∧ z.name = x := by
  obtain ⟨naming, hassigns⟩ := h.assigns
  have hcode : t ∈ codeOf (lowerings runs) := by
    rcases h.mem_body.1 ht with ht | ht | (ht | ⟨r, -, rfl⟩) | ⟨y, -, rfl⟩
    · obtain ⟨p, -, hp⟩ := List.mem_filterMap.1 ht
      obtain ⟨f, -, rfl⟩ := Option.map_eq_some_iff.1 hp
      cases hselect
    · obtain ⟨signal, -, hdecl⟩ := List.mem_filterMap.1 ht
      exact absurd (declaration?_eq_some hdecl).2.2.1 (Statement.driven?_of_partSelect? hselect)
    · exact ht
    · rw [drive_partSelect?] at hselect
      cases hselect
    · exact absurd (m.probe_driven? y) (Statement.driven?_of_partSelect? hselect)
  obtain ⟨y, hy, hty⟩ := List.mem_flatMap.1 hcode
  obtain ⟨naming₁, hnode, hle⟩ := hassigns.lowers.nodeCode_le y hy
  obtain ⟨a, hkind, ha⟩ := hnode.partSelect hty hselect
  rcases hassigns.lowers.eq_some_iff.1 (hle a x ha) with hnone | ⟨z, hz, rfl, rfl⟩
  · cases hnone
  · exact ⟨y, hy, z, hz, hkind, rfl⟩

/-- A slice that is assigned is written as a part select of the name of its operand. -/
theorem exists_partSelect {a : Assignment R} (ha : a ∈ m.assignments.values) {b : NodeId}
    {msb lsb : Nat} (hkind : m.store.kind a.expr = .slice b msb lsb) :
    ∃ t ∈ module.blocks.flatten, ∃ z ∈ lowerings runs, z.node = b ∧
      t.partSelect? = some (z.name, msb, lsb) := by
  obtain ⟨naming, hassigns⟩ := h.assigns
  rw [← h.assignments] at ha
  obtain ⟨r, hr, rfl⟩ := List.mem_map.1 ha
  rcases hassigns.lowers.eq_some_iff.1 (hassigns.source_eq r hr) with hnone | ⟨y, hy, hnode, -⟩
  · cases hnone
  · obtain ⟨naming₁, hcode, hle⟩ := hassigns.lowers.nodeCode_le y hy
    rw [hnode, hkind] at hcode
    obtain ⟨t, ht, x, hx, hselect⟩ := hcode.exists_partSelect
    rcases hassigns.lowers.eq_some_iff.1 (hle b x hx) with hnone | ⟨z, hz, hb, rfl⟩
    · cases hnone
    · exact ⟨t, h.mem_code (List.mem_flatMap.2 ⟨y, hy, ht⟩), z, hz, hb, hselect⟩

end Assembled

/-- Part selects are legal but for one case. A part select is that of a slice and stays within the
width of the operand. The module declares its name as a packed vector of that width and in no other
shape, unless the operand is a comparison: then it declares the name as a scalar and in no other
shape. -/
theorem part_selects_of_vectors [Numerics R] {m : Model R} (hb : m.Built fun _ _ => True)
    {settings : Settings}
    {text : String} {m' : Model R} (h : outcome (compile settings) m = (.ok text, m')) :
    ∃ module, m.emit settings = .ok module ∧ text = module.text ∧
      ∀ t ∈ module.blocks.flatten, ∀ x msb lsb, t.partSelect? = some (x, msb, lsb) →
        ∃ i a f, i < m.store.nodes.size ∧ m.store.kind i = .slice a msb lsb ∧
          m.store.format a = .int f ∧ lsb ≤ msb ∧ msb < f.width ∧
          ((∀ op b c, m.store.kind a ≠ .compare op b c) →
            ∀ shape, module.Declares x shape ↔ shape = .vector f.width) ∧
          ∀ op b c, m.store.kind a = .compare op b c →
            ∀ shape, module.Declares x shape ↔ shape = .scalar := by
  have hm := hb.wellFormed_any
  obtain ⟨module, htext, hemit⟩ := compile_eq_ok h
  have hcomplete := ((compile_ensures hm settings).elim_ok h).2.2
  obtain ⟨values, runs, hassembled⟩ := emit_assembled hm hemit
  refine ⟨module, hemit, htext, fun t ht x msb lsb hselect => ?_⟩
  obtain ⟨y, hy, z, hz, hkind, rfl⟩ := hassembled.partSelect ht hselect
  have htyped := hm.store.typed y.node (hassembled.node_lt hm hy)
  rw [hkind] at htyped
  generalize m.store.format y.node = g at htyped
  cases htyped with
  | @slice _ f _ _ hf hle hlt =>
    have hshape : ∀ shape, module.Declares z.name shape ↔
        shape = resultShape f.width (m.store.kind z.node) := fun shape =>
      hassembled.declares_node hm (emit_pins hemit) hcomplete.eliminated hz hf
    refine ⟨y.node, z.node, f, hassembled.node_lt hm hy, hkind, hf, hle, hlt, fun hne shape => ?_,
      fun op b c hcompare shape => ?_⟩
    · rw [hshape, resultShape_eq_vector hne]
    · rw [hshape, hcompare]
      rfl

/-- A name for the middle bits of an input. -/
def bitsModel : Model ℚ :=
  Model.performAll { name := "m", dt := none } [.digitalInput "a" 4 .unsigned,
    .construct (.bitSlice (.signal 0) 2 1), .bindName "y" (.node 1)]

theorem bitsModel_computed :
    (bitsModel.Built fun _ _ => True) ∧ bitsModel.Complete ∧
    bitsModel.store.kind 1 = .slice 0 2 1 ∧
    (∀ i < bitsModel.store.nodes.size, ∀ p ∈ (bitsModel.store.kind i).slice?, p.1 = 0) ∧
    bitsModel.store.format 0 = .uint 4 ∧ (bitsModel.store.kind 0).compare? = none ∧
    bitsModel.assignments.values.map (·.expr) = [1] := by
  have hb : bitsModel.Built fun _ _ => True := .ofOperations (by decide +kernel)
  refine ⟨hb, CompleteIn.complete (?_ : bitsModel.CompleteIn [1]) hb.wellFormed_any,
    NodeKind.slice?_eq_some.1 ?_, ?_, Format.beq_sound ?_, ?_, ?_⟩
  all_goals decide +kernel

/-- The part select of the input is one of a vector of four bits. -/
theorem part_selects_of_vectors_input : (bitsModel.Built fun _ _ => True) ∧ ∃ text m' module x,
    outcome (compile {}) bitsModel = (.ok text, m') ∧ bitsModel.emit {} = .ok module ∧
    text = module.text ∧ (∃ t ∈ module.blocks.flatten, t.partSelect? = some (x, 2, 1)) ∧
    ∀ shape, module.Declares x shape ↔ shape = .vector 4 := by
  obtain ⟨hb, hcomplete, hslice, hslices, hformat, hcompare, hexprs⟩ := bitsModel_computed
  have hm := hb.wellFormed_any
  obtain ⟨text, m', hrun⟩ := hcomplete.exists_compile hm
  obtain ⟨module, hemit, htext, hselects⟩ := part_selects_of_vectors hb hrun
  obtain ⟨values, runs, hassembled⟩ := emit_assembled hm hemit
  obtain ⟨a, ha, hexpr⟩ := List.mem_map.1 (hexprs.symm ▸ List.mem_singleton_self 1)
  obtain ⟨t, ht, z, -, -, hselect⟩ :=
    hassembled.exists_partSelect ha ((congrArg bitsModel.store.kind hexpr).trans hslice)
  obtain ⟨i, a, f, hi, hkind, hf, -, -, hvector, -⟩ := hselects t ht _ 2 1 hselect
  obtain rfl : a = 0 := hslices i hi _ (NodeKind.slice?_eq_some.2 hkind)
  rw [hformat] at hf
  cases hf
  refine ⟨hb, text, m', module, z.name, hrun, hemit, htext, ⟨t, ht, hselect⟩, ?_⟩
  refine hvector fun op b c h => ?_
  rw [NodeKind.compare?_eq_some.2 h] at hcompare
  cases hcompare

/-- A name for the only bit of a comparison. -/
def compareModel : Model ℚ :=
  Model.performAll { name := "m", dt := none } [.digitalInput "a" 4 .unsigned,
    .digitalInput "b" 4 .unsigned, .construct (.compare .lt (.signal 0) (.signal 1)),
    .construct (.bitSlice (.node 2) 0 0), .bindName "y" (.node 3)]

theorem compareModel_computed :
    (compareModel.Built fun _ _ => True) ∧ compareModel.Complete ∧
    compareModel.store.kind 2 = .compare .lt 0 1 ∧ compareModel.store.kind 3 = .slice 2 0 0 ∧
    compareModel.store.format 2 = .uint 1 ∧
    compareModel.assignments.values.map (·.expr) = [3] := by
  have hb : compareModel.Built fun _ _ => True := .ofOperations (by decide +kernel)
  refine ⟨hb, CompleteIn.complete (?_ : compareModel.CompleteIn [2]) hb.wellFormed_any,
    NodeKind.compare?_eq_some.1 ?_, NodeKind.slice?_eq_some.1 ?_, Format.beq_sound ?_, ?_⟩
  all_goals decide +kernel

/-- The bit of a comparison is compiled to a part select of a scalar. -/
theorem part_select_of_scalar : (compareModel.Built fun _ _ => True) ∧ ∃ text m' module x,
    outcome (compile {}) compareModel = (.ok text, m') ∧ compareModel.emit {} = .ok module ∧
    text = module.text ∧ (∃ t ∈ module.blocks.flatten, t.partSelect? = some (x, 0, 0)) ∧
    ∀ shape, module.Declares x shape ↔ shape = .scalar := by
  obtain ⟨hb, hcomplete, hcompare, hslice, hformat, hexprs⟩ := compareModel_computed
  have hm := hb.wellFormed_any
  obtain ⟨text, m', hrun⟩ := hcomplete.exists_compile hm
  obtain ⟨module, htext, hemit⟩ := compile_eq_ok hrun
  obtain ⟨values, runs, hassembled⟩ := emit_assembled hm hemit
  obtain ⟨a, ha, hexpr⟩ := List.mem_map.1 (hexprs.symm ▸ List.mem_singleton_self 3)
  obtain ⟨t, ht, z, hz, hnode, hselect⟩ := hassembled.exists_partSelect ha (hexpr ▸ hslice)
  refine ⟨hb, text, m', module, z.name, hrun, hemit, htext, ⟨t, ht, hselect⟩, fun shape => ?_⟩
  rw [hassembled.declares_node hm (emit_pins hemit) hcomplete.eliminated hz
    (hnode ▸ hformat), hnode, hcompare]
  rfl

end Model

end MixedSignal
