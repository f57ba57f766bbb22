import Mathlib
import MixedSignal.Proofs.Lowering

/-!
# Emitted modules are straight-line code

The body of a module is made of one block for each assignment, which computes the nodes that have no
name yet and then drives the signal. `Model.compile_straight_line` says that every node is computed at
most once over the whole module, that every name is declared and driven at most once, and that a
statement reads only signals, parameters and what was declared before it.
-/

set_option linter.unusedSectionVars false

namespace MixedSignal

variable {R : Type} [Scalar R]

open Verilog Dependency

/-! ## Signals and parameters -/

namespace Store

variable {s : Store R}

theorem signal_mem {x : SignalId} (hx : x < s.signals.size) : s.signal x ∈ s.signals.toList := by
  simp [signal, Array.getD, hx]

theorem exists_signal {signal : Signal R} (h : signal ∈ s.signals.toList) :
    ∃ x < s.signals.size, s.signal x = signal := by
  obtain ⟨x, hx, rfl⟩ := Array.getElem_of_mem (Array.mem_toList_iff.1 h)
  exact ⟨x, hx, by simp [Store.signal, Array.getD, hx]⟩

theorem WellNamed.nodup (h : s.WellNamed) : (s.signals.toList.map (·.name)).Nodup := by
  rw [List.Nodup, List.pairwise_iff_getElem]
  intro i j hi hj hij heq
  have hi' : i < s.signals.size := by simpa using hi
  have hj' : j < s.signals.size := by simpa using hj
  refine hij.ne (h.distinct i hi' j hj' ?_)
  simpa [signal, Array.getD, hi', hj'] using heq

end Store

/-- The name that a parameter declares. -/
def Verilog.Parameter.name : Parameter R → String
  | format name | real name _ | int name _ => name

namespace Model

/-- Each value has a fresh name, and belongs to a real parameter. -/
theorem paramValues_spec : ∀ (signals : List (Signal R)) (names : Names),
    Names.Takes names (paramValues signals names).2 ((paramValues signals names).1.map (·.2)) ∧
    ((paramValues signals names).1.map (·.1)).Sublist signals ∧
    ∀ p ∈ (paramValues signals names).1, ∃ default f, p.1.role = .param default ∧
      p.1.format = .real f
  | [], names => ⟨.refl names, .refl _, by simp [paramValues]⟩
  | signal :: rest, names => by
    unfold paramValues
    split
    · rename_i default f hrole hformat
      obtain ⟨htakes, hsub, hparam⟩ :=
        paramValues_spec rest (names.fresh (signal.name ++ "_value")).2
      exact ⟨(names.fresh_takes _).trans htakes, hsub.cons_cons signal,
        List.forall_mem_cons.2 ⟨⟨default, f, hrole, hformat⟩, hparam⟩⟩
    · obtain ⟨htakes, hsub, hparam⟩ := paramValues_spec rest names
      exact ⟨htakes, hsub.cons signal, hparam⟩

/-! ## Assignments -/

variable {m : Model R} {settings : Settings} {rounding : Rounding R}

/-- What an assignment adds to the body: the nodes that it computes, and the name that drives its
signal. -/
structure Run (R : Type) where
  assignment : Assignment R
  lowerings : List (Lowering R)
  source : String

/-- The block of an assignment. -/
def Run.block (m : Model R) (settings : Settings) (r : Run R) : List (Statement R) :=
  codeOf r.lowerings ++ [m.drive settings r.assignment r.source]

/-- The nodes that assignments compute, in order. -/
def lowerings (runs : List (Run R)) : List (Lowering R) := runs.flatMap (·.lowerings)

/-- Assignments are written one after the other. Each one computes nodes that its expression needs
and that have no name yet. -/
inductive Assigns (m : Model R) (settings : Settings) : Naming → List (Run R) → Naming → Prop
  | nil {naming} : Assigns m settings naming [] naming
  | cons {naming naming' naming'' r runs}
    (hlowers : Lowers m.store settings.realWidth naming r.lowerings naming')
    (hsource : naming' r.assignment.expr = some r.source)
    (hreach : ∀ x ∈ r.lowerings, Reaches m.store.children r.assignment.expr x.node)
    (h : Assigns m settings naming' runs naming'') : Assigns m settings naming (r :: runs) naming''

variable {naming naming' : Naming} {runs : List (Run R)}

theorem Assigns.lowers (h : Assigns m settings naming runs naming') :
    Lowers m.store settings.realWidth naming (lowerings runs) naming' := by
  induction h with
  | nil => exact .nil
  | cons hlowers _ _ _ ih => exact hlowers.append ih

theorem Assigns.reached (h : Assigns m settings naming runs naming') :
    ∀ r ∈ runs, ∀ x ∈ r.lowerings, Reaches m.store.children r.assignment.expr x.node := by
  induction h with
  | nil => simp
  | cons _ _ hreach _ ih => exact List.forall_mem_cons.2 ⟨hreach, ih⟩

theorem drive_declared? (m : Model R) (settings : Settings) (a : Assignment R) (source : String) :
    (m.drive settings a source).declared? = none := by
  dsimp only [drive]
  split <;> rfl

theorem drive_driven? (m : Model R) (settings : Settings) (a : Assignment R) (source : String) :
    (m.drive settings a source).driven? = some (m.store.signal a.signal).name := by
  dsimp only [drive]
  split <;> rfl

theorem drive_reads {a : Assignment R} {source x : String}
    (h : (m.drive settings a source).Reads x) : x = source := by
  dsimp only [drive] at h
  split at h
  · exact h
  · exact List.mem_singleton.1 h
  · exact h
  · exact h

theorem declaredIn_blocks (m : Model R) (settings : Settings) (runs : List (Run R)) :
    declaredIn (runs.flatMap (·.block m settings)) = declaredIn (codeOf (lowerings runs)) := by
  induction runs with
  | nil => rfl
  | cons r runs ih =>
    simp only [lowerings, List.flatMap_cons, codeOf_append, declaredIn_append, Run.block,
      declaredIn_cons, drive_declared?, declaredIn_nil] at ih ⊢
    simp [ih]

theorem drivenIn_blocks (m : Model R) (settings : Settings) (runs : List (Run R)) :
    (drivenIn (runs.flatMap (·.block m settings))).Perm (drivenIn (codeOf (lowerings runs)) ++
      runs.map fun r => (m.store.signal r.assignment.signal).name) := by
  induction runs with
  | nil => exact .rfl
  | cons r runs ih =>
    simp only [lowerings, List.flatMap_cons, codeOf_append, drivenIn_append, Run.block,
      drivenIn_cons, drive_driven?, drivenIn_nil, List.map_cons, List.append_nil,
      Option.toList_some] at ih ⊢
    exact ((List.Perm.append_left _ ih).trans (perm_append_middle ..))

/-- Blocks read what is known from the start or was declared before. -/
theorem Assigns.scoped {known : String → Prop} (h : Assigns m settings naming runs naming')
    (hknown : ∀ j x, naming j = some x → known x)
    (hsignal : ∀ y < m.store.signals.size, known (m.store.signal y).name) :
    Scoped known (runs.flatMap (·.block m settings)) := by
  induction h generalizing known with
  | nil => trivial
  | @cons _ _ _ r runs hlowers hsource _ _ ih =>
    obtain ⟨hcode, hnames⟩ := hlowers.scoped hknown hsignal
    have hblock : declaredIn (r.block m settings) = declaredIn (codeOf r.lowerings) := by
      simp [Run.block, drive_declared?]
    refine scoped_append.2 ⟨scoped_append.2 ⟨hcode, fun x hx => ?_, trivial⟩, ?_⟩
    · rw [drive_reads hx]
      exact hnames _ _ hsource
    · rw [hblock]
      exact ih hnames fun y hy => .inl (hsignal y hy)

open Emission in
theorem assignmentBlock_assigns (hm : m.WellFormed rounding) {a : Assignment R}
    (ha : a.Valid m.store) {l l' : Emitted R} {block : List (Statement R)}
    (h : outcome (m.assignmentBlock settings a) l = (.ok block, l')) :
    ∃ r : Run R, r.assignment = a ∧
      Lowers m.store settings.realWidth l.naming r.lowerings l'.naming ∧
      l'.naming a.expr = some r.source ∧
      (∀ x ∈ r.lowerings, Reaches m.store.children a.expr x.node) ∧
      Names.Takes l.names l'.names (declaredIn (codeOf r.lowerings)) ∧
      block = r.block m settings := by
  unfold assignmentBlock at h
  obtain ⟨_, l₁, hreset, hrest⟩ := outcome_bind_eq_ok h
  obtain ⟨source, l₂, hnode, hdrive⟩ := outcome_bind_eq_ok hrest
  cases hreset
  cases hdrive
  obtain ⟨xs, own, hlowers, hxs, hstep, rfl, hname⟩ :=
    node_gathers hm.store settings.realWidth a.expr ha.expr_lt _ _ _ hnode
  refine ⟨⟨a, xs, source⟩, rfl, hlowers, hname, hxs, ?_, ?_⟩
  · simpa using hstep.takes
  · have hstatements := hstep.statements
    simp only [List.nil_append] at hstatements
    simp [Run.block, hstatements]

theorem blocks_assign (hm : m.WellFormed rounding) : ∀ {as : List (Assignment R)}
    {l l' : Emitted R} {blocks : List (List (Statement R))}, (∀ a ∈ as, a.Valid m.store) →
    outcome (as.mapM (m.assignmentBlock settings)) l = (.ok blocks, l') →
    ∃ runs : List (Run R), runs.map (·.assignment) = as ∧
      Assigns m settings l.naming runs l'.naming ∧
      Names.Takes l.names l'.names (declaredIn (codeOf (lowerings runs))) ∧
      blocks = runs.map (·.block m settings)
  | [], l, l', blocks, _, h => by
    cases h
    exact ⟨[], rfl, .nil, .refl _, rfl⟩
  | a :: as, l, l', blocks, has, h => by
    rw [List.mapM_cons] at h
    obtain ⟨block, l₁, hblock, h⟩ := outcome_bind_eq_ok h
    obtain ⟨blocks', l₂, hblocks, h⟩ := outcome_bind_eq_ok h
    cases h
    obtain ⟨r, rfl, hlowers, hsource, hreach, htakes, rfl⟩ :=
      assignmentBlock_assigns hm (has a (by simp)) hblock
    obtain ⟨runs, rfl, hassigns, htakes', rfl⟩ :=
      blocks_assign hm (fun b hb => has b (by simp [hb])) hblocks
    refine ⟨r :: runs, rfl, .cons hlowers hsource hreach hassigns, ?_, rfl⟩
    simpa [lowerings, codeOf_append] using htakes.trans htakes'

/-! ## Modules -/

theorem declaredIn_params {values : List (Signal R × String)}
    (h : ∀ p ∈ values, ∃ default f, p.1.role = .param default ∧ p.1.format = .real f) :
    declaredIn (values.filterMap paramDeclaration?) = values.map (·.1.name) ∧
      drivenIn (values.filterMap paramDeclaration?) = values.map (·.1.name) := by
  induction values with
  | nil => exact ⟨rfl, rfl⟩
  | cons p values ih =>
    obtain ⟨_, f, -, hf⟩ := h p (by simp)
    obtain ⟨hdeclared, hdriven⟩ := ih fun q hq => h q (by simp [hq])
    have hp : paramDeclaration? p = some (.declareParam p.2 p.1.name f.bound) := by
      rw [paramDeclaration?, hf]
      rfl
    rw [List.filterMap_cons_some hp, List.map_cons, declaredIn_cons, drivenIn_cons, hdeclared,
      hdriven]
    exact ⟨rfl, rfl⟩

theorem declaration?_eq_some {realWidth : Nat} {signal : Signal R} {t : Statement R}
    (h : declaration? realWidth signal = some t) :
    signal.role = .internal ∧ t.declared? = some signal.name ∧ t.driven? = none ∧
      ∀ x, ¬t.Reads x := by
  unfold declaration? at h
  split at h
  · rename_i hrole
    obtain rfl := Option.some.inj h
    refine ⟨hrole, ?_⟩
    cases signal.format with
    | real f => exact ⟨rfl, rfl, fun x hx => hx⟩
    | int f => exact ⟨rfl, rfl, fun x hx => hx⟩
  · cases h

/-- Declarations of internal signals declare signals, in order. -/
theorem declaredIn_internals (realWidth : Nat) (signals : List (Signal R)) :
    (declaredIn (signals.filterMap (declaration? realWidth))).Sublist (signals.map (·.name)) ∧
      drivenIn (signals.filterMap (declaration? realWidth)) = [] := by
  induction signals with
  | nil => exact ⟨.slnil, rfl⟩
  | cons signal signals ih =>
    cases hdecl : declaration? realWidth signal with
    | none =>
      rw [List.filterMap_cons_none hdecl]
      exact ⟨ih.1.cons _, ih.2⟩
    | some t =>
      obtain ⟨-, hdeclared, hdriven, -⟩ := declaration?_eq_some hdecl
      rw [List.filterMap_cons_some hdecl, declaredIn_cons, drivenIn_cons, hdeclared, hdriven]
      exact ⟨ih.1.cons_cons _, ih.2⟩

theorem probe_declared? (m : Model R) (x : SignalId) : (m.probe x).declared? = none := by
  dsimp only [probe]
  split <;> rfl

theorem probe_driven? (m : Model R) (x : SignalId) : (m.probe x).driven? = none := by
  dsimp only [probe]
  split <;> rfl

theorem probe_reads {x : SignalId} {name : String} (h : (m.probe x).Reads name) :
    name = (m.store.signal x).name := by
  dsimp only [probe] at h
  split at h <;> exact h

/-- How a module is put together: real parameters with names for their values, declarations of
internal signals, blocks of assignments, and probes. -/
structure Assembled (m : Model R) (settings : Settings) (module : Verilog.Module R)
    (values : List (Signal R × String)) (runs : List (Run R)) : Prop where
  params : ∀ p ∈ values, ∃ default f, p.1.role = .param default ∧ p.1.format = .real f
  sublist : (values.map (·.1)).Sublist m.store.signals.toList
  assignments : runs.map (·.assignment) = m.assignments.values
  assigns : ∃ naming, Assigns m settings (fun _ => none) runs naming
  nodup : (declaredIn (codeOf (lowerings runs))).Nodup
  fresh : ∀ x ∈ declaredIn (codeOf (lowerings runs)), x ∉ m.store.signals.toList.map (·.name)
  parameters : module.parameters = m.store.signals.toList.filterMap (parameter? values)
  blocks : module.blocks = [values.filterMap paramDeclaration?,
    m.store.signals.toList.filterMap (declaration? settings.realWidth)] ++
    runs.map (·.block m settings) ++ [m.probes.map m.probe]

/-- The real parameters with names for their values, and the names that are in use then: those of the
signals come first. -/
def namedParams (m : Model R) : List (Signal R × String) × Names :=
  paramValues m.store.signals.toList (.ofList (m.store.signals.toList.map (·.name)))

/-- Temporaries are taken after all signals and all values of parameters have their names. -/
theorem emit_named (hm : m.WellFormed rounding) {module : Verilog.Module R}
    (h : m.emit settings = .ok module) : ∃ runs names,
      m.Assembled settings module m.namedParams.1 runs ∧
      Names.Takes m.namedParams.2 names (declaredIn (codeOf (lowerings runs))) := by
  have hvalid : ∀ a ∈ m.assignments.values, a.Valid m.store := fun a ha =>
    (hm.valid ((Simulator.mem_values_iff hm).1 ha)).2
  obtain ⟨hnames, hsub, hparams⟩ := paramValues_spec m.store.signals.toList
    (.ofList (m.store.signals.toList.map (·.name)))
  change ((outcome (m.assignments.values.mapM (m.assignmentBlock settings))
    { names := m.namedParams.2 }).1 >>= fun blocks => _) = _ at h
  cases hrun : outcome (m.assignments.values.mapM (m.assignmentBlock settings))
      { names := m.namedParams.2 } with
  | mk r l' =>
    rw [hrun] at h
    cases r with
    | error e => cases h
    | ok blocks =>
      obtain rfl := (Except.ok.inj h).symm
      obtain ⟨runs, has, hassigns, htakes, rfl⟩ := blocks_assign hm hvalid hrun
      have hstart : Emitted.naming ({ names := m.namedParams.2 } : Emitted R) = fun _ => none := by
        funext j
        simp [Emitted.naming]
      rw [hstart] at hassigns
      refine ⟨runs, l'.names, ⟨hparams, hsub, has, ⟨_, hassigns⟩, htakes.nodup, fun x hx hmem => ?_,
        rfl, rfl⟩, htakes⟩
      exact htakes.fresh x hx ((hnames.mem_iff x).2 (.inl (Names.mem_ofList.2 hmem)))

theorem emit_assembled (hm : m.WellFormed rounding) {module : Verilog.Module R}
    (h : m.emit settings = .ok module) : ∃ values runs, m.Assembled settings module values runs := by
  obtain ⟨runs, _, hassembled, -⟩ := emit_named hm h
  exact ⟨_, runs, hassembled⟩

/-- The value of a real parameter is a parameter of the module. -/
theorem exists_parameter {signals : List (Signal R)} {values : List (Signal R × String)}
    (hnodup : (signals.map (·.name)).Nodup) (hsub : (values.map (·.1)).Sublist signals)
    (hparam : ∀ p ∈ values, ∃ default f, p.1.role = .param default ∧ p.1.format = .real f)
    {p : Signal R × String} (hp : p ∈ values) :
    ∃ q ∈ signals.filterMap (parameter? values), q.name = p.2 := by
  obtain ⟨default, f, hrole, hformat⟩ := hparam p hp
  have hnames : (values.map (·.1.name)).Nodup := by
    have := hnodup.sublist (hsub.map (·.name))
    rwa [List.map_map] at this
  have hfind : values.find? (·.1.name == p.1.name) = some p := by
    obtain ⟨q, hq⟩ : ∃ q, values.find? (·.1.name == p.1.name) = some q :=
      Option.isSome_iff_exists.1 (List.find?_isSome.2 ⟨p, hp, by simp⟩)
    rw [hq, List.inj_on_of_nodup_map hnames (List.mem_of_find?_eq_some hq) hp
      (by simpa using List.find?_some hq)]
  refine ⟨.real p.2 default.toScalar, List.mem_filterMap.2
    ⟨p.1, hsub.subset (List.mem_map_of_mem hp), ?_⟩, rfl⟩
  rw [parameter?, hrole, hformat]
  simp [hfind]

/-- The signals of assignments are distinct. -/
theorem WellFormed.nodup_driven (hm : m.WellFormed rounding) :
    (m.assignments.values.map fun a => (m.store.signal a.signal).name).Nodup := by
  have hkeys : m.assignments.values.map (·.signal) = m.assignments.keys := by
    rw [OrderedMap.values, OrderedMap.keys, List.map_map]
    exact List.map_congr_left fun e he => (hm.entries e he).1.symm
  have hsignals : (m.assignments.values.map (·.signal)).Nodup := hkeys ▸ hm.nodup
  have hlt : ∀ a ∈ m.assignments.values, a.signal < m.store.signals.size := fun a ha =>
    (hm.valid ((Simulator.mem_values_iff hm).1 ha)).2.signal_lt
  refine List.Nodup.map_on (fun a ha b hb hname => ?_) (List.Nodup.of_map _ hsignals)
  exact List.inj_on_of_nodup_map hsignals ha hb
    (hm.names.distinct _ (hlt a ha) _ (hlt b hb) hname)

/-- The body of a module as straight-line code. The runs compute the nodes of the assignments, each
one at most once, into the signal's own name or one that is declared on the way. No name is declared
or driven twice, and statements read signals, parameters and what was declared before. -/
structure StraightLine (m : Model R) (settings : Settings) (module : Verilog.Module R)
    (runs : List (Run R)) : Prop where
  assignments : runs.map (·.assignment) = m.assignments.values
  assigns : ∃ naming, Assigns m settings (fun _ => none) runs naming
  blocks : ∃ header, module.blocks =
      header ++ runs.map (·.block m settings) ++ [m.probes.map m.probe] ∧
    ∀ t ∈ header.flatten, ∃ y < m.store.signals.size, t.declared? = some (m.store.signal y).name
  lowered_once : ((lowerings runs).map (·.node)).Nodup
  reached : ∀ x ∈ lowerings runs, ∃ a ∈ m.assignments.values,
    Reaches m.store.children a.expr x.node
  named : ∀ x ∈ lowerings runs,
    (∃ y < m.store.signals.size, m.store.kind x.node = .signal y ∧
      x.name = (m.store.signal y).name ∧ x.code = []) ∨
    (∀ y, m.store.kind x.node ≠ .signal y) ∧ x.name ∈ declaredIn x.code ∧
      x.name ∈ drivenIn x.code ∧ ∀ y < m.store.signals.size, x.name ≠ (m.store.signal y).name
  declared_once : (declaredIn module.blocks.flatten).Nodup
  driven_once : (drivenIn module.blocks.flatten).Nodup
  reads : ∀ before t after, module.blocks.flatten = before ++ t :: after → ∀ x, t.Reads x →
    (∃ y < m.store.signals.size, x = (m.store.signal y).name) ∨
    (∃ p ∈ module.parameters, x = p.name) ∨ x ∈ declaredIn before

namespace Assembled

variable {module : Verilog.Module R} {values : List (Signal R × String)}
  (h : m.Assembled settings module values runs)
include h

theorem flatten_blocks : module.blocks.flatten = values.filterMap paramDeclaration? ++
    (m.store.signals.toList.filterMap (declaration? settings.realWidth) ++
      (runs.flatMap (·.block m settings) ++ m.probes.map m.probe)) := by
  rw [h.blocks]
  simp [List.flatMap]

theorem declaredIn_body : declaredIn module.blocks.flatten = values.map (·.1.name) ++
    (declaredIn (m.store.signals.toList.filterMap (declaration? settings.realWidth)) ++
      declaredIn (codeOf (lowerings runs))) := by
  have hprobes : declaredIn (m.probes.map m.probe) = [] := by
    simp [declaredIn, List.filterMap_map, probe_declared?]
  rw [h.flatten_blocks]
  simp only [declaredIn_append, (declaredIn_params h.params).1, declaredIn_blocks, hprobes,
    List.append_nil]

theorem drivenIn_body : (drivenIn module.blocks.flatten).Perm (values.map (·.1.name) ++
    (declaredIn (codeOf (lowerings runs)) ++
      m.assignments.values.map fun a => (m.store.signal a.signal).name)) := by
  obtain ⟨naming, hassigns⟩ := h.assigns
  have hprobes : drivenIn (m.probes.map m.probe) = [] := by
    simp [drivenIn, List.filterMap_map, probe_driven?]
  rw [h.flatten_blocks]
  simp only [drivenIn_append, (declaredIn_params h.params).2, (declaredIn_internals _ _).2, hprobes,
    List.append_nil, List.nil_append, ← h.assignments, List.map_map]
  refine List.Perm.append_left _ ((drivenIn_blocks m settings runs).trans ?_)
  exact hassigns.lowers.driven_perm.append_right _

theorem param_name {x : String} (hx : x ∈ values.map (·.1.name)) :
    ∃ signal ∈ m.store.signals.toList, signal.name = x ∧ ∃ default, signal.role = .param default := by
  obtain ⟨p, hp, rfl⟩ := List.mem_map.1 hx
  obtain ⟨default, _, hrole, -⟩ := h.params p hp
  exact ⟨p.1, h.sublist.subset (List.mem_map_of_mem hp), rfl, default, hrole⟩

theorem param_nodup (hm : m.WellFormed rounding) : (values.map (·.1.name)).Nodup := by
  have hnodup := hm.names.nodup.sublist (h.sublist.map (·.name))
  rwa [List.map_map] at hnodup

theorem declared_once (hm : m.WellFormed rounding) :
    (declaredIn module.blocks.flatten).Nodup := by
  obtain ⟨hsub, -⟩ := declaredIn_internals settings.realWidth m.store.signals.toList
  rw [h.declaredIn_body, List.nodup_append', List.nodup_append']
  refine ⟨h.param_nodup hm, ⟨hm.names.nodup.sublist hsub, h.nodup, ?_⟩, ?_⟩
  · exact fun x hx hx' => h.fresh x hx' (hsub.subset hx)
  · intro x hx hx'
    obtain ⟨signal, hsignal, rfl, default, hrole⟩ := h.param_name hx
    rcases List.mem_append.1 hx' with hx' | hx'
    · -- an internal signal of the same name would be the same signal
      obtain ⟨t, ht, hdeclared⟩ := List.mem_filterMap.1 hx'
      obtain ⟨other, hother, hdecl⟩ := List.mem_filterMap.1 ht
      obtain ⟨hinternal, hname, -⟩ := declaration?_eq_some hdecl
      rw [hname] at hdeclared
      obtain rfl := List.inj_on_of_nodup_map hm.names.nodup hother hsignal
        (Option.some.inj hdeclared)
      rw [hinternal] at hrole
      cases hrole
    · exact h.fresh _ hx' (List.mem_map_of_mem hsignal)

theorem driven_once (hm : m.WellFormed rounding) : (drivenIn module.blocks.flatten).Nodup := by
  have hassigned : ∀ x ∈ m.assignments.values.map (fun a => (m.store.signal a.signal).name),
      ∃ signal ∈ m.store.signals.toList, signal.name = x ∧ signal.role.isAssignable = true := by
    intro x hx
    obtain ⟨a, ha, rfl⟩ := List.mem_map.1 hx
    obtain ⟨-, hvalid⟩ := hm.valid ((Simulator.mem_values_iff hm).1 ha)
    exact ⟨_, Store.signal_mem hvalid.signal_lt, rfl, hvalid.assignable⟩
  refine h.drivenIn_body.symm.nodup ?_
  rw [List.nodup_append', List.nodup_append']
  refine ⟨h.param_nodup hm, ⟨h.nodup, hm.nodup_driven, ?_⟩, ?_⟩
  · intro x hx hx'
    obtain ⟨signal, hsignal, rfl, -⟩ := hassigned x hx'
    exact h.fresh _ hx (List.mem_map_of_mem hsignal)
  · intro x hx hx'
    obtain ⟨signal, hsignal, rfl, default, hrole⟩ := h.param_name hx
    rcases List.mem_append.1 hx' with hx' | hx'
    · exact h.fresh _ hx' (List.mem_map_of_mem hsignal)
    · -- a parameter is not assigned
      obtain ⟨other, hother, hname, hassignable⟩ := hassigned _ hx'
      obtain rfl := List.inj_on_of_nodup_map hm.names.nodup hother hsignal hname
      rw [hrole] at hassignable
      cases hassignable

theorem header_declares : ∀ t ∈ List.flatten [values.filterMap paramDeclaration?,
    m.store.signals.toList.filterMap (declaration? settings.realWidth)],
    ∃ y < m.store.signals.size, t.declared? = some (m.store.signal y).name := by
  intro t ht
  have hsignal : ∃ signal ∈ m.store.signals.toList, t.declared? = some signal.name := by
    rw [List.flatten_cons, List.flatten_singleton, List.mem_append] at ht
    rcases ht with ht | ht
    · obtain ⟨p, hp, hdecl⟩ := List.mem_filterMap.1 ht
      obtain ⟨f, -, rfl⟩ := Option.map_eq_some_iff.1 hdecl
      exact ⟨p.1, h.sublist.subset (List.mem_map_of_mem hp), rfl⟩
    · obtain ⟨signal, hsignal, hdecl⟩ := List.mem_filterMap.1 ht
      exact ⟨signal, hsignal, (declaration?_eq_some hdecl).2.1⟩
  obtain ⟨signal, hsignal, hname⟩ := hsignal
  obtain ⟨y, hy, rfl⟩ := Store.exists_signal hsignal
  exact ⟨y, hy, hname⟩

theorem named {x : Lowering R} (hx : x ∈ lowerings runs) :
    (∃ y < m.store.signals.size, m.store.kind x.node = .signal y ∧
      x.name = (m.store.signal y).name ∧ x.code = []) ∨
    (∀ y, m.store.kind x.node ≠ .signal y) ∧ x.name ∈ declaredIn x.code ∧
      x.name ∈ drivenIn x.code ∧ ∀ y < m.store.signals.size, x.name ≠ (m.store.signal y).name := by
  obtain ⟨naming, hassigns⟩ := h.assigns
  obtain ⟨_, hcode⟩ := hassigns.lowers.nodeCode x hx
  refine hcode.name_cases.imp_right fun ⟨hkind, hname⟩ => ⟨hkind, hname,
    hcode.driven_perm.mem_iff.2 hname, fun y hy heq => ?_⟩
  have hmem : x.name ∈ declaredIn (codeOf (lowerings runs)) := by
    obtain ⟨t, ht, hdeclared⟩ := List.mem_filterMap.1 hname
    exact List.mem_filterMap.2 ⟨t, List.mem_flatMap.2 ⟨x, hx, ht⟩, hdeclared⟩
  refine h.fresh _ hmem ?_
  rw [heq]
  exact List.mem_map_of_mem (Store.signal_mem hy)

/-- Names of signals and parameters are known from the start. -/
theorem body_scoped (hm : m.WellFormed rounding) (hp : m.Probed) :
    Scoped (fun x => (∃ y < m.store.signals.size, x = (m.store.signal y).name) ∨
      ∃ p ∈ module.parameters, x = p.name) module.blocks.flatten := by
  obtain ⟨naming, hassigns⟩ := h.assigns
  rw [h.flatten_blocks, scoped_append, scoped_append, scoped_append]
  refine ⟨scoped_of_forall ?_, scoped_of_forall ?_, ?_, scoped_of_forall ?_⟩
  · intro t ht x hx
    obtain ⟨p, hp, hdecl⟩ := List.mem_filterMap.1 ht
    obtain ⟨f, -, rfl⟩ := Option.map_eq_some_iff.1 hdecl
    obtain ⟨q, hq, hname⟩ := exists_parameter hm.names.nodup h.sublist h.params hp
    exact .inr ⟨q, h.parameters ▸ hq, hname ▸ hx⟩
  · intro t ht x hx
    obtain ⟨signal, -, hdecl⟩ := List.mem_filterMap.1 ht
    exact absurd hx ((declaration?_eq_some hdecl).2.2.2 x)
  · refine hassigns.scoped (fun j x hx => by cases hx) fun y hy => ?_
    exact .inl (.inl (.inl ⟨y, hy, rfl⟩))
  · intro t ht x hx
    obtain ⟨y, hy, rfl⟩ := List.mem_map.1 ht
    exact .inl (.inl (.inl (.inl ⟨y, hp y hy, probe_reads hx⟩)))

end Assembled

/-- What is compiled is the text of the module of the model. Checks at most add warnings. -/
theorem compile_eq_ok {text : String} {m' : Model R}
    (h : outcome (compile settings) m = (.ok text, m')) :
    ∃ module, text = module.text ∧ m.emit settings = .ok module := by
  obtain ⟨module, m₆, hmodule, htext⟩ := outcome_bind_eq_ok h
  cases htext
  obtain ⟨_, m₁, hsettings, hrun₁⟩ := outcome_bind_eq_ok hmodule
  obtain ⟨_, m₂, hdriven, hrun₂⟩ := outcome_bind_eq_ok hrun₁
  rw [outcome_get_bind] at hrun₂
  obtain ⟨_, m₃, heliminated, hrun₃⟩ := outcome_bind_eq_ok hrun₂
  rw [outcome_get_bind] at hrun₃
  obtain ⟨_, m₄, horder, hrun₄⟩ := outcome_bind_eq_ok hrun₃
  rw [outcome_get_bind] at hrun₄
  have hkept : ∀ {ε α : Type} {f : ε → Error} {x : Except ε α} {t t' : Model R} {a : α},
      outcome (check f x) t = (.ok a, t') → t' = t ∧ x = .ok a := fun hrun =>
    ((check_exact (E := fun _ => True) _ _ fun _ _ => trivial).elim_ok hrun).2
  obtain ⟨rfl, -⟩ := hkept hsettings
  obtain ⟨⟨ds, rfl⟩, -⟩ := checkDriven_ensures.elim_ok hdriven
  obtain ⟨rfl, -⟩ := hkept heliminated
  obtain ⟨rfl, -⟩ := hkept horder
  exact ⟨module, rfl, (hkept hrun₄).2⟩

/-- The emission of a node only appends. It returns the name that the node has, the name of a signal,
or one that was declared. -/
theorem node_returns (hm : m.WellFormed rounding) {i : NodeId} (hi : i < m.store.nodes.size)
    {l l' : Emitted R} {name : String}
    (h : outcome (Emission.node m.store settings.realWidth i) l = (.ok name, l')) :
    ∃ code, l'.statements.toList = l.statements.toList ++ code ∧
      (l.named[i]? = some name ∨
        (∃ y, m.store.kind i = .signal y ∧ name = (m.store.signal y).name) ∨
        name ∈ declaredIn code) := by
  obtain ⟨xs, _, hlowers, -, hstep, -, hname⟩ :=
    Emission.node_gathers hm.store settings.realWidth i hi l name l' h
  refine ⟨codeOf xs, hstep.statements, ?_⟩
  rcases hlowers.eq_some_iff.1 hname with hname | ⟨x, hx, rfl, rfl⟩
  · exact .inl hname
  · obtain ⟨_, hcode⟩ := hlowers.nodeCode x hx
    rcases hcode.name_cases with ⟨y, -, hkind, hname, -⟩ | ⟨-, hdeclared⟩
    · exact .inr (.inl ⟨y, hkind, hname⟩)
    · obtain ⟨t, ht, hname⟩ := List.mem_filterMap.1 hdeclared
      exact .inr (.inr (List.mem_filterMap.2 ⟨t, List.mem_flatMap.2 ⟨x, hx, ht⟩, hname⟩))

/-- A model that compiles becomes straight-line code: every node is computed at most once, every name
is declared and driven at most once, and operands are signals, parameters or names that were declared
before. While nodes are computed, text is only appended, and the name that is returned is that of a
signal or declared by then. -/
theorem compile_straight_line [Numerics R] (hb : m.Built fun _ _ => True) {text : String}
    {m' : Model R}
    (h : outcome (compile settings) m = (.ok text, m')) :
    (∃ module runs, text = module.text ∧ m.StraightLine settings module runs) ∧
    ∀ i < m.store.nodes.size, ∀ l name l',
      outcome (Emission.node m.store settings.realWidth i) l = (.ok name, l') →
      ∃ code, l'.statements.toList = l.statements.toList ++ code ∧
        (l.named[i]? = some name ∨
          (∃ y, m.store.kind i = .signal y ∧ name = (m.store.signal y).name) ∨
          name ∈ declaredIn code) := by
  have hm := hb.wellFormed_any
  refine ⟨?_, fun i hi l name l' hrun => node_returns hm hi hrun⟩
  obtain ⟨module, rfl, hemit⟩ := compile_eq_ok h
  obtain ⟨values, runs, hassembled⟩ := emit_assembled hm hemit
  obtain ⟨naming, hassigns⟩ := hassembled.assigns
  refine ⟨module, runs, rfl, hassembled.assignments, ⟨naming, hassigns⟩, ?_,
    hassigns.lowers.nodup, fun x hx => ?_, fun x hx => hassembled.named hx,
    hassembled.declared_once hm, hassembled.driven_once hm, fun before t after heq x hx => ?_⟩
  · exact ⟨_, hassembled.blocks, hassembled.header_declares⟩
  · obtain ⟨r, hr, hx⟩ := List.mem_flatMap.1 hx
    refine ⟨r.assignment, ?_, hassigns.reached r hr x hx⟩
    rw [← hassembled.assignments]
    exact List.mem_map_of_mem hr
  · have hscoped := hassembled.body_scoped hm hb.probed
    rw [heq] at hscoped
    exact or_assoc.1 (hscoped.reads hx)

/-- The product with a selected gain is compiled to straight-line code. -/
theorem compile_straight_line_gain :
    (gainModel.Built fun _ _ => True) ∧ ∃ text m',
      outcome (compile {}) gainModel = (.ok text, m') ∧
      ∃ module runs, text = module.text ∧ gainModel.StraightLine {} module runs := by
  obtain ⟨text, m', hrun⟩ := gainModel_complete.exists_compile gainModel_built.wellFormed_any
  exact ⟨gainModel_built, text, m', hrun, (compile_straight_line gainModel_built hrun).1⟩

end Model

end MixedSignal
