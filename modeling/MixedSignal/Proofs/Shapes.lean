import Mathlib
import MixedSignal.Proofs.Extraction
import MixedSignal.Proofs.Modelling

/-!
# The shapes of extracted systems

The rows of a solution are numbered by the unknowns and its columns by the knowns, while the blocks of
a system are cut out of it by the numbers of states, inputs and outputs. The two go together for roles
that suit the equations (`SystemRoles.Suits`): no known and no output is listed twice, and there are
equations if there are knowns. No block then reaches beyond the solution (`Solving.exists_blocks`), and
a mode has exactly the blocks that have rows and columns (`StateSpace.Fits`).

The roles that are found in the equations of a model suit them (`Model.inferRoles_suits`).
-/

set_option linter.unusedSectionVars false

namespace MixedSignal

variable {R : Type} [Scalar R]

/-! ## Specifications -/

/-- On square matrices that have rows, whatever the solver returns has the shape of the right-hand
side. -/
def Solver.KeepsShape (solve : Solver R) : Prop :=
  ∀ {n k : Nat} {u v x : DenseMatrix R}, 0 < n → u.HasShape n n → v.HasShape n k →
    solve u v = some x → x.HasShape n k

theorem DenseMatrix.keepsShape_solve? : Solver.KeepsShape (R := R) DenseMatrix.solve? := by
  intro n k u v x _ hu hv h
  obtain ⟨rows, -, rfl⟩ := Option.map_eq_some_iff.1 h
  exact ⟨hu.1, hv.2⟩

/-- No known and no output is listed twice, and there are equations if there are knowns. -/
structure SystemRoles.Suits (roles : SystemRoles) (equations : List Equation) : Prop where
  knowns : (roles.inputs ++ roles.states).Nodup
  outputs : roles.outputs.Nodup
  equations : equations ≠ [] ∨ roles.inputs = [] ∧ roles.states = []

/-- A block is there exactly if it has rows and columns, and has its shape then. -/
def StateSpace.Fits (system : StateSpace R) (states inputs outputs : Nat) : Prop :=
  ∀ block rows cols, (block, rows, cols) ∈ ModalSystem.expectedShapes states inputs outputs →
    ((system.block block).isSome = true ↔ rows ≠ 0 ∧ cols ≠ 0) ∧
      ∀ m ∈ system.block block, m.HasShape rows cols

theorem ModalSystem.checkShape_eq_ok {system : ModalSystem R} {states inputs outputs : Nat}
    (h : ∀ mode ∈ system.modes, mode.Fits states inputs outputs) :
    system.checkShape states inputs outputs = .ok () := by
  unfold checkShape
  split
  · rename_i e he
    obtain ⟨p, hp, hmode⟩ := List.exists_of_findSome?_eq_some he
    obtain ⟨q, hq, hblock⟩ := List.exists_of_findSome?_eq_some hmode
    obtain ⟨m, hm, hshape⟩ := Option.bind_eq_some_iff.1 hblock
    obtain ⟨hrows, hcols⟩ := (h p.1 (List.fst_mem_of_mem_zipIdx hp) q.1 q.2.1 q.2.2 hq).2 m hm
    simp [hrows, hcols] at hshape
  · rfl

namespace Solving

open Store

variable {s : Store R} {solve : Solver R} {equations : List Equation} {roles : SystemRoles}
  {forms : List (LinearForm R)} {us : List LinearVar} {ks : List SignalId} {x : DenseMatrix R}

/-! ## Blocks -/

/-- A block that lies inside the matrix can be cut out. -/
theorem exists_cutBlock {row rows col cols : Nat} (hrow : row + rows ≤ x.rows)
    (hcol : col + cols ≤ x.cols) : ∃ b, cutBlock x row rows col cols = .ok b ∧
      (b.isSome = true ↔ rows ≠ 0 ∧ cols ≠ 0) ∧ ∀ m ∈ b, m.HasShape rows cols := by
  unfold cutBlock
  split_ifs with hzero hin
  · exact ⟨none, rfl, by simp; tauto, by simp⟩
  · refine ⟨some _, rfl, by simp; tauto, ?_⟩
    rintro m ⟨⟩
    exact ⟨rfl, rfl⟩
  · exact absurd ⟨hrow, hcol⟩ hin

theorem exists_blocks (hrows : roles.states.length + roles.outputs.length ≤ x.rows)
    (hcols : roles.inputs.length + roles.states.length ≤ x.cols) :
    ∃ system, blocks roles x = .ok system ∧
      system.Fits roles.states.length roles.inputs.length roles.outputs.length := by
  have hcut : ∀ {row rows col cols : Nat}, row + rows ≤ roles.states.length + roles.outputs.length →
      col + cols ≤ roles.inputs.length + roles.states.length → _ :=
    fun hrow hcol => exists_cutBlock (hrow.trans hrows) (hcol.trans hcols)
  obtain ⟨a, ha, hfa⟩ := @hcut 0 roles.states.length roles.inputs.length roles.states.length
    (by omega) (by omega)
  obtain ⟨b, hb, hfb⟩ := @hcut 0 roles.states.length 0 roles.inputs.length (by omega) (by omega)
  obtain ⟨c, hc, hfc⟩ := @hcut roles.states.length roles.outputs.length roles.inputs.length
    roles.states.length (by omega) (by omega)
  obtain ⟨d, hd, hfd⟩ := @hcut roles.states.length roles.outputs.length 0 roles.inputs.length
    (by omega) (by omega)
  refine ⟨⟨a, b, c, d⟩, ?_, ?_⟩
  · simp only [blocks, ha, hb, hc, hd]
    rfl
  · intro block rows cols h
    simp only [ModalSystem.expectedShapes, List.mem_cons, Prod.mk.injEq, List.not_mem_nil,
      or_false] at h
    rcases h with ⟨rfl, rfl, rfl⟩ | ⟨rfl, rfl, rfl⟩ | ⟨rfl, rfl, rfl⟩ | ⟨rfl, rfl, rfl⟩
    · exact hfa
    · exact hfb
    · exact hfc
    · exact hfd

/-! ## One mode -/

/-- A solution has a row for each unknown and a column for each known. -/
theorem solution_shaped (us : List LinearVar) (hsolve : solve.KeepsShape)
    (hne : forms ≠ [] ∨ ks = []) :
    solution solve forms us ks ≠ .error .outOfBounds ∧
      ∀ x, solution solve forms us ks = .ok x → x.HasShape us.length ks.length := by
  unfold solution
  split_ifs with hlt hgt hempty hnone
  · simp
  · simp
  · obtain rfl := List.isEmpty_iff.1 hempty
    refine ⟨by simp, ?_⟩
    rintro x ⟨⟩
    exact ⟨rfl, rfl⟩
  · obtain rfl := List.isEmpty_iff.1 hnone
    have hforms : forms = [] := List.length_eq_zero_iff.1 (by simpa using hgt)
    exact absurd (hne.resolve_left fun h => h hforms) (by simpa using hempty)
  · have hlength : forms.length = us.length := by omega
    have hus : 0 < us.length := List.length_pos_iff.2 (by simpa using hnone)
    have hforms : forms ≠ [] := List.length_pos_iff.1 (hlength ▸ hus)
    split
    · rename_i y hy
      refine ⟨by simp, ?_⟩
      rintro x ⟨⟩
      exact hsolve hus (hasShape_unknownMatrix hforms hlength)
        (hasShape_knownMatrix ks hforms hlength) hy
    · simp

theorem internal?_ne_outOfBounds (w : LinearVar) :
    internal? s roles w ≠ .error .outOfBounds := by
  cases w with
  | deriv x =>
    rw [internal?]
    split_ifs <;> simp
  | signal x =>
    rw [internal?]
    dsimp only
    split_ifs <;> simp

theorem unknowns_ne_outOfBounds : unknowns s roles forms ≠ .error .outOfBounds := by
  unfold unknowns
  cases hi : (forms.flatMap fun f => f.terms.map (·.1)).mapM (internal? s roles) with
  | error e =>
    rintro ⟨⟩
    obtain ⟨w, -, hw⟩ := exists_of_mapM_eq_error hi
    exact internal?_ne_outOfBounds w hw
  | ok internal => rintro ⟨⟩

/-- The system is cut out of a solution in which it fits. -/
theorem solved_fits (hsolve : solve.KeepsShape) (hroles : roles.Suits equations)
    (hforms : forms.length = equations.length) {result : Except SystemError (StateSpace R)}
    (h : result = do
      let unknowns ← unknowns s roles forms
      let x ← solution solve forms unknowns (knowns roles)
      blocks roles x) :
    result ≠ .error .outOfBounds ∧ ∀ system, result = .ok system →
      system.Fits roles.states.length roles.inputs.length roles.outputs.length := by
  have hknowns : knowns roles = roles.inputs ++ roles.states := eraseDups_eq_self hroles.knowns
  have hne : forms ≠ [] ∨ knowns roles = [] := by
    refine hroles.equations.imp (fun he => ?_) fun he => ?_
    · rwa [← List.length_pos_iff, hforms, List.length_pos_iff]
    · rw [hknowns, he.1, he.2, List.append_nil]
  subst h
  cases hus : unknowns s roles forms with
  | error e =>
    refine ⟨?_, by rintro system ⟨⟩⟩
    rintro ⟨⟩
    exact unknowns_ne_outOfBounds hus
  | ok us =>
    obtain ⟨hbounds, hshape⟩ := solution_shaped us hsolve hne
    cases hx : solution solve forms us (knowns roles) with
    | error e =>
      simp only [bind, Except.bind, hx]
      refine ⟨?_, by rintro system ⟨⟩⟩
      rintro ⟨⟩
      exact hbounds hx
    | ok x =>
      obtain ⟨hrows, hcols⟩ := hshape x hx
      obtain ⟨rest, rfl⟩ := unknowns_front hroles.knowns.of_append_right hroles.outputs hus
      have hstates : roles.states.length + roles.outputs.length ≤ x.rows := by
        rw [hrows]
        simp
      have hinputs : roles.inputs.length + roles.states.length ≤ x.cols := by
        rw [hcols, hknowns]
        simp
      obtain ⟨system, hsystem, hfits⟩ := exists_blocks hstates hinputs
      simp only [bind, Except.bind, hx, hsystem]
      exact ⟨by simp, fun system' h => Except.ok.inj h ▸ hfits⟩

/-- The store may become any other one. -/
def Anywhere (_ _ : Store R) : Prop := True

instance : Std.Refl (Anywhere (R := R)) := ⟨fun _ => trivial⟩

instance : IsTrans (Store R) Anywhere := ⟨fun _ _ _ _ _ => trivial⟩

theorem formOf_in_bounds (setting : SignalId → Option Bool) (e : Equation) (s : Store R) :
    Ensures Anywhere (formOf setting e) s (· ≠ .system .outOfBounds) fun _ _ => True := by
  have hbuild : ∀ (x : Build R NodeId) (t : Store R),
      Ensures Anywhere (build x) t (· ≠ .system .outOfBounds) fun _ _ => True :=
    fun x t => build_ensures (Ensures.of_moved trivial) fun _ _ => by simp
  refine (hbuild _ s).bind fun l t _ _ => (hbuild _ t).bind fun r u _ _ => ?_
  refine (hbuild _ u).bind fun d v _ _ => (hbuild _ v).bind fun k w _ _ => ?_
  refine Ensures.get_bind ?_
  simp only
  split
  · exact Ensures.throw (by simp)
  · split
    · exact Ensures.throw_bind (by simp)
    · exact Ensures.pure trivial

theorem mode_fits (hsolve : solve.KeepsShape) (hroles : roles.Suits equations)
    (setting : SignalId → Option Bool) (s : Store R) :
    Ensures Anywhere (mode solve equations roles setting) s (· ≠ .system .outOfBounds)
      fun system _ =>
        system.Fits roles.states.length roles.inputs.length roles.outputs.length := by
  refine (Ensures.mapM (Q := fun _ _ _ => True) (fun _ _ _ _ _ => id) equations s
    fun e _ t _ => formOf_in_bounds setting e t).bind fun forms t _ hforms => ?_
  refine Ensures.get_bind ?_
  obtain ⟨hbounds, hfits⟩ := solved_fits (s := t) hsolve hroles hforms.length_eq.symm rfl
  simp only
  split
  · rename_i system h
    exact Ensures.pure (hfits system h)
  · rename_i e h
    refine Ensures.throw fun he => hbounds ?_
    rw [h, Error.system.inj he]

/-! ## All modes -/

theorem systemWith_fits (hsolve : solve.KeepsShape) (hroles : roles.Suits equations)
    (s : Store R) :
    Ensures Anywhere (systemWith solve equations roles) s (· ≠ .system .outOfBounds)
      fun system _ => system.modes.length = 2 ^ roles.selectors.length ∧
        ∀ mode ∈ system.modes,
          mode.Fits roles.states.length roles.inputs.length roles.outputs.length := by
  unfold systemWith
  simp only
  split
  · exact Ensures.throw_bind (by simp)
  · refine (Ensures.mapM (Q := fun _ mode _ =>
      mode.Fits roles.states.length roles.inputs.length roles.outputs.length)
      (fun _ _ _ _ _ => id) _ s fun m _ t _ => mode_fits hsolve hroles _ t).bind
      fun modes t _ hmodes => Ensures.pure ⟨?_, fun mode hmode => ?_⟩
    · simpa using hmodes.length_eq.symm
    · obtain ⟨-, -, hfits⟩ := forall₂_exists_left hmodes mode hmode
      exact hfits

end Solving

/-! ## The roles of signals in equations -/

namespace Store

variable {rounding : Rounding R} {s : Store R} {i : NodeId} {x : SignalId}

/-- What is differentiated is real. -/
theorem WellTyped.domain_of_mem_derivsIn (hs : s.WellTyped rounding) (hi : i < s.nodes.size)
    (hx : x ∈ s.derivsIn i) : (s.signal x).format.domain = .real := by
  rw [derivsIn, List.mem_eraseDups, List.mem_filterMap] at hx
  obtain ⟨j, hj, hr⟩ := hx
  have ht := hs.typed j ((le_of_mem_occurrences i hj).trans_lt hi)
  cases hk : s.kind j with
  | deriv y =>
    rw [hk] at ht hr
    cases hr
    generalize s.format j = f at ht
    cases ht with
    | deriv _ hd => exact hd
  | _ => simp [hk, derivSignal?] at hr

/-- What a case table reads is a bit. -/
theorem WellTyped.isBit_of_mem_selectorsIn (hs : s.WellTyped rounding) (hi : i < s.nodes.size)
    (hx : x ∈ s.selectorsIn i) : (s.signal x).format.isBit = true := by
  rw [selectorsIn, List.mem_eraseDups, List.mem_flatMap] at hx
  obtain ⟨j, hj, hr⟩ := hx
  have ht := hs.typed j ((le_of_mem_occurrences i hj).trans_lt hi)
  cases hk : s.kind j with
  | cases xs selectors =>
    rw [hk] at ht hr
    cases ht with
    | cases _ hbit => exact hbit x hr
  | _ => simp [hk, selectors] at hr

end Store

namespace Model

open Store

variable {rounding : Rounding R} {m : Model R} {equations : List Equation}

variable (hm : m.WellFormed rounding) (hk : Solving.Known m.store equations)
include hm hk

/-- No signal is found to be both a state and a selector: the one is real, the other a bit. -/
theorem inferRoles_disjoint :
    (inferRoles m equations {}).states.Disjoint (inferRoles m equations {}).selectors := by
  refine List.disjoint_left.2 fun x hstate hselector => ?_
  obtain ⟨i, hi, hx⟩ := List.mem_flatMap.1 (List.mem_eraseDups.1 hstate)
  obtain ⟨j, hj, hx'⟩ := List.mem_flatMap.1 (List.mem_eraseDups.1 hselector)
  have hreal := hm.store.domain_of_mem_derivsIn (hk.sides_lt i hi) hx
  obtain ⟨r, hr⟩ := Format.exists_of_isBit (hm.store.isBit_of_mem_selectorsIn (hk.sides_lt j hj) hx')
  rw [hr] at hreal
  cases hreal

theorem inferRoles_distinct : (inferRoles m equations {}).Distinct := by
  have hdisjoint := inferRoles_disjoint hm hk
  obtain ⟨roles, hroles⟩ : ∃ roles, roles = inferRoles m equations {} := ⟨_, rfl⟩
  rw [← hroles] at hdisjoint ⊢
  obtain ⟨hinputs, hstates, houtputs, hselectors⟩ : roles.inputs.Nodup ∧ roles.states.Nodup ∧
      roles.outputs.Nodup ∧ roles.selectors.Nodup := by
    rw [hroles]
    exact ⟨((nodup_eraseDups _).filter _).filter _, nodup_eraseDups _,
      ((nodup_eraseDups _).filter _).filter _, nodup_eraseDups _⟩
  -- inputs and outputs are sought among the signals that are neither states nor selectors
  have hfree : ∀ x, x ∈ roles.inputs ∨ x ∈ roles.outputs →
      (!roles.states.contains x && !roles.selectors.contains x) = true := by
    rw [hroles]
    rintro x (hx | hx)
    · exact (List.mem_filter.1 (List.mem_of_mem_filter hx)).2
    · exact (List.mem_filter.1 (List.mem_of_mem_filter hx)).2
  have houtput : ∀ x ∈ roles.outputs, (!roles.inputs.contains x) = true := by
    rw [hroles]
    exact fun x hx => (Bool.and_eq_true_iff.1 (List.mem_filter.1 hx).2).1
  simp only [Bool.and_eq_true, Bool.not_eq_true', List.contains_eq_mem, decide_eq_false_iff_not]
    at hfree houtput
  refine List.nodup_append'.2 ⟨List.nodup_append'.2 ⟨List.nodup_append'.2 ⟨hinputs, hstates, ?_⟩,
    houtputs, ?_⟩, hselectors, ?_⟩
  · exact List.disjoint_left.2 fun x hx => (hfree x (.inl hx)).1
  · refine List.disjoint_right.2 fun x hx => ?_
    rw [List.mem_append, not_or]
    exact ⟨houtput x hx, (hfree x (.inr hx)).1⟩
  · refine List.disjoint_left.2 fun x hx => ?_
    rcases List.mem_append.1 hx with hx | hx
    · rcases List.mem_append.1 hx with hx | hx
      · exact (hfree x (.inl hx)).2
      · exact List.disjoint_left.1 hdisjoint hx
    · exact (hfree x (.inr hx)).2

theorem inferRoles_suits : (inferRoles m equations {}).Suits equations := by
  obtain ⟨hroles, -, -⟩ := List.nodup_append'.1 (inferRoles_distinct hm hk)
  obtain ⟨hknowns, houtputs, -⟩ := List.nodup_append'.1 hroles
  refine ⟨hknowns, houtputs, ?_⟩
  cases equations with
  | nil => exact .inr ⟨rfl, rfl⟩
  | cons e equations => exact .inl (List.cons_ne_nil e equations)

end Model

namespace Solving

open Store Model

/-- Extraction with roles that suit the equations stays within its matrices. A system has one mode for
each setting of the selectors; in every mode exactly the blocks with rows and columns are there, and
they pass the check of their shapes. Elimination is such a solver, and the roles that are found in the
equations of a model suit them, with no signal in two roles. -/
theorem systemWith_well_shaped [Numerics R] :
    (∀ (solve : Solver R) (equations : List Equation) (roles : SystemRoles) (s : Store R),
      solve.KeepsShape → roles.Suits equations →
      (outcome (systemWith solve equations roles) s).1 ≠ .error (.system .outOfBounds) ∧
      ∀ system s', outcome (systemWith solve equations roles) s = (.ok system, s') →
        system.modes.length = 2 ^ roles.selectors.length ∧
        system.checkShape roles.states.length roles.inputs.length roles.outputs.length = .ok () ∧
        ∀ mode ∈ system.modes, ∀ block rows cols, (block, rows, cols) ∈ ModalSystem.expectedShapes
            roles.states.length roles.inputs.length roles.outputs.length →
          ((mode.block block).isSome = true ↔ rows ≠ 0 ∧ cols ≠ 0)) ∧
    Solver.KeepsShape (R := R) DenseMatrix.solve? ∧
    ∀ (m : Model R) (equations : List Equation), (m.Built fun _ _ => True) →
      Known m.store equations →
      (inferRoles m equations {}).Suits equations ∧ (inferRoles m equations {}).Distinct := by
  refine ⟨fun solve equations roles s hsolve hroles => ?_, DenseMatrix.keepsShape_solve?,
    fun m equations hm hk => ?_⟩
  · have hfits := systemWith_fits hsolve hroles s
    refine ⟨fun h => (hfits.elim_error (Prod.ext h rfl)).2 rfl, fun system s' h => ?_⟩
    obtain ⟨-, hlength, hmodes⟩ := hfits.elim_ok h
    exact ⟨hlength, ModalSystem.checkShape_eq_ok hmodes, fun mode hmode block rows cols hblock =>
      (hmodes mode hmode block rows cols hblock).1⟩
  · have hwell := hm.wellFormed_any
    exact ⟨inferRoles_suits hwell hk, inferRoles_distinct hwell hk⟩

section Filter

/-- A model with the equations of the filter. -/
def filterModel : Model ℚ :=
  Model.performAll { name := "m", dt := none } [.analogInput "u", .analogState "x" 1 0,
    .analogOutput "y" 0, .digitalInput "fast" 1 .unsigned, .unknown "t",
    .construct (.deriv 1),
    .construct (.sub (.signal 0) (.signal 1)),
    .construct (.arithmetic .product [.value (.real 4), .node 10]),
    .construct (.eqnCase [.node 10, .node 13] [3]),
    .construct (.arithmetic .sum [.signal 1, .signal 4]),
    .construct (.arithmetic .product [.value (.real 3), .signal 0])]

theorem filterModel_built : filterModel.Built fun _ _ => True :=
  .ofOperations (by decide +kernel)

/-- The model finds the roles that the filter was solved with. -/
theorem inferRoles_filterModel : inferRoles filterModel filterEquations {} = filterRoles := by
  have h : (inferRoles filterModel filterEquations {}).inputs = [0] ∧
      (inferRoles filterModel filterEquations {}).states = [1] ∧
      (inferRoles filterModel filterEquations {}).outputs = [2] ∧
      (inferRoles filterModel filterEquations {}).selectors = [3] := by
    decide +kernel
  cases hroles : inferRoles filterModel filterEquations {} with
  | mk inputs states outputs selectors =>
    rw [hroles] at h
    obtain ⟨rfl, rfl, rfl, rfl⟩ := h
    rfl

/-- The two modes of the filter have all four blocks. -/
theorem systemWith_well_shaped_filter :
    (filterModel.Built fun _ _ => True) ∧ Known filterModel.store filterEquations ∧
    filterRoles.Suits filterEquations ∧ filterRoles.Distinct ∧
    ModalSystem.checkShape ⟨[filterMode 1, filterMode 4]⟩ 1 1 1 = .ok () ∧
    ((filterMode 4).block .b).isSome = true := by
  have hk : Known filterModel.store filterEquations := by
    unfold Known
    decide +kernel
  obtain ⟨hextract, hsolve, hinfer⟩ := systemWith_well_shaped (R := ℚ)
  obtain ⟨hroles, hdistinct⟩ := hinfer filterModel filterEquations filterModel_built hk
  rw [inferRoles_filterModel] at hroles hdistinct
  obtain ⟨-, hshaped⟩ := hextract _ _ _ filterStore hsolve hroles
  obtain ⟨-, hcheck, hblocks⟩ := hshaped _ _ outcome_filter
  refine ⟨filterModel_built, hk, hroles, hdistinct, hcheck, ?_⟩
  exact (hblocks (filterMode 4) (by simp) .b 1 1 (by simp [ModalSystem.expectedShapes, filterRoles])).2
    (by simp)

end Filter

end Solving

end MixedSignal
