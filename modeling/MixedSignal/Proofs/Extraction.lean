import Mathlib
import MixedSignal.Proofs.Blocks
import MixedSignal.Proofs.Elimination
import MixedSignal.Proofs.LinearForm

/-!
# The systems that equations are solved for

A system is read off equations in every mode: the equations become linear forms (`Solving.formOf_means`),
the forms become a matrix equation `U * unknowns = V * knowns` (`Solving.Extracted.satisfies_iff`), the
solver turns it into `unknowns = X * knowns`, and the blocks of the system are cut out of `X`
(`Solving.governs_of_eq`).

The system is one of the solutions of the equations in every mode, for all inputs and states, and it is
the only one if there is an input or a state. Without one, the coefficients are not looked at, and
equations that leave the outputs open are accepted.
-/

set_option linter.unusedSectionVars false

namespace MixedSignal

/-! ## Lists without repetitions -/

section

variable {α : Type} [DecidableEq α]

theorem eraseDups_eq_self {xs : List α} (h : xs.Nodup) : xs.eraseDups = xs := by
  induction xs with
  | nil => simp
  | cons x xs ih =>
    rw [List.nodup_cons] at h
    rw [List.eraseDups_cons, List.filter_eq_self.2, ih h.2]
    intro y hy
    have hne : y ≠ x := by
      rintro rfl
      exact h.1 hy
    simpa using hne

/-- Elements that do not repeat stay in front. -/
theorem exists_eraseDups_append {xs : List α} (h : xs.Nodup) (ys : List α) :
    ∃ rest, (xs ++ ys).eraseDups = xs ++ rest :=
  ⟨_, by rw [List.eraseDups_append, eraseDups_eq_self h]⟩

end

/-- A sum over the elements of two lists. -/
theorem sum_append {α M : Type} [AddCommMonoid M] (xs ys : List α) (f : Nat → α → M) :
    ∑ j : Fin (xs ++ ys).length, f j (xs ++ ys)[j] =
      ∑ j : Fin xs.length, f j xs[j] + ∑ j : Fin ys.length, f (xs.length + j) ys[j] := by
  have hmapIdx : ∀ (zs : List α) (g : Nat → α → M),
      ∑ j : Fin zs.length, g j zs[j] = (zs.mapIdx g).sum := by
    intro zs g
    rw [List.mapIdx_eq_ofFn, List.sum_ofFn]
    rfl
  rw [hmapIdx, hmapIdx, hmapIdx ys fun j => f (xs.length + j), List.mapIdx_append, List.sum_append]
  simp only [add_comm]

/-! ## Shapes -/

namespace Solving

section

variable {R : Type} [Scalar R] {s : Store R} {solve : Solver R} {roles : SystemRoles}
  {forms : List (LinearForm R)} {us : List LinearVar} {ks : List SignalId}

theorem hasShape_ofRows {rows : List (List R)} (cols : Nat) (hne : rows ≠ [])
    (h : ∀ r ∈ rows, r.length = cols) : (DenseMatrix.ofRows rows).HasShape rows.length cols := by
  cases rows with
  | nil => exact absurd rfl hne
  | cons r rows => exact ⟨rfl, h r (by simp)⟩

theorem hasShape_unknownMatrix (hne : forms ≠ []) (hlength : forms.length = us.length) :
    (unknownMatrix forms us).HasShape us.length us.length := by
  have hshape : (unknownMatrix forms us).HasShape _ us.length :=
    hasShape_ofRows us.length (by simpa using hne) (by simp)
  rwa [List.length_map, hlength] at hshape

theorem hasShape_knownMatrix (ks : List SignalId) (hne : forms ≠ [])
    (hlength : forms.length = us.length) :
    (knownMatrix forms us ks).HasShape us.length ks.length := by
  have hshape : (knownMatrix forms us ks).HasShape _ ks.length :=
    hasShape_ofRows ks.length (by simpa using hne) (by simp)
  rwa [List.length_map, hlength] at hshape

/-- The unknowns start with the derivatives and the outputs. -/
theorem unknowns_front (hstates : roles.states.Nodup) (houtputs : roles.outputs.Nodup)
    (h : unknowns s roles forms = .ok us) : ∃ rest, us =
      roles.states.map LinearVar.deriv ++ roles.outputs.map LinearVar.signal ++ rest := by
  have hfront : (roles.states.map LinearVar.deriv ++ roles.outputs.map LinearVar.signal).Nodup := by
    refine List.nodup_append'.2 ⟨?_, ?_, by simp [List.disjoint_left]⟩
    · exact hstates.map fun _ _ h => LinearVar.deriv.inj h
    · exact houtputs.map fun _ _ h => LinearVar.signal.inj h
  unfold unknowns at h
  cases hi : (forms.flatMap fun f => f.terms.map (·.1)).mapM (internal? s roles) with
  | error e =>
    rw [hi] at h
    cases h
  | ok internal =>
    rw [hi] at h
    cases h
    exact exists_eraseDups_append hfront _

/-- A solution is found if there are as many equations as unknowns. The solver is asked only if there
is a known. -/
theorem solution_cases {x : DenseMatrix R} (h : solution solve forms us ks = .ok x) :
    forms.length = us.length ∧ (ks = [] ∨ forms ≠ [] ∧
      solve (unknownMatrix forms us) (knownMatrix forms us ks) = some x) := by
  unfold solution at h
  split_ifs at h with hlt hgt hempty hnone
  · exact ⟨by omega, .inl (List.isEmpty_iff.1 hempty)⟩
  · refine ⟨by omega, .inr ⟨?_, ?_⟩⟩
    · rintro rfl
      exact hnone (by simpa using hlt)
    · split at h
      · cases h
        assumption
      · cases h

theorem blocks_eq_ok {x : DenseMatrix R} {system : StateSpace R}
    (h : blocks roles x = .ok system) :
    cutBlock x 0 roles.states.length roles.inputs.length roles.states.length =
      .ok (system.block .a) ∧
    cutBlock x 0 roles.states.length 0 roles.inputs.length = .ok (system.block .b) ∧
    cutBlock x roles.states.length roles.outputs.length roles.inputs.length roles.states.length =
      .ok (system.block .c) ∧
    cutBlock x roles.states.length roles.outputs.length 0 roles.inputs.length =
      .ok (system.block .d) := by
  unfold blocks at h
  simp only [bind, Except.bind] at h
  repeat' split at h
  all_goals cases h
  exact ⟨‹_›, ‹_›, ‹_›, ‹_›⟩

end

end Solving

/-! ## Specifications -/

variable {R : Type} [ExactScalar R] {i : Nat} {f : LinearForm R}

namespace Solver

/-- Whatever the solver returns is a solution. -/
def Sound (solve : Solver R) : Prop :=
  ∀ {n k : Nat} {u v x : DenseMatrix R}, u.HasShape n n → v.HasShape n k → solve u v = some x →
    u.toMatrix n n * x.toMatrix n k = v.toMatrix n k

/-- The solver fails exactly on singular matrices. -/
def FailsOnSingular (solve : Solver R) : Prop :=
  ∀ {n k : Nat} {u v : DenseMatrix R}, u.HasShape n n → v.HasShape n k →
    (solve u v = none ↔ (u.toMatrix n n).det = 0)

end Solver

/-- Both sides of every equation mean the same. -/
def Store.Satisfies (s : Store R) (ρ : Reading R) (v : LinearVar → R)
    (equations : List Equation) : Prop :=
  ∀ e ∈ equations, s.meaning ρ v e.lhs = s.meaning ρ v e.rhs

namespace StateSpace

/-- A row of a block times the values of signals; an absent block reads as zero. -/
def row (system : StateSpace R) (block : Block) (i : Nat) (xs : List SignalId)
    (v : LinearVar → R) : R :=
  ∑ j : Fin xs.length, system.coefficient block i j * v (.signal xs[j])

/-- The derivatives of the states are `A x + B u`, and the outputs are `C x + D u`. -/
structure Governs (system : StateSpace R) (roles : SystemRoles) (v : LinearVar → R) : Prop where
  deriv : ∀ i x, roles.states[i]? = some x →
    v (.deriv x) = system.row .a i roles.states v + system.row .b i roles.inputs v
  output : ∀ i y, roles.outputs[i]? = some y →
    v (.signal y) = system.row .c i roles.states v + system.row .d i roles.inputs v

end StateSpace

namespace SystemRoles

/-- No signal plays two parts. -/
def Distinct (roles : SystemRoles) : Prop :=
  (roles.inputs ++ roles.states ++ roles.outputs ++ roles.selectors).Nodup

/-- The bits of the selectors are those of a mode, the first one most significant. -/
def InMode (roles : SystemRoles) (mode : Nat) (ρ : Reading R) : Prop :=
  ∀ i x, roles.selectors[i]? = some x →
    ρ.bit x = mode.testBit (roles.selectors.length - 1 - i)

end SystemRoles

namespace Solving

open Store

variable {rounding : Rounding R} {s s' t : Store R} {solve : Solver R} {equations : List Equation}
  {roles : SystemRoles} {setting : SignalId → Option Bool} {system : StateSpace R}

/-! ## Equations as linear forms -/

/-- The form has no constant, collects its variables, and is the difference of the sides. -/
structure Represents (s : Store R) (ρ : Reading R) (v : LinearVar → R) (e : Equation)
    (f : LinearForm R) : Prop where
  constant : f.constant = 0
  nodup : f.vars.Nodup
  value : f.value v = s.meaning ρ v e.lhs - s.meaning ρ v e.rhs

theorem formOf_means {ρ : Reading R} (hρ : ρ.Agrees setting) (v : LinearVar → R)
    (hs : s.WellTyped rounding) {e : Equation} (hl : e.lhs < s.nodes.size)
    (hr : e.rhs < s.nodes.size) :
    Ensures (Grown rounding) (formOf setting e) s (fun _ => True) fun f _ =>
      Represents s ρ v e f := by
  have hbuild : ∀ {x : Build R NodeId} {t : Store R} {P : NodeId → Store R → Prop},
      Ensures (Grown rounding) x t (fun _ => True) P →
      Ensures (Grown rounding) (build x) t (fun _ => True) P :=
    fun h => build_ensures h fun _ _ => trivial
  refine (hbuild (Build.resolveCases_means (v := v) hρ hs hl)).bind fun l t ht hl' => ?_
  have hst := ht.wellTyped hs
  refine (hbuild (Build.resolveCases_means (v := v) hρ hst (hr.trans_le ht.size_le))).bind
    fun r u hu hr' => ?_
  have hsu := hu.wellTyped hst
  have hlu : l < u.nodes.size := hl'.right_lt.trans_le hu.size_le
  refine (hbuild (Build.sub_means ρ v (a := .node l) (b := .node r) hsu hlu hr'.right_lt)).bind
    fun d w hw hd => ?_
  have hsw := hw.wellTyped hsu
  refine (hbuild (Build.distributeProducts_means (v := v) ρ hsw hd.1)).bind fun k y hy hk => ?_
  refine Ensures.get_bind ?_
  simp only
  split
  · exact Ensures.throw trivial
  · rename_i f hf
    split
    · exact Ensures.throw_bind trivial
    · rename_i hconst
      have hsy := hy.wellTyped hsw
      refine Ensures.pure ⟨by simpa using hconst, LinearForm.nodup_of_ofNode? hf, ?_⟩
      rw [← LinearForm.meaning_eq_value (ρ := ρ) hsy hk.right_lt hf, hk.eq,
        hsw.meaning_extends hy.toExtends d hd.1, hd.2]
      change u.meaning ρ v l - u.meaning ρ v r = _
      rw [hst.meaning_extends hu.toExtends l hl'.right_lt, hl'.eq, hr'.eq,
        hst.meaning_extends hu.toExtends e.rhs (hr.trans_le ht.size_le),
        hs.meaning_extends ht.toExtends e.rhs hr, hs.meaning_extends ht.toExtends e.lhs hl]

theorem forms_mean {ρ : Reading R} (hρ : ρ.Agrees setting) (v : LinearVar → R)
    (hs : s.WellTyped rounding) (hk : Known s equations) (hg : s.Grown rounding t) :
    Ensures (Grown rounding) (equations.mapM (formOf setting)) t (fun _ => True) fun forms _ =>
      List.Forall₂ (Represents s ρ v) equations forms := by
  refine Ensures.mapM (Q := fun e f _ => Represents s ρ v e f) (fun _ _ _ _ _ h => h) equations t
    fun e he w hw => ?_
  have hsw : s.Grown rounding w := trans_of _ hg hw
  obtain ⟨hl, hr⟩ := hk e he
  refine (formOf_means hρ v (hsw.wellTyped hs) (hl.trans_le hsw.size_le)
    (hr.trans_le hsw.size_le)).imp fun f _ _ hf => ⟨hf.constant, hf.nodup, ?_⟩
  rw [hf.value, hs.meaning_extends hsw.toExtends e.lhs hl,
    hs.meaning_extends hsw.toExtends e.rhs hr]

/-- What the extraction of a system in one mode goes through: the forms of the equations, the unknowns
and the solution. -/
structure Extracted (solve : Solver R) (s : Store R) (equations : List Equation)
    (roles : SystemRoles) (setting : SignalId → Option Bool) (system : StateSpace R)
    (forms : List (LinearForm R)) (us : List LinearVar) (x : DenseMatrix R) : Prop where
  means : ∀ ρ : Reading R, ρ.Agrees setting → ∀ v,
    List.Forall₂ (Represents s ρ v) equations forms
  unknowns : ∃ u : Store R, unknowns u roles forms = .ok us
  solution : solution solve forms us (knowns roles) = .ok x
  blocks : blocks roles x = .ok system

theorem exists_extracted (hs : s.WellTyped rounding) (hk : Known s equations)
    (hg : s.Grown rounding t) (h : outcome (mode solve equations roles setting) t = (.ok system, s')) :
    ∃ forms us x, Extracted solve s equations roles setting system forms us x := by
  unfold mode at h
  obtain ⟨forms, u, hforms, h⟩ := outcome_bind_eq_ok h
  rw [outcome_get_bind] at h
  simp only at h
  split at h
  · rename_i result hresult
    cases h
    cases hus : Solving.unknowns s' roles forms with
    | error e =>
      rw [hus] at hresult
      cases hresult
    | ok us =>
      rw [hus] at hresult
      cases hx : Solving.solution solve forms us (knowns roles) with
      | error e =>
        simp only [bind, Except.bind, hx] at hresult
        cases hresult
      | ok x =>
        simp only [bind, Except.bind, hx] at hresult
        refine ⟨forms, us, x, fun ρ hρ v => ?_, ⟨s', hus⟩, hx, hresult⟩
        exact ((forms_mean hρ v hs hk hg).elim_ok hforms).2
  · cases h

/-! ## Knowns and unknowns -/

theorem knowns_eq (h : roles.Distinct) : knowns roles = roles.inputs ++ roles.states :=
  eraseDups_eq_self (h.of_append_left.of_append_left)

/-- A variable that is accepted is a known or a derivative of a state, or else it is an unknown. -/
theorem internal?_cases {w : LinearVar} {o : Option LinearVar}
    (h : internal? s roles w = .ok o) :
    o = none ∧ (w ∈ roles.states.map LinearVar.deriv ∨ w ∈ (knowns roles).map LinearVar.signal) ∨
      o = some w ∧ w ∉ (knowns roles).map LinearVar.signal ∧
        w ∉ roles.selectors.map LinearVar.signal := by
  cases w with
  | deriv x =>
    rw [internal?] at h
    split_ifs at h with hx
    cases h
    exact .inl ⟨rfl, .inl (by simpa using hx)⟩
  | signal x =>
    rw [internal?] at h
    split_ifs at h with hx
    · cases h
      exact .inl ⟨rfl, .inr (by simpa using hx)⟩
    · dsimp only at h
      split_ifs at h with hrefused
      cases h
      rw [Bool.or_eq_true, not_or] at hrefused
      exact .inr ⟨rfl, by simpa using hx, by simpa using hrefused.1⟩

/-- The unknowns start with the derivatives and the outputs, none of them is a known or a selector, and
all variables of the forms are among the unknowns and the knowns. -/
structure Splits (roles : SystemRoles) (forms : List (LinearForm R)) (us : List LinearVar) :
    Prop where
  front : ∃ rest, us = roles.states.map LinearVar.deriv ++ roles.outputs.map LinearVar.signal ++ rest
  nodup : (us ++ (knowns roles).map LinearVar.signal).Nodup
  selectors : ∀ x ∈ roles.selectors, LinearVar.signal x ∉ us
  covers : ∀ f ∈ forms, ∀ w ∈ f.vars, w ∈ us ++ (knowns roles).map LinearVar.signal

theorem splits_of_unknowns (hd : roles.Distinct) {forms : List (LinearForm R)}
    {us : List LinearVar} (h : unknowns s roles forms = .ok us) : Splits roles forms us := by
  obtain ⟨hdistinct, -, hselector⟩ := List.nodup_append'.1 hd
  obtain ⟨hknowns, houtputs, houtput⟩ := List.nodup_append'.1 hdistinct
  have hfront := unknowns_front (List.nodup_append'.1 hknowns).2.1 houtputs h
  unfold unknowns at h
  cases hi : (forms.flatMap fun f => f.terms.map (·.1)).mapM (internal? s roles) with
  | error e =>
    rw [hi] at h
    cases h
  | ok internal =>
    rw [hi] at h
    cases h
    have hvars := forall₂_of_mapM_eq_ok hi
    -- an unknown signal is an output or one that the roles do not name
    have hsignal : ∀ x, LinearVar.signal x ∈ (roles.states.map LinearVar.deriv ++
        roles.outputs.map LinearVar.signal ++ internal.filterMap id).eraseDups →
        x ∈ roles.outputs ∨ x ∉ knowns roles ∧ x ∉ roles.selectors := by
      intro x hx
      rw [List.mem_eraseDups, List.mem_append, List.mem_append] at hx
      rcases hx with (hx | hx) | hx
      · simp at hx
      · exact .inl (by simpa using hx)
      · obtain ⟨o, ho, hox⟩ := List.mem_filterMap.1 hx
        obtain ⟨w, -, hw⟩ := forall₂_exists_left hvars o ho
        rcases internal?_cases hw with ⟨rfl, -⟩ | ⟨rfl, hnot, hnot'⟩
        · cases hox
        · cases hox
          exact .inr ⟨by simpa using hnot, by simpa using hnot'⟩
    refine ⟨hfront, ?_, fun x hx hmem => ?_, fun f hf w hw => ?_⟩
    · refine List.nodup_append'.2 ⟨nodup_eraseDups _, ?_, ?_⟩
      · exact (nodup_eraseDups _).map fun _ _ h => LinearVar.signal.inj h
      · refine List.disjoint_left.2 fun w hw hknown => ?_
        obtain ⟨x, hx, rfl⟩ := List.mem_map.1 hknown
        rcases hsignal x hw with hout | hnot
        · rw [knowns_eq hd] at hx
          exact List.disjoint_left.1 houtput hx hout
        · exact hnot.1 hx
    · rcases hsignal x hmem with hout | hnot
      · exact List.disjoint_left.1 hselector (List.mem_append_right _ hout) hx
      · exact hnot.2 hx
    · have hmem : w ∈ forms.flatMap fun f => f.terms.map (·.1) := List.mem_flatMap.2 ⟨f, hf, hw⟩
      obtain ⟨o, ho, hwo⟩ := forall₂_exists_right hvars w hmem
      rw [List.mem_append, List.mem_eraseDups, List.mem_append, List.mem_append]
      rcases internal?_cases hwo with ⟨-, hstate | hknown⟩ | ⟨rfl, -⟩
      · exact .inl (.inl (.inl hstate))
      · exact .inr hknown
      · exact .inl (.inr (List.mem_filterMap.2 ⟨some w, ho, rfl⟩))

/-! ## The matrix equation -/

theorem get_ofRows {rows : List (List R)} (cols : Nat) (h : ∀ r ∈ rows, r.length = cols) {j : Nat}
    {r : List R} {c : R} (hi : rows[i]? = some r) (hj : r[j]? = some c) :
    (DenseMatrix.ofRows rows).get i j = c := by
  obtain ⟨hlt, -⟩ := List.getElem?_eq_some_iff.1 hi
  obtain ⟨hlt', -⟩ := List.getElem?_eq_some_iff.1 hj
  have hshape := hasShape_ofRows cols (List.ne_nil_of_length_pos (Nat.zero_lt_of_lt hlt)) h
  rw [h r (List.mem_of_getElem? hi), ← hshape.2] at hlt'
  refine (DenseMatrix.get_ofFn hlt hlt').trans ?_
  rw [List.getD_eq_getElem?_getD, List.getD_eq_getElem?_getD, hi, Option.getD_some, hj,
    Option.getD_some]

variable {forms : List (LinearForm R)} {us : List LinearVar} {ks : List SignalId}

theorem get_unknownMatrix (hf : forms[i]? = some f) (j : Fin us.length) :
    (unknownMatrix forms us).get i j = (f.coefficient us[j]).getD 0 := by
  refine get_ofRows us.length (by simp) (by rw [List.getElem?_map, hf]; rfl) ?_
  rw [List.getElem?_map, List.getElem?_eq_getElem j.2, Option.map_some]
  rw [Fin.getElem_fin]
  cases hc : f.coefficient us[j.1] with
  | none => simp only [Option.getD_none]
  | some c => simp only [zero_add, Option.getD_some]

theorem get_knownMatrix (hf : forms[i]? = some f) (j : Fin ks.length)
    (hj : LinearVar.signal ks[j] ∉ us) :
    (knownMatrix forms us ks).get i j = -(f.coefficient (.signal ks[j])).getD 0 := by
  refine get_ofRows ks.length (by simp) (by rw [List.getElem?_map, hf]; rfl) ?_
  rw [List.getElem?_map, List.getElem?_eq_getElem j.2, Option.map_some]
  rw [Fin.getElem_fin] at hj ⊢
  cases hc : f.coefficient (.signal ks[j.1]) with
  | none => simp only [Option.getD_none, neg_zero]
  | some c =>
    simp only [List.contains_eq_mem, hj, decide_false, Bool.false_eq_true, ↓reduceIte, zero_sub,
      Option.getD_some]

/-- The matrix that the unknowns are multiplied by. -/
def unknownCoefficients (forms : List (LinearForm R)) (us : List LinearVar) :
    Matrix (Fin us.length) (Fin us.length) R :=
  (unknownMatrix forms us).toMatrix us.length us.length

/-- The matrix that the knowns are multiplied by. -/
def knownCoefficients (forms : List (LinearForm R)) (us : List LinearVar) (ks : List SignalId) :
    Matrix (Fin us.length) (Fin ks.length) R :=
  (knownMatrix forms us ks).toMatrix us.length ks.length

/-- The values of the unknowns. -/
def unknownValues (us : List LinearVar) (v : LinearVar → R) (j : Fin us.length) : R := v us[j]

/-- The values of the knowns. -/
def knownValues (ks : List SignalId) (v : LinearVar → R) (j : Fin ks.length) : R := v (.signal ks[j])

/-- A form is a row of the matrix equation. -/
theorem value_eq_row (hsplits : Splits roles forms us) {i : Fin us.length} (hi : forms[i]? = some f)
    (hconst : f.constant = 0) (hnodup : f.vars.Nodup) (v : LinearVar → R) :
    f.value v =
      (unknownCoefficients forms us).mulVec (unknownValues us v) i -
        (knownCoefficients forms us (knowns roles)).mulVec (knownValues (knowns roles) v) i := by
  have hdisjoint : ∀ j : Fin (knowns roles).length, LinearVar.signal (knowns roles)[j] ∉ us := by
    intro j hmem
    exact List.disjoint_left.1 (List.nodup_append'.1 hsplits.nodup).2.2 hmem
      (List.mem_map_of_mem (List.getElem_mem _))
  have hunknown : (unknownCoefficients forms us).mulVec
      (unknownValues us v) i = (us.map fun w => (f.coefficient w).getD 0 * v w).sum := by
    rw [← Fin.sum_univ_fun_getElem]
    change ∑ j : Fin us.length, (unknownMatrix forms us).get i j * v us[j] = _
    exact Finset.sum_congr rfl fun j _ => congrArg (· * v us[j]) (get_unknownMatrix hi j)
  have hknown : (knownCoefficients forms us (knowns roles)).mulVec
      (knownValues (knowns roles) v) i = -(((knowns roles).map LinearVar.signal).map fun w =>
        (f.coefficient w).getD 0 * v w).sum := by
    rw [List.map_map, ← Fin.sum_univ_fun_getElem, ← Finset.sum_neg_distrib]
    change ∑ j : Fin (knowns roles).length, (knownMatrix forms us (knowns roles)).get i j *
      v (.signal (knowns roles)[j]) = _
    refine Finset.sum_congr rfl fun j _ => ?_
    rw [get_knownMatrix hi j (hdisjoint j)]
    exact neg_mul _ _
  rw [hunknown, hknown, sub_neg_eq_add, ← List.sum_append, ← List.map_append, LinearForm.value,
    hconst, zero_add]
  exact LinearForm.sum_terms hnodup hsplits.nodup (hsplits.covers f (List.mem_of_getElem? hi)) v

/-! ## Blocks -/

theorem coefficient_eq_get {x : DenseMatrix R} {row rows col cols : Nat} {block : Block}
    (h : cutBlock x row rows col cols = .ok (system.block block)) {j : Nat} (hi : i < rows)
    (hj : j < cols) : system.coefficient block i j = x.get (row + i) (col + j) := by
  unfold cutBlock at h
  split_ifs at h with hzero
  · omega
  · rw [StateSpace.coefficient, ← Except.ok.inj h]
    exact DenseMatrix.get_ofFn hi hj

/-- A row of two blocks beside each other times the knowns. -/
theorem row_add_row {left right : Block} {x : DenseMatrix R} {k : Nat}
    {inputs states : List SignalId} (v : LinearVar → R)
    (hright : ∀ j < states.length, system.coefficient right i j = x.get k (inputs.length + j))
    (hleft : ∀ j < inputs.length, system.coefficient left i j = x.get k j) :
    system.row right i states v + system.row left i inputs v =
      ∑ j : Fin (inputs ++ states).length, x.get k j * v (.signal (inputs ++ states)[j]) := by
  rw [sum_append inputs states fun j y => x.get k j * v (.signal y), add_comm]
  refine congrArg₂ (· + ·) ?_ ?_
  · exact Finset.sum_congr rfl fun j _ => by rw [hleft j j.2]
  · exact Finset.sum_congr rfl fun j _ => by rw [hright j j.2]

/-- Values of the unknowns that are the solution times the knowns follow the system. -/
theorem governs_of_eq {x : DenseMatrix R} (hks : ks = roles.inputs ++ roles.states)
    (hfront : ∃ rest, us =
      roles.states.map LinearVar.deriv ++ roles.outputs.map LinearVar.signal ++ rest)
    (hblocks : blocks roles x = .ok system) {v : LinearVar → R}
    (h : unknownValues us v = (x.toMatrix us.length ks.length).mulVec (knownValues ks v)) :
    system.Governs roles v := by
  subst hks
  obtain ⟨rest, rfl⟩ := hfront
  obtain ⟨ha, hb, hc, hd⟩ := blocks_eq_ok hblocks
  have hrow : ∀ k w, (roles.states.map LinearVar.deriv ++ roles.outputs.map LinearVar.signal ++
      rest)[k]? = some w → v w = ∑ j : Fin (roles.inputs ++ roles.states).length,
        x.get k j * v (.signal (roles.inputs ++ roles.states)[j]) := by
    intro k w hk
    obtain ⟨hlt, rfl⟩ := List.getElem?_eq_some_iff.1 hk
    exact congrFun h ⟨k, hlt⟩
  refine ⟨fun i y hy => ?_, fun i y hy => ?_⟩
  · have hi : i < roles.states.length := (List.getElem?_eq_some_iff.1 hy).1
    rw [row_add_row (k := i) v (fun j hj => ?_) fun j hj => ?_]
    · refine hrow i (.deriv y) ?_
      rw [List.append_assoc, List.getElem?_append_left (by simpa using hi), List.getElem?_map, hy]
      rfl
    · exact (coefficient_eq_get ha hi hj).trans (by rw [zero_add])
    · exact (coefficient_eq_get hb hi hj).trans (by rw [zero_add, zero_add])
  · have hi : i < roles.outputs.length := (List.getElem?_eq_some_iff.1 hy).1
    rw [row_add_row (k := roles.states.length + i) v (fun j hj => ?_) fun j hj => ?_]
    · refine hrow (roles.states.length + i) (.signal y) ?_
      rw [List.append_assoc, List.getElem?_append_right (by simp), List.length_map,
        Nat.add_sub_cancel_left, List.getElem?_append_left (by simpa using hi), List.getElem?_map,
        hy]
      rfl
    · exact coefficient_eq_get hc hi hj
    · exact (coefficient_eq_get hd hi hj).trans (by rw [zero_add])

/-! ## One mode -/

namespace Extracted

variable {x : DenseMatrix R} {ρ : Reading R} {v : LinearVar → R}

section

variable (h : Extracted solve s equations roles setting system forms us x)
include h

theorem splits (hd : roles.Distinct) : Splits roles forms us := by
  obtain ⟨u, hu⟩ := h.unknowns
  exact splits_of_unknowns hd hu

theorem length_eq : forms.length = us.length :=
  (solution_cases h.solution).1

/-- The equations hold exactly if the matrix equation does. -/
theorem satisfies_iff (hd : roles.Distinct) (hρ : ρ.Agrees setting) (v : LinearVar → R) :
    s.Satisfies ρ v equations ↔
      (unknownCoefficients forms us).mulVec (unknownValues us v) =
        (knownCoefficients forms us (knowns roles)).mulVec (knownValues (knowns roles) v) := by
  have hmeans := h.means ρ hρ v
  have hrow : ∀ (i : Fin us.length) f, forms[i]? = some f → f.value v =
      (unknownCoefficients forms us).mulVec (unknownValues us v) i -
        (knownCoefficients forms us (knowns roles)).mulVec (knownValues (knowns roles) v) i := by
    intro i f hf
    obtain ⟨e, -, hrep⟩ := forall₂_exists_left hmeans f (List.mem_of_getElem? hf)
    exact value_eq_row (h.splits hd) hf hrep.constant hrep.nodup v
  rw [funext_iff]
  constructor
  · intro hsat i
    have hi : (i : Nat) < forms.length := i.2.trans_eq h.length_eq.symm
    obtain ⟨e, he, hrep⟩ := forall₂_exists_left hmeans forms[i] (List.getElem_mem hi)
    rw [← sub_eq_zero, ← hrow i forms[i] (List.getElem?_eq_getElem hi), hrep.value, hsat e he,
      sub_self]
  · intro heq e he
    obtain ⟨f, hf, hrep⟩ := forall₂_exists_right hmeans e he
    obtain ⟨i, hi⟩ := List.mem_iff_getElem?.1 hf
    have hlt : i < us.length := (List.getElem?_eq_some_iff.1 hi).1.trans_eq h.length_eq
    rw [← sub_eq_zero, ← hrep.value, hrow ⟨i, hlt⟩ f hi, heq, sub_self]

/-- What the solver returns solves the matrix equation; without knowns there is nothing to solve. -/
theorem mul_eq (hsolve : solve.Sound) :
    unknownCoefficients forms us * x.toMatrix us.length (knowns roles).length =
      knownCoefficients forms us (knowns roles) := by
  obtain ⟨hlength, hnil | ⟨hne, hx⟩⟩ := solution_cases h.solution
  · refine Matrix.ext fun i j => ?_
    have hlength : (knowns roles).length = 0 := by rw [hnil, List.length_nil]
    exact absurd j.2 (by omega)
  · exact hsolve (hasShape_unknownMatrix hne hlength)
      (hasShape_knownMatrix (knowns roles) hne hlength) hx

/-- With a known, the matrix of a system is not singular. -/
theorem det_ne_zero (hsolve : solve.FailsOnSingular) (hknown : knowns roles ≠ []) :
    (unknownCoefficients forms us).det ≠ 0 := by
  obtain ⟨hlength, hnil | ⟨hne, hx⟩⟩ := solution_cases h.solution
  · exact absurd hnil hknown
  · intro hdet
    have hnone := (hsolve (hasShape_unknownMatrix hne hlength)
      (hasShape_knownMatrix (knowns roles) hne hlength)).2 hdet
    rw [hx] at hnone
    cases hnone

end

/-- Values with the unknowns replaced by the solution times the knowns. -/
def solved (us : List LinearVar) (ks : List SignalId) (x : DenseMatrix R) (w : LinearVar → R)
    (y : LinearVar) : R :=
  if h : y ∈ us then (x.toMatrix us.length ks.length).mulVec (knownValues ks w)
    ⟨us.idxOf y, List.idxOf_lt_length_iff.2 h⟩
  else w y

theorem solved_of_notMem (w : LinearVar → R) {y : LinearVar} (hy : y ∉ us) :
    solved us ks x w y = w y :=
  dif_neg hy

theorem unknownValues_solved (hus : us.Nodup) (ks : List SignalId) (x : DenseMatrix R)
    (w : LinearVar → R) :
    unknownValues us (solved us ks x w) =
      (x.toMatrix us.length ks.length).mulVec (knownValues ks w) := by
  funext j
  have hmem : us[j] ∈ us := List.getElem_mem j.2
  refine (dif_pos hmem).trans (congrArg _ (Fin.ext ?_))
  exact hus.idxOf_getElem j j.2

/-- In every reading that agrees with the setting, the known values extend to values that satisfy the
equations and follow the system. -/
theorem exists_solution (h : Extracted solve s equations roles setting system forms us x)
    (hsolve : solve.Sound) (hd : roles.Distinct) {ρ : (LinearVar → R) → Reading R}
    (hρ : ∀ v, (ρ v).Agrees setting) (w : LinearVar → R) :
    ∃ v, (∀ y ∈ roles.inputs ++ roles.states ++ roles.selectors, v (.signal y) = w (.signal y)) ∧
      s.Satisfies (ρ v) v equations ∧ system.Governs roles v := by
  have hsplits := h.splits hd
  obtain ⟨hus, -, hdisjoint⟩ := List.nodup_append'.1 hsplits.nodup
  have hkept : ∀ y ∈ knowns roles, solved us (knowns roles) x w (.signal y) = w (.signal y) :=
    fun y hy => solved_of_notMem w fun hmem =>
      List.disjoint_left.1 hdisjoint hmem (List.mem_map_of_mem hy)
  have hknown : knownValues (knowns roles) (solved us (knowns roles) x w) =
      knownValues (knowns roles) w :=
    funext fun j => hkept _ (List.getElem_mem j.2)
  have hunknown := unknownValues_solved hus (knowns roles) x w
  rw [← hknown] at hunknown
  refine ⟨solved us (knowns roles) x w, fun y hy => ?_, ?_, ?_⟩
  · rcases List.mem_append.1 hy with hy | hy
    · exact hkept y (by rwa [knowns_eq hd])
    · exact solved_of_notMem w (hsplits.selectors y hy)
  · rw [h.satisfies_iff hd (hρ _), hunknown, Matrix.mulVec_mulVec, h.mul_eq hsolve]
  · exact governs_of_eq (knowns_eq hd) hsplits.front h.blocks hunknown

/-- If there is a known, then values that satisfy the equations follow the system. -/
theorem governs_of_satisfies (h : Extracted solve s equations roles setting system forms us x)
    (hsound : solve.Sound) (hsolve : solve.FailsOnSingular) (hd : roles.Distinct)
    (hknown : knowns roles ≠ []) (hρ : ρ.Agrees setting) (hsat : s.Satisfies ρ v equations) :
    system.Governs roles v := by
  refine governs_of_eq (knowns_eq hd) (h.splits hd).front h.blocks ?_
  rw [h.satisfies_iff hd hρ, ← h.mul_eq hsound, ← Matrix.mulVec_mulVec, ← sub_eq_zero,
    ← Matrix.mulVec_sub] at hsat
  exact sub_eq_zero.1 (Matrix.eq_zero_of_mulVec_eq_zero (h.det_ne_zero hsolve hknown) hsat)

end Extracted

/-! ## Every mode -/

/-- The setting of a mode gives a selector the bit of one of its places. -/
theorem modeSetting_eq_some {selectors : List SignalId} {m : Nat} {x : SignalId} {b : Bool}
    (h : modeSetting selectors m x = some b) :
    ∃ i, selectors[i]? = some x ∧ m.testBit (selectors.length - 1 - i) = b := by
  obtain ⟨⟨y, i⟩, hfind, rfl⟩ := Option.map_eq_some_iff.1 h
  have hmem := List.mem_reverse.1 (List.mem_of_find?_eq_some hfind)
  obtain rfl : y = x := by simpa using List.find?_some hfind
  exact ⟨i, List.mem_zipIdx_iff_getElem?.1 hmem, rfl⟩

theorem agrees_modeSetting {m : Nat} {ρ : Reading R} (h : roles.InMode m ρ) :
    ρ.Agrees (modeSetting roles.selectors m) := by
  intro x b hb
  obtain ⟨i, hi, rfl⟩ := modeSetting_eq_some hb
  exact h i x hi

theorem extracted_of_systemWith (hs : s.Built fun _ _ => True) (hk : Known s equations)
    {system : ModalSystem R} (h : outcome (systemWith solve equations roles) s = (.ok system, s')) :
    system.modes.length = 2 ^ roles.selectors.length ∧
      ∀ (m : Nat) (result : StateSpace R), system.modes[m]? = some result → ∃ forms us x,
        Extracted solve s equations roles (modeSetting roles.selectors m) result forms us x := by
  have hst := hs.wellTyped_any
  obtain ⟨hlength, hmodes⟩ := modes_of_systemWith hst hk h
  refine ⟨hlength, fun m result hresult => ?_⟩
  obtain ⟨t, t', hg, hmode⟩ := hmodes m result hresult
  exact exists_extracted hst hk hg hmode

/-- Extraction is sound: in every mode, the values of the inputs and the states extend to values that
satisfy all equations, and in which the derivatives and outputs are those of the system. How bits and
addresses are read may depend on the values. -/
theorem systemWith_sound (hsolve : solve.Sound) (hs : s.Built fun _ _ => True)
    (hk : Known s equations) (hd : roles.Distinct) {system : ModalSystem R}
    (h : outcome (systemWith solve equations roles) s = (.ok system, s')) :
    system.modes.length = 2 ^ roles.selectors.length ∧
      ∀ (m : Nat) (mode : StateSpace R), system.modes[m]? = some mode →
      ∀ ρ : (LinearVar → R) → Reading R, (∀ v, roles.InMode m (ρ v)) →
      ∀ w : LinearVar → R, ∃ v : LinearVar → R,
        (∀ x ∈ roles.inputs ++ roles.states ++ roles.selectors, v (.signal x) = w (.signal x)) ∧
        s.Satisfies (ρ v) v equations ∧ mode.Governs roles v := by
  obtain ⟨hlength, hmodes⟩ := extracted_of_systemWith hs hk h
  refine ⟨hlength, fun m mode hm ρ hρ w => ?_⟩
  obtain ⟨forms, us, x, hextracted⟩ := hmodes m mode hm
  exact hextracted.exists_solution hsolve hd (fun v => agrees_modeSetting (hρ v)) w

section Filter

/-- A low-pass filter from `u` to `x` with two speeds, and an output `y` through the variable `t`. -/
def filterStore : Store ℚ :=
  Store.runAll {} [
    .signal "u" (.ofMagnitude 1) .input none,
    .signal "x" (.ofMagnitude 1) .internal none,
    .signal "y" (.ofMagnitude 4) .output none,
    .signal "fast" .bit .input none,
    .signal "t" (.ofMagnitude 3) .auxiliary none,
    .deriv 1,
    .sub (.signal 0) (.signal 1),
    .arithmetic .product [.value (.real 4), .node 10],
    .eqnCase [.node 10, .node 13] [3],
    .arithmetic .sum [.signal 1, .signal 4],
    .arithmetic .product [.value (.real 3), .signal 0]]

/-- `d/dt x == case(fast)[u - x, 4 (u - x)]`, `y == x + t` and `t == 3 u`. -/
def filterEquations : List Equation := [⟨5, 14⟩, ⟨2, 15⟩, ⟨4, 18⟩]

def filterRoles : SystemRoles where
  inputs := [0]
  states := [1]
  outputs := [2]
  selectors := [3]

/-- The filter at one speed. -/
def filterMode (rate : ℚ) : StateSpace ℚ where
  a := some ⟨1, 1, #[-rate]⟩
  b := some ⟨1, 1, #[rate]⟩
  c := some ⟨1, 1, #[1]⟩
  d := some ⟨1, 1, #[3]⟩

theorem filterStore_built : filterStore.Built fun _ _ => True :=
  Built.empty.runAll (by decide +kernel)

theorem filterEquations_known : Known filterStore filterEquations := by
  unfold Known
  decide +kernel

theorem filterRoles_distinct : filterRoles.Distinct := by
  unfold SystemRoles.Distinct
  decide

theorem outcome_filter :
    outcome (systemWith DenseMatrix.solve? filterEquations filterRoles) filterStore =
      (.ok ⟨[filterMode 1, filterMode 4]⟩,
        (outcome (systemWith DenseMatrix.solve? filterEquations filterRoles) filterStore).2) := by
  have hresult : (outcome (systemWith DenseMatrix.solve? filterEquations filterRoles)
      filterStore).1.toOption = some ⟨[filterMode 1, filterMode 4]⟩ := by
    decide +kernel
  exact outcome_eq_of_toOption hresult

/-- All bits are set. -/
def fastReading : Reading ℚ where
  bit _ := true
  address _ := 0
  other _ := 0

theorem inMode_fastReading : filterRoles.InMode 1 fastReading := by
  intro i x hi
  match i with
  | 0 => rfl
  | i + 1 => cases hi

/-- The rows of the filter. -/
theorem governs_filterMode {rate : ℚ} {v : LinearVar → ℚ}
    (h : (filterMode rate).Governs filterRoles v) :
    v (.deriv 1) = rate * (v (.signal 0) - v (.signal 1)) ∧
      v (.signal 2) = v (.signal 1) + 3 * v (.signal 0) := by
  have hrow : ∀ block x, (filterMode rate).row block 0 [x] v =
      (filterMode rate).coefficient block 0 0 * v (.signal x) :=
    fun block x => Fin.sum_univ_one _
  have hderiv : v (.deriv 1) = -rate * v (.signal 1) + rate * v (.signal 0) :=
    (h.deriv 0 1 rfl).trans (congrArg₂ (· + ·) (hrow .a 1) (hrow .b 0))
  have houtput : v (.signal 2) = 1 * v (.signal 1) + 3 * v (.signal 0) :=
    (h.output 0 2 rfl).trans (congrArg₂ (· + ·) (hrow .c 1) (hrow .d 0))
  exact ⟨by rw [hderiv]; ring, by rw [houtput, one_mul]⟩

end Filter

/-- The fast mode at the input 2 and the state 1. -/
theorem systemWith_sound_filter :
    Solver.Sound (R := ℚ) DenseMatrix.solve? ∧ (filterStore.Built fun _ _ => True) ∧
    Known filterStore filterEquations ∧ filterRoles.Distinct ∧
    filterRoles.InMode 1 fastReading ∧
    ∃ v : LinearVar → ℚ, v (.signal 0) = 2 ∧ v (.signal 1) = 1 ∧
      filterStore.Satisfies fastReading v filterEquations ∧
      v (.deriv 1) = 4 ∧ v (.signal 2) = 7 := by
  obtain ⟨-, hmodes⟩ := systemWith_sound DenseMatrix.solve?_sound filterStore_built
    filterEquations_known filterRoles_distinct outcome_filter
  obtain ⟨v, hv, hsat, hgoverns⟩ := hmodes 1 (filterMode 4) rfl (fun _ => fastReading)
    (fun _ => inMode_fastReading) fun
      | .signal 0 => 2
      | _ => 1
  have hu : v (.signal 0) = 2 := hv 0 (by decide)
  have hx : v (.signal 1) = 1 := hv 1 (by decide)
  obtain ⟨hderiv, houtput⟩ := governs_filterMode hgoverns
  rw [hu, hx] at hderiv houtput
  refine ⟨DenseMatrix.solve?_sound, filterStore_built, filterEquations_known, filterRoles_distinct,
    inMode_fastReading, v, hu, hx, hsat, hderiv.trans ?_, houtput.trans ?_⟩
  · norm_num
  · norm_num

/-- If there is an output only with an input or a state, then the equations determine the result: in
every mode, values that satisfy all equations follow the system. -/
theorem systemWith_determined (hsound : solve.Sound) (hsolve : solve.FailsOnSingular)
    (hs : s.Built fun _ _ => True) (hk : Known s equations) (hd : roles.Distinct)
    (hknown : roles.outputs ≠ [] → roles.inputs ++ roles.states ≠ []) {system : ModalSystem R}
    (h : outcome (systemWith solve equations roles) s = (.ok system, s')) :
    system.modes.length = 2 ^ roles.selectors.length ∧
      ∀ (m : Nat) (mode : StateSpace R), system.modes[m]? = some mode →
      ∀ (ρ : Reading R) (v : LinearVar → R), roles.InMode m ρ → s.Satisfies ρ v equations →
        mode.Governs roles v := by
  obtain ⟨hlength, hmodes⟩ := extracted_of_systemWith hs hk h
  refine ⟨hlength, fun m mode hm ρ v hρ hsat => ?_⟩
  obtain ⟨forms, us, x, hextracted⟩ := hmodes m mode hm
  by_cases hnil : roles.inputs ++ roles.states = []
  · have houtputs : roles.outputs = [] := not_not.1 fun hne => hknown hne hnil
    have hstates : roles.states = [] := (List.append_eq_nil_iff.1 hnil).2
    exact ⟨by simp [hstates], by simp [houtputs]⟩
  · rw [← knowns_eq hd] at hnil
    exact hextracted.governs_of_satisfies hsound hsolve hd hnil (agrees_modeSetting hρ) hsat

/-- Every solution of the equations of the filter in the fast mode follows it. -/
theorem systemWith_determined_filter :
    Solver.Sound (R := ℚ) DenseMatrix.solve? ∧
    Solver.FailsOnSingular (R := ℚ) DenseMatrix.solve? ∧
    (filterStore.Built fun _ _ => True) ∧ Known filterStore filterEquations ∧
    filterRoles.Distinct ∧ filterRoles.inputs ++ filterRoles.states ≠ [] ∧
    filterRoles.InMode 1 fastReading ∧
    ∀ v : LinearVar → ℚ, filterStore.Satisfies fastReading v filterEquations →
      v (.deriv 1) = 4 * (v (.signal 0) - v (.signal 1)) ∧
        v (.signal 2) = v (.signal 1) + 3 * v (.signal 0) := by
  have hknown : filterRoles.inputs ++ filterRoles.states ≠ [] := by decide
  obtain ⟨-, hmodes⟩ := systemWith_determined DenseMatrix.solve?_sound
    DenseMatrix.solve?_eq_none_iff filterStore_built filterEquations_known filterRoles_distinct
    (fun _ => hknown) outcome_filter
  refine ⟨DenseMatrix.solve?_sound, DenseMatrix.solve?_eq_none_iff, filterStore_built,
    filterEquations_known, filterRoles_distinct, hknown, inMode_fastReading, fun v hsat => ?_⟩
  exact governs_filterMode (hmodes 1 (filterMode 4) rfl fastReading v inMode_fastReading hsat)

/-- An output and no other signal. -/
def outputStore : Store ℚ := Store.runAll {} [.signal "y" (.ofMagnitude 1) .output none]

/-- Without inputs and states the coefficients are not looked at: the equation `y == y` is solved for
`y`, and the system has the output zero, although the equation holds for every `y`. -/
theorem undetermined_output :
    Solver.Sound (R := ℚ) DenseMatrix.solve? ∧
    Solver.FailsOnSingular (R := ℚ) DenseMatrix.solve? ∧
    (outputStore.Built fun _ _ => True) ∧ Known outputStore [⟨0, 0⟩] ∧
    SystemRoles.Distinct { outputs := [0] } ∧
    (outcome (systemWith DenseMatrix.solve? [⟨0, 0⟩] { outputs := [0] }) outputStore).1.toOption =
      some ⟨[{}]⟩ ∧
    SystemRoles.InMode { outputs := [0] } 0 fastReading ∧
    outputStore.Satisfies fastReading (fun _ => 1) [⟨0, 0⟩] ∧
    ¬ StateSpace.Governs ({} : StateSpace ℚ) { outputs := [0] } fun _ => 1 := by
  refine ⟨DenseMatrix.solve?_sound, DenseMatrix.solve?_eq_none_iff,
    Built.empty.runAll (by decide +kernel), ?_, ?_, by decide +kernel, ?_, ?_, ?_⟩
  · unfold Known
    decide +kernel
  · unfold SystemRoles.Distinct
    decide
  · intro i x hi
    cases hi
  · intro e he
    obtain rfl := List.mem_singleton.1 he
    rfl
  · intro h
    have hzero : (1 : ℚ) = 0 + 0 := h.output 0 0 rfl
    exact absurd hzero (by norm_num)

end Solving

end MixedSignal
