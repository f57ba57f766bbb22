import Mathlib
import MixedSignal.Proofs.Exact

/-!
# Elimination solves linear systems

Over exact scalars elimination finds the solution of a square system and fails exactly if the system
is singular. `Elimination.solveRows_spec` is the induction over the unknowns: reducing the other rows by
a pivot row keeps what solves them and whether they are independent. `DenseMatrix.solve?_sound` and
`DenseMatrix.solve?_eq_none_iff` say it of matrices.
-/

set_option linter.unusedSectionVars false

namespace MixedSignal

/-! ## Entries -/

namespace DenseMatrix

section

variable {R : Type} [Scalar R]

theorem get_ofFn {rows cols i j : Nat} {f : Nat → Nat → R} (hi : i < rows) (hj : j < cols) :
    (ofFn rows cols f).get i j = f i j := by
  have hlt : i * cols + j < rows * cols := by
    calc i * cols + j < i * cols + cols := by omega
      _ = (i + 1) * cols := by ring
      _ ≤ rows * cols := Nat.mul_le_mul_right cols hi
  have hdiv : (i * cols + j) / cols = i := by
    rw [mul_comm, Nat.mul_add_div (by omega), Nat.div_eq_of_lt hj, add_zero]
  have hmod : (i * cols + j) % cols = j := by
    rw [mul_comm, Nat.mul_add_mod, Nat.mod_eq_of_lt hj]
  have hget : (ofFn rows cols f).get? i j = some (f i j) := by
    rw [get?, if_pos ⟨hi, hj⟩]
    simp [ofFn, hlt, hdiv, hmod]
  rw [get, hget, Option.getD_some]

/-- The entries as a matrix of the given shape. -/
def toMatrix (m : DenseMatrix R) (rows cols : Nat) : Matrix (Fin rows) (Fin cols) R :=
  Matrix.of fun i j => m.get i j

@[simp] theorem toMatrix_apply (m : DenseMatrix R) {rows cols : Nat} (i : Fin rows) (j : Fin cols) :
    m.toMatrix rows cols i j = m.get i j :=
  rfl

/-- The matrix has this shape. -/
def HasShape (m : DenseMatrix R) (rows cols : Nat) : Prop := m.rows = rows ∧ m.cols = cols

end

end DenseMatrix

namespace Elimination

variable {R : Type} [ExactScalar R]

/-! ## Weighted sums -/

/-- The sum of unknowns, weighted by coefficients. -/
def weigh : List R → (Nat → R) → R
  | [], _ => 0
  | c :: cs, y => c * y 0 + weigh cs fun l => y (l + 1)

theorem weigh_eq_sum (f : Nat → R) (y : Nat → R) (n : Nat) :
    weigh ((List.range n).map f) y = ∑ l : Fin n, f l * y l := by
  induction n generalizing f y with
  | zero => rfl
  | succ n ih =>
    rw [List.range_succ_eq_map, List.map_cons, List.map_map, weigh, ih, Fin.sum_univ_succ]
    rfl

theorem weigh_eq_zero {cs : List R} {y : Nat → R} (h : ∀ l < cs.length, y l = 0) :
    weigh cs y = 0 := by
  induction cs generalizing y with
  | nil => rfl
  | cons c cs ih =>
    rw [weigh, h 0 (by simp), ih fun l hl => h (l + 1) (by simpa using hl), mul_zero, add_zero]

theorem weigh_subtractMultiple (factor : R) {ps xs : List R} (h : ps.length = xs.length)
    (y : Nat → R) :
    weigh (subtractMultiple factor ps xs) y = weigh xs y - factor * weigh ps y := by
  induction ps generalizing xs y with
  | nil =>
    obtain rfl : xs = [] := List.eq_nil_of_length_eq_zero h.symm
    simp [subtractMultiple, weigh]
  | cons p ps ih =>
    cases xs with
    | nil => simp at h
    | cons x xs =>
      change (-p * factor + x) * y 0 + weigh (subtractMultiple factor ps xs) _ = _
      rw [ih (by simpa using h), weigh, weigh]
      ring

/-- A row is its leading coefficient and the rest. -/
theorem weigh_row {r : Row R} {n : Nat} (h : r.coeffs.length = n + 1) (y : Nat → R) :
    weigh r.coeffs y = r.lead * y 0 + weigh r.coeffs.tail fun l => y (l + 1) := by
  obtain ⟨coeffs, rhs⟩ := r
  cases coeffs with
  | nil => simp at h
  | cons c cs => rfl

/-! ## Pivots -/

/-- A pivot row and the other rows. All leading coefficients are zero if that of the pivot is. -/
structure Pivots (rows : List (Row R)) (pivot : Row R) (rest : List (Row R)) : Prop where
  mem_iff : ∀ r, r ∈ rows ↔ r = pivot ∨ r ∈ rest
  length : rows.length = rest.length + 1
  lead : pivot.lead = 0 → ∀ r ∈ rows, r.lead = 0

/-- The search for the pivot goes through the rows from `start` on. The row that is best so far has a
zero leading coefficient only if all rows before it have one. -/
theorem foldl_pivot (rows : List (Row R)) :
    ∀ (rest : List (Row R)) (start : Nat) (best : Nat × R) (b : Row R),
      (∀ i r, rest[i]? = some r → rows[start + i]? = some r) →
      rows[best.1]? = some b → best.2 = Scalar.abs b.lead →
      ∃ c, rows[((rest.zipIdx start).foldl (fun (best : Nat × R) (r, i) =>
          if Scalar.lt best.2 (Scalar.abs r.lead) then (i, Scalar.abs r.lead) else best)
          best).1]? = some c ∧
        (c.lead = 0 → b.lead = 0 ∧ ∀ r ∈ rest, r.lead = 0)
  | [], _, best, b, _, hb, _ => ⟨b, hb, fun h => ⟨h, by simp⟩⟩
  | r :: rest, start, best, b, hrest, hb, habs => by
    rw [List.zipIdx_cons, List.foldl_cons]
    have hrest' : ∀ i q, rest[i]? = some q → rows[start + 1 + i]? = some q := by
      intro i q hq
      rw [add_assoc, add_comm 1]
      exact hrest (i + 1) q hq
    dsimp only
    split
    · rename_i hlt
      rw [habs] at hlt
      have hne := ExactScalar.ne_zero_of_lt hlt
      obtain ⟨c, hc, hzero⟩ := foldl_pivot rows rest (start + 1) (start, Scalar.abs r.lead) r hrest'
        (hrest 0 r rfl) rfl
      exact ⟨c, hc, fun h => absurd (hzero h).1 hne⟩
    · rename_i hlt
      obtain ⟨c, hc, hzero⟩ := foldl_pivot rows rest (start + 1) best b hrest' hb habs
      refine ⟨c, hc, fun h => ⟨(hzero h).1, fun q hq => ?_⟩⟩
      rcases List.mem_cons.1 hq with rfl | hq
      · by_contra hne
        rw [habs, (hzero h).1] at hlt
        exact hlt (ExactScalar.zero_lt hne)
      · exact (hzero h).2 q hq

/-- The first row takes the place of the pivot. -/
theorem mem_set_iff {first pivot : Row R} {rest : List (Row R)} {k : Nat}
    (hk : rest[k]? = some pivot) (r : Row R) :
    r ∈ first :: rest ↔ r = pivot ∨ r ∈ rest.set k first := by
  have hlt : k < rest.length := (List.getElem?_eq_some_iff.1 hk).1
  constructor
  · intro h
    rcases List.mem_cons.1 h with rfl | h
    · exact .inr (List.mem_set hlt r)
    · obtain ⟨i, hi⟩ := List.mem_iff_getElem?.1 h
      by_cases hik : k = i
      · subst hik
        rw [hk] at hi
        cases hi
        exact .inl rfl
      · refine .inr (List.mem_iff_getElem?.2 ⟨i, ?_⟩)
        rw [List.getElem?_set_ne hik, hi]
  · rintro (rfl | h)
    · exact List.mem_cons_of_mem _ (List.mem_of_getElem? hk)
    · rcases List.mem_or_eq_of_mem_set h with h | rfl
      · exact List.mem_cons_of_mem _ h
      · exact List.mem_cons_self

/-- There is a pivot if there is a row. -/
theorem exists_pivots {rows : List (Row R)} (h : rows ≠ []) :
    ∃ pivot rest, choosePivot rows = some (pivot, rest) ∧ Pivots rows pivot rest := by
  cases rows with
  | nil => exact absurd rfl h
  | cons first rest =>
    obtain ⟨c, hc, hzero⟩ := foldl_pivot (first :: rest) rest 1 (0, Scalar.abs first.lead) first
      (fun i r hr => by rwa [add_comm]) rfl rfl
    change (first :: rest)[pivotIndex (first :: rest)]? = some c at hc
    have hlead : c.lead = 0 → ∀ r ∈ first :: rest, r.lead = 0 := by
      intro hlead r hr
      rcases List.mem_cons.1 hr with rfl | hr
      · exact (hzero hlead).1
      · exact (hzero hlead).2 r hr
    unfold choosePivot
    simp only
    split
    · rename_i hk
      rw [hk] at hc
      obtain rfl : first = c := by simpa using hc
      exact ⟨first, rest, rfl, fun r => by simp, rfl, hlead⟩
    · rename_i k hk
      rw [hk, List.getElem?_cons_succ] at hc
      refine ⟨c, rest.set k first, by rw [hc]; rfl, mem_set_iff hc, by simp, hlead⟩

/-! ## Systems -/

/-- As many rows as unknowns, each with as many right-hand sides. -/
structure Shaped (n k : Nat) (rows : List (Row R)) : Prop where
  length : rows.length = n
  coeffs : ∀ r ∈ rows, r.coeffs.length = n
  rhs : ∀ r ∈ rows, r.rhs.length = k

/-- Only zero solves the system without right-hand sides. -/
def Independent (n : Nat) (rows : List (Row R)) : Prop :=
  ∀ y : Nat → R, (∀ r ∈ rows, weigh r.coeffs y = 0) → ∀ l < n, y l = 0

/-- The values of the unknowns for one right-hand side. -/
def column (x : List (List R)) (j : Nat) (l : Nat) : R := (x.getD l []).getD j 0

/-- The unknowns solve the system for every right-hand side. -/
def Solves (rows : List (Row R)) (x : List (List R)) (k : Nat) : Prop :=
  ∀ r ∈ rows, ∀ j < k, weigh r.coeffs (column x j) = r.rhs.getD j 0

variable {n k : Nat} {rows rest : List (Row R)} {pivot : Row R}

/-- The other rows, reduced by the pivot. -/
def reduced (pivot : Row R) (rest : List (Row R)) : List (Row R) :=
  rest.map (pivot.reduce (1 / pivot.lead))

section

variable (h : Shaped (n + 1) k rows) (hp : Pivots rows pivot rest)
include h hp

theorem Shaped.reduced : Shaped n k (reduced pivot rest) := by
  have hpivot := (hp.mem_iff pivot).2 (.inl rfl)
  refine ⟨?_, fun r hr => ?_, fun r hr => ?_⟩
  · have := hp.length
    rw [h.length] at this
    simpa [Elimination.reduced] using this.symm
  · obtain ⟨q, hq, rfl⟩ := List.mem_map.1 hr
    have hq' := (hp.mem_iff q).2 (.inr hq)
    simp [Row.reduce, subtractMultiple, h.coeffs q hq', h.coeffs pivot hpivot]
  · obtain ⟨q, hq, rfl⟩ := List.mem_map.1 hr
    have hq' := (hp.mem_iff q).2 (.inr hq)
    simp [Row.reduce, subtractMultiple, h.rhs q hq', h.rhs pivot hpivot]

/-- A reduced row weighs the later unknowns as the row does, with the first unknown taken from the
pivot row. -/
theorem weigh_reduce {r : Row R} (hr : r ∈ rest) (y : Nat → R) :
    weigh (pivot.reduce (1 / pivot.lead) r).coeffs y =
      weigh r.coeffs.tail y - r.lead * (1 / pivot.lead) * weigh pivot.coeffs.tail y := by
  refine weigh_subtractMultiple _ ?_ y
  rw [List.length_tail, List.length_tail, h.coeffs pivot ((hp.mem_iff pivot).2 (.inl rfl)),
    h.coeffs r ((hp.mem_iff r).2 (.inr hr))]

/-- Reducing by a pivot keeps whether the rows are independent. -/
theorem independent_reduced_iff (hlead : pivot.lead ≠ 0) :
    Independent n (reduced pivot rest) ↔ Independent (n + 1) rows := by
  have hpivot := (hp.mem_iff pivot).2 (.inl rfl)
  have hrow : ∀ y : Nat → R, ∀ r ∈ rest, weigh pivot.coeffs y = 0 →
      weigh (pivot.reduce (1 / pivot.lead) r).coeffs (fun l => y (l + 1)) = weigh r.coeffs y := by
    intro y r hr hy
    rw [weigh_row (h.coeffs pivot hpivot)] at hy
    rw [weigh_reduce h hp hr, weigh_row (h.coeffs r ((hp.mem_iff r).2 (.inr hr))),
      eq_neg_of_add_eq_zero_right hy]
    field_simp
    ring
  constructor
  · intro hind y hy
    have hlater : ∀ l < n, y (l + 1) = 0 := by
      refine hind (fun l => y (l + 1)) fun r hr => ?_
      obtain ⟨q, hq, rfl⟩ := List.mem_map.1 hr
      rw [hrow y q hq (hy pivot hpivot)]
      exact hy q ((hp.mem_iff q).2 (.inr hq))
    have htail : weigh pivot.coeffs.tail (fun l => y (l + 1)) = 0 := by
      refine weigh_eq_zero fun l hl => hlater l ?_
      rw [List.length_tail, h.coeffs pivot hpivot] at hl
      exact hl
    intro l hl
    cases l with
    | zero =>
      have hzero := hy pivot hpivot
      rw [weigh_row (h.coeffs pivot hpivot), htail, add_zero] at hzero
      exact (mul_eq_zero.1 hzero).resolve_left hlead
    | succ l => exact hlater l (by omega)
  · intro hind y hy
    -- the first unknown is what the pivot row asks for
    let first := -(weigh pivot.coeffs.tail y) / pivot.lead
    let whole : Nat → R := fun l => l.casesOn first y
    have hzero : weigh pivot.coeffs whole = 0 := by
      rw [weigh_row (h.coeffs pivot hpivot)]
      change pivot.lead * (-(weigh pivot.coeffs.tail y) / pivot.lead) +
        weigh pivot.coeffs.tail y = 0
      field_simp
      ring
    have hwhole := hind whole fun r hr => by
      rcases (hp.mem_iff r).1 hr with rfl | hr
      · exact hzero
      · rw [← hrow whole r hr hzero]
        exact hy _ (List.mem_map_of_mem hr)
    exact fun l hl => hwhole (l + 1) (by omega)

end

/-- Rows whose leading coefficients are all zero are not independent. -/
theorem not_independent (h : Shaped (n + 1) k rows) (hzero : ∀ r ∈ rows, r.lead = 0) :
    ¬Independent (n + 1) rows := by
  intro hind
  let y : Nat → R := fun l => l.casesOn 1 fun _ => 0
  have hy := hind y fun r hr => by
    rw [weigh_row (h.coeffs r hr), hzero r hr, zero_mul, zero_add]
    exact weigh_eq_zero fun _ _ => rfl
  exact one_ne_zero (hy 0 (by omega))

theorem foldr_substitute (us : List R) (later : List (List R)) (j : Nat) (b : R) :
    (us.zip later).foldr (fun (u, xs) acc => -(xs.getD j 0) * u + acc) b =
      b - weigh us (column later j) := by
  induction us generalizing later with
  | nil => simp [weigh]
  | cons u us ih =>
    cases later with
    | nil =>
      rw [weigh_eq_zero fun l _ => by simp [column]]
      simp
    | cons xs later =>
      rw [List.zip_cons_cons, List.foldr_cons, ih, weigh]
      change -(xs.getD j 0) * u + (b - weigh us (column later j)) =
        b - (u * xs.getD j 0 + weigh us (column later j))
      ring

/-- The first unknown is what the pivot row asks for. -/
theorem lead_mul_substitute (hlead : pivot.lead ≠ 0) (later : List (List R)) {j : Nat}
    (hj : j < pivot.rhs.length) :
    pivot.lead * (pivot.substitute later).getD j 0 =
      pivot.rhs.getD j 0 - weigh pivot.coeffs.tail (column later j) := by
  unfold Row.substitute
  rw [List.getD_eq_getElem?_getD, List.getElem?_mapIdx, List.getElem?_eq_getElem hj,
    List.getD_eq_getElem _ _ hj]
  simp only [Option.map_some, Option.getD_some]
  rw [foldr_substitute]
  field_simp

theorem getD_subtractMultiple (factor : R) {ps xs : List R} {j : Nat} (hp : j < ps.length)
    (hx : j < xs.length) :
    (subtractMultiple factor ps xs).getD j 0 = xs.getD j 0 - factor * ps.getD j 0 := by
  have hlt : j < (subtractMultiple factor ps xs).length := by
    simpa [subtractMultiple] using ⟨hp, hx⟩
  rw [List.getD_eq_getElem _ _ hlt, List.getD_eq_getElem _ _ hp, List.getD_eq_getElem _ _ hx]
  simp only [subtractMultiple, List.getElem_zipWith]
  ring

/-- What solves the reduced rows solves all rows, with the first unknown taken from the pivot row. -/
theorem Solves.cons (h : Shaped (n + 1) k rows) (hp : Pivots rows pivot rest)
    (hlead : pivot.lead ≠ 0) {later : List (List R)} (hlater : Solves (reduced pivot rest) later k) :
    Solves rows (pivot.substitute later :: later) k := by
  have hpivot := (hp.mem_iff pivot).2 (.inl rfl)
  intro r hr j hj
  have hsub := lead_mul_substitute hlead later (j := j) (by rwa [h.rhs pivot hpivot])
  rw [weigh_row (h.coeffs r hr)]
  change r.lead * (pivot.substitute later).getD j 0 + weigh r.coeffs.tail (column later j) = _
  rcases (hp.mem_iff r).1 hr with rfl | hr'
  · rw [hsub]
    ring
  · have hrow := hlater _ (List.mem_map_of_mem hr') j hj
    rw [weigh_reduce h hp hr'] at hrow
    change _ = (subtractMultiple _ pivot.rhs r.rhs).getD j 0 at hrow
    rw [getD_subtractMultiple _ (by rwa [h.rhs pivot hpivot]) (by rwa [h.rhs r hr])] at hrow
    have hfirst : (pivot.substitute later).getD j 0 = (1 / pivot.lead) *
        (pivot.rhs.getD j 0 - weigh pivot.coeffs.tail (column later j)) := by
      rw [← hsub]
      field_simp
    rw [hfirst]
    linear_combination hrow

theorem solveRows_succ (h : choosePivot rows = some (pivot, rest)) :
    solveRows (n + 1) rows = if pivot.lead == 0 then none
      else (solveRows n (reduced pivot rest)).map fun later => pivot.substitute later :: later := by
  rw [solveRows, h, Option.map_eq_bind]
  rfl

/-- Elimination solves a system of independent rows, and fails on all others. -/
theorem solveRows_spec (n : Nat) : ∀ rows : List (Row R), Shaped n k rows →
    match solveRows n rows with
    | some x => Solves rows x k ∧ Independent n rows
    | none => ¬Independent n rows := by
  induction n with
  | zero =>
    intro rows h
    obtain rfl := List.eq_nil_of_length_eq_zero h.length
    exact ⟨fun r hr => absurd hr (by simp), fun _ _ l hl => absurd hl (by simp)⟩
  | succ n ih =>
    intro rows h
    have hne : rows ≠ [] := List.ne_nil_of_length_eq_add_one h.length
    obtain ⟨pivot, rest, hchoose, hp⟩ := exists_pivots hne
    rw [solveRows_succ hchoose]
    by_cases hlead : pivot.lead = 0
    · rw [if_pos (beq_iff_eq.2 hlead)]
      exact not_independent h (hp.lead hlead)
    · rw [if_neg (by simpa using hlead)]
      have hrest := ih (reduced pivot rest) (h.reduced hp)
      rw [independent_reduced_iff h hp hlead] at hrest
      cases hsolve : solveRows n (reduced pivot rest) with
      | none =>
        rw [hsolve] at hrest
        exact hrest
      | some later =>
        rw [hsolve] at hrest
        exact ⟨hrest.1.cons h hp hlead, hrest.2⟩

end Elimination

/-! ## Matrices -/

namespace DenseMatrix

open Elimination

variable {R : Type} [ExactScalar R] {n k : Nat} {u v x : DenseMatrix R}

/-- The rows of a system of matrices. -/
def systemRows (u v : DenseMatrix R) : List (Row R) :=
  (List.range u.rows).map fun i => ⟨u.row i, v.row i⟩

variable (hu : u.HasShape n n)
include hu

theorem shaped_systemRows (hv : v.HasShape n k) : Shaped n k (systemRows u v) := by
  refine ⟨by simp [systemRows, hu.1], fun r hr => ?_, fun r hr => ?_⟩
  · obtain ⟨i, -, rfl⟩ := List.mem_map.1 hr
    simp [row, hu.2]
  · obtain ⟨i, -, rfl⟩ := List.mem_map.1 hr
    simp [row, hv.2]

theorem weigh_row_eq_mulVec (i : Fin n) (y : Nat → R) :
    weigh (u.row i) y = ((u.toMatrix n n).mulVec fun l => y l) i := by
  rw [row, hu.2, weigh_eq_sum]
  rfl

theorem independent_iff_det (v : DenseMatrix R) :
    Independent n (systemRows u v) ↔ (u.toMatrix n n).det ≠ 0 := by
  have hrows : ∀ y : Nat → R, (∀ r ∈ systemRows u v, weigh r.coeffs y = 0) ↔
      (u.toMatrix n n).mulVec (fun l => y l) = 0 := by
    intro y
    rw [funext_iff]
    constructor
    · intro h i
      rw [← weigh_row_eq_mulVec hu]
      exact h ⟨u.row i, v.row i⟩ (List.mem_map.2 ⟨i, by simp [hu.1], rfl⟩)
    · intro h r hr
      obtain ⟨i, hi, rfl⟩ := List.mem_map.1 hr
      rw [List.mem_range, hu.1] at hi
      exact (weigh_row_eq_mulVec hu ⟨i, hi⟩ y).trans (h ⟨i, hi⟩)
  rw [ne_eq, ← Matrix.exists_mulVec_eq_zero_iff, not_exists]
  constructor
  · rintro h w ⟨hw, hzero⟩
    have hy := h (fun l => if hl : l < n then w ⟨l, hl⟩ else 0) ((hrows _).2 (by simpa using hzero))
    refine hw (funext fun l => ?_)
    simpa using hy l l.2
  · intro h y hy l hl
    by_contra hne
    exact h (fun l => y l) ⟨fun heq => hne (congrFun heq ⟨l, hl⟩), (hrows y).1 hy⟩

/-- Elimination fails exactly on singular matrices. -/
theorem solve?_eq_none_iff (hv : v.HasShape n k) :
    solve? u v = none ↔ (u.toMatrix n n).det = 0 := by
  have hspec := solveRows_spec n _ (shaped_systemRows hu hv)
  rw [independent_iff_det hu] at hspec
  change (solveRows u.rows (systemRows u v)).map _ = none ↔ _
  rw [Option.map_eq_none_iff, hu.1]
  cases hsolve : solveRows n (systemRows u v) with
  | none =>
    rw [hsolve] at hspec
    simpa using hspec
  | some y =>
    rw [hsolve] at hspec
    simpa using hspec.2

/-- What elimination returns is a solution. -/
theorem solve?_sound (hv : v.HasShape n k) (h : solve? u v = some x) :
    u.toMatrix n n * x.toMatrix n k = v.toMatrix n k := by
  have hspec := solveRows_spec n _ (shaped_systemRows hu hv)
  obtain ⟨y, hy, rfl⟩ := Option.map_eq_some_iff.1 h
  change solveRows u.rows (systemRows u v) = some y at hy
  rw [hu.1] at hy
  rw [hy] at hspec
  refine Matrix.ext fun i j => ?_
  have hrow := hspec.1 ⟨u.row i, v.row i⟩ (List.mem_map.2 ⟨i, by simp [hu.1], rfl⟩) j j.2
  rw [weigh_row_eq_mulVec hu] at hrow
  have hv' : (v.row i).getD j 0 = v.get i j := by
    rw [row, hv.2, List.getD_eq_getElem _ _ (by simp)]
    simp
  rw [hv'] at hrow
  rw [toMatrix_apply, ← hrow, Matrix.mul_apply]
  refine Finset.sum_congr rfl fun l _ => ?_
  rw [toMatrix_apply (ofFn _ _ _), get_ofFn (by simp [hu.1]) (by simp [hv.2])]
  rfl

end DenseMatrix

end MixedSignal
