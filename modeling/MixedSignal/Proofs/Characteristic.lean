import Mathlib
import MixedSignal.Linear.TransferFunction
import MixedSignal.Proofs.Elimination

/-!
# Transfer functions of systems

The recursion of `TransferFunction.ofStateSpace` goes down through the powers of `z`. It finds the
characteristic polynomial of `A` and the adjugate of `z - A` together:

* The adjugate times `z - A` is the characteristic polynomial. Each coefficient of the adjugate is
  therefore `A` times the one above it, plus one of the polynomial (`adjugateCoeff_eq_mul_left`).
* The trace of the adjugate is the derivative of the characteristic polynomial. Each coefficient of
  the polynomial is therefore a multiple of a trace (`trace_mul_adjugateCoeff`). The multiple is a
  number of steps, and has to be divided by: the field has characteristic zero.

By the first of these the states of every run satisfy a difference equation (`difference_equation`),
and so do its inputs and outputs (`TransferFunction.ofStateSpace_exact`).
-/

set_option linter.unusedSectionVars false

open Polynomial Matrix

namespace MixedSignal

/-! ## The adjugate of `z - A` -/

section Adjugate

variable {K ι : Type} [CommRing K] [Fintype ι] [DecidableEq ι]

/-- A determinant changes by what it becomes if one column after the other is replaced by its
change. -/
theorem derivative_det (M : Matrix ι ι K[X]) :
    derivative M.det = ∑ i, (M.updateCol i fun j => derivative (M j i)).det := by
  have hprod (σ : Equiv.Perm ι) (i : ι) :
      (∏ j ∈ Finset.univ.erase i, M (σ j) j) * derivative (M (σ i) i) =
        ∏ j, (M.updateCol i fun j => derivative (M j i)) (σ j) j := by
    rw [← Finset.prod_erase_mul Finset.univ _ (Finset.mem_univ i), updateCol_self]
    congr 1
    exact Finset.prod_congr rfl fun j hj => (updateCol_ne (Finset.ne_of_mem_erase hj)).symm
  simp only [det_apply', derivative_sum, derivative_intCast_mul, derivative_prod_finset, hprod,
    Finset.mul_sum]
  exact Finset.sum_comm

theorem derivative_charpoly (A : Matrix ι ι K) :
    derivative A.charpoly = (charmatrix A).adjugate.trace := by
  have hcol (i : ι) :
      (fun j => derivative (charmatrix A j i)) = Pi.single (M := fun _ => K[X]) i 1 := by
    funext j
    by_cases h : j = i
    · subst h
      simp
    · simp [h]
  rw [charpoly, derivative_det, trace]
  refine Finset.sum_congr rfl fun i _ => ?_
  rw [hcol, ← det_transpose, ← updateRow_transpose, diag_apply, ← adjugate_apply,
    ← adjugate_transpose, transpose_apply]

/-- The coefficients of `z` times the adjugate of `z - A`. With the factor `z` the equations below
hold down to the power zero. -/
noncomputable def adjugateCoeff (A : Matrix ι ι K) (i : Nat) : Matrix ι ι K :=
  (X * matPolyEquiv (charmatrix A).adjugate).coeff i

variable (A : Matrix ι ι K)

theorem adjugateCoeff_zero : adjugateCoeff A 0 = 0 := coeff_X_mul_zero _

theorem adjugateCoeff_eq_mul_left (i : Nat) :
    adjugateCoeff A i = A * adjugateCoeff A (i + 1) + A.charpoly.coeff i • 1 := by
  have h := congrArg (fun M => (matPolyEquiv M).coeff i) (mul_adjugate (charmatrix A))
  simp only [map_mul, matPolyEquiv_charmatrix, sub_mul, coeff_sub, coeff_C_mul,
    matPolyEquiv_smul_one, coeff_map, Algebra.algebraMap_eq_smul_one] at h
  rw [adjugateCoeff, adjugateCoeff, coeff_X_mul, ← sub_eq_iff_eq_add']
  exact h

theorem adjugateCoeff_eq_mul_right (i : Nat) :
    adjugateCoeff A i = adjugateCoeff A (i + 1) * A + A.charpoly.coeff i • 1 := by
  have h := congrArg (fun M => (matPolyEquiv M).coeff i) (adjugate_mul (charmatrix A))
  simp only [map_mul, matPolyEquiv_charmatrix, mul_sub, coeff_sub, coeff_mul_C,
    matPolyEquiv_smul_one, coeff_map, Algebra.algebraMap_eq_smul_one] at h
  rw [adjugateCoeff, adjugateCoeff, coeff_X_mul, X_mul, ← sub_eq_iff_eq_add']
  exact h

theorem trace_adjugateCoeff (i : Nat) : (adjugateCoeff A i).trace = i * A.charpoly.coeff i := by
  cases i with
  | zero => simp [adjugateCoeff_zero]
  | succ i =>
    have h := congrArg (coeff · i) (derivative_charpoly A)
    rw [coeff_derivative, trace, finsetSum_coeff] at h
    rw [adjugateCoeff, coeff_X_mul, trace, Nat.cast_succ, mul_comm, h]
    simp only [diag_apply, matPolyEquiv_coeff_apply]

theorem trace_mul_adjugateCoeff (i : Nat) :
    (A * adjugateCoeff A (i + 1)).trace = (i - Fintype.card ι) * A.charpoly.coeff i := by
  have h := congrArg Matrix.trace (adjugateCoeff_eq_mul_left A i)
  rw [trace_adjugateCoeff, trace_add, trace_smul, trace_one, smul_eq_mul] at h
  linear_combination -h

theorem charpoly_coeff_card [Nontrivial K] : A.charpoly.coeff (Fintype.card ι) = 1 := by
  rw [← charpoly_natDegree_eq_dim A]
  exact charpoly_monic A

theorem adjugateCoeff_of_card_lt {i : Nat} (hi : Fintype.card ι < i) : adjugateCoeff A i = 0 := by
  nontriviality K
  obtain ⟨b, hb⟩ : ∃ b, ∀ j, b ≤ j → adjugateCoeff A j = 0 :=
    ⟨_, fun j hj => coeff_eq_zero_of_natDegree_lt (Nat.lt_of_succ_le hj)⟩
  -- Above the degree of the characteristic polynomial a coefficient is `A` times the next one.
  have hdown (d : Nat) : ∀ i, Fintype.card ι < i → b ≤ i + d → adjugateCoeff A i = 0 := by
    induction d with
    | zero => exact fun i _ hle => hb i hle
    | succ d ih =>
      intro i hi hle
      have hdegree : A.charpoly.natDegree < i := (charpoly_natDegree_eq_dim A).trans_lt hi
      rw [adjugateCoeff_eq_mul_left, ih (i + 1) (by omega) (by omega),
        coeff_eq_zero_of_natDegree_lt hdegree, mul_zero, zero_smul, add_zero]
  exact hdown b i hi (by omega)

/-- The states of a system, weighted by the characteristic polynomial, are its inputs, weighted by
the adjugate. -/
theorem difference_equation {x v : Int → ι → K} (h : ∀ t, x (t + 1) = A *ᵥ x t + v t) (t : Int) :
    ∑ i ∈ Finset.range (Fintype.card ι + 1), A.charpoly.coeff i • x (t + i) =
      ∑ i ∈ Finset.range (Fintype.card ι + 1), adjugateCoeff A (i + 1) *ᵥ v (t + i) := by
  -- The difference of the two sides telescopes between coefficients that vanish.
  have hterm (i : Nat) : A.charpoly.coeff i • x (t + i) - adjugateCoeff A (i + 1) *ᵥ v (t + i) =
      adjugateCoeff A i *ᵥ x (t + i) - adjugateCoeff A (i + 1) *ᵥ x (t + (i + 1 : Nat)) := by
    rw [adjugateCoeff_eq_mul_right A i, Nat.cast_succ, ← add_assoc, h, add_mulVec, mulVec_add,
      smul_mulVec, one_mulVec, mulVec_mulVec]
    abel
  rw [← sub_eq_zero, ← Finset.sum_sub_distrib, Finset.sum_congr rfl fun i _ => hterm i,
    Finset.sum_range_sub' (fun i : Nat => adjugateCoeff A i *ᵥ x (t + i)), adjugateCoeff_zero,
    adjugateCoeff_of_card_lt A (Nat.lt_succ_self _), zero_mulVec, zero_mulVec, sub_zero]

end Adjugate

/-! ## Operations on dense matrices -/

namespace DenseMatrix

variable {R : Type} [FieldScalar R] {a b : DenseMatrix R} {m n k : Nat}

theorem hasShape_identity : (identity n : DenseMatrix R).HasShape n n := ⟨rfl, rfl⟩

theorem hasShape_zeros : (zeros m n : DenseMatrix R).HasShape m n := ⟨rfl, rfl⟩

theorem HasShape.mul (ha : a.HasShape m n) (hb : b.HasShape n k) : (a.mul b).HasShape m k :=
  ⟨ha.1, hb.2⟩

theorem toMatrix_ofFn (f : Nat → Nat → R) :
    (ofFn m n f).toMatrix m n = Matrix.of fun (i : Fin m) (j : Fin n) => f i j := by
  ext i j
  exact get_ofFn i.isLt j.isLt

theorem toMatrix_mul (ha : a.HasShape m n) (hb : b.HasShape n k) :
    (a.mul b).toMatrix m k = a.toMatrix m n * b.toMatrix n k := by
  obtain ⟨rfl, rfl⟩ := ha
  obtain ⟨-, rfl⟩ := hb
  rw [mul, toMatrix_ofFn]
  ext i j
  rw [Matrix.of_apply, Matrix.mul_apply, Scalar.sum_eq, Fin.sum_univ_def]
  simp [← List.map_coe_finRange_eq_range, Function.comp_def]

theorem toMatrix_add (ha : a.HasShape m n) :
    (a.add b).toMatrix m n = a.toMatrix m n + b.toMatrix m n := by
  obtain ⟨rfl, rfl⟩ := ha
  exact toMatrix_ofFn _

theorem toMatrix_scale (ha : a.HasShape m n) (x : R) :
    (a.scale x).toMatrix m n = x • a.toMatrix m n := by
  obtain ⟨rfl, rfl⟩ := ha
  rw [scale, map, toMatrix_ofFn]
  ext i j
  exact mul_comm _ _

theorem toMatrix_identity : (identity n : DenseMatrix R).toMatrix n n = 1 := by
  rw [identity, toMatrix_ofFn]
  ext i j
  simp [Matrix.one_apply, Fin.ext_iff]

theorem toMatrix_zeros : (zeros m n : DenseMatrix R).toMatrix m n = 0 := toMatrix_ofFn _

theorem trace_eq (ha : a.HasShape n n) : a.trace = (a.toMatrix n n).trace := by
  obtain ⟨rfl, hcols⟩ := ha
  rw [DenseMatrix.trace, Matrix.trace, Fin.sum_univ_def, ← List.foldl_map (g := (· + ·)),
    ← List.sum_eq_foldl, ← List.map_coe_finRange_eq_range, List.map_map]
  rfl

end DenseMatrix

/-! ## Systems with one input and one output -/

/-- A sequence with zeros before its start. -/
def fromZero {α : Type} [Zero α] (f : Nat → α) (t : Int) : α := if t < 0 then 0 else f t.toNat

section

variable {α : Type} [Zero α] (f : Nat → α)

theorem fromZero_of_neg {t : Int} (ht : t < 0) : fromZero f t = 0 := if_pos ht

@[simp] theorem fromZero_natCast (k : Nat) : fromZero f k = f k := by
  rw [fromZero, if_neg (by omega), Int.toNat_natCast]

end

namespace StateSpace

section

variable {R : Type} [Scalar R] {s : StateSpace R}

/-- A block as a matrix of the given shape. -/
def matrix (s : StateSpace R) (block : Block) (rows cols : Nat) : Matrix (Fin rows) (Fin cols) R :=
  Matrix.of fun i j => s.coefficient block i j

theorem matrix_of_some (block : Block) {m : DenseMatrix R} (h : s.block block = some m)
    (rows cols : Nat) : s.matrix block rows cols = m.toMatrix rows cols := by
  ext i j
  simp [matrix, coefficient, h]

theorem matrix_of_none (block : Block) (h : s.block block = none) (rows cols : Nat) :
    s.matrix block rows cols = 0 := by
  ext i j
  simp [matrix, coefficient, h]

/-- The system has `n` states, one input and one output. A block that is absent reads as zero, but
the one from states to states is there if there are states. -/
structure HasOrder (s : StateSpace R) (n : Nat) : Prop where
  states : s.a.elim 0 DenseMatrix.rows = n
  shapes : ∀ block rows cols, (block, rows, cols) ∈ ModalSystem.expectedShapes n 1 1 →
    ∀ m ∈ s.block block, m.HasShape rows cols

end

variable {R : Type} [FieldScalar R]

/-- The state before step `k`, from zero. -/
def stateAt (s : StateSpace R) (n : Nat) (u : Nat → R) : Nat → Fin n → R
  | 0 => 0
  | k + 1 => s.matrix .a n n *ᵥ s.stateAt n u k + s.matrix .b n 1 *ᵥ fun _ => u k

/-- The output in step `k`. -/
def outputAt (s : StateSpace R) (n : Nat) (u : Nat → R) (k : Nat) : R :=
  (s.matrix .c 1 n *ᵥ s.stateAt n u k + s.matrix .d 1 1 *ᵥ fun _ => u k) 0

variable (s : StateSpace R) (n : Nat) (u : Nat → R)

theorem fromZero_stateAt_succ (t : Int) :
    fromZero (s.stateAt n u) (t + 1) =
      s.matrix .a n n *ᵥ fromZero (s.stateAt n u) t +
        s.matrix .b n 1 *ᵥ fun _ => fromZero u t := by
  obtain ⟨k, rfl⟩ | ht := (le_or_gt 0 t).imp_left Int.eq_ofNat_of_zero_le
  · rw [fromZero_natCast, fromZero_natCast, ← Nat.cast_succ, fromZero_natCast, stateAt]
  · have hnext : fromZero (s.stateAt n u) (t + 1) = 0 := by
      obtain ht' | ht' := Int.lt_or_eq_of_le (show t + 1 ≤ 0 by omega)
      · exact fromZero_of_neg _ ht'
      · rw [ht']
        rfl
    rw [hnext, fromZero_of_neg _ ht, fromZero_of_neg _ ht, mulVec_zero, zero_add]
    exact (mulVec_zero _).symm

theorem fromZero_outputAt (t : Int) :
    fromZero (s.outputAt n u) t =
      (s.matrix .c 1 n *ᵥ fromZero (s.stateAt n u) t) 0 + s.coefficient .d 0 0 * fromZero u t := by
  obtain ⟨k, rfl⟩ | ht := (le_or_gt 0 t).imp_left Int.eq_ofNat_of_zero_le
  · simp [outputAt, mulVec, dotProduct, matrix]
  · simp [fromZero_of_neg _ ht]

/-- The weight of a past input in the difference equation of the outputs. -/
noncomputable def numeratorCoeff (i : Nat) : R :=
  s.coefficient .d 0 0 * (s.matrix .a n n).charpoly.coeff i +
    (s.matrix .c 1 n * adjugateCoeff (s.matrix .a n n) (i + 1) * s.matrix .b n 1) 0 0

theorem outputAt_difference_equation (t : Int) :
    ∑ i ∈ Finset.range (n + 1), (s.matrix .a n n).charpoly.coeff i *
        fromZero (s.outputAt n u) (t + i) =
      ∑ i ∈ Finset.range (n + 1), s.numeratorCoeff n i * fromZero u (t + i) := by
  set p := (s.matrix .a n n).charpoly
  set C := s.matrix .c 1 n
  set d := s.coefficient .d 0 0
  have hstates := difference_equation (s.matrix .a n n) (s.fromZero_stateAt_succ n u) t
  rw [Fintype.card_fin] at hstates
  have hinput (M : Matrix (Fin 1) (Fin 1) R) (w : R) : (M *ᵥ fun _ => w) 0 = M 0 0 * w := by
    simp [mulVec, dotProduct]
  calc ∑ i ∈ Finset.range (n + 1), p.coeff i * fromZero (s.outputAt n u) (t + i)
    _ = (C *ᵥ ∑ i ∈ Finset.range (n + 1), p.coeff i • fromZero (s.stateAt n u) (t + i)) 0 +
          ∑ i ∈ Finset.range (n + 1), d * p.coeff i * fromZero u (t + i) := by
      rw [mulVec_sum, Finset.sum_apply, ← Finset.sum_add_distrib]
      refine Finset.sum_congr rfl fun i _ => ?_
      rw [fromZero_outputAt, mulVec_smul, Pi.smul_apply, smul_eq_mul]
      ring
    _ = ∑ i ∈ Finset.range (n + 1), s.numeratorCoeff n i * fromZero u (t + i) := by
      rw [hstates, mulVec_sum, Finset.sum_apply, ← Finset.sum_add_distrib]
      refine Finset.sum_congr rfl fun i _ => ?_
      rw [mulVec_mulVec, mulVec_mulVec, hinput, numeratorCoeff]
      ring

end StateSpace

namespace TransferFunction

open StateSpace

/-! ## Coefficients from the highest power down -/

section

variable {R : Type} [FieldScalar R] (n : Nat) (f : Nat → R)

/-- The coefficients of a polynomial of degree `n`. -/
def descending : List R := (List.range (n + 1)).reverse.map f

theorem descending_eq_cons : descending n f = f n :: (List.range n).reverse.map f := by
  rw [descending, List.range_succ, List.reverse_concat, List.map_cons]

theorem length_descending : (descending n f).length = n + 1 := by
  simp [descending]

theorem sum_descending (g : Int → R) (k : Int) :
    ∑ j ∈ Finset.range (n + 1), (descending n f).getD j 0 * g (k - j) =
      ∑ i ∈ Finset.range (n + 1), f i * g (k - n + i) := by
  rw [← Finset.sum_range_reflect]
  refine Finset.sum_congr rfl fun i hi => ?_
  have hi : i ≤ n := Nat.lt_succ_iff.1 (Finset.mem_range.1 hi)
  have hget : (descending n f).getD (n - i) 0 = f i := by
    have hlt : n - i < (List.range (n + 1)).reverse.length := by simp
    rw [descending, List.getD_eq_getElem?_getD, List.getElem?_map, List.getElem?_eq_getElem hlt,
      List.getElem_reverse, List.getElem_range]
    simp [Nat.sub_sub_self hi]
  rw [show n + 1 - 1 - i = n - i by omega, hget, Nat.cast_sub hi]
  congr 2
  ring

end

variable {R : Type} [FieldScalar R] [CharZero R] {n : Nat} {s : StateSpace R}

/-! ## The recursion -/

/-- What the recursion finds for a power of `z`. -/
structure IsStep (A : Matrix (Fin n) (Fin n) R) (step : DenseMatrix R × R) (i : Nat) : Prop where
  shape : step.1.HasShape n n
  matrix : step.1.toMatrix n n = adjugateCoeff A (i + 1)
  coeff : step.2 = A.charpoly.coeff i

theorem nextCoefficient_isStep {a m : DenseMatrix R} {c : R} {k i : Nat} (ha : a.HasShape n n)
    (hk : k + (i + 1) = n) (h : IsStep (a.toMatrix n n) (m, c) (i + 1)) :
    IsStep (a.toMatrix n n) (nextCoefficient a m c k) i := by
  have hmul : (a.mul m).HasShape n n := ha.mul h.shape
  have hshape : (nextCoefficient a m c k).1.HasShape n n := hmul
  have hmatrix : (nextCoefficient a m c k).1.toMatrix n n =
      adjugateCoeff (a.toMatrix n n) (i + 1) := by
    change ((a.mul m).add ((DenseMatrix.identity a.rows).scale c)).toMatrix n n = _
    rw [DenseMatrix.toMatrix_add hmul, DenseMatrix.toMatrix_mul ha h.shape, ha.1,
      DenseMatrix.toMatrix_scale DenseMatrix.hasShape_identity, DenseMatrix.toMatrix_identity,
      h.matrix, adjugateCoeff_eq_mul_left _ (i + 1), ← h.coeff]
  have hn : (n : R) = k + (i + 1) := by exact_mod_cast hk.symm
  have hne : (k : R) + 1 ≠ 0 := Nat.cast_add_one_ne_zero k
  refine ⟨hshape, hmatrix, ?_⟩
  change -(a.mul (nextCoefficient a m c k).1).trace / Scalar.ofInt (k + 1) = _
  rw [DenseMatrix.trace_eq (ha.mul hshape), DenseMatrix.toMatrix_mul ha hshape, hmatrix,
    trace_mul_adjugateCoeff, FieldScalar.ofInt_eq, Fintype.card_fin, hn]
  push_cast
  field_simp
  ring

theorem characteristic_isStep {a : DenseMatrix R} (ha : a.HasShape n n) {i k : Nat}
    {m : DenseMatrix R} {c : R} (hk : k + i = n) (h : IsStep (a.toMatrix n n) (m, c) i) :
    List.Forall₂ (IsStep (a.toMatrix n n)) (characteristic a i k m c) (List.range i).reverse := by
  induction i generalizing k m c with
  | zero => exact .nil
  | succ i ih =>
    have hnext := nextCoefficient_isStep ha hk h
    rw [List.range_succ, List.reverse_concat]
    exact .cons hnext (ih (by omega) hnext)

theorem charpoly_coeff_fin (A : Matrix (Fin n) (Fin n) R) : A.charpoly.coeff n = 1 := by
  simpa using charpoly_coeff_card A

theorem adjugateCoeff_fin (A : Matrix (Fin n) (Fin n) R) : adjugateCoeff A (n + 1) = 0 :=
  adjugateCoeff_of_card_lt A (by simp)

/-- What the recursion finds for a system. -/
def recursionSteps (s : StateSpace R) : List (DenseMatrix R × R) :=
  s.a.elim [] fun a => characteristic a a.rows 0 (.zeros a.rows a.rows) 1

theorem recursionSteps_isStep (hs : s.HasOrder n) :
    List.Forall₂ (IsStep (s.matrix .a n n)) (recursionSteps s) (List.range n).reverse := by
  have hstates := hs.states
  unfold recursionSteps
  cases ha : s.a with
  | none =>
    rw [ha] at hstates
    subst hstates
    exact .nil
  | some a =>
    have hshape : a.HasShape n n := hs.shapes .a n n (by simp [ModalSystem.expectedShapes]) a ha
    rw [matrix_of_some .a ha, Option.elim_some, hshape.1]
    refine characteristic_isStep hshape (Nat.zero_add n) ⟨DenseMatrix.hasShape_zeros, ?_, ?_⟩
    · rw [DenseMatrix.toMatrix_zeros, adjugateCoeff_fin]
    · rw [charpoly_coeff_fin]

theorem map_recursionSteps (hs : s.HasOrder n) {f : DenseMatrix R × R → R} {g : Nat → R}
    (hfg : ∀ step i, IsStep (s.matrix .a n n) step i → f step = g i) :
    (recursionSteps s).map f = (List.range n).reverse.map g := by
  rw [← List.forall₂_eq_eq_eq, List.forall₂_map_left_iff, List.forall₂_map_right_iff]
  exact (recursionSteps_isStep hs).imp hfg

/-! ## Numerator and denominator -/

theorem ofStateSpace_den (hs : s.HasOrder n) :
    (ofStateSpace s).den = descending n (s.matrix .a n n).charpoly.coeff := by
  have hden : (ofStateSpace s).den = 1 :: (recursionSteps s).map (·.2) := by
    unfold ofStateSpace recursionSteps
    cases s.a <;> rfl
  rw [hden, descending_eq_cons, charpoly_coeff_fin, map_recursionSteps hs fun _ _ h => h.coeff]

theorem num_of_absent (h : s.b = none ∨ s.c = none) :
    (ofStateSpace s).num = (ofStateSpace s).den.map (s.coefficient .d 0 0 * ·) := by
  unfold ofStateSpace
  obtain hb | hc := h
  · simp only [hb]
  · cases s.b <;> simp only [hc]

theorem num_of_present {b c : DenseMatrix R} (hb : s.b = some b) (hc : s.c = some c) :
    (ofStateSpace s).num = s.coefficient .d 0 0 * 1 ::
      (recursionSteps s).map fun step =>
        s.coefficient .d 0 0 * step.2 + ((c.mul step.1).mul b).get 0 0 := by
  unfold ofStateSpace recursionSteps
  cases s.a with
  | none => simp [hb, hc]
  | some a => simp [hb, hc, List.zipWith_map_left]

theorem ofStateSpace_num (hs : s.HasOrder n) :
    (ofStateSpace s).num = descending n (s.numeratorCoeff n) := by
  by_cases habsent : s.b = none ∨ s.c = none
  · rw [num_of_absent habsent, ofStateSpace_den hs, descending, List.map_map]
    refine List.map_congr_left fun i _ => ?_
    obtain hb | hc := habsent
    · simp [numeratorCoeff, matrix_of_none .b hb]
    · simp [numeratorCoeff, matrix_of_none .c hc]
  · obtain ⟨hb, hc⟩ := not_or.1 habsent
    obtain ⟨b, hb⟩ := Option.ne_none_iff_exists'.1 hb
    obtain ⟨c, hc⟩ := Option.ne_none_iff_exists'.1 hc
    have hbshape : b.HasShape n 1 := hs.shapes .b n 1 (by simp [ModalSystem.expectedShapes]) b hb
    have hcshape : c.HasShape 1 n := hs.shapes .c 1 n (by simp [ModalSystem.expectedShapes]) c hc
    have hlead : s.numeratorCoeff n n = s.coefficient .d 0 0 * 1 := by
      simp [numeratorCoeff, charpoly_coeff_fin, adjugateCoeff_fin]
    rw [num_of_present hb hc, descending_eq_cons, hlead]
    congr 1
    refine map_recursionSteps hs fun step i h => ?_
    rw [numeratorCoeff, h.coeff, matrix_of_some .b hb, matrix_of_some .c hc,
      ← h.matrix, ← DenseMatrix.toMatrix_mul hcshape h.shape,
      ← DenseMatrix.toMatrix_mul (hcshape.mul h.shape) hbshape]
    rfl

/-- Over every field of characteristic zero, the denominator of the transfer function of a system is
its characteristic polynomial, and the inputs and outputs of every run from zero satisfy the
difference equation of the transfer function. -/
theorem ofStateSpace_exact (hs : s.HasOrder n) :
    (ofStateSpace s).den = (List.range (n + 1)).reverse.map (s.matrix .a n n).charpoly.coeff ∧
      (ofStateSpace s).num.length = n + 1 ∧
      ∀ (u : Nat → R) (k : Int),
        ∑ j ∈ Finset.range (n + 1),
            (ofStateSpace s).den.getD j 0 * fromZero (s.outputAt n u) (k - j) =
          ∑ i ∈ Finset.range (n + 1), (ofStateSpace s).num.getD i 0 * fromZero u (k - i) := by
  refine ⟨ofStateSpace_den hs, ?_, fun u k => ?_⟩
  · rw [ofStateSpace_num hs, length_descending]
  · rw [ofStateSpace_den hs, ofStateSpace_num hs, sum_descending, sum_descending]
    exact s.outputAt_difference_equation n u (k - n)

/-- A system with a double root. -/
def doublePole : StateSpace ℚ where
  a := some (.ofRows [[1, 1], [-1, 3]])
  b := some (.ofRows [[1], [2]])
  c := some (.ofRows [[3, -1]])
  d := some (.ofRows [[5]])

theorem doublePole_hasOrder : doublePole.HasOrder 2 := by
  refine ⟨rfl, fun block rows cols hblock m hm => ?_⟩
  simp only [ModalSystem.expectedShapes, List.mem_cons, List.not_mem_nil, or_false,
    Prod.mk.injEq] at hblock
  rcases hblock with ⟨rfl, rfl, rfl⟩ | ⟨rfl, rfl, rfl⟩ | ⟨rfl, rfl, rfl⟩ | ⟨rfl, rfl, rfl⟩ <;>
    · cases hm
      exact ⟨rfl, rfl⟩

theorem ofStateSpace_doublePole :
    (ofStateSpace doublePole).den = [1, -4, 4] ∧ (ofStateSpace doublePole).num = [5, -19, 20] := by
  decide +kernel

/-- Both poles are at two. -/
theorem ofStateSpace_exact_doublePole :
    doublePole.HasOrder 2 ∧
      (List.range 3).reverse.map (doublePole.matrix .a 2 2).charpoly.coeff = [1, -4, 4] ∧
      ∀ (u : Nat → ℚ) (k : Int),
        fromZero (doublePole.outputAt 2 u) k - 4 * fromZero (doublePole.outputAt 2 u) (k - 1) +
            4 * fromZero (doublePole.outputAt 2 u) (k - 2) =
          5 * fromZero u k - 19 * fromZero u (k - 1) + 20 * fromZero u (k - 2) := by
  obtain ⟨hden, -, hequation⟩ := ofStateSpace_exact doublePole_hasOrder
  obtain ⟨hpoles, hzeros⟩ := ofStateSpace_doublePole
  refine ⟨doublePole_hasOrder, hden.symm.trans hpoles, fun u k => ?_⟩
  simpa [hpoles, hzeros, Finset.sum_range_succ, sub_eq_add_neg] using hequation u k

end TransferFunction

end MixedSignal
