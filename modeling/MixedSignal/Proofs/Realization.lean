import Mathlib
import MixedSignal.Proofs.Characteristic

/-!
# Realizations of transfer functions

In the controllable canonical form the first row of `A` holds the coefficients of the denominator,
negated, and every other row passes the state above it on. So `z - A` takes the powers of `z`, from
the highest one down, to the denominator times the first unit vector (`charmatrix_mulVec_powers`).
By the adjugate, the characteristic polynomial times these powers is the denominator times the first
column of the adjugate. The last of the powers is one and both polynomials are monic of the same
degree, so they are equal (`charpoly_companion`), and the column holds the powers
(`adjugate_companion`).

Reading a realization back therefore gives the transfer function that was realized
(`TransferFunction.ofStateSpace_toStateSpace`), as long as its denominator starts with one and its
numerator is as long. That is what scaling makes of coefficients (`TransferFunction.Normalized`).
-/

open Polynomial Matrix

namespace MixedSignal

/-! ## Companion matrices -/

section Companion

variable {K : Type} [CommRing K] (n : Nat) (c : Nat → K)

/-- The polynomial `z ^ n + c 1 z ^ (n - 1) + … + c n`. -/
noncomputable def monicPoly : K[X] := X ^ n + ∑ j : Fin n, C (c (j + 1)) * X ^ (n - 1 - j : Nat)

/-- The matrix whose first row holds the coefficients, negated, with ones below the diagonal. -/
def companion : Matrix (Fin n) (Fin n) K :=
  Matrix.of fun i j => if (i : Nat) = 0 then -c (j + 1) else if (i : Nat) = j + 1 then 1 else 0

/-- The first unit vector. -/
def firstUnit (S : Type) [Zero S] [One S] : Fin n → S := fun i => if (i : Nat) = 0 then 1 else 0

/-- The powers of `z`, from the highest one down. -/
noncomputable def powers (K : Type) [CommRing K] : Fin n → K[X] := fun i => X ^ (n - 1 - i : Nat)

theorem degree_lower_lt :
    (∑ j : Fin n, C (c (j + 1)) * X ^ (n - 1 - j : Nat)).degree < (n : WithBot Nat) := by
  refine (degree_sum_le _ _).trans_lt ((Finset.sup_lt_iff (WithBot.bot_lt_coe n)).2 fun j _ => ?_)
  refine (degree_C_mul_X_pow_le _ _).trans_lt ?_
  have hj := j.isLt
  exact WithBot.coe_lt_coe.2 (show n - 1 - (j : Nat) < n by omega)

theorem monicPoly_monic : (monicPoly n c).Monic := monic_X_pow_add (degree_lower_lt n c)

theorem natDegree_monicPoly [Nontrivial K] : (monicPoly n c).natDegree = n := by
  have hdegree : (monicPoly n c).degree = n := by
    rw [monicPoly, degree_add_eq_left_of_degree_lt, degree_X_pow]
    rw [degree_X_pow]
    exact degree_lower_lt n c
  exact natDegree_eq_of_degree_eq_some hdegree

/-- The coefficients are those given, from the highest power down, behind a one. -/
theorem coeff_monicPoly (hc : c 0 = 1) {i : Nat} (hi : i ≤ n) :
    (monicPoly n c).coeff i = c (n - i) := by
  rw [monicPoly, coeff_add, finsetSum_coeff, coeff_X_pow]
  simp only [coeff_C_mul, coeff_X_pow, mul_ite, mul_one, mul_zero]
  obtain rfl | hlt := hi.eq_or_lt
  · rw [if_pos rfl, Nat.sub_self, hc, Finset.sum_eq_zero fun j _ => if_neg ?_, add_zero]
    have hj := j.isLt
    omega
  · have hplace : n - 1 - i < n := by omega
    rw [if_neg hlt.ne, zero_add, Finset.sum_eq_single ⟨n - 1 - i, hplace⟩ (fun j _ hj => if_neg ?_)
      fun h => absurd (Finset.mem_univ _) h]
    · rw [if_pos (by simp only; omega)]
      congr 1
      simp only
      omega
    · intro hij
      refine hj (Fin.ext ?_)
      have hlt' := j.isLt
      simp only
      omega

/-- The matrix `z - A` takes the powers to a multiple of the first unit vector. -/
theorem charmatrix_mulVec_powers :
    charmatrix (companion n c) *ᵥ powers n K = monicPoly n c • firstUnit n K[X] := by
  ext1 i
  have hrow : (charmatrix (companion n c) *ᵥ powers n K) i =
      X * powers n K i - ∑ j, C (companion n c i j) * powers n K j := by
    simp only [mulVec, dotProduct, charmatrix_apply, sub_mul, Finset.sum_sub_distrib,
      diagonal_apply, ite_mul, zero_mul, Finset.sum_ite_eq, Finset.mem_univ, if_true]
  rw [hrow, Pi.smul_apply, smul_eq_mul]
  have hi := i.isLt
  by_cases h0 : (i : Nat) = 0
  · have hpower : X * powers n K i = X ^ n := by
      rw [powers, ← pow_succ']
      congr 1
      omega
    simp only [companion, Matrix.of_apply, firstUnit, h0, if_true, mul_one, hpower, C_neg, neg_mul,
      Finset.sum_neg_distrib, sub_neg_eq_add]
    rfl
  · -- a row below the first picks the power before its own, which is `z` times it
    have habove : (i : Nat) - 1 < n := by omega
    simp only [companion, Matrix.of_apply, firstUnit, h0, if_false, mul_zero]
    rw [Finset.sum_eq_single ⟨(i : Nat) - 1, habove⟩]
    · rw [if_pos (by simp only; omega), C_1, one_mul, powers, powers, ← pow_succ', sub_eq_zero]
      congr 1
      simp only
      omega
    · intro j _ hj
      rw [if_neg, C_0, zero_mul]
      intro hij
      exact hj (Fin.ext (by simp only; omega))
    · exact fun h => absurd (Finset.mem_univ _) h

/-- By the adjugate, both polynomials have the same multiples. -/
theorem charpoly_mul_powers (i : Fin n) :
    (companion n c).charpoly * powers n K i =
      monicPoly n c * ((charmatrix (companion n c)).adjugate *ᵥ firstUnit n K[X]) i := by
  have h := congrArg ((charmatrix (companion n c)).adjugate *ᵥ ·) (charmatrix_mulVec_powers n c)
  simp only [mulVec_mulVec, adjugate_mul, smul_mulVec, one_mulVec, mulVec_smul] at h
  exact congrFun h i

theorem charpoly_companion [Nontrivial K] : (companion n c).charpoly = monicPoly n c := by
  have hmonic := monicPoly_monic n c
  have hcharpoly := charpoly_monic (companion n c)
  obtain rfl | hn := n.eq_zero_or_pos
  · rw [eq_one_of_monic_natDegree_zero hmonic (natDegree_monicPoly 0 c)]
    exact eq_one_of_monic_natDegree_zero hcharpoly (by simp)
  · -- the last power is one
    have hlast := charpoly_mul_powers n c ⟨n - 1, by omega⟩
    rw [powers, Nat.sub_self, pow_zero, mul_one] at hlast
    set q := ((charmatrix (companion n c)).adjugate *ᵥ firstUnit n K[X]) ⟨n - 1, by omega⟩
    have hq : q.Monic := hmonic.of_mul_monic_left (hlast ▸ hcharpoly)
    have hdegree := hmonic.natDegree_mul hq
    rw [← hlast, charpoly_natDegree_eq_dim, Fintype.card_fin, natDegree_monicPoly] at hdegree
    rw [hlast, eq_one_of_monic_natDegree_zero hq (by omega), mul_one]

theorem adjugate_companion [Nontrivial K] :
    (charmatrix (companion n c)).adjugate *ᵥ firstUnit n K[X] = powers n K := by
  ext1 i
  have h := charpoly_mul_powers n c i
  rw [charpoly_companion] at h
  exact ((monicPoly_monic n c).isRegular.left h).symm

/-- A coefficient of the adjugate takes the first unit vector to the one of its power. -/
theorem adjugateCoeff_companion [Nontrivial K] (i : Nat) (j : Fin n) :
    (adjugateCoeff (companion n c) (i + 1) *ᵥ firstUnit n K) j =
      if i = n - 1 - (j : Nat) then 1 else 0 := by
  have hcoeff : (adjugateCoeff (companion n c) (i + 1) *ᵥ firstUnit n K) j =
      (((charmatrix (companion n c)).adjugate *ᵥ firstUnit n K[X]) j).coeff i := by
    simp only [mulVec, dotProduct, finsetSum_coeff, firstUnit, mul_ite, mul_one, mul_zero,
      adjugateCoeff, coeff_X_mul, matPolyEquiv_coeff_apply]
    refine Finset.sum_congr rfl fun k _ => ?_
    split
    · rfl
    · exact (coeff_zero i).symm
  rw [hcoeff, adjugate_companion, powers, coeff_X_pow]

end Companion

namespace TransferFunction

open StateSpace

section

variable {R : Type} [Scalar R] (t : TransferFunction R)

/-! ## The controllable canonical form -/

theorem toStateSpace_d : t.toStateSpace.coefficient .d 0 0 = t.num.getD 0 0 := by
  have hd : t.toStateSpace.d = some (.ofFn 1 1 fun _ _ => t.num.getD 0 0) := by
    unfold toStateSpace
    simp only
    split <;> rfl
  unfold coefficient
  rw [show t.toStateSpace.block .d = _ from hd]
  exact DenseMatrix.get_ofFn Nat.one_pos Nat.one_pos

theorem toStateSpace_of_order_eq_zero (h : t.order = 0) :
    t.toStateSpace = { d := some (.ofFn 1 1 fun _ _ => t.num.getD 0 0) } := by
  unfold toStateSpace
  simp only [h, if_true]

theorem toStateSpace_of_order_ne_zero (h : t.order ≠ 0) :
    t.toStateSpace = {
      a := some (.ofFn t.order t.order fun i j =>
        if i = 0 then -t.den.getD (j + 1) 0 else if i = j + 1 then 1 else 0)
      b := some (.ofFn t.order 1 fun i _ => if i = 0 then 1 else 0)
      c := some (.ofFn 1 t.order fun _ j =>
        t.num.getD (j + 1) 0 - t.den.getD (j + 1) 0 * t.num.getD 0 0)
      d := some (.ofFn 1 1 fun _ _ => t.num.getD 0 0) } := by
  unfold toStateSpace
  simp only [h, if_false]

theorem toStateSpace_hasOrder : t.toStateSpace.HasOrder t.order := by
  by_cases hn : t.order = 0
  · rw [toStateSpace_of_order_eq_zero t hn, hn]
    refine ⟨rfl, fun block rows cols hblock m hm => ?_⟩
    simp only [ModalSystem.expectedShapes, List.mem_cons, List.not_mem_nil, or_false,
      Prod.mk.injEq] at hblock
    rcases hblock with ⟨rfl, -⟩ | ⟨rfl, -⟩ | ⟨rfl, -⟩ | ⟨rfl, rfl, rfl⟩ <;> cases hm
    exact ⟨rfl, rfl⟩
  · rw [toStateSpace_of_order_ne_zero t hn]
    refine ⟨rfl, fun block rows cols hblock m hm => ?_⟩
    simp only [ModalSystem.expectedShapes, List.mem_cons, List.not_mem_nil, or_false,
      Prod.mk.injEq] at hblock
    rcases hblock with ⟨rfl, rfl, rfl⟩ | ⟨rfl, rfl, rfl⟩ | ⟨rfl, rfl, rfl⟩ | ⟨rfl, rfl, rfl⟩ <;>
      cases hm <;> exact ⟨rfl, rfl⟩

end

variable {R : Type} [FieldScalar R] (t : TransferFunction R)

theorem toStateSpace_a :
    t.toStateSpace.matrix .a t.order t.order = companion t.order (t.den.getD · 0) := by
  by_cases hn : t.order = 0
  · ext i
    exact absurd i.isLt (by omega)
  · rw [matrix_of_some .a (congrArg StateSpace.a (toStateSpace_of_order_ne_zero t hn)),
      DenseMatrix.toMatrix_ofFn]
    rfl

theorem toStateSpace_b :
    t.toStateSpace.matrix .b t.order 1 = Matrix.of fun i _ => firstUnit t.order R i := by
  by_cases hn : t.order = 0
  · ext i
    exact absurd i.isLt (by omega)
  · rw [matrix_of_some .b (congrArg StateSpace.b (toStateSpace_of_order_ne_zero t hn)),
      DenseMatrix.toMatrix_ofFn]
    rfl

theorem toStateSpace_c :
    t.toStateSpace.matrix .c 1 t.order = Matrix.of fun _ (j : Fin t.order) =>
      t.num.getD (j + 1) 0 - t.den.getD (j + 1) 0 * t.num.getD 0 0 := by
  by_cases hn : t.order = 0
  · ext i j
    exact absurd j.isLt (by omega)
  · rw [matrix_of_some .c (congrArg StateSpace.c (toStateSpace_of_order_ne_zero t hn)),
      DenseMatrix.toMatrix_ofFn]

/-- The denominator starts with one, and the numerator is as long. -/
structure Normalized (t : TransferFunction R) : Prop where
  lead : t.den.head? = some 1
  length : t.num.length = t.den.length

variable {t} {n : Nat}

namespace Normalized

theorem den_zero (h : t.Normalized) : t.den.getD 0 0 = 1 := by
  rw [List.getD_eq_getElem?_getD, ← List.head?_eq_getElem?, h.lead, Option.getD_some]

theorem den_length (h : t.Normalized) : t.den.length = t.order + 1 := by
  have hne : t.den ≠ [] := by
    intro hnil
    simpa [hnil] using h.lead
  have hpos := List.length_pos_iff.2 hne
  rw [order]
  omega

theorem charpoly_coeff (h : t.Normalized) {i : Nat} (hi : i ≤ t.order) :
    (t.toStateSpace.matrix .a t.order t.order).charpoly.coeff i = t.den.getD (t.order - i) 0 := by
  rw [toStateSpace_a, charpoly_companion, coeff_monicPoly _ _ h.den_zero hi]

/-- The states pass the powers of `z` on to the output, so its weights are the numerator's. -/
theorem numeratorCoeff_eq (h : t.Normalized) {i : Nat} (hi : i ≤ t.order) :
    t.toStateSpace.numeratorCoeff t.order i = t.num.getD (t.order - i) 0 := by
  have hcolumn (M : Matrix (Fin t.order) (Fin t.order) R) (j : Fin t.order) :
      (M * t.toStateSpace.matrix .b t.order 1) j 0 = (M *ᵥ firstUnit t.order R) j := by
    rw [toStateSpace_b]
    rfl
  rw [numeratorCoeff, h.charpoly_coeff hi, toStateSpace_d, Matrix.mul_assoc, Matrix.mul_apply]
  simp only [hcolumn, toStateSpace_a, toStateSpace_c, adjugateCoeff_companion, Matrix.of_apply,
    mul_ite, mul_one, mul_zero]
  obtain rfl | hlt := hi.eq_or_lt
  · -- the input reaches the output directly
    rw [Finset.sum_eq_zero fun j _ => if_neg ?_, Nat.sub_self, h.den_zero, mul_one, add_zero]
    have hj := j.isLt
    omega
  · have hplace : t.order - 1 - i < t.order := by omega
    rw [Finset.sum_eq_single ⟨t.order - 1 - i, hplace⟩
      (fun j _ hj => if_neg fun hij => hj (Fin.ext ?_))
      fun hmem => absurd (Finset.mem_univ _) hmem, if_pos (by simp only; omega)]
    · have hindex : t.order - 1 - i + 1 = t.order - i := by omega
      simp only [hindex]
      ring
    · have hj := j.isLt
      simp only
      omega

end Normalized

/-- A list holds its own entries from the first one on. -/
theorem descending_getD {l : List R} (h : l.length = n + 1) :
    descending n (fun i => l.getD (n - i) 0) = l := by
  refine List.ext_getElem (by rw [length_descending, h]) fun k hk hk' => ?_
  simp only [descending, List.getElem_map, List.getElem_reverse, List.getElem_range,
    List.length_range]
  rw [List.getD_eq_getElem l 0 (by omega)]
  congr 1
  omega

/-- Reading the controllable canonical form of a scaled transfer function back gives it again. -/
theorem ofStateSpace_toStateSpace [CharZero R] (h : t.Normalized) :
    ofStateSpace t.toStateSpace = t := by
  have hs := toStateSpace_hasOrder t
  have hmem {i : Nat} (hi : i ∈ (List.range (t.order + 1)).reverse) : i ≤ t.order := by
    simpa [Nat.lt_succ_iff] using hi
  have hden : (ofStateSpace t.toStateSpace).den = t.den := by
    rw [ofStateSpace_den hs, ← descending_getD h.den_length]
    exact List.map_congr_left fun i hi => h.charpoly_coeff (hmem hi)
  have hnum : (ofStateSpace t.toStateSpace).num = t.num := by
    rw [ofStateSpace_num hs, ← descending_getD (h.length.trans h.den_length)]
    exact List.map_congr_left fun i hi => h.numeratorCoeff_eq (hmem hi)
  calc ofStateSpace t.toStateSpace
    _ = ⟨(ofStateSpace t.toStateSpace).num, (ofStateSpace t.toStateSpace).den⟩ := rfl
    _ = t := by rw [hnum, hden]

/-! ## Scaled coefficients -/

/-- What coefficients are scaled to. -/
theorem ofCoefficients_normalized [LawfulBEq R] {num den : List R}
    (h : ofCoefficients num den = .ok t) : t.Normalized := by
  unfold ofCoefficients at h
  split at h
  · cases h
  · rename_i lead rest hden
    simp only at h
    split at h
    · cases h
    · rename_i hlength
      have hlead : lead ≠ 0 := by
        intro hzero
        have hhead := List.head_dropWhile_not (fun v : R => v == 0) (l := den) (by simp [hden])
        simp [hden, hzero] at hhead
      cases h
      refine ⟨by simp [hlead], ?_⟩
      simp only [List.length_append, List.length_replicate, List.length_map]
      omega

/-- Over every field of characteristic zero, whatever coefficients are accepted, the transfer
function of their realization is the one that was realized: of any order, with or without a direct
path from the input to the output. -/
theorem realization_round_trips [LawfulBEq R] [CharZero R] {num den : List R}
    (h : ofCoefficients num den = .ok t) : ofStateSpace t.toStateSpace = t :=
  ofStateSpace_toStateSpace (ofCoefficients_normalized h)

/-- A function of order three with a direct path from the input to the output. -/
def cubic : TransferFunction ℚ := ⟨[2, 1, 0, 3], [1, 4, -3, 1 / 2]⟩

/-- A function of order two without one. -/
def quadratic : TransferFunction ℚ := ⟨[0, 3, 1], [1, 2, 5]⟩

/-- A function of order zero. -/
def gain : TransferFunction ℚ := ⟨[3 / 2], [1]⟩

/-- Coefficients that start with zeros and are to be scaled are accepted, and round trips lead back
to what they are scaled to. -/
theorem realization_round_trips_orders :
    (ofCoefficients [0, 4, 2, 0, 6] [2, 8, -6, 1] = .ok cubic ∧
      ofStateSpace cubic.toStateSpace = cubic) ∧
    (ofCoefficients [3, 1] [0, 1, 2, 5] = .ok quadratic ∧
      ofStateSpace quadratic.toStateSpace = quadratic) ∧
    ofCoefficients [3] [2] = .ok gain ∧ ofStateSpace gain.toStateSpace = gain := by
  have hcubic : ofCoefficients [0, 4, 2, 0, 6] [2, 8, -6, 1] = .ok cubic := by
    with_unfolding_all rfl
  have hquadratic : ofCoefficients [3, 1] [0, 1, 2, 5] = .ok quadratic := by
    with_unfolding_all rfl
  have hgain : ofCoefficients [3] [2] = .ok gain := by
    with_unfolding_all rfl
  exact ⟨⟨hcubic, realization_round_trips hcubic⟩,
    ⟨hquadratic, realization_round_trips hquadratic⟩, hgain, realization_round_trips hgain⟩

end TransferFunction

end MixedSignal
