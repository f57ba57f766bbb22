import Mathlib
import MixedSignal.Proofs.Exact

/-!
# The value of a bound

Over the scalars of an ordered field a bound has a value once its parameters have (`Bound.value`).
Merging nested operators and folding constants keep that value as long as no magnitude is negative:
zero is neutral for maxima of magnitudes only. In bounds made by the operations on bounds
(`Bound.Made`) no magnitude is negative, and so their values are exact sums, products and maxima
(`Bound.combine_spec`).
-/

set_option linter.unusedSectionVars false

namespace MixedSignal

/-- Exact scalars whose magnitudes and extremes are those of an ordered field. -/
class OrderedScalar (R : Type) [ExactScalar R] [LinearOrder R] : Prop
    extends IsStrictOrderedRing R where
  abs_eq (x : R) : Scalar.abs x = |x|
  min_eq (x y : R) : Scalar.min x y = min x y
  max_eq (x y : R) : Scalar.max x y = max x y

instance : OrderedScalar ℚ where
  abs_eq _ := rfl
  min_eq _ _ := rfl
  max_eq _ _ := rfl

variable {R : Type} [ExactScalar R] [LinearOrder R] {x : R} {xs : List R}

/-! ## Values -/

/-- The magnitude that a bound stands for, given those of the parameters. -/
def Bound.value (params : String → R) : Bound R → R
  | .const v => v
  | .param name => params name
  | .sum terms => (terms.map (value params)).sum
  | .product terms => (terms.map (value params)).prod
  | .max terms => (terms.map (value params)).foldr Max.max 0

/-- Bounds that the operations on bounds make. -/
inductive Bound.Made {R : Type} [Scalar R] : Bound R → Prop
  | ofValue (v : R) : Made (.ofValue v)
  | param (name : String) : Made (.param name)
  | add {terms} (h : ∀ b ∈ terms, Made b) : Made (.add terms)
  | mul {terms} (h : ∀ b ∈ terms, Made b) : Made (.mul terms)
  | largest {terms} (h : ∀ b ∈ terms, Made b) : Made (.largest terms)

/-- All known magnitudes in the bound are magnitudes. -/
inductive Bound.Nonneg : Bound R → Prop
  | const {v : R} (h : 0 ≤ v) : Nonneg (.const v)
  | param (name : String) : Nonneg (.param name)
  | sum {terms} (h : ∀ b ∈ terms, Nonneg b) : Nonneg (.sum terms)
  | product {terms} (h : ∀ b ∈ terms, Nonneg b) : Nonneg (.product terms)
  | max {terms} (h : ∀ b ∈ terms, Nonneg b) : Nonneg (.max terms)

/-- The operator on any number of magnitudes. -/
def BoundOp.total : BoundOp → List R → R
  | sum, xs => xs.sum
  | product, xs => xs.prod
  | max, xs => xs.foldr Max.max 0

variable [OrderedScalar R] {params : String → R} (hparams : ∀ name, 0 ≤ params name)

/-! ## Operators -/

namespace BoundOp

variable (op : BoundOp)

theorem total_nil : op.total ([] : List R) = op.identity := by
  cases op <;> rfl

theorem total_cons (x : R) (xs : List R) : op.total (x :: xs) = op.fold x (op.total xs) := by
  cases op with
  | sum => exact List.sum_cons
  | product => exact List.prod_cons
  | max => exact (OrderedScalar.max_eq x _).symm

theorem fold_comm (x y : R) : op.fold x y = op.fold y x := by
  cases op with
  | sum => exact add_comm x y
  | product => exact mul_comm x y
  | max => exact ExactScalar.max_extends.comm x y

theorem fold_assoc (x y z : R) : op.fold (op.fold x y) z = op.fold x (op.fold y z) := by
  cases op with
  | sum => exact add_assoc x y z
  | product => exact mul_assoc x y z
  | max => exact ExactScalar.max_extends.assoc x y z

theorem fold_left_comm (x y z : R) : op.fold x (op.fold y z) = op.fold y (op.fold x z) := by
  rw [← fold_assoc, fold_comm _ x y, fold_assoc]

theorem identity_nonneg : (0 : R) ≤ op.identity := by
  cases op with
  | sum | max => exact le_rfl
  | product => exact zero_le_one

theorem fold_nonneg {y : R} (hx : 0 ≤ x) (hy : 0 ≤ y) : 0 ≤ op.fold x y := by
  cases op with
  | sum => exact add_nonneg hx hy
  | product => exact mul_nonneg hx hy
  | max =>
    change 0 ≤ Scalar.max x y
    rw [OrderedScalar.max_eq]
    exact le_max_of_le_left hx

/-- Zero is neutral for the largest of magnitudes. -/
theorem fold_identity (hx : 0 ≤ x) : op.fold x op.identity = x := by
  cases op with
  | sum => exact add_zero x
  | product => exact mul_one x
  | max => exact (OrderedScalar.max_eq x 0).trans (max_eq_left hx)

theorem total_nonneg (h : ∀ x ∈ xs, 0 ≤ x) : 0 ≤ op.total xs := by
  induction xs with
  | nil =>
    rw [total_nil]
    exact op.identity_nonneg
  | cons x xs ih =>
    rw [total_cons]
    exact op.fold_nonneg (h x (by simp)) (ih fun y hy => h y (by simp [hy]))

theorem total_append {ys : List R} (hys : ∀ y ∈ ys, 0 ≤ y) :
    op.total (xs ++ ys) = op.fold (op.total xs) (op.total ys) := by
  induction xs with
  | nil => rw [List.nil_append, total_nil, fold_comm, fold_identity _ (op.total_nonneg hys)]
  | cons x xs ih => rw [List.cons_append, total_cons, total_cons, ih, fold_assoc]

theorem total_singleton (hx : 0 ≤ x) : op.total [x] = x := by
  rw [total_cons, total_nil, op.fold_identity hx]

/-- Folding from the left starts with the first magnitude. -/
theorem foldl_fold (hx : 0 ≤ x) (hxs : ∀ y ∈ xs, 0 ≤ y) :
    xs.foldl op.fold x = op.total (x :: xs) := by
  induction xs generalizing x with
  | nil => exact (op.total_singleton hx).symm
  | cons y ys ih =>
    have hy := hxs y (by simp)
    rw [List.foldl_cons, ih (op.fold_nonneg hx hy) fun z hz => hxs z (by simp [hz])]
    simp only [total_cons, fold_assoc]

end BoundOp

/-! ## Combined bounds -/

namespace Bound

section

variable {op : BoundOp} {b : Bound R} {bs : List (Bound R)}

theorem value_apply : (op.apply bs).value params = op.total (bs.map (value params)) := by
  cases op <;> simp [BoundOp.apply, BoundOp.total, value]

theorem Nonneg.apply (h : ∀ b ∈ bs, b.Nonneg) : (op.apply bs).Nonneg := by
  cases op with
  | sum => exact .sum h
  | product => exact .product h
  | max => exact .max h

theorem Nonneg.of_apply (h : (op.apply bs).Nonneg) : ∀ b ∈ bs, b.Nonneg := by
  cases op with
  | sum | product | max =>
    cases h
    assumption

/-- A bound is a single operand, unless it has the same operator. -/
theorem operands_cases {R : Type} [Scalar R] (op : BoundOp) (b : Bound R) :
    op.operands b = [b] ∨ b = op.apply (op.operands b) := by
  cases op <;> cases b <;> simp [BoundOp.operands, BoundOp.apply]

theorem Nonneg.flatMap_operands (op : BoundOp) (h : ∀ b ∈ bs, b.Nonneg) :
    ∀ c ∈ bs.flatMap op.operands, c.Nonneg := by
  intro c hc
  obtain ⟨b, hb, hcb⟩ := List.mem_flatMap.1 hc
  have hnonneg := h b hb
  rcases operands_cases op b with hsingle | happly
  · rw [hsingle, List.mem_singleton] at hcb
    exact hcb ▸ hnonneg
  · rw [happly] at hnonneg
    exact hnonneg.of_apply c hcb

/-- Known magnitudes may be folded apart from the others. -/
theorem total_split (bs : List (Bound R)) :
    op.total (bs.map (value params)) =
      op.fold (op.total ((bs.filter (·.const?.isNone)).map (value params)))
        (op.total (bs.filterMap const?)) := by
  induction bs with
  | nil => rw [List.map_nil, List.filter_nil, List.map_nil, List.filterMap_nil, op.total_nil,
      op.fold_identity op.identity_nonneg]
  | cons b bs ih =>
    cases b with
    | const v =>
      simp only [List.map_cons, List.filter_cons, List.filterMap_cons, const?, Option.isNone_some,
        Bool.false_eq_true, if_false, op.total_cons, ih, value]
      exact op.fold_left_comm _ _ _
    | _ =>
      simp only [List.map_cons, List.filter_cons, List.filterMap_cons, const?, Option.isNone_none,
        if_true, op.total_cons, ih, op.fold_assoc]

theorem known_nonneg (h : ∀ b ∈ bs, b.Nonneg) : ∀ v ∈ bs.filterMap const?, 0 ≤ v := by
  intro v hv
  obtain ⟨b, hb, hconst⟩ := List.mem_filterMap.1 hv
  have hnonneg := h b hb
  cases b with
  | const w =>
    obtain rfl : w = v := by simpa [const?] using hconst
    cases hnonneg with
    | const hw => exact hw
  | _ => cases hconst

theorem foldConst_cases (op : BoundOp) (h : ∀ b ∈ bs, b.Nonneg) :
    (foldConst op bs = none ∧ bs.filterMap const? = []) ∨
      foldConst op bs = some (op.total (bs.filterMap const?)) := by
  have hknown := known_nonneg h
  unfold foldConst
  cases hbs : bs.filterMap const? with
  | nil => exact .inl ⟨rfl, rfl⟩
  | cons v vs =>
    rw [hbs] at hknown
    exact .inr (congrArg some (op.foldl_fold (hknown v (by simp)) fun w hw =>
      hknown w (by simp [hw])))

/-- The known magnitude that stands last. -/
theorem append_const (params : String → R) (op : BoundOp) {v : R} (h : ∀ b ∈ bs, b.Nonneg)
    (hv : 0 ≤ v) : (∀ b ∈ bs ++ [const v], b.Nonneg) ∧
      op.total ((bs ++ [const v]).map (value params)) =
        op.fold (op.total (bs.map (value params))) v := by
  constructor
  · intro b hb
    rcases List.mem_append.1 hb with hb | hb
    · exact h b hb
    · rw [List.mem_singleton.1 hb]
      exact .const hv
  · rw [List.map_append, List.map_singleton, value, op.total_append (by simpa using hv),
      op.total_singleton hv]

include hparams

theorem Nonneg.value_nonneg (h : b.Nonneg) : 0 ≤ b.value params := by
  have happly : ∀ (op : BoundOp) {terms : List (Bound R)}, (∀ b ∈ terms, 0 ≤ b.value params) →
      0 ≤ (op.apply terms).value params := by
    intro op terms ih
    rw [value_apply]
    exact op.total_nonneg (by simpa using ih)
  induction h with
  | const h => simpa [value] using h
  | param name => simpa [value] using hparams name
  | sum _ ih => exact happly .sum ih
  | product _ ih => exact happly .product ih
  | max _ ih => exact happly .max ih

theorem values_nonneg (h : ∀ b ∈ bs, b.Nonneg) : ∀ x ∈ bs.map (value params), 0 ≤ x := by
  intro x hx
  obtain ⟨b, hb, rfl⟩ := List.mem_map.1 hx
  exact (h b hb).value_nonneg hparams

/-- Merging nested operators of the same kind keeps the value. -/
theorem total_operands (op : BoundOp) (h : ∀ b ∈ bs, b.Nonneg) :
    op.total ((bs.flatMap op.operands).map (value params)) = op.total (bs.map (value params)) := by
  induction bs with
  | nil => rfl
  | cons b bs ih =>
    have hb := h b (by simp)
    have hbs : ∀ c ∈ bs, c.Nonneg := fun c hc => h c (by simp [hc])
    have hself : op.total ((op.operands b).map (value params)) = b.value params := by
      rcases operands_cases op b with hsingle | happly
      · rw [hsingle, List.map_singleton, op.total_singleton (hb.value_nonneg hparams)]
      · conv_rhs => rw [happly, value_apply]
    have hnonneg := values_nonneg hparams (Nonneg.flatMap_operands op hbs)
    rw [List.flatMap_cons, List.map_append, op.total_append hnonneg, hself, ih hbs, List.map_cons,
      op.total_cons]

/-- The last step of combining bounds: an operator is applied to two operands or more only. -/
theorem assembled (op : BoundOp) (h : ∀ b ∈ bs, b.Nonneg) :
    (match bs with
      | [] => Bound.const op.identity
      | [b] => b
      | bs => op.apply bs).Nonneg ∧
    (match bs with
      | [] => Bound.const op.identity
      | [b] => b
      | bs => op.apply bs).value params = op.total (bs.map (value params)) := by
  split
  · exact ⟨.const op.identity_nonneg, by rw [value, List.map_nil, op.total_nil]⟩
  · have hb := h _ (List.mem_singleton_self _)
    exact ⟨hb, by rw [List.map_singleton, op.total_singleton (hb.value_nonneg hparams)]⟩
  · exact ⟨.apply h, value_apply⟩

/-- Combined bounds have the value of the operator on the values of the operands. -/
theorem combine_spec (op : BoundOp) (h : ∀ b ∈ bs, b.Nonneg) :
    (combine op bs).Nonneg ∧
      (combine op bs).value params = op.total (bs.map (value params)) := by
  have hflat := Nonneg.flatMap_operands op h
  have htotal := total_operands hparams op h
  rw [total_split] at htotal
  unfold combine
  generalize bs.flatMap op.operands = flat at hflat htotal ⊢
  have hunknown : ∀ b ∈ flat.filter (·.const?.isNone), b.Nonneg := fun b hb =>
    hflat b (List.mem_of_mem_filter hb)
  have hnonneg := op.total_nonneg (values_nonneg hparams hunknown)
  rcases foldConst_cases op hflat with ⟨hnone, hnil⟩ | hsome
  · rw [hnil, op.total_nil, op.fold_identity hnonneg] at htotal
    simp only [hnone, Option.any_none, Bool.false_eq_true, and_false, if_false, List.append_nil]
    rw [← htotal]
    exact assembled hparams op hunknown
  · have hv := op.total_nonneg (known_nonneg hflat)
    generalize op.total (flat.filterMap const?) = v at htotal hsome hv
    simp only [hsome, Option.any_some]
    split
    · -- a factor is zero
      rename_i hzero
      obtain ⟨rfl, hv0⟩ := hzero
      obtain rfl : v = 0 := eq_of_beq hv0
      exact ⟨.const le_rfl, by rw [value, ← htotal]; exact (mul_zero _).symm⟩
    · by_cases hkeep :
          ((flat.filter (·.const?.isNone)).isEmpty || v != op.identity) = true
      · obtain ⟨hall, hsum⟩ := append_const params op hunknown hv
        rw [if_pos hkeep, ← htotal, ← hsum]
        exact assembled hparams op hall
      · have hidentity : v = op.identity := by
          simp only [Bool.or_eq_true, bne_iff_ne, not_or, not_not] at hkeep
          exact hkeep.2
        rw [if_neg hkeep, List.append_nil, ← htotal, hidentity, op.fold_identity hnonneg]
        exact assembled hparams op hunknown

/-- The operator on two bounds. -/
theorem value_pair (op : BoundOp) {a b : Bound R} (ha : a.Nonneg) (hb : b.Nonneg) :
    (combine op [a, b]).value params = op.fold (a.value params) (b.value params) := by
  rw [(combine_spec hparams op (by simp [ha, hb])).2, List.map_cons, List.map_singleton,
    op.total_cons, op.total_singleton (hb.value_nonneg hparams)]

end

theorem Nonneg.combine (op : BoundOp) {bs : List (Bound R)} (h : ∀ b ∈ bs, b.Nonneg) :
    (Bound.combine op bs).Nonneg :=
  (combine_spec (fun _ => le_refl (0 : R)) op h).1

theorem Nonneg.ofValue (v : R) : (Bound.ofValue v).Nonneg := by
  refine .const ?_
  rw [OrderedScalar.abs_eq]
  exact abs_nonneg v

theorem Made.nonneg {b : Bound R} (h : b.Made) : b.Nonneg := by
  induction h with
  | ofValue v => exact .ofValue v
  | param name => exact .param name
  | add _ ih => exact .combine .sum ih
  | mul _ ih => exact .combine .product ih
  | largest _ ih => exact .combine .max ih

end Bound

end MixedSignal
