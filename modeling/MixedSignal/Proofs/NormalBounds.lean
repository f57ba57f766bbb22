import Mathlib
import MixedSignal.Proofs.BoundValue

/-!
# Bounds in normal form

Whatever the operations on bounds make is in normal form (`Bound.IsNormal`): an operator has two
operands or more, none of which has the same operator, and a known magnitude stands last and is not
neutral. No law of the scalars is used, so this holds for doubles too; that magnitudes differ means
that the comparison of the scalars tells them apart.

Merging looks into the operands only one level deep. That is enough, since operands are in normal form
themselves and so do not have the same operator again further down
(`Bound.IsNormal.flatMap_operands`).
-/

set_option linter.unusedSectionVars false

namespace MixedSignal

/-- What operands are like under an operator in normal form. -/
structure Bound.NormalOperands {R : Type} [Scalar R] (op : BoundOp) (terms : List (Bound R)) :
    Prop where
  two_le : 2 ≤ terms.length
  merged : ∀ b ∈ terms, ∀ inner, b ≠ op.apply inner
  const_last : ∀ before v after, terms = before ++ .const v :: after → after = []
  const_counts : ∀ v, .const v ∈ terms →
    (v != op.identity) = true ∧ (op = .product → (v != 0) = true)

/-- The operands of every operator in the bound are as they have to be. -/
inductive Bound.IsNormal {R : Type} [Scalar R] : Bound R → Prop
  | const (v : R) : IsNormal (.const v)
  | param (name : String) : IsNormal (.param name)
  | sum {terms} (h : NormalOperands .sum terms) (hs : ∀ b ∈ terms, IsNormal b) :
    IsNormal (.sum terms)
  | product {terms} (h : NormalOperands .product terms) (hs : ∀ b ∈ terms, IsNormal b) :
    IsNormal (.product terms)
  | max {terms} (h : NormalOperands .max terms) (hs : ∀ b ∈ terms, IsNormal b) :
    IsNormal (.max terms)

/-- The bound is made from the operands, in their order, by uses of one operator that are nested in
some way. -/
inductive Bound.Grouped {R : Type} [Scalar R] (op : BoundOp) : List (Bound R) → Bound R → Prop
  | operand (b : Bound R) : Grouped op [b] b
  | group (parts : List (List (Bound R) × Bound R)) (h : ∀ p ∈ parts, Grouped op p.1 p.2) :
    Grouped op (parts.flatMap (·.1)) (combine op (parts.map (·.2)))

namespace Bound

variable {R : Type} [Scalar R] {op : BoundOp} {b c : Bound R} {bs terms : List (Bound R)}

/-- The bounds of a list that are not known magnitudes. -/
def unknownsIn (terms : List (Bound R)) : List (Bound R) := terms.filter (·.const?.isNone)

/-- The operands of a bound under an operator that are not known magnitudes. -/
def unknowns (op : BoundOp) (b : Bound R) : List (Bound R) := unknownsIn (op.operands b)

/-! ## The steps of combining -/

/-- The operator on operands that are merged and folded already. -/
def assemble (op : BoundOp) : List (Bound R) → Bound R
  | [] => .const op.identity
  | [b] => b
  | terms => op.apply terms

/-- The known magnitude that stands last, if there has to be one. -/
def lastConst (op : BoundOp) (flat : List (Bound R)) : List (Bound R) :=
  match foldConst op flat with
  | some v => if (unknownsIn flat).isEmpty || v != op.identity then [.const v] else []
  | none => []

theorem combine_eq (op : BoundOp) (bs : List (Bound R)) :
    combine op bs =
      if op = .product ∧ (foldConst op (bs.flatMap op.operands)).any (· == 0) = true then .const 0
      else assemble op (unknownsIn (bs.flatMap op.operands) ++
        lastConst op (bs.flatMap op.operands)) :=
  rfl

theorem assemble_eq_apply (h : 2 ≤ terms.length) : assemble op terms = op.apply terms := by
  rcases terms with _ | ⟨b, _ | ⟨c, rest⟩⟩
  · simp at h
  · simp at h
  · rfl

theorem const_notMem_unknownsIn (v : R) (flat : List (Bound R)) : .const v ∉ unknownsIn flat := by
  intro hmem
  exact absurd (List.mem_filter.1 hmem).2 (by simp [const?])

theorem length_lastConst_le (op : BoundOp) (flat : List (Bound R)) :
    (lastConst op flat).length ≤ 1 := by
  unfold lastConst
  split
  · split <;> simp
  · simp

/-- A neutral magnitude is only kept if nothing else is there. -/
theorem mem_lastConst {flat : List (Bound R)} (h : c ∈ lastConst op flat) :
    ∃ v, c = .const v ∧ foldConst op flat = some v ∧
      (unknownsIn flat = [] ∨ (v != op.identity) = true) := by
  unfold lastConst at h
  split at h
  · next v hv =>
    split at h
    · next hkeep =>
      rw [Bool.or_eq_true, List.isEmpty_iff] at hkeep
      exact ⟨v, List.mem_singleton.1 h, hv, hkeep⟩
    · cases h
  · cases h

theorem const_ne_apply (v : R) (inner : List (Bound R)) : .const v ≠ op.apply inner := by
  cases op <;> simp [BoundOp.apply]

theorem operands_apply : op.operands (op.apply terms) = terms := by
  cases op <;> rfl

theorem operands_eq_singleton (h : ∀ inner, b ≠ op.apply inner) : op.operands b = [b] :=
  (operands_cases op b).resolve_right (h _)

/-- Operands that are merged already stay as they are. -/
theorem flatMap_operands_eq_self (h : ∀ b ∈ terms, ∀ inner, b ≠ op.apply inner) :
    terms.flatMap op.operands = terms := by
  induction terms with
  | nil => rfl
  | cons b terms ih =>
    rw [List.flatMap_cons, operands_eq_singleton (h b (by simp)),
      ih fun c hc => h c (by simp [hc]), List.singleton_append]

/-! ## Combining normal forms -/

theorem isNormal_apply_iff :
    (op.apply terms).IsNormal ↔ NormalOperands op terms ∧ ∀ b ∈ terms, b.IsNormal := by
  constructor
  · intro h
    cases op with
    | sum | product | max =>
      cases h
      exact ⟨‹_›, ‹_›⟩
  · rintro ⟨h, hs⟩
    cases op with
    | sum => exact .sum h hs
    | product => exact .product h hs
    | max => exact .max h hs

/-- Merging one level is enough for bounds in normal form. -/
theorem IsNormal.flatMap_operands (h : ∀ b ∈ bs, b.IsNormal) :
    ∀ c ∈ bs.flatMap op.operands, c.IsNormal ∧ ∀ inner, c ≠ op.apply inner := by
  intro c hc
  obtain ⟨b, hb, hcb⟩ := List.mem_flatMap.1 hc
  by_cases hop : ∃ inner, b = op.apply inner
  · obtain ⟨inner, rfl⟩ := hop
    obtain ⟨hoperands, hinner⟩ := isNormal_apply_iff.1 (h _ hb)
    rw [operands_apply] at hcb
    exact ⟨hinner c hcb, hoperands.merged c hcb⟩
  · have hne : ∀ inner, b ≠ op.apply inner := fun inner heq => hop ⟨inner, heq⟩
    rw [operands_eq_singleton hne, List.mem_singleton] at hcb
    subst hcb
    exact ⟨h c hb, hne⟩

/-- What is put together of bounds in normal form: they are in normal form and merged. -/
theorem IsNormal.assembled (op : BoundOp) (h : ∀ b ∈ bs, b.IsNormal) :
    ∀ c ∈ unknownsIn (bs.flatMap op.operands) ++ lastConst op (bs.flatMap op.operands),
      c.IsNormal ∧ ∀ inner, c ≠ op.apply inner := by
  intro c hc
  rcases List.mem_append.1 hc with hc | hc
  · exact IsNormal.flatMap_operands h c (List.mem_of_mem_filter hc)
  · obtain ⟨v, rfl, -⟩ := mem_lastConst hc
    exact ⟨.const v, const_ne_apply v⟩

/-- Behind unknown operands there is one known magnitude at most, and nothing follows it. -/
theorem eq_nil_of_append_const {flat last before after : List (Bound R)} {v : R}
    (hlast : last.length ≤ 1) (h : unknownsIn flat ++ last = before ++ .const v :: after) :
    after = [] := by
  rcases List.append_eq_append_iff.1 h with ⟨rest, -, hrest⟩ | ⟨rest, hrest, hafter⟩
  · have hlength := congrArg List.length hrest
    simp only [List.length_append, List.length_cons] at hlength
    exact List.length_eq_zero_iff.1 (by omega)
  · cases rest with
    | nil =>
      have hlength := congrArg List.length hafter
      simp only [List.nil_append, List.length_cons] at hlength
      exact List.length_eq_zero_iff.1 (by omega)
    | cons c rest =>
      obtain ⟨rfl, -⟩ := List.cons.inj hafter
      exact absurd (hrest ▸ by simp) (const_notMem_unknownsIn v flat)

theorem IsNormal.normalOperands (h : ∀ b ∈ bs, b.IsNormal)
    (hzero : ¬(op = .product ∧
      (foldConst op (bs.flatMap op.operands)).any (· == 0) = true))
    (htwo : 2 ≤ (unknownsIn (bs.flatMap op.operands) ++
      lastConst op (bs.flatMap op.operands)).length) :
    NormalOperands op
      (unknownsIn (bs.flatMap op.operands) ++ lastConst op (bs.flatMap op.operands)) where
  two_le := htwo
  merged c hc := (IsNormal.assembled op h c hc).2
  const_last _ _ _ := eq_nil_of_append_const (length_lastConst_le op _)
  const_counts v hv := by
    have hlast := (List.mem_append.1 hv).resolve_left (const_notMem_unknownsIn v _)
    obtain ⟨w, heq, hfold, hkeep⟩ := mem_lastConst hlast
    cases heq
    refine ⟨hkeep.resolve_left fun hnil => ?_, fun hop => ?_⟩
    · -- a magnitude alone is not two operands
      have hlength := length_lastConst_le op (bs.flatMap op.operands)
      rw [hnil, List.nil_append] at htwo
      omega
    · rw [hfold, Option.any_some] at hzero
      simpa [bne, hop] using hzero

theorem IsNormal.combine (op : BoundOp) (h : ∀ b ∈ bs, b.IsNormal) :
    (Bound.combine op bs).IsNormal := by
  have hall := IsNormal.assembled op h
  rw [combine_eq]
  split
  · exact .const 0
  · next hzero =>
    have hoperands := IsNormal.normalOperands h hzero
    generalize unknownsIn (bs.flatMap op.operands) ++ lastConst op (bs.flatMap op.operands) = terms
      at hall hoperands ⊢
    rcases terms with _ | ⟨b, _ | ⟨c, rest⟩⟩
    · exact .const _
    · exact (hall b (by simp)).1
    · rw [assemble_eq_apply (by simp)]
      exact isNormal_apply_iff.2 ⟨hoperands (by simp), fun x hx => (hall x hx).1⟩

theorem Made.combine (op : BoundOp) (h : ∀ b ∈ bs, b.Made) : (Bound.combine op bs).Made := by
  cases op with
  | sum => exact .add h
  | product => exact .mul h
  | max => exact .largest h

/-- Every operation makes normal forms of normal forms. -/
theorem Made.isNormal (h : b.Made) : b.IsNormal := by
  induction h with
  | ofValue v => exact .const _
  | param name => exact .param name
  | add _ ih => exact .combine .sum ih
  | mul _ ih => exact .combine .product ih
  | largest _ ih => exact .combine .max ih

/-! ## Combining again -/

theorem const?_eq_none (h : ∀ v, b ≠ .const v) : b.const? = none := by
  cases b with
  | const v => exact absurd rfl (h v)
  | _ => rfl

theorem unknownsIn_eq_self (h : ∀ b ∈ terms, b.const? = none) : unknownsIn terms = terms :=
  List.filter_eq_self.2 fun b hb => by simp [h b hb]

/-- Operands in normal form are unknown, but for a known magnitude at the end. -/
theorem NormalOperands.cases (h : NormalOperands op terms) :
    (terms.filterMap const? = [] ∧ unknownsIn terms = terms) ∨
      ∃ front v, terms = front ++ [.const v] ∧ terms.filterMap const? = [v] ∧
        unknownsIn terms = front := by
  by_cases hconst : ∃ v, .const v ∈ terms
  · obtain ⟨v, hv⟩ := hconst
    obtain ⟨front, after, rfl⟩ := List.append_of_mem hv
    obtain rfl := h.const_last front v after rfl
    have hfront : ∀ b ∈ front, b.const? = none := by
      refine fun b hb => const?_eq_none ?_
      rintro w rfl
      -- a magnitude in front of the last one would have to be the last one
      obtain ⟨before, middle, rfl⟩ := List.append_of_mem hb
      have hnil := h.const_last before w (middle ++ [.const v]) (by simp)
      simp at hnil
    refine .inr ⟨front, v, rfl, ?_, ?_⟩
    · rw [List.filterMap_append, List.filterMap_eq_nil_iff.2 hfront]
      rfl
    · rw [unknownsIn, List.filter_append, ← unknownsIn, unknownsIn_eq_self hfront]
      simp [const?]
  · have hall : ∀ b ∈ terms, b.const? = none := fun b hb =>
      const?_eq_none fun v heq => hconst ⟨v, heq ▸ hb⟩
    exact .inl ⟨List.filterMap_eq_nil_iff.2 hall, unknownsIn_eq_self hall⟩

/-- Operands in normal form are put together as they are. -/
theorem combine_of_normalOperands (h : NormalOperands op terms)
    (hflat : bs.flatMap op.operands = terms) : combine op bs = op.apply terms := by
  rw [combine_eq, hflat]
  rcases h.cases with ⟨hknown, hunknown⟩ | ⟨front, v, heq, hknown, hunknown⟩
  · have hfold : foldConst op terms = none := by rw [foldConst, hknown]
    have hlast : lastConst op terms = [] := by rw [lastConst, hfold]
    rw [hfold, hlast, hunknown, List.append_nil, if_neg (by simp), assemble_eq_apply h.two_le]
  · obtain ⟨hidentity, hnonzero⟩ := h.const_counts v (by simp [heq])
    have hfold : foldConst op terms = some v := by
      rw [foldConst, hknown]
      rfl
    have hlast : lastConst op terms = [.const v] := by
      rw [lastConst, hfold]
      simp [hidentity]
    rw [hfold, hlast, hunknown, ← heq, assemble_eq_apply h.two_le, if_neg]
    rintro ⟨hop, hzero⟩
    have hv := hnonzero hop
    rw [Option.any_some] at hzero
    simp [bne, hzero] at hv

/-- Combining a bound in normal form, or its operands, with its own operator gives it back. -/
theorem IsNormal.combine_eq_self (h : (op.apply terms).IsNormal) :
    Bound.combine op [op.apply terms] = op.apply terms ∧
      Bound.combine op terms = op.apply terms := by
  obtain ⟨hoperands, -⟩ := isNormal_apply_iff.1 h
  refine ⟨combine_of_normalOperands hoperands ?_, combine_of_normalOperands hoperands ?_⟩
  · rw [List.flatMap_singleton, operands_apply]
  · exact flatMap_operands_eq_self hoperands.merged

/-! ## Groups -/

theorem unknowns_assemble (h : ∀ b ∈ terms, ∀ inner, b ≠ op.apply inner) :
    unknowns op (assemble op terms) = unknownsIn terms := by
  rcases terms with _ | ⟨b, _ | ⟨c, rest⟩⟩
  · rw [assemble, unknowns, operands_eq_singleton (const_ne_apply _)]
    rfl
  · rw [assemble, unknowns, operands_eq_singleton (h b (by simp))]
  · rw [assemble_eq_apply (by simp), unknowns, operands_apply]

/-- Known magnitudes have no influence on the other operands, except in a product, where one of them
may be zero. -/
theorem unknowns_combine (hop : op ≠ .product) (h : ∀ b ∈ bs, b.IsNormal) :
    unknowns op (combine op bs) = bs.flatMap (unknowns op) := by
  have hlast : unknownsIn (lastConst op (bs.flatMap op.operands)) = [] := by
    rw [unknownsIn, List.filter_eq_nil_iff]
    intro c hc
    obtain ⟨v, rfl, -⟩ := mem_lastConst hc
    simp [const?]
  calc unknowns op (combine op bs)
      = unknowns op (assemble op (unknownsIn (bs.flatMap op.operands) ++
          lastConst op (bs.flatMap op.operands))) := by
        rw [combine_eq, if_neg fun hzero => hop hzero.1]
    _ = unknownsIn (unknownsIn (bs.flatMap op.operands)) ++
          unknownsIn (lastConst op (bs.flatMap op.operands)) := by
        rw [unknowns_assemble fun c hc => (IsNormal.assembled op h c hc).2]
        exact List.filter_append ..
    _ = unknownsIn (bs.flatMap op.operands) := by
        rw [hlast, List.append_nil]
        exact List.filter_eq_self.2 fun c hc => (List.mem_filter.1 hc).2
    _ = bs.flatMap (unknowns op) := List.filter_flatMap ..

/-- By induction over the nesting: an operator keeps what its groups have kept. -/
theorem Grouped.made_and_unknowns {operands : List (Bound R)} (hop : op ≠ .product)
    (h : Grouped op operands b) (hmade : ∀ x ∈ operands, x.Made) :
    b.Made ∧ unknowns op b = operands.flatMap (unknowns op) := by
  induction h with
  | operand b => exact ⟨hmade b (by simp), (List.flatMap_singleton _ _).symm⟩
  | group parts _ ih =>
    have hparts : ∀ p ∈ parts, p.2.Made ∧ unknowns op p.2 = p.1.flatMap (unknowns op) :=
      fun p hp => ih p hp fun x hx => hmade x (List.mem_flatMap.2 ⟨p, hp, hx⟩)
    have hall : ∀ x ∈ parts.map (·.2), x.Made := by
      intro x hx
      obtain ⟨p, hp, rfl⟩ := List.mem_map.1 hx
      exact (hparts p hp).1
    refine ⟨.combine op hall, ?_⟩
    rw [unknowns_combine hop fun x hx => (hall x hx).isNormal, List.flatMap_map, List.flatMap_assoc]
    exact List.flatMap_congr fun p hp => (hparts p hp).2

/-- Bounds made by any nesting of the operations are in normal form, and so are all bounds in them.
Combining such a bound, or its operands, once more with its own operator gives it back. However the
operands of a sum or of a maximum are grouped, the unknown ones come out in the same order. -/
theorem bounds_stay_normal :
    (∀ b : Bound R, b.Made → b.IsNormal ∧
      ∀ op terms, b = op.apply terms → combine op [b] = b ∧ combine op terms = b) ∧
    ∀ op : BoundOp, op ≠ .product → ∀ (operands : List (Bound R)) (b : Bound R),
      (∀ x ∈ operands, x.Made) → Grouped op operands b →
      unknowns op b = operands.flatMap (unknowns op) ∧
      unknowns op b = unknowns op (combine op operands) := by
  constructor
  · intro b hb
    refine ⟨hb.isNormal, ?_⟩
    rintro op terms rfl
    exact hb.isNormal.combine_eq_self
  · intro op hop operands b hoperands hgrouped
    obtain ⟨-, hkept⟩ := hgrouped.made_and_unknowns hop hoperands
    refine ⟨hkept, ?_⟩
    rw [hkept, unknowns_combine hop fun x hx => (hoperands x hx).isNormal]

/-- The operands of a sum: a gain and a scaled offset, with a constant after each. -/
def offsetTerms : List (Bound ℚ) :=
  [.param "gain", .ofValue 1, .mul [.ofValue (-2), .param "offset"], .ofValue (1 / 2)]

/-- The sum, with the first two operands in a group. -/
def offsetSum : Bound ℚ :=
  .add [.add [.param "gain", .ofValue 1], .mul [.ofValue (-2), .param "offset"], .ofValue (1 / 2)]

theorem offsetTerms_made : ∀ b ∈ offsetTerms, b.Made := by
  have hmul : (mul [.ofValue (-2), .param "offset"] : Bound ℚ).Made :=
    .mul (by simp [Made.param, Made.ofValue])
  simp [offsetTerms, hmul, Made.param, Made.ofValue]

theorem offsetSum_grouped : Grouped .sum offsetTerms offsetSum := by
  have hfirst : Grouped .sum [.param "gain", .ofValue 1]
      (add [.param "gain", .ofValue 1] : Bound ℚ) :=
    .group [([.param "gain"], .param "gain"), ([.ofValue 1], .ofValue 1)]
      (by simp [Grouped.operand])
  refine Grouped.group (R := ℚ) [([.param "gain", .ofValue 1], .add [.param "gain", .ofValue 1]),
    ([.mul [.ofValue (-2), .param "offset"]], .mul [.ofValue (-2), .param "offset"]),
    ([.ofValue (1 / 2)], .ofValue (1 / 2))] ?_
  simp only [List.forall_mem_cons, List.not_mem_nil, false_imp_iff, implies_true, and_true]
  exact ⟨hfirst, .operand _, .operand _⟩

/-- The constants of both levels are folded into one that stands last, and the group leaves the order
of the others as it is. -/
theorem bounds_stay_normal_offsetSum :
    offsetSum.Made ∧ Grouped .sum offsetTerms offsetSum ∧
    offsetSum = .sum [.param "gain", .product [.param "offset", .const 2], .const (3 / 2)] ∧
    offsetSum.IsNormal ∧ combine .sum [offsetSum] = offsetSum ∧
    unknowns .sum offsetSum = [.param "gain", .product [.param "offset", .const 2]] ∧
    unknowns .sum offsetSum = unknowns .sum (.add offsetTerms) := by
  have hvalue : offsetSum =
      .sum [.param "gain", .product [.param "offset", .const 2], .const (3 / 2)] :=
    beq_sound (by decide +kernel)
  obtain ⟨hmade, -⟩ := offsetSum_grouped.made_and_unknowns (by decide) offsetTerms_made
  obtain ⟨hnormal, hagain⟩ := bounds_stay_normal.1 offsetSum hmade
  obtain ⟨-, hgroups⟩ :=
    bounds_stay_normal.2 .sum (by decide) offsetTerms offsetSum offsetTerms_made offsetSum_grouped
  refine ⟨hmade, offsetSum_grouped, hvalue, hnormal, (hagain .sum _ hvalue).1, ?_, hgroups⟩
  rw [hvalue]
  rfl

end Bound

end MixedSignal
