import MixedSignal.Proofs.Meaning

/-!
# What linear forms mean

A linear form has a value for values of its variables (`LinearForm.value`), and reading an expression
as a linear form keeps its value, whichever way to evaluate expressions is taken that has the sums and
products of the field (`LinearForm.Evaluates.eq_value`). Repeated variables are collected, so
a variable occurs once (`LinearForm.nodup_of_ofNode?`) and a sum over the terms is a sum of
coefficients over any list of distinct variables that has them all (`LinearForm.sum_terms`).
-/

set_option linter.unusedSectionVars false

namespace MixedSignal.LinearForm

open Store

variable {R : Type} [ExactScalar R] {rounding : Rounding R} {s : Store R} {f : LinearForm R}
  {terms : List (LinearVar × R)} {w : LinearVar}

/-- The variables of a form. -/
def vars (f : LinearForm R) : List LinearVar := f.terms.map Prod.fst

/-- The value of weighted variables. -/
def termsValue (terms : List (LinearVar × R)) (v : LinearVar → R) : R :=
  (terms.map fun t => t.2 * v t.1).sum

/-- The value of a form. -/
def value (f : LinearForm R) (v : LinearVar → R) : R := f.constant + termsValue f.terms v

/-! ## Collecting terms -/

theorem termsValue_addTerm (terms : List (LinearVar × R)) (w : LinearVar) (c : R)
    (v : LinearVar → R) : termsValue (addTerm terms w c) v = termsValue terms v + c * v w := by
  induction terms with
  | nil => simp [addTerm, termsValue]
  | cons t terms ih =>
    obtain ⟨x, d⟩ := t
    rw [addTerm]
    split
    · rename_i hx
      subst hx
      simp only [termsValue, List.map_cons, List.sum_cons]
      ring
    · simp only [termsValue, List.map_cons, List.sum_cons] at ih ⊢
      rw [ih]
      ring

theorem mem_addTerm {c : R} {x : LinearVar} :
    x ∈ (addTerm terms w c).map Prod.fst ↔ x = w ∨ x ∈ terms.map Prod.fst := by
  induction terms with
  | nil => simp [addTerm]
  | cons t terms ih =>
    obtain ⟨y, d⟩ := t
    rw [addTerm]
    split
    · rename_i hy
      simp [hy]
    · rw [List.map_cons, List.map_cons, List.mem_cons, List.mem_cons, ih]
      tauto

theorem nodup_addTerm (h : (terms.map Prod.fst).Nodup) (w : LinearVar) (c : R) :
    ((addTerm terms w c).map Prod.fst).Nodup := by
  induction terms with
  | nil => simp [addTerm]
  | cons t terms ih =>
    obtain ⟨y, d⟩ := t
    rw [List.map_cons, List.nodup_cons] at h
    rw [addTerm]
    split
    · exact List.nodup_cons.2 h
    · rename_i hy
      rw [List.map_cons, List.nodup_cons, mem_addTerm]
      exact ⟨fun hmem => hmem.elim hy h.1, ih h.2⟩

/-! ## Reading an expression -/

/-- Nodes have values `V` in which sums and products are those of the field, and variables have the
values `v`. -/
structure Evaluates (s : Store R) (v : LinearVar → R) (V : NodeId → R) : Prop where
  leaf {i w} : leafVar? s i = some w → V i = v w
  const {i c} : s.const? i = some c → V i = c.toScalar
  product {i a b} : i < s.nodes.size → s.kind i = .arith .product [a, b] → V i = V a * V b
  sum {i xs} : i < s.nodes.size → s.kind i = .arith .sum xs → V i = (xs.map V).sum

/-- The node of a variable. -/
theorem kind_of_leafVar? {i : NodeId} (h : leafVar? s i = some w) :
    (∃ x, s.kind i = .signal x ∧ w = .signal x) ∨ ∃ x, s.kind i = .deriv x ∧ w = .deriv x := by
  unfold leafVar? at h
  split at h
  · rename_i x hk
    exact .inl ⟨x, hk, (Option.some.inj h).symm⟩
  · rename_i x hk
    exact .inr ⟨x, hk, (Option.some.inj h).symm⟩
  · cases h

/-- Meanings are such values. -/
theorem evaluates_meaning (hs : s.WellTyped rounding) (ρ : Reading R) (v : LinearVar → R) :
    Evaluates s v (s.meaning ρ v) where
  leaf h := by
    rw [meaning]
    rcases kind_of_leafVar? h with ⟨x, hk, rfl⟩ | ⟨x, hk, rfl⟩
    · rw [hk]
      rfl
    · rw [hk]
      rfl
  const h := meaning_of_const? h
  product := by
    intro i a b hi hk
    rw [hs.meaning_eq hi, hk]
    change Scalar.product [s.meaning ρ v a, s.meaning ρ v b] = _
    rw [Scalar.product_eq]
    simp
  sum := by
    intro i xs hi hk
    rw [hs.meaning_eq hi, hk]
    exact Scalar.sum_eq _

theorem summands_lt {R : Type} [Scalar R] {rounding : Rounding R} {s : Store R}
    (hs : s.WellTyped rounding) {i : NodeId} (hi : i < s.nodes.size) :
    ∀ x ∈ summands s i, x < s.nodes.size := by
  unfold summands
  split
  · exact fun x hx => (hs.operand_lt hi ‹_› x hx).trans hi
  · simpa using hi

namespace Evaluates

variable {v : LinearVar → R} {V : NodeId → R} {i : NodeId}

variable (hV : Evaluates s v V)
include hV

theorem term?_eq (hi : i < s.nodes.size) {c : R} (h : term? s i = some (w, c)) : V i = c * v w := by
  unfold term? at h
  split at h
  · rename_i a b hk
    obtain ⟨e, he, h⟩ := Option.bind_eq_some_iff.1 h
    obtain ⟨x, hx, h⟩ := Option.bind_eq_some_iff.1 h
    cases h
    rw [hV.product hi hk, hV.leaf hx, hV.const he, mul_comm]
  · obtain ⟨x, hx, h⟩ := Option.map_eq_some_iff.1 h
    cases h
    rw [hV.leaf hx, one_mul]

/-- Adding a term of a sum adds its value. -/
theorem addNode?_eq (hi : i < s.nodes.size) {g : LinearForm R} (h : addNode? s f i = some g) :
    g.value v = f.value v + V i := by
  unfold addNode? at h
  split at h
  · rename_i c hc
    cases h
    rw [hV.const hc]
    exact add_right_comm _ _ _
  · obtain ⟨⟨w, c⟩, ht, h⟩ := Option.map_eq_some_iff.1 h
    cases h
    rw [hV.term?_eq hi ht, value, termsValue_addTerm, ← add_assoc]
    rfl

theorem foldlM_addNode?_eq {xs : List NodeId} (hxs : ∀ x ∈ xs, x < s.nodes.size) {g : LinearForm R}
    (h : xs.foldlM (addNode? s) f = some g) : g.value v = f.value v + (xs.map V).sum := by
  induction xs generalizing f with
  | nil =>
    cases h
    simp
  | cons x xs ih =>
    rw [List.foldlM_cons] at h
    obtain ⟨e, he, h⟩ := Option.bind_eq_some_iff.1 h
    rw [ih (fun y hy => hxs y (by simp [hy])) h, hV.addNode?_eq (hxs x (by simp)) he,
      List.map_cons, List.sum_cons, add_assoc]

theorem sum_summands (hi : i < s.nodes.size) : ((summands s i).map V).sum = V i := by
  unfold summands
  split
  · rename_i xs hk
    exact (hV.sum hi hk).symm
  · simp

/-- An expression that reads as a linear form has the value of the form. -/
theorem eq_value (hs : s.WellTyped rounding) (hi : i < s.nodes.size) (h : ofNode? s i = some f) :
    V i = f.value v := by
  rw [hV.foldlM_addNode?_eq (summands_lt hs hi) h, hV.sum_summands hi]
  simp [value, zero, termsValue]

end Evaluates

/-- An expression that reads as a linear form means its value. -/
theorem meaning_eq_value {v : LinearVar → R} {ρ : Reading R} (hs : s.WellTyped rounding)
    {i : NodeId} (hi : i < s.nodes.size) (h : ofNode? s i = some f) : s.meaning ρ v i = f.value v :=
  (evaluates_meaning hs ρ v).eq_value hs hi h

theorem nodup_addNode? {g : LinearForm R} {i : NodeId} (h : addNode? s f i = some g)
    (hf : f.vars.Nodup) : g.vars.Nodup := by
  unfold addNode? at h
  split at h
  · cases h
    exact hf
  · obtain ⟨⟨w, c⟩, -, h⟩ := Option.map_eq_some_iff.1 h
    cases h
    exact nodup_addTerm hf w c

theorem nodup_foldlM_addNode? {xs : List NodeId} {g : LinearForm R}
    (h : xs.foldlM (addNode? s) f = some g) (hf : f.vars.Nodup) : g.vars.Nodup := by
  induction xs generalizing f with
  | nil =>
    cases h
    exact hf
  | cons x xs ih =>
    rw [List.foldlM_cons] at h
    obtain ⟨e, he, h⟩ := Option.bind_eq_some_iff.1 h
    exact ih h (nodup_addNode? he hf)

/-- Each variable of a form occurs once. -/
theorem nodup_of_ofNode? {i : NodeId} (h : ofNode? s i = some f) : f.vars.Nodup :=
  nodup_foldlM_addNode? h List.nodup_nil

/-! ## Sums over variables -/

theorem lookup_eq_none (h : w ∉ terms.map Prod.fst) : terms.lookup w = none := by
  rw [List.lookup_eq_none_iff]
  intro t ht
  have hne : w ≠ t.1 := fun heq => h (List.mem_map.2 ⟨t, ht, heq.symm⟩)
  simpa using hne

/-- A sum over the terms is a sum of coefficients over any distinct variables among which they are. -/
theorem sum_terms (hterms : (terms.map Prod.fst).Nodup) {xs : List LinearVar} (hxs : xs.Nodup)
    (hsub : ∀ w ∈ terms.map Prod.fst, w ∈ xs) (v : LinearVar → R) :
    termsValue terms v = (xs.map fun w => (terms.lookup w).getD 0 * v w).sum := by
  induction terms with
  | nil => simp [termsValue]
  | cons t terms ih =>
    obtain ⟨x, c⟩ := t
    rw [List.map_cons, List.nodup_cons] at hterms
    have hx : x ∈ xs := hsub x (by simp)
    have hlookup : ∀ w, (((x, c) :: terms).lookup w).getD 0 * v w =
        if w = x then c * v w else (terms.lookup w).getD 0 * v w := by
      intro w
      rw [List.lookup_cons]
      by_cases hw : w = x
      · simp [hw]
      · simp [hw, beq_eq_false_iff_ne.2 hw]
    -- the first term adds its coefficient at its variable, where the others have none
    simp only [hlookup]
    rw [List.sum_map_ite_eq, List.count_eq_one_of_mem hxs hx, lookup_eq_none hterms.1, one_smul,
      ← ih hterms.2 fun w hw => hsub w (by simp [hw])]
    simp [termsValue]

end MixedSignal.LinearForm
