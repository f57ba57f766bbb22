import Mathlib.Data.Option.Basic
import MixedSignal.Proofs.Operators

/-!
# What an operator makes of its operands

`reduce f xs` joins the elements of a list by an operation `f`; of no elements it makes nothing. For an
associative and commutative operation the list can be cut anywhere and its elements can change
places, which is all that flattening and folding of operands rely on.

`Store.Interprets` says that nodes have values on which an operator acts as such an operation. Then
the node that the operator becomes has the value that the operation makes of the values of the
operands (`Store.Interprets.of_combines`), whatever was flattened, folded or dropped on the way.
-/

set_option linter.unusedSectionVars false

namespace MixedSignal

/-! ## Associative and commutative operations -/

section

variable {α : Type}

/-- What the operation makes of some elements, nothing of none. -/
def reduce (f : α → α → α) (xs : List α) : Option α :=
  xs.foldr (fun x r => (some x).merge f r) none

variable (f : α → α → α)

@[simp] theorem reduce_nil : reduce f [] = none := rfl

theorem reduce_cons (x : α) (xs : List α) :
    reduce f (x :: xs) = (some x).merge f (reduce f xs) :=
  rfl

theorem reduce_append [Std.Associative f] (xs ys : List α) :
    reduce f (xs ++ ys) = (reduce f xs).merge f (reduce f ys) := by
  induction xs with
  | nil => simp
  | cons x xs ih => rw [List.cons_append, reduce_cons, reduce_cons, ih,
      (Option.associative_merge f).assoc]

theorem reduce_eq_foldl [Std.Associative f] (x : α) (xs : List α) :
    reduce f (x :: xs) = some (xs.foldl f x) := by
  induction xs generalizing x with
  | nil => rfl
  | cons y xs ih =>
    have h := ih (f x y)
    rw [reduce_cons] at h
    rw [reduce_cons, reduce_cons, ← (Option.associative_merge f).assoc]
    exact h

/-- What commutes with the operations may be applied before or after. -/
theorem reduce_map {β : Type} {g : β → β → β} {h : α → β} (hh : ∀ x y, h (f x y) = g (h x) (h y))
    (xs : List α) : reduce g (xs.map h) = (reduce f xs).map h := by
  induction xs with
  | nil => rfl
  | cons x xs ih =>
    rw [List.map_cons, reduce_cons, reduce_cons, ih]
    cases reduce f xs with
    | none => rfl
    | some r => exact congrArg some (hh x r).symm

/-- An element that annihilates the others is all that is left. -/
theorem reduce_eq_of_mem {z : α} (hl : ∀ x, f z x = z) (hr : ∀ x, f x z = z) {xs : List α}
    (h : z ∈ xs) : reduce f xs = some z := by
  induction xs with
  | nil => simp at h
  | cons x xs ih =>
    rw [reduce_cons]
    rcases List.mem_cons.1 h with rfl | h
    · cases reduce f xs with
      | none => rfl
      | some r => exact congrArg some (hl r)
    · rw [ih h]
      exact congrArg some (hr x)

end

namespace Store

open Build (flattened terms known)

variable {R : Type} [Scalar R] {α : Type} {s s' : Store R} {op : ArithOp} {d : Domain}

/-! ## Values of nodes -/

/-- Nodes have values by `V` and constants by `C`, and the operator acts on them as `f`. A product with
the factor `z` is `z`. -/
structure Interprets (s : Store R) (op : ArithOp) (f : α → α → α) (z : α) (C : Value R → α → Prop)
    (V : NodeId → α → Prop) : Prop where
  const {i v a} : V i a → s.const? i = some v → C v a
  operands {i xs a} : V i a → s.kind i = .arith op xs →
    ∃ as, List.Forall₂ V xs as ∧ reduce f as = some a
  fold {v w a b} : C v a → C w b → C (Build.foldValues op v w) (f a b)
  identity {v a} : C v a → Build.isIdentity op v = true → ∀ b, f b a = b
  zero {v a} : op = .product → C v a → v.isZero = true → a = z
  zeroArray {i a} : op = .product → V i a → Build.isZeroArray s i = true → a = z
  absorbs : op = .product → ∀ a, f z a = z ∧ f a z = z

/-- The nodes that an operator may become have their values by `V`. -/
structure Realizes (s : Store R) (op : ArithOp) (d : Domain) (f : α → α → α) (z : α)
    (C : Value R → α → Prop) (V : NodeId → α → Prop) : Prop where
  constant {v a j} : C v a → j < s.nodes.size → s.IsConstant v d j → V j a
  zero {j} : op = .product → j < s.nodes.size → s.IsConstant (.int 0) d j → V j z
  arith {xs as a j g} : j < s.nodes.size → s.node j = ⟨.arith op xs, g⟩ → List.Forall₂ V xs as →
    reduce f as = some a → V j a

namespace Interprets

variable {f : α → α → α} {z : α} {C : Value R → α → Prop} {V V' : NodeId → α → Prop}
  {nodes xs : List NodeId} {as : List α}

/-- Flattening an operand keeps what the operator makes of it. -/
theorem flatten (h : s.Interprets op f z C V) {i : NodeId} {a : α} (hi : V i a) :
    ∃ bs, List.Forall₂ V (Build.flatten s op i) bs ∧ reduce f bs = some a := by
  unfold Build.flatten
  split
  · rename_i inner xs hkind
    split
    · rename_i heq
      subst heq
      exact h.operands hi hkind
    · exact ⟨[a], .cons hi .nil, rfl⟩
  · exact ⟨[a], .cons hi .nil, rfl⟩

variable [Std.Associative f]

theorem flattened (h : s.Interprets op f z C V) (hnodes : List.Forall₂ V nodes as) :
    ∃ bs, List.Forall₂ V (Build.flattened s op nodes) bs ∧ reduce f bs = reduce f as := by
  induction hnodes with
  | nil => exact ⟨[], .nil, rfl⟩
  | cons hx _ ih =>
    obtain ⟨bs, hbs, hb⟩ := h.flatten hx
    obtain ⟨cs, hcs, hc⟩ := ih
    refine ⟨bs ++ cs, List.rel_append hbs hcs, ?_⟩
    rw [reduce_append, hb, hc, reduce_cons]

/-- The folded constant has the value that the operation makes of the constants. -/
theorem foldl_foldValues (h : s.Interprets op f z C V) {vs : List (Value R)} {cs : List α}
    (hvs : List.Forall₂ C vs cs) {v : Value R} {c : α} (hv : C v c) :
    C (vs.foldl (Build.foldValues op) v) (cs.foldl f c) := by
  induction hvs generalizing v c with
  | nil => exact hv
  | cons hw _ ih => exact ih (h.fold hv hw)

variable [Std.Commutative f]

variable (h : s.Interprets op f z C V)
include h

/-- The constants among operands can be taken out. The induction moves one operand at a time to its
side. -/
theorem partition (hxs : List.Forall₂ V xs as) :
    ∃ ts cs, List.Forall₂ V (xs.filter fun i => (s.const? i).isNone) ts ∧
      List.Forall₂ C (xs.filterMap s.const?) cs ∧
      reduce f as = (reduce f ts).merge f (reduce f cs) := by
  induction hxs with
  | nil => exact ⟨[], [], .nil, .nil, rfl⟩
  | @cons x a xs as hx _ ih =>
    obtain ⟨ts, cs, hts, hcs, hreduce⟩ := ih
    cases hc : s.const? x with
    | none =>
      refine ⟨a :: ts, cs, ?_, ?_, ?_⟩
      · rw [List.filter_cons_of_pos (by simp [hc])]
        exact .cons hx hts
      · rwa [List.filterMap_cons_none hc]
      · rw [reduce_cons, reduce_cons, hreduce, (Option.associative_merge f).assoc]
    | some v =>
      refine ⟨ts, a :: cs, ?_, ?_, ?_⟩
      · rwa [List.filter_cons_of_neg (by simp [hc])]
      · rw [List.filterMap_cons_some hc]
        exact .cons (h.const hx hc) hcs
      · rw [reduce_cons, reduce_cons, hreduce, ← (Option.associative_merge f).assoc,
          ← (Option.associative_merge f).assoc, (Option.commutative_merge f).comm (some a)]

/-- What the operator makes of nodes is what it makes of their terms and of the folded constant. -/
theorem terms_known (hnodes : List.Forall₂ V nodes as) :
    ∃ ts c, List.Forall₂ V (terms s op nodes) ts ∧ Option.Rel C (known s op nodes) c ∧
      reduce f as = (reduce f ts).merge f c := by
  obtain ⟨bs, hbs, hb⟩ := h.flattened hnodes
  obtain ⟨ts, cs, hts, hcs, hreduce⟩ := h.partition hbs
  refine ⟨ts, reduce f cs, hts, ?_, by rw [← hb, hreduce]⟩
  unfold known
  cases hvs : (Build.flattened s op nodes).filterMap s.const? with
  | nil =>
    rw [hvs] at hcs
    cases hcs
    exact .none
  | cons v vs =>
    rw [hvs] at hcs
    cases hcs with
    | cons hv hvs =>
      rw [reduce_eq_foldl]
      exact .some (h.foldl_foldValues hvs hv)

/-- What is left of operands makes the same. -/
theorem remaining (h' : s'.Realizes op d f z C V') (hV : ∀ i a, V i a → V' i a)
    (hnodes : List.Forall₂ V nodes as) (hxs : Remaining s s' op d nodes xs) :
    ∃ bs, List.Forall₂ V' xs bs ∧ reduce f bs = reduce f as := by
  obtain ⟨ts, c, hts, hknown, hreduce⟩ := h.terms_known hnodes
  have hts' : List.Forall₂ V' (terms s op nodes) ts := hts.imp hV
  cases hxs with
  | unfolded hident =>
    refine ⟨ts, hts', ?_⟩
    rw [hreduce]
    generalize known s op nodes = v at hknown hident
    cases hknown with
    | none => simp
    | some hc =>
      obtain ⟨hidentity, hne⟩ := hident _ rfl
      cases ts with
      | nil => exact absurd (List.forall₂_nil_right_iff.1 hts) hne
      | cons t ts =>
        rw [reduce_eq_foldl]
        exact congrArg some (h.identity hc hidentity _).symm
  | @folded v x hv hlt hx hident =>
    rw [hv] at hknown
    cases hknown with
    | @some _ c hc =>
      refine ⟨ts ++ [c], List.rel_append hts' (.cons (h'.constant hc hlt hx) .nil), ?_⟩
      rw [reduce_append, hreduce]
      rfl

/-- A product with a zero factor is zero. -/
theorem reduce_eq_zero (hop : op = .product) (hnodes : List.Forall₂ V nodes as)
    (hzero : (∃ v, known s op nodes = some v ∧ v.isZero = true) ∨
      ∃ i ∈ terms s op nodes, Build.isZeroArray s i = true) : reduce f as = some z := by
  obtain ⟨ts, c, hts, hknown, hreduce⟩ := h.terms_known hnodes
  have hz := h.absorbs hop
  rw [hreduce]
  rcases hzero with ⟨v, hv, hvz⟩ | ⟨i, hi, hiz⟩
  · rw [hv] at hknown
    cases hknown with
    | some hc =>
      obtain rfl := h.zero hop hc hvz
      cases reduce f ts with
      | none => rfl
      | some t => exact congrArg some (hz t).2
  · obtain ⟨t, ht, hit⟩ := forall₂_exists_right hts i hi
    obtain rfl := h.zeroArray hop hit hiz
    rw [reduce_eq_of_mem f (fun a => (hz a).1) (fun a => (hz a).2) ht]
    cases c with
    | none => rfl
    | some c => exact congrArg some (hz c).1

/-- What an operator on nodes becomes has the value that the operator makes of their values. -/
theorem of_combines (h' : s'.Realizes op d f z C V') (hV : ∀ i a, V i a → V' i a)
    (hnodes : List.Forall₂ V nodes as) {a : α} (ha : reduce f as = some a) {j : NodeId}
    (hj : j < s'.nodes.size) (hcomb : Combines s s' op d nodes j) : V' j a := by
  cases hcomb with
  | zero hop hzero hconst =>
    rw [h.reduce_eq_zero hop hnodes hzero] at ha
    cases ha
    exact h'.zero hop hj hconst
  | neutral hnil =>
    obtain ⟨bs, hbs, hb⟩ := h.flattened hnodes
    rw [hnil] at hbs
    cases hbs
    rw [← hb] at ha
    cases ha
  | single hxs =>
    obtain ⟨bs, hbs, hb⟩ := h.remaining h' hV hnodes hxs
    cases hbs with
    | cons hr hnil =>
      cases hnil
      rw [← hb] at ha
      cases ha
      exact hr
  | node hxs hnode =>
    obtain ⟨bs, hbs, hb⟩ := h.remaining h' hV hnodes hxs
    exact h'.arith hj hnode hbs (hb.trans ha)

end Interprets

/-- A sum or product of nothing is its neutral constant. -/
theorem Combines.of_nil {rounding : Rounding R} (hs : s'.WellTyped rounding) {j : NodeId}
    (hj : j < s'.nodes.size) (h : Combines s s' op d [] j) :
    ∃ k, s'.IsConstant (.int k) d j ∧ (op = .sum ∧ k = 0 ∨ op = .product ∧ k = 1) := by
  have hrest : ∀ xs, Remaining s s' op d [] xs → xs = [] := by
    intro xs hxs
    cases hxs with
    | unfolded => rfl
    | folded hv => cases hv
  cases h with
  | zero _ hzero =>
    rcases hzero with ⟨v, hv, -⟩ | ⟨i, hi, -⟩
    · cases hv
    · cases hi
  | neutral _ hop hconst => exact ⟨_, hconst, hop⟩
  | single hxs => cases hrest _ hxs
  | node hxs hnode =>
    have ht := hs.typed j hj
    rw [kind, hnode, hrest _ hxs] at ht
    cases ht with
    | arith hnormal => exact absurd hnormal.two_le (by simp)

end Store

end MixedSignal
