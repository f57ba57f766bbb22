import Mathlib
import MixedSignal.Proofs.Correspondence
import MixedSignal.Proofs.Extraction

/-!
# Extraction can be repeated

Solving equations grows the store by rewritten nodes. `Solving.systemWith_reproducible` says that this
makes no difference to the result: the equations are solved to the same system, or fail with the same
error, when they are solved again, and wherever else the same expressions stand.

Both runs are followed side by side. What is remembered of nodes that correspond corresponds, so
rewriting is coupled (`Transform.Parallel`), once the bound on its recursion is out of the way, which
depends on the number of a node.
-/

set_option linter.unusedSectionVars false

namespace MixedSignal

variable {R : Type} [Scalar R] {equations : List Equation}

/-- Products of two factors correspond to such products only. -/
theorem Link.product_cases {l : Link R} {i j : NodeId} (h : l.rel i j) :
    (∃ a b a' b', l.left.kind i = .arith .product [a, b] ∧
      l.right.kind j = .arith .product [a', b'] ∧ l.rel a a' ∧ l.rel b b') ∨
    (∀ a b, l.left.kind i ≠ .arith .product [a, b]) ∧
      ∀ a b, l.right.kind j ≠ .arith .product [a, b] := by
  have hk := l.kind_rel h
  generalize l.left.kind i = k, l.right.kind j = k' at hk
  cases hk with
  | @arith op xs ys hxs =>
    by_cases hpair : op = .product ∧ xs.length = 2
    · obtain ⟨rfl, htwo⟩ := hpair
      obtain ⟨a, b, rfl⟩ := List.length_eq_two.1 htwo
      obtain ⟨a', b', rfl⟩ := List.length_eq_two.1 (hxs.length_eq ▸ htwo)
      cases hxs with
      | cons ha hxs =>
        cases hxs with
        | cons hb _ => exact .inl ⟨a, b, a', b', rfl, rfl, ha, hb⟩
    · refine .inr ⟨fun a b heq => ?_, fun a b heq => ?_⟩
      · cases heq
        exact hpair ⟨rfl, rfl⟩
      · cases heq
        exact hpair ⟨rfl, hxs.length_eq⟩
  | _ => exact .inr ⟨fun a b heq => (by cases heq), fun a b heq => (by cases heq)⟩

/-! ## Linear forms -/

namespace LinearForm

variable {l : Link R} {i j : NodeId}

variable (h : l.rel i j)
include h

theorem leafVar?_eq : leafVar? l.left i = leafVar? l.right j := by
  have hk := l.kind_rel h
  unfold leafVar?
  generalize l.left.kind i = k, l.right.kind j = k' at hk ⊢
  cases hk <;> rfl

theorem term?_eq : term? l.left i = term? l.right j := by
  rw [term?, term?]
  rcases l.product_cases h with ⟨a, b, a', b', hi, hj, ha, hb⟩ | ⟨hi, hj⟩
  · rw [hi, hj]
    simp only [l.const?_eq hb, leafVar?_eq ha]
  · split
    · exact absurd ‹_› (hi _ _)
    · rw [leafVar?_eq h]

theorem addNode?_eq (f : LinearForm R) : addNode? l.left f i = addNode? l.right f j := by
  rw [addNode?, addNode?, l.const?_eq h, term?_eq h]

theorem summands_rel : List.Forall₂ l.rel (summands l.left i) (summands l.right j) := by
  have hk := l.kind_rel h
  have hone : List.Forall₂ l.rel [i] [j] := .cons h .nil
  unfold summands
  generalize l.left.kind i = k, l.right.kind j = k' at hk
  cases hk with
  | @arith op xs ys hxs =>
    cases op with
    | sum => exact hxs
    | product | min | max => exact hone
  | _ => exact hone

/-- Nodes that correspond are the same linear form. -/
theorem ofNode?_eq : ofNode? l.left i = ofNode? l.right j := by
  have hs := summands_rel h
  unfold ofNode?
  generalize (zero : LinearForm R) = f, summands l.left i = xs, summands l.right j = ys at hs ⊢
  induction hs generalizing f with
  | nil => rfl
  | cons hab _ ih =>
    rw [List.foldlM_cons, List.foldlM_cons, addNode?_eq hab]
    exact congrArg _ (funext fun g => ih g)

end LinearForm

/-! ## Rewriting -/

namespace Transform

open Build

variable {l : Link R} {i j : NodeId} {α β α' β' : Type}

/-- What is remembered corresponds. -/
structure Memos (l : Link R) (memo memo' : Std.TreeMap NodeId NodeId) : Prop where
  left : ∀ i a, memo[i]? = some a → ∃ j b, l.rel i j ∧ memo'[j]? = some b ∧ l.rel a b
  right : ∀ j b, memo'[j]? = some b → ∃ i a, l.rel i j ∧ memo[i]? = some a ∧ l.rel a b

namespace Memos

variable {memo memo' : Std.TreeMap NodeId NodeId}

theorem empty (l : Link R) : Memos l {} {} := ⟨by simp, by simp⟩

theorem mono {l' : Link R} (h : Memos l memo memo') (hl : l.rel ≤ l'.rel) : Memos l' memo memo' := by
  constructor
  · intro i a hi
    obtain ⟨j, b, hij, hj, hab⟩ := h.left i a hi
    exact ⟨j, b, hl i j hij, hj, hl a b hab⟩
  · intro j b hj
    obtain ⟨i, a, hij, hi, hab⟩ := h.right j b hj
    exact ⟨i, a, hl i j hij, hi, hl a b hab⟩

/-- Nodes that correspond have forms that correspond, or none. -/
theorem lookup (h : Memos l memo memo') (hij : l.rel i j) :
    (∃ a b, memo[i]? = some a ∧ memo'[j]? = some b ∧ l.rel a b) ∨
      memo[i]? = none ∧ memo'[j]? = none := by
  cases hi : memo[i]? with
  | some a =>
    obtain ⟨j', b, hij', hj', hab⟩ := h.left i a hi
    obtain rfl := l.unique.2 hij hij'
    exact .inl ⟨a, b, rfl, hj', hab⟩
  | none =>
    refine .inr ⟨rfl, Option.eq_none_iff_forall_ne_some.2 fun b hj => ?_⟩
    obtain ⟨i', a, hij', hi', -⟩ := h.right j b hj
    obtain rfl := l.unique.1 hij hij'
    rw [hi] at hi'
    cases hi'

theorem insert (h : Memos l memo memo') (hij : l.rel i j) {a b : NodeId} (hab : l.rel a b) :
    Memos l (memo.insert i a) (memo'.insert j b) := by
  have hset : ∀ {m : Std.TreeMap NodeId NodeId} {k k' c : NodeId},
      (m.insert k c)[k']? = if k = k' then some c else m[k']? := by
    intro m k k' c
    rw [Std.TreeMap.getElem?_insert]
    simp only [compare_eq_iff_eq]
  constructor
  · intro k c hk
    rw [hset] at hk
    split at hk
    · rename_i heq
      obtain rfl := Option.some.inj hk
      exact ⟨j, b, heq ▸ hij, by rw [hset, if_pos rfl], hab⟩
    · rename_i hne
      obtain ⟨k', d, hkk', hk', hcd⟩ := h.left k c hk
      refine ⟨k', d, hkk', ?_, hcd⟩
      rw [hset, if_neg fun heq => hne ?_, hk']
      exact l.unique.1 hij (heq ▸ hkk')
  · intro k d hk
    rw [hset] at hk
    split at hk
    · rename_i heq
      obtain rfl := Option.some.inj hk
      exact ⟨i, a, heq ▸ hij, by rw [hset, if_pos rfl], hab⟩
    · rename_i hne
      obtain ⟨k', c, hkk', hk', hcd⟩ := h.right k d hk
      refine ⟨k', c, hkk', ?_, hcd⟩
      rw [hset, if_neg fun heq => hne ?_, hk']
      exact l.unique.2 hij (heq ▸ hkk')

end Memos

/-- From stores that are linked and memories that correspond, both computations succeed, or both fail
with the same error, and what is remembered goes on to correspond. -/
def Parallel (l : Link R) (x : Transform R α) (y : Transform R β) (P : Link R → α → β → Prop) : Prop :=
  ∀ memo memo', Memos l memo memo' → Couples l (x.run memo) (y.run memo') fun l p q =>
    P l p.1 q.1 ∧ Memos l p.2 q.2

namespace Parallel

variable {x : Transform R α} {y : Transform R β} {P Q : Link R → α → β → Prop}

theorem pure {a : α} {b : β} (h : P l a b) : Parallel l (Pure.pure a) (Pure.pure b) P :=
  fun _ _ hmemo => Couples.pure ⟨h, hmemo⟩

theorem bind {f : α → Transform R α'} {g : β → Transform R β'} {Q : Link R → α' → β' → Prop}
    (hx : Parallel l x y P)
    (hf : ∀ l' a b, l.rel ≤ l'.rel → P l' a b → Parallel l' (f a) (g b) Q) :
    Parallel l (x >>= f) (y >>= g) Q := by
  intro memo memo' hmemo
  rw [StateT.run_bind, StateT.run_bind]
  exact (hx memo memo' hmemo).bind fun l' p q hl h => hf l' p.1 q.1 hl h.1 p.2 q.2 h.2

/-- A construction leaves what is remembered alone. -/
theorem lift {x : Build R α} {y : Build R β} (h : Couples l x y P) :
    Parallel l (StateT.lift x) (StateT.lift y) P :=
  fun _ _ hmemo => h.bind fun _ _ _ hl hP => .pure ⟨hP, hmemo.mono hl⟩

theorem store_bind {f : Store R → Transform R α} {g : Store R → Transform R β}
    (h : Parallel l (f l.left) (g l.right) P) : Parallel l (store >>= f) (store >>= g) P :=
  h

theorem mapM_rel {γ δ : Type} {f : γ → Transform R NodeId} {g : δ → Transform R NodeId}
    {C : γ → δ → Prop} {cs : List γ} {ds : List δ} (h : List.Forall₂ C cs ds)
    (hf : ∀ l' c d, l.rel ≤ l'.rel → C c d → Parallel l' (f c) (g d) Link.rel) :
    Parallel l (cs.mapM f) (ds.mapM g) fun l is js => List.Forall₂ l.rel is js := by
  induction h generalizing l with
  | nil =>
    rw [List.mapM_nil, List.mapM_nil]
    exact .pure .nil
  | @cons c d cs ds hcd _ ih =>
    rw [List.mapM_cons, List.mapM_cons]
    refine (hf l c d le_rfl hcd).bind fun l₁ a b h₁ hab => ?_
    refine (ih fun l' c d hl' => hf l' c d (h₁.trans hl')).bind fun l₂ as bs h₂ habs => ?_
    exact .pure (.cons (h₂ _ _ hab) habs)

theorem remember {x y : Transform R NodeId} (hij : l.rel i j) (hx : Parallel l x y Link.rel) :
    Parallel l (remember i x) (remember j y) Link.rel := by
  intro memo memo' hmemo
  unfold Transform.remember
  simp only [StateT.run_bind, StateT.run_get, pure_bind]
  rcases hmemo.lookup hij with ⟨a, b, hi, hj, hab⟩ | ⟨hi, hj⟩
  · rw [hi, hj]
    exact .pure ⟨hab, hmemo⟩
  · rw [hi, hj]
    simp only [StateT.run_bind]
    refine (hx memo memo' hmemo).bind fun l' p q hl h => ?_
    exact .pure ⟨h.1, h.2.insert (hl _ _ hij) h.1⟩

end Parallel

/-- Nodes that correspond are rewritten to nodes that correspond when case tables are resolved. -/
theorem resolve_parallel (setting : SignalId → Option Bool) (i : NodeId) : ∀ {j : NodeId} {l : Link R},
    l.rel i j → Parallel l (resolve setting i) (resolve setting j) Link.rel := by
  -- Operands are older on both sides, so both recursions are guarded alike.
  induction i using Nat.strong_induction_on with
  | _ i ih =>
    intro j l hij
    have hk := l.kind hij
    rw [resolve, resolve]
    refine .remember hij (.store_bind ?_)
    have hbelow : ∀ {l' : Link R} {a b : NodeId}, l.rel ≤ l'.rel → l.rel a b ∧ a < i ∧ b < j →
        Parallel l' (if _h : a < i then resolve setting a else pure a)
          (if _h : b < j then resolve setting b else pure b) Link.rel := by
      rintro l' a b hl ⟨hab, ha, hb⟩
      rw [dif_pos ha, dif_pos hb]
      exact ih a ha (hl a b hab)
    have hoperands : ∀ {xs ys : List NodeId},
        List.Forall₂ (fun a b => l.rel a b ∧ a < i ∧ b < j) xs ys →
        Parallel l (xs.mapM fun a => if _h : a < i then resolve setting a else pure a)
          (ys.mapM fun b => if _h : b < j then resolve setting b else pure b)
          fun l is js => List.Forall₂ l.rel is js :=
      fun h => .mapM_rel h fun l' a b hl hab => hbelow hl hab
    generalize l.left.kind i = k, l.right.kind j = k' at hk ⊢
    cases hk with
    | @cases xs ys selectors hxs =>
      simp only
      cases selectors.mapM setting with
      | none =>
        refine (hoperands hxs).bind fun l' is js _ his => ?_
        exact .lift (eqnCase_couples (related_of_nodes his) selectors)
      | some bits =>
        simp only [List.getD_eq_getElem?_getD]
        cases hcase : ys[address bits]? with
        | some b =>
          obtain ⟨a, ha, hab⟩ := forall₂_getElem?_left hxs hcase
          rw [ha]
          exact hbelow le_rfl hab
        | none =>
          have hnone : xs[address bits]? = none := by
            rw [List.getElem?_eq_none_iff, hxs.length_eq]
            exact List.getElem?_eq_none_iff.1 hcase
          rw [hnone, Option.getD_none, Option.getD_none, dif_neg (lt_irrefl i),
            dif_neg (lt_irrefl j)]
          exact .pure hij
    | arith hxs =>
      refine (hoperands hxs).bind fun l' is js _ his => ?_
      exact .lift (arithmetic_couples _ (related_of_nodes his))
    | select hxs ha =>
      refine (hoperands hxs).bind fun l' is js hl his => ?_
      exact .lift (array_couples (related_of_nodes his) (.node (hl _ _ ha.1)))
    | _ => exact .pure hij

theorem scaledSum?_cases (hij : l.rel i j) :
    (∃ xs ys v, scaledSum? l.left i = some (xs, v) ∧ scaledSum? l.right j = some (ys, v) ∧
      List.Forall₂ l.rel xs ys) ∨ scaledSum? l.left i = none ∧ scaledSum? l.right j = none := by
  rw [scaledSum?, scaledSum?]
  rcases l.product_cases hij with ⟨a, b, a', b', hi, hj, ha, hb⟩ | ⟨hi, hj⟩
  · rw [hi, hj]
    simp only [l.const?_eq hb]
    have hk := l.kind_rel ha
    generalize l.left.kind a = k, l.right.kind a' = k', l.right.const? b' = o at hk ⊢
    cases hk with
    | @arith op xs ys hxs =>
      cases op with
      | sum =>
        cases o with
        | some v => exact .inl ⟨xs, ys, v, rfl, rfl, hxs⟩
        | none => exact .inr ⟨rfl, rfl⟩
      | product | min | max => exact .inr ⟨rfl, rfl⟩
    | _ => exact .inr ⟨rfl, rfl⟩
  · refine .inr ⟨?_, ?_⟩
    · split
      · exact absurd ‹_› (hi _ _)
      · rfl
    · split
      · exact absurd ‹_› (hj _ _)
      · rfl

/-- Nodes that correspond are rewritten to nodes that correspond when constants are multiplied into
sums, within the same bound. -/
theorem distribute_parallel (levels : Nat) : ∀ {i j : NodeId} {l : Link R}, l.rel i j →
    Parallel l (distributeStep^[levels] pure i) (distributeStep^[levels] pure j) Link.rel := by
  -- What is distributed next may be newer than `i` and `j`; only the bound goes down.
  induction levels with
  | zero => exact fun hij => .pure hij
  | succ levels ih =>
    intro i j l hij
    have hk := l.kind_rel hij
    rw [Function.iterate_succ_apply', distributeStep, distributeStep]
    refine .remember hij (.store_bind ?_)
    have hoperands : ∀ {xs ys : List NodeId}, List.Forall₂ l.rel xs ys →
        Parallel l (xs.mapM (distributeStep^[levels] pure)) (ys.mapM (distributeStep^[levels] pure))
          fun l is js => List.Forall₂ l.rel is js :=
      fun h => .mapM_rel h fun l' a b hl hab => ih (hl a b hab)
    generalize l.left.kind i = k, l.right.kind j = k' at hk ⊢
    cases hk with
    | @arith op xs ys hxs =>
      cases op with
      | sum =>
        refine (hoperands hxs).bind fun l' is js _ his => ?_
        exact .lift (arithmetic_couples .sum (related_of_nodes his))
      | product =>
        refine (hoperands hxs).bind fun l₁ is js _ his => ?_
        refine (Parallel.lift (arithmetic_couples .product (related_of_nodes his))).bind
          fun l₂ p q _ hpq => ?_
        refine Parallel.store_bind ?_
        rcases scaledSum?_cases hpq with ⟨xs, ys, v, hp, hq, hterms⟩ | ⟨hp, hq⟩
        · rw [hp, hq]
          simp only
          refine (Parallel.mapM_rel hterms fun l₃ a b h₃ hab => ?_).bind fun l₄ is js _ his => ?_
          · refine (Parallel.lift (arithmetic_couples .product
              (.cons (.node (h₃ a b hab)) (.cons .value .nil)))).bind fun l₄ c d _ hcd => ih hcd
          · exact .lift (arithmetic_couples .sum (related_of_nodes his))
        · rw [hp, hq]
          exact .pure hpq
      | min | max => exact .pure hij
    | _ => exact .pure hij

end Transform

namespace Build

variable {rounding : Rounding R} {l : Link R} {i j : NodeId}

/-- Nothing is remembered at first. -/
theorem run'_couples {x y : Transform R NodeId} (h : Transform.Parallel l x y Link.rel) :
    Couples l (x.run' {}) (y.run' {}) Link.rel := by
  rw [StateT.run'_eq, StateT.run'_eq, map_eq_pure_bind, map_eq_pure_bind]
  exact (h {} {} (.empty l)).bind fun _ _ _ _ hp => .pure hp.1

theorem resolveCases_couples (setting : SignalId → Option Bool) (h : l.rel i j) :
    Couples l (resolveCases setting i) (resolveCases setting j) Link.rel :=
  run'_couples (Transform.resolve_parallel setting i h)

/-- Both sides are given the same bound, which is enough for both. -/
theorem distributeProducts_couples (hl : l.left.WellTyped rounding) (hr : l.right.WellTyped rounding)
    (h : l.rel i j) : Couples l (distributeProducts i) (distributeProducts j) Link.rel := by
  have hcouples := run'_couples (Transform.distribute_parallel (max i j + 1) h)
  unfold Couples at hcouples ⊢
  rwa [outcome_distributeProducts hl (l.left_lt h) (Nat.lt_succ_of_le (le_max_left i j)),
    outcome_distributeProducts hr (l.right_lt h) (Nat.lt_succ_of_le (le_max_right i j))] at hcouples

end Build

/-! ## Systems -/

namespace Solving

variable {rounding : Rounding R} {l : Link R} {α β : Type}

/-- Both stores are typed. -/
def Typed (rounding : Rounding R) (l : Link R) : Prop :=
  l.left.WellTyped rounding ∧ l.right.WellTyped rounding

/-- Computations that keep stores typed are coupled in typed stores. -/
theorem typed_couples {ε : Type} {x : ExceptT ε (StateM (Store R)) α}
    {y : ExceptT ε (StateM (Store R)) β} {P : Link R → α → β → Prop}
    {E E' : ε → Prop} {Q : α → Store R → Prop} {Q' : β → Store R → Prop} (hl : Typed rounding l)
    (h : Couples l x y P) (hx : Ensures (Store.Grown rounding) x l.left E Q)
    (hy : Ensures (Store.Grown rounding) y l.right E' Q') :
    Couples l x y fun l a b => Typed rounding l ∧ P l a b := by
  obtain ⟨l', hrel, ⟨a, b, ha, hb, hP⟩ | herror⟩ := h
  · refine ⟨l', hrel, .inl ⟨a, b, ha, hb, ⟨?_, ?_⟩, hP⟩⟩
    · exact (hx.elim_ok ha).1.wellTyped hl.1
    · exact (hy.elim_ok hb).1.wellTyped hl.2
  · exact ⟨l', hrel, .inr herror⟩

theorem build_couples {x : Build R α} {y : Build R β} {P : Link R → α → β → Prop}
    (h : Couples l x y P) : Couples l (build x) (build y) P := by
  have hrun : ∀ {γ : Type} (z : Build R γ) (s : Store R), outcome (build z) s =
      ((outcome z s).1.mapError .construction, (outcome z s).2) := fun _ _ => rfl
  obtain ⟨l', hrel, ⟨a, b, ha, hb, hP⟩ | ⟨e, ha, hb⟩⟩ := h
  · exact ⟨l', hrel, .inl ⟨a, b, by rw [hrun, ha]; rfl, by rw [hrun, hb]; rfl, hP⟩⟩
  · exact ⟨l', hrel, .inr ⟨.construction e, by rw [hrun, ha]; rfl, by rw [hrun, hb]; rfl⟩⟩

theorem makes_couples {x y : Build R NodeId} (hl : Typed rounding l) (h : Couples l x y Link.rel)
    (hx : Build.Makes rounding l.left x) (hy : Build.Makes rounding l.right y) :
    Couples l (build x) (build y) fun l i j => Typed rounding l ∧ l.rel i j :=
  build_couples (typed_couples hl h hx hy)

/-- The sides of the equations correspond. -/
def Matched (r : NodeId → NodeId → Prop) (e e' : Equation) : Prop := r e.lhs e'.lhs ∧ r e.rhs e'.rhs

theorem formOf_couples (hl : Typed rounding l) (setting : SignalId → Option Bool) {e e' : Equation}
    (h : Matched l.rel e e') :
    Couples l (formOf (R := R) setting e) (formOf setting e') fun l f f' =>
      Typed rounding l ∧ f = f' := by
  unfold formOf
  refine (makes_couples hl (Build.resolveCases_couples setting h.1)
    (Build.resolveCases_makes hl.1 setting (l.left_lt h.1))
    (Build.resolveCases_makes hl.2 setting (l.right_lt h.1))).bind fun l₁ a a' h₁ ha => ?_
  have hrhs := h₁ _ _ h.2
  refine (makes_couples ha.1 (Build.resolveCases_couples setting hrhs)
    (Build.resolveCases_makes ha.1.1 setting (l₁.left_lt hrhs))
    (Build.resolveCases_makes ha.1.2 setting (l₁.right_lt hrhs))).bind fun l₂ b b' h₂ hb => ?_
  have haa' := h₂ _ _ ha.2
  refine (makes_couples hb.1 (Build.sub_couples (.node haa') (.node hb.2))
    (Build.sub_makes hb.1.1 (l₂.left_lt haa') (l₂.left_lt hb.2))
    (Build.sub_makes hb.1.2 (l₂.right_lt haa') (l₂.right_lt hb.2))).bind fun l₃ c c' h₃ hc => ?_
  refine (makes_couples hc.1 (Build.distributeProducts_couples hc.1.1 hc.1.2 hc.2)
    (Build.distributeProducts_makes hc.1.1 (l₃.left_lt hc.2))
    (Build.distributeProducts_makes hc.1.2 (l₃.right_lt hc.2))).bind fun l₄ d d' h₄ hd => ?_
  refine Couples.get_bind ?_
  simp only
  rw [l₄.text_eq (h₄ _ _ (h₃ _ _ haa')), l₄.text_eq (h₄ _ _ (h₃ _ _ hb.2)),
    LinearForm.ofNode?_eq hd.2]
  split
  · exact .throw _
  · split
    · exact .throw_bind _
    · exact .pure ⟨hd.1, rfl⟩

theorem internal?_eq (l : Link R) (roles : SystemRoles) :
    internal? l.left roles = internal? l.right roles := by
  funext v
  cases v <;> simp only [internal?, l.signal_eq]

theorem mode_couples (hl : Typed rounding l) (solve : Solver R) {equations' : List Equation}
    (h : List.Forall₂ (Matched l.rel) equations equations') (roles : SystemRoles)
    (setting : SignalId → Option Bool) :
    Couples l (mode solve equations roles setting) (mode solve equations' roles setting)
      fun l system system' => Typed rounding l ∧ system = system' := by
  unfold mode
  refine (Couples.mapM (P := fun _ f f' => f = f') (I := Typed rounding) (fun _ _ _ _ _ h => h) h hl
    fun l' e e' hl' ht he => ?_).bind fun l' forms forms' _ hforms => ?_
  · exact formOf_couples ht setting ⟨hl' _ _ he.1, hl' _ _ he.2⟩
  · obtain ⟨ht, hforms⟩ := hforms
    obtain rfl : forms = forms' := by simpa using hforms
    refine Couples.get_bind ?_
    simp only [unknowns, internal?_eq l']
    split
    · exact .pure ⟨ht, rfl⟩
    · exact .throw _

theorem systemWith_couples (hl : Typed rounding l) (solve : Solver R) {equations' : List Equation}
    (h : List.Forall₂ (Matched l.rel) equations equations') (roles : SystemRoles) :
    Couples l (systemWith solve equations roles) (systemWith solve equations' roles)
      fun _ system system' => system = system' := by
  unfold systemWith
  simp only
  split
  · exact .throw_bind _
  · have hmodes : List.Forall₂ Eq (List.range (Nat.pow 2 roles.selectors.length))
        (List.range (Nat.pow 2 roles.selectors.length)) := List.forall₂_same.2 fun _ _ => rfl
    refine (Couples.mapM (P := fun _ a b => a = b) (I := Typed rounding) (fun _ _ _ _ _ h => h)
      hmodes hl fun l' m m' hl' ht hm => ?_).bind fun l' modes modes' _ hmodes => ?_
    · subst hm
      exact mode_couples ht solve (h.imp fun e e' he => ⟨hl' _ _ he.1, hl' _ _ he.2⟩) roles _
    · obtain ⟨-, hmodes⟩ := hmodes
      obtain rfl : modes = modes' := by simpa using hmodes
      exact .pure rfl

/-- Equations that correspond have the same solution. -/
theorem systemWith_eq_of_matches (solve : Solver R) {s t : Store R} (hs : s.WellTyped rounding)
    (ht : t.WellTyped rounding) {r : NodeId → NodeId → Prop} (hr : s.Matches r t)
    {equations' : List Equation} (h : List.Forall₂ (Matched r) equations equations')
    (roles : SystemRoles) :
    (outcome (systemWith solve equations' roles) t).1 =
      (outcome (systemWith solve equations roles) s).1 := by
  obtain ⟨_, -, ⟨system, _, hleft, hright, rfl⟩ | ⟨e, hleft, hright⟩⟩ :=
    systemWith_couples (l := hr.link hs ht) ⟨hs, ht⟩ solve h roles
  · exact (congrArg Prod.fst hright).trans (congrArg Prod.fst hleft).symm
  · exact (congrArg Prod.fst hright).trans (congrArg Prod.fst hleft).symm

/-- A store that has grown still holds the equations. -/
theorem systemWith_eq_of_grown (solve : Solver R) {s t : Store R} (hs : s.WellTyped rounding)
    (hgrown : s.Grown rounding t) (hk : Known s equations) (roles : SystemRoles) :
    (outcome (systemWith solve equations roles) t).1 =
      (outcome (systemWith solve equations roles) s).1 :=
  systemWith_eq_of_matches solve hs (hgrown.wellTyped hs) (hgrown.matches hs)
    (List.forall₂_same.2 fun e he => ⟨⟨rfl, (hk e he).1⟩, rfl, (hk e he).2⟩) roles

/-- Solving equations is reproducible. Solving them again, in the store that solving them has left,
gives the same system or the same error, of which the text is a part. The result depends only on the
signals and on the expressions of the equations: it is the same for equations of another store, if the
nodes that they reach match one to one, whatever else either store contains.

The operations on scalars obey no law here. So results are also equal over scalars that record how they
were computed: every entry comes from the same operations in the same order. -/
theorem systemWith_reproducible (solve : Solver R) {s : Store R} (hs : s.Built fun _ _ => True)
    {equations : List Equation} (hk : Known s equations) (roles : SystemRoles) :
    (outcome (systemWith solve equations roles)
        (outcome (systemWith solve equations roles) s).2).1 =
      (outcome (systemWith solve equations roles) s).1 ∧
    ∀ (t : Store R) (r : NodeId → NodeId → Prop) (equations' : List Equation),
      (t.Built fun _ _ => True) → s.Matches r t → List.Forall₂ (Matched r) equations equations' →
      (outcome (systemWith solve equations' roles) t).1 =
        (outcome (systemWith solve equations roles) s).1 := by
  constructor
  · exact systemWith_eq_of_grown solve hs.wellTyped_any
      (systemWith_ensures hs.wellTyped_any solve hk roles).1 hk roles
  · intro t r equations' ht hr h
    exact systemWith_eq_of_matches solve hs.wellTyped_any ht.wellTyped_any hr h roles

/-- The filter beside a product of two variables, which no system could be solved for. -/
def busyStore : Store ℚ :=
  (outcome (Call.arithmetic .product [.signal 1, .signal 2]).run filterStore).2

/-- The filter is solved three times: once, again in the store that the first run has left, and beside
the product. -/
theorem systemWith_reproducible_filter :
    (filterStore.Built fun _ _ => True) ∧ Known filterStore filterEquations ∧
    (busyStore.Built fun _ _ => True) ∧
    (outcome (systemWith DenseMatrix.solve? filterEquations filterRoles) filterStore).1 =
      .ok ⟨[filterMode 1, filterMode 4]⟩ ∧
    (outcome (systemWith DenseMatrix.solve? filterEquations filterRoles)
      (outcome (systemWith DenseMatrix.solve? filterEquations filterRoles) filterStore).2).1 =
      .ok ⟨[filterMode 1, filterMode 4]⟩ ∧
    (outcome (systemWith DenseMatrix.solve? filterEquations filterRoles) busyStore).1 =
      .ok ⟨[filterMode 1, filterMode 4]⟩ := by
  have hvalid : ∀ o ∈ [Operand.signal 1, .signal 2], o.Valid filterStore := by
    decide +kernel
  have hbusy : busyStore.Built fun _ _ => True :=
    filterStore_built.call (.arithmetic .product [.signal 1, .signal 2]) hvalid trivial
  have htyped := filterStore_built.wellTyped_any
  have hgrown : filterStore.Grown Rounding.any busyStore :=
    (Build.arithmetic_makes htyped .product hvalid).discard.1
  have hresult := congrArg Prod.fst outcome_filter
  obtain ⟨hagain, helsewhere⟩ := systemWith_reproducible DenseMatrix.solve? filterStore_built
    filterEquations_known filterRoles
  refine ⟨filterStore_built, filterEquations_known, hbusy, hresult, hagain.trans hresult,
    (helsewhere busyStore _ filterEquations hbusy (hgrown.matches htyped) ?_).trans hresult⟩
  exact List.forall₂_same.2 fun e he =>
    ⟨⟨rfl, (filterEquations_known e he).1⟩, rfl, (filterEquations_known e he).2⟩

end Solving

end MixedSignal
