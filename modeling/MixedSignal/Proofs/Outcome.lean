import Mathlib.Order.Defs.Unbundled
import Mathlib.Data.List.Forall2

/-!
# Outcomes of computations that may fail

Constructions, edits and simulations change a state and may fail, and what was changed before a
failure stays. `outcome` is the result of such a computation together with the state it leaves.

`Ensures G x s E P` says what a computation `x` does from the state `s`: the state moves along the
relation `G` whether `x` succeeds or fails, a result satisfies `P` in the new state, and an error
satisfies `E`. With `E` false everywhere the computation succeeds. The relation is reflexive and
transitive, so a sequence of steps moves along it as well (`Ensures.bind`, `Ensures.mapM`).
-/

set_option linter.unusedSectionVars false

namespace MixedSignal

variable {ε σ α β γ : Type} {e : ε} {f : α → ExceptT ε (StateM σ) β} {s' : σ} {a : α}

/-! ## Lists side by side -/

section

variable {r : α → β → Prop} {xs : List α} {ys : List β} (h : List.Forall₂ r xs ys)
include h

theorem forall₂_exists_left : ∀ y ∈ ys, ∃ x ∈ xs, r x y := by
  induction h with
  | nil => simp
  | cons hx _ ih =>
    intro y hy
    rcases List.mem_cons.1 hy with rfl | hy
    · exact ⟨_, List.mem_cons_self, hx⟩
    · obtain ⟨x, hx, hxy⟩ := ih y hy
      exact ⟨x, List.mem_cons_of_mem _ hx, hxy⟩

theorem forall₂_exists_right : ∀ x ∈ xs, ∃ y ∈ ys, r x y :=
  forall₂_exists_left h.flip

theorem forall₂_getElem?_left {n : Nat} {y : β} (hy : ys[n]? = some y) :
    ∃ x, xs[n]? = some x ∧ r x y := by
  induction h generalizing n with
  | nil => simp at hy
  | @cons x b xs ys hx _ ih =>
    cases n with
    | zero =>
      obtain rfl : b = y := by simpa using hy
      exact ⟨x, rfl, hx⟩
    | succ n => exact ih hy

end

theorem forall₂_trans {r : α → β → Prop} {q : β → γ → Prop} {p : α → γ → Prop}
    (h : ∀ a b c, r a b → q b c → p a c) {xs : List α} {ys : List β} {zs : List γ}
    (hxy : List.Forall₂ r xs ys) (hyz : List.Forall₂ q ys zs) : List.Forall₂ p xs zs := by
  induction hxy generalizing zs with
  | nil =>
    cases hyz
    exact .nil
  | cons hx _ ih =>
    cases hyz with
    | cons hy hyz => exact .cons (h _ _ _ hx hy) (ih hyz)

/-! ## Running -/

/-- The result of a computation and the state it leaves, also when it fails. -/
def outcome (x : ExceptT ε (StateM σ) α) (s : σ) : Except ε α × σ := (x.run.run s).run

@[simp] theorem outcome_pure (a : α) (s : σ) :
    outcome (pure a : ExceptT ε (StateM σ) α) s = (.ok a, s) :=
  rfl

@[simp] theorem outcome_throw (e : ε) (s : σ) :
    outcome (throw e : ExceptT ε (StateM σ) α) s = (.error e, s) :=
  rfl

@[simp] theorem outcome_get (s : σ) : outcome (get : ExceptT ε (StateM σ) σ) s = (.ok s, s) :=
  rfl

@[simp] theorem outcome_set (s' s : σ) :
    outcome (set s' : ExceptT ε (StateM σ) PUnit) s = (.ok ⟨⟩, s') :=
  rfl

@[simp] theorem outcome_modify (f : σ → σ) (s : σ) :
    outcome (modify f : ExceptT ε (StateM σ) PUnit) s = (.ok ⟨⟩, f s) :=
  rfl

@[simp] theorem outcome_modifyGet (f : σ → α × σ) (s : σ) :
    outcome (modifyGet f : ExceptT ε (StateM σ) α) s = (.ok (f s).1, (f s).2) :=
  rfl

@[simp] theorem outcome_get_bind (f : σ → ExceptT ε (StateM σ) α) (s : σ) :
    outcome (get >>= f) s = outcome (f s) s :=
  rfl

theorem outcome_bind (x : ExceptT ε (StateM σ) α) (f : α → ExceptT ε (StateM σ) β) (s : σ) :
    outcome (x >>= f) s = match outcome x s with
      | (.ok a, s') => outcome (f a) s'
      | (.error e, s') => (.error e, s') := by
  change _ = match (x.run.run s).run with
    | (.ok a, s') => outcome (f a) s'
    | (.error e, s') => (.error e, s')
  simp only [outcome, ExceptT.run_bind, StateT.run_bind, Id.run_bind]
  cases (x.run.run s).run with
  | mk r s' => cases r <;> rfl

theorem outcome_bind_ok {x : ExceptT ε (StateM σ) α} {s : σ} (h : outcome x s = (.ok a, s')) :
    outcome (x >>= f) s = outcome (f a) s' := by
  rw [outcome_bind, h]

theorem outcome_bind_error {x : ExceptT ε (StateM σ) α} {s : σ} (h : outcome x s = (.error e, s')) :
    outcome (x >>= f) s = (.error e, s') := by
  rw [outcome_bind, h]

theorem outcome_discard_snd (x : ExceptT ε (StateM σ) α) (s : σ) :
    (outcome (discard x) s).2 = (outcome x s).2 := by
  change (outcome (x >>= fun _ => pure ()) s).2 = _
  rw [outcome_bind]
  cases outcome x s with
  | mk r t => cases r <;> rfl

theorem eq_ok_of_toOption {x : Except ε α} (h : x.toOption = some a) : x = .ok a := by
  cases x with
  | error e => cases h
  | ok b =>
    cases h
    rfl

theorem outcome_eq_of_toOption {x : ExceptT ε (StateM σ) α} {s : σ}
    (h : (outcome x s).1.toOption = some a) : outcome x s = (.ok a, (outcome x s).2) :=
  Prod.ext (eq_ok_of_toOption h) rfl

theorem exists_of_isOk {x : ExceptT ε (StateM σ) α} {s : σ} (h : (outcome x s).1.isOk = true) :
    ∃ a, outcome x s = (.ok a, (outcome x s).2) := by
  cases hx : outcome x s with
  | mk r s' =>
    rw [hx] at h
    cases r with
    | ok a => exact ⟨a, rfl⟩
    | error e => cases h

theorem exists_of_isOk_eq_false {x : ExceptT ε (StateM σ) α} {s : σ}
    (h : (outcome x s).1.isOk = false) : ∃ e, outcome x s = (.error e, (outcome x s).2) := by
  cases hx : outcome x s with
  | mk r s' =>
    rw [hx] at h
    cases r with
    | ok a => cases h
    | error e => exact ⟨e, rfl⟩

/-- A sequence succeeds through a result of its first part. -/
theorem outcome_bind_eq_ok {x : ExceptT ε (StateM σ) α} {s t : σ} {b : β}
    (h : outcome (x >>= f) s = (.ok b, t)) :
    ∃ a s', outcome x s = (.ok a, s') ∧ outcome (f a) s' = (.ok b, t) := by
  rw [outcome_bind] at h
  cases hx : outcome x s with
  | mk r s' =>
    rw [hx] at h
    cases r with
    | ok a => exact ⟨a, s', rfl, h⟩
    | error e => simp at h

/-- A sequence fails in its first part or after a result of it. -/
theorem outcome_bind_eq_error {x : ExceptT ε (StateM σ) α} {s t : σ}
    (h : outcome (x >>= f) s = (.error e, t)) :
    outcome x s = (.error e, t) ∨
      ∃ a s', outcome x s = (.ok a, s') ∧ outcome (f a) s' = (.error e, t) := by
  rw [outcome_bind] at h
  cases hx : outcome x s with
  | mk r s' =>
    rw [hx] at h
    cases r with
    | ok a => exact .inr ⟨a, s', rfl, h⟩
    | error e' =>
      cases h
      exact .inl rfl

/-- A loop over a list fails at one of its elements, after it has succeeded for those before. -/
theorem outcome_forM_eq_error {f : γ → ExceptT ε (StateM σ) PUnit} {xs : List γ} {s t : σ}
    (h : outcome (xs.forM f) s = (.error e, t)) :
    ∃ before c after s', xs = before ++ c :: after ∧
      outcome (before.forM f) s = (.ok ⟨⟩, s') ∧ outcome (f c) s' = (.error e, t) := by
  induction xs generalizing s with
  | nil => cases h
  | cons c xs ih =>
    rcases outcome_bind_eq_error h with hc | ⟨_, u, hc, hxs⟩
    · exact ⟨[], c, xs, s, rfl, rfl, hc⟩
    · obtain ⟨before, d, after, s', rfl, hbefore, hd⟩ := ih hxs
      exact ⟨c :: before, d, after, s', rfl, (outcome_bind_ok hc).trans hbefore, hd⟩

/-- A loop whose computations succeed and keep the state. -/
theorem outcome_forIn_kept {f : γ → ExceptT ε (StateM σ) PUnit} {s : σ} :
    ∀ xs : List γ, (∀ c ∈ xs, outcome (f c) s = (.ok ⟨⟩, s)) →
      outcome (ForIn.forIn xs PUnit.unit fun c _ => do
        f c
        pure (ForInStep.yield PUnit.unit)) s = (.ok ⟨⟩, s)
  | [], _ => by
    rw [List.forIn_nil]
    rfl
  | c :: xs, h => by
    have hfirst : outcome (do f c; pure (ForInStep.yield PUnit.unit)) s =
        (.ok (.yield PUnit.unit), s) := outcome_bind_ok (h c (by simp))
    rw [List.forIn_cons, outcome_bind_ok hfirst]
    exact outcome_forIn_kept xs fun d hd => h d (by simp [hd])

/-! ## What a computation ensures -/

/-- From `s` the state moves along `G`, a result satisfies `P`, and an error satisfies `E`. -/
def Ensures (G : σ → σ → Prop) (x : ExceptT ε (StateM σ) α) (s : σ) (E : ε → Prop)
    (P : α → σ → Prop) : Prop :=
  G s (outcome x s).2 ∧
    match (outcome x s).1 with
    | .ok a => P a (outcome x s).2
    | .error e => E e

namespace Ensures

variable {G H : σ → σ → Prop} {x : ExceptT ε (StateM σ) α} {s : σ} {E E' : ε → Prop}
  {P Q : α → σ → Prop}

/-- The state moves along the relation, whatever the result. -/
theorem moved (h : Ensures G x s E P) : G s (outcome x s).2 := h.1

theorem of_ok (hx : outcome x s = (.ok a, s')) (hG : G s s') (hP : P a s') : Ensures G x s E P := by
  unfold Ensures
  rw [hx]
  exact ⟨hG, hP⟩

theorem of_error (hx : outcome x s = (.error e, s')) (hG : G s s') (hE : E e) :
    Ensures G x s E P := by
  unfold Ensures
  rw [hx]
  exact ⟨hG, hE⟩

/-- Nothing is known but how the state moves. -/
theorem of_moved (h : G s (outcome x s).2) : Ensures G x s (fun _ => True) fun _ _ => True := by
  cases hx : outcome x s with
  | mk r s' =>
    rw [hx] at h
    cases r with
    | ok a => exact of_ok hx h trivial
    | error e => exact of_error hx h trivial

theorem elim_ok (h : Ensures G x s E P) (hx : outcome x s = (.ok a, s')) : G s s' ∧ P a s' := by
  unfold Ensures at h
  rw [hx] at h
  exact h

theorem elim_error (h : Ensures G x s E P) (hx : outcome x s = (.error e, s')) : G s s' ∧ E e := by
  unfold Ensures at h
  rw [hx] at h
  exact h

/-- A computation whose errors are ruled out succeeds. -/
theorem succeeds (h : Ensures G x s (fun _ => False) P) :
    ∃ a s', outcome x s = (.ok a, s') ∧ G s s' ∧ P a s' := by
  cases hx : outcome x s with
  | mk r s' =>
    cases r with
    | ok a => exact ⟨a, s', rfl, h.elim_ok hx⟩
    | error e => exact ((h.elim_error hx).2).elim

theorem mono (h : Ensures G x s E P) (hG : ∀ s', G s s' → H s s') (hE : ∀ e, E e → E' e)
    (hP : ∀ a s', G s s' → P a s' → Q a s') : Ensures H x s E' Q := by
  cases hx : outcome x s with
  | mk r s' =>
    cases r with
    | ok a =>
      obtain ⟨h1, h2⟩ := h.elim_ok hx
      exact of_ok hx (hG _ h1) (hP _ _ h1 h2)
    | error e =>
      obtain ⟨h1, h2⟩ := h.elim_error hx
      exact of_error hx (hG _ h1) (hE _ h2)

/-- Only the result is weakened. -/
theorem imp (h : Ensures G x s E P) (hP : ∀ a s', G s s' → P a s' → Q a s') : Ensures G x s E Q :=
  h.mono (fun _ => id) (fun _ => id) hP

/-- What is ensured twice is ensured together. -/
theorem and (h : Ensures G x s E P) (h' : Ensures H x s E' Q) :
    Ensures G x s E fun a s' => P a s' ∧ Q a s' := by
  cases hx : outcome x s with
  | mk r s' =>
    cases r with
    | ok a => exact of_ok hx (h.elim_ok hx).1 ⟨(h.elim_ok hx).2, (h'.elim_ok hx).2⟩
    | error e => exact of_error hx (h.elim_error hx).1 (h.elim_error hx).2

/-- A choice between two computations may as well be made after both are continued. -/
theorem of_ite_bind {b : Bool} {y : ExceptT ε (StateM σ) α} {Q : β → σ → Prop}
    (h : Ensures G ((if b then x else y) >>= f) s E Q) :
    Ensures G (if b then x >>= f else y >>= f) s E Q := by
  cases b <;> exact h

variable [Std.Refl G] [IsTrans σ G]

/-- A computation that keeps the state. -/
theorem of_kept (h : Ensures Eq x s E P) : Ensures G x s E fun a s' => s' = s ∧ P a s := by
  refine h.mono ?_ (fun _ => id) ?_
  · rintro _ rfl
    exact refl_of G s
  · rintro a _ rfl ha
    exact ⟨rfl, ha⟩

theorem pure (h : P a s) : Ensures G (Pure.pure a : ExceptT ε (StateM σ) α) s E P :=
  of_ok rfl (refl_of G s) h

theorem throw (h : E e) : Ensures G (MonadExcept.throw e : ExceptT ε (StateM σ) α) s E P :=
  of_error rfl (refl_of G s) h

theorem throw_bind {f : β → ExceptT ε (StateM σ) α} (h : E e) :
    Ensures G (MonadExcept.throw e >>= f) s E P :=
  of_error rfl (refl_of G s) h

theorem get_bind {f : σ → ExceptT ε (StateM σ) α} (h : Ensures G (f s) s E P) :
    Ensures G (get >>= f) s E P :=
  h

theorem bind {Q : β → σ → Prop} (hx : Ensures G x s E P)
    (hf : ∀ a s', G s s' → P a s' → Ensures G (f a) s' E Q) : Ensures G (x >>= f) s E Q := by
  cases hr : outcome x s with
  | mk r s' =>
    cases r with
    | ok a =>
      obtain ⟨hG, hP⟩ := hx.elim_ok hr
      have h := hf a s' hG hP
      unfold Ensures at h ⊢
      rw [outcome_bind_ok hr]
      exact ⟨trans_of G hG h.1, h.2⟩
    | error e =>
      obtain ⟨hG, hE⟩ := hx.elim_error hr
      exact of_error (outcome_bind_error hr) hG hE

theorem map {f : α → β} {Q : β → σ → Prop} (hx : Ensures G x s E P)
    (hf : ∀ a s', G s s' → P a s' → Q (f a) s') : Ensures G (f <$> x) s E Q := by
  rw [map_eq_pure_bind]
  exact hx.bind fun a s' hG hP => pure (hf a s' hG hP)

/-- A computation for each element of a list. What is known of a result lasts while the state moves
on, so it is known of all results in the end. -/
theorem mapM {f : γ → ExceptT ε (StateM σ) β} {Q : γ → β → σ → Prop}
    (hQ : ∀ c b s s', G s s' → Q c b s → Q c b s') :
    ∀ (xs : List γ) (s : σ), (∀ c ∈ xs, ∀ s', G s s' → Ensures G (f c) s' E (Q c)) →
      Ensures G (xs.mapM f) s E fun bs s' => List.Forall₂ (fun c b => Q c b s') xs bs
  | [], s, _ => by
    rw [List.mapM_nil]
    exact pure .nil
  | c :: xs, s, h => by
    rw [List.mapM_cons]
    refine (h c (by simp) s (refl_of G s)).bind fun b s' hG hb => ?_
    refine (mapM hQ xs s' fun d hd t ht => h d (by simp [hd]) t (trans_of G hG ht)).bind
      fun bs t ht hbs => ?_
    exact pure (.cons (hQ _ _ _ _ ht hb) hbs)

/-- Each result of a list of computations is that of a run from a state on the way. -/
theorem forall₂_of_outcome_mapM {f : γ → ExceptT ε (StateM σ) β} :
    ∀ {xs : List γ} {s t : σ} {bs : List β},
      (∀ c ∈ xs, ∀ s', G s s' → G s' (outcome (f c) s').2) →
      outcome (xs.mapM f) s = (.ok bs, t) →
      List.Forall₂ (fun c b => ∃ u u', G s u ∧ outcome (f c) u = (.ok b, u')) xs bs
  | [], s, t, bs, _, h => by
    cases h
    exact .nil
  | c :: xs, s, t, bs, hf, h => by
    rw [List.mapM_cons] at h
    obtain ⟨b, u, hb, h⟩ := outcome_bind_eq_ok h
    obtain ⟨bs', u', hbs, h⟩ := outcome_bind_eq_ok h
    cases h
    have hu : G s u := by
      have := hf c (by simp) s (refl_of G s)
      rwa [hb] at this
    refine .cons ⟨s, u, refl_of G s, hb⟩ ?_
    refine (forall₂_of_outcome_mapM (fun d hd s' hs' => ?_) hbs).imp ?_
    · exact hf d (by simp [hd]) s' (trans_of G hu hs')
    · rintro d e ⟨w, w', hw, he⟩
      exact ⟨w, w', trans_of G hu hw, he⟩

/-- A computation for each element of a list, the last one apart. -/
theorem forM_concat {f : γ → ExceptT ε (StateM σ) PUnit} {xs : List γ} {c : γ}
    {P Q : PUnit → σ → Prop} (h : Ensures G (xs.forM f) s E P)
    (hf : ∀ s', G s s' → P ⟨⟩ s' → Ensures G (f c) s' E Q) :
    Ensures G ((xs ++ [c]).forM f) s E Q := by
  have heq : (xs ++ [c]).forM f = (do xs.forM f; f c) := by
    rw [List.forM_eq_forM, List.forM_append]
    simp
  rw [heq]
  exact h.bind fun _ s' hG hP => hf s' hG hP

/-- A computation for each element of a list, of which only the moves are known. -/
theorem forM {f : γ → ExceptT ε (StateM σ) PUnit} :
    ∀ (xs : List γ) (s : σ),
      (∀ c ∈ xs, ∀ s', G s s' → Ensures G (f c) s' E fun _ _ => True) →
      Ensures G (xs.forM f) s E fun _ _ => True
  | [], s, _ => pure trivial
  | c :: xs, s, h => by
    refine (h c (by simp) s (refl_of G s)).bind fun _ s' hG _ => ?_
    exact forM xs s' fun d hd t ht => h d (by simp [hd]) t (trans_of G hG ht)

/-- A loop without state of its own. -/
theorem forIn {f : γ → PUnit → ExceptT ε (StateM σ) (ForInStep PUnit)} {Q : γ → σ → Prop}
    (hQ : ∀ c s s', G s s' → Q c s → Q c s') :
    ∀ (xs : List γ) (s : σ),
      (∀ c ∈ xs, ∀ s', G s s' → Ensures G (f c ⟨⟩) s' E fun r t => r = .yield ⟨⟩ ∧ Q c t) →
      Ensures G (ForIn.forIn xs ⟨⟩ f) s E fun _ s' => ∀ c ∈ xs, Q c s'
  | [], s, _ => by
    rw [List.forIn_nil]
    exact pure (by simp)
  | c :: xs, s, h => by
    rw [List.forIn_cons]
    refine (h c (by simp) s (refl_of G s)).bind fun r s' hG hr => ?_
    obtain ⟨rfl, hc⟩ := hr
    refine (forIn hQ xs s' fun d hd t ht => h d (by simp [hd]) t (trans_of G hG ht)).imp
      fun _ t ht hxs d hd => ?_
    rcases List.mem_cons.1 hd with rfl | hd
    · exact hQ _ _ _ ht hc
    · exact hxs d hd

end Ensures

end MixedSignal
