import Mathlib.Data.List.Forall2
import Mathlib.Tactic.Linarith
import MixedSignal.Expr.Eval
import MixedSignal.Proofs.Traversal

/-!
# What the value of an expression depends on

A node's value depends on the nodes below it and on the signals among them. So the value stays when
the store grows (`Store.Extends.eval_eq`) and when signals change that the expression does not read
(`Store.eval_congr`). Remembering the values of nodes does not change them
(`Store.evalShared_agrees`).
-/

set_option linter.unusedSectionVars false

namespace MixedSignal

/-! ## Lists of operands -/

theorem mapM_congr {m : Type → Type} [Monad m] [LawfulMonad m] {α β : Type} {f g : α → m β} :
    ∀ {xs : List α}, (∀ x ∈ xs, f x = g x) → xs.mapM f = xs.mapM g
  | [], _ => rfl
  | x :: xs, h => by
    rw [List.mapM_cons, List.mapM_cons, h x (by simp), mapM_congr fun y hy => h y (by simp [hy])]

/-- A computation for each element that succeeds does so for each. -/
theorem forall₂_of_mapM_eq_ok {ε α β : Type} {f : α → Except ε β} :
    ∀ {xs : List α} {ys : List β}, xs.mapM f = .ok ys → List.Forall₂ (fun x y => f x = .ok y) xs ys
  | [], ys, h => by
    cases h
    exact .nil
  | x :: xs, ys, h => by
    rw [List.mapM_cons] at h
    cases hx : f x with
    | error e =>
      rw [hx] at h
      cases h
    | ok y =>
      cases hxs : xs.mapM f with
      | error e =>
        rw [hx, hxs] at h
        cases h
      | ok zs =>
        rw [hx, hxs] at h
        cases h
        exact .cons hx (forall₂_of_mapM_eq_ok hxs)

/-- A computation for each element fails at one of them. -/
theorem exists_of_mapM_eq_error {ε α β : Type} {f : α → Except ε β} {e : ε} :
    ∀ {xs : List α}, xs.mapM f = .error e → ∃ x ∈ xs, f x = .error e
  | [], h => by cases h
  | x :: xs, h => by
    rw [List.mapM_cons] at h
    cases hx : f x with
    | error e =>
      rw [hx] at h
      cases h
      exact ⟨x, List.mem_cons_self, hx⟩
    | ok y =>
      cases hxs : xs.mapM f with
      | error e =>
        rw [hx, hxs] at h
        cases h
        obtain ⟨z, hz, hfz⟩ := exists_of_mapM_eq_error hxs
        exact ⟨z, List.mem_cons_of_mem x hz, hfz⟩
      | ok ys =>
        rw [hx, hxs] at h
        cases h

theorem foldlM_congr {m : Type → Type} [Monad m] [LawfulMonad m] {α β : Type}
    {f g : β → α → m β} : ∀ {xs : List α} {b : β}, (∀ x ∈ xs, ∀ b, f b x = g b x) →
      xs.foldlM f b = xs.foldlM g b
  | [], _, _ => rfl
  | x :: xs, b, h => by
    rw [List.foldlM_cons, List.foldlM_cons, h x (by simp)]
    congr 1
    funext c
    exact foldlM_congr fun y hy => h y (by simp [hy])

namespace Store

variable {R : Type} [Scalar R] {values : SignalId → Value R}

/-! ## One node -/

/-- The result of a node depends on what its operands evaluate to, on their widths, and for a signal
on the signal and its value. -/
theorem evalKind_congr {s s' : Store R} {values' : SignalId → Value R}
    {operand operand' : NodeId → Except EmitError (Value R)} {n : Node R}
    (hsignal : ∀ i, n.kind = .signal i → s.signal i = s'.signal i ∧ values i = values' i)
    (hwidth : ∀ j ∈ s.operands n.kind, s.width j = s'.width j)
    (hoperand : ∀ j ∈ s.operands n.kind, operand j = operand' j) :
    s.evalKind values operand n = s'.evalKind values' operand' n := by
  obtain ⟨kind, format⟩ := n
  cases kind with
  | signal i =>
    obtain ⟨h1, h2⟩ := hsignal i rfl
    simp only [evalKind, h1, h2]
  | const v => rfl
  | arith op xs =>
    have h : xs.mapM operand = xs.mapM operand' := mapM_congr hoperand
    simp only [evalKind, h]
  | compare op a b =>
    simp only [evalKind, hoperand a (by simp [operands]), hoperand b (by simp [operands])]
  | bitwise op xs =>
    have h : xs.mapM operand = xs.mapM operand' := mapM_congr hoperand
    simp only [evalKind, h]
  | bitNot a => simp only [evalKind, hoperand a (by simp [operands])]
  | shift direction a amount =>
    cases direction <;> simp only [evalKind, hoperand a (by simp [operands])]
  | slice a msb lsb =>
    simp only [evalKind, hoperand a (by simp [operands]), hwidth a (by simp [operands])]
  | concat xs =>
    simp only [evalKind]
    congr 1
    refine foldlM_congr fun x hx v => ?_
    rw [hoperand x hx, hwidth x hx]
  | convert conversion a => simp only [evalKind, hoperand a (by simp [operands])]
  | select elements address =>
    simp only [evalKind, hoperand address (by simp [operands])]
    congr 1
    funext k
    have h : ∀ e, (if k.toInt < 0 then none else elements[k.toInt.toNat]?) = some e →
        operand e = operand' e := by
      intro e he
      refine hoperand e ?_
      split at he
      · simp at he
      · simp [operands, List.mem_of_getElem? he]
    split
    · rename_i e he
      exact h e he
    · rfl
  | cases cases selectors => rfl
  | deriv i => rfl

section

variable {m m' : Type → Type} [Monad m] [LawfulMonad m] [MonadExcept EmitError m] [Monad m']
  [LawfulMonad m'] [MonadExcept EmitError m']

/-- A relation between two kinds of computations that respects how they are put together. -/
structure Parallel (rel : (α : Type) → m α → m' α → Prop) : Prop where
  pure {α : Type} (a : α) : rel α (Pure.pure a) (Pure.pure a)
  throw {α : Type} (e : EmitError) : rel α (MonadExcept.throw e) (MonadExcept.throw e)
  bind {α β : Type} {x : m α} {y : m' α} {f : α → m β} {g : α → m' β} (hx : rel α x y)
    (hf : ∀ a, rel β (f a) (g a)) : rel β (x >>= f) (y >>= g)

namespace Parallel

variable {rel : (α : Type) → m α → m' α → Prop} (hr : Parallel rel) {β γ : Type}
include hr

theorem mapM {f : γ → m β} {g : γ → m' β} (h : ∀ c, rel β (f c) (g c)) :
    ∀ xs : List γ, rel _ (xs.mapM f) (xs.mapM g)
  | [] => by
    rw [List.mapM_nil, List.mapM_nil]
    exact hr.pure []
  | c :: xs => by
    rw [List.mapM_cons, List.mapM_cons]
    exact hr.bind (h c) fun b => hr.bind (mapM h xs) fun bs => hr.pure (b :: bs)

theorem foldlM {f : β → γ → m β} {g : β → γ → m' β} (h : ∀ b c, rel β (f b c) (g b c)) :
    ∀ (xs : List γ) (b : β), rel _ (xs.foldlM f b) (xs.foldlM g b)
  | [], b => by
    rw [List.foldlM_nil, List.foldlM_nil]
    exact hr.pure b
  | c :: xs, b => by
    rw [List.foldlM_cons, List.foldlM_cons]
    exact hr.bind (h b c) fun b' => foldlM h xs b'

/-- If the operands are related, so are the results of a node. -/
theorem evalKind (s : Store R) (values : SignalId → Value R) {operand : NodeId → m (Value R)}
    {operand' : NodeId → m' (Value R)} (h : ∀ j, rel _ (operand j) (operand' j)) (n : Node R) :
    rel _ (s.evalKind values operand n) (s.evalKind values operand' n) := by
  obtain ⟨kind, format⟩ := n
  cases kind with
  | signal i =>
    simp only [Store.evalKind]
    split
    · exact hr.throw _
    · exact hr.pure _
  | const v => exact hr.pure v
  | arith op xs =>
    refine hr.bind (hr.mapM h xs) fun vs => ?_
    cases format <;> exact hr.pure _
  | compare op a b => exact hr.bind (h a) fun v => hr.bind (h b) fun w => hr.pure _
  | bitwise op xs =>
    refine hr.bind (hr.mapM h xs) fun vs => ?_
    split <;> exact hr.pure _
  | bitNot a => exact hr.bind (h a) fun v => hr.pure _
  | shift direction a amount => cases direction <;> exact hr.bind (h a) fun v => hr.pure _
  | slice a msb lsb => exact hr.bind (h a) fun v => hr.pure _
  | concat xs =>
    exact hr.bind (hr.foldlM (fun v x => hr.bind (h x) fun w => hr.pure _) xs 0) fun v => hr.pure _
  | convert conversion a =>
    refine hr.bind (h a) fun v => ?_
    cases conversion <;> exact hr.pure _
  | select elements address =>
    refine hr.bind (h address) fun k => ?_
    simp only
    split
    · exact h _
    · exact hr.pure _
  | cases cases selectors => exact hr.throw _
  | deriv i => exact hr.throw _

end Parallel

end

/-- The second computation has every result that the first one has. -/
def Succeeds (α : Type) (x y : Except EmitError α) : Prop := ∀ a, x = .ok a → y = .ok a

/-- A result of a node does not depend on operands that have none. -/
theorem succeeds_parallel : Parallel Succeeds where
  pure _ _ h := h
  throw _ _ h := h
  bind {α β x y f g} hx hf b hb := by
    cases x with
    | error e => cases hb
    | ok a =>
      rw [hx a rfl]
      exact hf a b hb

/-! ## Whole expressions -/

/-- The operands of a node are made before it, so evaluation meets them below it. -/
theorem eval_eq {s : Store R} {i : NodeId} (h : ∀ j ∈ s.children i, j < i)
    (values : SignalId → Value R) :
    s.eval values i =
      (s.evalKind values (s.eval values) (s.node i)).map fun v => v.coerce (s.format i) := by
  rw [eval]
  have hcongr : s.evalKind values (fun j => if _h : j < i then s.eval values j
      else throw (.unsupportedNode "")) (s.node i) = s.evalKind values (s.eval values) (s.node i) :=
    evalKind_congr (fun _ _ => ⟨rfl, rfl⟩) (fun _ _ => rfl) fun j hj => dif_pos (h j hj)
  rw [hcongr]
  cases s.evalKind values (s.eval values) (s.node i) <;> rfl

/-- Nothing that exists in the first store is changed in the second. -/
structure Extends (s s' : Store R) : Prop where
  size_le : s.nodes.size ≤ s'.nodes.size
  node_eq : ∀ i < s.nodes.size, s'.node i = s.node i
  signals_le : s.signals.size ≤ s'.signals.size
  signal_eq : ∀ i < s.signals.size, s'.signal i = s.signal i
  leaf_eq : ∀ i < s.signals.size, s'.leaf i = s.leaf i

namespace Extends

variable {s s' s'' : Store R}

theorem refl (s : Store R) : s.Extends s :=
  ⟨le_rfl, fun _ _ => rfl, le_rfl, fun _ _ => rfl, fun _ _ => rfl⟩

theorem trans (h : s.Extends s') (h' : s'.Extends s'') : s.Extends s'' where
  size_le := h.size_le.trans h'.size_le
  node_eq i hi := (h'.node_eq i (hi.trans_le h.size_le)).trans (h.node_eq i hi)
  signals_le := h.signals_le.trans h'.signals_le
  signal_eq i hi := (h'.signal_eq i (hi.trans_le h.signals_le)).trans (h.signal_eq i hi)
  leaf_eq i hi := (h'.leaf_eq i (hi.trans_le h.signals_le)).trans (h.leaf_eq i hi)

variable (h : s.Extends s') {i : NodeId}
include h

section

variable (hi : i < s.nodes.size)
include hi

theorem kind_eq : s'.kind i = s.kind i := by
  rw [kind, kind, h.node_eq i hi]

theorem format_eq : s'.format i = s.format i := by
  rw [format, format, h.node_eq i hi]

theorem const?_eq : s'.const? i = s.const? i := by
  rw [const?, const?, h.kind_eq hi]

theorem width_eq : s'.width i = s.width i := by
  rw [width, width, h.format_eq hi]

theorem children_eq (hselector : ∀ xs sel, s.kind i = .cases xs sel → ∀ x ∈ sel, x < s.signals.size) :
    s'.children i = s.children i := by
  simp only [children, h.kind_eq hi]
  unfold operands
  split <;> try rfl
  rename_i cases selectors hk
  congr 1
  exact List.map_congr_left fun x hx => h.leaf_eq x (hselector _ _ hk x hx)

end

/-- The value of an expression stays when the store grows. The operands of every node come before
it, and its signal exists. -/
theorem eval_eq (hbelow : ∀ i < s.nodes.size, ∀ j ∈ s.children i, j < i)
    (hsignal : ∀ i < s.nodes.size, ∀ x, s.kind i = .signal x → x < s.signals.size)
    (hselector : ∀ i < s.nodes.size, ∀ xs sel, s.kind i = .cases xs sel →
      ∀ x ∈ sel, x < s.signals.size)
    (values : SignalId → Value R) : ∀ i < s.nodes.size, s'.eval values i = s.eval values i := by
  intro i
  induction i using Nat.strong_induction_on with
  | _ i ih =>
    intro hi
    have hchildren := h.children_eq hi (hselector i hi)
    have hb := hbelow i hi
    rw [Store.eval_eq (hchildren ▸ hb), Store.eval_eq hb, h.node_eq i hi, h.format_eq hi]
    congr 1
    refine evalKind_congr (fun x hx => ⟨h.signal_eq x (hsignal i hi x hx), rfl⟩) ?_ ?_
    · intro j hj
      rw [← h.node_eq i hi] at hj
      have hj' : j ∈ s.children i := hchildren ▸ hj
      exact h.width_eq ((hb j hj').trans hi)
    · intro j hj
      rw [← h.node_eq i hi] at hj
      have hj' : j ∈ s.children i := hchildren ▸ hj
      exact ih j (hb j hj') ((hb j hj').trans hi)

end Extends

/-! ## The nodes of an expression -/

theorem mem_occurrences_self (s : Store R) (i : NodeId) : i ∈ s.occurrences i := by
  rw [occurrences]
  simp

/-- The nodes of an expression are those of its operands and the node itself. -/
theorem mem_occurrences_iff {s : Store R} {i k : NodeId} :
    k ∈ s.occurrences i ↔ k = i ∨ ∃ j ∈ s.children i, j < i ∧ k ∈ s.occurrences j := by
  rw [occurrences_eq]
  simp [and_assoc]

/-- The nodes of an operand are nodes of the expression. -/
theorem occurrences_subset {s : Store R} {i j : NodeId} (hj : j ∈ s.children i) (hlt : j < i) :
    s.occurrences j ⊆ s.occurrences i :=
  fun _ hk => mem_occurrences_iff.2 (.inr ⟨j, hj, hlt, hk⟩)

theorem le_of_mem_occurrences {s : Store R} {k : NodeId} :
    ∀ i, k ∈ s.occurrences i → k ≤ i := by
  intro i
  induction i using Nat.strong_induction_on with
  | _ i ih =>
    intro hk
    rcases mem_occurrences_iff.1 hk with rfl | ⟨j, -, hlt, hkj⟩
    · exact le_rfl
    · exact (ih j hlt hkj).trans hlt.le

/-- Evaluation reads no signals but those of the expression. -/
theorem eval_congr {s : Store R} {values' : SignalId → Value R} :
    ∀ i, (∀ x ∈ s.signalsIn i, values x = values' x) → s.eval values i = s.eval values' i := by
  intro i
  induction i using Nat.strong_induction_on with
  | _ i ih =>
    intro h
    rw [eval.eq_def s values i, eval.eq_def s values' i]
    congr 1
    refine evalKind_congr (fun x hx => ⟨rfl, h x ?_⟩) (fun _ _ => rfl) fun j hj => ?_
    · have hkind : s.kind i = .signal x := hx
      exact mem_signalsIn.2 ⟨i, s.mem_occurrences_self i, by rw [hkind]; rfl⟩
    · by_cases hlt : j < i
      · simp only [hlt, ↓reduceDIte]
        refine ih j hlt fun x hx => h x ?_
        obtain ⟨k, hk, hr⟩ := mem_signalsIn.1 hx
        exact mem_signalsIn.2 ⟨k, occurrences_subset hj hlt hk, hr⟩
      · simp only [hlt, ↓reduceDIte]

/-! ## Remembered values -/

/-- The remembered values are those of the nodes. -/
def Remembers (s : Store R) (values : SignalId → Value R) (memo : Memo R) : Prop :=
  ∀ i v, memo[i]? = some v → s.eval values i = .ok v

/-- An evaluation that remembers values gives the same result as one that does not, or the same
error, and remembers nothing wrong. -/
def Agrees {α : Type} (s : Store R) (values : SignalId → Value R) (x : Evaluation R α)
    (y : Except EmitError α) : Prop :=
  ∀ memo, s.Remembers values memo →
    match y with
    | .ok a => ∃ memo', x.run memo = .ok (a, memo') ∧ s.Remembers values memo'
    | .error e => x.run memo = .error e

theorem agrees_parallel (s : Store R) (values : SignalId → Value R) :
    Parallel fun α (x : Evaluation R α) (y : Except EmitError α) => s.Agrees values x y where
  pure _ memo hmemo := ⟨memo, rfl, hmemo⟩
  throw _ _ _ := rfl
  bind {α β x y f g} hx hf memo hmemo := by
    have h := hx memo hmemo
    cases y with
    | error e =>
      simp only at h
      simp only [StateT.run_bind, h]
      rfl
    | ok a =>
      obtain ⟨memo', hrun, hmemo'⟩ := h
      have hrun' : (x >>= f).run memo = (f a).run memo' := by
        simp only [StateT.run_bind, hrun]
        rfl
      rw [hrun']
      exact hf a memo' hmemo'

theorem Remembers.insert {s : Store R} {memo : Memo R} (h : s.Remembers values memo) {i : NodeId}
    {v : Value R} (hv : s.eval values i = .ok v) : s.Remembers values (memo.insert i v) := by
  intro j w hj
  rw [Std.HashMap.getElem?_insert] at hj
  split at hj
  · rename_i hij
    obtain rfl := eq_of_beq hij
    cases hj
    exact hv
  · exact h j w hj

/-- Remembering the values of nodes does not change the value of an expression. -/
theorem evalShared_agrees (s : Store R) (values : SignalId → Value R) :
    ∀ i, s.Agrees values (s.evalShared values i) (s.eval values i) := by
  intro i
  induction i using Nat.strong_induction_on with
  | _ i ih =>
    intro memo hmemo
    rw [evalShared]
    cases hi : memo[i]? with
    | some v =>
      rw [hmemo i v hi]
      refine ⟨memo, ?_, hmemo⟩
      simp only [StateT.run_bind, StateT.run_get, pure_bind, hi]
      rfl
    | none =>
      have hoperand : ∀ j, s.Agrees values
          (if _h : j < i then s.evalShared values j else MonadExcept.throw (.unsupportedNode ""))
          (if _h : j < i then s.eval values j else MonadExcept.throw (.unsupportedNode "")) := by
        intro j
        by_cases hlt : j < i
        · simpa only [hlt, ↓reduceDIte] using ih j hlt
        · simpa only [hlt, ↓reduceDIte] using (s.agrees_parallel values).throw _
      have hkind := (s.agrees_parallel values).evalKind s values hoperand (s.node i) memo
        hmemo
      have heval := eval.eq_def s values i
      cases hv : s.evalKind values (fun j => if _h : j < i then s.eval values j
          else MonadExcept.throw (.unsupportedNode "")) (s.node i) with
      | error e =>
        rw [hv] at hkind heval
        have he : s.eval values i = .error e := heval
        rw [he]
        simp only [StateT.run_bind, StateT.run_get, pure_bind, hi] at hkind ⊢
        rw [hkind]
        rfl
      | ok v =>
        rw [hv] at hkind heval
        obtain ⟨memo', hrun, hmemo'⟩ := hkind
        have he : s.eval values i = .ok (v.coerce (s.format i)) := heval
        rw [he]
        refine ⟨_, ?_, hmemo'.insert he⟩
        simp only [StateT.run_bind, StateT.run_get, pure_bind, hi, hrun]
        rfl

/-- An evaluation that remembers values has the result of one that does not. -/
theorem Remembers.evalShared_eq {s : Store R} {memo : Memo R} (h : s.Remembers values memo)
    (i : NodeId) : ((s.evalShared values i).run memo).map Prod.fst = s.eval values i := by
  have hagrees := s.evalShared_agrees values i memo h
  cases heval : s.eval values i with
  | error e =>
    rw [heval] at hagrees
    rw [hagrees]
    rfl
  | ok v =>
    rw [heval] at hagrees
    obtain ⟨memo', hrun, -⟩ := hagrees
    rw [hrun]
    rfl

end Store

end MixedSignal
