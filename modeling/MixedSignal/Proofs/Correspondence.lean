import Mathlib.Data.List.Forall2
import Mathlib.Logic.Relator
import MixedSignal.Expr.Text
import MixedSignal.Proofs.Typing

/-!
# Constructions side by side

A `Link` is a pair of stores with the same signals, in which nodes of one correspond to nodes of the
other: they have the same format and the same kind, over operands that correspond. The stores may hold
any other nodes, and a node may have different numbers in them.

`Couples l x y P` says that `x` and `y`, from the stores of a link, either fail with the same error or
both succeed with results that satisfy `P`, and that the stores they leave are linked again.
Constructors on operands that correspond are coupled, since the nodes they make correspond.
-/

set_option linter.unusedSectionVars false

namespace MixedSignal

variable {R : Type} [Scalar R] {r : NodeId → NodeId → Prop}

/-- The kinds are the same but for their operands, which are related. -/
inductive NodeKind.Related (r : NodeId → NodeId → Prop) : NodeKind R → NodeKind R → Prop
  | signal {x} : Related r (.signal x) (.signal x)
  | const {v} : Related r (.const v) (.const v)
  | arith {op xs ys} (h : List.Forall₂ r xs ys) : Related r (.arith op xs) (.arith op ys)
  | compare {op a b a' b'} (ha : r a a') (hb : r b b') : Related r (.compare op a b) (.compare op a' b')
  | bitwise {op xs ys} (h : List.Forall₂ r xs ys) : Related r (.bitwise op xs) (.bitwise op ys)
  | bitNot {a a'} (ha : r a a') : Related r (.bitNot a) (.bitNot a')
  | shift {d a a' n} (ha : r a a') : Related r (.shift d a n) (.shift d a' n)
  | slice {a a' m n} (ha : r a a') : Related r (.slice a m n) (.slice a' m n)
  | concat {xs ys} (h : List.Forall₂ r xs ys) : Related r (.concat xs) (.concat ys)
  | convert {c a a'} (ha : r a a') : Related r (.convert c a) (.convert c a')
  | select {xs ys a a'} (h : List.Forall₂ r xs ys) (ha : r a a') :
    Related r (.select xs a) (.select ys a')
  | cases {xs ys selectors} (h : List.Forall₂ r xs ys) :
    Related r (.cases xs selectors) (.cases ys selectors)
  | deriv {x} : Related r (.deriv x) (.deriv x)

theorem NodeKind.Related.imp {r' : NodeId → NodeId → Prop} {k k' : NodeKind R} (h : k.Related r k')
    (hr : ∀ a b, r a b → r' a b) : k.Related r' k' := by
  cases h with
  | signal => exact .signal
  | const => exact .const
  | deriv => exact .deriv
  | arith h => exact .arith (h.imp hr)
  | bitwise h => exact .bitwise (h.imp hr)
  | concat h => exact .concat (h.imp hr)
  | cases h => exact .cases (h.imp hr)
  | compare ha hb => exact .compare (hr _ _ ha) (hr _ _ hb)
  | select h ha => exact .select (h.imp hr) (hr _ _ ha)
  | bitNot ha => exact .bitNot (hr _ _ ha)
  | shift ha => exact .shift (hr _ _ ha)
  | slice ha => exact .slice (hr _ _ ha)
  | convert ha => exact .convert (hr _ _ ha)

theorem forall₂_mem {α β : Type} {r : α → β → Prop} {as : List α} {bs : List β}
    (h : List.Forall₂ r as bs) : List.Forall₂ (fun a b => r a b ∧ a ∈ as ∧ b ∈ bs) as bs := by
  induction h with
  | nil => exact .nil
  | cons hab _ ih =>
    refine .cons ⟨hab, by simp, by simp⟩ (ih.imp fun a b hab => ?_)
    exact ⟨hab.1, List.mem_cons_of_mem _ hab.2.1, List.mem_cons_of_mem _ hab.2.2⟩

/-- A kind is related to itself if its operands are. -/
theorem NodeKind.Related.refl (s : Store R) {k : NodeKind R} (h : ∀ x ∈ s.operands k, r x x) :
    k.Related r k := by
  have hlist : ∀ {xs : List NodeId}, (∀ x ∈ xs, r x x) → List.Forall₂ r xs xs := fun h =>
    List.forall₂_same.2 h
  cases k with
  | signal => exact .signal
  | const => exact .const
  | deriv => exact .deriv
  | arith => exact .arith (hlist h)
  | bitwise => exact .bitwise (hlist h)
  | concat => exact .concat (hlist h)
  | cases => exact .cases (hlist fun x hx => h x (List.mem_append_left _ hx))
  | select =>
    exact .select (hlist fun x hx => h x (List.mem_append_left _ hx)) (h _ (by simp [Store.operands]))
  | compare => exact .compare (h _ (by simp [Store.operands])) (h _ (by simp [Store.operands]))
  | bitNot => exact .bitNot (h _ (by simp [Store.operands]))
  | shift => exact .shift (h _ (by simp [Store.operands]))
  | slice => exact .slice (h _ (by simp [Store.operands]))
  | convert => exact .convert (h _ (by simp [Store.operands]))

/-- What is related are operands. -/
theorem NodeKind.Related.operands {k k' : NodeKind R} (h : k.Related r k') (s t : Store R) :
    k.Related (fun a b => r a b ∧ a ∈ s.operands k ∧ b ∈ t.operands k') k' := by
  cases h with
  | signal => exact .signal
  | const => exact .const
  | deriv => exact .deriv
  | arith h => exact .arith (forall₂_mem h)
  | bitwise h => exact .bitwise (forall₂_mem h)
  | concat h => exact .concat (forall₂_mem h)
  | cases h =>
    refine .cases ((forall₂_mem h).imp fun a b hab => ⟨hab.1, ?_, ?_⟩)
    · exact List.mem_append_left _ hab.2.1
    · exact List.mem_append_left _ hab.2.2
  | select h ha =>
    refine .select ((forall₂_mem h).imp fun a b hab => ⟨hab.1, ?_, ?_⟩)
      ⟨ha, by simp [Store.operands], by simp [Store.operands]⟩
    · exact List.mem_append_left _ hab.2.1
    · exact List.mem_append_left _ hab.2.2
  | compare ha hb =>
    exact .compare ⟨ha, by simp [Store.operands], by simp [Store.operands]⟩
      ⟨hb, by simp [Store.operands], by simp [Store.operands]⟩
  | bitNot ha => exact .bitNot ⟨ha, by simp [Store.operands], by simp [Store.operands]⟩
  | shift ha => exact .shift ⟨ha, by simp [Store.operands], by simp [Store.operands]⟩
  | slice ha => exact .slice ⟨ha, by simp [Store.operands], by simp [Store.operands]⟩
  | convert ha => exact .convert ⟨ha, by simp [Store.operands], by simp [Store.operands]⟩

/-- Nodes of two stores with the same signals are matched one to one: they have the same format, and
the same kind over operands that are matched. -/
structure Store.Matches (r : NodeId → NodeId → Prop) (s t : Store R) : Prop where
  signals_eq : t.signals = s.signals
  unique : Relator.BiUnique r
  lt : ∀ i j, r i j → i < s.nodes.size ∧ j < t.nodes.size
  format_eq : ∀ i j, r i j → s.format i = t.format j
  kind : ∀ i j, r i j → (s.kind i).Related r (t.kind j)

/-- Two stores with the same signals and nodes that correspond. -/
structure Link (R : Type) where
  left : Store R
  right : Store R
  rel : NodeId → NodeId → Prop
  signals_eq : right.signals = left.signals
  unique : Relator.BiUnique rel
  left_lt {i j} : rel i j → i < left.nodes.size
  right_lt {i j} : rel i j → j < right.nodes.size
  format_eq {i j} : rel i j → left.format i = right.format j
  /-- The operands are older nodes. -/
  kind {i j} : rel i j → (left.kind i).Related (fun a b => rel a b ∧ a < i ∧ b < j) (right.kind j)

/-- In typed stores operands come before the nodes that use them. -/
def Store.Matches.link {rounding : Rounding R} {r : NodeId → NodeId → Prop} {s t : Store R}
    (h : s.Matches r t) (hs : s.WellTyped rounding) (ht : t.WellTyped rounding) : Link R where
  left := s
  right := t
  rel := r
  signals_eq := h.signals_eq
  unique := h.unique
  left_lt hij := (h.lt _ _ hij).1
  right_lt hij := (h.lt _ _ hij).2
  format_eq hij := h.format_eq _ _ hij
  kind := by
    intro i j hij
    obtain ⟨hi, hj⟩ := h.lt i j hij
    refine ((h.kind i j hij).operands s t).imp fun a b hab => ⟨hab.1, ?_, ?_⟩
    · exact hs.below i hi a hab.2.1
    · exact ht.below j hj b hab.2.2

/-- A store matches itself as it was before it grew. -/
theorem Store.Grown.matches {rounding : Rounding R} {s t : Store R} (h : s.Grown rounding t)
    (hs : s.WellTyped rounding) : s.Matches (fun i j => i = j ∧ i < s.nodes.size) t where
  signals_eq := h.signals_eq
  unique := by
    constructor
    · rintro i i' j ⟨rfl, -⟩ ⟨rfl, -⟩
      rfl
    · rintro i j j' ⟨rfl, -⟩ ⟨rfl, -⟩
      rfl
  lt := by
    rintro i j ⟨rfl, hi⟩
    exact ⟨hi, hi.trans_le h.size_le⟩
  format_eq := by
    rintro i j ⟨rfl, hi⟩
    exact (h.toExtends.format_eq hi).symm
  kind := by
    rintro i j ⟨rfl, hi⟩
    rw [h.toExtends.kind_eq hi]
    exact .refl s fun x hx => ⟨rfl, (hs.below i hi x hx).trans hi⟩

namespace Link

variable {l : Link R}

theorem kind_rel {i j : NodeId} (h : l.rel i j) : (l.left.kind i).Related l.rel (l.right.kind j) :=
  (l.kind h).imp fun _ _ hab => hab.1

theorem signal_eq (x : SignalId) : l.right.signal x = l.left.signal x := by
  rw [Store.signal, Store.signal, l.signals_eq]

/-- Both stores with one more node, of kinds over operands that correspond. -/
def push (l : Link R) {k k' : NodeKind R} (f : Format R) (h : k.Related l.rel k') : Link R where
  left := (l.left.push k f).2
  right := (l.right.push k' f).2
  rel i j := l.rel i j ∨ i = l.left.nodes.size ∧ j = l.right.nodes.size
  signals_eq := l.signals_eq
  unique := by
    constructor
    · rintro i i' j (hi | ⟨rfl, rfl⟩) (hi' | ⟨rfl, hj⟩)
      · exact l.unique.1 hi hi'
      · exact absurd (l.right_lt hi) (hj ▸ lt_irrefl _)
      · exact absurd (l.right_lt hi') (lt_irrefl _)
      · rfl
    · rintro i j j' (hj | ⟨rfl, rfl⟩) (hj' | ⟨hi, rfl⟩)
      · exact l.unique.2 hj hj'
      · exact absurd (l.left_lt hj) (hi ▸ lt_irrefl _)
      · exact absurd (l.left_lt hj') (lt_irrefl _)
      · rfl
  left_lt := by
    rintro i j (hij | ⟨rfl, -⟩)
    · exact (l.left_lt hij).trans_le (by simp)
    · simp
  right_lt := by
    rintro i j (hij | ⟨-, rfl⟩)
    · exact (l.right_lt hij).trans_le (by simp)
    · simp
  format_eq := by
    rintro i j (hij | ⟨rfl, rfl⟩)
    · rw [Store.format, Store.format, Store.node_push_lt _ _ (l.left_lt hij),
        Store.node_push_lt _ _ (l.right_lt hij)]
      exact l.format_eq hij
    · rw [Store.format, Store.format, Store.node_push_self, Store.node_push_self]
  kind := by
    rintro i j (hij | ⟨rfl, rfl⟩)
    · rw [Store.kind, Store.kind, Store.node_push_lt _ _ (l.left_lt hij),
        Store.node_push_lt _ _ (l.right_lt hij)]
      exact (l.kind hij).imp fun a b hab => ⟨.inl hab.1, hab.2⟩
    · rw [Store.kind, Store.kind, Store.node_push_self, Store.node_push_self]
      exact h.imp fun a b hab => ⟨.inl hab, l.left_lt hab, l.right_lt hab⟩

end Link

/-! ## Coupled computations -/

/-- Both computations succeed, or both fail with the same error, and what corresponds goes on to do
so. -/
def Couples {ε α β : Type} (l : Link R) (x : ExceptT ε (StateM (Store R)) α)
    (y : ExceptT ε (StateM (Store R)) β) (P : Link R → α → β → Prop) : Prop :=
  ∃ l' : Link R, l.rel ≤ l'.rel ∧
    ((∃ a b, outcome x l.left = (.ok a, l'.left) ∧ outcome y l.right = (.ok b, l'.right) ∧
      P l' a b) ∨
    ∃ e, outcome x l.left = (.error e, l'.left) ∧ outcome y l.right = (.error e, l'.right))

namespace Couples

variable {ε α β α' β' : Type} {l : Link R} {x : ExceptT ε (StateM (Store R)) α}
  {y : ExceptT ε (StateM (Store R)) β} {P Q : Link R → α → β → Prop}

theorem pure {a : α} {b : β} (h : P l a b) :
    Couples l (Pure.pure a : ExceptT ε (StateM (Store R)) α) (Pure.pure b) P :=
  ⟨l, le_rfl, .inl ⟨a, b, rfl, rfl, h⟩⟩

theorem throw (e : ε) : Couples l (MonadExcept.throw e : ExceptT ε (StateM (Store R)) α)
    (MonadExcept.throw e : ExceptT ε (StateM (Store R)) β) P :=
  ⟨l, le_rfl, .inr ⟨e, rfl, rfl⟩⟩

theorem get_bind {f : Store R → ExceptT ε (StateM (Store R)) α}
    {g : Store R → ExceptT ε (StateM (Store R)) β} (h : Couples l (f l.left) (g l.right) P) :
    Couples l (get >>= f) (get >>= g) P :=
  h

theorem imp (hx : Couples l x y P) (h : ∀ l' a b, l.rel ≤ l'.rel → P l' a b → Q l' a b) :
    Couples l x y Q := by
  obtain ⟨l', hl, ⟨a, b, ha, hb, hP⟩ | herror⟩ := hx
  · exact ⟨l', hl, .inl ⟨a, b, ha, hb, h l' a b hl hP⟩⟩
  · exact ⟨l', hl, .inr herror⟩

theorem bind {f : α → ExceptT ε (StateM (Store R)) α'} {g : β → ExceptT ε (StateM (Store R)) β'}
    {Q : Link R → α' → β' → Prop} (hx : Couples l x y P)
    (hf : ∀ l' a b, l.rel ≤ l'.rel → P l' a b → Couples l' (f a) (g b) Q) :
    Couples l (x >>= f) (y >>= g) Q := by
  obtain ⟨l', hl, ⟨a, b, ha, hb, hP⟩ | ⟨e, ha, hb⟩⟩ := hx
  · obtain ⟨l'', hl', h⟩ := hf l' a b hl hP
    refine ⟨l'', hl.trans hl', ?_⟩
    rwa [outcome_bind_ok ha, outcome_bind_ok hb]
  · exact ⟨l', hl, .inr ⟨e, outcome_bind_error ha, outcome_bind_error hb⟩⟩

theorem throw_bind (e : ε) {f : α → ExceptT ε (StateM (Store R)) α'}
    {g : β → ExceptT ε (StateM (Store R)) β'} {Q : Link R → α' → β' → Prop} :
    Couples l (MonadExcept.throw e >>= f) (MonadExcept.throw e >>= g) Q :=
  ⟨l, le_rfl, .inr ⟨e, rfl, rfl⟩⟩

/-- A computation for each element of two lists. What is known of results lasts while links grow, and
an invariant of the links is kept. -/
theorem mapM {γ δ : Type} {f : γ → ExceptT ε (StateM (Store R)) α}
    {g : δ → ExceptT ε (StateM (Store R)) β} {C : γ → δ → Prop} {I : Link R → Prop}
    (hP : ∀ l l' a b, l.rel ≤ l'.rel → P l a b → P l' a b) {cs : List γ} {ds : List δ}
    (h : List.Forall₂ C cs ds) (hI : I l)
    (hf : ∀ l' c d, l.rel ≤ l'.rel → I l' → C c d →
      Couples l' (f c) (g d) fun l a b => I l ∧ P l a b) :
    Couples l (cs.mapM f) (ds.mapM g) fun l as bs => I l ∧ List.Forall₂ (P l) as bs := by
  induction h generalizing l with
  | nil =>
    rw [List.mapM_nil, List.mapM_nil]
    exact .pure ⟨hI, .nil⟩
  | @cons c d cs ds hcd _ ih =>
    rw [List.mapM_cons, List.mapM_cons]
    refine (hf l c d le_rfl hI hcd).bind fun l₁ a b h₁ hab => ?_
    refine (ih hab.1 fun l' c d hl' => hf l' c d (h₁.trans hl')).bind fun l₂ as bs h₂ habs => ?_
    exact .pure ⟨habs.1, .cons (hP _ _ _ _ h₂ hab.2) habs.2⟩

/-- Nodes made for each element of two lists correspond. -/
theorem mapM_rel {γ δ : Type} {f : γ → ExceptT ε (StateM (Store R)) NodeId}
    {g : δ → ExceptT ε (StateM (Store R)) NodeId} {C : γ → δ → Prop} {cs : List γ} {ds : List δ}
    (h : List.Forall₂ C cs ds)
    (hf : ∀ l' c d, l.rel ≤ l'.rel → C c d → Couples l' (f c) (g d) Link.rel) :
    Couples l (cs.mapM f) (ds.mapM g) fun l is js => List.Forall₂ l.rel is js := by
  refine (mapM (P := Link.rel) (I := fun _ => True) (fun _ _ a b hl hab => hl a b hab) h trivial
    fun l' c d hl _ hcd => ?_).imp fun _ _ _ _ h => h.2
  exact (hf l' c d hl hcd).imp fun _ _ _ _ h => ⟨trivial, h⟩

/-- Loops over the same list, whose bodies only check. -/
theorem forIn {γ : Type} {f g : γ → PUnit → ExceptT ε (StateM (Store R)) (ForInStep PUnit)}
    (cs : List γ) (hf : ∀ l' : Link R, ∀ c, Couples l' (f c ⟨⟩) (g c ⟨⟩) fun _ r r' =>
      r = .yield ⟨⟩ ∧ r' = .yield ⟨⟩) :
    Couples l (ForIn.forIn cs ⟨⟩ f) (ForIn.forIn cs ⟨⟩ g) fun _ _ _ => True := by
  induction cs generalizing l with
  | nil =>
    rw [List.forIn_nil, List.forIn_nil]
    exact .pure trivial
  | cons c cs ih =>
    rw [List.forIn_cons, List.forIn_cons]
    refine (hf l c).bind fun l' r r' _ h => ?_
    obtain ⟨rfl, rfl⟩ := h
    exact ih

end Couples

/-- Lists of related elements agree where a function of related elements does. -/
theorem map_eq_of_forall₂ {α β γ : Type} {r : α → β → Prop} {f : α → γ} {g : β → γ}
    (hr : ∀ a b, r a b → f a = g b) {as : List α} {bs : List β} (h : List.Forall₂ r as bs) :
    as.map f = bs.map g := by
  induction h with
  | nil => rfl
  | cons hab _ ih => rw [List.map_cons, List.map_cons, hr _ _ hab, ih]

theorem all_eq_of_forall₂ {α β : Type} {r : α → β → Prop} {p : α → Bool} {q : β → Bool}
    (hr : ∀ a b, r a b → p a = q b) {as : List α} {bs : List β} (h : List.Forall₂ r as bs) :
    as.all p = bs.all q := by
  induction h with
  | nil => rfl
  | cons hab _ ih => rw [List.all_cons, List.all_cons, hr _ _ hab, ih]

/-! ## What is read off nodes -/

namespace Link

open Build

variable {l : Link R} {i j : NodeId} {is js : List NodeId}

theorem const?_eq (h : l.rel i j) : l.left.const? i = l.right.const? j := by
  have hk := l.kind_rel h
  unfold Store.const?
  generalize l.left.kind i = k, l.right.kind j = k' at hk ⊢
  cases hk <;> rfl

theorem commonDomain_eq (h : List.Forall₂ l.rel is js) :
    commonDomain l.left is = commonDomain l.right js := by
  have hmap := map_eq_of_forall₂ (fun _ _ hab => congrArg Format.domain (l.format_eq hab)) h
  unfold commonDomain
  rw [← List.foldl_map (f := fun i => (l.left.format i).domain) (g := Domain.join), hmap,
    List.foldl_map]

theorem flatten_rel (op : ArithOp) (h : l.rel i j) :
    List.Forall₂ l.rel (flatten l.left op i) (flatten l.right op j) := by
  have hk := l.kind_rel h
  have hone : List.Forall₂ l.rel [i] [j] := .cons h .nil
  unfold flatten
  generalize l.left.kind i = k, l.right.kind j = k' at hk
  cases hk with
  | arith hxs =>
    simp only
    split
    · exact hxs
    · exact hone
  | _ => exact hone

theorem flattened_rel (op : ArithOp) (h : List.Forall₂ l.rel is js) :
    List.Forall₂ l.rel (flattened l.left op is) (flattened l.right op js) := by
  induction h with
  | nil => exact .nil
  | cons hij _ ih =>
    rw [flattened, flattened, List.flatMap_cons, List.flatMap_cons]
    exact List.rel_append (flatten_rel op hij) ih

theorem terms_rel (op : ArithOp) (h : List.Forall₂ l.rel is js) :
    List.Forall₂ l.rel (terms l.left op is) (terms l.right op js) :=
  List.rel_filter (fun _ _ hab => by simp only [const?_eq hab]) (flattened_rel op h)

theorem known_eq (op : ArithOp) (h : List.Forall₂ l.rel is js) :
    known l.left op is = known l.right op js := by
  have hconsts : (flattened l.left op is).filterMap l.left.const? =
      (flattened l.right op js).filterMap l.right.const? := by
    have hmap := map_eq_of_forall₂ (fun _ _ hab => l.const?_eq hab) (flattened_rel op h)
    simpa [List.filterMap_map] using congrArg (List.filterMap id) hmap
  rw [known, known, hconsts]

theorem isZeroArray_eq (h : l.rel i j) : isZeroArray l.left i = isZeroArray l.right j := by
  have hk := l.kind_rel h
  unfold isZeroArray
  generalize l.left.kind i = k, l.right.kind j = k' at hk ⊢
  cases hk with
  | select hxs _ => exact all_eq_of_forall₂ (fun a b hab => by rw [const?_eq hab]) hxs
  | _ => rfl

theorem allSame_eq (h : l.rel i j) (hs : List.Forall₂ l.rel is js) :
    allSame l.left i is = allSame l.right j js := by
  refine all_eq_of_forall₂ (fun a b hab => ?_) hs
  -- nodes are equal on one side exactly if they are on the other
  have hnode : (a == i) = (b == j) := by
    rw [Bool.eq_iff_iff, beq_iff_eq, beq_iff_eq]
    constructor
    · rintro rfl
      exact l.unique.2 hab h
    · rintro rfl
      exact l.unique.1 hab h
  rw [hnode, const?_eq h, const?_eq hab]

/-- Nodes that correspond are written alike. -/
theorem text_eq (h : l.rel i j) : l.left.text i = l.right.text j := by
  induction i using Nat.strong_induction_on generalizing j with
  | _ i ih =>
    have hk := l.kind h
    have hbelow : ∀ a b, l.rel a b ∧ a < i ∧ b < j →
        (if _h : a < i then l.left.text a else "") = if _h : b < j then l.right.text b else "" := by
      rintro a b ⟨hab, ha, hb⟩
      rw [dif_pos ha, dif_pos hb, ih a ha hab]
    rw [Store.text, Store.text]
    generalize l.left.kind i = k, l.right.kind j = k' at hk ⊢
    cases hk with
    | signal | deriv => simp only [Store.kindText, signal_eq]
    | const => rfl
    | @arith op xs ys hxs =>
      cases op <;> simp only [Store.kindText, map_eq_of_forall₂ hbelow hxs]
    | bitwise hxs | concat hxs => simp only [Store.kindText, map_eq_of_forall₂ hbelow hxs]
    | cases hxs => simp only [Store.kindText, map_eq_of_forall₂ hbelow hxs, signal_eq]
    | select hxs ha => simp only [Store.kindText, map_eq_of_forall₂ hbelow hxs, hbelow _ _ ha]
    | compare ha hb => simp only [Store.kindText, hbelow _ _ ha, hbelow _ _ hb]
    | @shift d a a' n ha => cases d <;> simp only [Store.kindText, hbelow _ _ ha]
    | bitNot ha | slice ha | convert ha => simp only [Store.kindText, hbelow _ _ ha]

end Link

/-! ## Constructors -/

/-- The operands are nodes that correspond, or the same value. -/
inductive Operand.Related (r : NodeId → NodeId → Prop) : Operand R → Operand R → Prop
  | node {i j} (h : r i j) : Related r (.node i) (.node j)
  | value {v} : Related r (.value v) (.value v)

theorem Operand.Related.mono {r' : NodeId → NodeId → Prop} {o o' : Operand R} (h : o.Related r o')
    (hr : r ≤ r') : o.Related r' o' := by
  cases h with
  | node hij => exact .node (hr _ _ hij)
  | value => exact .value

theorem related_of_nodes {is js : List NodeId} (h : List.Forall₂ r is js) :
    List.Forall₂ (Operand.Related (R := R) r) (is.map .node) (js.map .node) := by
  induction h with
  | nil => exact .nil
  | cons hij _ ih => exact .cons (.node hij) ih

namespace Build

variable {l : Link R} {i j : NodeId} {is js : List NodeId}

theorem push_couples {k k' : NodeKind R} (f : Format R) (h : k.Related l.rel k') :
    Couples l (push k f) (push k' f) Link.rel :=
  ⟨l.push f h, fun _ _ => .inl, .inl ⟨_, _, rfl, rfl, .inr ⟨rfl, rfl⟩⟩⟩

theorem pushConstantIn_couples (v : Value R) (d : Domain) :
    Couples l (pushConstantIn v d) (pushConstantIn v d) Link.rel :=
  push_couples _ .const

theorem operand_couples {o o' : Operand R} (h : o.Related l.rel o') :
    Couples l (operand o) (operand o') Link.rel := by
  cases h with
  | node hij => exact .pure hij
  | value => exact push_couples _ .const

theorem operands_couple {os os' : List (Operand R)}
    (h : List.Forall₂ (Operand.Related l.rel) os os') :
    Couples l (os.mapM operand) (os'.mapM operand) fun l is js => List.Forall₂ l.rel is js :=
  .mapM_rel h fun _ _ _ hl ho => operand_couples (ho.mono hl)

theorem requireInt_couples (h : l.rel i j) :
    Couples l (requireInt i) (requireInt j) fun _ f g => f = g := by
  unfold requireInt
  refine Couples.get_bind ?_
  rw [l.format_eq h]
  split
  · exact .pure rfl
  · exact .throw _

theorem requireUnsigned_couples (h : l.rel i j) :
    Couples l (requireUnsigned i) (requireUnsigned j) fun _ f g => f = g := by
  unfold requireUnsigned
  refine Couples.get_bind ?_
  rw [l.format_eq h]
  split
  · exact .pure rfl
  · exact .throw _

theorem checkWidth_couples (conversion : Conversion) (width : Option Nat) (required : Nat) :
    Couples l (checkWidth conversion width required) (checkWidth conversion width required)
      fun _ w w' => w = w' := by
  unfold checkWidth
  split
  · exact .pure rfl
  · split
    · exact .pure rfl
    · exact .throw _

theorem uintToSint_couples (h : l.rel i j) (width : Option Nat) :
    Couples l (uintToSint i width) (uintToSint j width) Link.rel := by
  refine (requireInt_couples h).bind fun l' f g hl hf => ?_
  subst hf
  refine (checkWidth_couples _ _ _).bind fun l'' w w' hl' hw => ?_
  subst hw
  exact push_couples _ (.convert (hl' _ _ (hl _ _ h)))

theorem sintToReal_couples (h : l.rel i j) : Couples l (sintToReal i) (sintToReal j) Link.rel := by
  refine Couples.get_bind ?_
  rw [l.format_eq h]
  exact push_couples _ (.convert h)

theorem promote_couples (h : l.rel i j) (d : Domain) :
    Couples l (promote i d) (promote j d) Link.rel := by
  unfold promote
  refine Couples.get_bind ?_
  rw [l.format_eq h]
  simp only
  split
  · exact .pure h
  split
  · exact .throw _
  refine Couples.get_bind ?_
  rw [l.const?_eq h]
  have hreal : ∀ l' : Link R, ∀ a b, l'.rel a b →
      Couples l' (if d = .real then sintToReal a else pure a)
        (if d = .real then sintToReal b else pure b) Link.rel := by
    intro l' a b hab
    split
    · exact sintToReal_couples hab
    · exact .pure hab
  cases l.right.const? j with
  | some v => exact pushConstantIn_couples v d
  | none =>
    simp only
    split
    · exact (uintToSint_couples h none).bind fun l' a b _ hab => hreal l' a b hab
    · exact hreal l i j h

theorem promoteAll_couples (h : List.Forall₂ l.rel is js) :
    Couples l (promoteAll is) (promoteAll js) fun l is js => List.Forall₂ l.rel is js := by
  refine Couples.get_bind ?_
  rw [l.commonDomain_eq h]
  exact .mapM_rel h fun _ a b hl hab => promote_couples (hl a b hab) _

theorem foldFormats_couples (f : Format R → Format R → Option (Format R))
    (h : List.Forall₂ l.rel is js) :
    Couples l (foldFormats f is) (foldFormats f js) fun _ g g' => g = g' := by
  cases h with
  | nil => exact .throw _
  | @cons i j is js hij hs =>
    refine Couples.get_bind ?_
    rw [l.format_eq hij]
    generalize l.right.format j = g
    induction hs generalizing g with
    | nil => exact .pure rfl
    | @cons a b as bs hab _ ih =>
      rw [List.foldlM_cons, List.foldlM_cons, l.format_eq hab]
      cases f g (l.right.format b) with
      | none => exact .throw_bind _
      | some g' =>
        rw [pure_bind, pure_bind]
        exact ih g'

theorem remaining_couples (op : ArithOp) (d : Domain) (h : List.Forall₂ l.rel is js)
    (known : Option (Value R)) :
    Couples l (remaining op d is known) (remaining op d js known)
      fun l is js => List.Forall₂ l.rel is js := by
  have hempty : is.isEmpty = js.isEmpty := by cases h <;> rfl
  cases known with
  | none => exact .pure h
  | some v =>
    simp only [remaining, hempty]
    split
    · refine (pushConstantIn_couples v d).bind fun l' c c' hl hc => .pure ?_
      exact List.rel_append (h.imp hl) (.cons hc .nil)
    · exact .pure h

theorem assemble_couples (op : ArithOp) (d : Domain) (h : List.Forall₂ l.rel is js) :
    Couples l (assemble op d is) (assemble op d js) Link.rel := by
  cases h with
  | nil =>
    cases op with
    | sum | product => exact pushConstantIn_couples _ d
    | min | max => exact .throw _
  | @cons i j is js hij h =>
    cases h with
    | nil => exact .pure hij
    | @cons i' j' is js hij' h =>
      have hall : List.Forall₂ l.rel (i :: i' :: is) (j :: j' :: js) := .cons hij (.cons hij' h)
      refine (foldFormats_couples _ hall).bind fun l' f g hl hf => ?_
      subst hf
      exact push_couples f (.arith (hall.imp hl))

theorem combine_couples (op : ArithOp) (d : Domain) (h : List.Forall₂ l.rel is js) :
    Couples l (combine op d is) (combine op d js) Link.rel := by
  have hzero : (terms l.left op is).any (isZeroArray l.left) =
      (terms l.right op js).any (isZeroArray l.right) := by
    rw [List.any_eq_not_all_not, List.any_eq_not_all_not,
      all_eq_of_forall₂ (fun a b hab => by rw [l.isZeroArray_eq hab]) (l.terms_rel op h)]
  unfold combine
  refine Couples.get_bind ?_
  simp only
  rw [l.known_eq op h, hzero]
  split
  · exact pushConstantIn_couples _ d
  · refine (remaining_couples op d (l.terms_rel op h) _).bind fun l' is' js' _ h' => ?_
    exact assemble_couples op d h'

theorem arithmetic_couples (op : ArithOp) {os os' : List (Operand R)}
    (h : List.Forall₂ (Operand.Related l.rel) os os') :
    Couples l (arithmetic op os) (arithmetic op os') Link.rel := by
  refine (operands_couple h).bind fun l' is js _ his => ?_
  refine Couples.get_bind ?_
  simp only
  rw [l'.commonDomain_eq his]
  refine (Couples.mapM_rel his fun _ a b hl hab => promote_couples (hl a b hab) _).bind
    fun l'' is' js' _ his' => ?_
  exact combine_couples op _ his'

theorem sub_couples {a b a' b' : Operand R} (ha : a.Related l.rel a') (hb : b.Related l.rel b') :
    Couples l (sub a b) (sub a' b') Link.rel := by
  refine (arithmetic_couples .product (.cons .value (.cons hb .nil))).bind fun l' c c' hl hc => ?_
  exact arithmetic_couples .sum (.cons (ha.mono hl) (.cons (.node hc) .nil))

theorem array_couples {os os' : List (Operand R)} {a a' : Operand R}
    (h : List.Forall₂ (Operand.Related l.rel) os os') (ha : a.Related l.rel a') :
    Couples l (array os a) (array os' a') Link.rel := by
  unfold array
  refine (operands_couple h).bind fun l₁ is js h₁ his => ?_
  refine (operand_couples (ha.mono h₁)).bind fun l₂ i j h₂ hij => ?_
  refine (requireUnsigned_couples hij).bind fun l₃ w w' h₃ hw => ?_
  subst hw
  have his₃ := (his.imp h₂).imp h₃
  rw [his₃.length_eq]
  split
  · exact .throw _
  refine (promoteAll_couples his₃).bind fun l₄ is' js' h₄ his' => ?_
  refine Couples.get_bind ?_
  cases his' with
  | nil => exact .throw _
  | @cons first first' rest rest' hfirst hrest =>
    simp only
    rw [l₄.allSame_eq hfirst (.cons hfirst hrest)]
    split
    · exact .pure hfirst
    · refine (foldFormats_couples _ (.cons hfirst hrest)).bind fun l₅ f g h₅ hf => ?_
      subst hf
      refine push_couples f (.select ?_ ?_)
      · exact List.Forall₂.imp h₅ (.cons hfirst hrest)
      · exact h₅ _ _ (h₄ _ _ (h₃ _ _ hij))

theorem eqnCase_couples {os os' : List (Operand R)}
    (h : List.Forall₂ (Operand.Related l.rel) os os') (selectors : List SignalId) :
    Couples l (eqnCase os selectors) (eqnCase os' selectors) Link.rel := by
  unfold eqnCase
  refine (operands_couple h).bind fun l₁ is js h₁ his => ?_
  refine Couples.get_bind ?_
  simp only [l₁.signal_eq]
  refine (Couples.forIn selectors fun l' x => ?_).bind fun l₂ _ _ h₂ _ => ?_
  · split
    · exact .pure ⟨rfl, rfl⟩
    · exact .throw_bind _
  have his₂ := his.imp h₂
  rw [his₂.length_eq]
  split
  · exact .throw_bind _
  refine (promoteAll_couples his₂).bind fun l₃ is' js' h₃ his' => ?_
  refine (foldFormats_couples _ his').bind fun l₄ f g h₄ hf => ?_
  subst hf
  exact push_couples f (.cases (his'.imp h₄))

end Build

end MixedSignal
