import Mathlib.Data.List.Induction
import MixedSignal.Expr.Transform
import MixedSignal.Proofs.Constructors

/-!
# What rewriting keeps

Resolving case tables and multiplying constants into sums only ever use constructors, so they grow a
store by typed nodes as the constructors do. Both remember what they have made of a node.
`Transform.Agree Q x y s E P` says that, if what is remembered satisfies `Q`, then the computations have
the same outcome, a result satisfies `P` and what is remembered then satisfies `Q` again.

A relation between nodes and their rewritten forms that the constructors keep (`Transform.Resolves`)
holds between every node and its rewritten form. That the form exists is one such relation.
-/

set_option linter.unusedSectionVars false

namespace MixedSignal

variable {R : Type} [Scalar R] {setting : SignalId → Option Bool}

namespace Transform

open Store Build

variable {rounding : Rounding R} {s : Store R} {E : ConstructionError → Prop} {α β : Type}
  {Q : NodeId → NodeId → Store R → Prop}

/-- What is remembered satisfies the relation. -/
def Remembered (Q : NodeId → NodeId → Store R → Prop) (memo : Std.TreeMap NodeId NodeId)
    (s : Store R) : Prop :=
  ∀ i j, memo[i]? = some j → Q i j s

/-- Both computations have the same outcome. A result satisfies `P`, and what is remembered goes on to
satisfy `Q`. -/
def Agree (rounding : Rounding R) (Q : NodeId → NodeId → Store R → Prop) (x y : Transform R α)
    (s : Store R) (E : ConstructionError → Prop) (P : α → Store R → Prop) : Prop :=
  ∀ memo, Remembered Q memo s → outcome (y.run memo) s = outcome (x.run memo) s ∧
    Ensures (Grown rounding) (x.run memo) s E fun r s' => P r.1 s' ∧ Remembered Q r.2 s'

/-- A result satisfies `P`, and what is remembered goes on to satisfy `Q`. -/
abbrev Yields (rounding : Rounding R) (Q : NodeId → NodeId → Store R → Prop) (x : Transform R α)
    (s : Store R) (E : ConstructionError → Prop) (P : α → Store R → Prop) : Prop :=
  Agree rounding Q x x s E P

namespace Agree

variable {P : α → Store R → Prop} {x y : Transform R α}

theorem pure {a : α} (h : P a s) : Yields rounding Q (Pure.pure a) s E P :=
  fun _ hmemo => ⟨rfl, Ensures.pure ⟨h, hmemo⟩⟩

theorem bind {f g : α → Transform R β} {P' : β → Store R → Prop} (h : Agree rounding Q x y s E P)
    (hf : ∀ a s', s.Grown rounding s' → P a s' → Agree rounding Q (f a) (g a) s' E P') :
    Agree rounding Q (x >>= f) (y >>= g) s E P' := by
  intro memo hmemo
  obtain ⟨hxy, hx⟩ := h memo hmemo
  rw [StateT.run_bind, StateT.run_bind]
  refine ⟨?_, hx.bind fun r s' hs hr => (hf r.1 s' hs hr.1 r.2 hr.2).2⟩
  rw [outcome_bind, outcome_bind, hxy]
  cases hrun : outcome (x.run memo) s with
  | mk r s' =>
    cases r with
    | error e => rfl
    | ok p =>
      obtain ⟨hs', hp, hmemo'⟩ := hx.elim_ok hrun
      exact (hf p.1 s' hs' hp p.2 hmemo').1

theorem imp {P' : α → Store R → Prop} (hx : Agree rounding Q x y s E P)
    (h : ∀ a s', s.Grown rounding s' → P a s' → P' a s') : Agree rounding Q x y s E P' :=
  fun memo hmemo => ⟨(hx memo hmemo).1,
    (hx memo hmemo).2.imp fun r s' hs hr => ⟨h r.1 s' hs hr.1, hr.2⟩⟩

/-- A construction leaves what is remembered alone. -/
theorem lift (hQ : ∀ i j s s', s.Grown rounding s' → Q i j s → Q i j s') {x : Build R α}
    (hx : Ensures (Grown rounding) x s E P) : Yields rounding Q (StateT.lift x) s E P := by
  refine fun memo hmemo => ⟨rfl, hx.bind fun a s' hs ha => Ensures.pure ⟨ha, fun i j hij => ?_⟩⟩
  exact hQ i j s s' hs (hmemo i j hij)

theorem store_bind {f g : Store R → Transform R α} (h : Agree rounding Q (f s) (g s) s E P) :
    Agree rounding Q (store >>= f) (store >>= g) s E P :=
  h

theorem mapM {γ : Type} {f g : γ → Transform R β} {S : γ → β → Store R → Prop}
    (hP : ∀ c b s s', s.Grown rounding s' → S c b s → S c b s') :
    ∀ (xs : List γ) (s : Store R),
      (∀ c ∈ xs, ∀ s', s.Grown rounding s' → Agree rounding Q (f c) (g c) s' E (S c)) →
      Agree rounding Q (xs.mapM f) (xs.mapM g) s E
        fun bs s' => List.Forall₂ (fun c b => S c b s') xs bs
  | [], s, _ => by
    rw [List.mapM_nil, List.mapM_nil]
    exact pure .nil
  | c :: xs, s, h => by
    rw [List.mapM_cons, List.mapM_cons]
    refine (h c (by simp) s (refl_of _ s)).bind fun b s' hs hb => ?_
    refine (mapM hP xs s' fun d hd t ht => h d (by simp [hd]) t (trans_of _ hs ht)).bind
      fun bs t ht hbs => ?_
    exact pure (.cons (hP c b s' t ht hb) hbs)

/-- A node is transformed at its first request, and its form satisfies the relation. -/
theorem remember {i : NodeId} {x y : Transform R NodeId} (h : Agree rounding Q x y s E (Q i)) :
    Agree rounding Q (remember i x) (remember i y) s E (Q i) := by
  intro memo hmemo
  unfold Transform.remember
  simp only [StateT.run_bind, StateT.run_get, pure_bind]
  split
  · rename_i j hj
    exact ⟨rfl, Ensures.pure ⟨hmemo i j hj, hmemo⟩⟩
  · obtain ⟨hxy, hx⟩ := h memo hmemo
    simp only [StateT.run_bind]
    refine ⟨by rw [outcome_bind, outcome_bind, hxy], hx.bind fun r s' hs hr => ?_⟩
    refine Ensures.pure ⟨hr.1, fun k l hkl => ?_⟩
    rw [Std.TreeMap.getElem?_insert] at hkl
    split at hkl
    · rename_i heq
      rw [compare_eq_iff_eq] at heq
      obtain rfl : r.1 = l := by simpa using hkl
      exact heq ▸ hr.1
    · exact hr.2 k l hkl

/-- Nothing is remembered at first. -/
theorem run' (h : Agree rounding Q x y s E P) :
    outcome (y.run' {}) s = outcome (x.run' {}) s ∧ Ensures (Grown rounding) (x.run' {}) s E P := by
  obtain ⟨hxy, hx⟩ := h {} fun i j hij => by simp at hij
  refine ⟨?_, hx.map fun r s' _ hr => hr.1⟩
  rw [StateT.run'_eq, StateT.run'_eq, map_eq_pure_bind, map_eq_pure_bind, outcome_bind,
    outcome_bind, hxy]

end Agree

/-! ## Relations that rewriting keeps -/

/-- Both nodes exist in a well-typed store. -/
structure Both (rounding : Rounding R) (i j : NodeId) (s : Store R) : Prop where
  wellTyped : s.WellTyped rounding
  left_lt : i < s.nodes.size
  right_lt : j < s.nodes.size

namespace Both

variable {s' : Store R} {i j : NodeId}

theorem of_made (hs : s.WellTyped rounding) (hi : i < s.nodes.size) (hg : s.Grown rounding s')
    (hj : j < s'.nodes.size) : Both rounding i j s' :=
  ⟨hg.wellTyped hs, hi.trans_le hg.size_le, hj⟩

theorem of_grown (h : Both rounding i j s) (hg : s.Grown rounding s') : Both rounding i j s' :=
  of_made h.wellTyped h.left_lt hg (h.right_lt.trans_le hg.size_le)

end Both

/-- The relation lasts while the store grows, and a node made from related operands by the operator of
another node is related to it. The construction fails only as `E` allows. -/
structure Relates (rounding : Rounding R) (E : ConstructionError → Prop)
    (Q : NodeId → NodeId → Store R → Prop) : Prop where
  of_grown : ∀ i j s s', s.Grown rounding s' → Q i j s → Q i j s'
  lt : ∀ i j s, Q i j s → j < s.nodes.size
  arith {s i op xs ys} : s.WellTyped rounding → i < s.nodes.size → s.kind i = .arith op xs →
    List.Forall₂ (fun x y => Q x y s) xs ys →
    Ensures (Grown rounding) (arithmetic op (ys.map .node)) s E (Q i)

/-- Nodes of this kind are left as they are when case tables are resolved. -/
def Kept : NodeKind R → Prop
  | .cases _ _ | .arith _ _ | .select _ _ => False
  | _ => True

/-- The relation is kept when case tables are resolved by a setting. -/
structure Resolves (rounding : Rounding R) (E : ConstructionError → Prop)
    (setting : SignalId → Option Bool) (Q : NodeId → NodeId → Store R → Prop) : Prop
    extends Relates rounding E Q where
  kept {s i} : s.WellTyped rounding → i < s.nodes.size → Kept (s.kind i) → Q i i s
  select {s i xs ys a} : s.WellTyped rounding → i < s.nodes.size → s.kind i = .select xs a →
    List.Forall₂ (fun x y => Q x y s) xs ys →
    Ensures (Grown rounding) (array (ys.map .node) (.node a)) s E (Q i)
  table {s i xs ys selectors} : s.WellTyped rounding → i < s.nodes.size →
    s.kind i = .cases xs selectors → selectors.mapM setting = none →
    List.Forall₂ (fun x y => Q x y s) xs ys →
    Ensures (Grown rounding) (eqnCase (ys.map .node) selectors) s E (Q i)
  case {s i xs selectors bits c j} : s.WellTyped rounding → i < s.nodes.size →
    s.kind i = .cases xs selectors → selectors.mapM setting = some bits →
    xs[address bits]? = some c → Q c j s → Q i j s

/-- Nodes that are related to others are operands, if the relation says that they exist. -/
theorem valid_of_forall₂ {q : NodeId → NodeId → Prop} {xs ys : List NodeId}
    (h : List.Forall₂ q xs ys) (hq : ∀ i j, q i j → j < s.nodes.size) :
    ∀ o ∈ ys.map Operand.node, o.Valid s := by
  intro o ho
  obtain ⟨y, hy, rfl⟩ := List.mem_map.1 ho
  obtain ⟨x, -, hxy⟩ := forall₂_exists_left h y hy
  exact hq x y hxy

/-- A node keeps its kind when the store grows. -/
theorem kind_of_grown {s s' : Store R} (h : s.Grown rounding s') {i : NodeId}
    (hi : i < s.nodes.size) {kind : NodeKind R} (hk : s.kind i = kind) :
    i < s'.nodes.size ∧ s'.kind i = kind :=
  ⟨hi.trans_le h.size_le, (h.toExtends.kind_eq hi).trans hk⟩

theorem address_concat (bits : List Bool) (b : Bool) :
    address (bits ++ [b]) = 2 * address bits + b.toNat := by
  simp [address]

theorem address_lt (bits : List Bool) : address bits < 2 ^ bits.length := by
  induction bits using List.reverseRecOn with
  | nil => decide
  | append_singleton bits b ih =>
    have hb := b.toNat_le
    rw [address_concat, List.length_append, List.length_singleton, Nat.pow_succ]
    omega

/-- Bits that agree with a setting are those that it gives. -/
theorem map_bit_eq {bit : SignalId → Bool} (hbit : ∀ x b, setting x = some b → bit x = b)
    {selectors : List SignalId} {bits : List Bool} (h : selectors.mapM setting = some bits) :
    selectors.map bit = bits := by
  induction selectors generalizing bits with
  | nil =>
    cases h
    rfl
  | cons x selectors ih =>
    rw [List.mapM_cons] at h
    obtain ⟨b, hb, h⟩ := Option.bind_eq_some_iff.1 h
    obtain ⟨bs, hbs, h⟩ := Option.bind_eq_some_iff.1 h
    cases h
    rw [List.map_cons, hbit x b hb, ih hbs]

/-- A table has a case for the setting of its selectors. -/
theorem exists_case (hs : s.WellTyped rounding) {i : NodeId} (hi : i < s.nodes.size)
    {xs : List NodeId} {selectors : List SignalId} (hk : s.kind i = .cases xs selectors)
    {bits : List Bool} (h : bits.length = selectors.length) : ∃ c, xs[address bits]? = some c := by
  have ht := hs.typed i hi
  rw [hk] at ht
  cases ht with
  | cases _ _ _ hlength =>
    refine ⟨_, List.getElem?_eq_getElem ?_⟩
    rw [hlength, ← h]
    exact address_lt bits

theorem resolve_yields (hQ : Resolves rounding E setting Q) (i : NodeId) :
    ∀ s : Store R, s.WellTyped rounding → i < s.nodes.size →
      Yields rounding Q (resolve setting i) s E (Q i) := by
  induction i using Nat.strong_induction_on with
  | h i ih =>
    intro s hs hi
    rw [resolve]
    refine .remember (.store_bind ?_)
    have hbelow : ∀ j < i, ∀ s' : Store R, s.Grown rounding s' →
        Yields rounding Q (if _h : j < i then resolve setting j else pure j) s' E (Q j) := by
      intro j hj s' hs'
      rw [dif_pos hj]
      exact ih j hj s' (hs'.wellTyped hs) ((hj.trans hi).trans_le hs'.size_le)
    have hoperands : ∀ xs : List NodeId, (∀ x ∈ xs, x ∈ s.children i) →
        Yields rounding Q
          (xs.mapM fun j => if _h : j < i then resolve setting j else pure j) s E
          fun ys s' => List.Forall₂ (fun x y => Q x y s') xs ys := fun xs hxs =>
      .mapM hQ.of_grown xs s fun j hj s' hs' => hbelow j (hs.below i hi j (hxs j hj)) s' hs'
    split
    · rename_i cases selectors hk
      have hcases : ∀ x ∈ cases, x ∈ s.children i := by
        intro x hx
        simp [children, hk, operands, hx]
      split
      · rename_i bits hbits
        have hmap : selectors.map (fun x => (setting x).getD false) = bits :=
          map_bit_eq (fun x b hb => by rw [hb, Option.getD_some]) hbits
        have hlength : bits.length = selectors.length := by rw [← hmap, List.length_map]
        obtain ⟨c, hget⟩ := exists_case hs hi hk hlength
        rw [List.getD_eq_getElem?_getD, hget]
        have hc := hs.below i hi c (hcases c (List.mem_of_getElem? hget))
        refine (hbelow c hc s (refl_of _ s)).imp fun j s' hs' hj => ?_
        obtain ⟨hi', hk'⟩ := kind_of_grown hs' hi hk
        exact hQ.case (hs'.wellTyped hs) hi' hk' hbits hget hj
      · rename_i hnone
        refine (hoperands cases hcases).bind fun ys s' hs' hys => ?_
        obtain ⟨hi', hk'⟩ := kind_of_grown hs' hi hk
        exact .lift hQ.of_grown (hQ.table (hs'.wellTyped hs) hi' hk' hnone hys)
    · rename_i op xs hk
      refine (hoperands xs fun x hx => by simpa [children, hk, operands] using hx).bind
        fun ys s' hs' hys => ?_
      obtain ⟨hi', hk'⟩ := kind_of_grown hs' hi hk
      exact .lift hQ.of_grown (hQ.arith (hs'.wellTyped hs) hi' hk' hys)
    · rename_i elements a hk
      refine (hoperands elements fun x hx => by simp [children, hk, operands, hx]).bind
        fun ys s' hs' hys => ?_
      obtain ⟨hi', hk'⟩ := kind_of_grown hs' hi hk
      exact .lift hQ.of_grown (hQ.select (hs'.wellTyped hs) hi' hk' hys)
    · rename_i hcases harith hselect
      refine .pure (hQ.kept hs hi ?_)
      unfold Kept
      split
      · exact hcases _ _ ‹_›
      · exact harith _ _ ‹_›
      · exact hselect _ _ ‹_›
      · trivial

/-! ## Growth -/

/-- The node exists. -/
def Exists (_ j : NodeId) (s : Store R) : Prop := j < s.nodes.size

theorem relates_exists : Relates (R := R) rounding (fun _ => True) Exists where
  of_grown _ _ _ _ h hj := hj.trans_le h.size_le
  lt _ _ _ h := h
  arith := by
    intro s i op xs ys hs hi hk hys
    exact arithmetic_makes hs op (valid_of_forall₂ hys fun _ _ h => h)

theorem resolves_exists (setting : SignalId → Option Bool) :
    Resolves (R := R) rounding (fun _ => True) setting Exists where
  toRelates := relates_exists
  kept _ h _ := h
  select := by
    intro s i xs ys a hs hi hk hys
    have ha : a < i := hs.below i hi a (by simp [children, hk, operands])
    exact array_makes hs (valid_of_forall₂ hys fun _ _ h => h) (ha.trans hi : Operand.Valid s (.node a))
  table := by
    intro s i xs ys selectors hs hi hk _ hys
    exact eqnCase_makes hs (valid_of_forall₂ hys fun _ _ h => h) (hs.selector_lt hi hk)
  case := fun _ _ _ _ _ h => h

end Transform

namespace Build

open Store

variable {rounding : Rounding R} {s : Store R} {E : ConstructionError → Prop}
  {Q : NodeId → NodeId → Store R → Prop}

theorem resolveCases_ensures (hQ : Transform.Resolves rounding E setting Q)
    (hs : s.WellTyped rounding) {i : NodeId} (hi : i < s.nodes.size) :
    Ensures (Grown rounding) (resolveCases setting i) s E (Q i) :=
  (Transform.resolve_yields hQ i s hs hi).run'.2

theorem resolveCases_makes (hs : s.WellTyped rounding) (setting : SignalId → Option Bool)
    {i : NodeId} (hi : i < s.nodes.size) : Makes rounding s (resolveCases setting i) :=
  resolveCases_ensures (Transform.resolves_exists setting) hs hi

end Build

end MixedSignal
