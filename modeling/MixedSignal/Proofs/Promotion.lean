import MixedSignal.Proofs.Typing

/-!
# Operands and their promotion

What the constructors do before they make a node: an operand becomes a node (`Operand.Stands`),
nodes are promoted to a common domain (`Store.Promotes`), and their formats are combined
(`Format.fold?`). Every step keeps the store well typed. Promotion to the largest domain does not
fail, and neither does the combination of formats of one domain.
-/

set_option linter.unusedSectionVars false

namespace MixedSignal

variable {R : Type} [Scalar R] {d : Domain} {nodes : List NodeId} {o : Operand R}

/-- The reals are the largest domain. -/
theorem Domain.rank_le_real (d : Domain) : d.rank ≤ Domain.real.rank := by
  cases d <;> decide

/-! ## Combining formats -/

namespace Format

/-- The operation combines the formats of one domain and stays in that domain. -/
structure KeepsDomain (f : Format R → Format R → Option (Format R)) : Prop where
  isSome : ∀ a b, a.domain = b.domain → ∃ c, f a b = some c
  domain_eq : ∀ a b c, f a b = some c → a.domain = b.domain ∧ c.domain = a.domain

theorem domain_int_eq_iff {a b : IntFormat} :
    (Format.int a : Format R).domain = (Format.int b : Format R).domain ↔
      a.signedness = b.signedness := by
  obtain ⟨sa, wa, ra⟩ := a
  obtain ⟨sb, wb, rb⟩ := b
  cases sa <;> cases sb <;> simp [domain, IntFormat.domain]

theorem int_domain_ne_real (f : IntFormat) : (Format.int f : Format R).domain ≠ .real := by
  obtain ⟨sg, w, r⟩ := f
  cases sg <;> simp [domain, IntFormat.domain]

/-- A format outside the real domain is that of an integer. -/
theorem exists_int_of_ne_real {f : Format R} (h : f.domain ≠ .real) : ∃ g, f = .int g := by
  cases f with
  | real => exact absurd rfl h
  | int g => exact ⟨g, rfl⟩

theorem exists_of_isBit {f : Format R} (h : f.isBit = true) : ∃ r, f = .int ⟨.unsigned, 1, r⟩ := by
  cases f with
  | real => simp [isBit] at h
  | int f =>
    obtain ⟨sg, w, r⟩ := f
    simp only [isBit, Bool.and_eq_true, beq_iff_eq] at h
    obtain ⟨rfl, rfl⟩ := h
    exact ⟨r, rfl⟩

/-- What two formats are combined to: reals with reals, and integers with integers of the same
signedness. -/
inductive Merges (real : RealFormat R → RealFormat R → RealFormat R)
    (int : IntFormat → IntFormat → IntFormat) : Format R → Format R → Format R → Prop
  | real (a b) : Merges real int (.real a) (.real b) (.real (real a b))
  | int {a b} (h : a.signedness = b.signedness) : Merges real int (.int a) (.int b) (.int (int a b))

theorem arithmetic?_eq_some {op : ArithOp} {a b c : Format R} :
    arithmetic? op a b = some c ↔ Merges (.arithmetic op) (.arithmetic op) a b c := by
  cases a <;> cases b <;> constructor <;> intro h
  all_goals try cases h
  · exact .real _ _
  · rfl
  · simp only [arithmetic?, IntFormat.arithmetic?, Option.map_eq_some_iff,
      Option.ite_none_right_eq_some, Option.some.injEq] at h
    obtain ⟨_, ⟨hs, rfl⟩, rfl⟩ := h
    exact .int hs
  · rename_i hs
    simp [arithmetic?, IntFormat.arithmetic?, hs]

theorem union?_eq_some {a b c : Format R} : union? a b = some c ↔
    Merges (fun a b => ⟨.largest [a.bound, b.bound], none, none⟩) .union a b c := by
  cases a <;> cases b <;> constructor <;> intro h
  all_goals try cases h
  · exact .real _ _
  · rfl
  · simp only [union?, IntFormat.union?, Option.map_eq_some_iff, Option.ite_none_right_eq_some,
      Option.some.injEq] at h
    obtain ⟨_, ⟨hs, rfl⟩, rfl⟩ := h
    exact .int hs
  · rename_i hs
    simp [union?, IntFormat.union?, hs]

variable {f : Format R → Format R → Option (Format R)}

theorem keepsDomain_of_merges {real : RealFormat R → RealFormat R → RealFormat R}
    {int : IntFormat → IntFormat → IntFormat} (hf : ∀ a b c, f a b = some c ↔ Merges real int a b c)
    (hint : ∀ a b, (int a b).signedness = a.signedness) : KeepsDomain f where
  isSome a b h := by
    cases a with
    | real a =>
      cases b with
      | real b => exact ⟨_, (hf _ _ _).2 (.real a b)⟩
      | int b => exact absurd h.symm (int_domain_ne_real b)
    | int a =>
      cases b with
      | real b => exact absurd h (int_domain_ne_real a)
      | int b => exact ⟨_, (hf _ _ _).2 (.int (domain_int_eq_iff.1 h))⟩
  domain_eq a b c h := by
    cases (hf a b c).1 h with
    | real => exact ⟨rfl, rfl⟩
    | int hs => exact ⟨domain_int_eq_iff.2 hs, domain_int_eq_iff.2 (hint _ _)⟩

theorem arithmetic?_keepsDomain (op : ArithOp) : KeepsDomain (arithmetic? (R := R) op) :=
  keepsDomain_of_merges (fun _ _ _ => arithmetic?_eq_some) fun _ _ =>
    IntFormat.arithmetic_signedness op

theorem union?_keepsDomain : KeepsDomain (union? (R := R)) :=
  keepsDomain_of_merges (fun _ _ _ => union?_eq_some) fun _ _ => IntFormat.union_signedness

/-- What relates the accumulated format and value, and is kept by each step, relates the results. -/
theorem foldlM_rel {α β : Type} {P : Format R → α → Prop} {Q : Format R → β → Prop} {g : α → β → α}
    (hstep : ∀ a b c, f a b = some c → ∀ x y, P a x → Q b y → P c (g x y)) {fs : List (Format R)}
    {ys : List β} (hys : List.Forall₂ Q fs ys) {a c : Format R} (h : fs.foldlM f a = some c) {x : α}
    (hx : P a x) : P c (ys.foldl g x) := by
  induction hys generalizing a x with
  | nil =>
    cases h
    exact hx
  | cons hy _ ih =>
    rw [List.foldlM_cons] at h
    obtain ⟨b, hb, hc⟩ := Option.bind_eq_some_iff.1 h
    exact ih hc (hstep a _ b hb x _ hx hy)

/-- What all formats have, the result has, and what each step keeps of either format, the result has
if one of them does. -/
theorem fold?_spec {G P : Format R → Prop}
    (hstep : ∀ a b c, f a b = some c → G a → G b → G c ∧ (P a ∨ P b → P c))
    {fs : List (Format R)} {c : Format R} (h : fold? f fs = some c) (hfs : ∀ x ∈ fs, G x) :
    G c ∧ ((∃ x ∈ fs, P x) → P c) := by
  cases fs with
  | nil => cases h
  | cons a fs =>
    change fs.foldlM f a = some c at h
    induction fs generalizing a with
    | nil =>
      cases h
      simpa using hfs
    | cons b fs ih =>
      rw [List.foldlM_cons] at h
      obtain ⟨d, hd, hc⟩ := Option.bind_eq_some_iff.1 h
      obtain ⟨hgood, hP⟩ := hstep a b d hd (hfs a (by simp)) (hfs b (by simp))
      refine (ih d ?_ hc).imp_right fun hrest hone => hrest ?_
      · exact List.forall_mem_cons.2 ⟨hgood, fun x hx => hfs x (by simp [hx])⟩
      · simp only [List.mem_cons, exists_eq_or_imp] at hone ⊢
        exact (or_assoc.2 hone).imp_left hP

/-- Formats that were combined have one domain, and so has the result. -/
theorem fold?_domain_eq (hf : KeepsDomain f) {xs : List (Format R)} {g : Format R}
    (h : fold? f xs = some g) : ∀ x ∈ xs, x.domain = g.domain := fun x hx => by
  refine ((fold?_spec (G := fun _ => True) (P := (x.domain = ·.domain)) ?_ h (by simp)).2
    ⟨x, hx, rfl⟩)
  intro a b c hc _ _
  obtain ⟨hab, hca⟩ := hf.domain_eq a b c hc
  simp [hca, hab]

theorem foldlM_isSome (hf : KeepsDomain f) :
    ∀ (xs : List (Format R)) (a : Format R), (∀ x ∈ xs, x.domain = a.domain) →
      ∃ g, xs.foldlM f a = some g
  | [], a, _ => ⟨a, rfl⟩
  | x :: xs, a, h => by
    obtain ⟨b, hb⟩ := hf.isSome a x (h x (by simp)).symm
    obtain ⟨-, hd⟩ := hf.domain_eq a x b hb
    obtain ⟨g, hg⟩ := foldlM_isSome hf xs b fun y hy => (h y (by simp [hy])).trans hd.symm
    exact ⟨g, by rw [List.foldlM_cons, hb]; exact hg⟩

/-- Formats of one domain can be combined. -/
theorem fold?_isSome (hf : KeepsDomain f) {xs : List (Format R)} (hne : xs ≠ [])
    (h : ∀ x ∈ xs, x.domain = d) : ∃ g, fold? f xs = some g := by
  cases xs with
  | nil => exact absurd rfl hne
  | cons a xs =>
    exact foldlM_isSome hf xs a fun x hx => (h x (by simp [hx])).trans (h a (by simp)).symm

end Format

/-! ## Operands -/

/-- The node or signal of the operand exists. -/
def Operand.Valid (s : Store R) : Operand R → Prop
  | .node i => i < s.nodes.size
  | .signal x => x < s.signals.size
  | .value _ => True

instance (s : Store R) : (o : Operand R) → Decidable (o.Valid s)
  | .node i => inferInstanceAs (Decidable (i < s.nodes.size))
  | .signal x => inferInstanceAs (Decidable (x < s.signals.size))
  | .value _ => inferInstanceAs (Decidable True)

/-- The node that an operand becomes. -/
def Operand.Stands (s : Store R) : Operand R → NodeId → Prop
  | .node i, j => j = i
  | .signal x, j => j = s.leaf x
  | .value v, j => s.node j = ⟨.const v, v.format⟩

namespace Store

variable {rounding : Rounding R} {s s' : Store R}

/-- The second node is the first one in a domain that is at least its own. -/
inductive Promotes (s : Store R) : Domain → NodeId → NodeId → Prop
  | same {i} : Promotes s (s.format i).domain i i
  | const {d i j v} (hrank : (s.format i).domain.rank < d.rank) (hv : s.const? i = some v)
    (hj : s.node j = ⟨.const (Build.constantIn v d).1, (Build.constantIn v d).2⟩) :
    Promotes s d i j
  | widen {i j f} (hi : s.format i = .int f) (hs : f.signedness = .unsigned)
    (hj : s.node j = ⟨.convert .uintToSint i, .int ⟨.signed, f.width + 1, f.range⟩⟩)
    (hv : s.const? i = none) : Promotes s .sint i j
  | toReal {i j k f} (hi : Promotes s .sint i k) (hk : s.format k = .int f)
    (hs : f.signedness = .signed)
    (hj : s.node j = ⟨.convert .sintToReal k,
      .ofMagnitude (Scalar.ofInt (max (f.range.lo.natAbs : Int) f.range.hi.natAbs))⟩)
    (hv : s.const? i = none) : Promotes s .real i j

/-- A node outside the real domain has an integer format of the signedness of its domain. -/
theorem exists_unsigned_of_domain {f : Format R} (h : f.domain = .uint) :
    ∃ g, f = .int g ∧ g.signedness = .unsigned := by
  cases f with
  | real => simp [Format.domain] at h
  | int g =>
    obtain ⟨sg, w, r⟩ := g
    cases sg <;> simp [Format.domain, IntFormat.domain] at h ⊢

theorem exists_signed_of_domain {f : Format R} (h : f.domain = .sint) :
    ∃ g, f = .int g ∧ g.signedness = .signed := by
  cases f with
  | real => simp [Format.domain] at h
  | int g =>
    obtain ⟨sg, w, r⟩ := g
    cases sg <;> simp [Format.domain, IntFormat.domain] at h ⊢

theorem domain_eq_sint {f : IntFormat} (h : f.signedness = .signed) :
    (Format.int f : Format R).domain = .sint := by
  simp [Format.domain, IntFormat.domain, h]

theorem domain_eq_uint {f : IntFormat} (h : f.signedness = .unsigned) :
    (Format.int f : Format R).domain = .uint := by
  simp [Format.domain, IntFormat.domain, h]

/-- A constant of a domain has that domain. An unsigned one is not negative. -/
theorem constantIn_domain {v : Value R} (h : d = .uint → ∃ k, v = .int k ∧ 0 ≤ k) :
    (Build.constantIn v d).2.domain = d := by
  cases d with
  | real => rfl
  | sint => exact domain_eq_sint (by simp)
  | uint =>
    obtain ⟨k, rfl, hk⟩ := h rfl
    refine domain_eq_uint ?_
    simp [not_lt.2 hk]

/-- A promoted node is in the domain it was promoted to. -/
theorem Promotes.domain_eq {i j : NodeId} (h : s.Promotes d i j) : (s.format j).domain = d := by
  cases h with
  | same => rfl
  | @const _ _ _ v hrank hv hj =>
    rw [format, hj]
    refine constantIn_domain ?_
    rintro rfl
    simp [Domain.rank] at hrank
  | widen hi hs hj =>
    rw [format, hj]
    rfl
  | toReal hi hk hs hj =>
    rw [format, hj]
    rfl

/-- A node that is in the domain already, or in a larger one, stays as it is. -/
theorem Promotes.eq_of_rank_le {i j : NodeId} (h : s.Promotes d i j)
    (hle : d.rank ≤ (s.format i).domain.rank) : j = i := by
  induction h with
  | same => rfl
  | const hrank => exact absurd hrank (not_lt.2 hle)
  | widen hi hs =>
    rw [hi, domain_eq_uint hs] at hle
    exact absurd hle (by decide)
  | toReal _ hk hs _ _ ih =>
    obtain rfl := ih (le_trans (by decide) hle)
    rw [hk, domain_eq_sint hs] at hle
    exact absurd hle (by decide)

end Store

namespace Build

open Store

variable {rounding : Rounding R} {s : Store R} {E : ConstructionError → Prop}

/-- A typed node is added with its kind and format. -/
theorem push_ensures {k : NodeKind R} {f : Format R} (ht : s.Typed rounding k f)
    (hop : ∀ j ∈ s.operands k, j < s.nodes.size) :
    Ensures (Grown rounding) (push k f) s E fun j s' => j < s'.nodes.size ∧ s'.node j = ⟨k, f⟩ := by
  have hrun : outcome (push k f) s = (.ok s.nodes.size, (s.push k f).2) := rfl
  refine Ensures.of_ok hrun (Grown.push (fun _ => ht) hop) ⟨?_, node_push_self k f⟩
  rw [push_size]
  exact Nat.lt_succ_self _

theorem typed_constant (v : Value R) : s.Typed rounding (.const v) v.format := by
  cases v with
  | real x => exact .real
  | int k =>
    refine .int fun h => ?_
    by_contra hk
    rw [if_pos (by omega)] at h
    simp at h

theorem typed_constantIn (v : Value R) (d : Domain) :
    s.Typed rounding (.const (constantIn v d).1) (constantIn v d).2 := by
  cases d with
  | real => exact .real
  | uint =>
    refine .int fun h => ?_
    by_contra hk
    rw [if_pos (Or.inr (by omega))] at h
    simp at h
  | sint =>
    refine .int fun h => ?_
    rw [if_pos (Or.inl rfl)] at h
    simp at h

theorem pushConstantIn_ensures (v : Value R) (d : Domain) :
    Ensures (Grown rounding) (pushConstantIn v d) s E fun j s' => j < s'.nodes.size ∧
      s'.node j = ⟨.const (constantIn v d).1, (constantIn v d).2⟩ :=
  push_ensures (typed_constantIn v d) (by simp [operands])

theorem operand_ensures (hs : s.WellTyped rounding) (ho : o.Valid s) :
    Ensures (Grown rounding) (operand o) s E fun j s' => j < s'.nodes.size ∧ o.Stands s' j := by
  cases o with
  | node i => exact Ensures.pure ⟨ho, rfl⟩
  | signal x => exact Ensures.get_bind (Ensures.pure ⟨hs.leaf_lt x ho, rfl⟩)
  | value v => exact push_ensures (typed_constant v) (by simp [operands])

theorem stands_of_grown {s s' : Store R} (h : s.Grown rounding s') {j : NodeId}
    (hj : j < s.nodes.size) (ho : o.Stands s j) : o.Stands s' j := by
  cases o with
  | node i => exact ho
  | signal x =>
    change j = s'.leaf x
    rw [leaf, h.leaves_eq]
    exact ho
  | value v => exact (h.node_eq j hj).trans ho

theorem valid_of_grown {s s' : Store R} (h : s.Grown rounding s') (ho : o.Valid s) :
    o.Valid s' := by
  cases o with
  | node i => exact ho.trans_le h.size_le
  | signal x =>
    change x < s'.signals.size
    rw [h.signals_eq]
    exact ho
  | value v => trivial

theorem operands_ensures (hs : s.WellTyped rounding) {os : List (Operand R)}
    (ho : ∀ o ∈ os, o.Valid s) :
    Ensures (Grown rounding) (os.mapM operand) s E fun is s' =>
      List.Forall₂ (fun o i => i < s'.nodes.size ∧ o.Stands s' i) os is := by
  refine Ensures.mapM (fun o i t t' h hi => ?_) os s fun o hmem t ht => ?_
  · exact ⟨hi.1.trans_le h.size_le, stands_of_grown h hi.1 hi.2⟩
  · exact operand_ensures (ht.wellTyped hs) (valid_of_grown ht (ho o hmem))

/-! ## Promotion -/

theorem requireInt_ensures (i : NodeId) (hE : (s.format i).domain = .real → ∀ e, E e) :
    Ensures (Grown rounding) (requireInt i) s E fun f s' => s' = s ∧ s.format i = .int f := by
  unfold requireInt
  refine Ensures.get_bind ?_
  split
  · rename_i f hf
    exact Ensures.pure ⟨rfl, hf⟩
  · rename_i f hf
    exact Ensures.throw (hE (by rw [hf]; rfl) _)

theorem requireInt_of_eq {i : NodeId} {f : IntFormat} (hf : s.format i = .int f) :
    Ensures (Grown rounding) (requireInt i) s E fun g s' => s' = s ∧ f = g := by
  unfold requireInt
  refine Ensures.get_bind ?_
  rw [hf]
  exact Ensures.pure ⟨rfl, rfl⟩

/-- A width is refused if it is too small, and never as one without values. -/
theorem checkWidth_ensures (conversion : Conversion) (width : Option Nat) (required : Nat)
    (hE : ∀ w e, width = some w → w < required → e ≠ .emptyFormat → E e) :
    Ensures (Grown rounding) (checkWidth conversion width required) s E
      fun w s' => s' = s ∧ required ≤ w ∧ w = width.getD required := by
  cases width with
  | none => exact Ensures.pure ⟨rfl, le_rfl, rfl⟩
  | some w =>
    unfold checkWidth
    simp only
    split
    · exact Ensures.pure ⟨rfl, ‹_›, rfl⟩
    · exact Ensures.throw (hE w _ rfl (by omega) (by simp))

theorem uintToSint_ensures {i : NodeId} (hi : i < s.nodes.size) {f : IntFormat}
    (hf : s.format i = .int f) (hu : f.signedness = .unsigned) (width : Option Nat)
    (hE : ∀ w e, width = some w → E e) :
    Ensures (Grown rounding) (uintToSint i width) s E fun j s' => j < s'.nodes.size ∧
      f.width + 1 ≤ width.getD (f.width + 1) ∧ s'.node j =
        ⟨.convert .uintToSint i, .int ⟨.signed, width.getD (f.width + 1), f.range⟩⟩ := by
  refine (requireInt_of_eq hf).bind fun g t _ hg => ?_
  obtain ⟨rfl, rfl⟩ := hg
  refine (checkWidth_ensures _ width _ fun w e hw _ _ => hE w e hw).bind fun w u _ hw => ?_
  obtain ⟨rfl, hle, rfl⟩ := hw
  exact (push_ensures (.uintToSint hf hu hle) (by simpa [operands] using hi)).imp
    fun j t _ hj => ⟨hj.1, hle, hj.2⟩

theorem sintToReal_ensures {i : NodeId} (hi : i < s.nodes.size) {f : IntFormat}
    (hf : s.format i = .int f) (hs : f.signedness = .signed) :
    Ensures (Grown rounding) (sintToReal i) s E fun j s' => j < s'.nodes.size ∧
      s'.node j = ⟨.convert .sintToReal i,
        .ofMagnitude (Scalar.ofInt (max (f.range.lo.natAbs : Int) f.range.hi.natAbs))⟩ := by
  unfold sintToReal
  refine Ensures.get_bind ?_
  simp only [hf]
  exact push_ensures (.sintToReal hf hs) (by simpa [operands] using hi)

theorem promotes_of_grown {s s' : Store R} (h : s.Grown rounding s') (hs : s.WellTyped rounding)
    {i j : NodeId} (hi : i < s.nodes.size) (hj : j < s.nodes.size) (hp : s.Promotes d i j) :
    s'.Promotes d i j := by
  have hext := h.toExtends
  induction hp with
  | same =>
    rw [← hext.format_eq hi]
    exact .same
  | const hrank hv hnode =>
    refine .const ?_ ?_ ((h.node_eq _ hj).trans hnode)
    · rw [hext.format_eq hi]
      exact hrank
    · rw [hext.const?_eq hi]
      exact hv
  | widen hf hu hnode hv =>
    exact .widen (by rw [hext.format_eq hi, hf]) hu ((h.node_eq _ hj).trans hnode)
      (by rw [hext.const?_eq hi, hv])
  | @toReal i j k f hik hk hsig hnode hv ih =>
    have hlt : k < s.nodes.size := by
      refine (hs.below j hj k ?_).trans hj
      rw [children, kind, hnode]
      simp [operands]
    exact .toReal (ih hi hlt) (by rw [hext.format_eq hlt, hk]) hsig ((h.node_eq _ hj).trans hnode)
      (by rw [hext.const?_eq hi, hv])

/-- A node is promoted to any domain that is at least its own. -/
theorem promote_ensures (hs : s.WellTyped rounding) {i : NodeId} (hi : i < s.nodes.size)
    (hE : d.rank < (s.format i).domain.rank → ∀ e, E e) :
    Ensures (Grown rounding) (promote i d) s E fun j s' => j < s'.nodes.size ∧
      s'.Promotes d i j := by
  unfold promote
  refine Ensures.get_bind ?_
  simp only
  split
  · rename_i hd
    subst hd
    exact Ensures.pure ⟨hi, .same⟩
  rename_i hne
  split
  · rename_i hrank
    exact Ensures.throw (hE hrank _)
  rename_i hrank
  have hlt : (s.format i).domain.rank < d.rank := by
    revert hne hrank
    cases (s.format i).domain <;> cases d <;> simp [Domain.rank]
  refine Ensures.get_bind ?_
  cases hv : s.const? i with
  | some v =>
    simp only
    refine (pushConstantIn_ensures v d).imp fun j t ht hj => ⟨hj.1, ?_⟩
    have hext := ht.toExtends
    exact .const (by rw [hext.format_eq hi]; exact hlt) (by rw [hext.const?_eq hi, hv]) hj.2
  | none =>
    simp only
    -- first to the signed domain, then on to the reals
    have hsint : ∀ k t, s.Grown rounding t → k < t.nodes.size ∧ t.Promotes .sint i k →
        Ensures (Grown rounding) (if d = .real then sintToReal k else pure k) t E
          fun j s' => j < s'.nodes.size ∧ s'.Promotes d i j := by
      intro k t ht hk
      split
      · rename_i hreal
        subst hreal
        obtain ⟨f, hf, hsg⟩ := exists_signed_of_domain hk.2.domain_eq
        refine (sintToReal_ensures hk.1 hf hsg).imp fun j u hu hj => ⟨hj.1, ?_⟩
        refine .toReal (promotes_of_grown hu (ht.wellTyped hs) (hi.trans_le ht.size_le) hk.1 hk.2)
          ?_ hsg hj.2 ?_
        · rw [hu.toExtends.format_eq hk.1, hf]
        · rw [(trans_of (Grown rounding) ht hu).toExtends.const?_eq hi, hv]
      · rename_i hreal
        have hd : d = .sint := by
          revert hlt hreal
          cases (s.format i).domain <;> cases d <;> simp [Domain.rank]
        subst hd
        exact Ensures.pure hk
    split
    · rename_i hu
      obtain ⟨f, hf, hsg⟩ := exists_unsigned_of_domain hu
      refine (uintToSint_ensures hi hf hsg none (by simp)).bind fun k t ht hk =>
        hsint k t ht ⟨hk.1, ?_⟩
      exact .widen (by rw [ht.toExtends.format_eq hi, hf]) hsg hk.2.2
        (by rw [ht.toExtends.const?_eq hi, hv])
    · rename_i hu
      have hd : (s.format i).domain = .sint := by
        revert hlt hu
        cases (s.format i).domain <;> cases d <;> simp [Domain.rank]
      refine hsint i s (refl_of _ s) ⟨hi, ?_⟩
      rw [← hd]
      exact .same

/-- The largest domain of some nodes is at least that of each. -/
theorem rank_le_commonDomain {i : NodeId} (hi : i ∈ nodes) :
    (s.format i).domain.rank ≤ (commonDomain s nodes).rank := by
  have hfold : ∀ (xs : List NodeId) (d : Domain),
      d.rank ≤ (xs.foldl (fun d i => d.join (s.format i).domain) d).rank ∧
        ∀ x ∈ xs, (s.format x).domain.rank ≤
          (xs.foldl (fun d i => d.join (s.format i).domain) d).rank := by
    intro xs
    induction xs with
    | nil => simp
    | cons x xs ih =>
      intro d
      obtain ⟨h1, h2⟩ := ih (d.join (s.format x).domain)
      have hl : d.rank ≤ (d.join (s.format x).domain).rank := by
        unfold Domain.join
        split <;> omega
      have hr : (s.format x).domain.rank ≤ (d.join (s.format x).domain).rank := by
        unfold Domain.join
        split <;> omega
      refine ⟨hl.trans h1, fun y hy => ?_⟩
      rcases List.mem_cons.1 hy with rfl | hy
      · exact hr.trans h1
      · exact h2 y hy
  exact (hfold nodes .uint).2 i hi

/-- The largest domain of nodes of one domain is that domain. -/
theorem commonDomain_eq (hne : nodes ≠ []) (h : ∀ i ∈ nodes, (s.format i).domain = d) :
    commonDomain s nodes = d := by
  have hself : d.join d = d := by
    cases d <;> decide
  have huint : Domain.uint.join d = d := by
    cases d <;> decide
  cases nodes with
  | nil => exact absurd rfl hne
  | cons i nodes =>
    change nodes.foldl _ (Domain.uint.join (s.format i).domain) = d
    rw [h i (by simp), huint]
    replace h : ∀ j ∈ nodes, (s.format j).domain = d := fun j hj => h j (by simp [hj])
    clear hne huint
    induction nodes with
    | nil => rfl
    | cons j nodes ih =>
      rw [List.foldl_cons, h j (by simp), hself]
      exact ih fun k hk => h k (by simp [hk])

/-- Nodes that are no reals have no real domain in common. -/
theorem commonDomain_ne_real (h : ∀ i ∈ nodes, (s.format i).domain ≠ .real) :
    commonDomain s nodes ≠ .real := by
  have hfold : ∀ (xs : List NodeId) (d : Domain), d ≠ .real →
      (∀ x ∈ xs, (s.format x).domain ≠ .real) →
      xs.foldl (fun d i => d.join (s.format i).domain) d ≠ .real := by
    intro xs
    induction xs with
    | nil => simp
    | cons x xs ih =>
      intro d hd hxs
      refine ih _ ?_ fun y hy => hxs y (by simp [hy])
      change d.join (s.format x).domain ≠ .real
      unfold Domain.join
      split
      · exact hxs x (by simp)
      · exact hd
  exact hfold nodes .uint (by simp) h

theorem promoted_ensures (hs : s.WellTyped rounding) (hn : ∀ i ∈ nodes, i < s.nodes.size)
    (hd : ∀ i ∈ nodes, (s.format i).domain.rank ≤ d.rank) :
    Ensures (Grown rounding) (nodes.mapM (promote · d)) s E fun js s' =>
      List.Forall₂ (fun i j => j < s'.nodes.size ∧ s'.Promotes d i j) nodes js := by
  have hrun := Ensures.mapM (G := Grown rounding) (E := E) (f := (promote · d))
    (Q := fun i j t => s.Grown rounding t ∧ i < s.nodes.size ∧ j < t.nodes.size ∧ t.Promotes d i j)
    ?_ nodes s ?_
  · refine hrun.imp fun js t _ hjs => hjs.imp fun i j h => h.2.2
  · rintro i j t t' ht ⟨hst, hi, hj, hp⟩
    exact ⟨trans_of _ hst ht, hi, hj.trans_le ht.size_le,
      promotes_of_grown ht (hst.wellTyped hs) (hi.trans_le hst.size_le) hj hp⟩
  · intro i hi t ht
    have hlt := hn i hi
    refine (promote_ensures (ht.wellTyped hs) (hlt.trans_le ht.size_le) fun h => ?_).imp
      fun j u hu hj => ⟨trans_of _ ht hu, hlt, hj.1, hj.2⟩
    rw [ht.toExtends.format_eq hlt] at h
    have := hd i hi
    omega

/-! ## Formats of several nodes -/

theorem foldFormats_ensures (f : Format R → Format R → Option (Format R)) (nodes : List NodeId)
    (hE : Format.fold? f (nodes.map s.format) = none → ∀ e, E e) :
    Ensures (Grown rounding) (foldFormats f nodes) s E fun g s' =>
      s' = s ∧ Format.fold? f (nodes.map s.format) = some g := by
  cases nodes with
  | nil => exact Ensures.throw (hE rfl _)
  | cons i rest =>
    refine Ensures.get_bind ?_
    change (rest.map s.format).foldlM f (s.format i) = none → _ at hE
    change Ensures _ _ _ _ fun g s' => s' = s ∧ (rest.map s.format).foldlM f (s.format i) = some g
    generalize s.format i = a at hE ⊢
    induction rest generalizing a with
    | nil => exact Ensures.pure ⟨rfl, rfl⟩
    | cons j rest ih =>
      rw [List.foldlM_cons]
      rw [List.map_cons, List.foldlM_cons] at hE ⊢
      cases hb : f a (s.format j) with
      | none =>
        rw [hb] at hE
        exact (Ensures.throw (hE rfl _)).bind (P := fun _ _ => False) fun _ _ _ h => h.elim
      | some b =>
        rw [hb] at hE
        exact (Ensures.pure (P := fun c t => c = b ∧ t = s) ⟨rfl, rfl⟩).bind
          fun c t _ h => by
            obtain ⟨rfl, rfl⟩ := h
            exact ih _ hE

end Build

end MixedSignal
