import MixedSignal.Proofs.Operators

/-!
# What the constructors make

Every constructor adds typed nodes to the store and returns one of its nodes, or fails and leaves
only typed nodes behind (`Build.Makes`).
-/

namespace MixedSignal.Build

open Store

variable {R : Type} [Scalar R] {rounding : Rounding R} {s : Store R} {E : ConstructionError → Prop}
  {i j : NodeId}

/-- A construction returns a node of a store that it has grown, if it does not fail. -/
def Makes (rounding : Rounding R) (s : Store R) (x : Build R NodeId) : Prop :=
  Ensures (Grown rounding) x s (fun _ => True) fun j s' => j < s'.nodes.size

theorem Makes.of_ensures {x : Build R NodeId} {P : NodeId → Store R → Prop}
    (h : Ensures (Grown rounding) x s E fun j s' => j < s'.nodes.size ∧ P j s') :
    Makes rounding s x :=
  h.mono (fun _ => id) (fun _ _ => trivial) fun _ _ _ hj => hj.1

/-- The store has grown also where nobody asks for the node. -/
theorem Makes.discard {x : Build R NodeId} (h : Makes rounding s x) :
    Ensures (Grown rounding) (Functor.discard x) s (fun _ => True) fun _ _ => True :=
  h.map fun _ _ _ _ => trivial

section

variable (hs : s.WellTyped rounding)
include hs

theorem arithmetic_makes (op : ArithOp) {os : List (Operand R)} (ho : ∀ o ∈ os, o.Valid s) :
    Makes rounding s (arithmetic op os) :=
  .of_ensures (E := fun _ => True) (arithmetic_ensures hs ho fun _ _ _ => trivial)

theorem neg_makes {a : Operand R} (ha : a.Valid s) : Makes rounding s (neg a) :=
  arithmetic_makes hs .product (by simpa using ⟨trivial, ha⟩)

theorem sub_makes {a b : Operand R} (ha : a.Valid s) (hb : b.Valid s) :
    Makes rounding s (sub a b) := by
  refine Ensures.bind (neg_makes hs hb) fun j t ht hj => ?_
  exact arithmetic_makes (ht.wellTyped hs) .sum (by simpa using ⟨valid_of_grown ht ha, hj⟩)

theorem clamp_makes {a lo hi : Operand R} (ha : a.Valid s) (hlo : lo.Valid s) (hhi : hi.Valid s) :
    Makes rounding s (clamp a lo hi) := by
  refine Ensures.bind (arithmetic_makes hs .min (by simpa using ⟨ha, hhi⟩)) fun j t ht hj => ?_
  exact arithmetic_makes (ht.wellTyped hs) .max (by simpa using ⟨hj, valid_of_grown ht hlo⟩)

end

/-! ## Bits -/

/-- The format of the node that an operand becomes. -/
def operandFormat (s : Store R) : Operand R → Format R
  | .node i => s.format i
  | .signal x => (s.signal x).format
  | .value v => v.format

theorem format_of_stands (hs : s.WellTyped rounding) {o : Operand R} (ho : o.Valid s) {s' : Store R}
    (h : s.Grown rounding s') (hj : o.Stands s' j) : s'.format j = operandFormat s o := by
  cases o with
  | node i =>
    obtain rfl : j = i := hj
    exact h.toExtends.format_eq ho
  | signal x =>
    obtain rfl : j = s'.leaf x := hj
    rw [h.toExtends.leaf_eq x ho, h.toExtends.format_eq (hs.leaf_lt x ho), hs.leaf_format ho]
    rfl
  | value v =>
    rw [format, hj]
    rfl

theorem requireUnsigned_ensures (i : NodeId) (hE : (∀ w, ¬s.Unsigned i w) → ∀ e, E e) :
    Ensures Eq (requireUnsigned i) s E fun w s' => s'.Unsigned i w := by
  unfold requireUnsigned
  refine Ensures.get_bind ?_
  split
  · rename_i w r hf
    exact Ensures.pure ⟨r, hf⟩
  · rename_i hf
    exact Ensures.throw (hE (fun w ⟨r, hr⟩ => hf w r hr) _)

theorem requireUnsigned_mapM_ensures (is : List NodeId)
    (hE : (∃ i ∈ is, ∀ w, ¬s.Unsigned i w) → ∀ e, E e) :
    Ensures (Grown rounding) (is.mapM requireUnsigned) s E fun ws s' =>
      s' = s ∧ List.Forall₂ s.Unsigned is ws := by
  refine Ensures.of_kept (Ensures.mapM (Q := fun i w (t : Store R) => t.Unsigned i w) ?_ is s ?_)
  · rintro i w t _ rfl h
    exact h
  · rintro i hi _ rfl
    exact requireUnsigned_ensures i fun h => hE ⟨i, hi, h⟩

section

variable (hs : s.WellTyped rounding)
include hs

/-- A construction from unsigned operands that is none for a single one. It fails only if there are
none, or if one is not unsigned. -/
theorem unsigned_ensures {os : List (Operand R)} (ho : ∀ o ∈ os, o.Valid s) {text : String}
    {kind : List NodeId → NodeKind R} {f : List Nat → Format R}
    (hop : ∀ t : Store R, ∀ is, t.operands (kind is) = is)
    (ht : ∀ (t : Store R) is ws, List.Forall₂ t.Unsigned is ws → 2 ≤ is.length →
      t.Typed rounding (kind is) (f ws))
    (hE : ¬(os ≠ [] ∧ ∀ o ∈ os, ∃ w r, operandFormat s o = .int ⟨.unsigned, w, r⟩) → ∀ e, E e) :
    Ensures (Grown rounding) (do
      let nodes ← os.mapM operand
      let widths ← nodes.mapM requireUnsigned
      match nodes with
      | [] => throw (.emptyOperands text)
      | [i] => return i
      | _ => push (kind nodes) (f widths)) s E fun j s' => j < s'.nodes.size ∧ ∃ is ws,
        List.Forall₂ (fun o i => i < s'.nodes.size ∧ o.Stands s' i) os is ∧
        List.Forall₂ s'.Unsigned is ws ∧ (is = [j] ∨ s'.node j = ⟨kind is, f ws⟩) := by
  refine (operands_ensures hs ho).bind fun is t hst his => ?_
  have hlt := forall₂_lt his
  refine (requireUnsigned_mapM_ensures is fun hno => hE ?_).bind fun ws u _ hu => ?_
  · rintro ⟨-, hall⟩
    obtain ⟨i, hi, hno⟩ := hno
    obtain ⟨o, hmem, -, hstands⟩ := forall₂_exists_left his i hi
    obtain ⟨w, r, hf⟩ := hall o hmem
    exact hno w ⟨r, (format_of_stands hs (ho o hmem) hst hstands).trans hf⟩
  obtain ⟨rfl, hws⟩ := hu
  split
  · refine Ensures.throw (hE ?_ _)
    cases his
    simp
  · exact Ensures.pure ⟨hlt _ (by simp), _, ws, his, hws, .inl rfl⟩
  · rename_i hne hone
    refine (push_ensures (ht u is ws hws ?_) (by rwa [hop])).imp fun j v hv hj => ?_
    · match is, hne, hone with
      | [], hne, _ => exact absurd rfl hne
      | [x], _, hone => exact absurd rfl (hone x)
      | _ :: _ :: _, _, _ => simp
    · exact ⟨hj.1, is, ws, forall₂_stands_of_grown hv his, hv.toExtends.forall₂_unsigned hlt hws,
        .inr hj.2⟩

theorem bitwise_makes (op : BitOp) {os : List (Operand R)} (ho : ∀ o ∈ os, o.Valid s) :
    Makes rounding s (bitwise op os) :=
  .of_ensures (E := fun _ => True) (unsigned_ensures hs ho (fun _ _ => rfl)
    (fun _ _ _ hws hlen => .bitwise hws hlen) fun _ _ => trivial)

theorem concatenate_ensures {os : List (Operand R)} (ho : ∀ o ∈ os, o.Valid s)
    (hE : ¬(os ≠ [] ∧ ∀ o ∈ os, ∃ w r, operandFormat s o = .int ⟨.unsigned, w, r⟩) → ∀ e, E e) :
    Ensures (Grown rounding) (concatenate os) s E fun j s' => j < s'.nodes.size ∧ ∃ is ws,
      List.Forall₂ (fun o i => i < s'.nodes.size ∧ o.Stands s' i) os is ∧
      List.Forall₂ s'.Unsigned is ws ∧
      (is = [j] ∨ s'.node j = ⟨.concat is, .uint (ws.foldl (· + ·) 0)⟩) :=
  unsigned_ensures hs ho (fun _ _ => rfl) (fun _ _ _ hws hlen => .concat hws hlen) hE

theorem concatenate_makes {os : List (Operand R)} (ho : ∀ o ∈ os, o.Valid s) :
    Makes rounding s (concatenate os) :=
  .of_ensures (E := fun _ => True) (concatenate_ensures hs ho fun _ _ => trivial)

theorem bitwiseNot_makes {a : Operand R} (ha : a.Valid s) : Makes rounding s (bitwiseNot a) := by
  refine (operand_ensures hs ha).bind fun i t _ hi => ?_
  refine (Ensures.of_kept (requireUnsigned_ensures i fun _ _ => trivial)).bind fun w u _ hu => ?_
  obtain ⟨rfl, hw⟩ := hu
  exact (push_ensures (.bitNot hw) (by simpa [operands] using hi.1)).imp fun j v _ hj => hj.1

theorem shift_makes (direction : ShiftDirection) {a : Operand R} (ha : a.Valid s) (amount : Nat) :
    Makes rounding s (shift direction a amount) := by
  refine (operand_ensures hs ha).bind fun i t _ hi => ?_
  refine (requireInt_ensures i fun _ _ => trivial).bind fun f u _ hf => ?_
  obtain ⟨rfl, hf⟩ := hf
  split
  · exact Ensures.pure hi.1
  · rename_i hne
    have hop : ∀ j ∈ u.operands (.shift direction i amount), j < u.nodes.size := by
      simpa [operands] using hi.1
    cases direction with
    | left => exact (push_ensures (.shiftLeft hf hne) hop).imp fun j v _ hj => hj.1
    | right => exact (push_ensures (.shiftRight hf hne) hop).imp fun j v _ hj => hj.1

/-- A slice fails only if the operand is no integer that has the bits. -/
theorem bitSlice_ensures {a : Operand R} (ha : a.Valid s) {msb lsb : Nat}
    (hE : ¬(∃ f, operandFormat s a = .int f ∧ lsb ≤ msb ∧ msb < f.width) → ∀ e, E e) :
    Ensures (Grown rounding) (bitSlice a msb lsb) s E fun j s' => j < s'.nodes.size ∧
      ∃ i < s'.nodes.size, a.Stands s' i ∧
        s'.node j = ⟨.slice i msb lsb, .uint (msb - lsb + 1)⟩ := by
  refine (operand_ensures hs ha).bind fun i t ht hi => ?_
  have hformat := format_of_stands hs ha ht hi.2
  refine (requireInt_ensures i fun hreal => hE ?_).bind fun f u _ hf => ?_
  · rintro ⟨f, hf, -⟩
    rw [hformat, hf] at hreal
    exact Format.int_domain_ne_real _ hreal
  obtain ⟨rfl, hf⟩ := hf
  split
  · rename_i hbounds
    refine Ensures.throw (hE ?_ _)
    rintro ⟨g, hg, hle, hlt⟩
    rw [hformat, hg] at hf
    cases hf
    omega
  · rename_i hbounds
    simp only [not_or, not_lt, not_le] at hbounds
    refine (push_ensures (.slice hf hbounds.1 hbounds.2) (by simpa [operands] using hi.1)).imp
      fun j v hv hj => ⟨hj.1, i, hi.1.trans_le hv.size_le, stands_of_grown hv hi.1 hi.2, hj.2⟩

theorem bitSlice_makes {a : Operand R} (ha : a.Valid s) (msb lsb : Nat) :
    Makes rounding s (bitSlice a msb lsb) :=
  .of_ensures (E := fun _ => True) (bitSlice_ensures hs ha fun _ _ => trivial)

end

/-! ## Conversions -/

theorem resize_makes (hi : i < s.nodes.size) {f : IntFormat} (hf : s.format i = .int f)
    (width : Option Nat) : Makes rounding s (resize i f width) := by
  cases width with
  | none => exact Ensures.pure hi
  | some w =>
    unfold resize
    simp only
    split
    · exact Ensures.pure hi
    · rename_i hne
      refine (checkWidth_ensures _ _ _ (by simp)).bind fun w' t _ hw => ?_
      obtain ⟨rfl, hle, rfl⟩ := hw
      exact (push_ensures (.resize hf hne hle) (by simpa [operands] using hi)).imp
        fun j v _ hj => hj.1

/-- The format of a rounded real has the width that was asked for. Without one, it is as wide as the
bound asks. -/
theorem roundedFormat_ensures (width : Option Nat) (f : RealFormat R) :
    Ensures Eq (roundedFormat width f) s (fun _ => True) fun g _ =>
      Rounding.any f g ∧ (width ≠ none → Rounding.explicit f g) := by
  unfold roundedFormat
  split
  · rename_i w
    unfold fullSigned
    split
    · exact Ensures.throw trivial
    · rename_i hw
      have hexplicit : Rounding.explicit f (.full .signed w) := ⟨w, Nat.pos_of_ne_zero hw, rfl⟩
      exact Ensures.pure ⟨.inl hexplicit, fun _ => hexplicit⟩
  · rename_i b hb
    split
    · rename_i r hr
      exact Ensures.pure ⟨.inr ⟨b, r, hb, hr, rfl⟩, by simp⟩
    · exact Ensures.throw trivial
  · exact Ensures.throw trivial

/-- The rounding allows what a conversion of a format to the given width makes of it. -/
def Rounds (rounding : Rounding R) (f : Format R) (width : Option Nat) : Prop :=
  ∀ r g, f = .real r → Rounding.any r g → (width ≠ none → Rounding.explicit r g) → rounding r g

theorem nodeToSint_makes (hi : i < s.nodes.size) (width : Option Nat)
    (hr : Rounds rounding (s.format i) width) : Makes rounding s (nodeToSint i width) := by
  unfold nodeToSint
  refine Ensures.get_bind ?_
  split
  · rename_i f hf
    split
    · rename_i hsg
      exact Makes.of_ensures (uintToSint_ensures (E := fun _ => True) hi hf hsg width (by simp))
    · exact resize_makes hi hf width
  · rename_i f hf
    refine (Ensures.of_kept (roundedFormat_ensures width f)).bind fun g t _ hg => ?_
    obtain ⟨rfl, hg⟩ := hg
    exact (push_ensures (.realToSint hf (hr f g hf hg.1 hg.2)) (by simpa [operands] using hi)).imp
      fun j v _ hj => hj.1

theorem intToUint_makes (hi : i < s.nodes.size) {f : IntFormat} (hf : s.format i = .int f)
    (width : Option Nat) : Makes rounding s (intToUint i f width) := by
  have hop : ∀ j ∈ s.operands (.convert .sintToUint i), j < s.nodes.size := by
    simpa [operands] using hi
  unfold intToUint
  split
  · exact resize_makes hi hf width
  · rename_i hsg
    split
    · rename_i hlo
      split
      · refine (checkWidth_ensures _ _ _ (by simp)).bind fun w t _ hw => ?_
        obtain ⟨rfl, hle, -⟩ := hw
        have hpos : 0 < w ∧ bitLength f.range.hi.toNat ≤ w := by
          rw [bitLength_le_iff]
          split at hle
          · rename_i hhi
            refine ⟨?_, bitLength_le_iff.1 hle⟩
            by_contra hw
            have hlt := bitLength_le_iff.1 hle
            rw [Nat.eq_zero_of_not_pos hw, pow_zero] at hlt
            omega
          · have hzero : f.range.hi.toNat = 0 := by omega
            rw [hzero]
            exact ⟨hle, Nat.two_pow_pos w⟩
        exact (push_ensures (.sintToUint hf hsg hlo hpos.1 hpos.2) hop).imp fun j v _ hj => hj.1
      · exact Ensures.throw trivial
    · rename_i hlo
      refine (checkWidth_ensures _ _ _ (by simp)).bind fun w' t _ hw => ?_
      obtain ⟨rfl, hle, -⟩ := hw
      obtain ⟨w, -, heq⟩ : ∃ w, _ ∧ IntFormat.tightOrFull .unsigned f.range = ⟨_, w, f.range⟩ :=
        IntFormat.exists_tightOrFull_eq fun _ => not_lt.1 hlo
      rw [heq]
      refine (push_ensures (.sintToUintOfNonneg hf hsg (not_lt.1 hlo) ?_) hop).imp
        fun j v _ hj => hj.1
      exact hle

section

variable (hs : s.WellTyped rounding) {a : Operand R} (ha : a.Valid s)
include hs ha

theorem toSint_makes (width : Option Nat) (hr : Rounds rounding (operandFormat s a) width) :
    Makes rounding s (toSint a width) := by
  refine (operand_ensures hs ha).bind fun i t ht hi => nodeToSint_makes hi.1 width ?_
  rwa [format_of_stands hs ha ht hi.2]

theorem toUint_makes (width : Option Nat) (hr : Rounds rounding (operandFormat s a) width) :
    Makes rounding s (toUint a width) := by
  refine (operand_ensures hs ha).bind fun i t ht hi => ?_
  refine Ensures.get_bind ?_
  split
  · rename_i f hf
    exact intToUint_makes hi.1 hf width
  · rename_i f hf
    refine Ensures.bind (nodeToSint_makes hi.1 (width.map (· + 1)) ?_) fun j u _ hj => ?_
    · rw [format_of_stands hs ha ht hi.2]
      intro r g hrg hany hexplicit
      refine hr r g hrg hany fun hw => hexplicit ?_
      simpa using hw
    · refine (requireInt_ensures j fun _ _ => trivial).bind fun g v _ hg => ?_
      obtain ⟨rfl, hg⟩ := hg
      exact intToUint_makes hj hg width

theorem toReal_makes : Makes rounding s (toReal a) := by
  refine (operand_ensures hs ha).bind fun i t ht hi => ?_
  exact Makes.of_ensures
    (promote_ensures (E := fun _ => True) (ht.wellTyped hs) hi.1 fun _ _ => trivial)

end

/-! ## Selection -/

/-- The node that a selection becomes. -/
inductive Selects (s s' : Store R) (xs : List NodeId) (a : NodeId) (j : NodeId) : Prop
  | same (hj : xs.head? = some j) (h : allSame s j xs = true)
  | node {f} (hj : s'.node j = ⟨.select xs a, f⟩)

/-- A selection between operands by an address operand. -/
def SelectsOperand (rounding : Rounding R) (s s' : Store R) (os : List (Operand R)) (a : Operand R)
    (j : NodeId) : Prop :=
  ∃ u is js i w, s.Grown rounding u ∧ u.Grown rounding s' ∧ Promoted u os is js ∧
    i < u.nodes.size ∧ a.Stands u i ∧ u.Unsigned i w ∧ js.length = 2 ^ w ∧ Selects u s' js i j

theorem SelectsOperand.of_grown {s' s'' : Store R} {os : List (Operand R)} {a : Operand R}
    (h : SelectsOperand rounding s s' os a j) (hj : j < s'.nodes.size) (hg : s'.Grown rounding s'') :
    SelectsOperand rounding s s'' os a j := by
  obtain ⟨u, is, js, i, w, hsu, hus', hp, hi, hstands, hw, hlength, hsel⟩ := h
  refine ⟨u, is, js, i, w, hsu, trans_of _ hus' hg, hp, hi, hstands, hw, hlength, ?_⟩
  cases hsel with
  | same hhead hsame => exact .same hhead hsame
  | node hnode => exact .node ((hg.node_eq j hj).trans hnode)

/-- A selection by the node that an operand has become is one by the operand. -/
theorem SelectsOperand.of_stands {s' s'' : Store R} {os : List (Operand R)} {a : Operand R}
    (h : SelectsOperand rounding s' s'' os (.node i) j) (hg : s.Grown rounding s')
    (hi : i < s'.nodes.size) (hstands : a.Stands s' i) : SelectsOperand rounding s s'' os a j := by
  obtain ⟨u, is, js, _, w, hsu, hus', hp, hlt, rfl, hw, hlength, hsel⟩ := h
  exact ⟨u, is, js, _, w, trans_of _ hg hsu, hus', hp, hlt, stands_of_grown hsu hi hstands, hw,
    hlength, hsel⟩

/-- The address of a selection is unsigned, and there is an element for each address. -/
def Addresses (f : Format R) (count : Nat) : Prop :=
  ∃ w r, f = .int ⟨.unsigned, w, r⟩ ∧ w < 64 ∧ count = 2 ^ w

theorem addresses_of_isBit {f : Format R} (h : f.isBit = true) : Addresses f 2 := by
  obtain ⟨r, rfl⟩ := Format.exists_of_isBit h
  exact ⟨1, r, rfl, by decide, rfl⟩

/-- A selection fails only if the address and the number of elements do not go together. -/
theorem array_ensures (hs : s.WellTyped rounding) {os : List (Operand R)} {a : Operand R}
    (ho : ∀ o ∈ os, o.Valid s) (ha : a.Valid s)
    (hE : ¬Addresses (operandFormat s a) os.length → ∀ e, E e) :
    Ensures (Grown rounding) (array os a) s E fun j s' =>
      j < s'.nodes.size ∧ SelectsOperand rounding s s' os a j := by
  unfold array
  refine (operands_ensures hs ho).bind fun is t ht his => ?_
  refine (operand_ensures (ht.wellTyped hs) (valid_of_grown ht ha)).bind fun i t' ht' hi => ?_
  have hformat : t'.format i = operandFormat s a := format_of_stands hs ha (trans_of _ ht ht') hi.2
  refine (Ensures.of_kept (requireUnsigned_ensures i fun hnone => hE ?_)).bind fun w u _ hu => ?_
  · rintro ⟨w, r, hf, -⟩
    exact hnone w ⟨r, hformat.trans hf⟩
  obtain ⟨rfl, hw⟩ := hu
  have hsu := ht'.wellTyped (ht.wellTyped hs)
  have hstands := forall₂_stands_of_grown ht' his
  split
  · rename_i hlength
    rw [Nat.pow_eq] at hlength
    refine Ensures.throw (hE ?_ _)
    rintro ⟨w', r', hf, hlt, hcount⟩
    obtain ⟨r, hr⟩ := hw
    obtain ⟨rfl, -⟩ : w = w' ∧ r = r' := by simpa [hr] using hformat.trans hf
    rw [his.length_eq] at hcount
    omega
  rename_i hlength
  simp only [not_or, not_le, ne_eq, not_not, Nat.pow_eq] at hlength
  unfold promoteAll
  refine (Ensures.get_bind (promoteAll_ensures hsu hstands)).bind fun js v hv hjs => ?_
  refine Ensures.get_bind ?_
  have hi' : i < v.nodes.size := hi.1.trans_le hv.size_le
  have hw' : v.Unsigned i w := hv.toExtends.unsigned hi.1 hw
  have hlen : js.length = 2 ^ w := by
    rw [← hjs.promotes.length_eq, hlength.2]
  have hgrown : s.Grown rounding v := trans_of _ (trans_of _ ht ht') hv
  have hstand : a.Stands v i := stands_of_grown hv hi.1 hi.2
  split
  · have := Nat.two_pow_pos w
    simp at hlen
    omega
  rename_i first rest
  split
  · rename_i hsame
    exact Ensures.pure ⟨(hjs.domain_eq first (by simp)).1, v, is, _, i, w, hgrown, refl_of _ v, hjs,
      hi', hstand, hw', hlen, .same rfl hsame⟩
  · rename_i hsame
    obtain ⟨f, hf⟩ := Format.fold?_isSome (d := commonDomain v is) Format.union?_keepsDomain
      (List.cons_ne_nil (v.format first) (rest.map v.format)) fun f hf => by
        obtain ⟨j, hj, rfl⟩ := List.mem_map.1 (List.map_cons ▸ hf)
        exact (hjs.domain_eq j hj).2
    refine (foldFormats_ensures _ _ fun h => ?_).bind fun g x _ hg => ?_
    · rw [List.map_cons, hf] at h
      cases h
    obtain ⟨rfl, hg⟩ := hg
    have htyped : x.Typed rounding (.select (first :: rest) i) g :=
      .select hw' hlength.1 hlen (by simpa using hsame) hg
    refine (push_ensures htyped ?_).imp fun j y hy hj => ⟨hj.1, x, is, _, i, w, hgrown, hy, hjs,
      hi', hstand, hw', hlen, .node hj.2⟩
    intro k hk
    rcases List.mem_append.1 hk with hk | hk
    · exact (hjs.domain_eq k hk).1
    · obtain rfl := List.mem_singleton.1 hk
      exact hi'

theorem array_makes (hs : s.WellTyped rounding) {os : List (Operand R)} {a : Operand R}
    (ho : ∀ o ∈ os, o.Valid s) (ha : a.Valid s) : Makes rounding s (array os a) :=
  .of_ensures (E := fun _ => True) (array_ensures hs ho ha fun _ _ => trivial)

/-- A choice fails only if the condition is no bit or can be no address of two elements. -/
theorem ifElse_ensures (hs : s.WellTyped rounding) {c a b : Operand R} (hc : c.Valid s)
    (ha : a.Valid s) (hb : b.Valid s) (hE : (operandFormat s c).isBit = false → ∀ e, E e) :
    Ensures (Grown rounding) (ifElse c a b) s E fun j s' => j < s'.nodes.size ∧
      ∃ t i, s.Grown rounding t ∧ i < t.nodes.size ∧ c.Stands t i ∧
        SelectsOperand rounding t s' [b, a] (.node i) j := by
  refine (operand_ensures hs hc).bind fun i t ht hi => ?_
  refine Ensures.get_bind ?_
  have hformat : t.format i = operandFormat s c := format_of_stands hs hc ht hi.2
  simp only
  split
  · rename_i hbit
    have hvalid : ∀ o ∈ [b, a], o.Valid t := by
      simpa using ⟨valid_of_grown ht hb, valid_of_grown ht ha⟩
    refine (array_ensures (a := .node i) (ht.wellTyped hs) hvalid hi.1 fun h => ?_).imp
      fun j u _ hj => ⟨hj.1, t, i, ht, hi.1, hi.2, hj.2⟩
    exact absurd (addresses_of_isBit hbit) h
  · rename_i hbit
    refine Ensures.throw_bind (hE ?_ _)
    rw [← hformat]
    simpa using hbit

/-- The selectors of a case table are bits, and there is a case for each of their settings. -/
def IsTable (s : Store R) (selectors : List SignalId) (count : Nat) : Prop :=
  (∀ x ∈ selectors, (s.signal x).format.isBit = true) ∧ selectors.length < 64 ∧
    count = 2 ^ selectors.length

section

variable (hs : s.WellTyped rounding) {os : List (Operand R)} (ho : ∀ o ∈ os, o.Valid s)
  {selectors : List SignalId} (hsel : ∀ x ∈ selectors, x < s.signals.size)
include hs ho hsel

/-- The node of a case table holds the promoted cases. A table fails only if its cases and selectors
do not go together. -/
theorem eqnCase_ensures (hE : ¬IsTable s selectors os.length → ∀ e, E e) :
    Ensures (Grown rounding) (eqnCase os selectors) s E fun j s' =>
      j < s'.nodes.size ∧ ∃ u is js f, s.Grown rounding u ∧ u.Grown rounding s' ∧
        Promoted u os is js ∧ s'.node j = ⟨.cases js selectors, f⟩ := by
  refine (operands_ensures hs ho).bind fun is t ht his => ?_
  refine Ensures.get_bind ?_
  have hsignal : ∀ x, t.signal x = s.signal x := fun x => by rw [signal, signal, ht.signals_eq]
  refine (Ensures.of_kept (Ensures.forIn (Q := fun x _ => (t.signal x).format.isBit = true)
    (fun _ _ _ _ h => h) selectors t fun x hx t' _ => ?_)).bind fun _ u _ hu => ?_
  · simp only
    split
    · exact Ensures.pure ⟨rfl, ‹_›⟩
    · rename_i hbit
      refine Ensures.throw_bind (hE (fun h => hbit ?_) _)
      rw [hsignal]
      exact h.1 x hx
  obtain ⟨rfl, hbit⟩ := hu
  simp only
  split
  · rename_i hlength
    rw [Nat.pow_eq] at hlength
    refine Ensures.throw_bind (hE ?_ _)
    rintro ⟨-, hlt, hcount⟩
    rw [his.length_eq] at hcount
    omega
  rename_i hlength
  simp only [not_or, not_le, ne_eq, not_not, Nat.pow_eq] at hlength
  unfold promoteAll
  refine (Ensures.get_bind (promoteAll_ensures (ht.wellTyped hs) his)).bind fun js v hv hjs => ?_
  have hlen : js.length = 2 ^ selectors.length := by
    rw [← hjs.promotes.length_eq, hlength.2]
  have hne : js.map v.format ≠ [] := by
    have := Nat.two_pow_pos selectors.length
    rw [← List.length_pos_iff, List.length_map]
    omega
  obtain ⟨f, hf⟩ := Format.fold?_isSome (d := commonDomain v is) Format.union?_keepsDomain hne
    (by simpa using fun j hj => (hjs.domain_eq j hj).2)
  refine (foldFormats_ensures _ _ fun h => ?_).bind fun g w _ hg => ?_
  · rw [hf] at h
    cases h
  obtain ⟨rfl, hg⟩ := hg
  have hsel' : ∀ x ∈ selectors, x < w.signals.size := by
    rwa [hv.signals_eq, ht.signals_eq]
  have htyped : w.Typed rounding (.cases js selectors) g := by
    refine .cases hsel' (fun x hx => ?_) hlength.1 hlen hg
    rw [signal, hv.signals_eq]
    exact hbit x hx
  refine (push_ensures htyped fun k hk => ?_).imp fun j y hy hj =>
    ⟨hj.1, w, is, js, g, trans_of _ ht hv, hy, hjs, hj.2⟩
  rcases List.mem_append.1 hk with hk | hk
  · exact (hjs.domain_eq k hk).1
  · obtain ⟨x, hx, rfl⟩ := List.mem_map.1 hk
    exact (hv.wellTyped (ht.wellTyped hs)).leaf_lt x (hsel' x hx)

theorem eqnCase_makes : Makes rounding s (eqnCase os selectors) :=
  .of_ensures (E := fun _ => True) (eqnCase_ensures hs ho hsel fun _ _ => trivial)

end

theorem deriv_makes {x : SignalId} (hx : x < s.signals.size) : Makes rounding s (deriv x) := by
  refine Ensures.get_bind ?_
  simp only
  split
  · exact (push_ensures (.deriv hx ‹_›) (by simp [operands])).imp fun j t _ hj => hj.1
  · exact Ensures.throw trivial

end MixedSignal.Build
