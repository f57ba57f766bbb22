import MixedSignal.Proofs.Extraction

/-!
# Modes at run time

The mode of a system is the number that the bits of its selectors form. Bits are put in order in four
places: in the setting of a mode (`Solving.modeSetting`), in the case that a table is replaced by
(`Transform.resolve`), in the word that selectors form (`Build.concatenate`), and in the element of an
array (`Build.array`). In each of them the first bit is the most significant one, so that the system
extracted for the current bits is the one whose coefficients are read at run time.

A selector needs a value at run time. A variable of an equation system has none, and so an address
formed with it has none either.
-/

set_option linter.unusedSectionVars false

namespace MixedSignal

/-! ## Numbers and their bits -/

namespace Transform

/-- The bits of the number that bits form, counted from the lowest one. -/
theorem testBit_address {bits : List Bool} {i : Nat} {b : Bool} (h : bits[i]? = some b) :
    (address bits).testBit (bits.length - 1 - i) = b := by
  induction bits using List.reverseRecOn with
  | nil => simp at h
  | append_singleton bits c ih =>
    have hc := c.toNat_le
    rw [address_concat, List.length_append, List.length_singleton, Nat.add_sub_cancel]
    by_cases hi : i < bits.length
    · rw [List.getElem?_append_left hi] at h
      have hplace : bits.length - i = (bits.length - 1 - i) + 1 := by omega
      have hhalf : (2 * address bits + c.toNat) / 2 = address bits := by omega
      rw [hplace, Nat.testBit_succ, hhalf, ih h]
    · rw [List.getElem?_append_right (not_lt.1 hi)] at h
      obtain ⟨hlt, rfl⟩ := List.getElem?_eq_some_iff.1 h
      have hplace : bits.length - i = 0 := by omega
      rw [hplace, Nat.testBit_zero, List.getElem_singleton]
      cases c <;> simp

end Transform

namespace Solving

open Transform

variable {selectors : List SignalId} {x : SignalId}

theorem exists_modeSetting (hx : x ∈ selectors) (m : Nat) :
    ∃ b, modeSetting selectors m x = some b := by
  obtain ⟨i, hi⟩ := List.mem_iff_getElem?.1 hx
  have hfind : (selectors.zipIdx.reverse.find? (·.1 == x)).isSome = true := by
    rw [List.find?_isSome]
    exact ⟨(x, i), List.mem_reverse.2 (List.mem_zipIdx_iff_getElem?.2 hi), beq_self_eq_true x⟩
  obtain ⟨p, hp⟩ := Option.isSome_iff_exists.1 hfind
  exact ⟨_, congrArg (Option.map _) hp⟩

/-- The setting of the mode that bits form gives every selector its bit, also if it is repeated. -/
theorem modeSetting_address (bit : SignalId → Bool) (hx : x ∈ selectors) :
    modeSetting selectors (address (selectors.map bit)) x = some (bit x) := by
  obtain ⟨b, hb⟩ := exists_modeSetting hx (address (selectors.map bit))
  obtain ⟨i, hi, rfl⟩ := modeSetting_eq_some hb
  have hbit : (selectors.map bit)[i]? = some (bit x) := by
    rw [List.getElem?_map, hi, Option.map_some]
  rw [hb, ← testBit_address hbit, List.length_map]

theorem mapM_modeSetting (bit : SignalId → Bool) {xs : List SignalId} (h : xs ⊆ selectors) :
    xs.mapM (modeSetting selectors (address (selectors.map bit))) = some (xs.map bit) := by
  induction xs with
  | nil => rfl
  | cons x xs ih =>
    rw [List.cons_subset] at h
    rw [List.mapM_cons, modeSetting_address bit h.1, ih h.2]
    rfl

end Solving

variable {R : Type} [Scalar R] {i a : NodeId} {is : List NodeId}

/-! ## Tables -/

namespace Transform

variable {s : Store R} {setting : SignalId → Option Bool}

/-- Wherever the table is met, resolving it is resolving the case. -/
def Picks (setting : SignalId → Option Bool) (s : Store R) (i c : NodeId) : Prop :=
  ∀ (t : Store R) (memo : Std.TreeMap NodeId NodeId), s.Extends t →
    outcome ((resolve setting i).run memo) t =
      outcome ((remember i (resolve setting c)).run memo) t

theorem outcome_store_bind (f : Store R → Transform R NodeId) (memo : Std.TreeMap NodeId NodeId)
    (t : Store R) : outcome ((store >>= f).run memo) t = outcome ((f t).run memo) t :=
  rfl

theorem outcome_remember_congr {x y : Transform R NodeId} {t : Store R}
    {memo : Std.TreeMap NodeId NodeId} (h : outcome (x.run memo) t = outcome (y.run memo) t) :
    outcome ((remember i x).run memo) t = outcome ((remember i y).run memo) t := by
  unfold remember
  simp only [StateT.run_bind, StateT.run_get, pure_bind]
  split
  · rfl
  · simp only [StateT.run_bind]
    rw [outcome_bind, outcome_bind, h]

theorem picks_of_kind {c : NodeId} (hi : i < s.nodes.size) {xs : List NodeId}
    {selectors : List SignalId} (hk : s.kind i = .cases xs selectors) {bits : List Bool}
    (hbits : selectors.mapM setting = some bits) (hc : xs[address bits]? = some c) (hlt : c < i) :
    Picks setting s i c := by
  intro t memo ht
  rw [resolve.eq_def setting i]
  refine outcome_remember_congr ?_
  have hkind : t.kind i = .cases xs selectors := (ht.kind_eq hi).trans hk
  have hget : xs.getD (address bits) i = c := by
    rw [List.getD_eq_getElem?_getD, hc, Option.getD_some]
  refine (outcome_store_bind _ memo t).trans ?_
  rw [hkind]
  simp only [hbits, hget, hlt, ↓reduceDIte]

end Transform

/-! ## Addresses -/

/-- The lowest bit of a value as an integer. -/
def Value.bit (v : Value R) : Bool := v.toInt % 2 == 1

theorem Value.coerce_of_isBit {f : Format R} (h : f.isBit = true) (v : Value R) :
    v.coerce f = .ofBool v.bit := by
  obtain ⟨r, rfl⟩ := Format.exists_of_isBit h
  have hpow : Int.pow 2 1 = 2 := rfl
  change Value.int (v.toInt % Int.pow 2 1) = .int v.bit.toNat
  rw [hpow, Value.bit]
  rcases Int.emod_two_eq_zero_or_one v.toInt with h | h
  · rw [h]
    rfl
  · rw [h]
    rfl

namespace Store

open Transform Build

variable {rounding : Rounding R} {s s' t : Store R} {x : SignalId} {selectors : List SignalId}

/-- A signal of one bit that has a value at run time. -/
structure IsSelector (s : Store R) (x : SignalId) : Prop where
  lt : x < s.signals.size
  isBit : (s.signal x).format.isBit = true
  assigned : (s.signal x).role.isAuxiliary = false

theorem IsSelector.of_grown (h : s.IsSelector x) (hg : s.Grown rounding t) : t.IsSelector x := by
  have hsignal := hg.toExtends.signal_eq x h.lt
  exact ⟨h.lt.trans_le hg.toExtends.signals_le, hsignal ▸ h.isBit, hsignal ▸ h.assigned⟩

/-- The value of a selector is its bit. -/
theorem IsSelector.eval_leaf (h : s.IsSelector x) (hs : s.WellTyped rounding)
    (values : SignalId → Value R) :
    s.eval values (s.leaf x) = .ok (.ofBool (values x).bit) := by
  have hk : (s.node (s.leaf x)).kind = .signal x := hs.leaf_kind x h.lt
  rw [hs.eval_eq (hs.leaf_lt x h.lt), hs.leaf_format h.lt, evalKind, hk]
  simp only [h.assigned]
  exact congrArg Except.ok (Value.coerce_of_isBit h.isBit _)

/-- Bits in a row form their number. -/
theorem foldlM_bits {operand : NodeId → Except EmitError (Value R)} {bits : List Bool}
    (h : List.Forall₂ (fun i b => s.width i = 1 ∧ operand i = .ok (.ofBool b)) is bits) (n : Nat) :
    is.foldlM (fun (v : Nat) i => do
        return (v <<< s.width i) ||| (← operand i).toInt.toNat) n =
      .ok (bits.foldl (fun n b => 2 * n + b.toNat) n) := by
  induction h generalizing n with
  | nil => rfl
  | @cons i b is bits hi _ ih =>
    have hstep : n <<< 1 ||| b.toNat = 2 * n + b.toNat := by
      rw [shiftLeft_or_word n b.toNat_lt, pow_one, mul_comm]
    rw [List.foldlM_cons, hi.1, hi.2, List.foldl_cons, ← hstep]
    exact ih _

theorem IsSelector.unsigned_leaf (h : s.IsSelector x) (hs : s.WellTyped rounding) :
    s.Unsigned (s.leaf x) 1 := by
  obtain ⟨r, hr⟩ := Format.exists_of_isBit h.isBit
  exact ⟨r, (hs.leaf_format h.lt).trans hr⟩

/-- Operands that are signals stand as their leaves. -/
theorem eq_map_leaf
    (h : List.Forall₂ (fun o i => i < s.nodes.size ∧ o.Stands s i)
      (selectors.map (Operand.signal (R := R))) is) : is = selectors.map s.leaf := by
  rw [List.forall₂_map_left_iff] at h
  induction h with
  | nil => rfl
  | cons hi _ ih => exact congrArg₂ List.cons hi.2 ih

section

variable (hs : s.WellTyped rounding)
include hs

/-- The widths of selectors add up to their number. -/
theorem foldl_widths (hsel : ∀ x ∈ selectors, s.IsSelector x) {ws : List Nat}
    (h : List.Forall₂ s.Unsigned (selectors.map s.leaf) ws) (n : Nat) :
    ws.foldl (· + ·) n = n + selectors.length := by
  rw [List.forall₂_map_left_iff] at h
  induction h generalizing n with
  | nil => rfl
  | @cons x w selectors ws hw _ ih =>
    obtain ⟨r, hr⟩ := (hsel x (by simp)).unsigned_leaf hs
    obtain ⟨r', hr'⟩ := hw
    obtain rfl : w = 1 := by
      rw [hr] at hr'
      cases hr'
      rfl
    rw [List.foldl_cons, ih fun y hy => hsel y (by simp [hy]), List.length_cons]
    omega

theorem eval_concat (hsel : ∀ x ∈ selectors, s.IsSelector x) (ha : a < s.nodes.size)
    (hnode : s.node a = ⟨.concat (selectors.map s.leaf), .uint selectors.length⟩)
    (values : SignalId → Value R) :
    s.eval values a = .ok (.int (address (selectors.map fun x => (values x).bit))) := by
  have hbits : List.Forall₂ (fun i b => s.width i = 1 ∧ s.eval values i = .ok (.ofBool b))
      (selectors.map s.leaf) (selectors.map fun x => (values x).bit) := by
    rw [List.forall₂_map_left_iff, List.forall₂_map_right_iff]
    exact List.forall₂_same.2 fun x hx =>
      ⟨((hsel x hx).unsigned_leaf hs).width_eq, (hsel x hx).eval_leaf hs values⟩
  have hrun := foldlM_bits hbits 0
  have hlt : address (selectors.map fun x => (values x).bit) < 2 ^ selectors.length := by
    simpa using address_lt (selectors.map fun x => (values x).bit)
  rw [hs.eval_eq ha, format, hnode]
  simp only [evalKind, hrun]
  -- the number fits the word, so it is kept as it is
  refine congrArg Except.ok ((Format.holds_uint hlt).coerce_eq ?_)
  rintro g hg
  cases hg
  exact IntFormat.full_fits (by simp)

/-- Selectors form a word of their number, whose value is that of their bits. -/
theorem concatenate_selectors (hne : selectors ≠ []) (hsel : ∀ x ∈ selectors, s.IsSelector x) :
    Ensures (Grown rounding) (concatenate (selectors.map .signal)) s (fun _ => False) fun a s' =>
      a < s'.nodes.size ∧ s'.Unsigned a selectors.length ∧ ∀ values : SignalId → Value R,
        s'.eval values a = .ok (.int (address (selectors.map fun x => (values x).bit))) := by
  have hvalid : ∀ o ∈ selectors.map (Operand.signal (R := R)), o.Valid s := by
    intro o ho
    obtain ⟨x, hx, rfl⟩ := List.mem_map.1 ho
    exact (hsel x hx).lt
  have hunsigned : ∀ o ∈ selectors.map (Operand.signal (R := R)),
      ∃ w r, operandFormat s o = .int ⟨.unsigned, w, r⟩ := by
    intro o ho
    obtain ⟨x, hx, rfl⟩ := List.mem_map.1 ho
    exact ⟨1, Format.exists_of_isBit (hsel x hx).isBit⟩
  refine (concatenate_ensures hs hvalid fun h => absurd ⟨by simpa using hne, hunsigned⟩ h).imp
    fun a s' hg ha => ?_
  obtain ⟨hlt, is, ws, his, hws, hform⟩ := ha
  have hs' := hg.wellTyped hs
  have hsel' : ∀ x ∈ selectors, s'.IsSelector x := fun x hx => (hsel x hx).of_grown hg
  obtain rfl := eq_map_leaf his
  rcases hform with hone | hnode
  · -- a single selector is its own address
    obtain ⟨x, rfl, rfl⟩ : ∃ x, selectors = [x] ∧ s'.leaf x = a := by
      simpa [List.map_eq_singleton_iff] using hone
    have hx := hsel' x (by simp)
    refine ⟨hlt, hx.unsigned_leaf hs', fun values => ?_⟩
    rw [hx.eval_leaf hs' values, List.map_singleton, address, List.foldl_cons, List.foldl_nil,
      mul_zero, zero_add]
    rfl
  · rw [foldl_widths hs' hsel' hws, zero_add] at hnode
    have hformat : s'.format a = .uint selectors.length := by rw [format, hnode]
    exact ⟨hlt, ⟨_, hformat⟩, eval_concat hs' hsel' hlt hnode⟩

/-! ## Coefficients -/

theorem WellTyped.eval_real {j : NodeId} (hj : j < s.nodes.size) {c : R}
    (hnode : s.node j = ⟨.const (.real c), .ofMagnitude c⟩) (values : SignalId → Value R) :
    s.eval values j = .ok (.real c) := by
  rw [hs.eval_eq hj, hnode, format, hnode]
  rfl

end

/-- Real operands become themselves. -/
theorem forall₂_of_promoted {coefficients : List R} {js : List NodeId}
    (h : Promoted s (coefficients.map fun c => .value (.real c)) is js) :
    List.Forall₂ (fun c j => j < s.nodes.size ∧ s.node j = ⟨.const (.real c), .ofMagnitude c⟩)
      coefficients js := by
  have hstands := h.stands
  rw [List.forall₂_map_left_iff] at hstands
  refine forall₂_trans (fun c i j hi hj => ?_) hstands h.promotes
  have hreal : (s.format i).domain = .real := by
    rw [format, hi.2]
    rfl
  obtain rfl := hj.2.eq_of_rank_le (by rw [hreal]; exact Domain.rank_le_real _)
  exact hi

/-- Elements that are all the same compare equal. -/
theorem eq_or_beq_of_allSame {j : NodeId} {c d : R}
    (hi : s.node i = ⟨.const (.real c), .ofMagnitude c⟩)
    (hj : s.node j = ⟨.const (.real d), .ofMagnitude d⟩)
    (h : (i == j || match s.const? j, s.const? i with
      | some v, some w => w == v
      | _, _ => false) = true) : d = c ∨ (c == d) = true := by
  rw [Bool.or_eq_true] at h
  rcases h with heq | hconst
  · obtain rfl := eq_of_beq heq
    rw [hi] at hj
    cases hj
    exact .inl rfl
  · simp only [const?, kind, hi, hj] at hconst
    exact .inr hconst

/-- An array of reals has the value of the one at the address, up to one that compares equal. -/
theorem array_coefficients (hs : s.WellTyped rounding) (ha : a < s.nodes.size) {k : Nat}
    (hw : s.Unsigned a k) (hk : k < 64) {coefficients : List R}
    (hlength : coefficients.length = 2 ^ k) :
    Ensures (Grown rounding) (array (coefficients.map fun c => .value (.real c)) (.node a)) s
      (fun _ => False) fun j s' => ∀ (values : SignalId → Value R) (n : Nat) (c : R),
        s.eval values a = .ok (.int n) → coefficients[n]? = some c →
          ∃ w, s'.eval values j = .ok (.real w) ∧ (w = c ∨ (c == w) = true) := by
  have hvalid : ∀ o ∈ coefficients.map fun c => Operand.value (.real c), o.Valid s := by
    intro o ho
    obtain ⟨c, -, rfl⟩ := List.mem_map.1 ho
    trivial
  obtain ⟨r, hr⟩ := hw
  refine (array_ensures (a := .node a) hs hvalid ha fun h => absurd ?_ h).imp
    fun j s' hg hj values n c hn hc => ?_
  · exact ⟨k, r, hr, hk, by rw [List.length_map, hlength]⟩
  obtain ⟨hlt, u, is, js, i, w, hsu, hus', hp, hi, hstands, -, -, hsel⟩ := hj
  obtain rfl : i = a := hstands
  have hconst := forall₂_of_promoted hp
  obtain ⟨e, he, helt, henode⟩ := forall₂_getElem?_left hconst.flip hc
  have hwu := hsu.wellTyped hs
  have hws' := hus'.wellTyped hwu
  cases hsel with
  | same hhead hsame =>
    obtain ⟨d, -, hjlt, hjnode⟩ := forall₂_exists_left hconst j (List.mem_of_mem_head? hhead)
    refine ⟨d, ?_, eq_or_beq_of_allSame henode hjnode
      (List.all_eq_true.1 hsame e (List.mem_of_getElem? he))⟩
    rw [hwu.eval_extends hus'.toExtends hjlt, hwu.eval_real hjlt hjnode]
  | @node f hnode =>
    refine ⟨c, ?_, .inl rfl⟩
    have haddress : s'.eval values i = .ok (.int n) := by
      rw [hs.eval_extends hg.toExtends ha, hn]
    have helement : s'.eval values e = .ok (.real c) := by
      rw [hwu.eval_extends hus'.toExtends helt, hwu.eval_real helt henode]
    -- the format of a selection is in the domain of its elements
    have hreal : f.domain = .real := by
      have ht := hws'.typed j hlt
      rw [kind, format, hnode] at ht
      cases ht with
      | select _ _ _ _ hf =>
        have hdomain := Format.fold?_domain_eq Format.union?_keepsDomain hf _
          (List.mem_map_of_mem (List.mem_of_getElem? he))
        rw [hus'.toExtends.format_eq helt, format, henode] at hdomain
        exact hdomain.symm
    rw [hws'.eval_eq hlt, hnode, evalKind_select haddress he, helement, format, hnode]
    cases f with
    | real => rfl
    | int f => exact absurd hreal (Format.int_domain_ne_real f)

/-! ## The current mode -/

/-- The mode that the bits of selectors form, the first most significant. -/
def currentMode (values : SignalId → Value R) (selectors : List SignalId) : Nat :=
  address (selectors.map fun x => (values x).bit)

/-- Coefficients of `2 ^ k` modes can be put into an array at the address, and its value is the
coefficient of mode `m`, or one that compares equal to it. -/
def ReadsMode (s : Store R) (values : SignalId → Value R) (a : NodeId) (k m : Nat) : Prop :=
  ∀ t : Store R, s.Grown Rounding.any t → ∀ coefficients : List R, coefficients.length = 2 ^ k →
    ∃ j t' c w,
      outcome (array (coefficients.map fun c => .value (.real c)) (.node a)) t = (.ok j, t') ∧
      coefficients[m]? = some c ∧ t'.eval values j = .ok (.real w) ∧ (w = c ∨ (c == w) = true)

/-- The bits of selectors select the mode wherever bits are put in order. -/
structure SelectsMode (s : Store R) (selectors : List SignalId) (values : SignalId → Value R)
    (m : Nat) : Prop where
  lt : m < 2 ^ selectors.length
  bit : ∀ x ∈ selectors, s.eval values (s.leaf x) = .ok (.ofBool (values x).bit)
  /-- The setting of the mode is that of the bits. -/
  setting : ∀ x ∈ selectors, Solving.modeSetting selectors m x = some (values x).bit
  /-- A table of some of the selectors, in any order, is replaced by the case of their bits. -/
  table : ∀ i < s.nodes.size, ∀ cases xs, s.kind i = .cases cases xs → xs ⊆ selectors →
    ∃ c, cases[address (xs.map fun x => (values x).bit)]? = some c ∧
      Picks (Solving.modeSetting selectors m) s i c
  /-- The word that the selectors form is the mode, and it picks the coefficient of the mode. -/
  address : ∀ t : Store R, s.Grown Rounding.any t → ∃ a t',
    outcome (concatenate (selectors.map .signal)) t = (.ok a, t') ∧
      t'.eval values a = .ok (.int m) ∧ t'.ReadsMode values a selectors.length m
  /-- The mode of an extracted system is extracted with the setting of the bits. -/
  extracted : ∀ (solve : Solver R) (equations : List Equation) (roles : SystemRoles)
    (system : ModalSystem R) (s' : Store R), roles.selectors = selectors →
    Solving.Known s equations →
    outcome (Solving.systemWith solve equations roles) s = (.ok system, s') →
    s.Grown Rounding.any s' ∧ ∃ mode t t', s.Grown Rounding.any t ∧
      outcome (Solving.mode solve equations roles (Solving.modeSetting selectors m)) t =
        (.ok mode, t') ∧
      ∀ block row col, (system.coefficients block row col).length = 2 ^ selectors.length ∧
        (system.coefficients block row col)[m]? = some (mode.coefficient block row col)

theorem readsMode_of_eval (hs : s.WellTyped Rounding.any) (ha : a < s.nodes.size) {k m : Nat}
    (hw : s.Unsigned a k) (hk : k < 64) (hm : m < 2 ^ k) {values : SignalId → Value R}
    (heval : s.eval values a = .ok (.int m)) : s.ReadsMode values a k m := by
  intro t hg coefficients hlength
  have hget := List.getElem?_eq_getElem (hm.trans_eq hlength.symm)
  obtain ⟨j, t', hrun, -, hvalue⟩ := (array_coefficients (hg.wellTyped hs) (ha.trans_le hg.size_le)
    (hg.toExtends.unsigned ha hw) hk hlength).succeeds
  have haddress := (hs.eval_extends hg.toExtends ha values).trans heval
  obtain ⟨w, hw, hsame⟩ := hvalue values m _ haddress hget
  exact ⟨j, t', _, w, hrun, hget, hw, hsame⟩

theorem picks_modeSetting (hs : s.WellTyped rounding) (bit : SignalId → Bool)
    (hi : i < s.nodes.size) {cases : List NodeId} {xs : List SignalId}
    (hk : s.kind i = .cases cases xs) (hxs : xs ⊆ selectors) :
    ∃ c, cases[Transform.address (xs.map bit)]? = some c ∧
      Picks (Solving.modeSetting selectors (Transform.address (selectors.map bit))) s i c := by
  have ht := hs.typed i hi
  rw [hk] at ht
  cases ht with
  | cases _ _ _ hlength =>
    have hlt : Transform.address (xs.map bit) < cases.length := by
      rw [hlength]
      simpa using address_lt (xs.map bit)
    refine ⟨_, List.getElem?_eq_getElem hlt, picks_of_kind hi hk (Solving.mapM_modeSetting bit hxs)
      (List.getElem?_eq_getElem hlt) (hs.below i hi _ ?_)⟩
    simp [children, hk, operands]

/-- Extraction and selection agree: for selectors that have a value at run time, repeated or not, the
mode that their bits form is the value of their address, tables are resolved and systems are extracted
for it with just these bits, and it is the place of its coefficient. -/
theorem selectsMode_currentMode (hs : s.Built fun _ _ => True) (hne : selectors ≠ [])
    (hlength : selectors.length < 64) (hsel : ∀ x ∈ selectors, s.IsSelector x)
    (values : SignalId → Value R) :
    s.SelectsMode selectors values (currentMode values selectors) := by
  have hst := hs.wellTyped_any
  have hlt : currentMode values selectors < 2 ^ selectors.length := by
    simpa [currentMode] using address_lt (selectors.map fun x => (values x).bit)
  refine ⟨hlt, fun x hx => (hsel x hx).eval_leaf hst values,
    fun x hx => Solving.modeSetting_address (fun x => (values x).bit) hx,
    fun i hi cases xs hk hxs => picks_modeSetting hst _ hi hk hxs, fun t hg => ?_, ?_⟩
  · have hwt := hg.wellTyped hst
    obtain ⟨a, t', hrun, hg', ha, hw, heval⟩ :=
      (concatenate_selectors hwt hne fun x hx => (hsel x hx).of_grown hg).succeeds
    exact ⟨a, t', hrun, heval values,
      readsMode_of_eval (hg'.wellTyped hwt) ha hw hlength hlt (heval values)⟩
  · rintro solve equations roles system s' rfl hk hrun
    obtain ⟨hmodes, hmode⟩ := Solving.modes_of_systemWith hst hk hrun
    have hget := List.getElem?_eq_getElem (hlt.trans_eq hmodes.symm)
    obtain ⟨t, t', hg, ht⟩ := hmode _ _ hget
    refine ⟨((Solving.systemWith_ensures hst solve hk roles).elim_ok hrun).1, _, t, t', hg, ht,
      fun block row col => ⟨?_, ?_⟩⟩
    · rw [ModalSystem.coefficients, List.length_map, hmodes]
    · rw [ModalSystem.coefficients, List.getElem?_map, hget, Option.map_some]

/-- Two bits and a table over them. -/
def tableStore : Store ℚ :=
  Store.runAll {} [
    .signal "hold" .bit .input none,
    .signal "fast" .bit .internal none,
    .eqnCase [.value (.real 1), .value (.real 2), .value (.real 3), .value (.real 5)] [1, 0]]

/-- The bit `hold` is set, and `fast` is not. -/
def tableValues : SignalId → Value ℚ
  | 0 => .int 1
  | _ => .int 0

/-- With `hold` listed twice, the mode is 101 in binary. -/
theorem selectsMode_table :
    (tableStore.Built fun _ _ => True) ∧ (∀ x ∈ [0, 1, 0], tableStore.IsSelector x) ∧
    tableStore.SelectsMode [0, 1, 0] tableValues 5 := by
  have hbuilt : tableStore.Built fun _ _ => True := Built.empty.runAll (by decide +kernel)
  have hsel : ∀ x ∈ [0, 1, 0], tableStore.IsSelector x := by
    have hbit : ∀ x ∈ [0, 1, 0], x < tableStore.signals.size ∧
        (tableStore.signal x).format.isBit = true ∧
        (tableStore.signal x).role.isAuxiliary = false := by
      decide +kernel
    exact fun x hx => ⟨(hbit x hx).1, (hbit x hx).2.1, (hbit x hx).2.2⟩
  exact ⟨hbuilt, hsel,
    selectsMode_currentMode hbuilt (by decide) (by decide) hsel tableValues⟩

/-- A bit that is a variable of an equation system. -/
def auxiliaryStore : Store ℚ := Store.runAll {} [.signal "s" .bit .auxiliary none]

/-- A variable of an equation system can be a selector of one bit, but it has no value at run time, and
neither has the address nor an array of coefficients at it. -/
theorem auxiliary_selector_unassigned :
    (auxiliaryStore.Built fun _ _ => True) ∧ 0 < auxiliaryStore.signals.size ∧
    (auxiliaryStore.signal 0).format.isBit = true ∧
    (outcome (concatenate [.signal 0]) auxiliaryStore).1.toOption = some 0 ∧
    (outcome (array [.value (.real 5), .value (.real 7)] (.node 0)) auxiliaryStore).1.toOption =
      some 3 ∧
    ∀ values : SignalId → Value ℚ,
      (outcome (concatenate [.signal 0]) auxiliaryStore).2.eval values 0 =
        .error (.unassigned "s") ∧
      (outcome (array [.value (.real 5), .value (.real 7)] (.node 0)) auxiliaryStore).2.eval values 3 =
        .error (.unassigned "s") := by
  refine ⟨Built.empty.runAll (by decide +kernel), by decide +kernel, by decide +kernel,
    by decide +kernel, by decide +kernel, fun values => ⟨?_, ?_⟩⟩
  · with_unfolding_all rfl
  · with_unfolding_all rfl

end Store

end MixedSignal
