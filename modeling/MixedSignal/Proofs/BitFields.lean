import MixedSignal.Proofs.Conversions

/-!
# Fields of words

Words in a row form a number, the first word most significant (`wordsInRow`), and a number has a
field between two places. A field of the row at the places of a word is that word
(`wordsInRow_field`), and the fields between any cuts of a number form the number again
(`wordsInRow_fields`).

`Build.concatenate` makes the row and `Build.bitSlice` the field, so each undoes the other. Every
integer operand has a value that is a word of its width, since the value of a node is brought into
its format. A slice reads a negative value as its two's complement word.
-/

namespace MixedSignal

variable {R : Type} [Scalar R] {p : Nat × Nat} {n lo : Nat} {cuts : List Nat} {is : List NodeId}
  {os : List (Operand R)}

/-! ## Rows and fields of numbers -/

/-- The width of words in a row. Each word is given by its width and its number. -/
def rowWidth (ps : List (Nat × Nat)) : Nat := (ps.map Prod.fst).sum

/-- The number that words form in a row, the first most significant. -/
def wordsInRow : List (Nat × Nat) → Nat
  | [] => 0
  | p :: ps => p.2 * 2 ^ rowWidth ps + wordsInRow ps

/-- The places of the fields between cuts, each with its highest and its lowest one, the topmost
field first. The lowest field starts at a given place. -/
def fields : Nat → List Nat → List (Nat × Nat)
  | _, [] => []
  | lo, cut :: cuts => fields cut cuts ++ [(cut - 1, lo)]

/-- The word of a number between two places, with its width. -/
def fieldOf (n : Nat) (p : Nat × Nat) : Nat × Nat :=
  (p.1 - p.2 + 1, n / 2 ^ p.2 % 2 ^ (p.1 - p.2 + 1))

variable {ps qs : List (Nat × Nat)}

@[simp] theorem rowWidth_nil : rowWidth [] = 0 := rfl

@[simp] theorem rowWidth_cons (p : Nat × Nat) : rowWidth (p :: ps) = p.1 + rowWidth ps := rfl

@[simp] theorem rowWidth_append : rowWidth (ps ++ qs) = rowWidth ps + rowWidth qs := by
  simp [rowWidth]

theorem wordsInRow_lt (h : ∀ p ∈ ps, p.2 < 2 ^ p.1) : wordsInRow ps < 2 ^ rowWidth ps := by
  induction ps with
  | nil => exact Nat.one_pos
  | cons p ps ih =>
    have hrest := ih fun q hq => h q (by simp [hq])
    calc wordsInRow (p :: ps)
        < p.2 * 2 ^ rowWidth ps + 2 ^ rowWidth ps := Nat.add_lt_add_left hrest _
      _ = (p.2 + 1) * 2 ^ rowWidth ps := (Nat.succ_mul _ _).symm
      _ ≤ 2 ^ p.1 * 2 ^ rowWidth ps := Nat.mul_le_mul_right _ (h p (by simp))
      _ = 2 ^ rowWidth (p :: ps) := by rw [rowWidth_cons, pow_add]

theorem wordsInRow_append :
    wordsInRow (ps ++ qs) = wordsInRow ps * 2 ^ rowWidth qs + wordsInRow qs := by
  induction ps with
  | nil => simp [wordsInRow]
  | cons p ps ih =>
    rw [List.cons_append, wordsInRow, ih, wordsInRow, rowWidth_append, pow_add]
    ring

/-- The field of a row at the places of a word is the word. -/
theorem wordsInRow_field (h : ∀ q ∈ ps ++ p :: qs, q.2 < 2 ^ q.1) :
    wordsInRow (ps ++ p :: qs) / 2 ^ rowWidth qs % 2 ^ p.1 = p.2 := by
  have hqs : wordsInRow qs < 2 ^ rowWidth qs := wordsInRow_lt fun q hq => h q (by simp [hq])
  have hp : p.2 < 2 ^ p.1 := h p (by simp)
  have hrow : wordsInRow (ps ++ p :: qs) =
      wordsInRow qs + 2 ^ rowWidth qs * (p.2 + 2 ^ p.1 * wordsInRow ps) := by
    rw [wordsInRow_append, rowWidth_cons, wordsInRow, pow_add]
    ring
  rw [hrow, Nat.add_mul_div_left _ _ (Nat.two_pow_pos _), Nat.div_eq_of_lt hqs, zero_add,
    Nat.add_mul_mod_self_left, Nat.mod_eq_of_lt hp]

/-- The fields between cuts form what a number has between the first cut and the last. -/
theorem wordsInRow_fields {hi : Nat} (h : (lo :: cuts).IsChain (· < ·))
    (hlast : (lo :: cuts).getLast? = some hi) :
    lo ≤ hi ∧ rowWidth ((fields lo cuts).map (fieldOf n)) = hi - lo ∧
      wordsInRow ((fields lo cuts).map (fieldOf n)) = n / 2 ^ lo % 2 ^ (hi - lo) := by
  induction cuts generalizing lo with
  | nil =>
    obtain rfl : lo = hi := by simpa using hlast
    simp [fields, wordsInRow, Nat.mod_one]
  | cons cut cuts ih =>
    rw [List.isChain_cons_cons] at h
    obtain ⟨hle, hwidth, hrow⟩ := ih h.2 (by simpa using hlast)
    have hfield : fieldOf n (cut - 1, lo) = (cut - lo, n / 2 ^ lo % 2 ^ (cut - lo)) := by
      rw [fieldOf, show cut - 1 - lo + 1 = cut - lo by omega]
    have hpow : 2 ^ (hi - lo) = 2 ^ (cut - lo) * 2 ^ (hi - cut) := by
      rw [← pow_add, show cut - lo + (hi - cut) = hi - lo by omega]
    have hdiv : n / 2 ^ cut = n / 2 ^ lo / 2 ^ (cut - lo) := by
      rw [Nat.div_div_eq_div_mul, ← pow_add, show lo + (cut - lo) = cut by omega]
    rw [fields, List.map_append, List.map_singleton, hfield]
    refine ⟨by omega, ?_, ?_⟩
    · rw [rowWidth_append, hwidth, rowWidth_cons, rowWidth_nil]
      omega
    · rw [wordsInRow_append, hrow, hpow, Nat.mod_mul, hdiv]
      simp only [wordsInRow, rowWidth_cons, rowWidth_nil]
      ring

example : fields 0 [1, 3, 8] = [(7, 3), (2, 1), (0, 0)] ∧
    wordsInRow ((fields 0 [1, 3, 8]).map (fieldOf 181)) = 181 := by decide

theorem fields_ne_nil (h : cuts ≠ []) : fields lo cuts ≠ [] := by
  cases cuts with
  | nil => exact absurd rfl h
  | cons cut cuts => simp [fields]

theorem fields_places {hi : Nat} (h : (lo :: cuts).IsChain (· < ·))
    (hlast : (lo :: cuts).getLast? = some hi) : ∀ p ∈ fields lo cuts, p.2 ≤ p.1 ∧ p.1 < hi := by
  induction cuts generalizing lo with
  | nil => simp [fields]
  | cons cut cuts ih =>
    rw [List.isChain_cons_cons] at h
    have hlast' : (cut :: cuts).getLast? = some hi := by simpa using hlast
    have hle : cut ≤ hi := (wordsInRow_fields (n := 0) h.2 hlast').1
    intro p hp
    rcases List.mem_append.1 hp with hp | hp
    · exact ih h.2 hlast' p hp
    · obtain rfl := List.mem_singleton.1 hp
      simp only
      omega

/-! ## Words as values -/

namespace Store

variable {rounding : Rounding R} {s s' : Store R} {values : SignalId → Value R} {i j : NodeId}

/-- The node is an unsigned word of this width and number. -/
structure IsWord (s : Store R) (values : SignalId → Value R) (i : NodeId) (p : Nat × Nat) :
    Prop where
  lt : i < s.nodes.size
  unsigned : s.Unsigned i p.1
  eval : s.eval values i = .ok (.int p.2)

theorem IsWord.number_lt (h : s.IsWord values i p) (hs : s.WellTyped rounding) : p.2 < 2 ^ p.1 := by
  obtain ⟨q, hq, heq⟩ := h.unsigned.eval_lt hs h.lt h.eval
  rw [Value.int.injEq, Nat.cast_inj] at heq
  rwa [heq]

theorem IsWord.of_grown (h : s.IsWord values i p) (hs : s.WellTyped rounding)
    (hg : s.Grown rounding s') : s'.IsWord values i p where
  lt := h.lt.trans_le hg.size_le
  unsigned := hg.toExtends.unsigned h.lt h.unsigned
  eval := (hs.eval_extends hg.toExtends h.lt values).trans h.eval

/-- A slice of an integer is a field of its two's complement word. -/
theorem WellTyped.isWord_slice (hs : s.WellTyped rounding) (hj : j < s.nodes.size) {msb lsb : Nat}
    (hnode : s.node j = ⟨.slice i msb lsb, .uint (msb - lsb + 1)⟩) {k : Int}
    (hk : s.eval values i = .ok (.int k)) (hn : k % 2 ^ s.width i = n) :
    s.IsWord values j (fieldOf n (msb, lsb)) := by
  have hword : IntRepr.wrap ⟨.unsigned, s.width i⟩ k >>> lsb = ((n / 2 ^ lsb : Nat) : Int) := by
    rw [show IntRepr.wrap ⟨.unsigned, s.width i⟩ k = n from hn, Int.shiftRight_eq_div_pow]
    norm_cast
  have hwrap : IntRepr.wrap ⟨.unsigned, msb - lsb + 1⟩ ((n / 2 ^ lsb : Nat) : Int) =
      ((fieldOf n (msb, lsb)).2 : Int) := by
    change ((n / 2 ^ lsb : Nat) : Int) % (2 : Int) ^ (msb - lsb + 1) = _
    rw [fieldOf]
    norm_cast
  have hrun : s.evalKind values (s.eval values) (s.node j) =
      .ok (.int (fieldOf n (msb, lsb)).2) := by
    rw [hnode, ← hwrap, ← hword]
    simp only [evalKind, hk]
    rfl
  have hlt : (fieldOf n (msb, lsb)).2 < 2 ^ (msb - lsb + 1) := Nat.mod_lt _ (Nat.two_pow_pos _)
  have hformat : s.format j = .uint (msb - lsb + 1) := by rw [format, hnode]
  refine ⟨hj, ⟨_, hformat⟩, ?_⟩
  rw [hs.eval_eq hj, hrun, hformat]
  exact congrArg Except.ok (Format.carries_uint hlt).coerce_eq

/-- Unsigned operands are put into a row behind the number so far. -/
theorem WellTyped.foldlM_row (hs : s.WellTyped rounding)
    (h : List.Forall₂ (s.IsWord values) is ps) (n : Nat) :
    is.foldlM (fun (v : Nat) i => do
        return (v <<< s.width i) ||| (← s.eval values i).toInt.toNat) n =
      .ok (n * 2 ^ rowWidth ps + wordsInRow ps) := by
  induction h generalizing n with
  | nil =>
    rw [rowWidth_nil, pow_zero, mul_one]
    rfl
  | @cons i p is ps hi _ ih =>
    have hrow : (n * 2 ^ p.1 + p.2) * 2 ^ rowWidth ps + wordsInRow ps =
        n * 2 ^ rowWidth (p :: ps) + wordsInRow (p :: ps) := by
      rw [wordsInRow, rowWidth_cons, pow_add]
      ring
    rw [List.foldlM_cons, hi.unsigned.width_eq, hi.eval, ← hrow, ← ih,
      ← shiftLeft_or_word n (hi.number_lt hs)]
    rfl

/-- The widths of words add up to that of the row. -/
theorem foldl_widths_row {ws : List Nat} (hws : List.Forall₂ s.Unsigned is ws)
    (h : List.Forall₂ (s.IsWord values) is ps) : ws.foldl (· + ·) 0 = rowWidth ps := by
  rw [← List.sum_eq_foldl]
  induction h generalizing ws with
  | nil =>
    cases hws
    rfl
  | cons hi _ ih =>
    cases hws with
    | cons hw hws => rw [List.sum_cons, ih hws, rowWidth_cons, ← hw.width_eq, hi.unsigned.width_eq]

/-- Words in a row are a word. -/
theorem WellTyped.isWord_concat (hs : s.WellTyped rounding) (hj : j < s.nodes.size)
    (hnode : s.node j = ⟨.concat is, .uint (rowWidth ps)⟩)
    (h : List.Forall₂ (s.IsWord values) is ps) :
    s.IsWord values j (rowWidth ps, wordsInRow ps) := by
  have hlt : wordsInRow ps < 2 ^ rowWidth ps := by
    refine wordsInRow_lt fun p hp => ?_
    obtain ⟨i, -, hi⟩ := forall₂_exists_left h p hp
    exact hi.number_lt hs
  have hrun := hs.foldlM_row h 0
  rw [zero_mul, zero_add] at hrun
  have hformat : s.format j = .uint (rowWidth ps) := by rw [format, hnode]
  refine ⟨hj, ⟨_, hformat⟩, ?_⟩
  rw [hs.eval_eq hj, hformat, hnode]
  simp only [evalKind, hrun]
  exact congrArg Except.ok (Format.carries_uint hlt).coerce_eq

end Store

/-! ## Slices and concatenations -/

/-- The operand is an unsigned word of this width and number. -/
structure Operand.IsWord (s : Store R) (values : SignalId → Value R) (o : Operand R)
    (p : Nat × Nat) : Prop where
  valid : o.Valid s
  unsigned : ∃ r, Build.operandFormat s o = .int ⟨.unsigned, p.1, r⟩
  evaluates : o.Evaluates s values (.int p.2)

namespace Build

open Store

variable {s s' : Store R} {values : SignalId → Value R} {a : Operand R} {f : IntFormat} {k : Int}

theorem isWord_of_stands (hs : s.WellTyped Rounding.any) (hg : s.Grown Rounding.any s')
    (h : a.IsWord s values p) {i : NodeId} (hi : i < s'.nodes.size) (hstands : a.Stands s' i) :
    s'.IsWord values i p := by
  obtain ⟨r, hr⟩ := h.unsigned
  exact ⟨hi, ⟨r, (format_of_stands hs h.valid hg hstands).trans hr⟩,
    eval_of_stands hs hg h.valid h.evaluates hi hstands⟩

theorem operandFormat_of_grown (hg : s.Grown Rounding.any s') (ha : a.Valid s) :
    operandFormat s' a = operandFormat s a := by
  cases a with
  | node i => exact hg.toExtends.format_eq ha
  | signal x => exact congrArg Signal.format (hg.toExtends.signal_eq x ha)
  | value v => rfl

section

variable (hs : s.WellTyped Rounding.any)
include hs

theorem evaluates_of_grown (hg : s.Grown Rounding.any s') (ha : a.Valid s) {v : Value R}
    (hv : a.Evaluates s values v) : a.Evaluates s' values v := by
  cases a with
  | node i => exact (hs.eval_extends hg.toExtends ha values).trans hv
  | signal x =>
    change s'.eval values (s'.leaf x) = .ok v
    rw [hg.toExtends.leaf_eq x ha, hs.eval_extends hg.toExtends (hs.leaf_lt x ha)]
    exact hv
  | value w => exact hv

/-- The value of an integer operand is in its format. -/
theorem wrap_eq_of_evaluates (ha : a.Valid s) (hf : operandFormat s a = .int f)
    (hk : a.Evaluates s values (.int k)) : f.repr.wrap k = k := by
  have hcoerce : (Value.int k : Value R).coerce (operandFormat s a) = .int k := by
    cases a with
    | node i => exact hs.eval_coerce ha hk
    | signal x =>
      have h := hs.eval_coerce (hs.leaf_lt x ha) hk
      rwa [hs.leaf_format ha] at h
    | value v =>
      obtain rfl : v = .int k := hk
      exact (carries_format _).coerce_eq
  rw [hf] at hcoerce
  exact Value.int.inj hcoerce

theorem number_lt_of_isWord (h : a.IsWord s values p) : p.2 < 2 ^ p.1 := by
  obtain ⟨r, hr⟩ := h.unsigned
  have hmod : (p.2 : Int) % 2 ^ p.1 = p.2 := wrap_eq_of_evaluates hs h.valid hr h.evaluates
  have hlt := Int.emod_lt_of_pos (p.2 : Int) (IntRepr.two_pow_pos p.1)
  rw [hmod] at hlt
  exact_mod_cast hlt

/-- A concatenation of words is their row. -/
theorem concatenate_isWord (hne : os ≠ []) (h : List.Forall₂ (Operand.IsWord s values) os ps) :
    Ensures (Grown Rounding.any) (concatenate os) s (fun _ => False) fun j s' =>
      s'.IsWord values j (rowWidth ps, wordsInRow ps) := by
  have hword : ∀ o ∈ os, ∃ p, o.IsWord s values p := fun o ho => by
    obtain ⟨p, -, hp⟩ := forall₂_exists_right h o ho
    exact ⟨p, hp⟩
  have hvalid : ∀ o ∈ os, o.Valid s := fun o ho => (hword o ho).elim fun _ hp => hp.valid
  have hunsigned : ∀ o ∈ os, ∃ w r, operandFormat s o = .int ⟨.unsigned, w, r⟩ := fun o ho =>
    (hword o ho).elim fun p hp => ⟨p.1, hp.unsigned⟩
  refine (concatenate_ensures hs hvalid fun hno => absurd ⟨hne, hunsigned⟩ hno).imp
    fun j s' hg hj => ?_
  obtain ⟨hlt, is, ws, his, hws, hform⟩ := hj
  have his' : List.Forall₂ (s'.IsWord values) is ps :=
    forall₂_trans (p := s'.IsWord values)
      (fun _ _ _ hi hp => isWord_of_stands hs hg hp hi.1 hi.2) his.flip h
  rcases hform with rfl | hnode
  · -- a single operand is its own row
    obtain ⟨p, hp, rfl⟩ : ∃ p, s'.IsWord values j p ∧ ps = [p] := by
      cases his' with
      | cons hp hrest =>
        cases hrest
        exact ⟨_, hp, rfl⟩
    simpa [wordsInRow] using hp
  · rw [foldl_widths_row hws his'] at hnode
    exact (hg.wellTyped hs).isWord_concat hlt hnode his'

/-- A slice of an operand is a field of its two's complement word. -/
theorem bitSlice_isWord (ha : a.Valid s) (hf : operandFormat s a = .int f)
    (hk : a.Evaluates s values (.int k)) (hn : k % 2 ^ f.width = n) (hp : p.2 ≤ p.1 ∧ p.1 < f.width) :
    Ensures (Grown Rounding.any) (bitSlice a p.1 p.2) s (fun _ => False) fun j s' =>
      s'.IsWord values j (fieldOf n p) := by
  refine (bitSlice_ensures hs ha fun hno => absurd ⟨f, hf, hp⟩ hno).imp fun j s' hg hj => ?_
  obtain ⟨hlt, i, hi, hstands, hnode⟩ := hj
  have hwidth : s'.width i = f.width := by
    rw [width, format_of_stands hs ha hg hstands, hf]
    rfl
  exact (hg.wellTyped hs).isWord_slice hlt hnode (eval_of_stands hs hg ha hk hi hstands)
    (hwidth ▸ hn)

/-- Unsigned operands that have values are words. -/
theorem exists_isWord {ws : List Nat} {ks : List Int}
    (hws : List.Forall₂
      (fun o w => o.Valid s ∧ ∃ r, operandFormat s o = .int ⟨.unsigned, w, r⟩) os ws)
    (hks : List.Forall₂ (fun o k => o.Evaluates s values (.int k)) os ks) :
    ∃ ps, List.Forall₂ (Operand.IsWord s values) os ps ∧ ws = ps.map Prod.fst ∧
      ks = ps.map fun p => (p.2 : Int) := by
  induction hws generalizing ks with
  | nil =>
    cases hks
    exact ⟨[], .nil, rfl, rfl⟩
  | @cons o w os ws ho _ ih =>
    cases hks with
    | @cons _ k _ ks hk hks =>
      obtain ⟨hvalid, r, hr⟩ := ho
      obtain ⟨ps, hps, rfl, rfl⟩ := ih hks
      have hmod : k % 2 ^ w = k := wrap_eq_of_evaluates hs hvalid hr hk
      have hnonneg : 0 ≤ k := hmod ▸ Int.emod_nonneg k (IntRepr.two_pow_pos w).ne'
      obtain ⟨n, rfl⟩ := Int.eq_ofNat_of_zero_le hnonneg
      exact ⟨(w, n) :: ps, .cons ⟨hvalid, ⟨r, hr⟩, hk⟩ hps, rfl, rfl⟩

/-- A slice of words in a row at the places of one of them is that word. -/
theorem slice_concatenate (h : List.Forall₂ (Operand.IsWord s values) os (ps ++ p :: qs))
    (hp : 0 < p.1) :
    Ensures (Grown Rounding.any)
      (concatenate os >>= fun j => bitSlice (.node j) (rowWidth qs + p.1 - 1) (rowWidth qs)) s
      (fun _ => False) fun j s' => s'.IsWord values j p := by
  have hne : os ≠ [] := by
    rintro rfl
    have := h.length_eq
    simp at this
  refine (concatenate_isWord hs hne h).bind fun i t ht hi => ?_
  obtain ⟨r, hr⟩ := hi.unsigned
  have hlt := hi.number_lt (ht.wellTyped hs)
  have hmod : (wordsInRow (ps ++ p :: qs) : Int) % 2 ^ rowWidth (ps ++ p :: qs) =
      wordsInRow (ps ++ p :: qs) := by
    exact_mod_cast Nat.mod_eq_of_lt hlt
  have hplaces : rowWidth qs ≤ rowWidth qs + p.1 - 1 ∧
      rowWidth qs + p.1 - 1 < rowWidth (ps ++ p :: qs) := by
    rw [rowWidth_append, rowWidth_cons]
    omega
  have hfield : fieldOf (wordsInRow (ps ++ p :: qs)) (rowWidth qs + p.1 - 1, rowWidth qs) = p := by
    rw [fieldOf, show rowWidth qs + p.1 - 1 - rowWidth qs + 1 = p.1 by omega, wordsInRow_field]
    intro q hq
    obtain ⟨o, -, ho⟩ := forall₂_exists_left h q hq
    exact number_lt_of_isWord hs ho
  have hslice := bitSlice_isWord (a := .node i) (p := (rowWidth qs + p.1 - 1, rowWidth qs))
    (ht.wellTyped hs) hi.lt hr hi.eval hmod hplaces
  rwa [hfield] at hslice

end

/-- An operand cut into fields that are put together again. -/
def rejoin (a : Operand R) (cuts : List Nat) : Build R NodeId := do
  let slices ← (fields 0 cuts).mapM fun p => bitSlice a p.1 p.2
  concatenate (slices.map .node)

/-- The fields of an integer form its two's complement word. -/
theorem rejoin_isWord (hs : s.WellTyped Rounding.any) (ha : a.Valid s)
    (hf : operandFormat s a = .int f) (hk : a.Evaluates s values (.int k))
    (hn : k % 2 ^ f.width = n) (hcuts : (0 :: (cuts ++ [f.width])).IsChain (· < ·)) :
    Ensures (Grown Rounding.any) (rejoin a (cuts ++ [f.width])) s (fun _ => False) fun j s' =>
      s'.IsWord values j (f.width, n) := by
  have hlast : (0 :: (cuts ++ [f.width])).getLast? = some f.width := by
    rw [← List.cons_append, List.getLast?_concat]
  have hplaces := fields_places hcuts hlast
  obtain ⟨-, hwidth, hrow⟩ := wordsInRow_fields (n := n) hcuts hlast
  have hmod : n % 2 ^ f.width = n := by
    zify
    rw [← hn, Int.emod_emod_of_dvd k dvd_rfl]
  rw [Nat.sub_zero] at hwidth hrow
  rw [pow_zero, Nat.div_one, hmod] at hrow
  unfold rejoin
  refine (Ensures.mapM (G := Grown Rounding.any)
    (Q := fun p j t => t.WellTyped Rounding.any ∧ t.IsWord values j (fieldOf n p))
    (fun p j t t' ht hj => ⟨ht.wellTyped hj.1, hj.2.of_grown hj.1 ht⟩) _ s fun p hp t ht => ?_).bind
    fun js t ht hjs => ?_
  · have hslice := bitSlice_isWord (ht.wellTyped hs) (valid_of_grown ht ha)
      ((operandFormat_of_grown ht ha).trans hf) (evaluates_of_grown hs ht ha hk) hn (hplaces p hp)
    exact hslice.imp fun j t' ht' hj => ⟨ht'.wellTyped (ht.wellTyped hs), hj⟩
  · have hwords : List.Forall₂ (Operand.IsWord t values) (js.map .node)
        ((fields 0 (cuts ++ [f.width])).map (fieldOf n)) := by
      rw [List.forall₂_map_left_iff, List.forall₂_map_right_iff]
      exact hjs.flip.imp fun j p hj => ⟨hj.2.lt, hj.2.unsigned, hj.2.eval⟩
    have hne : js.map (Operand.node (R := R)) ≠ [] := by
      intro hnil
      rw [hnil, List.forall₂_nil_left_iff, List.map_eq_nil_iff] at hwords
      exact fields_ne_nil (by simp) hwords
    have hrejoined := concatenate_isWord (ht.wellTyped hs) hne hwords
    rwa [hwidth, hrow] at hrejoined

theorem means_of_isWord {x : Build R NodeId}
    (h : Ensures (Grown Rounding.any) x s (fun _ => False) fun j s' => s'.IsWord values j p) :
    Means x s values p.2 := by
  obtain ⟨j, s', hx, -, hj⟩ := h.succeeds
  exact ⟨j, s', hx, hj.eval⟩

/-- A value of a signed word is that of its two's complement word. -/
theorem exists_word_toInt {w : Nat} (hw : 0 < w) (hk : IntRepr.wrap ⟨.signed, w⟩ k = k)
    (hn : k % 2 ^ w = n) : ∃ b : BitVec w, b.toInt = k ∧ b.toNat = n := by
  have hlt : n < 2 ^ w := by
    have h := Int.emod_lt_of_pos k (IntRepr.two_pow_pos w)
    rw [hn] at h
    exact_mod_cast h
  have hdouble := IntRepr.two_pow_eq_double hw
  refine ⟨BitVec.ofNat w n, ?_, Nat.mod_eq_of_lt hlt⟩
  simp only [IntRepr.wrap, Int.pow_eq, hn] at hk
  rw [BitVec.toInt_eq_toNat_cond, BitVec.toNat_ofNat, Nat.mod_eq_of_lt hlt]
  have hcast : ((2 ^ w : Nat) : Int) = 2 ^ w := by norm_cast
  split at hk <;> split <;> omega

/-- Slices undo concatenations, and concatenations undo slices. The slice of unsigned operands in a
row at the places of one of them has the value of that operand. The slices of an integer between
cuts, put together from the top down, have its value if it is unsigned, and the number of its two's
complement word if it is signed. -/
theorem slices_invert_concatenations (hs : s.Built fun _ _ => True) (values : SignalId → Value R) :
    (∀ (os : List (Operand R)) (ws : List Nat) (ks : List Int),
      List.Forall₂ (fun o w => o.Valid s ∧ ∃ r, operandFormat s o = .int ⟨.unsigned, w, r⟩) os ws →
      List.Forall₂ (fun o k => o.Evaluates s values (.int k)) os ks →
      ∀ (i w : Nat) (k : Int), ws[i]? = some w → ks[i]? = some k → 0 < w →
        Means (concatenate os >>= fun j =>
          bitSlice (.node j) ((ws.drop (i + 1)).sum + w - 1) (ws.drop (i + 1)).sum) s values k) ∧
    ∀ (a : Operand R) (f : IntFormat) (k : Int), a.Valid s → operandFormat s a = .int f →
      a.Evaluates s values (.int k) →
      ∀ cuts : List Nat, (0 :: (cuts ++ [f.width])).IsChain (· < ·) →
        (f.signedness = .unsigned → Means (rejoin a (cuts ++ [f.width])) s values k) ∧
        (f.signedness = .signed → ∃ b : BitVec f.width, b.toInt = k ∧
          Means (rejoin a (cuts ++ [f.width])) s values b.toNat) := by
  have htyped := hs.wellTyped_any
  refine ⟨fun os ws ks hws hks i w k hw hk hpos => ?_, fun a f k ha hf hk cuts hcuts => ?_⟩
  · obtain ⟨ps, hps, rfl, rfl⟩ := exists_isWord htyped hws hks
    obtain ⟨p, hp, rfl⟩ : ∃ p, ps[i]? = some p ∧ p.1 = w := by simpa using hw
    obtain rfl : (p.2 : Int) = k := by simpa [hp] using hk
    obtain ⟨hi, rfl⟩ := List.getElem?_eq_some_iff.1 hp
    have hsplit : ps = ps.take i ++ ps[i] :: ps.drop (i + 1) := by
      rw [← List.drop_eq_getElem_cons hi, List.take_append_drop]
    rw [hsplit] at hps
    have hslice := means_of_isWord (slice_concatenate htyped hps hpos)
    rwa [rowWidth, List.map_drop] at hslice
  · have hpos : 0 < f.width := by
      rw [List.isChain_iff_pairwise] at hcuts
      exact List.rel_of_pairwise_cons hcuts (by simp)
    have hword := wrap_eq_of_evaluates htyped ha hf hk
    obtain ⟨n, hn⟩ := Int.eq_ofNat_of_zero_le (Int.emod_nonneg k (IntRepr.two_pow_pos f.width).ne')
    have hrejoin := means_of_isWord (rejoin_isWord htyped ha hf hk hn hcuts)
    obtain ⟨sg, w, r⟩ := f
    refine ⟨?_, ?_⟩
    · rintro rfl
      have hkn : k = n := hword.symm.trans hn
      rwa [hkn]
    · rintro rfl
      obtain ⟨b, hb, rfl⟩ := exists_word_toInt hpos hword hn
      exact ⟨b, hb, hrejoin⟩

/-- Two unsigned inputs of three and five bits, and a signed one of four. -/
def wordStore : Store ℚ :=
  Store.runAll {} [.signal "a" (.uint 3) .input none, .signal "b" (.uint 5) .input none,
    .signal "d" (.sint 4) .input none]

/-- The inputs are 6, 17 and -3. -/
def wordValues (x : SignalId) : Value ℚ := .int ([6, 17, -3].getD x 0)

theorem wordStore_operands :
    (∀ x < 3, (Operand.signal x : Operand ℚ).Valid wordStore) ∧
    operandFormat wordStore (.signal 0) = .int (.full .unsigned 3) ∧
    operandFormat wordStore (.signal 1) = .int (.full .unsigned 5) ∧
    operandFormat wordStore (.signal 2) = .int (.full .signed 4) ∧
    ∀ x < 3, (Operand.signal x : Operand ℚ).Evaluates wordStore wordValues (wordValues x) := by
  refine ⟨by decide +kernel, ?_, ?_, ?_, fun x hx => ?_⟩
  · with_unfolding_all rfl
  · with_unfolding_all rfl
  · with_unfolding_all rfl
  · interval_cases x
    all_goals with_unfolding_all rfl

/-- The constant between the inputs is found at its two places, and three fields of -3 form 13. -/
theorem slices_invert_concatenations_inputs : (wordStore.Built fun _ _ => True) ∧
    Means (concatenate [.signal 0, .value (.int 2), .signal 1] >>= fun j => bitSlice (.node j) 6 5)
      wordStore wordValues 2 ∧
    ∃ b : BitVec 4, b.toInt = -3 ∧
      Means (rejoin (.signal 2) [1, 3, 4]) wordStore wordValues b.toNat := by
  have hbuilt : wordStore.Built fun _ _ => True := Store.Built.empty.runAll (by decide +kernel)
  obtain ⟨hvalid, ha, hb, hd, hvalues⟩ := wordStore_operands
  obtain ⟨hrow, hfields⟩ := slices_invert_concatenations hbuilt wordValues
  refine ⟨hbuilt, ?_, ?_⟩
  · exact hrow [.signal 0, .value (.int 2), .signal 1] [3, 2, 5] [6, 2, 17]
      (.cons ⟨hvalid 0 (by decide), _, ha⟩ (.cons ⟨trivial, _, rfl⟩
        (.cons ⟨hvalid 1 (by decide), _, hb⟩ .nil)))
      (.cons (hvalues 0 (by decide)) (.cons rfl (.cons (hvalues 1 (by decide)) .nil)))
      1 2 2 rfl rfl (by decide)
  · exact (hfields (.signal 2) (.full .signed 4) (-3) (hvalid 2 (by decide)) hd
      (hvalues 2 (by decide)) [1, 3] (by decide)).2 rfl

/-- An unsigned input of three bits, and an equation variable of one bit. -/
def variableStore : Store ℚ :=
  Store.runAll {} [.signal "a" (.uint 3) .input none, .signal "z" (.uint 1) .auxiliary none]

/-- The bits of the input have no value behind those of an equation variable, though the input has. -/
theorem slice_beside_variable : (variableStore.Built fun _ _ => True) ∧
    (Operand.signal 0 : Operand ℚ).Evaluates variableStore (fun _ => .int 1) (.int 1) ∧
    (outcome (concatenate [.signal 0, .signal 1] >>= fun j => bitSlice (.node j) 3 1)
      variableStore).1.toOption = some 3 ∧
    (outcome (concatenate [.signal 0, .signal 1] >>= fun j => bitSlice (.node j) 3 1)
      variableStore).2.eval (fun _ => .int 1) 3 = .error (.unassigned "z") := by
  refine ⟨Store.Built.empty.runAll (by decide +kernel), ?_, by decide +kernel, ?_⟩
  · with_unfolding_all rfl
  · with_unfolding_all rfl

end Build

end MixedSignal
