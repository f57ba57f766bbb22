import Mathlib
import MixedSignal.Proofs.Invariants
import MixedSignal.Proofs.Lowering

/-!
# How literals are read

A literal is written in the width of its own format, and in a table it is assigned to a target that has
room for all entries. `BasedNumber.read?` reads the text of a literal, and `BasedNumber.assigned` is
the word that an assignment stores: the magnitude as a word of the width of the literal, extended to
the width of the target, then negated and cut.

The magnitude of the least value of a signed word has the sign bit set, so that extension makes it
negative, and the sign in front makes it positive again. In a wider target this value is read with the
wrong sign. All other values are read as they are (`assignedValue?_text`).
-/

namespace MixedSignal

/-! ## Reading -/

namespace Verilog

/-- A based number: a sign, a width, whether the base is signed, and a magnitude. -/
structure BasedNumber where
  negated : Bool
  width : Nat
  signedness : Signedness
  magnitude : Nat

/-- A decimal numeral. -/
def numeral? (digits : List Char) : Option Nat :=
  if digits ≠ [] ∧ digits.all Char.isDigit = true then some (Nat.ofDigitChars 10 digits 0) else none

/-- A decimal base, and what stands behind it. -/
def base? (text : List Char) : Option (Signedness × List Char) :=
  if "'sd".toList.isPrefixOf text then some (.signed, text.drop 3)
  else if "'d".toList.isPrefixOf text then some (.unsigned, text.drop 2)
  else none

/-- The number that is written behind a sign. -/
def BasedNumber.readUnsigned? (negated : Bool) (text : List Char) : Option BasedNumber := do
  let width ← numeral? (text.takeWhile Char.isDigit)
  let (signedness, digits) ← base? (text.dropWhile Char.isDigit)
  let magnitude ← numeral? digits
  return { negated, width, signedness, magnitude }

/-- The number that is written in a text. -/
def BasedNumber.read? (text : List Char) : Option BasedNumber :=
  if text.head? = some '-' then readUnsigned? true text.tail else readUnsigned? false text

/-- The magnitude as a word of the width of the number, extended with its top bit if the base is
signed, and else with zeros. -/
def BasedNumber.extended (n : BasedNumber) (width : Nat) : BitVec width :=
  match n.signedness with
  | .signed => (BitVec.ofNat n.width n.magnitude).signExtend width
  | .unsigned => (BitVec.ofNat n.width n.magnitude).zeroExtend width

/-- The word that an assignment to a target of the given width stores: the magnitude is extended to the
wider of the two widths, a sign negates it at that width, and the result is cut. -/
def BasedNumber.assigned (n : BasedNumber) (width : Nat) : BitVec width :=
  let word := n.extended (max n.width width)
  (if n.negated then -word else word).truncate width

end Verilog

/-- The value of a word. -/
def IntRepr.valueOf (r : IntRepr) (word : BitVec r.width) : Int :=
  match r.signedness with
  | .signed => word.toInt
  | .unsigned => word.toNat

namespace Verilog

/-- The value of a target after a literal was assigned to it. -/
def assignedValue? (target : IntRepr) (text : String) : Option Int :=
  (BasedNumber.read? text.toList).map fun n => target.valueOf (n.assigned target.width)

/-! ## Texts of literals -/

theorem numeral?_toDigits (n : Nat) : numeral? (Nat.toDigits 10 n) = some n := by
  have hdigits : (Nat.toDigits 10 n).all Char.isDigit = true :=
    List.all_eq_true.2 fun c hc => Nat.isDigit_of_mem_toDigits (by decide) (by decide) hc
  rw [numeral?, if_pos ⟨Nat.toDigits_ne_nil, hdigits⟩, Nat.ofDigitChars_ten_toDigits]

/-- The base as it is written. -/
def baseText : Signedness → List Char
  | .signed => "'sd".toList
  | .unsigned => "'d".toList

theorem base?_baseText (sg : Signedness) (digits : List Char) :
    base? (baseText sg ++ digits) = some (sg, digits) := by
  cases sg <;> simp [base?, baseText]

/-- A base stops the digits of the width. -/
theorem span_toDigits (n : Nat) (sg : Signedness) (digits : List Char) :
    (Nat.toDigits 10 n ++ (baseText sg ++ digits)).takeWhile Char.isDigit = Nat.toDigits 10 n ∧
      (Nat.toDigits 10 n ++ (baseText sg ++ digits)).dropWhile Char.isDigit =
        baseText sg ++ digits := by
  have hdigits : ∀ c ∈ Nat.toDigits 10 n, c.isDigit = true :=
    fun c hc => Nat.isDigit_of_mem_toDigits (by decide) (by decide) hc
  rw [List.takeWhile_append_of_pos hdigits, List.dropWhile_append_of_pos hdigits]
  cases sg with
  | signed => exact ⟨List.append_nil _, rfl⟩
  | unsigned => exact ⟨List.append_nil _, rfl⟩

theorem readUnsigned?_text (negated : Bool) (r : IntRepr) (n : Nat) :
    BasedNumber.readUnsigned? negated
      (Nat.toDigits 10 r.width ++ (baseText r.signedness ++ Nat.toDigits 10 n)) =
        some ⟨negated, r.width, r.signedness, n⟩ := by
  obtain ⟨htake, hdrop⟩ := span_toDigits r.width r.signedness (Nat.toDigits 10 n)
  rw [BasedNumber.readUnsigned?, htake, hdrop, base?_baseText, numeral?_toDigits]
  simp [numeral?_toDigits]

theorem toList_text (l : Literal) : l.text.toList = (if l.value < 0 then ['-'] else []) ++
    (Nat.toDigits 10 l.repr.width ++
      (baseText l.repr.signedness ++ Nat.toDigits 10 l.value.natAbs)) := by
  obtain ⟨value, sg, width⟩ := l
  have hsign : (if value < 0 then "-" else "" : String).toList = if value < 0 then ['-'] else [] := by
    split <;> rfl
  cases sg with
  | signed => simp [Literal.text, hsign, baseText]
  | unsigned => simp [Literal.text, hsign, baseText]

/-- A literal is read as it was written. -/
theorem read?_text (l : Literal) : BasedNumber.read? l.text.toList =
    some ⟨decide (l.value < 0), l.repr.width, l.repr.signedness, l.value.natAbs⟩ := by
  rw [toList_text, BasedNumber.read?]
  by_cases hneg : l.value < 0
  · rw [if_pos hneg, if_pos (by simp), decide_eq_true hneg]
    exact readUnsigned?_text true l.repr l.value.natAbs
  · have hhead : ¬(Nat.toDigits 10 l.repr.width ++
        (baseText l.repr.signedness ++ Nat.toDigits 10 l.value.natAbs)).head? = some '-' := by
      intro h
      rw [List.head?_append_of_ne_nil _ Nat.toDigits_ne_nil] at h
      have hdigit := Nat.isDigit_of_mem_toDigits (by decide) (by decide) (List.mem_of_mem_head? h)
      revert hdigit
      decide
    rw [if_neg hneg, List.nil_append, if_neg hhead, decide_eq_false hneg]
    exact readUnsigned?_text false l.repr l.value.natAbs

end Verilog

/-! ## Words -/

/-- The word of an integer is cut to its word of a smaller width. -/
theorem setWidth_ofInt {m n : Nat} (h : m ≤ n) (a : Int) :
    (BitVec.ofInt n a).setWidth m = BitVec.ofInt m a := by
  have hdvd : (2 : Int) ^ m ∣ 2 ^ n := pow_dvd_pow 2 h
  apply BitVec.eq_of_toNat_eq
  rw [BitVec.toNat_setWidth, BitVec.toNat_ofInt, BitVec.toNat_ofInt]
  zify
  rw [Int.toNat_of_nonneg (Int.emod_nonneg a (by positivity)),
    Int.toNat_of_nonneg (Int.emod_nonneg a (by positivity))]
  exact Int.emod_emod_of_dvd a hdvd

namespace IntRepr

/-- The word of an integer has the value that the integer is wrapped to. -/
theorem valueOf_ofInt {r : IntRepr} (hw : r.signedness = .signed → 0 < r.width) (a : Int) :
    r.valueOf (BitVec.ofInt r.width a) = r.wrap a := by
  obtain ⟨sg, width⟩ := r
  cases sg with
  | unsigned =>
    change ((BitVec.ofInt width a).toNat : Int) = a % Int.pow 2 width
    rw [BitVec.toNat_ofInt, Int.toNat_of_nonneg (Int.emod_nonneg a (by positivity)), Int.pow_eq]
    push_cast
    rfl
  | signed =>
    have hdouble : (2 : Int) ^ width = 2 * 2 ^ (width - 1) := two_pow_eq_double (hw rfl)
    change (BitVec.ofInt width a).toInt = _
    rw [BitVec.toInt_ofInt, Int.bmod_def]
    simp only [wrap, Int.pow_eq, Nat.cast_pow, Nat.cast_ofNat]
    split <;> split <;> omega

/-- The least value of a signed word is its own negative. -/
theorem wrap_two_pow {width : Nat} (hw : 0 < width) :
    IntRepr.wrap ⟨.signed, width⟩ (2 ^ (width - 1)) = -2 ^ (width - 1) := by
  have hdouble : (2 : Int) ^ width = 2 * 2 ^ (width - 1) := two_pow_eq_double hw
  have hpos := two_pow_pos (width - 1)
  have hmod : (2 : Int) ^ (width - 1) % 2 ^ width = 2 ^ (width - 1) :=
    Int.emod_eq_of_lt hpos.le (by omega)
  simp only [wrap, Int.pow_eq, hmod]
  rw [if_pos le_rfl]
  omega

/-- All values but the least one of a signed word have their magnitudes in the word. -/
theorem natAbs_mem_range {r : IntRepr} {v : Int} (hv : v ∈ r.range)
    (hne : v ≠ -2 ^ (r.width - 1)) : (v.natAbs : Int) ∈ r.range := by
  obtain ⟨sg, width⟩ := r
  cases sg with
  | unsigned =>
    simp only [range, ClosedRange.mem_def, Int.pow_eq] at hv ⊢
    omega
  | signed =>
    simp only [range, ClosedRange.mem_def, Int.pow_eq] at hv hne ⊢
    omega

/-- A wider word has all values of a narrower one. -/
theorem mem_range_of_le {r target : IntRepr} (hs : r.signedness = target.signedness)
    (hw : r.width ≤ target.width) {v : Int} (hv : v ∈ r.range) : v ∈ target.range := by
  obtain ⟨sg, width⟩ := r
  obtain ⟨sg', width'⟩ := target
  obtain rfl : sg = sg' := hs
  cases sg with
  | unsigned =>
    have hle : (2 : Int) ^ width ≤ 2 ^ width' := pow_le_pow_right₀ (by decide) hw
    simp only [range, ClosedRange.mem_def, Int.pow_eq] at hv ⊢
    omega
  | signed =>
    have hle : (2 : Int) ^ (width - 1) ≤ 2 ^ (width' - 1) :=
      pow_le_pow_right₀ (by decide) (Nat.sub_le_sub_right hw 1)
    simp only [range, ClosedRange.mem_def, Int.pow_eq] at hv ⊢
    omega

end IntRepr

namespace Verilog

theorem extended_eq_ofInt (n : BasedNumber) (hn : n.signedness = .signed → 0 < n.width) (width : Nat) :
    n.extended width = BitVec.ofInt width (IntRepr.wrap ⟨n.signedness, n.width⟩ n.magnitude) := by
  obtain ⟨negated, m, sg, magnitude⟩ := n
  rw [← IntRepr.valueOf_ofInt (r := ⟨sg, m⟩) hn, BitVec.ofInt_natCast]
  cases sg with
  | signed => rfl
  | unsigned =>
    change (BitVec.ofNat m magnitude).setWidth width =
      BitVec.ofInt width ((BitVec.ofNat m magnitude).toNat : Int)
    rw [BitVec.ofInt_natCast, BitVec.ofNat_toNat]

/-- The magnitude is wrapped in the width of the number, and the number in that of the target. -/
theorem valueOf_assigned (n : BasedNumber) {target : IntRepr}
    (hn : n.signedness = .signed → 0 < n.width)
    (ht : target.signedness = .signed → 0 < target.width) :
    target.valueOf (n.assigned target.width) = target.wrap
      (if n.negated then -IntRepr.wrap ⟨n.signedness, n.width⟩ n.magnitude
        else IntRepr.wrap ⟨n.signedness, n.width⟩ n.magnitude) := by
  rw [← IntRepr.valueOf_ofInt ht, BasedNumber.assigned, extended_eq_ofInt n hn]
  refine congrArg target.valueOf ?_
  split
  · rw [← BitVec.ofInt_neg]
    exact setWidth_ofInt (le_max_right _ _) _
  · exact setWidth_ofInt (le_max_right _ _) _

/-- The sign in front of the least value of a signed word makes it positive. Only a wider word has that
value. -/
theorem wrap_neg_least {width : Nat} {target : IntRepr} (hpos : 0 < width)
    (hs : target.signedness = .signed) (hw : width ≤ target.width) :
    target.wrap (2 ^ (width - 1)) =
      if width < target.width then 2 ^ (width - 1) else -2 ^ (width - 1) := by
  obtain ⟨sg, width'⟩ := target
  obtain rfl : sg = .signed := hs
  split_ifs with hlt
  · refine IntRepr.wrap_eq_self (fun _ => hpos.trans_le hw) ?_
    have hle : (2 : Int) ^ width ≤ 2 ^ (width' - 1) :=
      pow_le_pow_right₀ (by decide) (Nat.le_sub_one_of_lt hlt)
    have hdouble : (2 : Int) ^ width = 2 * 2 ^ (width - 1) := IntRepr.two_pow_eq_double hpos
    have := IntRepr.two_pow_pos (width - 1)
    simp only [IntRepr.range, ClosedRange.mem_def, Int.pow_eq]
    omega
  · obtain rfl : width = width' := le_antisymm hw (not_lt.1 hlt)
    exact IntRepr.wrap_two_pow hpos

/-- A literal that is assigned to a word at least as wide as its own is read as its value, apart from
the least value of a signed word, which a wider word reads with the wrong sign. -/
theorem assignedValue?_text {n : Int} {r target : IntRepr} (hr : r.signedness = .signed → 0 < r.width)
    (hn : n ∈ r.range) (hs : r.signedness = target.signedness) (hw : r.width ≤ target.width) :
    assignedValue? target (Literal.text ⟨n, r⟩) =
      some (if r.width < target.width ∧ n = -2 ^ (r.width - 1) then -n else n) := by
  have ht : target.signedness = .signed → 0 < target.width :=
    fun h => (hr (hs.trans h)).trans_le hw
  rw [assignedValue?, read?_text, Option.map_some, valueOf_assigned _ hr ht]
  refine congrArg some ?_
  simp only [decide_eq_true_eq]
  by_cases hleast : n = -2 ^ (r.width - 1)
  · have hpow := IntRepr.two_pow_pos (r.width - 1)
    have hneg : n < 0 := by omega
    have habs : (n.natAbs : Int) = 2 ^ (r.width - 1) := by omega
    obtain ⟨sg, width⟩ := r
    cases sg with
    | unsigned => exact absurd hn.1 (not_le.2 hneg)
    | signed =>
      rw [if_pos hneg, habs, IntRepr.wrap_two_pow (hr rfl), neg_neg, wrap_neg_least (hr rfl) hs.symm hw,
        hleast, neg_neg]
      simp
  · have habs := IntRepr.wrap_eq_self hr (IntRepr.natAbs_mem_range hn hleast)
    have hsign : (if n < 0 then -(n.natAbs : Int) else n.natAbs) = n := by
      split <;> omega
    rw [habs, hsign, if_neg fun h => hleast h.2]
    exact IntRepr.wrap_eq_self ht (IntRepr.mem_range_of_le hs hw hn)

end Verilog

/-! ## Entries of tables -/

variable {R : Type} [Scalar R] {f : IntFormat}

/-- The format of a choice has the signedness of all elements, and is as wide as the widest one. -/
theorem Format.fold?_union_width {fs : List (Format R)} {g : IntFormat}
    (h : fold? union? fs = some (.int g)) :
    ∀ b, .int b ∈ fs → b.signedness = g.signedness ∧ b.width ≤ g.width := by
  intro b hb
  refine ⟨domain_int_eq_iff.1 (fold?_domain_eq union?_keepsDomain h _ hb), ?_⟩
  refine (fold?_spec (G := fun _ => True) (P := fun f => ∀ a, f = .int a → b.width ≤ a.width)
    (fun a c d hd _ _ => ⟨trivial, ?_⟩) h (by simp)).2 ⟨_, hb, by simp⟩ g rfl
  cases union?_eq_some.1 hd with
  | real => simp
  | @int a c =>
    have hwidth : (IntFormat.union a c).width = max (max _ a.width) c.width := rfl
    simp only [Format.int.injEq, forall_eq', hwidth]
    omega

namespace Verilog.Emission

variable {rounding : Rounding R} {s : Store R} {realWidth : Nat}
  {operand : NodeId → Emission R String} {l l' : Emitted R}

/-- Statements are only appended. -/
def Appends {α : Type} (x : Emission R α) : Prop :=
  ∀ l a l', outcome x l = (.ok a, l') → l.statements.toList <+: l'.statements.toList

theorem node_appends (hs : s.WellTyped rounding) (realWidth : Nat) {i : NodeId}
    (hi : i < s.nodes.size) : Appends (node s realWidth i) := by
  intro l name l' h
  obtain ⟨xs, _, -, -, hstep, -⟩ := node_gathers hs realWidth i hi l name l' h
  exact ⟨_, hstep.statements.symm⟩

/-- A constant element is written as a literal of its own format. -/
def WritesConstant (s : Store R) (x : NodeId) (entry : String) : Prop :=
  ∀ v f, s.const? x = some v → s.format x = .int f → entry = Literal.text ⟨v.toInt, f.repr⟩

theorem intEntry_written {x : NodeId} (happends : Appends (operand x)) {entry : String}
    (h : outcome (intEntry s operand x) l = (.ok entry, l')) :
    l.statements.toList <+: l'.statements.toList ∧ WritesConstant s x entry := by
  unfold intEntry at h
  split at h
  · rename_i v f hv hf
    cases h
    refine ⟨List.prefix_rfl, fun v' f' hv' hf' => ?_⟩
    rw [hv] at hv'
    rw [hf] at hf'
    cases hv'
    cases hf'
    rfl
  · rename_i hother
    exact ⟨happends _ _ _ h, fun v f hv hf => absurd hf (hother v f hv)⟩

theorem entries_written : ∀ {xs : List NodeId} {l l' : Emitted R} {entries : List String},
    (∀ x ∈ xs, Appends (operand x)) →
    outcome (xs.mapM (intEntry s operand)) l = (.ok entries, l') →
    l.statements.toList <+: l'.statements.toList ∧ List.Forall₂ (WritesConstant s) xs entries
  | [], l, l', entries, _, h => by
    cases h
    exact ⟨List.prefix_rfl, .nil⟩
  | x :: xs, l, l', entries, happends, h => by
    rw [List.mapM_cons] at h
    obtain ⟨entry, l₁, hentry, h⟩ := outcome_bind_eq_ok h
    obtain ⟨rest, l₂, hrest, h⟩ := outcome_bind_eq_ok h
    cases h
    obtain ⟨hbefore, hwritten⟩ := intEntry_written (happends x (by simp)) hentry
    obtain ⟨hafter, hall⟩ := entries_written (fun y hy => happends y (by simp [hy])) hrest
    exact ⟨hbefore.trans hafter, .cons hwritten hall⟩

/-- A table of integers is written last: its result is declared in the format of the table, and its
constant entries are literals. -/
theorem select_written (realWidth : Nat) {a : NodeId} {xs : List NodeId} {out : String}
    (ha : Appends (operand a)) (hxs : ∀ x ∈ xs, Appends (operand x))
    (h : outcome (select s realWidth operand (.int f) xs a) l = (.ok out, l')) :
    ∃ before address entries, l'.statements.toList =
        before ++ [.declareInt out f.repr, .select address entries out] ∧
      l.statements.toList <+: before ∧ List.Forall₂ (WritesConstant s) xs entries := by
  unfold select at h
  obtain ⟨address, l₁, haddress, htable⟩ := outcome_bind_eq_ok h
  obtain ⟨out', l₂, hout, hfilled⟩ := outcome_bind_eq_ok htable
  obtain ⟨entries, l₃, hentries, hwrite⟩ := outcome_bind_eq_ok hfilled
  cases hout
  cases hwrite
  obtain ⟨hbefore, hwritten⟩ := entries_written hxs hentries
  refine ⟨l₃.statements.toList, address, entries, by simp, ?_, hwritten⟩
  exact (ha _ _ _ haddress).trans hbefore

theorem node_written (hs : s.WellTyped rounding) {i a : NodeId} (hi : i < s.nodes.size)
    {xs : List NodeId} (hkind : s.kind i = .select xs a) (hf : s.format i = .int f)
    (hnew : l.named[i]? = none) {out : String} (h : outcome (node s realWidth i) l = (.ok out, l')) :
    ∃ before address entries, l'.statements.toList =
        before ++ [.declareInt out f.repr, .select address entries out] ∧
      l.statements.toList <+: before ∧ List.Forall₂ (WritesConstant s) xs entries := by
  have hoperand : ∀ j ∈ s.children i, Appends (if _h : j < i then node s realWidth j
      else throw (.unsupportedNode "")) := by
    intro j hj
    have hlt := hs.below i hi j hj
    simp only [hlt, ↓reduceDIte]
    exact node_appends hs realWidth (hlt.trans hi)
  rw [Store.children, hkind] at hoperand
  rw [node, outcome_get_bind] at h
  simp only [hnew] at h
  obtain ⟨_, l₁, hselect, hnamed⟩ := outcome_bind_eq_ok h
  cases hnamed
  have hnode : s.node i = ⟨.select xs a, .int f⟩ := by rw [← hkind, ← hf]; rfl
  rw [hnode] at hselect
  have hwritten := select_written realWidth (hoperand a (by simp [Store.operands]))
    (fun x hx => hoperand x (by simp [Store.operands, hx])) hselect
  exact hwritten

end Verilog.Emission

/-- A constant of an integer format is an integer that the format holds. -/
theorem Store.WellTyped.const_int {rounding : Rounding R} {s : Store R} (hs : s.WellTyped rounding)
    {x : NodeId} (hx : x < s.nodes.size) {v : Value R} (hv : s.const? x = some v)
    (hf : s.format x = .int f) : ∃ n, v = .int n ∧ n ∈ f.range ∧ f.Fits := by
  have hkind : s.kind x = .const v := Store.kind_of_const?.1 hv
  have ht := hs.typed x hx
  rw [hkind, hf] at ht
  cases ht with
  | int h =>
    exact ⟨_, rfl, (IntFormat.carries_tightOrFull (by simp) h).1, IntFormat.tightOrFull_fits h⟩

namespace Verilog

/-- The table of an integer selection is written in the width of the selection, with a literal for each
constant element. Where a literal is as wide as the table, it is read as its value. Where it is
narrower, this holds of all values but the least one of its width, which is read with the wrong
sign. -/
theorem table_literals_read {s : Store R} (hb : s.Built fun _ _ => True) {i a : NodeId}
    {elements : List NodeId} {g : IntFormat} (hi : i < s.nodes.size)
    (hkind : s.kind i = .select elements a) (hg : s.format i = .int g) (realWidth : Nat)
    {l l' : Emitted R} {out : String} (hnew : l.named[i]? = none)
    (h : outcome (Emission.node s realWidth i) l = (.ok out, l')) :
    ∃ before address entries, l'.statements.toList =
        before ++ [.declareInt out g.repr, .select address entries out] ∧
      l.statements.toList <+: before ∧ entries.length = elements.length ∧
      ∀ (k : Nat) x v, elements[k]? = some x → s.const? x = some v →
        ∃ f n, s.format x = .int f ∧ v = .int n ∧ n ∈ f.range ∧ f.signedness = g.signedness ∧
          f.width ≤ g.width ∧ entries[k]? = some (Literal.text ⟨n, f.repr⟩) ∧
          (2, toString k ++ ": " ++ out ++ " = " ++ Literal.text ⟨n, f.repr⟩ ++ ";") ∈
            (Statement.select (R := R) address entries out).lines ∧
          assignedValue? g.repr (Literal.text ⟨n, f.repr⟩) =
            some (if f.width < g.width ∧ n = -2 ^ (f.width - 1) then -n else n) := by
  have hs := hb.wellTyped_any
  obtain ⟨before, address, entries, hstatements, hbefore, hwritten⟩ :=
    Emission.node_written hs hi hkind hg hnew h
  refine ⟨before, address, entries, hstatements, hbefore, hwritten.length_eq.symm,
    fun k x v hk hv => ?_⟩
  have hunion : Format.fold? Format.union? (elements.map s.format) = some (.int g) := by
    have ht := hs.typed i hi
    rw [hkind, hg] at ht
    cases ht with
    | select _ _ _ _ hf => exact hf
  have hx : x ∈ elements := List.mem_of_getElem? hk
  have hchild : x ∈ s.children i := by
    rw [Store.children, hkind]
    exact List.mem_append_left [a] hx
  have hlt : x < s.nodes.size := (hs.below i hi x hchild).trans hi
  have hdomain := Format.fold?_domain_eq Format.union?_keepsDomain hunion _ (List.mem_map_of_mem hx)
  obtain ⟨f, hf⟩ := Format.exists_int_of_ne_real (f := s.format x)
    (by rw [hdomain]; exact Format.int_domain_ne_real g)
  obtain ⟨hsign, hwidth⟩ := Format.fold?_union_width hunion f (hf ▸ List.mem_map_of_mem hx)
  obtain ⟨n, rfl, hn, hfits⟩ := hs.const_int hlt hv hf
  obtain ⟨entry, hentry, hliteral⟩ := forall₂_getElem?_left hwritten.flip hk
  obtain rfl := hliteral _ f hv hf
  refine ⟨f, n, hf, rfl, hn, hsign, hwidth, hentry, ?_, ?_⟩
  · refine List.mem_append_left _ (List.mem_append_right _ ?_)
    exact List.mem_map.2 ⟨(_, k), List.mem_zipIdx_iff_getElem?.2 hentry, rfl⟩
  · exact assignedValue?_text hfits.1 (ClosedRange.mem_of_containsRange hfits.2 hn) hsign hwidth

/-- A bit that selects between `-1` and `5`. -/
def signStore : Store ℚ :=
  Store.runAll {} [.signal "s" .bit .input none,
    .array [.value (.int (-1)), .value (.int 5)] (.signal 0)]

theorem signStore_built : signStore.Built fun _ _ => True :=
  Store.Built.empty.runAll (by decide +kernel)

/-- The format of the table. -/
def signFormat : IntFormat := ⟨.signed, 4, ⟨-1, 5, by decide⟩⟩

theorem signStore_table : 4 < signStore.nodes.size ∧ signStore.kind 4 = .select [1, 3] 0 ∧
    signStore.format 4 = .int signFormat := by
  refine ⟨by decide +kernel, ?_, ?_⟩
  · with_unfolding_all rfl
  · with_unfolding_all rfl

/-- The table is written out. -/
theorem exists_signStore_run : ∃ out l',
    outcome (Emission.node signStore 25 4) { names := {} } = (.ok out, l') := by
  have hs := signStore_built.wellTyped_any
  have hhardware : signStore.InHardware 4 := by
    have hnodes : (∀ x < signStore.signals.size, (signStore.signal x).format.hasValues = true) ∧
        ∀ j ∈ signStore.occurrences 4, (signStore.kind j).InHardware := by
      decide +kernel
    exact hs.inHardware_of_kinds hnodes.1 signStore_table.1 fun j hj =>
      hnodes.2 j ((hs.mem_occurrences_iff_reaches 4 signStore_table.1).2 hj)
  have hrun := Emission.node_emits hs 25 4 signStore_table.1 { names := {} } (by simp [Emission.Sound])
  obtain ⟨out, l', h, -⟩ := (hrun.mono (fun _ => id) (fun e he => he.2 hhardware)
    fun _ _ _ => id).succeeds
  exact ⟨out, l', h⟩

/-- In the table `5` is read as it is. -/
theorem table_literals_read_sign :
    (signStore.Built fun _ _ => True) ∧ signStore.kind 4 = .select [1, 3] 0 ∧
    signStore.format 4 = .int signFormat ∧ ∃ out l' address entries before f,
      outcome (Emission.node signStore 25 4) { names := {} } = (.ok out, l') ∧
      l'.statements.toList = before ++ [.declareInt out ⟨.signed, 4⟩, .select address entries out] ∧
      signStore.const? 3 = some (.int 5) ∧ signStore.format 3 = .int f ∧
      entries[1]? = some (Literal.text ⟨5, f.repr⟩) ∧
      assignedValue? ⟨.signed, 4⟩ (Literal.text ⟨5, f.repr⟩) = some 5 := by
  obtain ⟨hlt, hkind, hformat⟩ := signStore_table
  have hconst : signStore.const? 3 = some (.int 5) := by
    with_unfolding_all rfl
  obtain ⟨out, l', hrun⟩ := exists_signStore_run
  obtain ⟨before, address, entries, hstatements, -, -, hread⟩ :=
    table_literals_read signStore_built hlt hkind hformat 25 (by simp) hrun
  obtain ⟨f, n, hf, hn, -, -, -, hentry, -, hvalue⟩ := hread 1 3 _ rfl hconst
  cases hn
  refine ⟨signStore_built, hkind, hformat, out, l', address, entries, before, f, hrun, hstatements,
    hconst, hf, hentry, hvalue.trans (congrArg some (if_neg ?_))⟩
  have := IntRepr.two_pow_pos (f.width - 1)
  omega

/-- In the table `-1` is read as `1`. -/
theorem table_literal_sign_lost : ∃ out l' address entries before,
    outcome (Emission.node signStore 25 4) { names := {} } = (.ok out, l') ∧
    l'.statements.toList = before ++ [.declareInt out ⟨.signed, 4⟩, .select address entries out] ∧
    signStore.const? 1 = some (.int (-1)) ∧ entries[0]? = some "-1'sd1" ∧
    assignedValue? ⟨.signed, 4⟩ "-1'sd1" = some 1 := by
  obtain ⟨hlt, hkind, hformat⟩ := signStore_table
  have hs := signStore_built.wellTyped_any
  have hconst : signStore.const? 1 = some (.int (-1)) := by
    with_unfolding_all rfl
  have hf : signStore.format 1 = .int ⟨.signed, 1, ⟨-1, -1, by decide⟩⟩ := by
    with_unfolding_all rfl
  have htext : Literal.text ⟨-1, ⟨.signed, 1⟩⟩ = "-1'sd1" := by
    rfl
  obtain ⟨out, l', hrun⟩ := exists_signStore_run
  obtain ⟨before, address, entries, hstatements, -, hwritten⟩ :=
    Emission.node_written hs hlt hkind hformat (by simp) hrun
  obtain ⟨entry, hentry, hliteral⟩ := forall₂_getElem?_left (n := 0) hwritten.flip rfl
  obtain rfl := hliteral _ _ hconst hf
  refine ⟨out, l', address, entries, before, hrun, hstatements, hconst, hentry, ?_⟩
  rw [← htext]
  exact assignedValue?_text (by decide) (by decide) rfl (by decide)

end Verilog

end MixedSignal
