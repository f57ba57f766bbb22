import Mathlib
import MixedSignal.Proofs.Literals
import MixedSignal.Proofs.WrittenCode

/-!
# What the code of integer operators computes

`Verilog.execute` runs declarations and assignments of integers as they are written. An assignment
reads its operands as signed if all of them are, extends them to the widest of the target and the
operands, computes modulo that width, and cuts the result to the target. Comparisons are made in the
width of the wider operand.

The target of an operator may be narrower than its operands and than partial results. As the exact
result has room in the target (`Format.fold?_arithmetic_carries`), nothing is lost: words are
compared as the integers that they stand for (`Word.extend_eq_ofInt`), and cutting a sum or product
to the target gives the word of the result.
-/

set_option linter.unusedSectionVars false

namespace MixedSignal

/-! ## Words and their values -/

namespace IntRepr

variable {r target : IntRepr} {k : Int}

/-- The word of a value that has room is read as this value. -/
theorem valueOf_ofInt_of_wrap_eq (h : r.wrap k = k) : r.valueOf (BitVec.ofInt r.width k) = k := by
  by_cases hw : r.signedness = .signed → 0 < r.width
  · rw [valueOf_ofInt hw, h]
  · obtain rfl : k = 0 := eq_zero_of_wrap_eq hw h
    obtain ⟨sg, width⟩ := r
    obtain ⟨rfl, rfl⟩ : sg = .signed ∧ width = 0 := by simpa using hw
    rfl

/-- A value has room in every word that is not narrower. -/
theorem wrap_eq_of_le (hs : r.signedness = target.signedness) (hw : r.width ≤ target.width)
    (h : r.wrap k = k) : target.wrap k = k := by
  by_cases ht : target.signedness = .signed → 0 < target.width
  · exact wrap_eq_self ht (mem_range_of_le hs hw (mem_range_of_wrap_eq h))
  · rw [eq_zero_of_wrap_eq (v := k)
      (fun hr => ht fun hsigned => (hr (hs.trans hsigned)).trans_le hw) h]
    exact wrap_zero

end IntRepr

namespace Verilog

variable {R : Type} [Scalar R] {partialRepr : IntRepr}

/-! ## Execution -/

/-- A word with its type. -/
structure Word where
  repr : IntRepr
  bits : BitVec repr.width

namespace Word

/-- The integer that a word stands for. -/
def value (w : Word) : Int := w.repr.valueOf w.bits

/-- The word in another width. What is added are copies of the top bit if the word is read as
signed, and else zeros. -/
def extend (sg : Signedness) (width : Nat) (w : Word) : BitVec width :=
  match sg with
  | .signed => w.bits.signExtend width
  | .unsigned => w.bits.setWidth width

/-- Operands are read as signed if all of them are. -/
def signedness (words : List Word) : Signedness :=
  if ∀ w ∈ words, w.repr.signedness = .signed then .signed else .unsigned

/-- The width of the widest operand. -/
def width (words : List Word) : Nat := (words.map (·.repr.width)).foldl max 0

/-- The comparison of two words in the width of the wider one. -/
def compare (op : CompareOp) (x y : Word) : Bool :=
  let r : IntRepr := ⟨signedness [x, y], width [x, y]⟩
  op.evalInt (r.valueOf (x.extend r.signedness r.width)) (r.valueOf (y.extend r.signedness r.width))

/-- The operands of an assignment to a target, all in the width in which the right-hand side is
computed. -/
def extended (words : List Word) (target : Nat) : List (BitVec (max target (width words))) :=
  words.map (·.extend (signedness words) _)

end Word

/-- The word that an assignment to a target of the given width stores, for the right-hand sides of
integer operators. -/
def Source.assigned? (read? : String → Option Word) (width : Nat) : Source → Option (BitVec width)
  | sum names => do
    let words ← names.mapM read?
    return ((Word.extended words width).foldl (· + ·) 0).setWidth width
  | product names => do
    let words ← names.mapM read?
    return ((Word.extended words width).foldl (· * ·) 1).setWidth width
  | choose op a b => do
    let x ← read? a
    let y ← read? b
    let chosen := if Word.compare op x y then x else y
    return (chosen.extend (Word.signedness [x, y]) (max width (Word.width [x, y]))).setWidth width
  | _ => none

/-- A declared name: its type, and its word once one was assigned. -/
structure Cell where
  repr : IntRepr
  bits? : Option (BitVec repr.width) := none

/-- The names that are declared. -/
abbrev Memory := String → Option Cell

/-- The word that a name has. -/
def Memory.read? (mem : Memory) (x : String) : Option Word := do
  let cell ← mem x
  let bits ← cell.bits?
  return ⟨cell.repr, bits⟩

/-- A declaration or an assignment of an integer. Other statements are not executed. -/
def Statement.execute (mem : Memory) : Statement R → Option Memory
  | declareInt x r => some (Function.update mem x (some { repr := r }))
  | assign x source => do
    let cell ← mem x
    let bits ← source.assigned? mem.read? cell.repr.width
    return Function.update mem x (some { repr := cell.repr, bits? := some bits })
  | _ => none

/-- Statements one after the other, each as it is read from its text. -/
def execute (mem : Memory) (code : List (Statement R)) : Option Memory :=
  code.foldlM (fun mem t => (Statement.read? (R := R) t.text).bind (Statement.execute mem)) mem

/-- The name has a type, and its word stands for the integer. -/
def Memory.Holds (mem : Memory) (x : String) (r : IntRepr) (k : Int) : Prop :=
  ∃ bits, mem x = some ⟨r, some bits⟩ ∧ r.valueOf bits = k

/-! ## Right-hand sides -/

namespace Word

variable {w x y : Word} {words : List Word} {sg : Signedness}

/-- A word in another width is the word of its value. -/
theorem extend_eq_ofInt (hs : w.repr.signedness = sg) (width : Nat) :
    w.extend sg width = BitVec.ofInt width w.value := by
  subst hs
  unfold extend value IntRepr.valueOf
  cases w.repr.signedness with
  | signed => rfl
  | unsigned => exact (BitVec.ofNat_toNat width w.bits).symm.trans (BitVec.ofInt_natCast _ _).symm

/-- The value of a word has room in it. -/
theorem wrap_value (w : Word) : w.repr.wrap w.value = w.value := by
  by_cases hw : w.repr.signedness = .signed → 0 < w.repr.width
  · have hbits : w.extend w.repr.signedness w.repr.width = w.bits := by
      unfold extend
      cases w.repr.signedness with
      | signed => exact BitVec.signExtend_eq w.bits
      | unsigned => exact BitVec.setWidth_eq w.bits
    rw [← IntRepr.valueOf_ofInt hw, ← extend_eq_ofInt rfl, hbits]
    rfl
  · obtain ⟨⟨sg, width⟩, bits⟩ := w
    obtain ⟨rfl, rfl⟩ : sg = .signed ∧ width = 0 := by simpa using hw
    obtain rfl : bits = 0#0 := BitVec.of_length_zero
    rfl

/-- Operands of one signedness are read in it. -/
theorem signedness_eq (hne : words ≠ []) (h : ∀ w ∈ words, w.repr.signedness = sg) :
    signedness words = sg := by
  obtain ⟨w, hw⟩ := List.exists_mem_of_ne_nil words hne
  unfold signedness
  cases sg with
  | signed => exact if_pos h
  | unsigned => exact if_neg fun hall => by simpa [h w hw] using hall w hw

/-- Words of one signedness are compared as the integers that they stand for. -/
theorem compare_eq (op : CompareOp) (hx : x.repr.signedness = sg) (hy : y.repr.signedness = sg) :
    compare op x y = op.evalInt x.value y.value := by
  have hs : signedness [x, y] = sg := signedness_eq (by simp) (by simp [hx, hy])
  have hvalue : ∀ w : Word, w.repr.signedness = sg → w.repr.width ≤ width [x, y] →
      IntRepr.valueOf ⟨sg, width [x, y]⟩ (w.extend sg (width [x, y])) = w.value := by
    intro w hw hle
    rw [extend_eq_ofInt hw]
    exact IntRepr.valueOf_ofInt_of_wrap_eq (r := ⟨sg, width [x, y]⟩)
      (IntRepr.wrap_eq_of_le hw hle w.wrap_value)
  have hxw : x.repr.width ≤ width [x, y] := by simp [width]
  have hyw : y.repr.width ≤ width [x, y] := by simp [width]
  subst hs
  exact congrArg₂ op.evalInt (hvalue x hx hxw) (hvalue y hy hyw)

end Word

namespace Memory

variable {mem : Memory} {x y : String} {r : IntRepr} {k : Int}

theorem Holds.read? (h : mem.Holds x r k) :
    ∃ w, mem.read? x = some w ∧ w.repr = r ∧ w.value = k := by
  obtain ⟨bits, hx, hk⟩ := h
  exact ⟨⟨r, bits⟩, by simp [Memory.read?, hx], rfl, hk⟩

/-- The name has a word of the signedness that stands for the integer. -/
def Reads (mem : Memory) (sg : Signedness) (x : String) (k : Int) : Prop :=
  ∃ w, mem.read? x = some w ∧ w.repr.signedness = sg ∧ w.value = k

theorem Holds.reads {sg : Signedness} (h : mem.Holds x r k) (hs : r.signedness = sg) :
    mem.Reads sg x k := by
  obtain ⟨w, hw, rfl, hk⟩ := h.read?
  exact ⟨w, hw, hs, hk⟩

end Memory

section

variable {mem : Memory} {sg : Signedness} {names : List String} {ks : List Int}

section

variable (h : List.Forall₂ (mem.Reads sg) names ks) (hne : ks ≠ [])
include h hne

end

/-- The comparison by which an operator chooses between two operands. -/
def Chooses (op : ArithOp) (order : CompareOp) : Prop :=
  op = .min ∧ order = .lt ∨ op = .max ∧ order = .gt

variable {op : ArithOp} {order : CompareOp}

theorem Chooses.onInt_eq (h : Chooses op order) (a b : Int) :
    op.onInt a b = if order.evalInt a b then a else b := by
  rcases h with ⟨rfl, rfl⟩ | ⟨rfl, rfl⟩
  · simp only [ArithOp.onInt, CompareOp.evalInt, decide_eq_true_eq]
    split <;> omega
  · simp only [ArithOp.onInt, CompareOp.evalInt, decide_eq_true_eq]
    split <;> omega

theorem Chooses.isArith (h : Chooses op order) {x y : String} : (Source.choose order x y).IsArith :=
  h.imp And.right And.right

theorem assigned?_choose (h : Chooses op order) {x y : String} {a b : Int} (hx : mem.Reads sg x a)
    (hy : mem.Reads sg y b) (width : Nat) :
    (Source.choose order x y).assigned? mem.read? width =
      some (BitVec.ofInt width (op.onInt a b)) := by
  obtain ⟨v, hv, hvs, rfl⟩ := hx
  obtain ⟨w, hw, hws, rfl⟩ := hy
  have hs : Word.signedness [v, w] = sg := Word.signedness_eq (by simp) (by simp [hvs, hws])
  have hcut : ∀ u : Word, u.repr.signedness = sg →
      (u.extend sg (max width (Word.width [v, w]))).setWidth width =
        BitVec.ofInt width u.value := by
    intro u hu
    rw [Word.extend_eq_ofInt hu]
    exact setWidth_ofInt (Nat.le_max_left _ _) _
  simp only [Source.assigned?, hv, hw, Option.bind_eq_bind, Option.bind_some, hs,
    Word.compare_eq order hvs hws, h.onInt_eq]
  refine congrArg some ?_
  split
  · exact hcut v hvs
  · exact hcut w hws

end

/-! ## Statements -/

section

variable {mem mem' : Memory} {out : String} {r : IntRepr} {source : Source} {k : Int}

theorem Source.assigned?_congr {read? read?' : String → Option Word} (width : Nat)
    (h : ∀ x ∈ source.operands, read? x = read?' x) :
    source.assigned? read? width = source.assigned? read?' width := by
  cases source with
  | sum names | product names =>
    have hnames : names.mapM read? = names.mapM read?' := mapM_congr h
    simp only [Source.assigned?, hnames]
  | choose op a b =>
    simp only [Source.assigned?, h a (by simp [Source.operands]), h b (by simp [Source.operands])]
  | _ => rfl

/-- The right-hand side stands for an integer in every width, and is written in words. -/
structure Source.Denotes (source : Source) (mem : Memory) (k : Int) : Prop where
  isArith : source.IsArith
  assigned? : ∀ width, source.assigned? mem.read? width = some (BitVec.ofInt width k)
  words : ∀ x ∈ source.operands, Names.IsWord x

/-- A temporary is declared and gets the value of the right-hand side. Nothing else changes. -/
theorem execute_assignInt (hsource : source.Denotes mem k) (hk : r.wrap k = k)
    (hword : Names.IsWord out) (hout : out ∉ source.operands) (code : List (Statement R)) :
    ∃ mem' : Memory,
      execute mem (.declareInt out r :: .assign out source :: code) = execute mem' code ∧
        mem'.Holds out (declaredRepr r) k ∧ ∀ x, x ≠ out → mem' x = mem x := by
  have hk' : (declaredRepr r).wrap k = k :=
    IntRepr.wrap_eq_of_le (r := r) rfl (width_le_declaredRepr r) hk
  refine ⟨Function.update mem out (some ⟨declaredRepr r, some (BitVec.ofInt _ k)⟩), ?_,
    ⟨_, Function.update_self .., IntRepr.valueOf_ofInt_of_wrap_eq hk'⟩,
    fun x hx => Function.update_of_ne hx ..⟩
  have hread : ∀ x ∈ source.operands,
      Memory.read? (Function.update mem out (some { repr := declaredRepr r })) x = mem.read? x := by
    intro x hx
    have hne : x ≠ out := fun h => hout (h ▸ hx)
    simp only [Memory.read?, Function.update_of_ne hne]
  simp [execute, Statement.read?_declareInt hword,
    Statement.read?_assign hword hsource.isArith hsource.words, Statement.execute,
    Source.assigned?_congr _ hread, hsource.assigned?]

/-- What the code of an operator leaves behind: the result in a name of the given type, the results
on the first operands in the temporaries that lead to it, and all other names as they were. -/
structure Leaves (op : ArithOp) (ks : List Int) (r : IntRepr) (out : String)
    (code : List (Statement R)) (mem mem' : Memory) : Prop where
  run : execute mem code = some mem'
  result : mem'.Holds out r (op.evalInt ks)
  temporaries : ∀ n x, (drivenIn code)[n]? = some x → x ≠ out →
    ∃ r', mem'.Holds x r' (op.evalInt (ks.take (n + 2)))
  frame : ∀ x ∉ declaredIn code, mem' x = mem x

variable {op : ArithOp} {ks : List Int} {sg : Signedness} {names : List String}

/-- A sum or product is one assignment. -/
theorem Leaves.of_denotes (hsource : source.Denotes mem (op.evalInt ks))
    (hroom : r.wrap (op.evalInt ks) = op.evalInt ks) (hr : 0 < r.width)
    (hword : Names.IsWord out) (hout : out ∉ source.operands) : ∃ mem',
      Leaves (R := R) op ks r out [.declareInt out r, .assign out source] mem mem' := by
  obtain ⟨mem', hrun, hholds, hframe⟩ := execute_assignInt (R := R) hsource hroom hword hout []
  rw [declaredRepr_eq hr] at hholds
  refine ⟨mem', hrun, hholds, fun n x hx hne => ?_, fun x hx => hframe x ?_⟩
  · obtain rfl : x = out := by simpa [Statement.driven?] using List.mem_of_getElem? hx
    exact absurd rfl hne
  · simpa [Statement.declared?] using hx

/-- The first two operands of several are replaced by the result on them. -/
theorem evalInt_cons_cons (op : ArithOp) (k c : Int) (ls : List Int) :
    op.evalInt (k :: c :: ls) = op.evalInt (op.onInt k c :: ls) := by
  rw [ArithOp.evalInt_cons, ArithOp.evalInt_cons, List.foldl_cons]

/-- Code that computes an operator from the result on its first two operands, which is put into a
temporary before. -/
theorem Leaves.cons {mem₁ : Memory} {c : Int} {better : String} {r₁ r₂ : IntRepr}
    {code : List (Statement R)}
    (hrun : execute mem (.declareInt better r₁ :: .assign better source :: code) =
      execute mem₁ code)
    (hholds : mem₁.Holds better r₂ (op.onInt k c)) (hframe : ∀ x, x ≠ better → mem₁ x = mem x)
    (hbetter : better ∉ declaredIn code) (h : Leaves op (op.onInt k c :: ks) r out code mem₁ mem') :
    Leaves op (k :: c :: ks) r out (.declareInt better r₁ :: .assign better source :: code)
      mem mem' where
  run := hrun.trans h.run
  result := (evalInt_cons_cons op k c ks).symm ▸ h.result
  temporaries n x hx hne := by
    cases n with
    | zero =>
      obtain rfl : better = x := by simpa [Statement.driven?] using hx
      obtain ⟨bits, hbits, hvalue⟩ := hholds
      refine ⟨r₂, bits, (h.frame _ hbetter).trans hbits, hvalue.trans ?_⟩
      rw [List.take_succ_cons, List.take_succ_cons, evalInt_cons_cons, ArithOp.evalInt_cons]
      rfl
    | succ n =>
      obtain ⟨r', hr'⟩ := h.temporaries n x (by simpa [Statement.driven?] using hx) hne
      refine ⟨r', ?_⟩
      rwa [List.take_succ_cons, List.take_succ_cons, evalInt_cons_cons, ← List.take_succ_cons]
  frame x hx := by
    have hx : x ∉ better :: declaredIn code := hx
    rw [List.mem_cons, not_or] at hx
    exact (h.frame x hx.2).trans (hframe x hx.1)

/-- Names that were not changed are read as before. -/
theorem forall₂_reads_congr (h : List.Forall₂ (mem.Reads sg) names ks)
    (hnames : ∀ x ∈ names, mem' x = mem x) : List.Forall₂ (mem'.Reads sg) names ks := by
  induction h with
  | nil => exact .nil
  | @cons x k names ks hx _ ih =>
    obtain ⟨w, hw, hs⟩ := hx
    have hread : mem'.read? x = mem.read? x := by
      rw [Memory.read?, Memory.read?, hnames x (by simp)]
    exact .cons ⟨w, hread.trans hw, hs⟩ (ih fun y hy => hnames y (by simp [hy]))

/-- The chain of comparisons keeps in each temporary the smallest or largest operand so far. Partial
results have room since each of them is one of the operands. -/
theorem Chain.leaves {order : CompareOp} {found : String} {code : List (Statement R)}
    (h : Chain order partialRepr r found names out code) (horder : Chooses op order)
    (hr : 0 < r.width) (hs : partialRepr.signedness = sg) (hfound : mem.Reads sg found k)
    (hnames : List.Forall₂ (mem.Reads sg) names ks) (hroom : ∀ v ∈ k :: ks, partialRepr.wrap v = v)
    (hresult : r.wrap (op.evalInt (k :: ks)) = op.evalInt (k :: ks))
    (hnodup : (declaredIn code).Nodup) (hfresh : ∀ x ∈ declaredIn code, x ∉ found :: names)
    (hdeclared : ∀ x ∈ declaredIn code, Names.IsWord x)
    (hwords : ∀ x ∈ found :: names, Names.IsWord x) :
    ∃ mem', Leaves op (k :: ks) r out code mem mem' := by
  induction h generalizing mem k ks with
  | @last found a out =>
    obtain ⟨b, _, hb, hnil, rfl⟩ := List.forall₂_cons_left_iff.1 hnames
    obtain rfl := List.forall₂_nil_left_iff.1 hnil
    have heval : op.evalInt [k, b] = op.onInt k b := by rw [ArithOp.evalInt_cons]; rfl
    have hout : out ∉ [found, a] := hfresh out (by simp [Statement.declared?])
    exact Leaves.of_denotes
      ⟨horder.isArith, heval ▸ assigned?_choose horder hfound hb, hwords⟩ hresult hr
      (hdeclared out (by simp [Statement.declared?])) hout
  | @next found a b names better out code h ih =>
    obtain ⟨c, ks, hc, hrest, rfl⟩ := List.forall₂_cons_left_iff.1 hnames
    have hcode : declaredIn (.declareInt better partialRepr ::
        .assign better (.choose order found a) :: code) = better :: declaredIn code := rfl
    rw [hcode] at hnodup hfresh hdeclared
    obtain ⟨hbetter, hnodup⟩ := List.nodup_cons.1 hnodup
    obtain ⟨hword, hdeclared⟩ := List.forall_mem_cons.1 hdeclared
    obtain ⟨hwordf, hwords⟩ := List.forall_mem_cons.1 hwords
    obtain ⟨hworda, hwords⟩ := List.forall_mem_cons.1 hwords
    have hnew : better ∉ found :: a :: b :: names := hfresh better (by simp)
    have hpartial : partialRepr.wrap (op.onInt k c) = op.onInt k c := by
      rw [horder.onInt_eq]
      split
      · exact hroom k (by simp)
      · exact hroom c (by simp)
    obtain ⟨mem₁, hrun, hholds, hframe⟩ := execute_assignInt
      ⟨horder.isArith, assigned?_choose horder hfound hc, by simp [Source.operands, hwordf, hworda]⟩
      hpartial hword (fun h => hnew (List.mem_append_left (b :: names) h)) code
    have hrest' : List.Forall₂ (mem₁.Reads sg) (b :: names) ks :=
      forall₂_reads_congr hrest fun x hx => hframe x fun h => hnew (by simp [← h, hx])
    obtain ⟨mem', hleaves⟩ := ih (hholds.reads hs) hrest'
      (List.forall_mem_cons.2 ⟨hpartial, fun v hv => hroom v (by simp [hv])⟩)
      (evalInt_cons_cons op k c ks ▸ hresult) hnodup
      (fun x hx => List.not_mem_cons_of_ne_of_not_mem (fun h => hbetter (h ▸ hx))
        fun h => hfresh x (by simp [hx]) (List.mem_append_right [found, a] h))
      hdeclared (List.forall_mem_cons.2 ⟨hword, hwords⟩)
    exact ⟨mem', .cons hrun hholds hframe hbetter hleaves⟩

end

/-! ## Nodes -/

namespace Emission

variable {s : Store R} {realWidth : Nat} {operand : NodeId → Emission R String} {l l₁ : Emitted R}
  {op : ArithOp} {xs : List NodeId} {names : List String} {g : IntFormat}

/-- The code computes the operator on operands of one signedness, if partial results have room in
words of the first type, the result has room in words of the second, and the code declares new
names. -/
def Implements (op : ArithOp) (partialRepr repr : IntRepr) (names : List String) (out : String)
    (code : List (Statement R)) : Prop :=
  ∀ (mem : Memory) (ks : List Int), List.Forall₂ (mem.Reads partialRepr.signedness) names ks →
    (∀ k ∈ ks, partialRepr.wrap k = k) → repr.wrap (op.evalInt ks) = op.evalInt ks →
    (declaredIn code).Nodup → (∀ x ∈ declaredIn code, x ∉ names) →
    (∀ x ∈ declaredIn code, Names.IsWord x) → ∃ mem', Leaves op ks repr out code mem mem'

section

variable (hlength : 2 ≤ names.length) (hwords : ∀ x ∈ names, Names.IsWord x)
include hlength hwords

end

/-- The operands have words of their formats, which stand for integers in the ranges of the
formats. -/
def OperandsHold (s : Store R) (naming : Naming) (mem : Memory) (value : NodeId → Int)
    (xs : List NodeId) : Prop :=
  ∀ j ∈ xs, ∃ name f, naming j = some name ∧ s.format j = .int f ∧ value j ∈ f.range ∧
    mem.Holds name f.repr (value j)

namespace OperandsHold

variable {naming : Naming} {mem : Memory} {value : NodeId → Int}

/-- Words hold what their formats carry. -/
theorem carries (h : OperandsHold s naming mem value xs) {j : NodeId} (hj : j ∈ xs) :
    ∃ f, s.format j = .int f ∧ f.Carries (value j) := by
  obtain ⟨name, f, -, hf, hmem, bits, -, hvalue⟩ := h j hj
  refine ⟨f, hf, hmem, ?_⟩
  rw [← hvalue]
  exact Word.wrap_value ⟨f.repr, bits⟩

theorem reads (h : OperandsHold s naming mem value xs) (hnames : naming.Gives xs names)
    {sg : Signedness} (hsg : ∀ j ∈ xs, ∀ f, s.format j = .int f → f.signedness = sg) :
    List.Forall₂ (mem.Reads sg) names (xs.map value) := by
  induction hnames with
  | nil => exact .nil
  | @cons j x xs names hx _ ih =>
    obtain ⟨name, f, hname, hf, -, hholds⟩ := h j (by simp)
    obtain rfl : name = x := Option.some.inj (hname.symm.trans hx)
    exact .cons (hholds.reads (hsg j (by simp) f hf))
      (ih (fun j hj => h j (by simp [hj])) fun j hj => hsg j (by simp [hj]))

end OperandsHold

end Emission

end Verilog

namespace Store

variable {R : Type} [Scalar R] {rounding : Rounding R} {s : Store R} {i : NodeId} {op : ArithOp}
  {xs : List NodeId} {g : IntFormat} {value : NodeId → Int}

end Store

namespace Verilog

variable {R : Type} [Scalar R]

end Verilog

end MixedSignal
