import Mathlib.Data.List.Perm.Basic
import Mathlib.Logic.Function.Basic
import MixedSignal.Proofs.Outcome
import MixedSignal.Verilog.Emission

/-!
# Code of expressions

`NodeCode` says which statements compute a node from the names of its operands, with one rule for
each way in which a node is written out. A `Lowering` is a node with its name and its statements, and
`Lowers` is a sequence of them, in which every node is new and its operands have names already.

Such code reads only what has a name or was declared before (`Lowers.scoped`), and it drives what it
declares (`Lowers.driven_perm`).
-/

set_option linter.unusedSectionVars false

namespace MixedSignal.Verilog

variable {R : Type} [Scalar R] {j : NodeId}

theorem perm_append_middle (a b c d : List String) :
    ((a ++ b) ++ (c ++ d)).Perm ((a ++ c) ++ (b ++ d)) := by
  simp only [List.append_assoc]
  refine List.Perm.append_left a ?_
  rw [← List.append_assoc, ← List.append_assoc]
  exact List.perm_append_comm.append_right d

/-! ## Names in statements -/

/-- The names that a right-hand side reads. -/
def Source.operands : Source → List String
  | name a | bitNot a | shiftLeft a _ | shiftRight _ a _ | slice a _ _ | signed a => [a]
  | sum as | product as | bitwise _ as | concat as => as
  | choose _ a b | compare _ a b => [a, b]
  | literal _ | zero => []

namespace Statement

/-- The name that a statement declares. Macros of reals declare what they compute. -/
def declared? : Statement R → Option String
  | declareInt name _ | declareBit name | declareReal name _ _ | declareLike _ name
  | declareParam _ name _ => some name
  | constReal _ out | arithReal _ _ _ out | scaleReal _ _ out | compareReal _ _ _ out
  | intToReal _ _ out | realToInt _ _ out => some out
  | assign .. | assignReal .. | select .. | registerReal .. | registerInt .. | probeReal ..
  | probeInt .. => none

/-- The name that a statement gives a value. -/
def driven? : Statement R → Option String
  | declareParam _ name _ => some name
  | constReal _ out | arithReal _ _ _ out | scaleReal _ _ out | compareReal _ _ _ out
  | intToReal _ _ out | realToInt _ _ out | select _ _ out => some out
  | assign target _ | assignReal _ target | registerReal _ target _ _
  | registerInt _ target _ _ => some target
  | declareInt .. | declareBit .. | declareReal .. | declareLike .. | probeReal ..
  | probeInt .. => none

/-- The statement has the name as an operand. Clock, reset and enable are set aside, and a literal
among the entries of a selection is no name. -/
def Reads (x : String) : Statement R → Prop
  | declareLike a _ | declareParam a _ _ | assignReal a _ | scaleReal _ a _ | intToReal a _ _
  | realToInt a _ _ | registerReal a _ _ _ | registerInt a _ _ _ | probeReal a | probeInt a _ =>
    x = a
  | arithReal _ a b _ | compareReal _ a b _ => x = a ∨ x = b
  | assign _ source => x ∈ source.operands
  | select address entries _ => x = address ∨ x ∈ entries ∧ ∀ l : Literal, x ≠ l.text
  | declareInt .. | declareBit .. | declareReal .. | constReal .. => False

end Statement

/-- The names that statements declare. -/
def declaredIn (code : List (Statement R)) : List String := code.filterMap Statement.declared?

/-- The names that statements drive. -/
def drivenIn (code : List (Statement R)) : List String := code.filterMap Statement.driven?

@[simp] theorem declaredIn_nil : declaredIn ([] : List (Statement R)) = [] := rfl

@[simp] theorem declaredIn_append (code code' : List (Statement R)) :
    declaredIn (code ++ code') = declaredIn code ++ declaredIn code' :=
  List.filterMap_append

@[simp] theorem declaredIn_cons (t : Statement R) (code : List (Statement R)) :
    declaredIn (t :: code) = t.declared?.toList ++ declaredIn code := by
  cases h : t.declared? <;> simp [declaredIn, h]

@[simp] theorem drivenIn_nil : drivenIn ([] : List (Statement R)) = [] := rfl

@[simp] theorem drivenIn_append (code code' : List (Statement R)) :
    drivenIn (code ++ code') = drivenIn code ++ drivenIn code' :=
  List.filterMap_append

@[simp] theorem drivenIn_cons (t : Statement R) (code : List (Statement R)) :
    drivenIn (t :: code) = t.driven?.toList ++ drivenIn code := by
  cases h : t.driven? <;> simp [drivenIn, h]

/-- Every operand is known from the start or declared by an earlier statement. -/
def Scoped (known : String → Prop) : List (Statement R) → Prop
  | [] => True
  | t :: code => (∀ x, t.Reads x → known x) ∧
    Scoped (fun x => known x ∨ t.declared? = some x) code

theorem Scoped.mono {known known' : String → Prop} {code : List (Statement R)}
    (h : Scoped known code) (hk : ∀ x, known x → known' x) : Scoped known' code := by
  induction code generalizing known known' with
  | nil => trivial
  | cons t code ih =>
    obtain ⟨hreads, hcode⟩ := h
    exact ⟨fun x hx => hk x (hreads x hx), ih hcode fun x => Or.imp_left (hk x)⟩

theorem scoped_append {known : String → Prop} {code code' : List (Statement R)} :
    Scoped known (code ++ code') ↔
      Scoped known code ∧ Scoped (fun x => known x ∨ x ∈ declaredIn code) code' := by
  induction code generalizing known with
  | nil => simp [Scoped]
  | cons t code ih =>
    simp only [List.cons_append, Scoped, ih, and_assoc, declaredIn_cons, List.mem_append,
      Option.mem_toList, or_assoc]

theorem scoped_of_forall {known : String → Prop} {code : List (Statement R)}
    (h : ∀ t ∈ code, ∀ x, t.Reads x → known x) : Scoped known code := by
  induction code generalizing known with
  | nil => trivial
  | cons t code ih =>
    exact ⟨h t (by simp), ih fun u hu x hx => .inl (h u (by simp [hu]) x hx)⟩

/-- A statement reads what is known or declared before it. -/
theorem Scoped.reads {known : String → Prop} {before after : List (Statement R)} {t : Statement R}
    (h : Scoped known (before ++ t :: after)) {x : String} (hx : t.Reads x) :
    known x ∨ x ∈ declaredIn before :=
  (scoped_append.1 h).2.1 x hx

/-! ## Code of nodes -/

/-- The names of the nodes that have one. -/
abbrev Naming := NodeId → Option String

/-- The nodes have these names. -/
abbrev Naming.Gives (naming : Naming) : List NodeId → List String → Prop :=
  List.Forall₂ fun j x => naming j = some x

/-- Neighbours are combined in pairs, and an odd last one is kept. -/
inductive Pairs (op : ArithOp) : List String → List String → List (Statement R) → Prop
  | nil : Pairs op [] [] []
  | odd {a} : Pairs op [a] [a] []
  | pair {a b out names outs code} (h : Pairs op names outs code) :
    Pairs op (a :: b :: names) (out :: outs) (.arithReal op a b out :: code)

/-- Neighbours are combined in pairs until one is left. -/
inductive Tree (op : ArithOp) : List String → String → List (Statement R) → Prop
  | leaf {a} : Tree op [a] a []
  | round {a b names outs out code code'} (hpairs : Pairs op (a :: b :: names) outs code)
    (htree : Tree op outs out code') : Tree op (a :: b :: names) out (code ++ code')

/-- Names are compared one after the other with the one found so far. -/
inductive Chain (order : CompareOp) (partialRepr repr : IntRepr) :
    String → List String → String → List (Statement R) → Prop
  | last {found a out} : Chain order partialRepr repr found [a] out
      [.declareInt out repr, .assign out (.choose order found a)]
  | next {found a b names better out code}
    (h : Chain order partialRepr repr better (b :: names) out code) :
    Chain order partialRepr repr found (a :: b :: names) out
      (.declareInt better partialRepr :: .assign better (.choose order found a) :: code)

/-- The right-hand side that computes a node on integers. -/
inductive IntSource (s : Store R) (naming : Naming) : NodeKind R → Source → Prop
  | sum {xs names} (h : naming.Gives xs names) : IntSource s naming (.arith .sum xs) (.sum names)
  | product {xs names} (h : naming.Gives xs names) :
    IntSource s naming (.arith .product xs) (.product names)
  | bitwise {op xs names} (h : naming.Gives xs names) :
    IntSource s naming (.bitwise op xs) (.bitwise op names)
  | concat {xs names} (h : naming.Gives xs names) : IntSource s naming (.concat xs) (.concat names)
  | bitNot {a x} (h : naming a = some x) : IntSource s naming (.bitNot a) (.bitNot x)
  | shiftLeft {a x n} (h : naming a = some x) :
    IntSource s naming (.shift .left a n) (.shiftLeft x n)
  | shiftRight {a x n} (h : naming a = some x) : IntSource s naming (.shift .right a n)
      (.shiftRight ((s.format a).int?.map (·.signedness)) x n)
  | slice {a x msb lsb} (h : naming a = some x) :
    IntSource s naming (.slice a msb lsb) (.slice x msb lsb)
  | signed {a x} (h : naming a = some x) : IntSource s naming (.convert .uintToSint a) (.signed x)
  | unsigned {a x} (h : naming a = some x) : IntSource s naming (.convert .sintToUint a) (.name x)
  | resize {a x} (h : naming a = some x) : IntSource s naming (.convert .resize a) (.name x)

/-- An element of a selection between integers as it is written: a constant in place, and else the
name. -/
def IntEntry (s : Store R) (naming : Naming) (j : NodeId) (e : String) : Prop :=
  (∃ v f, s.const? j = some v ∧ s.format j = .int f ∧ e = Literal.text ⟨v.toInt, f.repr⟩) ∨
    naming j = some e

/-- The elements of a selection between reals, each in the format of the result. -/
def entryCode (out : String) (values entries : List String) : List (Statement R) :=
  (values.zip entries).flatMap fun (value, entry) =>
    [.declareLike out entry, .assignReal value entry]

/-- The statements that compute a node of a kind and format into a name, from the names of its
operands. -/
inductive NodeCode (s : Store R) (realWidth : Nat) (naming : Naming) :
    NodeKind R → Format R → String → List (Statement R) → Prop
  | signal {x f} (hx : x < s.signals.size) :
    NodeCode s realWidth naming (.signal x) f (s.signal x).name []
  | constReal {v f out} :
    NodeCode s realWidth naming (.const v) (.real f) out [.constReal v.toScalar out]
  | constInt {v f out} : NodeCode s realWidth naming (.const v) (.int f) out
      [.declareInt out f.repr, .assign out (.literal ⟨v.toInt, f.repr⟩)]
  | scaled {op xs f factor rest names product out code}
    (hfactor : Emission.constantFactor? s op xs = some (factor, rest))
    (hnames : naming.Gives rest names) (htree : Tree .product names product code) :
    NodeCode s realWidth naming (.arith op xs) (.real f) out
      (code ++ [.scaleReal factor product out])
  | tree {op xs f names out code} (hfactor : Emission.constantFactor? s op xs = none)
    (htwo : 2 ≤ xs.length) (hnames : naming.Gives xs names) (htree : Tree op names out code) :
    NodeCode s realWidth naming (.arith op xs) (.real f) out code
  | extremum {op order xs f found names out code}
    (horder : op = .min ∧ order = .lt ∨ op = .max ∧ order = .gt)
    (hnames : naming.Gives xs (found :: names))
    (hchain : Chain order (Emission.partialRepr s xs f) f.repr found names out code) :
    NodeCode s realWidth naming (.arith op xs) (.int f) out code
  | int {kind f source out} (hsource : IntSource s naming kind source) :
    NodeCode s realWidth naming kind (.int f) out [.declareInt out f.repr, .assign out source]
  | compareReal {op a b f g x y out} (hreal : s.format a = .real g) (ha : naming a = some x)
    (hb : naming b = some y) :
    NodeCode s realWidth naming (.compare op a b) f out [.compareReal op x y out]
  | compareInt {op a b f g x y out} (hint : s.format a = .int g) (ha : naming a = some x)
    (hb : naming b = some y) : NodeCode s realWidth naming (.compare op a b) f out
      [.declareBit out, .assign out (.compare op x y)]
  | intToReal {a f x out} (ha : naming a = some x) :
    NodeCode s realWidth naming (.convert .sintToReal a) f out [.intToReal x (s.width a) out]
  | realToInt {a f x out} (ha : naming a = some x) :
    NodeCode s realWidth naming (.convert .realToSint a) (.int f) out [.realToInt x f.width out]
  | selectReal {xs a f x values entries out} (ha : naming a = some x)
    (hvalues : naming.Gives xs values) (hlength : entries.length = values.length) :
    NodeCode s realWidth naming (.select xs a) (.real f) out
      (Emission.declarationOfReal realWidth out f :: entryCode out values entries ++
        [.select x entries out])
  | selectInt {xs a f x entries out} (ha : naming a = some x)
    (hentries : List.Forall₂ (IntEntry s naming) xs entries) :
    NodeCode s realWidth naming (.select xs a) (.int f) out
      [.declareInt out f.repr, .select x entries out]

/-- A node with its name and the statements that compute it. -/
structure Lowering (R : Type) where
  node : NodeId
  name : String
  code : List (Statement R)

/-- The statements of all nodes. -/
def codeOf (xs : List (Lowering R)) : List (Statement R) := xs.flatMap (·.code)

theorem codeOf_append (xs ys : List (Lowering R)) : codeOf (xs ++ ys) = codeOf xs ++ codeOf ys :=
  List.flatMap_append

/-- Nodes are computed one after the other, each one once and from names that are there. -/
inductive Lowers (s : Store R) (realWidth : Nat) : Naming → List (Lowering R) → Naming → Prop
  | nil {naming} : Lowers s realWidth naming [] naming
  | cons {naming naming' x xs} (hnew : naming x.node = none)
    (hcode : NodeCode s realWidth naming (s.kind x.node) (s.format x.node) x.name x.code)
    (h : Lowers s realWidth (Function.update naming x.node (some x.name)) xs naming') :
    Lowers s realWidth naming (x :: xs) naming'

/-! ## Sequences -/

namespace Lowers

variable {s : Store R} {realWidth : Nat} {naming naming' naming'' : Naming}
  {xs ys : List (Lowering R)}

variable (h : Lowers s realWidth naming xs naming')
include h

theorem append (h' : Lowers s realWidth naming' ys naming'') :
    Lowers s realWidth naming (xs ++ ys) naming'' := by
  induction h with
  | nil => exact h'
  | cons hnew hcode _ ih => exact .cons hnew hcode (ih h')

/-- Names come from the start or from a lowering. -/
theorem eq_some_iff {name : String} :
    naming' j = some name ↔ naming j = some name ∨ ∃ x ∈ xs, x.node = j ∧ x.name = name := by
  induction h with
  | nil => simp
  | @cons naming _ x xs hnew _ _ ih =>
    rw [ih, Function.update_apply]
    by_cases hj : j = x.node
    · subst hj
      simp [hnew]
    · simp [hj, Ne.symm hj]

theorem gives {name : String} (hj : naming j = some name) : naming' j = some name :=
  h.eq_some_iff.2 (.inl hj)

/-- A node that is not lowered keeps its name, or has none. -/
theorem eq_of_notMem (hj : ∀ x ∈ xs, x.node ≠ j) : naming' j = naming j := by
  refine Option.ext fun name => ?_
  rw [h.eq_some_iff]
  exact or_iff_left fun ⟨x, hx, heq, _⟩ => hj x hx heq

theorem new : ∀ x ∈ xs, naming x.node = none := by
  induction h with
  | nil => simp
  | @cons naming _ x xs hnew _ _ ih =>
    refine List.forall_mem_cons.2 ⟨hnew, fun y hy => ?_⟩
    have hy' := ih y hy
    rw [Function.update_apply] at hy'
    split at hy'
    · cases hy'
    · exact hy'

/-- No node is lowered twice. -/
theorem nodup : (xs.map (·.node)).Nodup := by
  induction h with
  | nil => exact List.nodup_nil
  | @cons naming _ x xs _ _ h ih =>
    refine List.nodup_cons.2 ⟨fun hmem => ?_, ih⟩
    obtain ⟨y, hy, heq⟩ := List.mem_map.1 hmem
    have hnew := h.new y hy
    rw [heq, Function.update_self] at hnew
    cases hnew

end Lowers

/-! ## What code reads, declares and drives -/

section

variable {op : ArithOp} {known : String → Prop} {names outs : List String} {out : String}
  {code : List (Statement R)}

theorem Pairs.length_eq (h : Pairs op names outs code) : outs.length = (names.length + 1) / 2 := by
  induction h with
  | nil | odd => simp
  | pair _ ih =>
    simp only [List.length_cons, ih]
    omega

theorem Pairs.driven_eq (h : Pairs op names outs code) : drivenIn code = declaredIn code := by
  induction h with
  | nil | odd => rfl
  | pair _ ih => simp [Statement.driven?, Statement.declared?, ih]

/-- The results are known, or declared on the way. -/
theorem Pairs.scoped (h : Pairs op names outs code) (hnames : ∀ x ∈ names, known x) :
    Scoped known code ∧ ∀ x ∈ outs, known x ∨ x ∈ declaredIn code := by
  induction h generalizing known with
  | nil => exact ⟨trivial, by simp⟩
  | odd => exact ⟨trivial, fun x hx => .inl (hnames x hx)⟩
  | @pair a b out names outs code _ ih =>
    have hknown : ∀ x ∈ names, known x ∨ x = out := fun x hx => .inl (hnames x (by simp [hx]))
    obtain ⟨hscoped, houts⟩ := ih hknown
    refine ⟨⟨?_, hscoped.mono fun x => Or.imp_right fun h => congrArg some h.symm⟩, ?_⟩
    · rintro x (rfl | rfl)
      · exact hnames x (by simp)
      · exact hnames x (by simp)
    · refine List.forall_mem_cons.2 ⟨.inr (by simp [Statement.declared?]), fun x hx => ?_⟩
      rw [declaredIn_cons, List.mem_append, ← or_assoc]
      exact (houts x hx).imp_left (Or.imp_right fun h => by simp [Statement.declared?, h])

theorem Tree.driven_eq (h : Tree op names out code) : drivenIn code = declaredIn code := by
  induction h with
  | leaf => rfl
  | round hpairs _ ih => simp [hpairs.driven_eq, ih]

theorem Tree.scoped (h : Tree op names out code) (hnames : ∀ x ∈ names, known x) :
    Scoped known code ∧ (known out ∨ out ∈ declaredIn code) := by
  induction h generalizing known with
  | leaf => exact ⟨trivial, .inl (hnames _ (by simp))⟩
  | round hpairs _ ih =>
    obtain ⟨hscoped, houts⟩ := hpairs.scoped hnames
    obtain ⟨hscoped', hout⟩ := ih houts
    refine ⟨scoped_append.2 ⟨hscoped, hscoped'⟩, ?_⟩
    rw [declaredIn_append, List.mem_append, ← or_assoc]
    exact hout

/-- The result of an operator on several names is declared. -/
theorem Tree.declared (h : Tree op names out code) (hnames : 2 ≤ names.length) :
    out ∈ declaredIn code := by
  induction h with
  | leaf => simp at hnames
  | @round a b names outs out code code' hpairs htree ih =>
    rw [declaredIn_append, List.mem_append]
    cases htree with
    | leaf =>
      cases hpairs with
      | pair _ => exact .inl (by simp [Statement.declared?])
    | round hpairs' htree' => exact .inr (ih (by simp))

variable {order : CompareOp} {partialRepr repr : IntRepr} {found : String}

section

variable (h : Chain order partialRepr repr found names out code)
include h

theorem Chain.driven_eq : drivenIn code = declaredIn code := by
  induction h with
  | last => rfl
  | next _ ih => simp [Statement.driven?, Statement.declared?, ih]

theorem Chain.declared : out ∈ declaredIn code := by
  induction h with
  | last => simp [Statement.declared?]
  | next _ ih => simp [Statement.declared?, ih]

theorem Chain.scoped (hfound : known found) (hnames : ∀ x ∈ names, known x) :
    Scoped known code := by
  induction h generalizing known with
  | last =>
    refine ⟨fun x hx => hx.elim, fun x hx => ?_, trivial⟩
    rcases List.mem_pair.1 hx with rfl | rfl
    · exact .inl hfound
    · exact .inl (hnames x (by simp))
  | @next found a b names better out code _ ih =>
    refine ⟨fun x hx => hx.elim, fun x hx => ?_, ?_⟩
    · rcases List.mem_pair.1 hx with rfl | rfl
      · exact .inl hfound
      · exact .inl (hnames x (by simp))
    · exact ih (.inl (.inr rfl)) fun x hx => .inl (.inl (hnames x (by simp [hx])))

end

theorem entryCode_cons (value entry : String) (values entries : List String) :
    entryCode (R := R) out (value :: values) (entry :: entries) =
      [.declareLike out entry, .assignReal value entry] ++ entryCode out values entries :=
  rfl

theorem entryCode_names {values entries : List String} (h : entries.length = values.length) :
    declaredIn (entryCode (R := R) out values entries) = entries ∧
      drivenIn (entryCode (R := R) out values entries) = entries := by
  induction entries generalizing values with
  | nil => simp [entryCode]
  | cons entry entries ih =>
    obtain ⟨value, values, rfl⟩ := List.exists_cons_of_length_eq_add_one (h.symm)
    obtain ⟨hdeclared, hdriven⟩ := ih (Nat.succ.inj h)
    rw [entryCode_cons, declaredIn_append, drivenIn_append, hdeclared, hdriven]
    exact ⟨rfl, rfl⟩

theorem entryCode_scoped {values entries : List String} (hout : known out)
    (hvalues : ∀ x ∈ values, known x) : Scoped known (entryCode (R := R) out values entries) := by
  induction values generalizing entries known with
  | nil => trivial
  | cons value values ih =>
    cases entries with
    | nil => trivial
    | cons entry entries =>
      refine ⟨fun x hx => hx ▸ hout, fun x hx => .inl (hx ▸ hvalues value (by simp)), ?_⟩
      exact ih (.inl (.inl hout)) fun x hx => .inl (.inl (hvalues x (by simp [hx])))

variable {s : Store R} {realWidth : Nat} {naming : Naming} {kind : NodeKind R} {f : Format R}

theorem Naming.Gives.forall_known {xs : List NodeId} (h : naming.Gives xs names)
    (hknown : ∀ j x, naming j = some x → known x) : ∀ x ∈ names, known x := by
  intro x hx
  obtain ⟨j, -, hj⟩ := forall₂_exists_left h x hx
  exact hknown j x hj

theorem IntSource.forall_known {source : Source} (h : IntSource s naming kind source)
    (hknown : ∀ j x, naming j = some x → known x) : ∀ x ∈ source.operands, known x := by
  cases h with
  | sum h | product h | bitwise h | concat h => exact h.forall_known hknown
  | bitNot h | shiftLeft h | shiftRight h | slice h | signed h | unsigned h | resize h =>
    intro x hx
    obtain rfl := List.mem_singleton.1 hx
    exact hknown _ _ h

section

variable (h : NodeCode s realWidth naming kind f out code)
include h

/-- The code of a node reads the names of nodes and what it declared before. -/
theorem NodeCode.scoped (hknown : ∀ j x, naming j = some x → known x) : Scoped known code := by
  cases h with
  | signal => trivial
  | constReal => exact ⟨fun x hx => hx.elim, trivial⟩
  | constInt => exact ⟨fun x hx => hx.elim, fun x hx => absurd hx List.not_mem_nil, trivial⟩
  | scaled _ hnames htree =>
    obtain ⟨hscoped, hproduct⟩ := htree.scoped (hnames.forall_known hknown)
    exact scoped_append.2 ⟨hscoped, fun x hx => hx ▸ hproduct, trivial⟩
  | tree _ _ hnames htree => exact (htree.scoped (hnames.forall_known hknown)).1
  | extremum _ hnames hchain =>
    have hall := hnames.forall_known hknown
    exact hchain.scoped (hall _ (by simp)) fun x hx => hall x (by simp [hx])
  | int hsource =>
    exact ⟨fun x hx => hx.elim, fun x hx => .inl (hsource.forall_known hknown x hx), trivial⟩
  | compareReal _ ha hb =>
    refine ⟨?_, trivial⟩
    rintro x (rfl | rfl)
    · exact hknown _ _ ha
    · exact hknown _ _ hb
  | compareInt _ ha hb =>
    refine ⟨fun x hx => hx.elim, fun x hx => .inl ?_, trivial⟩
    rcases List.mem_pair.1 hx with rfl | rfl
    · exact hknown _ _ ha
    · exact hknown _ _ hb
  | intToReal ha | realToInt ha => exact ⟨fun x hx => hx ▸ hknown _ _ ha, trivial⟩
  | @selectReal xs a f x values entries out ha hvalues hlength =>
    refine scoped_append.2 ⟨⟨fun x hx => hx.elim, ?_⟩, ?_, trivial⟩
    · exact entryCode_scoped (.inr rfl) fun x hx => .inl (hvalues.forall_known hknown x hx)
    · rintro x (rfl | ⟨hx, -⟩)
      · exact .inl (hknown _ _ ha)
      · refine .inr ?_
        rw [declaredIn_cons, (entryCode_names hlength).1]
        exact List.mem_append_right _ hx
  | selectInt ha hentries =>
    refine ⟨fun x hx => hx.elim, ?_, trivial⟩
    rintro x (rfl | ⟨hx, hliteral⟩)
    · exact .inl (hknown _ _ ha)
    · obtain ⟨j, -, hj⟩ := forall₂_exists_left hentries x hx
      rcases hj with ⟨v, f, -, -, heq⟩ | hj
      · exact absurd heq (hliteral _)
      · exact .inl (hknown _ _ hj)

/-- A signal has its own name and needs no code, and any other node a name that its code declares.
-/
theorem NodeCode.name_cases :
    (∃ x < s.signals.size, kind = .signal x ∧ out = (s.signal x).name ∧ code = []) ∨
      (∀ x, kind ≠ .signal x) ∧ out ∈ declaredIn code := by
  cases h with
  | signal hx => exact .inl ⟨_, hx, rfl, rfl, rfl⟩
  | tree _ htwo hnames htree =>
    exact .inr ⟨by simp, htree.declared (hnames.length_eq ▸ htwo)⟩
  | extremum _ _ hchain => exact .inr ⟨by simp, hchain.declared⟩
  | int hsource =>
    refine .inr ⟨?_, by simp [Statement.declared?]⟩
    rintro x rfl
    cases hsource
  | selectReal => exact .inr ⟨by simp, by simp [Emission.declarationOfReal, Statement.declared?]⟩
  | _ => exact .inr ⟨by simp, by simp [Statement.declared?]⟩

/-- What the code of a node declares, it drives. -/
theorem NodeCode.driven_perm : (drivenIn code).Perm (declaredIn code) := by
  cases h with
  | scaled _ _ htree => simp [htree.driven_eq, Statement.driven?, Statement.declared?]
  | tree _ _ _ htree => rw [htree.driven_eq]
  | extremum _ _ hchain => rw [hchain.driven_eq]
  | selectReal _ _ hlength =>
    simp only [List.cons_append, declaredIn_cons, declaredIn_append, drivenIn_cons,
      drivenIn_append, (entryCode_names hlength).1, (entryCode_names hlength).2]
    exact (List.perm_append_singleton _ _).trans (by simp [Emission.declarationOfReal,
      Statement.declared?])
  | _ => exact .rfl

end

variable {naming' : Naming} {xs : List (Lowering R)}

variable (h : Lowers s realWidth naming xs naming')
include h

/-- Code of nodes reads names from the start and what was declared before. All names at the end are
of this kind. -/
theorem Lowers.scoped (hknown : ∀ j x, naming j = some x → known x)
    (hsignal : ∀ y < s.signals.size, known (s.signal y).name) :
    Scoped known (codeOf xs) ∧
      ∀ j x, naming' j = some x → known x ∨ x ∈ declaredIn (codeOf xs) := by
  induction h generalizing known with
  | nil => exact ⟨trivial, fun j x hx => .inl (hknown j x hx)⟩
  | @cons naming naming' x xs _ hcode _ ih =>
    have hknown' : ∀ j y, Function.update naming x.node (some x.name) j = some y →
        known y ∨ y ∈ declaredIn x.code := by
      intro j y hy
      rw [Function.update_apply] at hy
      split at hy
      · obtain rfl := Option.some.inj hy
        rcases hcode.name_cases with ⟨z, hz, -, heq, -⟩ | ⟨-, hdeclared⟩
        · exact .inl (heq ▸ hsignal z hz)
        · exact .inr hdeclared
      · exact .inl (hknown j y hy)
    obtain ⟨hscoped, hnames⟩ := ih hknown' fun y hy => .inl (hsignal y hy)
    refine ⟨scoped_append.2 ⟨hcode.scoped hknown, hscoped⟩, fun j y hy => ?_⟩
    rw [codeOf, List.flatMap_cons, declaredIn_append, List.mem_append, ← or_assoc]
    exact hnames j y hy

theorem Lowers.driven_perm : (drivenIn (codeOf xs)).Perm (declaredIn (codeOf xs)) := by
  induction h with
  | nil => exact .rfl
  | cons _ hcode _ ih =>
    simp only [codeOf, List.flatMap_cons, drivenIn_append, declaredIn_append]
    exact hcode.driven_perm.append ih

theorem Lowers.nodeCode : ∀ x ∈ xs, ∃ naming,
    NodeCode s realWidth naming (s.kind x.node) (s.format x.node) x.name x.code := by
  induction h with
  | nil => simp
  | cons _ hcode _ ih => exact List.forall_mem_cons.2 ⟨⟨_, hcode⟩, ih⟩

end

end MixedSignal.Verilog
