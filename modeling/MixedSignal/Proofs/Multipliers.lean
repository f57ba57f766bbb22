import Mathlib
import MixedSignal.Proofs.Invariants
import MixedSignal.Proofs.StraightLine
import MixedSignal.Proofs.WrittenCode

/-!
# Multipliers of an emitted module

Multipliers are what makes real-number hardware large. `Model.multiplier_budget` counts the lines of a
module that call one: each real product with a constant factor is scaled once, and each real product
takes one general multiplier less than it has other factors, however often it is used.

The count goes through `Statement.macro?`, the macro that a statement calls. Code of one node is
counted by the rules of `NodeCode`. Every node that is needed is lowered, and no node twice.
-/

set_option linter.unusedSectionVars false

namespace MixedSignal

variable {R : Type} [Scalar R] {i : NodeId}

open Verilog Dependency

namespace Verilog

/-! ## Lines that call a macro -/

/-- The line calls the macro of this name. -/
def isCallOf (name line : String) : Bool :=
  ("`" ++ name ++ "(").toList.isPrefixOf (line.toList.dropWhile (· == ' '))

/-- How many lines call the macro. -/
def callCount (name : String) (lines : List String) : Nat := lines.countP (isCallOf name)

theorem isCallOf_indented (name line : String) (indent : Indent) :
    isCallOf name (indent.text ++ line) = isCallOf name line := by
  have hblank : ∀ c ∈ indent.text.toList, (c == ' ') = true := by
    intro c hc
    have hc : indent.depth ≠ 0 ∧ c = ' ' := by simpa [Indent.text, Indent.unit] using hc
    exact beq_iff_eq.2 hc.2
  rw [isCallOf, String.toList_append (s := indent.text), List.dropWhile_append_of_pos hblank, isCallOf]

/-- A call names its macro up to the first bracket. -/
theorem isCallOf_call {name other : String} (hname : '(' ∉ name.toList)
    (hother : '(' ∉ other.toList) (args : List String) (rest : String) :
    isCallOf name (call other args ++ rest) = decide (name = other) := by
  have hline : (call other args ++ rest).toList.dropWhile (· == ' ') =
      (call other args ++ rest).toList := by
    simp [call]
  rw [Bool.eq_iff_iff, decide_eq_true_iff, isCallOf, hline, List.isPrefixOf_iff_prefix]
  simp only [call, String.toList_append, String.reduceToList, List.cons_append, List.nil_append,
    List.append_assoc, List.cons_prefix_cons, true_and]
  constructor
  · rintro ⟨tail, htail⟩
    rw [List.append_assoc, List.singleton_append] at htail
    have hfirst := congrArg (List.takeWhile (· ≠ '(')) htail
    rw [List.takeWhile_append_of_pos (by grind), List.takeWhile_append_of_pos (by grind)] at hfirst
    exact String.toList_inj.1 (by simpa using hfirst)
  · rintro rfl
    exact (List.prefix_append_right_inj _).2 ⟨_, rfl⟩

theorem isCallOf_eq_false {name line : String}
    (h : ∀ c, line.toList.head? = some c → c ≠ '`' ∧ c ≠ ' ') : isCallOf name line = false := by
  rw [Bool.eq_false_iff, isCallOf, ne_eq, List.isPrefixOf_iff_prefix]
  rintro ⟨tail, htail⟩
  cases hline : line.toList with
  | nil => simp [hline] at htail
  | cons c rest =>
    obtain ⟨hc, hblank⟩ := h c (by rw [hline, List.head?_cons])
    simp [hline, hblank, hc.symm] at htail

namespace Statement

/-- The macro that a statement calls. -/
def macro? : Statement R → Option String
  | declareReal _ _ (some _) => some "MAKE_FORMAT_REAL"
  | declareReal _ _ none => some "MAKE_REAL"
  | declareLike .. => some "COPY_FORMAT_REAL"
  | declareParam .. => some "MAKE_GENERIC_CONST_REAL"
  | constReal .. => some "MAKE_CONST_REAL"
  | assignReal .. => some "ASSIGN_REAL"
  | arithReal op .. => some (arithCall op)
  | scaleReal .. => some "MUL_CONST_REAL"
  | compareReal op .. => some (compareCall op)
  | intToReal .. => some "INT_TO_REAL"
  | realToInt .. => some "REAL_TO_INT"
  | registerReal .. => some "DFF_INTO_REAL"
  | probeReal .. => some "PROBE_ANALOG"
  | probeInt .. => some "PROBE_DIGITAL"
  | declareInt .. | declareBit .. | assign .. | select .. | registerInt .. => none

/-- The name of an integer register, with which some of its lines start. -/
def registered? : Statement R → Option String
  | registerInt _ target _ _ => some target
  | _ => none

theorem registered?_of_macro? {t : Statement R} {name : String} (h : t.macro? = some name) :
    t.registered? = none := by
  cases t with
  | registerInt => cases h
  | _ => rfl

end Statement

theorem isCallOf_number (name : String) (k : Nat) (rest : String) :
    isCallOf name (toString k ++ rest) = false := by
  refine isCallOf_eq_false fun c hhead => ?_
  rw [String.toList_append, Nat.toString_eq_ofList_toDigits, String.toList_ofList,
    List.head?_append_of_ne_nil _ Nat.toDigits_ne_nil] at hhead
  have hdigit := Nat.isDigit_of_mem_toDigits (by decide) (by decide) (List.mem_of_mem_head? hhead)
  refine ⟨?_, ?_⟩ <;> rintro rfl <;> exact absurd hdigit (by decide)

theorem isCallOf_identifier (name : String) {x : String} (hx : Identifier.isValid x = true)
    (rest : String) : isCallOf name (x ++ rest) = false := by
  refine isCallOf_eq_false fun c hhead => ?_
  rw [String.toList_append] at hhead
  unfold Identifier.isValid at hx
  split at hx
  · cases hx
  · rename_i d cs hcs
    rw [hcs, List.cons_append, List.head?_cons, Option.some.injEq] at hhead
    rw [hhead] at hx
    refine ⟨?_, ?_⟩ <;> rintro rfl <;> simp [Identifier.isStart] at hx

namespace Statement

/-- A statement calls its macro in one line, and no other line looks like a call where registers are
signals. -/
theorem callCount_written {name : String} (hname : '(' ∉ name.toList) {t : Statement R}
    (ht : ∀ x, t.registered? = some x → Identifier.isValid x = true) :
    callCount name t.written = if t.macro? = some name then 1 else 0 := by
  have hwritten : callCount name t.written = t.lines.countP fun l => isCallOf name l.2 := by
    rw [callCount, written, List.countP_map]
    simp only [Function.comp_def, isCallOf_indented]
  rw [hwritten]
  have hcall : ∀ {other : String} {args : List String}, '(' ∉ other.toList →
      isCallOf name (call other args ++ ";") = decide (name = other) := fun hother =>
    isCallOf_call hname hother _ _
  cases t with
  | declareInt | declareBit | assign => simp [lines, macro?, isCallOf_eq_false, typeText]
  | declareReal _ _ layout => cases layout <;> simp [lines, macro?, hcall, eq_comm]
  | declareLike | declareParam | constReal | assignReal | scaleReal | intToReal
    | realToInt | registerReal | probeReal | probeInt => simp [lines, macro?, hcall, eq_comm]
  | arithReal op => cases op <;> simp [lines, macro?, hcall, arithCall, eq_comm]
  | compareReal op => cases op <;> simp [lines, macro?, hcall, compareCall, eq_comm]
  | select address entries out =>
    rw [macro?, if_neg (by simp), List.countP_eq_zero]
    intro l hl
    simp only [lines, List.mem_append, List.mem_cons, List.mem_map, List.not_mem_nil,
      or_false] at hl
    rw [Bool.not_eq_true]
    rcases hl with ((rfl | rfl) | ⟨⟨entry, k⟩, -, rfl⟩) | rfl | rfl | rfl
    · exact isCallOf_eq_false (by simp)
    · exact isCallOf_eq_false (by simp)
    · simp only [String.append_assoc, isCallOf_number]
    · exact isCallOf_eq_false (by simp)
    · exact isCallOf_eq_false (by simp)
    · exact isCallOf_eq_false (by simp)
  | registerInt source target controls init =>
    have htarget : ∀ rest, isCallOf name (target ++ rest) = false :=
      isCallOf_identifier name (ht target rfl)
    have hend : isCallOf name "end" = false := isCallOf_eq_false (by simp)
    simp [lines, macro?, isCallOf_eq_false, htarget, hend, String.append_assoc]

end Statement

/-- How many statements call the macro. -/
def macroCount (name : String) (code : List (Statement R)) : Nat :=
  code.countP fun t => t.macro? = some name

@[simp] theorem macroCount_nil (name : String) : macroCount name ([] : List (Statement R)) = 0 := rfl

@[simp] theorem macroCount_cons (name : String) (t : Statement R) (code : List (Statement R)) :
    macroCount name (t :: code) = (if t.macro? = some name then 1 else 0) + macroCount name code := by
  simp [macroCount, List.countP_cons, Nat.add_comm]

@[simp] theorem macroCount_append (name : String) (code code' : List (Statement R)) :
    macroCount name (code ++ code') = macroCount name code + macroCount name code' :=
  List.countP_append

theorem macroCount_eq_zero {name : String} {code : List (Statement R)}
    (h : ∀ t ∈ code, t.macro? ≠ some name) : macroCount name code = 0 :=
  List.countP_eq_zero.2 fun t ht => by simpa using h t ht

/-- Lines that call a macro are counted by statements. -/
theorem callCount_eq {name : String} (hname : '(' ∉ name.toList) {code : List (Statement R)}
    (hcode : ∀ t ∈ code, ∀ x, t.registered? = some x → Identifier.isValid x = true) :
    callCount name (code.flatMap Statement.written) = macroCount name code := by
  induction code with
  | nil => rfl
  | cons t code ih =>
    rw [macroCount_cons, ← ih fun u hu => hcode u (by simp [hu]),
      ← Statement.callCount_written hname (hcode t (by simp)), callCount, List.flatMap_cons,
      List.countP_append]
    rfl

/-! ## Code of one node -/

section

variable {op : ArithOp} {names outs : List String} {out : String} {code : List (Statement R)}

/-- Two names become one in each statement. -/
theorem Pairs.macroCount_add (h : Pairs op names outs code) :
    macroCount (arithCall op) code + outs.length = names.length := by
  induction h with
  | nil | odd => rfl
  | pair _ ih =>
    simp only [macroCount_cons, Statement.macro?, if_true, List.length_cons]
    omega

theorem Pairs.macro?_eq (h : Pairs op names outs code) :
    ∀ t ∈ code, t.macro? = some (arithCall op) := by
  induction h with
  | nil | odd => simp
  | pair _ ih => exact List.forall_mem_cons.2 ⟨rfl, ih⟩

/-- One name is left of all, so that there is one statement less than there are names. -/
theorem Tree.macroCount_add (h : Tree op names out code) :
    macroCount (arithCall op) code + 1 = names.length := by
  induction h with
  | leaf => rfl
  | round hpairs _ ih =>
    rw [macroCount_append, Nat.add_assoc, ih, hpairs.macroCount_add]

theorem Tree.macro?_eq (h : Tree op names out code) :
    ∀ t ∈ code, t.macro? = some (arithCall op) := by
  induction h with
  | leaf => simp
  | round hpairs _ ih => exact List.forall_mem_append.2 ⟨hpairs.macro?_eq, ih⟩

theorem Tree.macroCount_eq_zero (h : Tree op names out code) {name : String}
    (hname : arithCall op ≠ name) : macroCount name code = 0 :=
  Verilog.macroCount_eq_zero fun t ht => by simpa [h.macro?_eq t ht] using hname

variable {order : CompareOp} {partialRepr repr : IntRepr} {found : String}

theorem Chain.plain (h : Chain (R := R) order partialRepr repr found names out code) :
    ∀ t ∈ code, t.macro? = none ∧ t.registered? = none := by
  induction h with
  | last => simp [Statement.macro?, Statement.registered?]
  | next _ ih => simpa [Statement.macro?, Statement.registered?] using ih

theorem Emission.declarationOfReal_macro? (realWidth : Nat) (name : String) (f : RealFormat R) :
    (declarationOfReal realWidth name f).macro? = some "MAKE_FORMAT_REAL" ∨
      (declarationOfReal realWidth name f).macro? = some "MAKE_REAL" := by
  unfold declarationOfReal
  cases layout realWidth f with
  | some => exact .inl rfl
  | none => exact .inr rfl

theorem entryCode_macro? {values entries : List String} {t : Statement R}
    (ht : t ∈ entryCode out values entries) :
    t.macro? = some "COPY_FORMAT_REAL" ∨ t.macro? = some "ASSIGN_REAL" := by
  obtain ⟨⟨value, entry⟩, -, ht⟩ := List.mem_flatMap.1 ht
  rcases List.mem_pair.1 ht with rfl | rfl
  · exact .inl rfl
  · exact .inr rfl

end

end Verilog

/-- The factors of a real product; other nodes have none. -/
def NodeKind.realFactors : NodeKind R → Format R → List NodeId
  | .arith .product xs, .real _ => xs
  | _, _ => []

namespace Store

variable {s : Store R} {rounding : Rounding R}

/-- The factors of a real product by its number. -/
def realFactors (s : Store R) (i : NodeId) : List NodeId := (s.kind i).realFactors (s.format i)

/-- How many of the nodes are constants. -/
def constantCount (s : Store R) (xs : List NodeId) : Nat := xs.countP fun x => (s.const? x).isSome

/-- How many of the nodes are no constants. -/
def variableCount (s : Store R) (xs : List NodeId) : Nat := xs.countP fun x => (s.const? x).isNone

theorem Normal.rest_variable {op : ArithOp} {rest : List NodeId} {last : NodeId}
    (h : s.Normal op (rest ++ [last])) :
    s.constantCount rest = 0 ∧ s.variableCount rest = rest.length := by
  have hrest : ∀ x ∈ rest, s.const? x = none := by simpa using h.const_last
  constructor
  · exact List.countP_eq_zero.2 fun x hx => by simp [hrest x hx]
  · exact List.countP_eq_length.2 fun x hx => by simp [hrest x hx]

/-- A constant factor is the last one and the only one. -/
theorem Normal.scaled {xs rest : List NodeId} {factor : R} {op : ArithOp} (h : s.Normal op xs)
    (hfactor : Emission.constantFactor? s op xs = some (factor, rest)) :
    op = .product ∧ s.constantCount xs = 1 ∧ s.variableCount xs = rest.length := by
  obtain ⟨last, v, rfl, hlast⟩ := Emission.constantFactor?_eq_some hfactor
  obtain ⟨hconstant, hvariable⟩ := h.rest_variable
  refine ⟨?_, ?_, ?_⟩
  · cases op with
    | product => rfl
    | sum | min | max => cases hfactor
  · simpa [constantCount, hlast] using hconstant
  · simpa [variableCount, hlast] using hvariable

/-- A product that is not scaled has no constant factor. -/
theorem Normal.unscaled {xs : List NodeId} (h : s.Normal .product xs)
    (hfactor : Emission.constantFactor? s .product xs = none) :
    s.constantCount xs = 0 ∧ s.variableCount xs = xs.length := by
  obtain rfl | ⟨rest, last, rfl⟩ := xs.eq_nil_or_concat'
  · exact ⟨rfl, rfl⟩
  have hlast : s.const? last = none := by
    obtain ⟨a, rest, rfl⟩ : ∃ a tail, rest = a :: tail := by
      refine List.exists_cons_of_ne_nil fun hnil => ?_
      have := h.two_le
      simp [hnil] at this
    unfold Emission.constantFactor? at hfactor
    rw [List.dropLast_concat, List.getLast?_concat] at hfactor
    exact Option.map_eq_none_iff.1 hfactor
  obtain ⟨hconstant, hvariable⟩ := h.rest_variable
  exact ⟨by simpa [constantCount, hlast] using hconstant,
    by simpa [variableCount, hlast] using hvariable⟩

/-- At most one operand is a constant, and at least one is not. -/
theorem Normal.counts {op : ArithOp} {xs : List NodeId} (h : s.Normal op xs) :
    s.constantCount xs ≤ 1 ∧ 1 ≤ s.variableCount xs := by
  obtain rfl | ⟨rest, last, rfl⟩ := xs.eq_nil_or_concat'
  · exact absurd h.two_le (by simp)
  obtain ⟨hconstant, hvariable⟩ := h.rest_variable
  have htwo := h.two_le
  rw [List.length_append, List.length_singleton] at htwo
  simp only [constantCount, variableCount, List.countP_append, List.countP_singleton]
    at hconstant hvariable ⊢
  exact ⟨by split <;> omega, by omega⟩

theorem Normal.counts_pair {op : ArithOp} {x y : NodeId} (h : s.Normal op [x, y]) :
    s.constantCount [x, y] = (if (s.const? y).isSome then 1 else 0) ∧
      s.variableCount [x, y] = (if (s.const? y).isSome then 1 else 2) := by
  have hx : s.const? x = none := h.const_last x (by simp)
  cases hy : s.const? y <;> simp [constantCount, variableCount, hx, hy]

end Store

namespace Verilog

variable {s : Store R} {realWidth : Nat} {naming : Naming} {kind : NodeKind R} {f : Format R}
  {out : String} {code : List (Statement R)}

theorem realFactors_int (kind : NodeKind R) (f : IntFormat) : kind.realFactors (.int f) = [] := by
  unfold NodeKind.realFactors
  split
  · rename_i heq
    cases heq
  · rfl

/-- A real product takes a scaling for its constant factor, and one multiplication less than it has
other factors. No other node takes any. -/
theorem NodeCode.multipliers (h : NodeCode s realWidth naming kind f out code)
    (hn : ∀ op xs, kind = .arith op xs → s.Normal op xs) :
    macroCount "MUL_CONST_REAL" code = s.constantCount (kind.realFactors f) ∧
      macroCount "MUL_REAL" code = s.variableCount (kind.realFactors f) - 1 := by
  have hnone : s.constantCount [] = 0 ∧ s.variableCount [] - 1 = 0 := ⟨rfl, rfl⟩
  have hscale : ∀ op, arithCall op ≠ "MUL_CONST_REAL" := by
    intro op
    cases op <;> decide
  cases h with
  | @scaled op xs f factor rest names product out code hfactor hnames htree =>
    obtain ⟨rfl, hconstant, hvariable⟩ := (hn op xs rfl).scaled hfactor
    have hcount : macroCount "MUL_REAL" code + 1 = names.length := htree.macroCount_add
    rw [← hnames.length_eq] at hcount
    simp only [macroCount_append, macroCount_cons, htree.macroCount_eq_zero (hscale _),
      Statement.macro?, NodeKind.realFactors, hconstant, hvariable]
    exact ⟨rfl, by simp; omega⟩
  | @tree op xs f names out code hfactor htwo hnames htree =>
    rw [htree.macroCount_eq_zero (hscale op)]
    cases op with
    | product =>
      obtain ⟨hconstant, hvariable⟩ := (hn _ xs rfl).unscaled hfactor
      have hcount : macroCount "MUL_REAL" code + 1 = names.length := htree.macroCount_add
      rw [← hnames.length_eq] at hcount
      exact ⟨hconstant.symm, by simp only [NodeKind.realFactors, hvariable]; omega⟩
    | sum | min | max => exact ⟨rfl, htree.macroCount_eq_zero (by decide)⟩
  | extremum _ _ hchain =>
    have hcalls : ∀ name, macroCount name code = 0 := fun name =>
      macroCount_eq_zero fun t ht => by simp [(hchain.plain t ht).1]
    rw [realFactors_int, hcalls, hcalls]
    exact hnone
  | int hsource =>
    rw [realFactors_int]
    exact hnone
  | @compareReal op =>
    cases op <;> exact hnone
  | @selectReal xs a f x values entries out ha hvalues hlength =>
    have hcode : ∀ t ∈ Emission.declarationOfReal realWidth out f ::
        entryCode out values entries ++ [.select x entries out],
        t.macro? ≠ some "MUL_CONST_REAL" ∧ t.macro? ≠ some "MUL_REAL" := by
      intro t ht
      rcases List.mem_append.1 ht with ht | ht
      · rcases List.mem_cons.1 ht with rfl | ht
        · rcases Emission.declarationOfReal_macro? realWidth out f with heq | heq <;> simp [heq]
        · rcases entryCode_macro? ht with heq | heq <;> simp [heq]
      · simp [List.mem_singleton.1 ht, Statement.macro?]
    exact ⟨macroCount_eq_zero fun t ht => (hcode t ht).1,
      macroCount_eq_zero fun t ht => (hcode t ht).2⟩
  | _ => exact hnone

/-- The code of a node has no registers. -/
theorem NodeCode.registered? (h : NodeCode s realWidth naming kind f out code) :
    ∀ t ∈ code, t.registered? = none := by
  cases h with
  | scaled _ _ htree =>
    refine List.forall_mem_append.2 ⟨fun t ht => ?_, by simp [Statement.registered?]⟩
    exact Statement.registered?_of_macro? (htree.macro?_eq t ht)
  | tree _ _ _ htree => exact fun t ht => Statement.registered?_of_macro? (htree.macro?_eq t ht)
  | extremum _ _ hchain => exact fun t ht => (hchain.plain t ht).2
  | selectReal =>
    refine List.forall_mem_append.2 ⟨List.forall_mem_cons.2 ⟨rfl, fun t ht => ?_⟩,
      by simp [Statement.registered?]⟩
    exact (entryCode_macro? ht).elim Statement.registered?_of_macro? Statement.registered?_of_macro?
  | _ => simp [Statement.registered?]

theorem Naming.Gives.isSome {xs : List NodeId} {names : List String} (h : naming.Gives xs names) :
    ∀ j ∈ xs, (naming j).isSome := by
  intro j hj
  obtain ⟨x, -, hx⟩ := forall₂_exists_right h j hj
  exact Option.isSome_of_eq_some hx

theorem IntSource.operand_named {source : Source} (h : IntSource s naming kind source) {k : NodeId}
    (hk : k ∈ s.operands kind) : (naming k).isSome := by
  cases h with
  | sum h | product h | bitwise h | concat h => exact h.isSome k hk
  | bitNot h | shiftLeft h | shiftRight h | slice h | signed h | unsigned h | resize h =>
    rw [List.mem_singleton.1 hk, h]
    rfl

/-- An operand of a node that has code has a name, unless it is a constant that is written in
place. -/
theorem NodeCode.operand_named (h : NodeCode s realWidth naming kind f out code) {k : NodeId}
    (hk : k ∈ s.operands kind) : (naming k).isSome ∨ (s.const? k).isSome := by
  cases h with
  | signal | constReal | constInt => cases hk
  | @scaled op xs f factor rest names product out code hfactor hnames htree =>
    obtain ⟨last, v, rfl, hlast⟩ := Emission.constantFactor?_eq_some hfactor
    rcases List.mem_append.1 hk with hk | hk
    · exact .inl (hnames.isSome k hk)
    · rw [List.mem_singleton.1 hk, hlast]
      exact .inr rfl
  | tree _ _ hnames _ | extremum _ hnames _ => exact .inl (hnames.isSome k hk)
  | int hsource => exact .inl (hsource.operand_named hk)
  | compareReal _ ha hb | compareInt _ ha hb =>
    rcases List.mem_pair.1 hk with rfl | rfl
    · exact .inl (Option.isSome_of_eq_some ha)
    · exact .inl (Option.isSome_of_eq_some hb)
  | intToReal ha | realToInt ha =>
    rw [List.mem_singleton.1 hk]
    exact .inl (Option.isSome_of_eq_some ha)
  | selectReal ha hvalues _ =>
    rcases List.mem_append.1 hk with hk | hk
    · exact .inl (hvalues.isSome k hk)
    · rw [List.mem_singleton.1 hk]
      exact .inl (Option.isSome_of_eq_some ha)
  | selectInt ha hentries =>
    rcases List.mem_append.1 hk with hk | hk
    · obtain ⟨e, -, ⟨v, _, hv, -⟩ | he⟩ := forall₂_exists_right hentries k hk
      · exact .inr (Option.isSome_of_eq_some hv)
      · exact .inl (Option.isSome_of_eq_some he)
    · rw [List.mem_singleton.1 hk]
      exact .inl (Option.isSome_of_eq_some ha)

/-! ## Code of all nodes -/

variable {naming' : Naming} {xs : List (Lowering R)}

theorem Lowers.isSome (h : Lowers s realWidth naming xs naming') {j : NodeId}
    (hj : (naming j).isSome) : (naming' j).isSome := by
  obtain ⟨name, hname⟩ := Option.isSome_iff_exists.1 hj
  exact Option.isSome_of_eq_some (h.gives hname)

theorem Lowers.operand_named (h : Lowers s realWidth naming xs naming') :
    ∀ x ∈ xs, ∀ k ∈ s.children x.node, (naming' k).isSome ∨ (s.const? k).isSome := by
  induction h with
  | nil => simp
  | cons hnew hcode h ih =>
    refine List.forall_mem_cons.2 ⟨fun k hk => ?_, ih⟩
    exact (hcode.operand_named hk).imp_left (Lowers.cons hnew hcode h).isSome

theorem macroCount_codeOf (name : String) (xs : List (Lowering R)) :
    macroCount name (codeOf xs) = (xs.map fun x => macroCount name x.code).sum := by
  induction xs with
  | nil => rfl
  | cons x xs ih =>
    rw [List.map_cons, List.sum_cons, ← ih]
    exact macroCount_append name x.code (codeOf xs)

end Verilog

namespace Model

variable {m : Model R} {settings : Settings} {rounding : Rounding R} {naming naming' : Naming}
  {runs : List (Run R)}

theorem Assigns.source_named (h : Assigns m settings naming runs naming') :
    ∀ r ∈ runs, (naming' r.assignment.expr).isSome := by
  induction h with
  | nil => simp
  | cons _ hsource _ h ih =>
    exact List.forall_mem_cons.2 ⟨h.lowers.isSome (Option.isSome_of_eq_some hsource), ih⟩

/-- Names go down from the expressions of the assignments to all nodes that they need, save for
constants. -/
theorem Assigns.needed_named (h : Assigns m settings (fun _ => none) runs naming') {r : Run R}
    (hr : r ∈ runs) (hi : Reaches m.store.children r.assignment.expr i) :
    (naming' i).isSome ∨ (m.store.const? i).isSome := by
  induction hi with
  | refl => exact .inl (h.source_named r hr)
  | @tail j k _ hk ih =>
    rcases ih with hj | hj
    · obtain ⟨name, hname⟩ := Option.isSome_iff_exists.1 hj
      rcases h.lowers.eq_some_iff.1 hname with hname | ⟨x, hx, rfl, -⟩
      · cases hname
      · exact h.lowers.operand_named x hx k hk
    · -- a constant has no operands
      obtain ⟨v, hv⟩ := Option.isSome_iff_exists.1 hj
      rw [Store.children, Store.kind_of_const?.1 hv] at hk
      cases hk

/-- The real products that assignments need, each one once. -/
def realProducts (m : Model R) : Finset NodeId :=
  (m.assignments.values.flatMap fun a => m.store.occurrences a.expr).toFinset.filter fun i =>
    m.store.realFactors i ≠ []

section

variable (hm : m.WellFormed rounding)
include hm

theorem WellFormed.lt_of_needed {a : Assignment R} (ha : a ∈ m.assignments.values)
    (hi : Reaches m.store.children a.expr i) :
    a.expr < m.store.nodes.size ∧ i < m.store.nodes.size := by
  have hlt : a.expr < m.store.nodes.size :=
    (hm.valid ((Simulator.mem_values_iff hm).1 ha)).2.expr_lt
  refine ⟨hlt, ?_⟩
  induction hi with
  | refl => exact hlt
  | tail _ hk ih => exact (hm.store.below _ ih _ hk).trans ih

theorem mem_realProducts_iff :
    i ∈ m.realProducts ↔ (∃ a ∈ m.assignments.values, Reaches m.store.children a.expr i) ∧
      ∃ xs f, m.store.kind i = .arith .product xs ∧ m.store.format i = .real f := by
  have hneeded : (∃ a ∈ m.assignments.values, i ∈ m.store.occurrences a.expr) ↔
      ∃ a ∈ m.assignments.values, Reaches m.store.children a.expr i :=
    exists_congr fun a => and_congr_right fun ha => hm.store.mem_occurrences_iff_reaches a.expr
      (hm.lt_of_needed ha .refl).1
  rw [realProducts, Finset.mem_filter, List.mem_toFinset, List.mem_flatMap, hneeded]
  refine and_congr_right fun ⟨a, ha, hreach⟩ => ⟨fun hne => ?_, ?_⟩
  · unfold Store.realFactors NodeKind.realFactors at hne
    split at hne
    · exact ⟨_, _, by assumption, by assumption⟩
    · exact absurd rfl hne
  · rintro ⟨xs, f, hkind, hformat⟩ hnil
    rw [Store.realFactors, hkind, hformat] at hnil
    have htwo := (hm.store.arith_normal (hm.lt_of_needed ha hreach).2 hkind).1.two_le
    rw [show xs = [] from hnil] at htwo
    cases htwo

/-- The nodes that are lowered and the real products among them. -/
theorem Assembled.lowered {module : Verilog.Module R} {values : List (Signal R × String)}
    (h : m.Assembled settings module values runs) :
    m.realProducts ⊆ ((lowerings runs).map (·.node)).toFinset ∧
      ∀ i ∈ ((lowerings runs).map (·.node)).toFinset, i ∉ m.realProducts →
        m.store.realFactors i = [] := by
  obtain ⟨naming, hassigns⟩ := h.assigns
  constructor
  · intro i hi
    obtain ⟨⟨a, ha, hreach⟩, xs, f, hkind, -⟩ := (mem_realProducts_iff hm).1 hi
    rw [← h.assignments] at ha
    obtain ⟨r, hr, rfl⟩ := List.mem_map.1 ha
    rcases hassigns.needed_named hr hreach with hname | hconst
    · obtain ⟨name, hname⟩ := Option.isSome_iff_exists.1 hname
      rcases hassigns.lowers.eq_some_iff.1 hname with hname | ⟨x, hx, rfl, -⟩
      · cases hname
      · exact List.mem_toFinset.2 (List.mem_map_of_mem hx)
    · obtain ⟨v, hv⟩ := Option.isSome_iff_exists.1 hconst
      rw [Store.kind_of_const?.1 hv] at hkind
      cases hkind
  · intro i hi hnot
    obtain ⟨x, hx, rfl⟩ := List.mem_map.1 (List.mem_toFinset.1 hi)
    obtain ⟨r, hr, hx⟩ := List.mem_flatMap.1 hx
    have hreach := hassigns.reached r hr x hx
    have ha : r.assignment ∈ m.assignments.values := h.assignments ▸ List.mem_map_of_mem hr
    by_contra hne
    refine hnot (Finset.mem_filter.2 ⟨List.mem_toFinset.2 (List.mem_flatMap.2 ⟨_, ha, ?_⟩), hne⟩)
    exact (hm.store.mem_occurrences_iff_reaches _ (hm.lt_of_needed ha hreach).1).2 hreach

/-- What each node costs adds up over the real products, as other nodes cost nothing. -/
theorem Assembled.macroCount_eq {module : Verilog.Module R} {values : List (Signal R × String)}
    (h : m.Assembled settings module values runs) {name : String} (cost : List NodeId → Nat)
    (hcost : cost [] = 0)
    (hcode : ∀ x ∈ lowerings runs, macroCount name x.code = cost (m.store.realFactors x.node)) :
    macroCount name (codeOf (lowerings runs)) =
      ∑ i ∈ m.realProducts, cost (m.store.realFactors i) := by
  obtain ⟨naming, hassigns⟩ := h.assigns
  obtain ⟨hsub, hother⟩ := h.lowered hm
  calc macroCount name (codeOf (lowerings runs))
      = ((lowerings runs).map fun x => cost (m.store.realFactors x.node)).sum := by
        rw [macroCount_codeOf, List.map_congr_left hcode]
    _ = ∑ i ∈ ((lowerings runs).map (·.node)).toFinset, cost (m.store.realFactors i) := by
        rw [List.sum_toFinset _ hassigns.lowers.nodup, List.map_map]
        rfl
    _ = ∑ i ∈ m.realProducts, cost (m.store.realFactors i) := by
        refine (Finset.sum_subset hsub fun i hi hnot => ?_).symm
        rw [hother i hi hnot, hcost]

end

/-- A statement outside of expressions: no multiplier, and if it is a register, then of a signal. -/
def Framing (m : Model R) (t : Statement R) : Prop :=
  (t.macro? ≠ some "MUL_CONST_REAL" ∧ t.macro? ≠ some "MUL_REAL") ∧
    ∀ x, t.registered? = some x → ∃ y < m.store.signals.size, x = (m.store.signal y).name

theorem drive_framing {a : Assignment R} (ha : a.Valid m.store) (source : String) :
    m.Framing (m.drive settings a source) := by
  dsimp only [drive]
  split
  · exact ⟨by simp [Statement.macro?], by simp [Statement.registered?]⟩
  · exact ⟨by simp [Statement.macro?], by simp [Statement.registered?]⟩
  · exact ⟨by simp [Statement.macro?], by simp [Statement.registered?]⟩
  · refine ⟨by simp [Statement.macro?], fun x hx => ⟨a.signal, ha.signal_lt, ?_⟩⟩
    exact (Option.some.inj hx).symm

theorem probe_framing (x : SignalId) : m.Framing (m.probe x) := by
  dsimp only [probe]
  split <;> exact ⟨by simp [Statement.macro?], by simp [Statement.registered?]⟩

theorem paramDeclaration?_framing {p : Signal R × String} {t : Statement R}
    (h : paramDeclaration? p = some t) : m.Framing t := by
  obtain ⟨f, -, rfl⟩ := Option.map_eq_some_iff.1 h
  exact ⟨by simp [Statement.macro?], by simp [Statement.registered?]⟩

theorem declaration?_framing {realWidth : Nat} {signal : Signal R} {t : Statement R}
    (h : declaration? realWidth signal = some t) : m.Framing t := by
  unfold declaration? at h
  split at h
  · obtain rfl := Option.some.inj h
    cases signal.format with
    | real f =>
      refine ⟨?_, fun x hx => by cases hx⟩
      rcases Emission.declarationOfReal_macro? realWidth signal.name f with heq | heq <;>
        simp [Emission.declarationOf, heq]
    | int f =>
      exact ⟨by simp [Emission.declarationOf, Statement.macro?], fun x hx => by cases hx⟩
  · cases h

theorem Framing.macroCount_eq_zero {code : List (Statement R)} (h : ∀ t ∈ code, m.Framing t)
    {name : String} (hname : name = "MUL_CONST_REAL" ∨ name = "MUL_REAL") :
    macroCount name code = 0 := by
  refine Verilog.macroCount_eq_zero fun t ht => ?_
  rcases hname with rfl | rfl
  · exact (h t ht).1.1
  · exact (h t ht).1.2

theorem macroCount_blocks {name : String} (hname : name = "MUL_CONST_REAL" ∨ name = "MUL_REAL")
    (h : ∀ r ∈ runs, r.assignment.Valid m.store) :
    macroCount name (runs.flatMap (·.block m settings)) =
      macroCount name (codeOf (lowerings runs)) := by
  induction runs with
  | nil => rfl
  | cons r runs ih =>
    have hdrive : macroCount name [m.drive settings r.assignment r.source] = 0 :=
      Framing.macroCount_eq_zero (by simpa using drive_framing (h r (by simp)) r.source) hname
    rw [List.flatMap_cons, Run.block, macroCount_append, macroCount_append, hdrive,
      ih fun r hr => h r (by simp [hr]), lowerings, lowerings, List.flatMap_cons, codeOf_append,
      macroCount_append, Nat.add_zero]

namespace Assembled

variable {module : Verilog.Module R} {values : List (Signal R × String)}
  (h : m.Assembled settings module values runs)
include h

theorem assignment_valid (hm : m.WellFormed rounding) : ∀ r ∈ runs, r.assignment.Valid m.store := by
  intro r hr
  have ha : r.assignment ∈ m.assignments.values := h.assignments ▸ List.mem_map_of_mem hr
  exact (hm.valid ((Simulator.mem_values_iff hm).1 ha)).2

/-- Multipliers of the body are those of the nodes. -/
theorem callCount_eq (hm : m.WellFormed rounding) {name : String}
    (hname : name = "MUL_CONST_REAL" ∨ name = "MUL_REAL") :
    callCount name module.bodyLines = macroCount name (codeOf (lowerings runs)) := by
  have hparams : ∀ t ∈ values.filterMap paramDeclaration?, m.Framing t := fun t ht =>
    let ⟨_, _, hp⟩ := List.mem_filterMap.1 ht
    paramDeclaration?_framing hp
  have hinternals : ∀ t ∈ m.store.signals.toList.filterMap (declaration? settings.realWidth),
      m.Framing t := fun t ht =>
    let ⟨_, _, hsignal⟩ := List.mem_filterMap.1 ht
    declaration?_framing hsignal
  have hprobes : ∀ t ∈ m.probes.map m.probe, m.Framing t := List.forall_mem_map.2 fun x _ =>
    probe_framing x
  have hvalid := h.assignment_valid hm
  have hbracket : '(' ∉ name.toList := by rcases hname with rfl | rfl <;> decide
  rw [callCount, module.countP_bodyLines (isCallOf_eq_false (by simp)), ← callCount,
    Verilog.callCount_eq hbracket fun t ht x hx => ?_, h.flatten_blocks, macroCount_append,
    macroCount_append, macroCount_append, macroCount_blocks hname hvalid,
    Framing.macroCount_eq_zero hparams hname, Framing.macroCount_eq_zero hinternals hname,
    Framing.macroCount_eq_zero hprobes hname, Nat.zero_add, Nat.zero_add, Nat.add_zero]
  -- the registers of the body are signals
  have hsignal : m.Framing t → Identifier.isValid x = true := by
    intro hframing
    obtain ⟨y, hy, rfl⟩ := hframing.2 x hx
    exact hm.names.valid y hy
  rw [h.flatten_blocks, List.mem_append, List.mem_append, List.mem_append] at ht
  rcases ht with ht | ht | ht | ht
  · exact hsignal (hparams t ht)
  · exact hsignal (hinternals t ht)
  · obtain ⟨r, hr, ht⟩ := List.mem_flatMap.1 ht
    rcases List.mem_append.1 ht with ht | ht
    · obtain ⟨naming, hassigns⟩ := h.assigns
      obtain ⟨y, hy, ht⟩ := List.mem_flatMap.1 ht
      obtain ⟨_, hcode⟩ := hassigns.lowers.nodeCode y (List.mem_flatMap.2 ⟨r, hr, hy⟩)
      rw [hcode.registered? t ht] at hx
      cases hx
    · rw [List.mem_singleton.1 ht] at hx hsignal
      exact hsignal (drive_framing (hvalid r hr) _)
  · exact hsignal (hprobes t ht)

theorem multipliers (hm : m.WellFormed rounding) : ∀ x ∈ lowerings runs,
    macroCount "MUL_CONST_REAL" x.code = m.store.constantCount (m.store.realFactors x.node) ∧
      macroCount "MUL_REAL" x.code = m.store.variableCount (m.store.realFactors x.node) - 1 := by
  intro x hx
  obtain ⟨naming, hassigns⟩ := h.assigns
  obtain ⟨_, hcode⟩ := hassigns.lowers.nodeCode x hx
  obtain ⟨r, hr, hx⟩ := List.mem_flatMap.1 hx
  have ha : r.assignment ∈ m.assignments.values := h.assignments ▸ List.mem_map_of_mem hr
  have hlt := (hm.lt_of_needed ha (hassigns.reached r hr x hx)).2
  exact hcode.multipliers fun op xs hkind => (hm.store.arith_normal hlt hkind).1

end Assembled

/-- The multipliers in the lines of a module. Real products with a constant factor take one
scaling, and each one takes a general multiplier less than it has other factors. -/
structure MultiplierBudget (m : Model R) (lines : List String) : Prop where
  products : ∀ i, i ∈ m.realProducts ↔
    (∃ a ∈ m.assignments.values, Reaches m.store.children a.expr i) ∧
      ∃ xs f, m.store.kind i = .arith .product xs ∧ m.store.format i = .real f
  scaled : callCount "MUL_CONST_REAL" lines =
    (m.realProducts.filter fun i => 0 < m.store.constantCount (m.store.realFactors i)).card
  multiplied : callCount "MUL_REAL" lines =
    ∑ i ∈ m.realProducts, (m.store.variableCount (m.store.realFactors i) - 1)
  counts : ∀ i ∈ m.realProducts, m.store.constantCount (m.store.realFactors i) ≤ 1 ∧
    1 ≤ m.store.variableCount (m.store.realFactors i)
  constant_product : ∀ i x c v, m.realProducts = {i} → m.store.kind i = .arith .product [x, c] →
    m.store.kind c = .const v → callCount "MUL_CONST_REAL" lines = 1 ∧
      callCount "MUL_REAL" lines = 0
  variable_product : ∀ i x y, m.realProducts = {i} → m.store.kind i = .arith .product [x, y] →
    (∀ v, m.store.kind y ≠ .const v) → callCount "MUL_CONST_REAL" lines = 0 ∧
      callCount "MUL_REAL" lines = 1

/-- A model that compiles takes as many multipliers as its real products need, however often these
are shared. They are counted in the lines of text between the heading of the module and its end. -/
theorem multiplier_budget [Numerics R] (hb : m.Built fun _ _ => True) {text : String} {m' : Model R}
    (h : outcome (compile settings) m = (.ok text, m')) :
    ∃ module, m.emit settings = .ok module ∧
      text = module.preamble ++ module.heading ++ unlines module.bodyLines ++
        "endmodule\n\n`default_nettype wire\n" ∧ m.MultiplierBudget module.bodyLines := by
  have hm := hb.wellFormed_any
  obtain ⟨module, rfl, hemit⟩ := compile_eq_ok h
  obtain ⟨values, runs, hassembled⟩ := emit_assembled hm hemit
  have hcost := hassembled.multipliers hm
  have hcounts : ∀ i ∈ m.realProducts, m.store.constantCount (m.store.realFactors i) ≤ 1 ∧
      1 ≤ m.store.variableCount (m.store.realFactors i) := by
    intro i hi
    obtain ⟨⟨a, ha, hreach⟩, xs, f, hkind, hformat⟩ := (mem_realProducts_iff hm).1 hi
    rw [Store.realFactors, hkind, hformat]
    exact (hm.store.arith_normal (hm.lt_of_needed ha hreach).2 hkind).1.counts
  have hscaled : callCount "MUL_CONST_REAL" module.bodyLines =
      ∑ i ∈ m.realProducts, m.store.constantCount (m.store.realFactors i) := by
    rw [hassembled.callCount_eq hm (.inl rfl)]
    exact hassembled.macroCount_eq hm m.store.constantCount rfl fun x hx => (hcost x hx).1
  have hmultiplied : callCount "MUL_REAL" module.bodyLines =
      ∑ i ∈ m.realProducts, (m.store.variableCount (m.store.realFactors i) - 1) := by
    rw [hassembled.callCount_eq hm (.inr rfl)]
    exact hassembled.macroCount_eq hm (fun xs => m.store.variableCount xs - 1) rfl
      fun x hx => (hcost x hx).2
  have hpair : ∀ {i x y}, m.realProducts = {i} → m.store.kind i = .arith .product [x, y] →
      m.store.realFactors i = [x, y] ∧ m.store.Normal .product [x, y] := by
    intro i x y hone hkind
    obtain ⟨⟨a, ha, hreach⟩, _, f, -, hformat⟩ := (mem_realProducts_iff hm).1
      (hone ▸ Finset.mem_singleton_self i)
    refine ⟨?_, (hm.store.arith_normal (hm.lt_of_needed ha hreach).2 hkind).1⟩
    rw [Store.realFactors, hkind, hformat]
    rfl
  refine ⟨module, hemit, module.text_eq, fun i => mem_realProducts_iff hm, ?_, hmultiplied, hcounts,
    ?_, ?_⟩
  · rw [hscaled, Finset.card_filter]
    refine Finset.sum_congr rfl fun i hi => ?_
    have hle := (hcounts i hi).1
    split <;> omega
  · intro i x c v hone hkind hc
    obtain ⟨hfactors, hnormal⟩ := hpair hone hkind
    rw [hscaled, hmultiplied, hone, Finset.sum_singleton, Finset.sum_singleton, hfactors,
      hnormal.counts_pair.1, hnormal.counts_pair.2, Store.kind_of_const?.2 hc]
    exact ⟨rfl, rfl⟩
  · intro i x y hone hkind hy
    obtain ⟨hfactors, hnormal⟩ := hpair hone hkind
    have hvariable : m.store.const? y = none :=
      Option.eq_none_iff_forall_ne_some.2 fun v hv => hy v (Store.kind_of_const?.1 hv)
    rw [hscaled, hmultiplied, hone, Finset.sum_singleton, Finset.sum_singleton, hfactors,
      hnormal.counts_pair.1, hnormal.counts_pair.2, hvariable]
    exact ⟨rfl, rfl⟩

/-- The product with a selected gain and a constant under two names. -/
def sharedGainModel : Model ℚ := gainModel.performAll [.bindName "z" (.node 7)]

theorem sharedGainModel_built : sharedGainModel.Built fun _ _ => True :=
  gainModel_built.performAll (by decide +kernel)

/-- The product is multiplied once and scaled once, for both of its names. -/
theorem multiplier_budget_gain :
    (sharedGainModel.Built fun _ _ => True) ∧ ∃ text m' module,
      outcome (compile {}) sharedGainModel = (.ok text, m') ∧
      sharedGainModel.emit {} = .ok module ∧
      text = module.preamble ++ module.heading ++ unlines module.bodyLines ++
        "endmodule\n\n`default_nettype wire\n" ∧
      sharedGainModel.assignments.values.map (·.expr) = [7, 7] ∧
      sharedGainModel.realProducts = {7} ∧
      callCount "MUL_CONST_REAL" module.bodyLines = 1 ∧
      callCount "MUL_REAL" module.bodyLines = 1 := by
  have hm := sharedGainModel_built.wellFormed_any
  have hcomplete : sharedGainModel.CompleteIn [2, 3] := by decide +kernel
  obtain ⟨text, m', hrun⟩ := (hcomplete.complete hm).exists_compile hm
  obtain ⟨module, hemit, htext, hbudget⟩ := multiplier_budget sharedGainModel_built hrun
  refine ⟨sharedGainModel_built, text, m', module, hrun, hemit, htext, by decide +kernel,
    by decide +kernel, ?_, ?_⟩
  · rw [hbudget.scaled]
    decide +kernel
  · rw [hbudget.multiplied]
    decide +kernel

end Model

end MixedSignal
