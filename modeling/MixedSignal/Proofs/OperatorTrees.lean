import Mathlib
import MixedSignal.Proofs.Lowering

/-!
# Trees of operators on reals

An operator on several reals is written as a tree of lines with two operands each: neighbours are
combined in pairs, an odd last one is kept, and this is repeated until one name is left.
`Verilog.combine` gives the names of such lines values for any operation on any type. One round
keeps what an associative operation makes of the values (`Pairs.reduce_eq`), so the name that is
left has the combination of all operands in their order (`Tree.reduce_eq`). With depths for values
the same reading shows that the tree is balanced (`Tree.depth_le`).
-/

set_option linter.unusedSectionVars false

namespace MixedSignal.Verilog

variable {R : Type} [Scalar R] {α : Type}

/-! ## Values of names -/

/-- A line of an operator gives its result a value. Other statements give none. -/
def Statement.combine (f : α → α → α) (value : String → α) : Statement R → String → α
  | arithReal _ a b out => Function.update value out (f (value a) (value b))
  | _ => value

/-- Lines one after the other. -/
def combine (f : α → α → α) (value : String → α) (code : List (Statement R)) : String → α :=
  code.foldl (Statement.combine f) value

section

variable {f : α → α → α} {value : String → α} {code : List (Statement R)} {x : String}

theorem combine_append (code' : List (Statement R)) :
    combine f value (code ++ code') = combine f (combine f value code) code' :=
  List.foldl_append

theorem Statement.combine_of_declared? {t : Statement R} (h : t.declared? ≠ some x) :
    t.combine f value x = value x := by
  cases t with
  | arithReal op a b out => exact Function.update_of_ne (fun hx => h (congrArg some hx.symm)) ..
  | _ => rfl

/-- Names that are not declared keep their values. -/
theorem combine_of_notMem (h : x ∉ declaredIn code) : combine f value code x = value x := by
  induction code generalizing value with
  | nil => rfl
  | cons t code ih =>
    rw [declaredIn_cons, List.mem_append, not_or, Option.mem_toList] at h
    exact (ih h.2).trans (Statement.combine_of_declared? h.1)

end

/-! ## Rounds -/

/-- Neighbours are combined in pairs, and an odd last one is kept. -/
def pairUp (f : α → α → α) : List α → List α
  | a :: b :: rest => f a b :: pairUp f rest
  | rest => rest

theorem length_pairUp (f : α → α → α) : ∀ xs, (pairUp f xs).length = (xs.length + 1) / 2
  | [] => by simp [pairUp]
  | [_] => by simp [pairUp]
  | a :: b :: rest => by
    rw [pairUp, List.length_cons, length_pairUp f rest, List.length_cons, List.length_cons]
    omega

theorem reduce_pairUp (f : α → α → α) [Std.Associative f] :
    ∀ xs, reduce f (pairUp f xs) = reduce f xs
  | [] => rfl
  | [_] => rfl
  | a :: b :: rest => by
    rw [pairUp, reduce_cons, reduce_pairUp f rest, reduce_cons, reduce_cons,
      ← (Option.associative_merge f).assoc]
    rfl

/-- The depth of a result above those of its operands. -/
def deeper (a b : Nat) : Nat := max a b + 1

theorem le_of_mem_pairUp_deeper {d : Nat} :
    ∀ {ds : List Nat}, (∀ x ∈ ds, x ≤ d) → ∀ x ∈ pairUp deeper ds, x ≤ d + 1
  | [], _, x, hx => absurd hx List.not_mem_nil
  | [_], h, x, hx => (h x hx).trans (Nat.le_succ d)
  | a :: b :: rest, h, x, hx => by
    rcases List.mem_cons.1 hx with rfl | hx
    · exact Nat.succ_le_succ (max_le (h a (by simp)) (h b (by simp)))
    · exact le_of_mem_pairUp_deeper (fun y hy => h y (by simp [hy])) x hx

section

variable {op : ArithOp} {names outs : List String} {out : String} {code : List (Statement R)}

section

variable (h : Pairs op names outs code)
include h

/-- Each line leaves one name less. -/
theorem Pairs.code_length : code.length + outs.length = names.length := by
  induction h with
  | nil | odd => rfl
  | pair _ ih =>
    simp only [List.length_cons]
    omega

theorem Pairs.lines : ∀ t ∈ code, ∃ a b c, t = .arithReal op a b c := by
  induction h with
  | nil | odd => simp
  | pair _ ih => exact List.forall_mem_cons.2 ⟨⟨_, _, _, rfl⟩, ih⟩

/-- The names after a round are names from before, or declared by it. -/
theorem Pairs.mem_outs : ∀ x ∈ outs, x ∈ names ∨ x ∈ declaredIn code := by
  have hnames : ∀ x ∈ names, x ∈ names := fun _ => id
  exact (h.scoped hnames).2

/-- The lines of a round combine the values in pairs. -/
theorem Pairs.map_combine (f : α → α → α) (value : String → α) (hnodup : (declaredIn code).Nodup)
    (hdisjoint : names.Disjoint (declaredIn code)) :
    outs.map (combine f value code) = pairUp f (names.map value) := by
  induction h generalizing value with
  | nil | odd => rfl
  | @pair a b out names outs code _ ih =>
    have hdeclared : declaredIn (.arithReal op a b out :: code) = out :: declaredIn code := rfl
    rw [hdeclared] at hnodup hdisjoint
    obtain ⟨hout, hnodup⟩ := List.nodup_cons.1 hnodup
    have hrest : names.Disjoint (out :: declaredIn code) := fun x hx => hdisjoint (by simp [hx])
    let value' := Function.update value out (f (value a) (value b))
    have hcode : combine f value (.arithReal op a b out :: code) = combine f value' code := rfl
    have hkept : names.map value' = names.map value :=
      List.map_congr_left fun x hx => Function.update_of_ne (fun h => hrest hx (by simp [h])) ..
    have hresult : value' out = f (value a) (value b) := Function.update_self ..
    rw [hcode, List.map_cons, combine_of_notMem hout, hresult,
      ih value' hnodup fun x hx hmem => hrest hx (by simp [hmem]), hkept]
    rfl

end

/-! ## Trees -/

/-- Every line but none of the operands takes one name away, until one is left. -/
theorem Tree.code_length (h : Tree op names out code) : code.length + 1 = names.length := by
  induction h with
  | leaf => rfl
  | round hpairs _ ih =>
    have := hpairs.code_length
    rw [List.length_append]
    omega

theorem Tree.lines (h : Tree op names out code) : ∀ t ∈ code, ∃ a b c, t = .arithReal op a b c := by
  induction h with
  | leaf => simp
  | round hpairs _ ih => exact fun t ht => (List.mem_append.1 ht).elim (hpairs.lines t) (ih t)

/-- A tree is read as its first round and then the tree of what this leaves. -/
theorem Tree.combine_induction {P : List α → α → Prop} (f : α → α → α) (hleaf : ∀ a, P [a] a)
    (hround : ∀ a b xs c, P (pairUp f (a :: b :: xs)) c → P (a :: b :: xs) c)
    (h : Tree op names out code) (value : String → α) (hnodup : (declaredIn code).Nodup)
    (hdisjoint : names.Disjoint (declaredIn code)) :
    P (names.map value) (combine f value code out) := by
  induction h generalizing value with
  | leaf => exact hleaf _
  | @round a b names outs out code code' hpairs _ ih =>
    rw [declaredIn_append] at hnodup hdisjoint
    obtain ⟨hnodup, hnodup', hcodes⟩ := List.nodup_append'.1 hnodup
    have hvalues := hpairs.map_combine f value hnodup
      fun x hx hmem => hdisjoint hx (List.mem_append_left _ hmem)
    have houts : outs.Disjoint (declaredIn code') := fun x hx hmem =>
      (hpairs.mem_outs x hx).elim (fun h => hdisjoint h (List.mem_append_right _ hmem))
        fun h => hcodes h hmem
    have htree := ih (combine f value code) hnodup' houts
    rw [hvalues] at htree
    rw [combine_append]
    exact hround _ _ _ _ htree

/-- The name that is left has what an associative operation makes of the values, in their order. -/
theorem Tree.reduce_eq (h : Tree op names out code) (f : α → α → α) [Std.Associative f]
    (value : String → α) (hnodup : (declaredIn code).Nodup)
    (hdisjoint : names.Disjoint (declaredIn code)) :
    reduce f (names.map value) = some (combine f value code out) :=
  h.combine_induction (P := fun xs c => reduce f xs = some c) f (fun _ => rfl)
    (fun _ _ _ _ hc => (reduce_pairUp f _).symm.trans hc) value hnodup hdisjoint

/-- The depth of a tree is the logarithm of the number of its operands. -/
theorem Tree.depth_le (h : Tree op names out code) (hnodup : (declaredIn code).Nodup)
    (hdisjoint : names.Disjoint (declaredIn code)) :
    combine deeper (fun _ => 0) code out ≤ Nat.clog 2 names.length := by
  have hdepth := h.combine_induction (P := fun ds c => ∀ d, (∀ x ∈ ds, x ≤ d) →
    c ≤ d + Nat.clog 2 ds.length) deeper ?_ ?_ (fun _ => 0) hnodup hdisjoint
  · simpa using hdepth 0 (by simp)
  · intro a d h
    exact (h a (by simp)).trans (Nat.le_add_right _ _)
  · intro a b xs c hc d hd
    have hhalf := hc (d + 1) (le_of_mem_pairUp_deeper hd)
    have hlog : Nat.clog 2 (a :: b :: xs).length =
        Nat.clog 2 (((a :: b :: xs).length + 1) / 2) + 1 :=
      Nat.clog_of_two_le (by decide) (by simp)
    rw [length_pairUp] at hhalf
    omega

end

namespace Emission

variable {op : ArithOp}

/-- Once there are enough rounds, their number does not matter. -/
theorem outcome_rounds_eq (op : ArithOp) {n m : Nat} {names : List String}
    (hn : names.length ≤ n + 1) (hm : names.length ≤ m + 1) (l : Emitted R) :
    outcome (rounds op n names) l = outcome (rounds op m names) l := by
  have hshort : ∀ (k : Nat) (names : List String), names.length ≤ 1 →
      rounds (R := R) op k names = pure names := by
    intro k names h
    cases k with
    | zero => rfl
    | succ k => exact if_pos h
  induction n generalizing m names l with
  | zero => rw [hshort m names hn]; rfl
  | succ n ih =>
    by_cases hlong : names.length ≤ 1
    · rw [hshort _ names hlong, hshort _ names hlong]
    · obtain ⟨m, rfl⟩ : ∃ k, m = k + 1 := ⟨m - 1, by omega⟩
      obtain ⟨outs, l₁, _, _, hrun, -, -, hpairs, -⟩ := pairs_writes op names l
      have hlength := hpairs.length_eq
      simp only [rounds, if_neg hlong]
      rw [outcome_bind_ok hrun, outcome_bind_ok hrun]
      exact ih (by omega) (by omega) l₁

end Emission

/-- An operator on reals is written, after its operands, with one line less than it has operands.
For any associative operation the name that it returns has the combination of all operands in their
order, and names that were in use keep their values. One operand needs no line. The rounds come to
an end for every number of operands, and the tree is balanced. -/
theorem operator_tree_combines {s : Store R} (hb : s.Built fun _ _ => True) (realWidth : Nat)
    {xs : List NodeId} (hne : xs ≠ []) (hxs : ∀ j ∈ xs, j < s.nodes.size) {l l₁ : Emitted R}
    (hl : l.NamesInUse s) {names : List String}
    (hoperands : outcome (xs.mapM (Emission.node s realWidth)) l = (.ok names, l₁))
    (op : ArithOp) :
    l₁.naming.Gives xs names ∧ ∃ out l' code,
      outcome (xs.mapM (Emission.node s realWidth) >>= Emission.tree op) l = (.ok out, l') ∧
      l'.statements.toList = l₁.statements.toList ++ code ∧ code.length + 1 = xs.length ∧
      (∀ t ∈ code, ∃ a b c, t = .arithReal op a b c) ∧
      (xs.length = 1 → names = [out] ∧ l' = l₁) ∧
      (∀ n, xs.length ≤ n + 1 → outcome (Emission.rounds op n names) l₁ = (.ok [out], l')) ∧
      (∀ (α : Type) (f : α → α → α) [Std.Associative f] (value : String → α),
        (∀ first rest, names = first :: rest →
          combine f value code out = (rest.map value).foldl f (value first)) ∧
        ∀ x ∈ l₁.names.used, combine f value code x = value x) ∧
      combine deeper (fun _ => 0) code out ≤ Nat.clog 2 xs.length := by
  have hs := hb.wellTyped_any
  obtain ⟨hl₁, hgives⟩ := Emission.operands_named hs hxs hl hoperands
  have hlength : names.length = xs.length := hgives.length_eq.symm
  have hpos : 0 < names.length := hlength ▸ List.length_pos_iff.2 hne
  obtain ⟨_, l', taken, code, hrun, -, hstep, out, rfl, htree, rfl⟩ :=
    Emission.rounds_writes op names.length names hpos (by omega) l₁
  have hdisjoint : names.Disjoint (declaredIn code) := by
    intro x hx hmem
    obtain ⟨j, -, hj⟩ := forall₂_exists_left hgives x hx
    exact hstep.takes.fresh x hmem (hl₁.node j x hj)
  refine ⟨hgives, out, l', code, ?_, hstep.statements, hlength ▸ htree.code_length, htree.lines,
    fun hone => ?_, fun n hn => ?_, fun α f _ value => ⟨?_, fun x hx => ?_⟩,
    hlength ▸ htree.depth_le hstep.takes.nodup hdisjoint⟩
  · rw [outcome_bind_ok hoperands, Emission.tree, outcome_bind_ok hrun]
    rfl
  · obtain ⟨a, rfl⟩ := List.length_eq_one_iff.1 (hlength.trans hone)
    cases hrun
    exact ⟨rfl, rfl⟩
  · rw [← hrun]
    exact Emission.outcome_rounds_eq op (by omega) (by omega) l₁
  · rintro first rest rfl
    have hreduce := htree.reduce_eq f value hstep.takes.nodup hdisjoint
    rw [List.map_cons, reduce_eq_foldl] at hreduce
    exact (Option.some.inj hreduce).symm
  · exact combine_of_notMem fun hmem => hstep.takes.fresh x hmem hx

/-- Three real inputs. -/
def inputStore : Store ℚ :=
  Store.runAll {} [.signal "u" (.ofMagnitude 1) .input none,
    .signal "v" (.ofMagnitude 2) .input none,
    .signal "w" (.ofMagnitude 3) .input none]

theorem inputStore_built : inputStore.Built fun _ _ => True :=
  Store.Built.empty.runAll (by decide +kernel)

theorem inputStore_signals : (∀ j ∈ [0, 1, 2], inputStore.kind j = .signal j) ∧
    [0, 1, 2].map (fun j => (inputStore.signal j).name) = ["u", "v", "w"] ∧
    inputStore.signals.size = 3 := by
  refine ⟨?_, ?_, ?_⟩
  · simp only [List.mem_cons, List.not_mem_nil, or_false, forall_eq_or_imp, forall_eq]
    refine ⟨?_, ?_, ?_⟩ <;> with_unfolding_all rfl
  · with_unfolding_all rfl
  · with_unfolding_all rfl

/-- The lines of a sum of three join their names in order. -/
theorem operator_tree_combines_three : (inputStore.Built fun _ _ => True) ∧ ∃ out l' code,
    outcome ([0, 1, 2].mapM (Emission.node inputStore 25) >>= Emission.tree .sum)
      { names := .ofList ["u", "v", "w"] } = (.ok out, l') ∧
    l'.statements.toList = code ∧ code.length = 2 ∧
    combine (· ++ ·) (fun x => [x]) code out = ["u", "v", "w"] := by
  obtain ⟨hkind, hnames, hsize⟩ := inputStore_signals
  have hstart := Emitted.namesInUse_ofList hsize hnames
  obtain ⟨l₁, hrun, hstatements⟩ := Emission.exists_run_signals 25 (fun j => j) hkind
    { names := .ofList ["u", "v", "w"] } (by simp [Emitted.naming])
  rw [hnames] at hrun
  obtain ⟨-, out, l', code, htree, hcode, hlength, -, -, -, hvalue, -⟩ :=
    operator_tree_combines inputStore_built 25 (by simp) (by decide +kernel) hstart hrun .sum
  rw [hstatements] at hcode
  exact ⟨inputStore_built, out, l', code, htree, hcode, Nat.succ.inj hlength,
    (hvalue (List String) (· ++ ·) fun x => [x]).1 _ _ rfl⟩

end MixedSignal.Verilog
