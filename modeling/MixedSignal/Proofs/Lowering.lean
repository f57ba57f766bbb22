import MixedSignal.Proofs.Emitting
import MixedSignal.Proofs.FreshNames
import MixedSignal.Proofs.NodeCode

/-!
# Emissions as sequences of lowerings

A run of an emission appends statements and takes names. `Emission.Writes` is for parts that compute
no node: they always succeed. `Emission.Gathers` is for parts that compute nodes: a successful run
appends the code of a sequence of lowerings, and the names that it takes are those that this code
declares and some that are declared later. `Emission.node_gathers` says so of a node and all nodes
below it, by induction over the order in which nodes are made.
-/

set_option linter.unusedSectionVars false

namespace MixedSignal.Verilog

variable {R : Type} [Scalar R] {xs : List NodeId} {j i : NodeId} {kind : NodeKind R}
  {code : List (Statement R)}

/-! ## What an emission writes -/

/-- The names of the nodes that were computed. -/
def Emitted.naming (l : Emitted R) : Naming := fun j => l.named[j]?

theorem Emitted.naming_insert (l : Emitted R) (i : NodeId) (name : String) :
    Emitted.naming { l with named := l.named.insert i name } =
      Function.update l.naming i (some name) := by
  funext j
  rw [Function.update_apply]
  change (l.named.insert i name)[j]? = _
  rw [Std.HashMap.getElem?_insert]
  by_cases hj : j = i
  · simp [hj]
  · rw [if_neg hj, if_neg (by simpa using Ne.symm hj)]
    rfl

namespace Emission

open Dependency

variable {α β : Type}

/-- Names were taken and statements appended. -/
structure Step (l l' : Emitted R) (taken : List String) (code : List (Statement R)) : Prop where
  takes : Names.Takes l.names l'.names taken
  statements : l'.statements.toList = l.statements.toList ++ code
  words : ∀ x ∈ taken, Names.IsWord x

theorem Step.refl (l : Emitted R) : Step l l [] [] := ⟨.refl _, by simp, by simp⟩

theorem Step.trans {l l' l'' : Emitted R} {taken taken' : List String} {code' : List (Statement R)}
    (h : Step l l' taken code) (h' : Step l' l'' taken' code') :
    Step l l'' (taken ++ taken') (code ++ code') :=
  ⟨h.takes.trans h'.takes, by rw [h'.statements, h.statements, List.append_assoc],
    List.forall_mem_append.2 ⟨h.words, h'.words⟩⟩

theorem Step.perm {l l' : Emitted R} {taken taken' : List String} (h : Step l l' taken code)
    (hp : taken.Perm taken') : Step l l' taken' code :=
  ⟨h.takes.perm hp, h.statements, fun x hx => h.words x (hp.mem_iff.2 hx)⟩

/-- The emission takes names and appends statements, of which `P` holds. It computes no node. -/
def Writes (x : Emission R α) (P : α → List String → List (Statement R) → Prop) : Prop :=
  ∀ l, ∃ a l' taken code, outcome x l = (.ok a, l') ∧ l'.named = l.named ∧ Step l l' taken code ∧
    P a taken code

namespace Writes

variable {x : Emission R α} {f : α → Emission R β} {P : α → List String → List (Statement R) → Prop}
  {Q : β → List String → List (Statement R) → Prop}

theorem pure {a : α} (h : P a [] []) : Writes (Pure.pure a) P :=
  fun l => ⟨a, l, [], [], rfl, rfl, .refl l, h⟩

theorem bind (hx : Writes x P) (hf : ∀ a taken code, P a taken code →
    Writes (f a) fun b taken' code' => Q b (taken ++ taken') (code ++ code')) :
    Writes (x >>= f) Q := by
  intro l
  obtain ⟨a, l', taken, code, hrun, hnamed, hstep, hP⟩ := hx l
  obtain ⟨b, l'', taken', code', hrun', hnamed', hstep', hQ⟩ := hf a taken code hP l'
  exact ⟨b, l'', _, _, (outcome_bind_ok hrun).trans hrun', hnamed'.trans hnamed,
    hstep.trans hstep', hQ⟩

theorem imp {P' : α → List String → List (Statement R) → Prop} (hx : Writes x P)
    (h : ∀ a taken code, P a taken code → P' a taken code) : Writes x P' := by
  intro l
  obtain ⟨a, l', taken, code, hrun, hnamed, hstep, hP⟩ := hx l
  exact ⟨a, l', taken, code, hrun, hnamed, hstep, h a taken code hP⟩

theorem emit_bind {t : Statement R} {f : Unit → Emission R β}
    (h : Writes (f ()) fun b taken code => Q b taken (t :: code)) : Writes (emit t >>= f) Q := by
  have hemit : Writes (emit t) fun _ taken code => taken = [] ∧ code = [t] := fun l =>
    ⟨(), { l with statements := l.statements.push t }, [], [t], rfl, rfl, ⟨.refl _, by simp, by simp⟩,
      rfl, rfl⟩
  refine hemit.bind ?_
  rintro _ _ _ ⟨rfl, rfl⟩
  exact h

theorem freshName_bind {base : String} (hbase : Names.IsWord base) {f : String → Emission R β}
    (h : ∀ name, Names.IsWord name →
      Writes (f name) fun b taken code => Q b (name :: taken) code) :
    Writes (freshName base >>= f) Q := by
  have hfresh : Writes (freshName (R := R) base) fun name taken code =>
      Names.IsWord name ∧ taken = [name] ∧ code = [] := fun l =>
    ⟨_, { l with names := (l.names.fresh base).2 }, _, [], rfl, rfl,
      ⟨l.names.fresh_takes base, by simp, List.forall_mem_singleton.2 (l.names.choose_isWord hbase)⟩,
      l.names.choose_isWord hbase, rfl, rfl⟩
  refine hfresh.bind ?_
  rintro name _ _ ⟨hname, rfl, rfl⟩
  exact h name hname

theorem temporary_bind {f : String → Emission R β}
    (h : ∀ name, Writes (f name) fun b taken code => Q b (name :: taken) code) :
    Writes (temporary >>= f) Q :=
  freshName_bind (by decide) fun name _ => h name

end Writes

theorem assignInt_writes (r : IntRepr) (source : Source) :
    Writes (R := R) (assignInt r source) fun out taken code =>
      taken = [out] ∧ code = [.declareInt out r, .assign out source] :=
  .temporary_bind fun _ => .emit_bind (.emit_bind (.pure ⟨rfl, rfl⟩))

theorem pairs_writes (op : ArithOp) : ∀ names, Writes (R := R) (pairs op names)
    fun outs taken code => Pairs op names outs code ∧ taken = declaredIn code
  | [] => .pure ⟨.nil, rfl⟩
  | [_] => .pure ⟨.odd, rfl⟩
  | _ :: _ :: names => .temporary_bind fun _ => .emit_bind <|
    (pairs_writes op names).bind fun _ _ _ ⟨h, htaken⟩ => .pure ⟨by simpa using .pair h, by
      simp [htaken, Statement.declared?]⟩

/-- A round leaves half of the names, so that the rounds suffice. -/
theorem rounds_writes (op : ArithOp) (n : Nat) (names : List String) (hpos : 0 < names.length)
    (hle : names.length ≤ n + 1) : Writes (R := R) (rounds op n names) fun outs taken code =>
      ∃ out, outs = [out] ∧ Tree op names out code ∧ taken = declaredIn code := by
  induction n generalizing names with
  | zero =>
    obtain ⟨a, rfl⟩ := List.length_eq_one_iff.1 (show names.length = 1 by omega)
    exact .pure ⟨a, rfl, .leaf, rfl⟩
  | succ n ih =>
    unfold rounds
    split
    · obtain ⟨a, rfl⟩ := List.length_eq_one_iff.1 (show names.length = 1 by omega)
      exact .pure ⟨a, rfl, .leaf, rfl⟩
    · rename_i hlong
      refine (pairs_writes op names).bind ?_
      rintro outs taken code ⟨hpairs, htaken⟩
      have hlength := hpairs.length_eq
      refine (ih outs (by omega) (by omega)).imp ?_
      rintro _ taken' code' ⟨out, rfl, htree, htaken'⟩
      obtain _ | ⟨a, _ | ⟨b, names⟩⟩ := names
      · exact absurd hpos (lt_irrefl 0)
      · exact absurd le_rfl hlong
      · exact ⟨out, rfl, .round hpairs htree, by rw [htaken, htaken', declaredIn_append]⟩

theorem tree_writes (op : ArithOp) {names : List String} (h : names ≠ []) :
    Writes (R := R) (tree op names) fun out taken code =>
      Tree op names out code ∧ taken = declaredIn code := by
  have hpos := List.length_pos_iff.2 h
  refine (rounds_writes op names.length names hpos (by omega)).bind ?_
  rintro _ taken code ⟨out, rfl, htree⟩
  exact .pure (by simpa using htree)

theorem chain_writes (order : CompareOp) (p r : IntRepr) : ∀ found a names,
    Writes (R := R) (chain order p r found (a :: names)) fun out taken code =>
      Chain order p r found (a :: names) out code ∧ taken = declaredIn code
  | found, a, [] => by
    refine (assignInt_writes r _).imp ?_
    rintro out _ _ ⟨rfl, rfl⟩
    exact ⟨.last, rfl⟩
  | found, a, b :: names => by
    refine (assignInt_writes p _).bind ?_
    rintro better _ _ ⟨rfl, rfl⟩
    refine (chain_writes order p r better b names).imp ?_
    rintro out taken code ⟨hchain, rfl⟩
    exact ⟨.next hchain, rfl⟩

theorem entries_writes {out : String} (hout : Names.IsWord out) : ∀ (values : List String) (k : Nat),
    Writes (R := R) ((values.zipIdx k).mapM fun (value, k) => realEntry out value k)
      fun entries taken code => entries.length = values.length ∧ taken = entries ∧
        code = entryCode out values entries
  | [], _ => .pure ⟨rfl, rfl, rfl⟩
  | value :: values, k => by
    rw [List.zipIdx_cons, List.mapM_cons]
    have hentry : Writes (R := R) (realEntry out value k) fun entry taken code =>
        taken = [entry] ∧ code = [.declareLike out entry, .assignReal value entry] :=
      .freshName_bind (hout.numbered k) fun _ _ => .emit_bind (.emit_bind (.pure ⟨rfl, rfl⟩))
    refine hentry.bind ?_
    rintro entry _ _ ⟨rfl, rfl⟩
    refine (entries_writes hout values (k + 1)).bind ?_
    rintro entries _ _ ⟨hlength, rfl, rfl⟩
    exact .pure ⟨by simp [hlength], by simp, by simp [entryCode_cons]⟩

/-! ## What an emission computes -/

section

variable {s : Store R} {realWidth : Nat} {Q : NodeId → Prop}

/-- The emission computes nodes of which `Q` holds. `P` holds of the names of nodes in the end, the
result and the names that were taken and are not declared yet. -/
def Gathers (s : Store R) (realWidth : Nat) (Q : NodeId → Prop) (x : Emission R α)
    (P : Naming → α → List String → Prop) : Prop :=
  ∀ l a l', outcome x l = (.ok a, l') → ∃ xs own, Lowers s realWidth l.naming xs l'.naming ∧
    (∀ x ∈ xs, Q x.node) ∧ Step l l' (declaredIn (codeOf xs) ++ own) (codeOf xs) ∧
    P l'.naming a own

/-- The emission computes nodes of which `Q` holds, and then writes the code of its result. This code
declares the names that it takes and those that were taken before. -/
def Finishes (s : Store R) (realWidth : Nat) (Q : NodeId → Prop) (own : List String)
    (x : Emission R String) (P : Naming → String → List (Statement R) → Prop) : Prop :=
  ∀ l out l', outcome x l = (.ok out, l') → ∃ xs code taken,
    Lowers s realWidth l.naming xs l'.naming ∧ (∀ x ∈ xs, Q x.node) ∧
    (own ++ taken).Perm (declaredIn code) ∧
    Step l l' (declaredIn (codeOf xs) ++ taken) (codeOf xs ++ code) ∧ P l'.naming out code

variable {x : Emission R α} {P : Naming → α → List String → Prop}

theorem Gathers.pure {a : α} (h : ∀ naming, P naming a []) :
    Gathers s realWidth Q (Pure.pure a) P := by
  rintro l _ _ ⟨⟩
  exact ⟨[], [], .nil, by simp, .refl l, h _⟩

theorem Gathers.bind {f : α → Emission R β} {T : Naming → β → List String → Prop}
    (hx : Gathers s realWidth Q x P) (hf : ∀ naming a own, P naming a own →
      Gathers s realWidth Q (f a) fun naming' b own' =>
        (∀ j y, naming j = some y → naming' j = some y) → T naming' b (own ++ own')) :
    Gathers s realWidth Q (x >>= f) T := by
  intro l b l'' hrun
  obtain ⟨a, l', hrun, hrun'⟩ := outcome_bind_eq_ok hrun
  obtain ⟨xs, own, hlowers, hxs, hstep, hP⟩ := hx l a l' hrun
  obtain ⟨ys, own', hlowers', hys, hstep', hT⟩ := hf _ a own hP l' b l'' hrun'
  refine ⟨xs ++ ys, own ++ own', hlowers.append hlowers', ?_, ?_, hT fun _ _ => hlowers'.gives⟩
  · exact fun y hy => (List.mem_append.1 hy).elim (hxs y) (hys y)
  · rw [codeOf_append, declaredIn_append]
    exact (hstep.trans hstep').perm (perm_append_middle _ _ _ _)

theorem temporary_gathers :
    Gathers s realWidth Q temporary fun _ out own => Names.IsWord out ∧ own = [out] := by
  rintro l _ _ ⟨⟩
  have hword : Names.IsWord (l.names.choose "tmp") := l.names.choose_isWord (by decide)
  exact ⟨[], [_], .nil, by simp, ⟨l.names.fresh_takes _, by simp [codeOf],
    List.forall_mem_singleton.2 hword⟩, hword, rfl⟩

theorem Finishes.bind {f : α → Emission R String} {own : List String}
    {C : Naming → String → List (Statement R) → Prop} (hx : Gathers s realWidth Q x P)
    (hf : ∀ naming a own', P naming a own' →
      Finishes s realWidth Q (own ++ own') (f a) fun naming' out code =>
        (∀ j y, naming j = some y → naming' j = some y) → C naming' out code) :
    Finishes s realWidth Q own (x >>= f) C := by
  intro l out l'' hrun
  obtain ⟨a, l', hrun, hrun'⟩ := outcome_bind_eq_ok hrun
  obtain ⟨xs, own', hlowers, hxs, hstep, hP⟩ := hx l a l' hrun
  obtain ⟨ys, code, taken, hlowers', hys, hperm, hstep', hC⟩ := hf _ a own' hP l' out l'' hrun'
  rw [List.append_assoc] at hperm
  refine ⟨xs ++ ys, code, own' ++ taken, hlowers.append hlowers', ?_, hperm, ?_,
    hC fun _ _ => hlowers'.gives⟩
  · exact fun y hy => (List.mem_append.1 hy).elim (hxs y) (hys y)
  · have hstep'' := (hstep.trans hstep').perm (perm_append_middle _ _ _ _)
    rwa [codeOf_append, declaredIn_append, List.append_assoc (codeOf xs)]

theorem Writes.finishes {x : Emission R String} {own : List String}
    {C : Naming → String → List (Statement R) → Prop}
    (h : Writes x fun out taken code => (own ++ taken).Perm (declaredIn code) ∧
      ∀ naming, C naming out code) : Finishes s realWidth Q own x C := by
  intro l out l' hrun
  obtain ⟨_, _, taken, code, hwrites, hnamed, hstep, hperm, hC⟩ := h l
  rw [hrun] at hwrites
  obtain ⟨⟨⟩, rfl⟩ := Prod.mk.inj hwrites
  have hnaming : l'.naming = l.naming := by
    unfold Emitted.naming
    rw [hnamed]
  refine ⟨[], code, taken, ?_, by simp, hperm, hstep, hC _⟩
  rw [hnaming]
  exact .nil

theorem Gathers.mapM {γ : Type} {f : γ → Emission R β} {E : Naming → γ → β → Prop}
    (hE : ∀ naming naming' c b, (∀ j y, naming j = some y → naming' j = some y) →
      E naming c b → E naming' c b) :
    ∀ {cs : List γ}, (∀ c ∈ cs, Gathers s realWidth Q (f c) fun naming b own =>
      own = [] ∧ E naming c b) →
    Gathers s realWidth Q (cs.mapM f) fun naming bs own => own = [] ∧ List.Forall₂ (E naming) cs bs
  | [], _ => by
    rw [List.mapM_nil]
    exact .pure fun _ => ⟨rfl, .nil⟩
  | c :: cs, h => by
    rw [List.mapM_cons]
    refine (h c (by simp)).bind ?_
    rintro naming b _ ⟨rfl, hb⟩
    refine (mapM hE fun d hd => h d (by simp [hd])).bind ?_
    rintro naming' bs _ ⟨rfl, hbs⟩
    exact .pure fun naming'' hle' hle =>
      ⟨rfl, .cons (hE _ _ _ _ hle hb) (hbs.imp fun d e hde => hE _ _ _ _ hle' hde)⟩

/-! ## Nodes -/

variable {rounding : Rounding R} {operand : NodeId → Emission R String} {own : List String}

/-- The emission of a node ends with a name for it. -/
def Supplies (s : Store R) (realWidth : Nat) (Q : NodeId → Prop) (j : NodeId)
    (x : Emission R String) : Prop :=
  Gathers s realWidth Q x fun naming name own => own = [] ∧ naming j = some name

theorem operands_gather (h : ∀ j ∈ xs, Supplies s realWidth Q j (operand j)) :
    Gathers s realWidth Q (xs.mapM operand) fun naming names own =>
      own = [] ∧ naming.Gives xs names :=
  .mapM (E := fun naming j x => naming j = some x) (fun _ _ j x hle hj => hle j x hj) h

/-- The operand is computed, and an integer made of its name. -/
theorem bind_assignInt_finishes (h : ∀ k ∈ [j], Supplies s realWidth Q k (operand k)) {f : IntFormat}
    {source : String → Source}
    (hsource : ∀ naming x, naming j = some x → IntSource s naming kind (source x)) :
    Finishes s realWidth Q [] (operand j >>= fun x => assignInt f.repr (source x))
      (NodeCode s realWidth · kind (.int f)) := by
  refine .bind (h j (by simp)) ?_
  rintro naming x _ ⟨rfl, hx⟩
  refine ((assignInt_writes _ _).imp ?_).finishes
  rintro out _ _ ⟨rfl, rfl⟩
  exact ⟨.rfl, fun naming' hle => .int (hsource naming' x (hle _ _ hx))⟩

theorem mapM_assignInt_finishes (h : ∀ j ∈ xs, Supplies s realWidth Q j (operand j)) {f : IntFormat}
    {source : List String → Source}
    (hsource : ∀ (naming : Naming) names, naming.Gives xs names →
      IntSource s naming kind (source names)) :
    Finishes s realWidth Q [] (xs.mapM operand >>= fun names => assignInt f.repr (source names))
      (NodeCode s realWidth · kind (.int f)) := by
  refine .bind (operands_gather h) ?_
  rintro naming names _ ⟨rfl, hnames⟩
  refine ((assignInt_writes _ _).imp ?_).finishes
  rintro out _ _ ⟨rfl, rfl⟩
  exact ⟨.rfl, fun naming' hle => .int (hsource naming' names (hnames.imp fun _ _ => hle _ _))⟩

theorem ne_nil_of_constantFactor? {op : ArithOp} {rest : List NodeId} {c : R}
    (h : constantFactor? s op xs = some (c, rest)) : rest ≠ [] := by
  unfold constantFactor? at h
  split at h
  · obtain ⟨v, -, heq⟩ := Option.map_eq_some_iff.1 h
    obtain ⟨-, rfl⟩ := Prod.mk.inj heq
    simp
  · cases h

theorem realArith_finishes (op : ArithOp) (htwo : 2 ≤ xs.length)
    (h : ∀ j ∈ xs, Supplies s realWidth Q j (operand j)) (f : RealFormat R) :
    Finishes s realWidth Q [] (realArith s operand op xs)
      (NodeCode s realWidth · (.arith op xs) (.real f)) := by
  unfold realArith
  split
  · rename_i c rest hfactor
    obtain ⟨last, v, rfl, -⟩ := constantFactor?_eq_some hfactor
    refine .bind (operands_gather fun j hj => h j (List.mem_append_left _ hj)) ?_
    rintro naming names _ ⟨rfl, hnames⟩
    have hne : names ≠ [] := by
      rintro rfl
      exact ne_nil_of_constantFactor? hfactor (List.length_eq_zero_iff.1 hnames.length_eq)
    refine ((tree_writes .product hne).bind ?_).finishes
    rintro product _ code ⟨htree, rfl⟩
    refine .temporary_bind fun out => .emit_bind (.pure ⟨?_, fun naming' hle => ?_⟩)
    · simp [Statement.declared?]
    · exact .scaled hfactor (hnames.imp fun _ _ => hle _ _) htree
  · rename_i hfactor
    refine .bind (operands_gather h) ?_
    rintro naming names _ ⟨rfl, hnames⟩
    have hne : names ≠ [] := by
      rintro rfl
      exact absurd (hnames.length_eq ▸ htwo) (by simp)
    refine ((tree_writes op hne).imp ?_).finishes
    rintro out _ code ⟨htree, rfl⟩
    exact ⟨.rfl, fun naming' hle =>
      .tree hfactor htwo (hnames.imp fun _ _ => hle _ _) htree⟩

theorem intArith_finishes (op : ArithOp) (htwo : 2 ≤ xs.length)
    (h : ∀ j ∈ xs, Supplies s realWidth Q j (operand j)) (f : IntFormat) :
    Finishes s realWidth Q [] (intArith s operand op xs f)
      (NodeCode s realWidth · (.arith op xs) (.int f)) := by
  have hextremum : ∀ order, (op = .min ∧ order = .lt ∨ op = .max ∧ order = .gt) →
      Finishes s realWidth Q [] (xs.mapM operand >>= fun names =>
        if (partialRepr s xs f).hasValues then
          extremum order (partialRepr s xs f) f.repr names else throw .emptyWord)
        (NodeCode s realWidth · (.arith op xs) (.int f)) := by
    intro order horder
    refine .bind (operands_gather h) ?_
    rintro naming names _ ⟨rfl, hnames⟩
    split
    swap
    · rintro l out l' ⟨⟩
    have hlength : 2 ≤ names.length := hnames.length_eq ▸ htwo
    match names, hlength with
    | found :: a :: names, _ =>
      refine ((chain_writes order _ _ found a names).imp ?_).finishes
      rintro out _ code ⟨hchain, rfl⟩
      exact ⟨.rfl, fun naming' hle =>
        .extremum horder (hnames.imp fun _ _ => hle _ _) hchain⟩
  cases op with
  | sum => exact mapM_assignInt_finishes h fun _ _ => .sum
  | product => exact mapM_assignInt_finishes h fun _ _ => .product
  | min => exact hextremum .lt (.inl ⟨rfl, rfl⟩)
  | max => exact hextremum .gt (.inr ⟨rfl, rfl⟩)

theorem intEntry_gathers (h : Supplies s realWidth Q j (operand j)) :
    Gathers s realWidth Q (intEntry s operand j) fun naming e own =>
      own = [] ∧ IntEntry s naming j e := by
  unfold intEntry
  split
  · rename_i v f hv hf
    exact .pure fun _ => ⟨rfl, .inl ⟨v, f, hv, hf, rfl⟩⟩
  · intro l e l' hrun
    obtain ⟨xs, own, hlowers, hxs, hstep, rfl, he⟩ := h l e l' hrun
    exact ⟨xs, [], hlowers, hxs, hstep, rfl, .inr he⟩

/-- The result of a selection is named before the elements are computed, and declared after. -/
theorem select_finishes (f : Format R) {a : NodeId} (ha : Supplies s realWidth Q a (operand a))
    (h : ∀ j ∈ xs, Supplies s realWidth Q j (operand j)) :
    Finishes s realWidth Q [] (select s realWidth operand f xs a)
      (NodeCode s realWidth · (.select xs a) f) := by
  refine .bind ha ?_
  rintro naming x _ ⟨rfl, hx⟩
  refine .bind temporary_gathers ?_
  rintro naming₁ out _ ⟨hout, rfl⟩
  cases f with
  | real f =>
    refine .bind (operands_gather h) ?_
    rintro naming₂ values _ ⟨rfl, hvalues⟩
    refine Writes.finishes (.emit_bind ((entries_writes hout values 0).bind ?_))
    rintro entries _ _ ⟨hlength, rfl, rfl⟩
    refine .emit_bind (.pure ⟨?_, fun naming' hle₂ _ hle => ?_⟩)
    · simp [declarationOfReal, Statement.declared?, (entryCode_names hlength).1]
    · simpa using NodeCode.selectReal (hle _ _ hx) (hvalues.imp fun _ _ => hle₂ _ _) hlength
  | int f =>
    have hentries : Gathers s realWidth Q (xs.mapM (intEntry s operand)) fun naming entries own =>
        own = [] ∧ List.Forall₂ (IntEntry s naming) xs entries :=
      .mapM (E := IntEntry s) (fun _ _ j e hle => Or.imp_right (hle j e))
        fun j hj => intEntry_gathers (h j hj)
    refine .bind hentries ?_
    rintro naming₂ entries _ ⟨rfl, hentries⟩
    refine Writes.finishes (.emit_bind ?_)
    rw [pure_bind]
    refine .emit_bind (.pure ⟨?_, fun naming' hle₂ _ hle => ?_⟩)
    · simp [Statement.declared?]
    · exact .selectInt (hle _ _ hx) (hentries.imp fun j e => Or.imp_right (hle₂ j e))

theorem compare_finishes (op : CompareOp) {a b : NodeId} (f : Format R)
    (ha : Supplies s realWidth Q a (operand a)) (hb : Supplies s realWidth Q b (operand b)) :
    Finishes s realWidth Q [] (compare s operand op a b)
      (NodeCode s realWidth · (.compare op a b) f) := by
  refine .bind ha ?_
  rintro naming x _ ⟨rfl, hx⟩
  refine .bind hb ?_
  rintro naming₁ y _ ⟨rfl, hy⟩
  refine Writes.finishes (.temporary_bind fun out => ?_)
  cases hf : s.format a with
  | real g =>
    exact .emit_bind (.pure ⟨.rfl, fun naming' hle₁ hle =>
      .compareReal hf (hle _ _ hx) (hle₁ _ _ hy)⟩)
  | int g =>
    exact .emit_bind (.emit_bind (.pure ⟨.rfl, fun naming' hle₁ hle =>
      .compareInt hf (hle _ _ hx) (hle₁ _ _ hy)⟩))

/-- A conversion between integers and reals. -/
theorem bind_macro_finishes (h : ∀ k ∈ [j], Supplies s realWidth Q k (operand k)) {f : Format R}
    {t : String → String → Statement R} (ht : ∀ x out, (t x out).declared? = some out)
    (hcode : ∀ (naming : Naming) x out, naming j = some x →
      NodeCode s realWidth naming kind f out [t x out]) :
    Finishes s realWidth Q [] (do
      let x ← operand j
      let out ← temporary
      emit (t x out)
      return out) (NodeCode s realWidth · kind f) := by
  refine .bind (h j (by simp)) ?_
  rintro naming x _ ⟨rfl, hx⟩
  refine Writes.finishes (.temporary_bind fun out =>
    .emit_bind (.pure ⟨?_, fun naming' hle => hcode naming' x out (hle _ _ hx)⟩))
  simp [ht]

/-- A typed node is computed by code of its kind, after its operands. -/
theorem ofKind_finishes {f : Format R} (ht : s.Typed rounding kind f)
    (h : ∀ j ∈ s.operands kind, Supplies s realWidth Q j (operand j)) :
    Finishes s realWidth Q [] (ofKind s realWidth operand ⟨kind, f⟩)
      (NodeCode s realWidth · kind f) := by
  cases ht with
  | signal hx => exact Writes.finishes (.pure ⟨.rfl, fun _ => .signal hx⟩)
  | int =>
    refine ((assignInt_writes _ _).imp ?_).finishes
    rintro out _ _ ⟨rfl, rfl⟩
    exact ⟨.rfl, fun _ => .constInt⟩
  | real =>
    exact Writes.finishes (.temporary_bind fun out => .emit_bind (.pure ⟨.rfl, fun _ => .constReal⟩))
  | @arith op xs f hnormal _ =>
    cases f with
    | real f => exact realArith_finishes op hnormal.two_le h f
    | int f => exact intArith_finishes op hnormal.two_le h f
  | compare =>
    exact compare_finishes _ _ (h _ (by simp [Store.operands])) (h _ (by simp [Store.operands]))
  | bitwise => exact mapM_assignInt_finishes h fun _ _ => .bitwise
  | concat => exact mapM_assignInt_finishes h fun _ _ => .concat
  | bitNot => exact bind_assignInt_finishes h fun _ _ => .bitNot
  | shiftLeft => exact bind_assignInt_finishes h fun _ _ => .shiftLeft
  | shiftRight => exact bind_assignInt_finishes h fun _ _ => .shiftRight
  | slice => exact bind_assignInt_finishes h fun _ _ => .slice
  | uintToSint => exact bind_assignInt_finishes h fun _ _ => .signed
  | sintToUint | sintToUintOfNonneg => exact bind_assignInt_finishes h fun _ _ => .unsigned
  | resize => exact bind_assignInt_finishes h fun _ _ => .resize
  | sintToReal => exact bind_macro_finishes h (fun _ _ => rfl) fun _ _ _ => .intToReal
  | realToSint => exact bind_macro_finishes h (fun _ _ => rfl) fun _ _ _ => .realToInt
  | select =>
    exact select_finishes _ (h _ (by simp [Store.operands]))
      fun j hj => h j (by simp [Store.operands, hj])
  | cases | deriv =>
    rintro l out l' ⟨⟩

/-- The nodes of an operand are below the node that uses it. -/
theorem Supplies.of_operand (hs : s.WellTyped rounding) (hi : i < s.nodes.size)
    (hj : j ∈ s.operands (s.kind i)) {x : Emission R String}
    (h : Supplies s realWidth (Reaches s.children j) j x) :
    Supplies s realWidth (fun k => k < i ∧ Reaches s.children i k) j x := by
  have hlt := hs.below i hi j hj
  intro l name l' hrun
  obtain ⟨xs, own, hlowers, hxs, hstep, hname⟩ := h l name l' hrun
  refine ⟨xs, own, hlowers, fun x hx => ⟨?_, .head hj (hxs x hx)⟩, hstep, hname⟩
  have hmem := (hs.mem_occurrences_iff_reaches j (hlt.trans hi)).2 (hxs x hx)
  exact (Store.le_of_mem_occurrences j hmem).trans_lt hlt

/-- A node is computed after the nodes that it can be reached from, each of them once. -/
theorem node_gathers (hs : s.WellTyped rounding) (realWidth : Nat) : ∀ i < s.nodes.size,
    Supplies s realWidth (Reaches s.children i) i (node s realWidth i) := by
  intro i
  induction i using Nat.strong_induction_on with
  | _ i ih =>
    intro hi l name l' hrun
    rw [node, outcome_get_bind] at hrun
    split at hrun
    · rename_i hname
      cases hrun
      exact ⟨[], [], .nil, by simp, .refl l, rfl, hname⟩
    · rename_i hnone
      have hoperand : ∀ j ∈ s.operands (s.kind i), Supplies s realWidth
          (fun k => k < i ∧ Reaches s.children i k) j (if _h : j < i then node s realWidth j
            else throw (.unsupportedNode "")) := by
        intro j hj
        have hlt := hs.below i hi j hj
        simp only [hlt, ↓reduceDIte]
        exact .of_operand hs hi hj (ih j hlt (hlt.trans hi))
      obtain ⟨_, l₁, hkind, hrun⟩ := outcome_bind_eq_ok hrun
      obtain ⟨xs, code, taken, hlowers, hxs, hperm, hstep, hcode⟩ :=
        ofKind_finishes (hs.typed i hi) hoperand _ _ _ hkind
      cases hrun
      have hnew : l₁.naming i = none :=
        (hlowers.eq_of_notMem fun x hx => (hxs x hx).1.ne).trans hnone
      refine ⟨xs ++ [⟨i, name, code⟩], [], ?_, ?_, ?_, rfl, ?_⟩
      · rw [Emitted.naming_insert]
        exact hlowers.append (.cons hnew hcode .nil)
      · intro x hx
        rcases List.mem_append.1 hx with hx | hx
        · exact (hxs x hx).2
        · rw [List.mem_singleton.1 hx]
          exact .refl
      · have hcodes : codeOf (xs ++ [⟨i, name, code⟩]) = codeOf xs ++ code := by
          simp [codeOf]
        rw [hcodes, declaredIn_append, List.append_nil]
        have hdeclared := hstep.perm (hperm.append_left _)
        exact ⟨hdeclared.takes, hdeclared.statements, hdeclared.words⟩
      · rw [Emitted.naming_insert, Function.update_self]

end

end Emission

/-! ## Names in use -/

/-- The names of all signals and of all computed nodes are in use. -/
structure Emitted.NamesInUse (l : Emitted R) (s : Store R) : Prop where
  signal : ∀ x < s.signals.size, (s.signal x).name ∈ l.names.used
  node : ∀ j name, l.naming j = some name → name ∈ l.names.used

/-- No node is computed at the start. -/
theorem Emitted.namesInUse_ofList {s : Store R} {names : List String} {n : Nat}
    (hn : s.signals.size = n) (h : (List.range n).map (fun x => (s.signal x).name) = names) :
    Emitted.NamesInUse ({ names := .ofList names } : Emitted R) s :=
  ⟨fun _ hx => Names.mem_ofList.2 (h ▸ List.mem_map_of_mem (List.mem_range.2 (hn ▸ hx))),
    fun j name hj => by simp [Emitted.naming] at hj⟩

namespace Emission

variable {rounding : Rounding R} {s : Store R} {realWidth : Nat} {l l' : Emitted R}

/-- Nodes that are computed get names of signals, or names that their code takes. -/
theorem Step.namesInUse {xs : List (Lowering R)} {own : List String}
    (h : Step l l' (declaredIn (codeOf xs) ++ own) code)
    (hlowers : Lowers s realWidth l.naming xs l'.naming) (hl : l.NamesInUse s) :
    l'.NamesInUse s := by
  refine ⟨fun x hx => (h.takes.mem_iff _).2 (.inl (hl.signal x hx)), fun j name hj => ?_⟩
  have hnames : name ∈ l.names.used ∨ name ∈ declaredIn (codeOf xs) :=
    (hlowers.scoped hl.node hl.signal).2 j name hj
  exact (h.takes.mem_iff name).2 (hnames.imp_right (List.mem_append_left own))

/-- Operands that are computed have names, and these are in use. -/
theorem operands_named (hs : s.WellTyped rounding) (hxs : ∀ j ∈ xs, j < s.nodes.size)
    (hl : l.NamesInUse s) {names : List String}
    (h : outcome (xs.mapM (node s realWidth)) l = (.ok names, l')) :
    l'.NamesInUse s ∧ l'.naming.Gives xs names := by
  have hsupplies : ∀ j ∈ xs, Supplies s realWidth (fun _ => True) j (node s realWidth j) := by
    intro j hj l name l' hrun
    obtain ⟨ys, own, hlowers, -, hstep, hname⟩ :=
      node_gathers hs realWidth j (hxs j hj) l name l' hrun
    exact ⟨ys, own, hlowers, fun _ _ => trivial, hstep, hname⟩
  obtain ⟨ys, own, hlowers, -, hstep, -, hgives⟩ := operands_gather hsupplies l names l' h
  exact ⟨hstep.namesInUse hlowers hl, hgives⟩

/-- Signals have names without further code. -/
theorem outcome_node_signal {x : SignalId} (hkind : s.kind i = .signal x)
    (hnew : l.named[i]? = none) : outcome (node s realWidth i) l =
      (.ok (s.signal x).name, { l with named := l.named.insert i (s.signal x).name }) := by
  have hnode : s.node i = ⟨.signal x, s.format i⟩ := by rw [← hkind]; rfl
  rw [node, outcome_get_bind, hnew, hnode]
  rfl

theorem exists_run_signals (realWidth : Nat) (signal : NodeId → SignalId)
    (hxs : ∀ i ∈ xs, s.kind i = .signal (signal i)) (l : Emitted R)
    (hl : ∀ i ∈ xs, ∀ name, l.naming i = some name → name = (s.signal (signal i)).name) :
    ∃ l₁, outcome (xs.mapM (node s realWidth)) l =
      (.ok (xs.map fun i => (s.signal (signal i)).name), l₁) ∧ l₁.statements = l.statements := by
  induction xs generalizing l with
  | nil => exact ⟨l, rfl, rfl⟩
  | cons i xs ih =>
    have hrun : ∃ l₁, outcome (node s realWidth i) l = (.ok (s.signal (signal i)).name, l₁) ∧
        l₁.statements = l.statements ∧
        ∀ j ∈ xs, ∀ name, l₁.naming j = some name → name = (s.signal (signal j)).name := by
      cases hname : l.named[i]? with
      | some name =>
        obtain rfl := hl i (by simp) name hname
        refine ⟨l, ?_, rfl, fun j hj => hl j (by simp [hj])⟩
        rw [node, outcome_get_bind, hname]
        rfl
      | none =>
        refine ⟨_, outcome_node_signal (hxs i (by simp)) hname, rfl, fun j hj name hj' => ?_⟩
        rw [Emitted.naming_insert, Function.update_apply] at hj'
        split at hj'
        · rename_i heq
          rw [heq]
          exact (Option.some.inj hj').symm
        · exact hl j (by simp [hj]) name hj'
    obtain ⟨l₁, hrun, hstatements, hl₁⟩ := hrun
    obtain ⟨l₂, hrest, hstatements'⟩ := ih (fun j hj => hxs j (by simp [hj])) l₁ hl₁
    refine ⟨l₂, ?_, hstatements'.trans hstatements⟩
    rw [List.mapM_cons, outcome_bind_ok hrun, outcome_bind_ok hrest]
    rfl

end Emission

end MixedSignal.Verilog
