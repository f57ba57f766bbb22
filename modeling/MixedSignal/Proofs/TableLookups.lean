import Mathlib
import MixedSignal.Proofs.Counters

/-!
# Lookups in integer tables

The entries of a table become constants, each in a format of its own, which are promoted to one
domain. A constant that is promoted has the same integer in another format (`Store.IsEntry`), and
the format of the selection carries whatever that of an element carries. So the selection has the
entry at the address, and the constant that stands for entries which are all the same has the only
one (`Store.LooksUp`).

A signal that is driven in the same cycle gets its values from its expression alone
(`Simulator.Computed`), so in every state that is reached it holds some entry. In a state that is
settled it holds the one at the current address. A step that fails may leave the address driven and
the entry as it was.
-/

set_option linter.unusedSectionVars false

namespace MixedSignal

variable {R : Type} [Scalar R]

/-! ## Entries -/

/-- The entry at an address, and zero behind the last one. -/
def IntTable.entry (t : IntTable) (k : Nat) : Int := t.values.getD k 0

/-- The entries with zeros up to a given number are those at the addresses. -/
theorem IntTable.getElem?_padded (t : IntTable) {n k : Nat} (hk : k < n) :
    (t.values ++ List.replicate (n - t.values.length) 0)[k]? = some (t.entry k) := by
  rw [entry, List.getD_eq_getElem?_getD]
  rcases lt_or_ge k t.values.length with hlt | hge
  · rw [List.getElem?_append_left hlt, List.getElem?_eq_getElem hlt, Option.getD_some]
  · rw [List.getElem?_append_right hge, List.getElem?_eq_none hge,
      List.getElem?_replicate_of_lt (by omega), Option.getD_none]

/-- The entries of a table with zeros up to a given number, as operands. -/
theorem paddedValues_map_value (t : IntTable) (n : Nat) :
    ((Table.int t : Table R).paddedValues n).map Operand.value =
      (t.values ++ List.replicate (n - t.values.length) 0).map fun c => .value (.int c) := by
  simp [Table.paddedValues, Table.values, Table.zero, Table.length]

namespace Store

open Build

variable {rounding : Rounding R} {s s' : Store R} {d : Domain} {i j : NodeId} {c : Int}

/-- The node is the constant integer. -/
structure IsEntry (s : Store R) (c : Int) (j : NodeId) : Prop where
  lt : j < s.nodes.size
  kind_eq : s.kind j = .const (.int c)

theorem IsEntry.of_extends (h : s.IsEntry c j) (hext : s.Extends s') : s'.IsEntry c j where
  lt := h.lt.trans_le hext.size_le
  kind_eq := by rw [kind, hext.node_eq j h.lt, ← kind, h.kind_eq]

/-- The format of a constant integer carries it, whatever domain it was promoted to. -/
theorem IsEntry.carries (h : s.IsEntry c j) (hs : s.WellTyped rounding) :
    (s.format j).Carries (.int c) := by
  have ht := hs.typed j h.lt
  rw [h.kind_eq] at ht
  generalize s.format j = f at ht
  cases ht with
  | int hnonneg => exact IntFormat.carries_tightOrFull (ClosedRange.mem_single.2 rfl) hnonneg

theorem IsEntry.eval (h : s.IsEntry c j) (hs : s.WellTyped rounding)
    (values : SignalId → Value R) : s.eval values j = .ok (.int c) := by
  have hkind : (s.node j).kind = .const (.int c) := h.kind_eq
  rw [hs.eval_eq h.lt, evalKind, hkind]
  exact congrArg Except.ok (h.carries hs).coerce_eq

/-- A constant integer stays one when it is promoted to an integer domain. -/
theorem IsEntry.of_promotes (h : s.IsEntry c i) (hp : s.Promotes d i j) (hj : j < s.nodes.size)
    (hd : d ≠ .real) : s.IsEntry c j := by
  have hconst : s.const? i = some (.int c) := by rw [const?, h.kind_eq]
  cases hp with
  | same => exact h
  | const _ hv hnode =>
    obtain rfl := Option.some.inj (hconst.symm.trans hv)
    refine ⟨hj, ?_⟩
    rw [kind, hnode]
    cases d with
    | real => exact absurd rfl hd
    | sint | uint => rfl
  | widen _ _ _ hv =>
    rw [hconst] at hv
    cases hv
  | toReal => exact absurd rfl hd

/-- Entries that are promoted together stay what they are. -/
theorem isEntry_of_promoted {entries : List Int} {is js : List NodeId}
    (h : Promoted s (entries.map fun c => .value (.int c)) is js) :
    List.Forall₂ s.IsEntry entries js := by
  have hstands : List.Forall₂ s.IsEntry entries is :=
    (List.forall₂_map_left_iff.1 h.stands).imp fun c i hi => ⟨hi.1, congrArg Node.kind hi.2⟩
  have hd : commonDomain s is ≠ .real := commonDomain_ne_real fun i hi => by
    obtain ⟨c, -, -, hnode⟩ := forall₂_exists_left (List.forall₂_map_left_iff.1 h.stands) i hi
    rw [format, hnode]
    exact Format.int_domain_ne_real _
  exact forall₂_trans (fun c i j hi hj => hi.of_promotes hj.2 hj.1 hd) hstands h.promotes

/-- Constant integers that are all the same are equal. -/
theorem IsEntry.eq_of_allSame {c' : Int} {xs : List NodeId} (hi : s.IsEntry c i)
    (hj : s.IsEntry c' j) (h : allSame s j xs = true) (hmem : i ∈ xs) : c = c' := by
  have hsame := List.all_eq_true.1 h i hmem
  rw [Bool.or_eq_true] at hsame
  rcases hsame with heq | hconst
  · obtain rfl := eq_of_beq heq
    have hkind := hi.kind_eq.symm.trans hj.kind_eq
    cases hkind
    rfl
  · simp only [const?, hi.kind_eq, hj.kind_eq] at hconst
    exact eq_of_beq (show (c == c') = true from hconst)

end Store

namespace Operand

variable {rounding : Rounding R} {s s' : Store R} {a : Operand R} {values : SignalId → Value R}
  {v : Value R}

theorem evaluates_iff_of_extends (hs : s.WellTyped rounding) (hext : s.Extends s')
    (ha : a.Valid s) : a.Evaluates s' values v ↔ a.Evaluates s values v := by
  cases a with
  | node i => rw [Evaluates, Evaluates, hs.eval_extends hext ha]
  | signal x =>
    rw [Evaluates, Evaluates, hext.leaf_eq x ha, hs.eval_extends hext (hs.leaf_lt x ha)]
  | value w => exact Iff.rfl

/-- An operand has the value of the node that it becomes. -/
theorem evaluates_iff_eval (hs : s.WellTyped Rounding.any) (ha : a.Valid s) {i : NodeId}
    (hi : i < s.nodes.size) (h : a.Stands s i) :
    a.Evaluates s values v ↔ s.eval values i = .ok v := by
  have heval {w : Value R} (hw : a.Evaluates s values w) : s.eval values i = .ok w :=
    Build.eval_of_stands hs (refl_of _ s) ha hw hi h
  refine ⟨heval, fun hv => ?_⟩
  cases a with
  | node j =>
    obtain rfl : i = j := h
    exact hv
  | signal x =>
    obtain rfl : i = s.leaf x := h
    exact hv
  | value w => exact Except.ok.inj ((heval rfl).symm.trans hv)

theorem Evaluates.unique {u : Value R} (hu : a.Evaluates s values u) (hv : a.Evaluates s values v) :
    u = v := by
  cases a with
  | node i => exact Except.ok.inj (Eq.trans (Eq.symm hu) hv)
  | signal x => exact Except.ok.inj (Eq.trans (Eq.symm hu) hv)
  | value w => exact Eq.trans (Eq.symm hu) hv

theorem valid_of_extends (hext : s.Extends s') (ha : a.Valid s) : a.Valid s' := by
  cases a with
  | node i => exact ha.trans_le hext.size_le
  | signal x => exact ha.trans_le hext.signals_le
  | value v => trivial

end Operand

namespace Store

variable {rounding : Rounding R} {s s' : Store R} {t : IntTable} {address : Operand R} {w : Nat}
  {i e : NodeId}

/-- The node looks up the table: the address is a word of `w` bits, and whatever value the node has
is the entry there. -/
structure LooksUp (s : Store R) (t : IntTable) (address : Operand R) (w : Nat) (e : NodeId) :
    Prop where
  lt : e < s.nodes.size
  valid : address.Valid s
  word : ∀ values v, address.Evaluates s values v → ∃ k : Nat, k < 2 ^ w ∧ v = .int k
  entry : ∀ values v, s.eval values e = .ok v → ∀ k : Nat, k < 2 ^ w →
    (∀ u, address.Evaluates s values u → u = .int k) → v = .int (t.entry k)

theorem LooksUp.of_extends (h : s.LooksUp t address w e) (hs : s.WellTyped rounding)
    (hext : s.Extends s') : s'.LooksUp t address w e where
  lt := h.lt.trans_le hext.size_le
  valid := Operand.valid_of_extends hext h.valid
  word values v hv :=
    h.word values v ((Operand.evaluates_iff_of_extends hs hext h.valid).1 hv)
  entry values v hv k hk haddress := by
    rw [hs.eval_extends hext h.lt] at hv
    exact h.entry values v hv k hk fun u hu =>
      haddress u ((Operand.evaluates_iff_of_extends hs hext h.valid).2 hu)

/-- A selection between entries has the one at the address. If the address has no value, then the
entries are all the same. -/
theorem eq_entry_of_selects {u : Store R} (hs : s.WellTyped rounding) (hext : u.Extends s)
    {entries : List Int} {js : List NodeId} (hentries : List.Forall₂ u.IsEntry entries js)
    (he : e < s.nodes.size) (h : Build.Selects u s js i e) {values : SignalId → Value R}
    {v : Value R} (hv : s.eval values e = .ok v) {k : Nat} {c : Int} (hc : entries[k]? = some c)
    (haddress : ∀ u, s.eval values i = .ok u → u = .int k) : v = .int c := by
  obtain ⟨j, hj, hentry⟩ := forall₂_getElem?_left hentries.flip hc
  have hentry' := hentry.of_extends hext
  cases h with
  | same hhead hsame =>
    obtain ⟨c', -, hfirst⟩ := forall₂_exists_left hentries e (List.mem_of_mem_head? hhead)
    obtain rfl := hentry.eq_of_allSame hfirst hsame (List.mem_of_getElem? hj)
    rw [(hfirst.of_extends hext).eval hs] at hv
    exact (Except.ok.inj hv).symm
  | @node f hnode =>
    have ht := hs.typed e he
    rw [kind, format, hnode] at ht
    cases ht with
    | select _ _ _ _ hf =>
      -- the format of the selection carries whatever that of an element carries
      have hcarried := (Format.fold?_union_carries hf).2 _
        (List.mem_map_of_mem (List.mem_of_getElem? hj)) _ (hentry'.carries hs)
      rw [hs.eval_eq he, hnode, format, hnode] at hv
      cases hi : s.eval values i with
      | error e =>
        simp only [evalKind, hi] at hv
        cases hv
      | ok u =>
        obtain rfl := haddress u hi
        rw [evalKind_select hi hj, hentry'.eval hs] at hv
        exact (Except.ok.inj hv).symm.trans hcarried.coerce_eq

/-- A selection between the padded entries by an operand looks up the table there. -/
theorem looksUp_of_selectsOperand (hs : s.WellTyped Rounding.any) (ha : address.Valid s)
    {r : ClosedRange} (hf : Build.operandFormat s address = .int ⟨.unsigned, w, r⟩)
    (hg : s'.WellTyped Rounding.any) (he : e < s'.nodes.size)
    (h : Build.SelectsOperand Rounding.any s s'
      (((Table.int t : Table R).paddedValues (2 ^ w)).map .value) address e) :
    s'.LooksUp t address w e := by
  rw [paddedValues_map_value] at h
  obtain ⟨u, is, js, i, _, hsu, hus', hp, hi, hstands, -, -, hsel⟩ := h
  have hi' := hi.trans_le hus'.size_le
  have ha' := Build.valid_of_grown (trans_of _ hsu hus') ha
  have hw : s'.Unsigned i w :=
    ⟨r, by rw [hus'.toExtends.format_eq hi, Build.format_of_stands hs ha hsu hstands, hf]⟩
  have hiff (values : SignalId → Value R) (v : Value R) :
      address.Evaluates s' values v ↔ s'.eval values i = .ok v :=
    Operand.evaluates_iff_eval hg ha' hi' (Build.stands_of_grown hus' hi hstands)
  refine ⟨he, ha', fun values v hv => hw.eval_lt hg hi' ((hiff values v).1 hv),
    fun values v hv k hk haddress => ?_⟩
  exact eq_entry_of_selects hg hus'.toExtends (isEntry_of_promoted hp) he hsel hv
    (t.getElem?_padded hk) fun u hu => haddress u ((hiff values u).2 hu)

section

variable {values : SignalId → Value R} {u v : Value R}

/-- The value of the node is the entry at the value of the address. -/
theorem LooksUp.eq_entry (h : s.LooksUp t address w e) (hv : s.eval values e = .ok v)
    (hu : address.Evaluates s values u) :
    ∃ k : Nat, k < 2 ^ w ∧ u = .int k ∧ v = .int (t.entry k) := by
  obtain ⟨k, hk, rfl⟩ := h.word values u hu
  exact ⟨k, hk, rfl, h.entry values v hv k hk fun u hu' => hu'.unique hu⟩

/-- The value of the node is some entry, whether the address has a value or not. -/
theorem LooksUp.exists_entry (h : s.LooksUp t address w e) (hv : s.eval values e = .ok v) :
    ∃ k : Nat, k < 2 ^ w ∧ v = .int (t.entry k) := by
  by_cases hvalue : ∃ u, address.Evaluates s values u
  · obtain ⟨u, hu⟩ := hvalue
    obtain ⟨k, hk, -, hentry⟩ := h.eq_entry hv hu
    exact ⟨k, hk, hentry⟩
  · exact ⟨0, Nat.two_pow_pos w, h.entry values v hv 0 (Nat.two_pow_pos w)
      fun u hu => absurd ⟨u, hu⟩ hvalue⟩

end

end Store

namespace Model

open Store

variable {m : Model R} {x : SignalId} {address : Operand R}

/-- A lookup drives the signal with a node that looks up the table. -/
theorem setFromTable_looksUp (hm : m.WellFormed Rounding.any) (hx : x < m.store.signals.size)
    (name : String) (t : IntTable) (ha : address.Valid m.store) :
    Ensures (Moves Rounding.any (Grown Rounding.any)) (setFromTable x name (.int t) address) m
      (fun _ => True) fun _ m' => ∃ w r e,
        Build.operandFormat m.store address = .int ⟨.unsigned, w, r⟩ ∧ t.values.length ≤ 2 ^ w ∧
        m'.assignment? x = some ⟨x, e, .thisCycle⟩ ∧ m'.store.LooksUp t address w e := by
  refine (setFromTable_selects hm hx name (.int t) ha).imp fun _ m' h hselects => ?_
  obtain ⟨w, r, e, hformat, hlength, he, hselects, hassigned⟩ := hselects
  exact ⟨w, r, e, hformat, hlength, hassigned,
    looksUp_of_selectsOperand hm.store ha hformat (h.wellFormed hm).store he hselects⟩

end Model

namespace Simulator

open Model

variable {rounding : Rounding R} {m m' : Model R} {s s' : Simulator R} {x : SignalId}

/-! ## Signals driven in the same cycle -/

/-- States in which a simulation of the model starts, or which a step leaves that succeeds. Steps
may have failed before. -/
inductive AtRest (m : Model R) : Simulator R → Prop
  | start {s : Simulator R} (h : start m = .ok s) : AtRest m s
  | step {s s' : Simulator R} (h : Reachable m s) (inputs : List (SignalId × Value R))
    (hs : outcome (step inputs) s = (.ok ⟨⟩, s')) : AtRest m s'

theorem AtRest.settled (hm : m.WellFormed rounding) (h : AtRest m s) : m.Settled s.value := by
  cases h with
  | start h => exact (Run.start h).settled hm
  | step hreachable inputs hs =>
    obtain ⟨_, -, -, -, hsettled⟩ := step_clocked hm hreachable.running hs
    exact hsettled

theorem AtRest.reachable (h : AtRest m s) : Reachable m s := by
  cases h with
  | start h => exact .start h
  | @step s s' hreachable inputs hs =>
    have hstep := hreachable.step inputs
    rwa [hs] at hstep

/-- A signal is settled or has kept its value where settling has stopped. -/
theorem StopsAt.settledAt_or_eq {base : SignalId → Value R} {e : EmitError}
    (h : StopsAt m base s e) (x : SignalId) : m.SettledAt s.value x ∨ s.value x = base x := by
  obtain ⟨before, _, _, _, -, hsettled, hvalue, -⟩ := h
  by_cases hx : x ∈ before
  · exact .inl (hsettled x hx)
  · exact .inr (hvalue x hx)

/-- The value is one that the expression of the assignment has in some state, brought into the
format of the signal. -/
def Computed (m : Model R) (a : Assignment R) (v : Value R) : Prop :=
  ∃ values u, m.store.eval values a.expr = .ok u ∧ v = u.coerce (m.store.signal a.signal).format

theorem computed_of_settledAt {a : Assignment R} (ha : m.assignment? a.signal = some a)
    {values : SignalId → Value R} (h : m.SettledAt values a.signal) :
    Computed m a (values a.signal) := by
  obtain ⟨u, hu, hvalue⟩ := h a ha
  exact ⟨values, u, hu, hvalue⟩

/-- A step that fails leaves the value as it was, or computes it anew. -/
theorem FailedStep.computed (hm : m.WellFormed rounding) (hs : Running m s)
    {inputs : List (SignalId × Value R)} {e : Error} (h : FailedStep m s inputs e s')
    {a : Assignment R} (ha : m.assignment? a.signal = some a) (ht : a.timing = .thisCycle)
    (hcomputed : Computed m a (s.value a.signal)) : Computed m a (s'.value a.signal) := by
  have hcomb : m.isCombinational a.signal = true := isCombinational_iff.2 ⟨a, ha, ht⟩
  have hinput := not_isInput_of_assigned hm ha
  cases h with
  | refused _ hbefore _ hvalue =>
    rw [hvalue, driven_of_not_isInput hinput hbefore]
    exact hcomputed
  | unsettled hinputs _ hstops =>
    rcases hstops.settledAt_or_eq a.signal with hsettled | hkept
    · exact computed_of_settledAt ha hsettled
    · rw [hkept, driven_of_not_isInput hinput hinputs]
      exact hcomputed
  | unloaded _ _ _ hsettled => exact computed_of_settledAt ha (hsettled _ hcomb)
  | clocked _ hprepare _ hkept _ hstops =>
    rcases hstops.settledAt_or_eq a.signal with hsettled | hkept'
    · exact computed_of_settledAt ha hsettled
    · rw [hkept', hkept _ hcomb]
      exact computed_of_settledAt ha ((prepare_settled hm hs hprepare).2.1 _ hcomb)

/-- In every state that is reached, whatever failed, the value is one that the expression had. -/
theorem Reachable.computed (hm : m.WellFormed rounding) (h : Reachable m s) {a : Assignment R}
    (ha : m.assignment? a.signal = some a) (ht : a.timing = .thisCycle) :
    Computed m a (s.value a.signal) := by
  have hcomb : m.isCombinational a.signal = true := isCombinational_iff.2 ⟨a, ha, ht⟩
  induction h with
  | start h => exact computed_of_settledAt ha ((Run.start h).settled hm _ hcomb)
  | @step s hreachable inputs ih =>
    cases hrun : outcome (Simulator.step inputs) s with
    | mk result s' =>
      cases result with
      | ok =>
        exact computed_of_settledAt ha ((AtRest.step hreachable inputs hrun).settled hm _ hcomb)
      | error e =>
        have hs := hreachable.running
        exact (step_error hm hs hrun).computed hm hs ha ht ih

/-! ## Lookups -/

/-- A signal that is driven from a table of integers, with whatever is added to the model later. At
rest it holds the entry at the current address, and zero behind the last one, wrapped into its
format. If the address has no value, then all entries are this one. In every state that is reached,
whatever failed, it holds some entry. -/
theorem lookups_read_table [Numerics R] (hb : m.Built fun _ _ => True)
    (hx : x < m.store.signals.size)
    {f : IntFormat} (hf : (m.store.signal x).format = .int f) {address : Operand R}
    (ha : address.Valid m.store) {name : String} {t : IntTable}
    (h : outcome (setFromTable x name (.int t) address) m = (.ok ⟨⟩, m')) :
    ∃ w r, Build.operandFormat m.store address = .int ⟨.unsigned, w, r⟩ ∧
      t.values.length ≤ 2 ^ w ∧
      ∀ ops, AllowsAll (fun _ _ => True) m' ops → ∀ s : Simulator R,
        (AtRest (m'.performAll ops) s →
          (∀ v, address.Evaluates s.model.store s.value v → ∃ k : Nat, k < 2 ^ w ∧ v = .int k ∧
            s.value x = .int (f.repr.wrap (t.entry k))) ∧
          ((¬∃ v, address.Evaluates s.model.store s.value v) → ∃ n, (∀ k < 2 ^ w, t.entry k = n) ∧
            s.value x = .int (f.repr.wrap n))) ∧
        (Reachable (m'.performAll ops) s → ∃ k : Nat, k < 2 ^ w ∧
          s.value x = .int (f.repr.wrap (t.entry k))) := by
  have hm := hb.wellFormed_any
  obtain ⟨hmoved, w, r, e, hformat, hlength, hassigned, hlookup⟩ :=
    (setFromTable_looksUp hm hx name t ha).elim_ok h
  have hm' := hmoved.wellFormed hm
  refine ⟨w, r, hformat, hlength, fun ops hops s => ?_⟩
  have hmoves := performAll_moves hm' hops
  have hext := (hmoves.store hm'.store).1
  have hwell := hmoves.wellFormed hm'
  have hassigned := hmoves.assignment? hassigned
  have hlookup := hlookup.of_extends hm'.store hext
  have hf : ((m'.performAll ops).store.signal x).format = .int f := by
    rw [hext.signal_eq x (by rwa [hmoved.store.signals_eq]), hmoved.store.toExtends.signal_eq x hx,
      hf]
  refine ⟨fun hrest => ?_, fun hreachable => ?_⟩
  · obtain ⟨u, hu, hvalue⟩ := hrest.settled hwell x (isCombinational_iff.2 ⟨_, hassigned, rfl⟩) _
      hassigned
    rw [hf] at hvalue
    rw [hrest.reachable.running.model]
    refine ⟨fun v hv => ?_, fun hnone => ?_⟩
    · obtain ⟨k, hk, rfl, rfl⟩ := hlookup.eq_entry hu hv
      exact ⟨k, hk, rfl, hvalue⟩
    · have hentry : ∀ k < 2 ^ w, u = .int (t.entry k) := fun k hk =>
        hlookup.entry _ u hu k hk fun v hv => absurd ⟨v, hv⟩ hnone
      have hfirst := hentry 0 (Nat.two_pow_pos w)
      refine ⟨t.entry 0, fun k hk => Value.int.inj ((hentry k hk).symm.trans hfirst), ?_⟩
      rw [hvalue, hfirst]
      rfl
  · obtain ⟨values, u, hu, hvalue⟩ :=
      hreachable.computed hwell (a := ⟨x, e, .thisCycle⟩) hassigned rfl
    obtain ⟨k, hk, rfl⟩ := hlookup.exists_entry hu
    rw [hf] at hvalue
    exact ⟨k, hk, hvalue⟩

/-- An input of two bits and an output. -/
def tableSignals : Model ℚ :=
  Model.performAll { name := "m", dt := none } [.digitalInput "a" 2 .unsigned,
    .digitalOutput "y" 4 .signed 0]

/-- A table with a negative entry, and none at the last address of two bits. -/
def mixedTable : IntTable := ⟨[5, -3, 7], .signed, 4⟩

/-- The output looks up the table at the input. -/
def tableModel : Model ℚ :=
  (outcome (setFromTable 1 "t" (.int mixedTable) (.signal 0)) tableSignals).2

/-- The state in which a simulation of it starts. -/
def tableStart : Simulator ℚ := (outcome settle (reset tableModel [1])).2

/-- The state after a step that drives the input and then names the output. -/
def tableRefused : Simulator ℚ := (outcome (step [(0, .int 1), (1, .int 0)]) tableStart).2

/-- The state after one more step, which drives nothing. -/
def tableNext : Simulator ℚ := (outcome (step []) tableRefused).2

/-- The state after a step to the last address. -/
def tableLast : Simulator ℚ := (outcome (step [(0, .int 3)]) tableNext).2

theorem tableSignals_built : tableSignals.Built fun _ _ => True :=
  .ofOperations (by decide +kernel)

theorem tableSignals_format : (tableSignals.store.signal 1).format = .int (.full .signed 4) := by
  cbv

theorem tableSignals_computed :
    (1 < tableSignals.store.signals.size ∧ (Operand.signal 0).Valid tableSignals.store) ∧
    (outcome (setFromTable 1 "t" (.int mixedTable) (.signal 0)) tableSignals).1.toOption =
      some ⟨⟩ ∧
    tableModel.combinationalOrder = .ok [1] := by
  decide +kernel

theorem tableStart_computed :
    ([(outcome settle (reset tableModel [1])).1.isOk, (outcome (step []) tableRefused).1.isOk,
        (outcome (step [(0, .int 3)]) tableNext).1.isOk],
      [tableRefused, tableNext, tableLast].map fun s =>
        (s.values, s.eval (s.model.store.leaf 0))) =
    ([true, true, true],
      [(#[.int 1, .int 5], .ok (.int 1)), (#[.int 1, .int (-3)], .ok (.int 1)),
        (#[.int 3, .int 0], .ok (.int 3))]) := by
  cbv

theorem start_tableModel : start tableModel = .ok tableStart := by
  have hcomputed := tableStart_computed
  simp only [Prod.mk.injEq, List.cons.injEq] at hcomputed
  exact start_of_isOk tableSignals_computed.2.2 (by decide +kernel) hcomputed.1.1

theorem reachable_tableRefused : Reachable tableModel tableRefused :=
  (Reachable.start start_tableModel).step [(0, .int 1), (1, .int 0)]

/-- The step that fails moves the address to a negative entry, and the next one makes the output
follow. Behind the last entry it is zero. -/
theorem lookups_read_table_mixed :
    (tableSignals.Built fun _ _ => True) ∧ 1 < tableSignals.store.signals.size ∧
    (tableSignals.store.signal 1).format = .int (.full .signed 4) ∧
    (Operand.signal 0).Valid tableSignals.store ∧
    outcome (setFromTable 1 "t" (.int mixedTable) (.signal 0)) tableSignals =
      (.ok ⟨⟩, tableModel) ∧
    (AtRest tableModel tableNext ∧
      (Operand.signal 0).Evaluates tableNext.model.store tableNext.value (.int 1) ∧
      tableNext.value 1 = .int (-3)) ∧
    AtRest tableModel tableLast ∧
      (Operand.signal 0).Evaluates tableLast.model.store tableLast.value (.int 3) ∧
      tableLast.value 1 = .int 0 := by
  have hf := tableSignals_format
  obtain ⟨⟨hx, ha⟩, hok, -⟩ := tableSignals_computed
  have hrun : outcome (setFromTable 1 "t" (.int mixedTable) (.signal 0)) tableSignals =
      (.ok ⟨⟩, tableModel) := outcome_eq_of_toOption hok
  have hcomputed := tableStart_computed
  simp only [List.map_cons, List.map_nil, Prod.mk.injEq, List.cons.injEq] at hcomputed
  obtain ⟨⟨-, hnext, hlast, -⟩, -, ⟨-, hnextAddress⟩, ⟨-, hlastAddress⟩, -⟩ := hcomputed
  obtain ⟨_, hnext⟩ := exists_of_isOk hnext
  obtain ⟨_, hlast⟩ := exists_of_isOk hlast
  have hrest : AtRest tableModel tableNext := .step reachable_tableRefused [] hnext
  have hrest' : AtRest tableModel tableLast := .step hrest.reachable [(0, .int 3)] hlast
  obtain ⟨w, r, -, -, hreads⟩ := lookups_read_table tableSignals_built hx hf ha hrun
  obtain ⟨k, -, hk, hvalue⟩ := ((hreads [] trivial tableNext).1 hrest).1 _ hnextAddress
  obtain ⟨l, -, hl, hvalue'⟩ := ((hreads [] trivial tableLast).1 hrest').1 _ hlastAddress
  obtain rfl : 1 = k := by exact_mod_cast Value.int.inj hk
  obtain rfl : 3 = l := by exact_mod_cast Value.int.inj hl
  exact ⟨tableSignals_built, hx, hf, ha, hrun, ⟨hrest, hnextAddress, hvalue⟩, hrest', hlastAddress,
    hvalue'⟩

/-- A step that drives the address and then names the output fails. The output holds an entry, but
not the one at the address. -/
theorem refused_step_keeps_entry :
    (tableSignals.Built fun _ _ => True) ∧
    outcome (setFromTable 1 "t" (.int mixedTable) (.signal 0)) tableSignals =
      (.ok ⟨⟩, tableModel) ∧
    Reachable tableModel tableRefused ∧
    (Operand.signal 0).Evaluates tableRefused.model.store tableRefused.value (.int 1) ∧
    mixedTable.entry 1 = -3 ∧ tableRefused.value 1 = .int (mixedTable.entry 0) := by
  have hcomputed := tableStart_computed
  simp only [List.map_cons, List.map_nil, Prod.mk.injEq, List.cons.injEq] at hcomputed
  obtain ⟨-, ⟨hvalues, haddress⟩, -⟩ := hcomputed
  refine ⟨tableSignals_built, outcome_eq_of_toOption tableSignals_computed.2.1,
    reachable_tableRefused, haddress, rfl, ?_⟩
  rw [value, hvalues]
  rfl

end Simulator

end MixedSignal
