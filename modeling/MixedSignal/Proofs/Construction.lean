import MixedSignal.Proofs.Nesting

/-!
# Stores that calls can build

A `Call` is anything that a user may ask of a store: a signal, a constructor or a rewriting, on
operands that exist. `Store.Built allowed` are the stores that any sequence of allowed calls makes
from the empty one, whether the calls succeed or fail. They are all well typed
(`Store.Built.wellTyped`), and their signals have names of their own (`Store.Built.wellNamed`).
-/

set_option linter.unusedSectionVars false

namespace MixedSignal

variable {R : Type} [Scalar R] {name : String}

/-! ## Signals -/

namespace Store

variable {rounding : Rounding R} {s s' : Store R}

/-- Names are identifiers, no two signals share one, and the map of names agrees with the signals. -/
structure WellNamed (s : Store R) : Prop where
  valid : ∀ x < s.signals.size, Identifier.isValid (s.signal x).name = true
  distinct : ∀ x < s.signals.size, ∀ y < s.signals.size,
    (s.signal x).name = (s.signal y).name → x = y
  indexed : ∀ name, s.signalNamed? name = s.signals.findIdx? (·.name == name)

theorem WellNamed.empty : ({} : Store R).WellNamed := 
  ⟨by simp, by simp, fun _ => by simp [signalNamed?, OrderedMap.get?]⟩

/-- A name stands for the signal that has it. -/
theorem WellNamed.signalNamed?_eq_some_iff (h : s.WellNamed) {x : SignalId} :
    s.signalNamed? name = some x ↔ x < s.signals.size ∧ (s.signal x).name = name := by
  have hname : ∀ {y : Nat} (hy : y < s.signals.size), s.signal y = s.signals[y] := fun hy => by
    simp [signal, Array.getD, hy]
  rw [h.indexed, Array.findIdx?_eq_some_iff_getElem]
  constructor
  · rintro ⟨hx, heq, -⟩
    exact ⟨hx, by rw [hname hx]; simpa using heq⟩
  · rintro ⟨hx, rfl⟩
    refine ⟨hx, by rw [hname hx]; simp, fun y hy heq => ?_⟩
    have hlt : y < s.signals.size := hy.trans hx
    rw [← hname hlt] at heq
    exact hy.ne (h.distinct y hlt x hx (by simpa using heq))

theorem WellNamed.name_ne (h : s.WellNamed) (hname : s.signalNamed? name = none) {x : SignalId}
    (hx : x < s.signals.size) : (s.signal x).name ≠ name := by
  rintro rfl
  rw [h.signalNamed?_eq_some_iff.2 ⟨hx, rfl⟩] at hname
  cases hname

/-- From a well-typed store to a well-typed one that extends it. Names stay apart. -/
def Advances (rounding : Rounding R) (s s' : Store R) : Prop :=
  s.WellTyped rounding → s.Extends s' ∧ s'.WellTyped rounding ∧ (s.WellNamed → s'.WellNamed)

theorem WellNamed.of_grown (hn : s.WellNamed) (h : s.Grown rounding s') : s'.WellNamed := by
  have hsignal : s'.signal = s.signal := by
    unfold signal
    rw [h.signals_eq]
  obtain ⟨hvalid, hdistinct, hindexed⟩ := hn
  refine ⟨by rwa [hsignal, h.signals_eq], by rwa [hsignal, h.signals_eq], fun name => ?_⟩
  rw [signalNamed?, h.byName_eq, h.signals_eq]
  exact hindexed name

theorem Grown.advances (h : s.Grown rounding s') : s.Advances rounding s' :=
  fun hs => ⟨h.toExtends, h.wellTyped hs, fun hn => hn.of_grown h⟩

instance : Std.Refl (Advances (R := R) rounding) := ⟨fun s hs => ⟨.refl s, hs, id⟩⟩

instance : IsTrans (Store R) (Advances rounding) where
  trans _ _ _ h h' hs :=
    let ⟨he, hs', hn⟩ := h hs
    let ⟨he', hs'', hn'⟩ := h' hs'
    ⟨he.trans he', hs'', hn' ∘ hn⟩

/-- The store with a signal and its leaf added. -/
def withSignal (s : Store R) (x : Signal R) : Store R where
  signals := s.signals.push x
  byName := s.byName.replace x.name s.signals.size
  leaves := s.leaves.push s.nodes.size
  nodes := s.nodes.push ⟨.signal s.signals.size, x.format⟩

theorem signal_withSignal_self (s : Store R) (x : Signal R) :
    (s.withSignal x).signal s.signals.size = x := by
  simp [withSignal, signal, Array.getD]

theorem signal_withSignal_lt (s : Store R) (x : Signal R) {i : SignalId}
    (hi : i < s.signals.size) : (s.withSignal x).signal i = s.signal i := by
  have hi' : i < s.signals.size + 1 := Nat.lt_succ_of_lt hi
  simp [withSignal, signal, Array.getD, hi, hi', Array.getElem_push_lt]

theorem node_withSignal_self (s : Store R) (x : Signal R) :
    (s.withSignal x).node s.nodes.size = ⟨.signal s.signals.size, x.format⟩ := by
  simp [withSignal, node, Array.getD]

theorem leaf_withSignal_self {s : Store R} (hs : s.WellTyped rounding) (x : Signal R) :
    (s.withSignal x).leaf s.signals.size = s.nodes.size := by
  simp [withSignal, leaf, Array.getD, ← hs.leaves_size]

theorem extends_withSignal (hs : s.WellTyped rounding) (x : Signal R) :
    s.Extends (s.withSignal x) where
  size_le := by simp [withSignal]
  node_eq i hi := by
    have hi' : i < s.nodes.size + 1 := Nat.lt_succ_of_lt hi
    simp [withSignal, node, Array.getD, hi, hi', Array.getElem_push_lt]
  signals_le := by simp [withSignal]
  signal_eq i hi := s.signal_withSignal_lt x hi
  leaf_eq i hi := by
    rw [← hs.leaves_size] at hi
    have hi' : i < s.leaves.size + 1 := Nat.lt_succ_of_lt hi
    simp [withSignal, leaf, Array.getD, hi, hi', Array.getElem_push_lt]

/-- The new name stands for the new signal, and all others for what they stood for. -/
theorem signalNamed?_withSignal {x : Signal R} (hfresh : s.signalNamed? x.name = none)
    (name : String) : (s.withSignal x).signalNamed? name =
      (s.signalNamed? name).or (if x.name == name then some s.signals.size else none) := by
  have hcontains : s.byName.contains x.name = false := by
    rw [OrderedMap.contains, ← signalNamed?, hfresh]
    rfl
  simp only [signalNamed?, withSignal, OrderedMap.replace, hcontains, Bool.false_eq_true, if_false,
    OrderedMap.get?, List.lookup_append, List.lookup_cons, List.lookup_nil]
  rw [BEq.comm (a := name)]
  cases x.name == name <;> rfl

theorem WellNamed.withSignal (h : s.WellNamed) {x : Signal R}
    (hvalid : Identifier.isValid x.name = true) (hfresh : s.signalNamed? x.name = none) :
    (s.withSignal x).WellNamed := by
  have hcases : ∀ i < (s.withSignal x).signals.size,
      i < s.signals.size ∧ (s.withSignal x).signal i = s.signal i ∨
        i = s.signals.size ∧ (s.withSignal x).signal i = x := by
    intro i hi
    rcases Nat.lt_or_eq_of_le (Nat.lt_succ_iff.1 (by simpa [Store.withSignal] using hi)) with
      hlt | rfl
    · exact .inl ⟨hlt, s.signal_withSignal_lt x hlt⟩
    · exact .inr ⟨rfl, s.signal_withSignal_self x⟩
  refine ⟨fun i hi => ?_, fun i hi j hj hname => ?_, fun name => ?_⟩
  · rcases hcases i hi with ⟨hlt, heq⟩ | ⟨-, heq⟩ <;> rw [heq]
    · exact h.valid i hlt
    · exact hvalid
  · rcases hcases i hi with ⟨hlt, heq⟩ | ⟨hlast, heq⟩ <;>
      rcases hcases j hj with ⟨hlt', heq'⟩ | ⟨hlast', heq'⟩
    · rw [heq, heq'] at hname
      exact h.distinct i hlt j hlt' hname
    · rw [heq, heq'] at hname
      exact absurd hname (h.name_ne hfresh hlt)
    · rw [heq, heq'] at hname
      exact absurd hname.symm (h.name_ne hfresh hlt')
    · exact hlast.trans hlast'.symm
  · rw [signalNamed?_withSignal hfresh, h.indexed, Store.withSignal, Array.findIdx?_push]

/-- A signal of a new name can be added to a well-typed store. -/
theorem advances_withSignal (s : Store R) {x : Signal R}
    (hvalid : Identifier.isValid x.name = true) (hfresh : s.signalNamed? x.name = none) :
    s.Advances rounding (s.withSignal x) := by
  intro hs
  have hext := extends_withSignal hs x
  have hsignals : (s.withSignal x).signals.size = s.signals.size + 1 := by simp [withSignal]
  have hnodes : (s.withSignal x).nodes.size = s.nodes.size + 1 := by simp [withSignal]
  have hnode := s.node_withSignal_self x
  have hcases : ∀ i < (s.withSignal x).nodes.size, i < s.nodes.size ∨ i = s.nodes.size := by
    intro i hi
    omega
  refine ⟨hext, ⟨fun i hi => ?_, fun i hi j hj => ?_, fun i hi => ?_, fun i hi => ?_, ?_⟩,
    fun hn => hn.withSignal hvalid hfresh⟩
  · rcases hcases i hi with hlt | rfl
    · rw [hext.kind_eq hlt, hext.format_eq hlt]
      exact (hs.typed i hlt).of_extends hext fun j hj => (hs.below i hlt j hj).trans hlt
    · have hlt : s.signals.size < (s.withSignal x).signals.size := by omega
      have ht : (s.withSignal x).Typed rounding _ _ := .signal hlt
      rw [signal_withSignal_self] at ht
      rw [kind, format, hnode]
      exact ht
  · rcases hcases i hi with hlt | rfl
    · refine hs.below i hlt j ?_
      rw [children, hext.kind_eq hlt] at hj
      cases hk : s.kind i with
      | cases xs selectors =>
        rw [hk] at hj
        have hmap : selectors.map (s.withSignal x).leaf = selectors.map s.leaf :=
          List.map_congr_left fun y hy => hext.leaf_eq y (hs.selector_lt hlt hk y hy)
        rw [children, hk, operands, ← hmap]
        exact hj
      | _ =>
        rw [hk] at hj
        rw [children, hk]
        exact hj
    · rw [children, kind, hnode] at hj
      simp [operands] at hj
  · rcases Nat.lt_or_eq_of_le (Nat.lt_succ_iff.1 (hsignals ▸ hi)) with hlt | rfl
    · rw [hext.leaf_eq i hlt]
      exact (hs.leaf_lt i hlt).trans_le hext.size_le
    · rw [leaf_withSignal_self hs, hnodes]
      exact Nat.lt_succ_self _
  · rcases Nat.lt_or_eq_of_le (Nat.lt_succ_iff.1 (hsignals ▸ hi)) with hlt | rfl
    · rw [hext.leaf_eq i hlt, hext.kind_eq (hs.leaf_lt i hlt)]
      exact hs.leaf_kind i hlt
    · rw [leaf_withSignal_self hs, kind, hnode]
  · simp [withSignal, hs.leaves_size]

end Store

namespace Build

open Store

variable {rounding : Rounding R} {s : Store R}

/-- A signal is added as the last one, or its name is refused and nothing changes. -/
theorem addSignal_cases (s : Store R) (name : String) (format : Format R) (role : Role R)
    (init : Option (Value R)) :
    (outcome (addSignal name format role init) s =
        (.ok s.signals.size, s.withSignal ⟨name, format, role, init⟩) ∧
      Identifier.isValid name = true ∧ s.signalNamed? name = none) ∨
      ∃ e, outcome (addSignal name format role init) s = (.error e, s) := by
  unfold addSignal
  simp only
  split
  · rename_i hvalid
    rw [outcome_get_bind]
    split
    · exact .inr ⟨_, rfl⟩
    · rename_i hfresh
      exact .inl ⟨rfl, hvalid, by simpa using hfresh⟩
  · exact .inr ⟨_, rfl⟩

theorem addSignal_ensures (name : String) (format : Format R) (role : Role R)
    (init : Option (Value R)) :
    Ensures (Advances rounding) (addSignal name format role init) s (fun _ => True) fun x s' =>
      x = s.signals.size ∧ s' = s.withSignal ⟨name, format, role, init⟩ := by
  rcases addSignal_cases s name format role init with ⟨h, hvalid, hfresh⟩ | ⟨e, h⟩
  · exact Ensures.of_ok h (s.advances_withSignal hvalid hfresh) ⟨rfl, rfl⟩
  · exact Ensures.of_error h (refl_of _ s) trivial

/-- A fresh identifier can name a signal. -/
theorem addSignal_fresh (hvalid : Identifier.isValid name = true)
    (hfresh : s.signalNamed? name = none) (format : Format R) (role : Role R)
    (init : Option (Value R)) :
    Ensures (Advances rounding) (addSignal name format role init) s (fun _ => False) fun x s' =>
      x = s.signals.size ∧ s' = s.withSignal ⟨name, format, role, init⟩ := by
  have hrun : outcome (addSignal name format role init) s =
      (.ok s.signals.size, s.withSignal ⟨name, format, role, init⟩) := by
    unfold addSignal
    simp only [hvalid, ↓reduceIte]
    rw [outcome_get_bind, hfresh]
    rfl
  exact Ensures.of_ok hrun (s.advances_withSignal hvalid hfresh) ⟨rfl, rfl⟩

end Build

/-! ## Calls -/

/-- What a user may ask of a store. -/
inductive Call (R : Type) where
  | signal (name : String) (format : Format R) (role : Role R) (init : Option (Value R))
  | operand (a : Operand R)
  | arithmetic (op : ArithOp) (operands : List (Operand R))
  | neg (a : Operand R)
  | sub (a b : Operand R)
  | clamp (a lo hi : Operand R)
  | compare (op : CompareOp) (a b : Operand R)
  | bitwise (op : BitOp) (operands : List (Operand R))
  | bitwiseNot (a : Operand R)
  | shift (direction : ShiftDirection) (a : Operand R) (amount : Nat)
  | bitSlice (a : Operand R) (msb lsb : Nat)
  | concatenate (operands : List (Operand R))
  | toSint (a : Operand R) (width : Option Nat)
  | toUint (a : Operand R) (width : Option Nat)
  | toReal (a : Operand R)
  | array (elements : List (Operand R)) (address : Operand R)
  | ifElse (condition a b : Operand R)
  | eqnCase (cases : List (Operand R)) (selectors : List SignalId)
  | deriv (x : SignalId)
  | resolveCases (setting : SignalId → Option Bool) (i : NodeId)
  | distributeProducts (i : NodeId)

namespace Call

open Store

/-- The call as a computation. -/
def run : Call R → Build R Unit
  | signal name format role init => discard (Build.addSignal name format role init)
  | operand a => discard (Build.operand a)
  | arithmetic op operands => discard (Build.arithmetic op operands)
  | neg a => discard (Build.neg a)
  | sub a b => discard (Build.sub a b)
  | clamp a lo hi => discard (Build.clamp a lo hi)
  | compare op a b => discard (Build.compare op a b)
  | bitwise op operands => discard (Build.bitwise op operands)
  | bitwiseNot a => discard (Build.bitwiseNot a)
  | shift direction a amount => discard (Build.shift direction a amount)
  | bitSlice a msb lsb => discard (Build.bitSlice a msb lsb)
  | concatenate operands => discard (Build.concatenate operands)
  | toSint a width => discard (Build.toSint a width)
  | toUint a width => discard (Build.toUint a width)
  | toReal a => discard (Build.toReal a)
  | array elements address => discard (Build.array elements address)
  | ifElse condition a b => discard (Build.ifElse condition a b)
  | eqnCase cases selectors => discard (Build.eqnCase cases selectors)
  | deriv x => discard (Build.deriv x)
  | resolveCases setting i => discard (Build.resolveCases setting i)
  | distributeProducts i => discard (Build.distributeProducts i)

/-- The operands of the call. -/
def operands : Call R → List (Operand R)
  | signal .. => []
  | operand a | neg a | bitwiseNot a | shift _ a _ | bitSlice a _ _ | toSint a _ | toUint a _
  | toReal a => [a]
  | sub a b | compare _ a b => [a, b]
  | clamp a b c | ifElse a b c => [a, b, c]
  | arithmetic _ as | bitwise _ as | concatenate as => as
  | array as a => a :: as
  | eqnCase as selectors => as ++ selectors.map .signal
  | deriv x => [.signal x]
  | resolveCases _ i | distributeProducts i => [.node i]

/-- Everything that the call refers to exists. -/
def Valid (s : Store R) (c : Call R) : Prop := ∀ o ∈ c.operands, o.Valid s

instance (s : Store R) (c : Call R) : Decidable (c.Valid s) :=
  inferInstanceAs (Decidable (∀ o ∈ c.operands, o.Valid s))

/-- A real is converted to an integer only with a width. -/
def Explicit (s : Store R) : Call R → Prop
  | toSint a width | toUint a width =>
    (Build.operandFormat s a).domain = .real → width ≠ none
  | _ => True

/-- The rounding allows what conversions of the call make of reals. -/
def Rounds (rounding : Rounding R) (s : Store R) : Call R → Prop
  | toSint a width | toUint a width => Build.Rounds rounding (Build.operandFormat s a) width
  | _ => True

theorem rounds_any (s : Store R) (c : Call R) : c.Rounds Rounding.any s := by
  cases c with
  | toSint | toUint => exact fun r g _ hany _ => hany
  | _ => trivial

theorem Explicit.rounds {s : Store R} {c : Call R} (h : c.Explicit s) :
    c.Rounds Rounding.explicit s := by
  cases c with
  | toSint a width | toUint a width =>
    intro r g hr _ hexplicit
    refine hexplicit (h ?_)
    rw [hr]
    rfl
  | _ => trivial

variable {rounding : Rounding R} {s : Store R}

theorem advances_of_makes {x : Build R NodeId} (h : Build.Makes rounding s x) :
    s.Advances rounding (outcome (discard x) s).2 :=
  h.discard.moved.advances

/-- A call on operands that exist keeps the store well typed, also when it fails. -/
theorem run_advances (hs : s.WellTyped rounding) {c : Call R} (hc : c.Valid s)
    (hr : c.Rounds rounding s) : s.Advances rounding (outcome c.run s).2 := by
  cases c with
  | signal name format role init =>
    have hrun : Ensures (Advances rounding) (discard (Build.addSignal name format role init)) s
        (fun _ => True) fun _ _ => True :=
      (Build.addSignal_ensures name format role init).map fun _ _ _ _ => trivial
    exact hrun.moved
  | operand a =>
    exact advances_of_makes (.of_ensures (E := fun _ => True)
      (Build.operand_ensures hs (hc a (by simp [operands]))))
  | arithmetic op as => exact advances_of_makes (Build.arithmetic_makes hs op hc)
  | neg a => exact advances_of_makes (Build.neg_makes hs (hc a (by simp [operands])))
  | sub a b =>
    exact advances_of_makes
      (Build.sub_makes hs (hc a (by simp [operands])) (hc b (by simp [operands])))
  | clamp a lo hi =>
    exact advances_of_makes (Build.clamp_makes hs (hc a (by simp [operands]))
      (hc lo (by simp [operands])) (hc hi (by simp [operands])))
  | compare op a b =>
    exact advances_of_makes (.of_ensures (E := fun _ => True)
      (Build.compare_ensures hs op (hc a (by simp [operands])) (hc b (by simp [operands]))))
  | bitwise op as => exact advances_of_makes (Build.bitwise_makes hs op hc)
  | bitwiseNot a => exact advances_of_makes (Build.bitwiseNot_makes hs (hc a (by simp [operands])))
  | shift direction a amount =>
    exact advances_of_makes (Build.shift_makes hs direction (hc a (by simp [operands])) amount)
  | bitSlice a msb lsb =>
    exact advances_of_makes (Build.bitSlice_makes hs (hc a (by simp [operands])) msb lsb)
  | concatenate as => exact advances_of_makes (Build.concatenate_makes hs hc)
  | toSint a width =>
    exact advances_of_makes (Build.toSint_makes hs (hc a (by simp [operands])) width hr)
  | toUint a width =>
    exact advances_of_makes (Build.toUint_makes hs (hc a (by simp [operands])) width hr)
  | toReal a => exact advances_of_makes (Build.toReal_makes hs (hc a (by simp [operands])))
  | array as a =>
    exact advances_of_makes (Build.array_makes hs (fun o ho => hc o (by simp [operands, ho]))
      (hc a (by simp [operands])))
  | ifElse c a b =>
    exact advances_of_makes (.of_ensures (E := fun _ => True) (Build.ifElse_ensures hs
      (hc c (by simp [operands])) (hc a (by simp [operands])) (hc b (by simp [operands]))
      fun _ _ => trivial))
  | eqnCase as selectors =>
    exact advances_of_makes (Build.eqnCase_makes hs (fun o ho => hc o (by simp [operands, ho]))
      fun x hx => hc (.signal x) (by simp [operands, hx]))
  | deriv x => exact advances_of_makes (Build.deriv_makes (hc (.signal x) (by simp [operands])))
  | resolveCases setting i =>
    exact advances_of_makes
      (Build.resolveCases_makes hs setting (hc (.node i) (by simp [operands])))
  | distributeProducts i =>
    exact advances_of_makes (Build.distributeProducts_makes hs (hc (.node i) (by simp [operands])))

end Call

namespace Store

/-- Some sequence of allowed calls makes the store from the empty one. -/
inductive Built (allowed : Store R → Call R → Prop) : Store R → Prop
  | empty : Built allowed {}
  | call {s} (h : Built allowed s) (c : Call R) (hc : c.Valid s) (ha : allowed s c) :
    Built allowed (outcome c.run s).2

variable {allowed : Store R → Call R → Prop} {rounding : Rounding R} {s : Store R}

/-- The store that calls lead to. -/
def runAll (s : Store R) : List (Call R) → Store R
  | [] => s
  | c :: cs => (outcome c.run s).2.runAll cs

theorem runAll_append (s : Store R) (cs cs' : List (Call R)) :
    s.runAll (cs ++ cs') = (s.runAll cs).runAll cs' := by
  induction cs generalizing s with
  | nil => rfl
  | cons c cs ih => exact ih _

/-- Each call is allowed when its turn comes. -/
def AllowsAll (allowed : Store R → Call R → Prop) (s : Store R) : List (Call R) → Prop
  | [] => True
  | c :: cs => c.Valid s ∧ allowed s c ∧ AllowsAll allowed (outcome c.run s).2 cs

instance [∀ s c, Decidable (allowed s c)] :
    (s : Store R) → (cs : List (Call R)) → Decidable (AllowsAll allowed s cs)
  | _, [] => inferInstanceAs (Decidable True)
  | s, c :: cs =>
    have : Decidable (AllowsAll allowed (outcome c.run s).2 cs) :=
      instDecidableAllowsAll (outcome c.run s).2 cs
    inferInstanceAs (Decidable (c.Valid s ∧ allowed s c ∧ AllowsAll allowed (outcome c.run s).2 cs))

theorem Built.runAll (h : Built allowed s) {cs : List (Call R)} (hcs : AllowsAll allowed s cs) :
    Built allowed (s.runAll cs) := by
  induction cs generalizing s with
  | nil => exact h
  | cons c cs ih => exact ih (h.call c hcs.1 hcs.2.1) hcs.2.2

theorem Built.wellTyped (hr : ∀ s c, allowed s c → c.Rounds rounding s) (h : Built allowed s) :
    s.WellTyped rounding := by
  induction h with
  | empty => exact .empty
  | call _ c hc ha ih => exact (Call.run_advances ih hc (hr _ c ha) ih).2.1

theorem Built.wellTyped_any (h : Built allowed s) : s.WellTyped Rounding.any :=
  h.wellTyped fun s c _ => c.rounds_any s

theorem Built.wellNamed (h : Built allowed s) : s.WellNamed := by
  induction h with
  | empty => exact .empty
  | @call s h c hc _ ih =>
    have hs := h.wellTyped_any
    exact (Call.run_advances hs hc (c.rounds_any s) hs).2.2 ih

end Store

end MixedSignal
