import Mathlib
import MixedSignal.Proofs.Emitting

/-!
# Nothing is read that is not collected

The order of assignments, the search for cycles and the checks of equation variables all go by the
signals that are collected from an expression. They are right because evaluation, which is a recursion
of its own, reads no others. `Store.collected_signals_cover_evaluation` says what is collected and in
which order, and that nothing else has an influence on a value or an error, whatever is remembered.
-/

set_option linter.unusedSectionVars false

namespace MixedSignal.Store

open Dependency

variable {R : Type} [Scalar R] {rounding : Rounding R} {s : Store R} {i : NodeId} {x : SignalId}

/-- A node of the expression reads the signal or its derivative, or is a case table that it selects
from. -/
def Mentions (s : Store R) (i : NodeId) (x : SignalId) : Prop :=
  ∃ j, Reaches s.children i j ∧
    (s.kind j = .signal x ∨ s.kind j = .deriv x ∨ ∃ xs sel, s.kind j = .cases xs sel ∧ x ∈ sel)

/-- The selectors of a table are collected from their leaves, which the table has as operands. -/
theorem WellTyped.mem_signalsIn_iff_mentions (h : s.WellTyped rounding) (hi : i < s.nodes.size) :
    x ∈ s.signalsIn i ↔ s.Mentions i x := by
  rw [h.mem_signalsIn_iff_reads hi]
  constructor
  · rintro ⟨j, hij, hk | hk⟩
    · exact ⟨j, hij, .inl hk⟩
    · exact ⟨j, hij, .inr (.inl hk)⟩
  · rintro ⟨j, hij, hk | hk | ⟨xs, sel, hk, hx⟩⟩
    · exact ⟨j, hij, .inl hk⟩
    · exact ⟨j, hij, .inr hk⟩
    · have hj := (le_of_mem_occurrences i ((h.mem_occurrences_iff_reaches i hi).2 hij)).trans_lt hi
      have hleaf : s.leaf x ∈ s.children j := by
        rw [children, hk]
        exact List.mem_append_right _ (List.mem_map_of_mem hx)
      exact ⟨s.leaf x, hij.tail hleaf, .inl (h.leaf_kind x (h.selector_lt hj hk x hx))⟩

/-- The signals that an expression adds to others are those that it mentions and that were not there
before, each once, and in the order of a traversal that goes depth first from the left and visits a
shared node at every use. Two simulations that agree on the signals of the expression have the same
value for it, or the same error, whatever values of nodes they remember. -/
theorem collected_signals_cover_evaluation (s : Store R) (i : NodeId)
    (hb : s.Built fun _ _ => True) (hi : i < s.nodes.size) :
    (∀ x, x ∈ s.signalsIn i ↔ s.Mentions i x) ∧ (s.signalsIn i).Nodup ∧
    (∀ found, s.addSignalsIn found i = found ++ ((s.uses i).filter (· ∉ found)).eraseDups) ∧
    ∀ t t' : Simulator R, t.model.store = s → t'.model.store = s →
      (∀ x ∈ s.signalsIn i, t.value x = t'.value x) →
      ∀ memo memo', s.Remembers t.value memo → s.Remembers t'.value memo' →
        (t.evalFrom memo i).map Prod.fst = (t'.evalFrom memo' i).map Prod.fst := by
  have hs := hb.wellTyped_any
  refine ⟨fun x => hs.mem_signalsIn_iff_mentions hi, ?_, fun found => s.addSignalsIn_eq found i, ?_⟩
  · rw [signalsIn, addSignalsIn_eq]
    exact nodup_eraseDups _
  · rintro t t' rfl hstore hagree memo memo' hmemo hmemo'
    rw [Simulator.evalFrom, Simulator.evalFrom, hstore, hmemo.evalShared_eq, hmemo'.evalShared_eq,
      eval_congr i hagree]

/-- Two integers `x` and `y`, a bit `b` and a real `r`. There are `(y + x) * (y + x)` and a table that `b`
selects from, with the derivative of `r` and the product as its cases. -/
def sharedSumStore : Store ℚ :=
  Store.runAll {} [
    .signal "x" (.int (.full .unsigned 4)) .input none,
    .signal "y" (.int (.full .unsigned 4)) .input none,
    .signal "b" (.int (.full .unsigned 1)) .input none,
    .signal "r" (.ofMagnitude 8) .input none,
    .arithmetic .sum [.signal 1, .signal 0],
    .arithmetic .product [.node 4, .node 4],
    .deriv 3,
    .eqnCase [.node 6, .node 5] [2]]

/-- A simulation with `x = 3` and `y = 4`. -/
def sharedSumState (b : Value ℚ) : Simulator ℚ :=
  { model := { name := "m", dt := none, store := sharedSumStore }, order := [],
    values := #[.int 3, .int 4, b, .real 0] }

/-- One simulation starts from nothing, and the other one from the value of the sum. -/
theorem collected_signals_cover_evaluation_sharedSum :
    (sharedSumStore.Built fun _ _ => True) ∧ 9 < sharedSumStore.nodes.size ∧
    sharedSumStore.uses 9 = [3, 1, 0, 1, 0, 2] ∧ sharedSumStore.signalsIn 9 = [3, 1, 0, 2] ∧
    sharedSumStore.Mentions 9 2 ∧ sharedSumStore.addSignalsIn [0, 7] 9 = [0, 7, 3, 1, 2] ∧
    ∃ v, v.toInt = 7 ∧
      sharedSumStore.Remembers (sharedSumState (.int 1)).value (({} : Memo ℚ).insert 4 v) ∧
      ((sharedSumState (.int 0)).evalFrom {} 5).map Prod.fst =
        ((sharedSumState (.int 1)).evalFrom (({} : Memo ℚ).insert 4 v) 5).map Prod.fst := by
  have hbuilt : sharedSumStore.Built fun _ _ => True := Built.empty.runAll (by decide +kernel)
  have hstore : 9 < sharedSumStore.nodes.size ∧ sharedSumStore.uses 9 = [3, 1, 0, 1, 0, 2] ∧
      sharedSumStore.signalsIn 9 = [3, 1, 0, 2] ∧ sharedSumStore.signalsIn 5 = [1, 0] ∧
      (sharedSumStore.eval (sharedSumState (.int 1)).value 4).toOption.map Value.toInt = some 7 := by
    decide +kernel
  obtain ⟨hlt, huses, hreads, hreads', hsum⟩ := hstore
  obtain ⟨v, hv, hseven⟩ := Option.map_eq_some_iff.1 hsum
  have hmemo : sharedSumStore.Remembers (sharedSumState (.int 1)).value
      (({} : Memo ℚ).insert 4 v) :=
    (Simulator.remembers_empty _ _).insert (eq_ok_of_toOption hv)
  obtain ⟨hmentions, -, hadds, -⟩ := collected_signals_cover_evaluation sharedSumStore 9 hbuilt hlt
  obtain ⟨-, -, -, hagree⟩ := collected_signals_cover_evaluation sharedSumStore 5 hbuilt
    (Nat.lt_trans (by decide) hlt)
  refine ⟨hbuilt, hlt, huses, hreads, (hmentions 2).1 (by simp [hreads]), ?_, v, hseven, hmemo, ?_⟩
  · rw [hadds, huses]
    decide
  · refine hagree (sharedSumState (.int 0)) (sharedSumState (.int 1)) ?_ ?_ ?_ {} _
      (Simulator.remembers_empty _ _) hmemo
    · rw [sharedSumState]
    · rw [sharedSumState]
    · rw [hreads']
      simp [Simulator.value, sharedSumState]

end MixedSignal.Store
