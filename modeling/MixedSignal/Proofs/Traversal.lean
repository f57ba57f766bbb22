import Mathlib.Data.List.Basic
import Mathlib.Order.Lattice
import MixedSignal.Expr.Reads

/-!
# Collecting signals

The signals of an expression are collected from a stack of nodes, and a node that was seen is passed
over, also while operands of it may still be on the stack. Those are on top of it: whatever comes up
next stands below the node that is being visited, or all of its operands are done. So nothing is
missed, and the signals come in the order of their first use (`Store.addSignalsIn_eq`), as in a
traversal that visits a shared node at every use.
-/

namespace MixedSignal

theorem nodup_eraseDups {α : Type} [DecidableEq α] : ∀ xs : List α, xs.eraseDups.Nodup
  | [] => by simp
  | x :: xs => by
    rw [List.eraseDups_cons, List.nodup_cons, List.mem_eraseDups]
    exact ⟨by simp, nodup_eraseDups _⟩
termination_by xs => xs.length
decreasing_by exact Nat.lt_succ_of_le (List.length_filter_le _ _)

namespace Store

variable {R : Type} {s : Store R}

/-! ## Signals in the order of their first use -/

theorem mem_foldl_withRead {xs found : List SignalId} {x : SignalId} :
    x ∈ xs.foldl withRead found ↔ x ∈ found ∨ x ∈ xs := by
  induction xs generalizing found with
  | nil => simp
  | cons y xs ih =>
    rw [List.foldl_cons, ih, List.mem_cons, ← or_assoc]
    refine or_congr_left ?_
    unfold withRead
    split
    · exact (or_iff_left_of_imp fun h : x = y => h ▸ ‹y ∈ found›).symm
    · simp

theorem foldl_withRead_of_subset {xs found : List SignalId} (h : xs ⊆ found) :
    xs.foldl withRead found = found := by
  induction xs with
  | nil => rfl
  | cons x xs ih =>
    rw [List.foldl_cons, withRead, if_pos (h List.mem_cons_self)]
    exact ih fun y hy => h (List.mem_cons_of_mem x hy)

theorem foldl_withRead_eq (xs found : List SignalId) :
    xs.foldl withRead found = found ++ (xs.filter (· ∉ found)).eraseDups := by
  induction xs generalizing found with
  | nil => simp
  | cons x xs ih =>
    rw [List.foldl_cons, ih, withRead]
    split
    · rename_i hx
      simp [hx]
    · rename_i hx
      have hfilter : xs.filter (· ∉ found ++ [x]) = (xs.filter (· ∉ found)).filter (! · == x) := by
        rw [List.filter_filter]
        refine List.filter_congr fun y _ => ?_
        by_cases hy : y = x <;> simp [hy]
      rw [hfilter, List.filter_cons_of_pos (by simpa using hx), List.eraseDups_cons,
        List.append_assoc, List.singleton_append]

/-! ## The traversal -/

/-- The signals that an expression reads, each as often as it is used, depth first from the left. -/
def uses (s : Store R) (i : NodeId) : List SignalId :=
  (s.occurrences i).filterMap fun j => readSignal? (s.kind j)

theorem uses_eq (s : Store R) (i : NodeId) : s.uses i =
    (readSignal? (s.kind i)).toList ++ ((s.children i).filter (· < i)).flatMap s.uses := by
  rw [uses, occurrences_eq, List.filterMap_cons, List.filterMap_flatMap]
  cases readSignal? (s.kind i) <;> rfl

/-- Of the nodes below a bound that were seen, everything that they read has been found. -/
def Covers (s : Store R) (bound : NodeId) (seen : Std.TreeSet NodeId) (found : List SignalId) :
    Prop :=
  ∀ j ∈ seen, j < bound → s.uses j ⊆ found

theorem mem_insert_cases {seen : Std.TreeSet NodeId} {i j : NodeId} (h : j ∈ seen.insert i) :
    j = i ∨ j ∈ seen :=
  (Std.TreeSet.mem_insert.1 h).imp_left fun heq => (compare_eq_iff_eq.1 heq).symm

/-- Nodes on top of a stack add their uses, and then the traversal goes on with the rest of the stack.
All that was seen meanwhile stands below the bound. -/
theorem collectSignals_append (bound : NodeId) :
    ∀ (top stack : List NodeId) (seen : Std.TreeSet NodeId) (found : List SignalId),
      (∀ i ∈ top, i < bound) → s.Covers bound seen found →
      ∃ seen' : Std.TreeSet NodeId, s.collectSignals seen found (top ++ stack) =
          s.collectSignals seen' ((top.flatMap s.uses).foldl withRead found) stack ∧
        s.Covers bound seen' ((top.flatMap s.uses).foldl withRead found) ∧
        ∀ j ∈ seen', bound ≤ j → j ∈ seen := by
  -- Operands are visited under the node that they belong to as the bound. That node and the ones that
  -- it is an operand of have been seen and are not covered yet, but they do not stand below it.
  induction bound using Nat.strong_induction_on with
  | _ bound ih =>
    intro top
    induction top with
    | nil => exact fun stack seen found _ hcovers => ⟨seen, rfl, hcovers, fun _ hj _ => hj⟩
    | cons i top ihtop =>
      intro stack seen found htop hcovers
      have hi := htop i List.mem_cons_self
      have hrest : ∀ j ∈ top, j < bound := fun j hj => htop j (List.mem_cons_of_mem i hj)
      rw [List.cons_append, List.flatMap_cons, List.foldl_append, collectSignals]
      split
      · rename_i hseen
        rw [foldl_withRead_of_subset (hcovers i (Std.TreeSet.contains_iff_mem.1 hseen) hi)]
        exact ihtop stack seen found hrest hcovers
      · have hopen : s.Covers i (seen.insert i)
            ((readSignal? (s.kind i)).elim found (withRead found)) := by
          intro j hj hlt x hx
          have hj' : j ∈ seen := (mem_insert_cases hj).resolve_left hlt.ne
          have hx' := hcovers j hj' (hlt.trans hi) hx
          cases readSignal? (s.kind i) with
          | none => exact hx'
          | some y =>
            change x ∈ [y].foldl withRead found
            exact mem_foldl_withRead.2 (.inl hx')
        obtain ⟨seen₁, hrun, hbelow, hseen₁⟩ := ih i hi ((s.children i).filter (· < i)) (top ++ stack)
          _ _ (by simp) hopen
        have huses : (((s.children i).filter (· < i)).flatMap s.uses).foldl withRead
            ((readSignal? (s.kind i)).elim found (withRead found)) =
              (s.uses i).foldl withRead found := by
          rw [uses_eq, List.foldl_append]
          cases readSignal? (s.kind i) <;> rfl
        rw [huses] at hrun hbelow
        have hdone : s.Covers bound seen₁ ((s.uses i).foldl withRead found) := by
          intro j hj hlt
          by_cases hji : j < i
          · exact hbelow j hj hji
          · intro x hx
            rw [mem_foldl_withRead]
            rcases mem_insert_cases (hseen₁ j hj (not_lt.1 hji)) with rfl | hj
            · exact .inr hx
            · exact .inl (hcovers j hj hlt hx)
        obtain ⟨seen₂, hrun₂, hcovers₂, hseen₂⟩ := ihtop stack seen₁ _ hrest hdone
        refine ⟨seen₂, hrun.trans hrun₂, hcovers₂, fun j hj hle => ?_⟩
        have hij := hi.trans_le hle
        exact (mem_insert_cases (hseen₁ j (hseen₂ j hj hle) hij.le)).resolve_left hij.ne'

/-- An expression adds the signals it reads that were not found before, each at its first use. -/
theorem addSignalsIn_eq (s : Store R) (found : List SignalId) (i : NodeId) :
    s.addSignalsIn found i = found ++ ((s.uses i).filter (· ∉ found)).eraseDups := by
  obtain ⟨seen, hrun, -⟩ := collectSignals_append (s := s) (i + 1) [i] [] {} found (by simp)
    fun j hj => by simp at hj
  rw [addSignalsIn, ← foldl_withRead_eq]
  simpa [collectSignals] using hrun

theorem mem_signalsIn {i : NodeId} {x : SignalId} :
    x ∈ s.signalsIn i ↔ ∃ j ∈ s.occurrences i, readSignal? (s.kind j) = some x := by
  simp [signalsIn, addSignalsIn_eq, uses, List.mem_eraseDups]

end Store

end MixedSignal
