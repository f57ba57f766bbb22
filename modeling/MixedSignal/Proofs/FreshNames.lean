import Mathlib.Data.List.Nodup
import Mathlib.Data.List.Perm.Subperm
import Mathlib.Data.Nat.Find
import MixedSignal.Verilog.Names

/-!
# Names that are taken

A name that `Names.fresh` returns was not in use. It is the base name, or the base name with the least
number that makes it free (`Names.choose_chosen`). Of one more number than there are names in use, one
makes the base name free, since different numbers make different names; so the search for it ends by
itself, before it has tried as many as it may (`Names.IsLeastFree.firstFree_eq`).

`Names.Takes` says what a sequence of such calls does to the names in use.
-/

namespace MixedSignal.Verilog.Names

theorem numbered_injective (base : String) : Function.Injective (numbered base) := by
  intro i j h
  have htext : toString i = toString j := (String.append_right_inj (base ++ "_")).1 h
  rw [Nat.toString_eq_ofList_toDigits, Nat.toString_eq_ofList_toDigits, String.ofList_inj] at htext
  rw [← Nat.ofDigitChars_ten_toDigits (n := i), htext, Nat.ofDigitChars_ten_toDigits]

variable {n n' n'' : Names} {base : String}

/-! ## The search for a number -/

/-- The least number that makes the base name free. -/
structure IsLeastFree (n : Names) (base : String) (i : Nat) : Prop where
  free : numbered base i ∉ n.used
  least : ∀ j < i, numbered base j ∈ n.used

/-- Fewer names are in use than there are numbers up to their count. -/
theorem exists_numbered_notMem (n : Names) (base : String) :
    ∃ i ≤ n.used.size, numbered base i ∉ n.used := by
  by_contra hnone
  have hall (i : Nat) (hi : i ≤ n.used.size) : numbered base i ∈ n.used :=
    not_not.1 fun hfree => hnone ⟨i, hi, hfree⟩
  have hnodup : ((List.range (n.used.size + 1)).map (numbered base)).Nodup :=
    List.nodup_range.map (numbered_injective base)
  have hsub : (List.range (n.used.size + 1)).map (numbered base) ⊆ n.used.toList := by
    intro name hname
    obtain ⟨k, hk, rfl⟩ := List.mem_map.1 hname
    exact Std.HashSet.mem_toList.2 (hall k (Nat.le_of_lt_succ (List.mem_range.1 hk)))
  have hle := (List.subperm_of_subset hnodup hsub).length_le
  rw [List.length_map, List.length_range, Std.HashSet.length_toList] at hle
  omega

theorem exists_isLeastFree (n : Names) (base : String) :
    ∃ i ≤ n.used.size, n.IsLeastFree base i := by
  obtain ⟨k, hk, hfree⟩ := n.exists_numbered_notMem base
  have hex : ∃ i, numbered base i ∉ n.used := ⟨k, hfree⟩
  exact ⟨Nat.find hex, le_trans (Nat.find_min' hex hfree) hk, Nat.find_spec hex,
    fun j hj => not_not.1 (Nat.find_min hex hj)⟩

namespace IsLeastFree

variable {i : Nat}

theorem unique {k : Nat} (hi : n.IsLeastFree base i) (hk : n.IsLeastFree base k) : i = k := by
  refine le_antisymm (not_lt.1 fun hlt => ?_) (not_lt.1 fun hlt => ?_)
  · exact hk.free (hi.least k hlt)
  · exact hi.free (hk.least i hlt)

/-- The search finds the number if it may go so far. -/
theorem firstFree_eq (h : n.IsLeastFree base i) {fuel k : Nat} (hk : k ≤ i) (hi : i < k + fuel) :
    n.firstFree base fuel k = i := by
  induction fuel generalizing k with
  | zero => omega
  | succ fuel ih =>
    unfold firstFree
    split
    · rename_i hused
      have hne : k ≠ i := by
        rintro rfl
        exact h.free (Std.HashSet.mem_iff_contains.2 hused)
      exact ih (by omega) (by omega)
    · rename_i hfree
      by_contra hne
      exact hfree (Std.HashSet.mem_iff_contains.1 (h.least k (by omega)))

end IsLeastFree

/-- A name that stands for a base name: itself if it is free, and else with the least number that
makes it free. Not more numbers are taken than there are names in use. -/
inductive Chosen (n : Names) (base : String) : String → Prop
  | unchanged (h : base ∉ n.used) : Chosen n base base
  | suffixed {i : Nat} (h : base ∈ n.used) (hi : n.IsLeastFree base i) (hle : i ≤ n.used.size) :
    Chosen n base (numbered base i)

theorem choose_chosen (n : Names) (base : String) : n.Chosen base (n.choose base) := by
  unfold choose
  split
  · rename_i hused
    obtain ⟨i, hle, hi⟩ := n.exists_isLeastFree base
    rw [hi.firstFree_eq (Nat.zero_le i) (by omega)]
    exact .suffixed (Std.HashSet.mem_iff_contains.2 hused) hi hle
  · rename_i hfree
    exact .unchanged fun hmem => hfree (Std.HashSet.mem_iff_contains.1 hmem)

theorem Chosen.notMem {name : String} (h : n.Chosen base name) : name ∉ n.used := by
  cases h with
  | unchanged h => exact h
  | suffixed _ hi _ => exact hi.free

theorem choose_notMem (n : Names) (base : String) : n.choose base ∉ n.used :=
  (n.choose_chosen base).notMem

/-! ## Names without blanks -/

/-- The name is one word of a line. -/
def IsWord (x : String) : Prop := ' ' ∉ x.toList

instance (x : String) : Decidable (IsWord x) := inferInstanceAs (Decidable (_ ∉ _))

theorem IsWord.append {x y : String} (hx : IsWord x) (hy : IsWord y) : IsWord (x ++ y) := by
  simpa [IsWord] using ⟨hx, hy⟩

theorem isWord_toString (n : Nat) : IsWord (toString n) := by
  intro hmem
  rw [Nat.toString_eq_ofList_toDigits, String.toList_ofList] at hmem
  exact absurd (Nat.isDigit_of_mem_toDigits (by decide) (by decide) hmem) (by decide)

theorem IsWord.numbered (h : IsWord base) (i : Nat) : IsWord (numbered base i) :=
  (h.append (by decide)).append (isWord_toString i)

theorem choose_isWord (n : Names) (h : IsWord base) : IsWord (n.choose base) := by
  unfold choose
  split
  · exact h.numbered _
  · exact h

/-! ## Names in use -/

/-- From the names in use before to those after: exactly the given names were taken, each one while
it was free. -/
structure Takes (n n' : Names) (taken : List String) : Prop where
  mem_iff : ∀ x, x ∈ n'.used ↔ x ∈ n.used ∨ x ∈ taken
  fresh : ∀ x ∈ taken, x ∉ n.used
  nodup : taken.Nodup

namespace Takes

theorem refl (n : Names) : Takes n n [] := ⟨by simp, by simp, List.nodup_nil⟩

theorem trans {xs ys : List String} (h : Takes n n' xs) (h' : Takes n' n'' ys) :
    Takes n n'' (xs ++ ys) where
  mem_iff x := by rw [h'.mem_iff, h.mem_iff, List.mem_append, or_assoc]
  fresh x hx := by
    rcases List.mem_append.1 hx with hx | hx
    · exact h.fresh x hx
    · exact fun hmem => h'.fresh x hx ((h.mem_iff x).2 (.inl hmem))
  nodup := by
    refine List.nodup_append.2 ⟨h.nodup, h'.nodup, ?_⟩
    rintro x hx y hy rfl
    exact h'.fresh x hy ((h.mem_iff x).2 (.inr hx))

theorem perm {xs ys : List String} (h : Takes n n' xs) (hp : xs.Perm ys) : Takes n n' ys where
  mem_iff x := by rw [h.mem_iff, hp.mem_iff]
  fresh x hx := h.fresh x (hp.mem_iff.2 hx)
  nodup := hp.nodup h.nodup

end Takes

theorem fresh_takes (n : Names) (base : String) :
    Takes n (n.fresh base).2 [(n.fresh base).1] where
  mem_iff x := by
    change x ∈ n.used.insert (n.choose base) ↔ _ ∨ x ∈ [n.choose base]
    rw [Std.HashSet.mem_insert, List.mem_singleton, or_comm, beq_iff_eq, eq_comm]
  fresh x hx := by
    obtain rfl : x = n.choose base := List.mem_singleton.1 hx
    exact n.choose_notMem base
  nodup := List.nodup_singleton _

theorem mem_ofList {names : List String} {x : String} : x ∈ (ofList names).used ↔ x ∈ names := by
  change x ∈ Std.HashSet.ofList names ↔ _
  rw [Std.HashSet.mem_ofList, List.contains_iff_mem]

end MixedSignal.Verilog.Names
