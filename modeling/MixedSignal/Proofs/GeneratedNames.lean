import Mathlib
import MixedSignal.Proofs.StraightLine

/-!
# Generated names

All names of a module share one scope: signals, the values of real parameters, temporaries, and the
entries of selections, whose base names are temporaries themselves. `Names.freshEach` makes a sequence
of calls for names in such a scope, with any base names. Each call returns the base name or the base
name with the least free number, and as this was not in use, no two calls return the same name
(`Names.freshEach_takes`).

A compiled module starts from the names of the signals and makes all others that way, so no two things
in it have the same name.
-/

namespace MixedSignal

namespace Verilog.Names

/-- A name for each of the base names, one call after the other. -/
def freshEach (n : Names) (bases : List String) : List String × Names :=
  match bases with
  | [] => ([], n)
  | base :: bases =>
    let called := n.fresh base
    let rest := called.2.freshEach bases
    (called.1 :: rest.1, rest.2)

variable {n : Names} {base name : String}

theorem freshEach_cons (n : Names) (base : String) (bases : List String) :
    n.freshEach (base :: bases) =
      (n.choose base :: ((n.fresh base).2.freshEach bases).1, ((n.fresh base).2.freshEach bases).2) :=
  rfl

/-- Calls that follow others start from the names that these have left. -/
theorem freshEach_append (n : Names) (before after : List String) :
    n.freshEach (before ++ after) =
      ((n.freshEach before).1 ++ ((n.freshEach before).2.freshEach after).1,
        ((n.freshEach before).2.freshEach after).2) := by
  induction before generalizing n with
  | nil => rfl
  | cons base before ih => rw [List.cons_append, freshEach_cons, freshEach_cons, ih, List.cons_append]

theorem freshEach_length (n : Names) (bases : List String) :
    (n.freshEach bases).1.length = bases.length := by
  induction bases generalizing n with
  | nil => rfl
  | cons base bases ih => rw [freshEach_cons, List.length_cons, ih, List.length_cons]

/-- By induction over the calls: each one takes a name that the others before it have left free. -/
theorem freshEach_takes (n : Names) (bases : List String) :
    Takes n (n.freshEach bases).2 (n.freshEach bases).1 := by
  induction bases generalizing n with
  | nil => exact .refl n
  | cons base bases ih => exact (n.fresh_takes base).trans (ih _)

/-- In a scope where the base name is in use, the least free number decides. -/
theorem Chosen.eq_numbered {i : Nat} (h : n.Chosen base name) (hbase : base ∈ n.used)
    (hi : n.IsLeastFree base i) : name = numbered base i := by
  cases h with
  | unchanged hfree => exact absurd hbase hfree
  | suffixed _ hk _ => rw [hk.unique hi]

end Verilog.Names

namespace Model

variable {R : Type} [Scalar R] {m : Model R} {settings : Settings} {rounding : Rounding R}

open Verilog Verilog.Names

/-- The names of signals, of values of parameters and of temporaries are all different, and the module
declares nothing else. -/
structure NamedApart (m : Model R) (module : Verilog.Module R) (temporaries : List String) : Prop where
  nodup : (m.store.signals.toList.map (·.name) ++ (m.namedParams.1.map (·.2) ++ temporaries)).Nodup
  parameters : module.parameters = m.store.signals.toList.filterMap (parameter? m.namedParams.1)
  declared : ∀ x ∈ declaredIn module.blocks.flatten,
    x ∈ m.store.signals.toList.map (·.name) ∨ x ∈ temporaries

theorem emit_namedApart (hm : m.WellFormed rounding) {module : Verilog.Module R}
    (h : m.emit settings = .ok module) : ∃ temporaries, m.NamedApart module temporaries := by
  obtain ⟨runs, names, hassembled, htemporaries⟩ := emit_named hm h
  obtain ⟨hvalues, -, -⟩ := paramValues_spec m.store.signals.toList
    (.ofList (m.store.signals.toList.map (·.name)))
  have htakes := hvalues.trans htemporaries
  refine ⟨declaredIn (codeOf (lowerings runs)), ?_, hassembled.parameters, fun x hx => ?_⟩
  · rw [List.nodup_append']
    exact ⟨hm.names.nodup, htakes.nodup, fun x hsignal htaken =>
      htakes.fresh x htaken (mem_ofList.2 hsignal)⟩
  · rw [hassembled.declaredIn_body] at hx
    rcases List.mem_append.1 hx with hx | hx
    · obtain ⟨signal, hsignal, rfl, -⟩ := hassembled.param_name hx
      exact .inl (List.mem_map_of_mem hsignal)
    · refine (List.mem_append.1 hx).imp_left fun hinternal => ?_
      exact (declaredIn_internals settings.realWidth _).1.subset hinternal

/-- Names that are asked for in any scope and with any base names never collide. Every call returns a
name that was not in use before it: the base name, or the base name with the least number that makes
it free. The search for the number ends by itself: it finds the same one however far it may go beyond
the count of the names in use. In a compiled module, the names of signals, of values of parameters and
of what is declared besides are all distinct. -/
theorem generated_names_distinct [Numerics R] :
    (∀ (n : Names) (bases : List String),
      (n.freshEach bases).1.length = bases.length ∧
      Takes n (n.freshEach bases).2 (n.freshEach bases).1 ∧
      ∀ before base after, bases = before ++ base :: after → ∃ name rest,
        (n.freshEach bases).1 = (n.freshEach before).1 ++ name :: rest ∧
        name ∉ (n.freshEach before).2.used ∧ (n.freshEach before).2.Chosen base name) ∧
    (∀ (n : Names) (base : String), ∃ i ≤ n.used.size, n.IsLeastFree base i ∧
      ∀ fuel, n.used.size < fuel → n.firstFree base fuel 0 = i) ∧
    ∀ (m : Model R) settings text m', (m.Built fun _ _ => True) →
      outcome (compile settings) m = (.ok text, m') →
      ∃ (module : Verilog.Module R) (temporaries : _), text = module.text ∧
        m.NamedApart module temporaries := by
  refine ⟨fun n bases => ⟨n.freshEach_length bases, n.freshEach_takes bases, ?_⟩, ?_, ?_⟩
  · rintro before base after rfl
    have hchosen := (n.freshEach before).2.choose_chosen base
    refine ⟨_, (((n.freshEach before).2.fresh base).2.freshEach after).1, ?_, hchosen.notMem, hchosen⟩
    rw [freshEach_append, freshEach_cons]
  · intro n base
    obtain ⟨i, hle, hi⟩ := n.exists_isLeastFree base
    exact ⟨i, hle, hi, fun fuel hfuel => hi.firstFree_eq (Nat.zero_le i) (by omega)⟩
  · intro m settings text m' hb h
    obtain ⟨module, rfl, hemit⟩ := compile_eq_ok h
    obtain ⟨temporaries, hnames⟩ := emit_namedApart hb.wellFormed_any hemit
    exact ⟨module, temporaries, rfl, hnames⟩

/-- A scope with a signal that has the name of a temporary, and one with that of its replacement. -/
def takenNames : Names := .ofList ["tmp", "tmp_0"]

theorem choose_tmp : takenNames.choose "tmp" = numbered "tmp" 1 := by
  refine (takenNames.choose_chosen "tmp").eq_numbered (mem_ofList.2 (by simp)) ⟨?_, fun j hj => ?_⟩
  · exact fun hmem => absurd (mem_ofList.1 hmem) (by decide)
  · obtain rfl : j = 0 := by omega
    exact mem_ofList.2 (by decide)

/-- A name that is based on the temporary keeps off it. -/
theorem choose_tmp_1 : (takenNames.fresh "tmp").2.choose "tmp_1" = numbered "tmp_1" 0 := by
  have hused (x : String) : x ∈ (takenNames.fresh "tmp").2.used ↔
      x ∈ ["tmp", "tmp_0"] ∨ x ∈ [numbered "tmp" 1] := by
    rw [(takenNames.fresh_takes "tmp").mem_iff, ← choose_tmp]
    exact or_congr_left mem_ofList
  refine (choose_chosen _ "tmp_1").eq_numbered ((hused _).2 (by decide)) ⟨?_, fun j hj => ?_⟩
  · exact fun hmem => absurd ((hused _).1 hmem) (by decide)
  · exact absurd hj (Nat.not_lt_zero j)

/-- A temporary passes over both signals. -/
theorem generated_names_distinct_temporaries :
    (takenNames.freshEach ["tmp", "tmp_1"]).1 = ["tmp_1", "tmp_1_0"] ∧
    (takenNames.freshEach ["tmp", "tmp_1"]).1.Nodup ∧
    (gainModel.Built fun _ _ => True) ∧ ∃ text m' module temporaries,
      outcome (compile {}) gainModel = (.ok text, m') ∧
      gainModel.NamedApart module temporaries := by
  obtain ⟨hcalls, -, hcompiled⟩ := generated_names_distinct (R := ℚ)
  obtain ⟨-, htakes, -⟩ := hcalls takenNames ["tmp", "tmp_1"]
  obtain ⟨text, m', hrun⟩ := gainModel_complete.exists_compile gainModel_built.wellFormed_any
  obtain ⟨module, temporaries, -, hapart⟩ := hcompiled gainModel {} text m' gainModel_built hrun
  refine ⟨?_, htakes.nodup, gainModel_built, text, m', module, temporaries, hrun, hapart⟩
  rw [freshEach_cons, freshEach_cons, choose_tmp, choose_tmp_1]
  decide

end Model

end MixedSignal
