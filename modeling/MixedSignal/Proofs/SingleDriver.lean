import MixedSignal.Proofs.Emitting
import MixedSignal.Proofs.FailedEdits
import MixedSignal.Verilog.Files

/-!
# Every signal has at most one driver

A model is edited and compiled in any order (`Request`), and requests may fail. Whatever happens, a
request only adds to the model (`Request.perform_adds`). So an assignment stays where it is, no
signal gets a second one, and what was checked when an assignment was made holds ever after.
-/

namespace MixedSignal

variable {R : Type} [Scalar R]

/-! ## Requests -/

/-- What a user may ask of a model: an operation, the text of its module, or its files. -/
inductive Request (R : Type) where
  | edit (op : Operation R)
  | compile (settings : Settings)
  | compileToFiles (folder path : String) (settings : Settings)

namespace Request

open Store Model

variable {rounding : Rounding R} {m : Model R}

/-- The request as an edit. -/
def perform [Numerics R] : Request R → Edit R Unit
  | edit op => op.perform
  | compile settings => discard (Model.compile settings)
  | compileToFiles folder path settings => discard (Model.compileToFiles folder path settings)

/-- Everything that the request refers to exists. -/
def Valid (m : Model R) : Request R → Prop
  | edit op => op.Valid m
  | _ => True

instance (m : Model R) : (r : Request R) → Decidable (r.Valid m)
  | edit op => inferInstanceAs (Decidable (op.Valid m))
  | compile _ | compileToFiles _ _ _ => .isTrue trivial

/-- Whether the request checks the formats of what it assigns. -/
def checked : Request R → Bool
  | edit op => op.checked
  | _ => true

/-- The control signals of the registers that the request makes. -/
def clocking : Request R → Clocking
  | edit op => op.clocking
  | _ => {}

theorem Valid.clocking_known {r : Request R} (hv : r.Valid m) : r.clocking.Known m.store := by
  cases r with
  | edit op => exact Operation.Valid.clocking_known hv
  | _ => exact fun x hx => absurd hx (by simp [clocking, Clocking.signals])

theorem compileToFiles_ensures (hm : m.WellFormed rounding) (folder path : String)
    (settings : Settings) : Ensures Reported (Model.compileToFiles folder path settings) m
      (fun _ => True) fun _ _ => True := by
  have hcheck : ∀ {ε α : Type} (f : ε → Error) (x : Except ε α) (m : Model R),
      Ensures Reported (check f x) m (fun _ => True) fun _ _ => True := fun f x m =>
    (check_exact f x fun _ _ => trivial).imp fun _ _ _ _ => trivial
  unfold Model.compileToFiles
  refine ((compile_ensures hm settings).mono (fun _ => id) (fun _ _ => trivial)
    fun _ _ _ => id).bind fun text m₁ _ _ => ?_
  refine (hcheck id _ m₁).bind fun r m₂ h₂ _ => Ensures.get_bind ?_
  refine Ensures.bind (P := fun _ _ => True) ?_ fun _ _ _ _ => Ensures.pure trivial
  -- tables are written one after the other
  clear h₂
  generalize m₂.tables.entries = tables
  generalize r.2 = files
  induction tables generalizing files m₂ with
  | nil => exact Ensures.pure trivial
  | cons t tables ih =>
    rw [List.foldlM_cons]
    refine Ensures.bind (P := fun _ _ => True) ?_ fun files m₃ _ _ => ih m₃ files
    exact (hcheck id _ m₂).bind fun _ _ _ _ => Ensures.pure trivial

/-- Whether it succeeds or fails, a request only adds to a model. -/
theorem perform_adds [Numerics R] (hm : m.WellFormed Rounding.any) {r : Request R}
    (hv : r.Valid m) :
    m.AddsSome Rounding.any r.checked r.clocking (outcome r.perform m).2 := by
  have hreported : ∀ {α : Type} {x : Edit R α} {E : Error → Prop} {P : α → Model R → Prop}
      {clocking : Clocking}, Ensures Reported x m E P →
      m.AddsSome Rounding.any true clocking (outcome x m).2 := by
    intro α x E P clocking h
    obtain ⟨ds, hds⟩ := h.moved
    have hmoves : m.Moves Rounding.any (Advances Rounding.any) { m with diagnostics := ds } :=
      ⟨refl_of _ m.store, List.prefix_rfl, fun h => { h with }, fun _ => id⟩
    rw [hds]
    exact (Adds.of_eq hmoves rfl rfl rfl).some
  cases r with
  | edit op => exact op.perform_adds hm hv (op.rounds_any m)
  | compile settings =>
    exact hreported ((compile_ensures hm settings).map (Q := fun _ _ => True) fun _ _ _ _ => trivial)
  | compileToFiles folder path settings =>
    exact hreported ((compileToFiles_ensures hm folder path settings).map (Q := fun _ _ => True)
      fun _ _ _ _ => trivial)

end Request

namespace Model

open Store

variable {m m' : Model R}

/-! ## Drivers -/

/-- Each signal has at most one assignment, and the module may drive it. Registers are controlled by
bits, and each name has at most one table. -/
structure SingleDriven (m : Model R) : Prop where
  nodup : (m.assignments.values.map (·.signal)).Nodup
  role : ∀ a ∈ m.assignments.values,
    (m.store.signal a.signal).role = .output ∨ (m.store.signal a.signal).role = .internal
  controls : ∀ a ∈ m.assignments.values, ∀ x ∈ a.timing.controls, x < m.store.signals.size ∧
    ∃ range, (m.store.signal x).format = .int ⟨.unsigned, 1, range⟩
  tables : m.tables.keys.Nodup

/-- What a request keeps: the model is well formed, registers are controlled by bits, and each name
has at most one table. -/
structure Kept (m : Model R) : Prop where
  wellFormed : m.WellFormed Rounding.any
  controls : ∀ e ∈ m.assignments.entries, ∀ x ∈ e.2.timing.controls,
    x < m.store.signals.size ∧ (m.store.signal x).format.isBit = true
  tables : m.tables.keys.Nodup

theorem kept_ofName {name : String} {dt : Option R} (h : ofName name dt = .ok m) : m.Kept := by
  have hm : m.WellFormed Rounding.any := wellFormed_ofName h
  obtain rfl := eq_of_ofName h
  exact ⟨hm, by simp, by simp [OrderedMap.keys]⟩

theorem Kept.singleDriven (h : m.Kept) : m.SingleDriven where
  nodup := by
    have hkeys : m.assignments.values.map (·.signal) = m.assignments.keys := by
      rw [OrderedMap.values, OrderedMap.keys, List.map_map]
      exact List.map_congr_left fun e he => (h.wellFormed.entries e he).1.symm
    rw [hkeys]
    exact h.wellFormed.nodup
  role a ha := by
    obtain ⟨e, he, rfl⟩ := List.mem_map.1 ha
    have hrole := (h.wellFormed.entries e he).2.assignable
    cases hr : (m.store.signal e.2.signal).role with
    | output => exact .inl rfl
    | internal => exact .inr rfl
    | _ => simp [hr, Role.isAssignable] at hrole
  controls a ha x hx := by
    obtain ⟨e, he, rfl⟩ := List.mem_map.1 ha
    obtain ⟨hlt, hbit⟩ := h.controls e he x hx
    exact ⟨hlt, Format.exists_of_isBit hbit⟩
  tables := h.tables

/-! ## Sequences of requests -/

variable [Numerics R]

/-- The model that a request leaves, whether it succeeds or fails. -/
def after (m : Model R) (r : Request R) : Model R := (outcome r.perform m).2

/-- The model that a sequence of requests leaves. -/
def afterAll (m : Model R) (rs : List (Request R)) : Model R := rs.foldl after m

/-- Each request refers only to what exists when its turn comes. -/
def Accepts (m : Model R) : List (Request R) → Prop
  | [] => True
  | r :: rs => r.Valid m ∧ Accepts (m.after r) rs

theorem accepts_append {rs rs' : List (Request R)} :
    m.Accepts (rs ++ rs') ↔ m.Accepts rs ∧ (m.afterAll rs).Accepts rs' := by
  induction rs generalizing m with
  | nil => simp [Accepts, afterAll]
  | cons r rs ih => simp [Accepts, ih, and_assoc, afterAll]

/-- A request keeps what was known of old assignments and tables, and checks the new ones. -/
theorem Kept.after (h : m.Kept) {r : Request R} (hv : r.Valid m) : (m.after r).Kept := by
  obtain ⟨_, _, _, hadds⟩ := r.perform_adds h.wellFormed hv
  have hext := hadds.extends_store h.wellFormed
  refine ⟨hadds.moves.wellFormed h.wellFormed, fun e he x hx => ?_, hadds.names h.tables⟩
  rcases hadds.sound e he with hold | hsound
  · obtain ⟨hlt, hbit⟩ := h.controls e hold x hx
    exact ⟨hlt.trans_le hext.signals_le, by rwa [Model.after, hext.signal_eq x hlt]⟩
  · obtain ⟨hmem, hbit⟩ := hsound.controls x hx
    exact ⟨(hv.clocking_known x hmem).trans_le hext.signals_le, hbit⟩

theorem Kept.afterAll (h : m.Kept) {rs : List (Request R)} (hv : m.Accepts rs) :
    (m.afterAll rs).Kept := by
  induction rs generalizing m with
  | nil => exact h
  | cons r rs ih => exact ih (h.after hv.1) hv.2

/-- Later requests change nothing that is there already. -/
theorem Kept.afterAll_moves (h : m.Kept) {rs : List (Request R)} (hv : m.Accepts rs) :
    m.Moves Rounding.any (Advances Rounding.any) (m.afterAll rs) ∧
      m.tables.entries <+: (m.afterAll rs).tables.entries := by
  induction rs generalizing m with
  | nil => exact ⟨refl_of _ m, List.prefix_rfl⟩
  | cons r rs ih =>
    obtain ⟨_, _, tables, hadds⟩ := r.perform_adds h.wellFormed hv.1
    obtain ⟨hmoves, htables⟩ := ih (h.after hv.1) hv.2
    have hprefix : m.tables.entries <+: (m.after r).tables.entries :=
      ⟨tables, hadds.tables_eq.symm⟩
    exact ⟨trans_of _ hadds.moves hmoves, hprefix.trans htables⟩

/-- At any time a model has at most one assignment for each signal, only outputs and internal
signals are assigned, and registers are controlled by bits. Later requests, whether they succeed or
fail, keep all assignments and tables as they are and in their order. An assignment made by a request
that checks formats keeps to the domain of its signal, and a register to its width. -/
theorem single_driver {name : String} {dt : Option R} {m₀ : Model R} (h₀ : ofName name dt = .ok m₀)
    {earlier later : List (Request R)} {r : Request R}
    (hv : m₀.Accepts (earlier ++ r :: later)) :
    (m₀.afterAll earlier).SingleDriven ∧
    (m₀.afterAll earlier).assignments.values <+:
      (m₀.afterAll (earlier ++ r :: later)).assignments.values ∧
    (∀ n t, (m₀.afterAll earlier).tables.get? n = some t →
      (m₀.afterAll (earlier ++ r :: later)).tables.get? n = some t) ∧
    (r.checked = true →
      ∀ a ∈ ((m₀.afterAll earlier).after r).assignments.values,
        a ∉ (m₀.afterAll earlier).assignments.values →
        ((m₀.afterAll (earlier ++ r :: later)).store.signal a.signal).format.Agrees
          (!a.isCombinational) ((m₀.afterAll (earlier ++ r :: later)).store.format a.expr)) := by
  obtain ⟨hearlier, hrequest, hlater⟩ := accepts_append.1 hv
  have hkept := (kept_ofName h₀).afterAll hearlier
  have hfinal : m₀.afterAll (earlier ++ r :: later) =
      ((m₀.afterAll earlier).after r).afterAll later := by
    simp [Model.afterAll]
  rw [hfinal]
  generalize m₀.afterAll earlier = m at hkept hrequest hlater ⊢
  have hrest : m.Accepts (r :: later) := ⟨hrequest, hlater⟩
  obtain ⟨hmoves, htables⟩ := hkept.afterAll_moves hrest
  refine ⟨hkept.singleDriven, hmoves.assignments.map Prod.snd,
    fun n t ht => OrderedMap.get?_of_prefix htables ht, fun hchecked a ha hnew => ?_⟩
  -- the assignment was checked when it was made, and the store has only grown since
  obtain ⟨_, _, _, hadds⟩ := r.perform_adds hkept.wellFormed hrequest
  have hkept' := hkept.after hrequest
  obtain ⟨e, he, rfl⟩ := List.mem_map.1 ha
  have hvalid := (hkept'.wellFormed.entries e he).2
  have hext := ((hkept'.afterAll_moves hlater).1.store hkept'.wellFormed.store).1
  rw [hext.signal_eq _ hvalid.signal_lt, hext.format_eq hvalid.expr_lt]
  rcases hadds.sound e he with hold | hsound
  · exact absurd (List.mem_map_of_mem hold) hnew
  · exact hsound.format hchecked

/-- A bit `en`, a counter `n` that it enables, and an output `y`. -/
@[irreducible] def counterRequests : List (Request ℚ) :=
  [.edit (.digitalInput "en" 1 .unsigned), .edit (.counter "n" 4 0 true { enable := some 0 }),
    .edit (.digitalOutput "y" 4 .unsigned 0)]

/-- The output `y` follows the counter by a cycle. -/
@[irreducible] def followRequest : Request ℚ := .edit (.nextCycle 2 (.signal 1) { enable := some 0 } true)

/-- A second driver of `y`, which is refused, and a compilation. -/
@[irreducible] def laterRequests : List (Request ℚ) :=
  [.edit (.thisCycle 2 (.value (.int 3)) false), .compile {}]

theorem counterRequests_computed : ∃ m₀ : Model ℚ, ofName "m" none = .ok m₀ ∧
    m₀.Accepts (counterRequests ++ followRequest :: laterRequests) ∧ followRequest.checked = true ∧
    (∃ a ∈ ((m₀.afterAll counterRequests).after followRequest).assignments.values,
      a.signal = 2 ∧ a.expr = 1 ∧ a.isCombinational = false) ∧
    ∀ a ∈ (m₀.afterAll counterRequests).assignments.values, a.signal ≠ 2 := by
  refine ⟨{ name := "m", dt := none }, by with_unfolding_all rfl, ?_, ?_⟩
  · unfold counterRequests followRequest laterRequests
    refine ⟨?_, ?_, ?_, ?_, ?_, ?_, trivial⟩
    all_goals decide +kernel
  · decide +kernel

/-- The register that follows the counter is kept, though another driver is asked for. -/
theorem single_driver_counter :
    ∃ m₀ : Model ℚ, ofName "m" none = .ok m₀ ∧
      m₀.Accepts (counterRequests ++ followRequest :: laterRequests) ∧
      (m₀.afterAll counterRequests).SingleDriven ∧
      (m₀.afterAll counterRequests).assignments.values <+:
        (m₀.afterAll (counterRequests ++ followRequest :: laterRequests)).assignments.values ∧
      ((m₀.afterAll (counterRequests ++ followRequest :: laterRequests)).store.signal 2).format.Agrees
        true ((m₀.afterAll (counterRequests ++ followRequest :: laterRequests)).store.format 1) := by
  obtain ⟨m₀, hnew, hv, hcheck, ⟨a, ha, hsignal, hexpr, htiming⟩, hbefore⟩ := counterRequests_computed
  obtain ⟨hsingle, hprefix, -, hchecked⟩ := single_driver hnew hv
  have hagrees := hchecked hcheck a ha fun hold => hbefore a hold hsignal
  rw [hsignal, hexpr, htiming] at hagrees
  exact ⟨m₀, hnew, hv, hsingle, hprefix, hagrees⟩

end Model

end MixedSignal
