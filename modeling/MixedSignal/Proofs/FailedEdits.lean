import MixedSignal.Proofs.Exact
import MixedSignal.Proofs.Modelling

/-!
# What failed edits leave behind

Building blocks are put together step by step, and nothing is taken back when a step fails. What was
in a model before stays as it was, but a block that fails may leave a part of itself in the model:
a table whose output is refused, drivers of some of its signals, or registers and signals of a delay
line (`Operation.Leaves`). The names that it has taken by then cannot be given again.
-/

set_option linter.unusedSectionVars false

namespace MixedSignal

variable {R : Type} [Scalar R]

namespace Model

open Store

variable {rounding : Rounding R} {checked : Bool} {clocking : Clocking} {m m' : Model R}

/-- Signals with their names, assignments and tables are what they were. -/
structure Unchanged (m m' : Model R) : Prop where
  signals : m'.store.signals = m.store.signals
  assignments : m'.assignments = m.assignments
  tables : m'.tables = m.tables

theorem Adds.unchanged (h : m.Same rounding checked clocking m') : m.Unchanged m' where
  signals := by
    have hsignals := h.signals_eq
    rw [List.append_nil] at hsignals
    exact Array.toList_inj.1 hsignals
  assignments := by
    -- no key was added, so the entries that were there are all
    have hlength := congrArg List.length h.keys_eq
    simp only [List.append_nil, OrderedMap.keys, List.length_map] at hlength
    have hentries := h.moves.assignments.eq_of_length hlength.symm
    calc m'.assignments = ⟨m'.assignments.entries⟩ := rfl
      _ = ⟨m.assignments.entries⟩ := by rw [hentries]
      _ = m.assignments := rfl
  tables := by
    have htables := h.tables_eq
    rw [List.append_nil] at htables
    calc m'.tables = ⟨m'.tables.entries⟩ := rfl
      _ = ⟨m.tables.entries⟩ := by rw [htables]
      _ = m.tables := rfl

end Model

namespace Operation

open Model

variable {m m' : Model R}

/-- Whether the operation puts a block together from several signals, drivers and tables. -/
def isBlock : Operation R → Bool
  | fromTable .. | discreteSystem .. | equationSystem .. | counter .. | history .. | delay ..
  | transferFunction .. => true
  | _ => false

variable [Numerics R]

/-- What a block leaves in a model if it fails. -/
inductive Leaves (m m' : Model R) : Operation R → Prop
  /-- Nothing but nodes. -/
  | nothing {op} (h : m.Unchanged m') : Leaves m m' op
  /-- The table, as its output cannot be driven. -/
  | table {output name table address} (hrefused : m.RefusesTable output table)
    (h : m.Adds Rounding.any true {} [] [] [(name, table)] m') :
    Leaves m m' (fromTable output name table address)
  /-- Drivers of some first ones of the states and outputs. -/
  | drivers {system inputs states outputs mode clocking}
    (h : m.LeavesDriven Rounding.any clocking (states ++ outputs) m') :
    Leaves m m' (discreteSystem system inputs states outputs mode clocking)
  | solution {equations given clocking} (h : m.LeavesDriven Rounding.any clocking
      ((inferRoles m equations given).states ++ (inferRoles m equations given).outputs) m') :
    Leaves m m' (equationSystem equations given clocking)
  /-- The signal of the counter, which nothing drives. -/
  | counter {name width init wrap clocking}
    (h : m.Adds Rounding.any true clocking [counterSignal name width init] [] [] m') :
    Leaves m m' (counter name width init wrap clocking)
  /-- Some first registers, each of which loads the one before it, and perhaps the signal of the
  next one. -/
  | history {x length clocking}
    (h : m.LeavesRegisters Rounding.any clocking (m.store.signal x) x 1 (length - 1) m') :
    Leaves m m' (history x length clocking)
  | delay {x cycles clocking}
    (h : m.LeavesRegisters Rounding.any clocking (m.store.signal x) x 1 ((cycles + 1).toNat - 1)
      m') :
    Leaves m m' (delay x cycles clocking)
  /-- A part of the delay lines of input and output, or all of them. -/
  | lines {input output num den clocking dt t} (hdt : m.dt = some dt)
    (ht : TransferFunction.ofCoefficients num den = .ok t)
    (h : m.LeavesLines Rounding.any clocking input output
      (TransferFunction.ofStateSpace (t.toStateSpace.discretize dt)).order m') :
    Leaves m m' (transferFunction input output num den clocking)

/-- A block that fails leaves a part of itself. -/
theorem block_ends (hm : m.WellFormed Rounding.any) {op : Operation R} (hop : op.isBlock = true)
    (hv : op.Valid m) : Ends op.perform m (fun m' => op.Leaves m m') fun _ _ => True := by
  have hc := hv.clocking_known
  have hsignal : ∀ {x : SignalId}, Operand.signal x ∈ op.operands → x < m.store.signals.size :=
    fun hx => hv _ hx
  cases op with
  | equationSystem equations given clocking =>
    exact (addEquations_ends hm hc hv.equations.1 hv.equations.2).imp
      (fun _ h => h.elim (fun h => .nothing h.unchanged) .solution) fun _ _ _ => trivial
  | discreteSystem system inputs states outputs mode clocking =>
    obtain ⟨hinputs, hstates, houtputs, hmode⟩ := hv.system
    exact (addDiscreteSystem_ends hm hc system hinputs hstates houtputs hmode).imp
      (fun _ h => h.elim (fun h => .nothing h.unchanged) .drivers) fun _ _ _ => trivial
  | counter name width init wrap clocking =>
    exact ((addCounter_ends hm hc name width init wrap).imp
      (fun _ h => h.elim (fun h => .nothing h.unchanged) fun h => .counter h.2)
      fun _ _ => id).map fun _ _ _ => trivial
  | history x length clocking =>
    exact ((makeHistory_ends hm hc (hsignal (by simp [operands])) length).imp (fun _ => .history)
      fun _ _ => id).map fun _ _ _ => trivial
  | delay x cycles clocking =>
    exact ((delay_ends hm hc (hsignal (by simp [operands])) cycles).imp (fun _ => .delay)
      fun _ _ => id).map fun _ _ _ => trivial
  | transferFunction input output num den clocking =>
    refine (setTransferFunction_ends hm hc (hsignal (by simp [operands]))
      (hsignal (by simp [operands])) num den).imp ?_ fun _ _ _ => trivial
    rintro m' (h | ⟨dt, t, hdt, ht, h⟩)
    · exact .nothing h.unchanged
    · exact .lines hdt ht h
  | fromTable output name table address =>
    refine (setFromTable_ends hm hc (hsignal (by simp [operands])) name table
      (hv address (by simp [operands]))).imp ?_ fun _ _ _ => trivial
    rintro m' (h | ⟨h, hrefused⟩)
    · exact .nothing h.unchanged
    · exact .table hrefused h
  | _ => cases hop

/-- A block that fails changes nothing that was in the model before. It leaves nothing or a part of
itself: its table if the output is refused, drivers of some first ones of its states and outputs, the
signal of the counter, or some first registers of its delay lines. -/
theorem failed_block_leaves (hb : m.Built fun _ _ => True) {op : Operation R}
    (hop : op.isBlock = true) (hv : op.Valid m) {e : Error}
    (h : outcome op.perform m = (.error e, m')) :
    (m'.Built fun _ _ => True) ∧ op.Leaves m m' := by
  have hm := hb.wellFormed_any
  have hbuilt : (outcome op.perform m).2.Built fun _ _ => True := hb.perform op hv trivial
  rw [h] at hbuilt
  exact ⟨hbuilt, (block_ends hm hop hv).elim_error h⟩

/-- A model with an input `x` and another one whose name is that of its second register. -/
def lineModel : Model ℚ :=
  Model.performAll { name := "m", dt := none }
    [.digitalInput "x" 2 .unsigned, .digitalInput "x_2" 2 .unsigned]

theorem lineModel_built : lineModel.Built fun _ _ => True :=
  .ofOperations (by decide +kernel)

/-- The delay line of `x` fails at its second register, and the first one stays. -/
theorem failed_block_leaves_line :
    (lineModel.Built fun _ _ => True) ∧
    ∃ e m', outcome (history 0 4 {}).perform lineModel = (.error e, m') ∧
      m'.store.signals.size = 3 ∧ m'.assignments.keys = [2] ∧
      (history 0 4 {} : Operation ℚ).Leaves lineModel m' := by
  obtain ⟨e, he⟩ := exists_of_isOk_eq_false (s := lineModel) (x := (history 0 4 {}).perform)
    (by decide +kernel)
  exact ⟨lineModel_built, e, _, he, by decide +kernel, by decide +kernel,
    (failed_block_leaves lineModel_built rfl (by decide +kernel) he).2⟩

/-- A model with a bit `a`, a real output `y` and an integer output `z`. -/
def tableModel : Model ℚ :=
  Model.performAll { name := "m", dt := none } [.digitalInput "a" 1 .unsigned,
    .analogOutput "y" 0, .digitalOutput "z" 2 .unsigned 0]

/-- A table of integers that drives an output. -/
def driveFromTable (output : SignalId) : Operation ℚ :=
  fromTable output "t" (.int ⟨[1, 2], .unsigned, 2⟩) (.signal 0)

/-- A table that is refused for `y` stays in the model, and then it is refused for `z` too. -/
theorem refused_table_stays :
    (tableModel.Built fun _ _ => True) ∧ (driveFromTable 1).isBlock = true ∧
    (driveFromTable 1).Valid tableModel ∧
    ∃ e m', outcome (driveFromTable 1).perform tableModel = (.error e, m') ∧
      tableModel.tables.keys = [] ∧ m'.tables.keys = ["t"] ∧
      (outcome (driveFromTable 2).perform tableModel).1.isOk = true ∧
      (outcome (driveFromTable 2).perform m').1.isOk = false := by
  obtain ⟨e, he⟩ := exists_of_isOk_eq_false (s := tableModel) (x := (driveFromTable 1).perform)
    (by decide +kernel)
  refine ⟨.ofOperations ?_, rfl, ?_, e, _, he, ?_, ?_, ?_, ?_⟩
  all_goals decide +kernel

end Operation

end MixedSignal
