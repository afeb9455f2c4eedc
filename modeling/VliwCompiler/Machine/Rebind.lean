import VliwCompiler.Machine.Rename

/-!
# Rebinding registers

An operation may read its operands from other registers than before and write
its result to yet another one.  When the new operands hold the old values it
computes the same result.
-/

namespace VliwCompiler.Machine

variable {Op R S : Type}

/-- Read operands from other registers and write the result to another one. -/
def Action.rebind (source dst : S → R) : Action Op S → Action Op R
  | .compute op target srcs => .compute op (target.map dst) (srcs.map (·.map source))
  | .test op target srcs => .test op (target.map dst) (srcs.map (·.map source))
  | .load op width target base offset => .load op width (target.map dst) (source base) offset
  | .store width base offset data => .store width (source base) offset (data.map source)
  | .acquire op target srcs => .acquire op (target.map dst) (srcs.map (·.map source))
  | .release op srcs => .release op (srcs.map (·.map source))
  | .skip => .skip

namespace Action

@[simp]
theorem gprDst_rebind (source dst : S → R) (action : Action Op S) :
    (action.rebind source dst).gprDst = action.gprDst.map dst := by
  cases action <;> rfl

@[simp]
theorem predDst_rebind (source dst : S → R) (action : Action Op S) :
    (action.rebind source dst).predDst = action.predDst.map dst := by
  cases action <;> rfl

theorem sources_rebind (source dst : S → R) (action : Action Op S) :
    (action.rebind source dst).sources = action.sources.map (·.map source) := by
  cases action <;> rfl

section

variable [DecidableEq R] [Zero R] [DecidableEq S] [Zero S] {source : S → R}
  {before : State S} {after : State R} {action : Action Op S}
  (reads : ∀ operand ∈ action.sources, (operand.map source).read after = operand.read before)
include reads

theorem readGpr_of_reads {reg : S} (isSource : Source.gpr reg ∈ action.sources) :
    after.readGpr (source reg) = before.readGpr reg :=
  Datum.word.inj (reads _ isSource)

/-- The result only depends on the values read. -/
theorem effect_rebind (dst : S → R) (isa : Isa Op)
    (memory : ∀ cell ∈ action.memReads before, after.mem cell = before.mem cell) :
    (action.rebind source dst).effect isa after = (action.effect isa before).map dst := by
  have readAll : ∀ srcs : List (Source S), (∀ operand ∈ srcs, operand ∈ action.sources) →
      (srcs.map (·.map source)).map (·.read after) = srcs.map (·.read before) := by
    intro srcs included
    rw [List.map_map]
    exact List.map_congr_left fun operand operandMem => reads operand (included _ operandMem)
  cases action with
  | compute op target srcs =>
      simp only [rebind, effect, Effect.map, readAll srcs fun _ => id]
      cases target <;> rfl
  | test op target srcs =>
      simp only [rebind, effect, Effect.map, readAll srcs fun _ => id]
      cases target <;> rfl
  | load op width target base offset =>
      have sameBase : after.readGpr (source base) = before.readGpr base :=
        readGpr_of_reads reads (by simp [sources])
      have sameRaw : after.mem.read (before.readGpr base + offset) width =
          before.mem.read (before.readGpr base + offset) width := Memory.read_congr memory
      simp only [rebind, effect, Effect.map, sameBase, sameRaw]
      cases target <;> rfl
  | store width base offset data =>
      have sameBase : after.readGpr (source base) = before.readGpr base :=
        readGpr_of_reads reads (by simp [sources])
      have sameData := reads data (by simp [sources])
      simp only [rebind, effect, Effect.map, sameBase, sameData]
      rfl
  | acquire op target srcs =>
      have sameMem : after.mem = before.mem := funext fun cell => memory cell (Set.mem_univ cell)
      simp only [rebind, effect, Effect.map, readAll srcs fun _ => id, sameMem]
      cases target <;> rfl
  | release op srcs =>
      simp only [rebind, effect, Effect.map, readAll srcs fun _ => id]
      rfl
  | skip => rfl

theorem memWrites_rebind (dst : S → R) :
    (action.rebind source dst).memWrites after = action.memWrites before := by
  cases action with
  | store width base offset data =>
      have sameBase : after.readGpr (source base) = before.readGpr base :=
        readGpr_of_reads reads (by simp [sources])
      simp only [rebind, memWrites, sameBase]
  | release op srcs => rfl
  | compute op target srcs => rfl
  | test op target srcs => rfl
  | load op width target base offset => rfl
  | acquire op target srcs => rfl
  | skip => rfl

end

/-! ### What an action leaves alone -/

section

variable [DecidableEq R] [Zero R] (isa : Isa Op) (action : Action Op R) (state : State R)

theorem exec_gpr_of_ne {reg : R} (other : action.gprDst ≠ some reg) :
    (action.exec isa state).gpr reg = state.gpr reg := by
  have written := effect_gpr_fst isa action state
  unfold exec Effect.apply
  cases isWrite : (action.effect isa state).gpr with
  | none => rfl
  | some write =>
      rw [isWrite, Option.map_some] at written
      have different : reg ≠ write.1 := fun same => other (by rw [← written, same])
      by_cases isZero : write.1 = 0
      · simp only [if_pos isZero]
      · simp only [if_neg isZero, Function.update_of_ne different]

/-- The zero register is never written. -/
theorem exec_gpr_zero : (action.exec isa state).gpr 0 = state.gpr 0 := by
  unfold exec Effect.apply
  cases (action.effect isa state).gpr with
  | none => rfl
  | some write =>
      by_cases isZero : write.1 = 0
      · simp only [if_pos isZero]
      · simp only [if_neg isZero, Function.update_of_ne (Ne.symm isZero)]

theorem exec_gpr_of_eq {reg : R} {value : Word}
    (written : (action.effect isa state).gpr = some (reg, value)) (nonzero : reg ≠ 0) :
    (action.exec isa state).gpr reg = value := by
  simp [exec, Effect.apply, written, nonzero]

theorem exec_pred_of_eq {reg : R} {value : Bool}
    (written : (action.effect isa state).pred = some (reg, value)) :
    (action.exec isa state).pred reg = value := by
  simp [exec, Effect.apply, written]

theorem exists_gpr_write {reg : R} (isDst : action.gprDst = some reg) :
    ∃ value, (action.effect isa state).gpr = some (reg, value) := by
  rw [← effect_gpr_fst isa action state] at isDst
  obtain ⟨write, isWrite, rfl⟩ := Option.map_eq_some_iff.mp isDst
  exact ⟨write.2, isWrite⟩

theorem exists_pred_write {reg : R} (isDst : action.predDst = some reg) :
    ∃ value, (action.effect isa state).pred = some (reg, value) := by
  rw [← effect_pred_fst isa action state] at isDst
  obtain ⟨write, isWrite, rfl⟩ := Option.map_eq_some_iff.mp isDst
  exact ⟨write.2, isWrite⟩

theorem exec_pred_of_ne {reg : R} (other : action.predDst ≠ some reg) :
    (action.exec isa state).pred reg = state.pred reg := by
  have written := effect_pred_fst isa action state
  unfold exec Effect.apply
  cases isWrite : (action.effect isa state).pred with
  | none => rfl
  | some write =>
      rw [isWrite, Option.map_some] at written
      have different : reg ≠ write.1 := fun same => other (by rw [← written, same])
      simp only [Function.update_of_ne different]

theorem exec_mem_of_notMem {cell : Word} (untouched : cell ∉ action.memWrites state) :
    (action.exec isa state).mem cell = state.mem cell :=
  Memory.write_apply_of_notMem _ fun written =>
    untouched (mem_memWrites_of_mem_effect isa action state written)

end

end Action

end VliwCompiler.Machine
