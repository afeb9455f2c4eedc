import VliwCompiler.Isel.PhiVerdict
import VliwCompiler.Llvm.Check

/-!
# Rejected and aborting functions

A function in SSA form is lowered, rejected with an error, or aborts the
compiler.  The first instruction that is not lowered decides, in the order in
which blocks are visited; after them the phis.
-/

namespace VliwCompiler.Isel

open Llvm (BlockRef ValueRef Operand Instruction)

section

variable (module : Llvm.Module) (memorySize : Nat)

/-- What becomes of a function. -/
def functionVerdict (function : Llvm.Function) : Verdict :=
  if paramsBound function then
    (verdictAfter module memorySize function [] (visitedInstructions function)).andThen
      (phiVerdict function)
  else .aborts

/-- What becomes of a module: what becomes of the first of its functions that is
not lowered. -/
def moduleVerdict : Verdict :=
  (((module.filter (·.blocks ≠ [])).map (functionVerdict module memorySize)).find?
    (· ≠ .lowered)).getD .lowered

end

/-- The functions of a module are in SSA form. -/
def Lowerable (module : Llvm.Module) : Prop :=
  ∀ function ∈ module, function.blocks ≠ [] → function.IsSsa

/-- The compiler returns, with a result or with an error. -/
def LoweringReturns {α : Type} (outcome : Outcome α) : Prop :=
  (∃ result, outcome = .ok result) ∨ ∃ error, outcome = .error (.error error)

/-- A function in SSA form is lowered, rejected or aborts, as its instructions
and phis say. -/
theorem hasVerdict_lowerFunction {function : Llvm.Function} (isSsa : function.IsSsa)
    (order : CopyOrder) (module : Llvm.Module) (memorySize : Nat) :
    HasVerdict (lowerFunction order module memorySize function)
      (functionVerdict module memorySize function) := by
  unfold functionVerdict lowerFunction
  cases params : paramsBound function with
  | false =>
      rw [selectFunction_of_params isSsa params]
      exact hasVerdict_panic (by decide)
  | true =>
      refine (hasVerdict_selectFunction isSsa params).bind ?_
      intro traversal selects
      exact hasVerdict_phis (complete_of_selectFunction isSsa selects) order

theorem hasVerdict_lowerAllFunctions {module : Llvm.Module} (lowerable : Lowerable module)
    (orders : Nat → CopyOrder) (memorySize : Nat) :
    HasVerdict (lowerAllFunctions orders module memorySize) (moduleVerdict module memorySize) := by
  have verdicts : ∀ function ∈ module.filter (·.blocks ≠ []), ∀ k,
      HasVerdict (lowerFunction (orders k) module memorySize function)
        (functionVerdict module memorySize function) := by
    intro function functionMem k
    rcases List.mem_filter.mp functionMem with ⟨isFunction, hasBody⟩
    exact hasVerdict_lowerFunction
      (lowerable function isFunction (of_decide_eq_true hasBody)) (orders k) module memorySize
  unfold lowerAllFunctions moduleVerdict
  generalize module.filter (·.blocks ≠ []) = functions at verdicts
  generalize 0 = start
  induction functions generalizing start with
  | nil => exact ⟨[], rfl⟩
  | cons function functions ih =>
      rcases List.forall_mem_cons.mp verdicts with ⟨first, others⟩
      have isFirst := first start
      rw [List.zipIdx_cons, List.mapM_cons, List.map_cons, List.find?_cons]
      dsimp only
      cases outcome : lowerFunction (orders start) module memorySize function with
      | error failure =>
          rw [outcome] at isFirst
          rcases isFirst.of_error (β := List Mir.Function) with ⟨notLowered, passed⟩
          rw [decide_eq_true notLowered]
          exact passed
      | ok mir =>
          rw [outcome] at isFirst
          rw [isFirst.of_ok]
          exact (ih others (start + 1)).map _

theorem HasVerdict.returns_iff {α : Type} {outcome : Outcome α} {verdict : Verdict}
    (hasVerdict : HasVerdict outcome verdict) :
    LoweringReturns outcome ↔ verdict = .lowered ∨ verdict = .rejected := by
  unfold LoweringReturns
  cases verdict with
  | lowered => exact iff_of_true (.inl hasVerdict) (by simp)
  | rejected => exact iff_of_true (.inr hasVerdict) (by simp)
  | aborts =>
      rcases hasVerdict with ⟨failure, ⟨notError, -⟩, isFailure⟩
      refine iff_of_false ?_ (by simp)
      rintro (⟨result, isOk⟩ | ⟨error, isError⟩)
      · cases isFailure.symm.trans isOk
      · exact notError error (Except.error.inj (isFailure.symm.trans isError))
  | undefined =>
      rcases hasVerdict with ⟨message, -, isPanic⟩
      refine iff_of_false ?_ (by simp)
      rintro (⟨result, isOk⟩ | ⟨error, isError⟩)
      · cases isPanic.symm.trans isOk
      · cases isPanic.symm.trans isError

/-- Instruction selection returns exactly when all functions are lowered or the first
one that is not is rejected. -/
theorem lowerAllFunctions_returns_iff {module : Llvm.Module} (lowerable : Lowerable module)
    (orders : Nat → CopyOrder) (memorySize : Nat) :
    LoweringReturns (lowerAllFunctions orders module memorySize) ↔
      moduleVerdict module memorySize = .lowered ∨ moduleVerdict module memorySize = .rejected :=
  (hasVerdict_lowerAllFunctions lowerable orders memorySize).returns_iff

/-! ### A branch on a constant -/

/-- A function that branches on a constant. -/
def constantBranch : Llvm.Function where
  name := "pick"
  params := []
  returnType := .int 32
  blocks := [
    ⟨"entry", [⟨0, .void, .condBr (.constInt 1 1) 1 2⟩]⟩,
    ⟨"one", [⟨1, .void, .ret (some (.constInt 32 1))⟩]⟩,
    ⟨"two", [⟨2, .void, .ret (some (.constInt 32 2))⟩]⟩]

/-- A module that is accepted by the subset check aborts instruction selection. -/
theorem constantBranch_aborts :
    Llvm.checkModule [constantBranch] = .ok () ∧ Lowerable [constantBranch] ∧
      ¬LoweringReturns (lowerAllFunctions (fun _ => insertionOrder) [constantBranch] 4096) := by
  have aborts : lowerAllFunctions (fun _ => insertionOrder) [constantBranch] 4096 =
      .error (.panic "branch condition not in vreg_map") := by decide +kernel
  refine ⟨by decide +kernel, List.forall_mem_singleton.mpr fun _ =>
    Llvm.Function.isSsa_of_checkSsa (by decide +kernel), ?_⟩
  rw [aborts]
  rintro (⟨result, isOk⟩ | ⟨error, isError⟩)
  · cases isOk
  · cases isError

/-! ### Blocks with one label -/

/-- Two branches that meet; the second one has the label of the first. -/
def sharedLabel : Llvm.Function where
  name := "choose"
  params := [⟨0, .int 1⟩, ⟨1, .int 32⟩]
  returnType := .int 32
  blocks := [
    ⟨"entry", [⟨2, .void, .condBr (.ref 0 (.int 1)) 1 2⟩]⟩,
    ⟨"bb2", [⟨3, .void, .br 3⟩]⟩,
    ⟨"", [⟨4, .void, .br 3⟩]⟩,
    ⟨"join", [⟨5, .int 32, .phi [(.ref 1 (.int 32), 1), (.constInt 32 7, 2)]⟩,
      ⟨6, .void, .ret (some (.ref 5 (.int 32)))⟩]⟩]

/-- Instruction selection returns although two blocks have the same label. -/
theorem lowerAllFunctions_returns_iff_sharedLabel :
    LoweringReturns (lowerAllFunctions (fun _ => insertionOrder) [sharedLabel] 4096) := by
  refine (lowerAllFunctions_returns_iff ?_ _ _).mpr (.inl (by decide +kernel))
  exact List.forall_mem_singleton.mpr fun _ =>
    Llvm.Function.isSsa_of_checkSsa (by decide +kernel)

end VliwCompiler.Isel
