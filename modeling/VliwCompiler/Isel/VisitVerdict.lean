import VliwCompiler.Isel.Verdict

/-!
# Verdicts on visited blocks

The loop over the worklist lowers the instructions of the blocks it visits one
after another.  The first of them that is not lowered decides.
-/

namespace VliwCompiler.Isel

open Llvm (Instruction)

section

variable (module : Llvm.Module) (memorySize : Nat) (function : Llvm.Function)

/-- The instructions of the blocks in the order in which they are visited. -/
def visitedInstructions : List Instruction :=
  (blockOrder function).flatMap (instructionsOf function)

/-- The verdict on instructions after those of `seen`: that of the first one
that is not lowered. -/
def verdictAfter : List Instruction → List Instruction → Verdict
  | _, [] => .lowered
  | seen, instruction :: rest =>
      (verdict module memorySize function seen instruction).andThen
        (verdictAfter (seen ++ [instruction]) rest)

/-- Parameters are integers or pointers. -/
def paramsBound : Bool :=
  function.params.all fun param => isInteger param.type || param.type = .ptr

end

section

variable {module : Llvm.Module} {memorySize : Nat} {function : Llvm.Function}
  {traversal : Traversal} {label : String} {seen : List Instruction} {selection : Selection}

theorem Verdict.andThen_assoc (first second third : Verdict) :
    (first.andThen second).andThen third = first.andThen (second.andThen third) := by
  cases first <;> rfl

theorem verdictAfter_append (seen first second : List Instruction) :
    verdictAfter module memorySize function seen (first ++ second) =
      (verdictAfter module memorySize function seen first).andThen
        (verdictAfter module memorySize function (seen ++ first) second) := by
  induction first generalizing seen with
  | nil => simp [verdictAfter, Verdict.andThen]
  | cons instruction first ih =>
      rw [List.cons_append, verdictAfter, verdictAfter, ih, Verdict.andThen_assoc,
        List.append_assoc, List.singleton_append]

theorem bindParams_cases (params : List Llvm.Param) :
    if params.all fun param => isInteger param.type || param.type = .ptr then
      ∃ selection, bindParams params = .ok selection
    else bindParams params = .error (.panic "unsupported function parameter type") := by
  unfold bindParams
  generalize ({} : Selection) = start
  induction params generalizing start with
  | nil => exact ⟨start, rfl⟩
  | cons param params ih =>
      rw [List.all_cons, List.foldlM_cons]
      cases isType : param.type with
      | int | ptr => exact ih (start.bindVreg param.ref)
      | void | other => rfl

/-- What becomes of instructions in a row. -/
theorem hasVerdict_foldlM {instructions : List Instruction}
    (targets : ∀ instruction ∈ instructions, ∀ block ∈ instruction.operation.blocks,
      block < function.blocks.length)
    (recorded : Recorded function seen selection) :
    HasVerdict (instructions.foldlM
      (lowerInstruction module memorySize (labelOf function) label) selection)
      (verdictAfter module memorySize function seen instructions) := by
  induction instructions generalizing seen selection with
  | nil => exact ⟨selection, rfl⟩
  | cons instruction instructions ih =>
      rcases List.forall_mem_cons.mp targets with ⟨first, others⟩
      rw [List.foldlM_cons, verdictAfter]
      refine (hasVerdict_lowerInstruction recorded first).bind ?_
      intro middle lowered
      exact ih others (recorded.afterInstruction lowered)

theorem targets_of_isSsa (isSsa : function.IsSsa) :
    ∀ instruction ∈ instructionsOf function label, ∀ block ∈ instruction.operation.blocks,
      block < function.blocks.length :=
  fun instruction instructionMem => isSsa.blocks instruction (mem_instructions instructionMem)

/-- What becomes of a block that is visited. -/
theorem hasVerdict_visitBlock (isSsa : function.IsSsa) (isLabel : label ∈ blockLabels function)
    (recorded : Recorded function seen traversal.selection) :
    HasVerdict (visitBlock module memorySize function label traversal)
      (verdictAfter module memorySize function seen (instructionsOf function label)) := by
  rcases exists_bbOf isLabel with ⟨block, isBlock⟩
  have targets : ∀ instruction ∈ instructionsOf function label,
      ∀ block ∈ instruction.operation.blocks, block < function.blocks.length :=
    targets_of_isSsa isSsa
  rw [instructionsOf_eq isBlock] at targets ⊢
  unfold visitBlock lowerBlock
  rw [isBlock]
  have begun : Recorded function seen (traversal.selection.begin label) :=
    recorded.congr rfl rfl
  exact ((hasVerdict_foldlM targets begun).map _).map _

/-- An empty worklist leaves no blocks to be visited. -/
theorem OnTheWay.rest_eq_nil {fuel : Nat} {rest : List String}
    (onTheWay : OnTheWay function fuel traversal) (isNext : traversal.worklist = [])
    (isOrder : blockOrder function = traversal.visited ++ rest) : rest = [] := by
  have isLast := onTheWay.order
  have stays : Worklist.order (successorsOf function) fuel [] traversal.visited =
      traversal.visited := by
    cases fuel <;> simp [Worklist.order]
  rw [isNext, stays, isOrder] at isLast
  simpa using isLast

/-- What becomes of the blocks that are still to be visited. -/
theorem hasVerdict_traverse (isSsa : function.IsSsa) {fuel : Nat} {rest : List String}
    (state : LoopState module memorySize function traversal)
    (onTheWay : OnTheWay function fuel traversal)
    (isOrder : blockOrder function = traversal.visited ++ rest) :
    HasVerdict (traverse module memorySize function fuel traversal)
      (verdictAfter module memorySize function
        (traversal.visited.flatMap (instructionsOf function))
        (rest.flatMap (instructionsOf function))) := by
  induction fuel generalizing traversal rest with
  | zero =>
      cases isNext : traversal.worklist with
      | cons label pending =>
          rcases onTheWay.pos isNext with ⟨less, impossible⟩
          cases impossible
      | nil =>
          cases onTheWay.rest_eq_nil isNext isOrder
          unfold traverse
          rw [isNext]
          exact ⟨traversal, rfl⟩
  | succ fuel ih =>
      unfold traverse
      cases isNext : traversal.worklist with
      | nil =>
          cases onTheWay.rest_eq_nil isNext isOrder
          exact ⟨traversal, rfl⟩
      | cons label pending =>
          dsimp only
          by_cases isVisited : label ∈ traversal.visited
          · rw [if_pos isVisited]
            exact ih (state.skip isNext isVisited) (onTheWay.skip isNext isVisited) isOrder
          · rw [if_neg isVisited]
            rcases state.blockOrder_eq isNext isVisited with ⟨back, isBack⟩
            have isRest : rest = label :: back := List.append_cancel_left (isOrder.symm.trans isBack)
            subst isRest
            rw [List.flatMap_cons, verdictAfter_append]
            have isLabel := onTheWay.exploring.pendingInside label (isNext ▸ List.mem_cons_self)
            have before : Recorded function (traversal.visited.flatMap (instructionsOf function))
                { traversal with worklist := pending }.selection := state.recorded
            refine (hasVerdict_visitBlock isSsa isLabel before).bind ?_
            intro after visited
            have isAfter : after.visited = traversal.visited ++ [label] := by
              rcases visitBlock_eq_ok visited with ⟨block, selection, -, -, enqueued⟩
              exact enqueued.visited
            have isRest : blockOrder function = after.visited ++ back := by
              rw [isAfter, List.append_assoc]
              exact isBack
            have next := ih (state.visit isNext isVisited visited)
              (onTheWay.visit isNext isVisited visited) isRest
            rwa [isAfter, List.flatMap_append, List.flatMap_singleton] at next

/-- What becomes of the instructions of a function. -/
theorem hasVerdict_selectFunction (isSsa : function.IsSsa) (params : paramsBound function = true) :
    HasVerdict (selectFunction module memorySize function)
      (verdictAfter module memorySize function [] (visitedInstructions function)) := by
  rcases exists_labelOf (List.length_pos_iff.mpr isSsa.entry) with ⟨entry, isEntry⟩
  have bound := bindParams_cases function.params
  rw [paramsBound] at params
  rw [params] at bound
  rcases bound with ⟨selection, isBound⟩
  have begun : initialTraversal function = .ok { selection := selection, worklist := [entry] } := by
    rw [initialTraversal, isEntry, isBound]
    rfl
  unfold selectFunction
  rw [begun]
  exact hasVerdict_traverse isSsa (.start begun) (onTheWay_start begun) (List.nil_append _).symm

/-- Parameters of other types abort instruction selection. -/
theorem selectFunction_of_params (isSsa : function.IsSsa) (params : paramsBound function = false) :
    selectFunction module memorySize function =
      .error (.panic "unsupported function parameter type") := by
  rcases exists_labelOf (List.length_pos_iff.mpr isSsa.entry) with ⟨entry, isEntry⟩
  have bound := bindParams_cases function.params
  rw [paramsBound] at params
  rw [params] at bound
  have isPanic : bindParams function.params =
      .error (.panic "unsupported function parameter type") := bound
  rw [selectFunction, initialTraversal, isEntry, isPanic]
  rfl

end

end VliwCompiler.Isel
