import VliwCompiler.Isel.Rejection

/-!
# Values are defined before they are used

The traversal visits blocks after their dominators and finds the registers of
all integers it needs, provided that the labels of reachable blocks lead back to
them.  Blocks without a name get a label that another block may have as its name.
-/

namespace VliwCompiler.Isel

open Llvm (BlockRef ValueRef Operand Instruction)
open Worklist (Dominates)

/-- Blocks are visited after their dominators, and the expectations that integer
operands have registers hold. -/
structure DefinesFirst (function : Llvm.Function) : Prop where
  dominators : ∀ module memorySize traversal,
    LoopState module memorySize function traversal →
    ∀ (above node : BlockRef) (label : String) (front back : List String),
      above ≠ node → Dominates function.successors 0 above node →
      Found function label node → traversal.visited = front ++ label :: back →
      ∃ aboveLabel ∈ front, Found function aboveLabel above
  operands : ∀ module memorySize traversal label front instruction back selection,
    Reached module memorySize function traversal label front instruction back selection →
    (∀ incoming, instruction.operation ≠ .phi incoming) →
      ∀ key bits, .ref key (.int bits) ∈ instruction.operation.operands →
        ∃ v, selection.vregMap.lookup key = some v
  expectations : ∀ order module memorySize, ∀ message ∈ usedBeforeDefinition,
    lowerFunction order module memorySize function ≠ .error (.panic message)

/-! ### Visited blocks -/

section

variable {module : Llvm.Module} {memorySize : Nat} {function : Llvm.Function}
  {traversal : Traversal} {label : String} {seen : List Instruction}

theorem LoopState.exists_blockOrder (state : LoopState module memorySize function traversal) :
    ∃ rest, blockOrder function = traversal.visited ++ rest := by
  obtain ⟨fuel, onTheWay⟩ := state.onTheWay
  obtain ⟨rest, isRest⟩ := Worklist.exists_order_eq_append (successorsOf function) fuel
    traversal.worklist traversal.visited
  exact ⟨rest, onTheWay.order.symm.trans isRest⟩

theorem LoopState.exists_dominator (state : LoopState module memorySize function traversal)
    (isSsa : function.IsSsa) (resolve : LabelsResolve function) {above node : BlockRef}
    {front back : List String} (differ : above ≠ node)
    (dominates : Dominates function.successors 0 above node)
    (found : Found function label node)
    (isVisited : traversal.visited = front ++ label :: back) :
    ∃ aboveLabel ∈ front, Found function aboveLabel above := by
  rcases state.exists_blockOrder with ⟨rest, isOrder⟩
  rw [isVisited, List.append_assoc, List.cons_append] at isOrder
  exact exists_visited_dominator isSsa resolve differ dominates found isOrder

theorem Reached.exists_vreg (isSsa : function.IsSsa) (resolve : LabelsResolve function)
    {front back : List Instruction} {instruction : Instruction} {selection : Selection}
    (reached : Reached module memorySize function traversal label front instruction back
      selection)
    (notPhi : ∀ incoming, instruction.operation ≠ .phi incoming) {key : ValueRef} {bits : Nat}
    (isOperand : .ref key (.int bits) ∈ instruction.operation.operands) :
    ∃ v, selection.vregMap.lookup key = some v := by
  obtain ⟨rest, isOrder, isInstructions⟩ := reached.place
  refine reached.recorded.exists_vreg ?_
    (known_operand isSsa resolve isOrder isInstructions notPhi isOperand)
  intro other otherMem
  refine isSsa.typed other ?_
  rcases List.mem_append.mp otherMem with isBefore | isFront
  · obtain ⟨name, -, inBlock⟩ := List.mem_flatMap.mp isBefore
    exact mem_instructions inBlock
  · exact mem_instructions (isInstructions ▸ List.mem_append_left _ isFront)

/-! ### Expectations -/

theorem Verdict.andThen_ne_undefined {first second : Verdict} (isFirst : first ≠ .undefined)
    (isSecond : second ≠ .undefined) : first.andThen second ≠ .undefined := by
  cases first with
  | lowered => exact isSecond
  | undefined => exact absurd rfl isFirst
  | rejected | aborts => simp [Verdict.andThen]

theorem outcomeVerdict_ne_undefined {α : Type} (outcome : Outcome α) :
    outcomeVerdict outcome ≠ .undefined := by
  cases outcome with
  | ok result => simp [outcomeVerdict]
  | error failure => cases failure <;> simp [outcomeVerdict]

theorem integerVerdict_ne_undefined {operand : Operand}
    (known : ∀ key bits, operand = .ref key (.int bits) → registered function seen key = true) :
    integerVerdict function seen operand ≠ .undefined := by
  unfold integerVerdict
  split
  · simp
  · simp
  · rename_i key bits
    rw [if_pos (known key bits rfl)]
    simp
  · simp

theorem addressVerdict_ne_undefined (operand : Operand) :
    addressVerdict function seen operand ≠ .undefined := by
  unfold addressVerdict
  split
  · simp
  · simp
  · split <;> simp
  · simp

/-- An instruction whose integer operands have registers is not undefined. -/
theorem verdict_ne_undefined {instruction : Instruction}
    (known : ∀ key bits, .ref key (.int bits) ∈ instruction.operation.operands →
      registered function seen key = true) :
    verdict module memorySize function seen instruction ≠ .undefined := by
  have operand : ∀ operand ∈ instruction.operation.operands,
      integerVerdict function seen operand ≠ .undefined := by
    rintro _ isOperand
    refine integerVerdict_ne_undefined ?_
    rintro key bits rfl
    exact known key bits isOperand
  unfold verdict
  cases isOperation : instruction.operation with
  | phi | br | invoke | atomic | other => simp
  | ret value =>
      rw [isOperation] at known
      dsimp only
      unfold returnVerdict
      split
      · rename_i key bits
        rw [if_pos (known key bits (by simp [Llvm.Operation.operands]))]
        simp
      · simp
  | condBr cond ifTrue ifFalse =>
      dsimp only
      split <;> simp
  | call callee arguments =>
      cases callee with
      | indirect => simp
      | function target =>
          dsimp only
          split
          · simp
          · split <;> simp
  | icmp predicate lhs rhs =>
      rw [isOperation] at operand
      exact Verdict.andThen_ne_undefined (operand lhs (by simp [Llvm.Operation.operands]))
        (Verdict.andThen_ne_undefined (operand rhs (by simp [Llvm.Operation.operands]))
          (outcomeVerdict_ne_undefined _))
  | binary operator lhs rhs =>
      rw [isOperation] at operand
      exact Verdict.andThen_ne_undefined (operand lhs (by simp [Llvm.Operation.operands]))
        (operand rhs (by simp [Llvm.Operation.operands]))
  | store value pointer =>
      rw [isOperation] at operand
      exact Verdict.andThen_ne_undefined (outcomeVerdict_ne_undefined _)
        (Verdict.andThen_ne_undefined (operand value (by simp [Llvm.Operation.operands]))
          (addressVerdict_ne_undefined pointer))
  | load pointer =>
      exact Verdict.andThen_ne_undefined (outcomeVerdict_ne_undefined _)
        (addressVerdict_ne_undefined pointer)
  | getElementPtr element base indices =>
      exact Verdict.andThen_ne_undefined (addressVerdict_ne_undefined base)
        (outcomeVerdict_ne_undefined _)

/-- Only an undefined verdict allows a failed expectation. -/
theorem HasVerdict.message_notMem {α : Type} {outcome : Outcome α} {verdict : Verdict}
    (hasVerdict : HasVerdict outcome verdict) (notUndefined : verdict ≠ .undefined)
    {message : String} (isMessage : message ∈ usedBeforeDefinition) :
    outcome ≠ .error (.panic message) := by
  intro failed
  cases verdict with
  | undefined => exact notUndefined rfl
  | lowered =>
      rcases hasVerdict with ⟨result, isOk⟩
      cases failed.symm.trans isOk
  | rejected =>
      rcases hasVerdict with ⟨error, isError⟩
      cases failed.symm.trans isError
  | aborts =>
      rcases hasVerdict with ⟨failure, ⟨-, notMessage⟩, isFailure⟩
      exact notMessage message isMessage (Except.error.inj (isFailure.symm.trans failed))

theorem selectFunction_message (isSsa : function.IsSsa) (resolve : LabelsResolve function)
    {message : String} (isMessage : message ∈ usedBeforeDefinition) :
    selectFunction module memorySize function ≠ .error (.panic message) := by
  intro failed
  rcases selectFunction_cases module memorySize isSsa.entry with
    ⟨final, isFinal, -⟩ | ⟨failure, isFailure, isError⟩ |
      ⟨failure, isError, current, name, front, instruction, back, selection, reached, fails⟩
  · cases failed.symm.trans isFinal
  · cases failed.symm.trans isError
    have bound := bindParams_cases function.params
    split at bound
    · rcases bound with ⟨selection, isBound⟩
      cases isFailure.symm.trans isBound
    · cases isFailure.symm.trans bound
      revert isMessage
      decide
  · cases failed.symm.trans isError
    rcases reached.place with ⟨rest, isOrder, isInstructions⟩
    have targets := targets_of_isSsa isSsa instruction
      (isInstructions ▸ List.mem_append_right _ List.mem_cons_self)
    refine (hasVerdict_lowerInstruction reached.recorded targets).message_notMem ?_ isMessage fails
    by_cases isPhi : ∃ incoming, instruction.operation = .phi incoming
    · rcases isPhi with ⟨incoming, isPhi⟩
      simp [verdict, isPhi]
    · refine verdict_ne_undefined ?_
      intro key bits isOperand
      refine reached.recorded.registered_iff.mpr (reached.exists_vreg isSsa resolve ?_ isOperand)
      exact not_exists.mp isPhi

theorem phiVerdict_ne_undefined (function : Llvm.Function) : phiVerdict function ≠ .undefined := by
  unfold phiVerdict
  split <;> simp

end

/-- If labels lead back to the blocks visited, values are defined before they are used. -/
theorem definesFirst_of_labelsResolve {function : Llvm.Function} (isSsa : function.IsSsa)
    (resolve : LabelsResolve function) : DefinesFirst function where
  dominators := fun _ _ _ state _ _ _ _ _ differ dominates found isVisited =>
    state.exists_dominator isSsa resolve differ dominates found isVisited
  operands := fun _ _ _ _ _ _ _ _ reached notPhi _ _ isOperand =>
    reached.exists_vreg isSsa resolve notPhi isOperand
  expectations := by
    intro order module memorySize message isMessage failed
    rcases bind_eq_error.mp failed with failed | ⟨traversal, selects, failed⟩
    · exact selectFunction_message isSsa resolve isMessage failed
    · exact (hasVerdict_phis (complete_of_selectFunction isSsa selects) order).message_notMem
        (phiVerdict_ne_undefined function) isMessage failed

/-! ### Two blocks with one label -/

/-- Blocks that edges lead to from the entry block are among those given. -/
theorem labelsResolve_of_closed {function : Llvm.Function} {nodes : List BlockRef}
    (isEntry : 0 ∈ nodes)
    (closed : ∀ node ∈ nodes, (∀ target ∈ (function.successors node).next, target ∈ nodes) ∧
      ∀ target ∈ (function.successors node).later, target ∈ nodes)
    (last : ∀ node ∈ nodes, ∀ other < function.blocks.length,
      (blockLabels function)[other]? = (blockLabels function)[node]? → other ≤ node) :
    LabelsResolve function := by
  rintro node label ⟨path, isPath⟩ isLabel
  have nodeMem : node ∈ nodes := by
    clear isLabel
    induction isPath with
    | start => exact isEntry
    | @step _ before target _ edge ih =>
        rcases edge with isNext | isLater
        · exact (closed before ih).1 target isNext
        · exact (closed before ih).2 target isLater
  refine ⟨isLabel, ?_⟩
  intro other isOther
  refine last node nodeMem other ?_ (isOther.trans isLabel.symm)
  rcases List.getElem?_eq_some_iff.mp isOther with ⟨inside, -⟩
  simpa [blockLabels] using inside

/-- A block without a name after one that no edge leads to and that has its label. -/
def skipBlock : Llvm.Function where
  name := "skip_block"
  params := [⟨0, .int 32⟩]
  returnType := .int 32
  blocks := [
    ⟨"entry", [⟨1, .int 32, .binary .add (.ref 0 (.int 32)) (.constInt 32 1)⟩, ⟨2, .void, .br 2⟩]⟩,
    ⟨"bb2", [⟨3, .void, .ret (some (.ref 0 (.int 32)))⟩]⟩,
    ⟨"", [⟨4, .int 32, .binary .add (.ref 1 (.int 32)) (.constInt 32 1)⟩,
      ⟨5, .void, .ret (some (.ref 4 (.int 32)))⟩]⟩]

theorem definesFirst_skipBlock :
    skipBlock.IsSsa ∧ ¬(blockLabels skipBlock).Nodup ∧ DefinesFirst skipBlock := by
  have isSsa : skipBlock.IsSsa := Llvm.Function.isSsa_of_checkSsa (by decide +kernel)
  have resolve : LabelsResolve skipBlock :=
    labelsResolve_of_closed (List.mem_cons_self : 0 ∈ [0, 2]) (by decide +kernel) (by decide +kernel)
  exact ⟨isSsa, by decide +kernel, definesFirst_of_labelsResolve isSsa resolve⟩

/-- Increments in two blocks; the entry block has no name. -/
def incrementTwice (second : String) : Llvm.Function where
  name := "increment_twice"
  params := [⟨0, .int 32⟩]
  returnType := .int 32
  blocks := [
    ⟨"", [⟨1, .int 32, .binary .add (.ref 0 (.int 32)) (.constInt 32 1)⟩, ⟨2, .void, .br 1⟩]⟩,
    ⟨second, [⟨3, .int 32, .binary .add (.ref 1 (.int 32)) (.constInt 32 1)⟩,
      ⟨4, .void, .ret (some (.ref 3 (.int 32)))⟩]⟩]

/-- The second block takes the place of the entry block, whose label it has. -/
theorem not_definesFirst_incrementTwice :
    (incrementTwice "bb0").IsSsa ∧ ¬DefinesFirst (incrementTwice "bb0") := by
  refine ⟨Llvm.Function.isSsa_of_checkSsa (by decide +kernel), ?_⟩
  intro definesFirst
  refine definesFirst.expectations insertionOrder [incrementTwice "bb0"] 4096
    "VReg not found; value used before definition" (by decide) ?_
  decide +kernel

end VliwCompiler.Isel
