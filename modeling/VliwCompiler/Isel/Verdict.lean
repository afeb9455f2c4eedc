import VliwCompiler.Isel.Dominance

/-!
# Verdicts on instructions

Instruction selection lowers an instruction, rejects it with an error, or
aborts; it also aborts where it expects an integer to have a register and it has
none.  The instruction and those lowered before it decide which of these happens.
-/

namespace VliwCompiler.Isel

open Asm (I64)
open Llvm (BlockRef ValueRef Ty Operand Instruction)

/-! ### Verdicts -/

/-- What becomes of a piece of input. -/
inductive Verdict where
  | lowered
  | rejected
  | aborts
  | undefined
  deriving DecidableEq, Repr

/-- The verdict on one piece and, if it is lowered, another. -/
def Verdict.andThen : Verdict → Verdict → Verdict
  | .lowered, next => next
  | verdict, _ => verdict

/-- Messages of expectations on the registers of integers. -/
def usedBeforeDefinition : List String :=
  ["VReg not found; value used before definition", "return value not in vreg_map"]

/-- The outcome of a computation is as the verdict says. -/
def HasVerdict {α : Type} (outcome : Outcome α) : Verdict → Prop
  | .lowered => ∃ result, outcome = .ok result
  | .rejected => ∃ error, outcome = .error (.error error)
  | .aborts => ∃ failure, ((∀ error, failure ≠ .error error) ∧
      ∀ message ∈ usedBeforeDefinition, failure ≠ .panic message) ∧ outcome = .error failure
  | .undefined => ∃ message ∈ usedBeforeDefinition, outcome = .error (.panic message)

section

variable {α β : Type} {outcome : Outcome α} {verdict other : Verdict} {message : String}

theorem hasVerdict_panic (notExpected : message ∉ usedBeforeDefinition) :
    HasVerdict (.error (.panic message) : Outcome α) .aborts := by
  refine ⟨.panic message, ⟨by simp, ?_⟩, rfl⟩
  rintro _ isMessage ⟨⟩
  exact notExpected isMessage

theorem hasVerdict_diverges : HasVerdict (.error .diverges : Outcome α) .aborts :=
  ⟨.diverges, ⟨by simp, by simp⟩, rfl⟩

theorem HasVerdict.of_ok {result : α} (hasVerdict : HasVerdict (.ok result : Outcome α) verdict) :
    verdict = .lowered := by
  cases verdict with
  | lowered => rfl
  | rejected =>
      rcases hasVerdict with ⟨error, isError⟩
      cases isError
  | aborts =>
      rcases hasVerdict with ⟨failure, -, isError⟩
      cases isError
  | undefined =>
      rcases hasVerdict with ⟨message, -, isError⟩
      cases isError

/-- A failure passes its verdict on. -/
theorem HasVerdict.of_error {failure : Failure}
    (hasVerdict : HasVerdict (.error failure : Outcome α) verdict) :
    verdict ≠ .lowered ∧ HasVerdict (.error failure : Outcome β) verdict := by
  cases verdict with
  | lowered =>
      rcases hasVerdict with ⟨result, isOk⟩
      cases isOk
  | rejected =>
      rcases hasVerdict with ⟨error, isError⟩
      cases isError
      exact ⟨by simp, error, rfl⟩
  | aborts =>
      rcases hasVerdict with ⟨failure, isOther, isError⟩
      cases isError
      exact ⟨by simp, failure, isOther, rfl⟩
  | undefined =>
      rcases hasVerdict with ⟨message, isMessage, isError⟩
      cases isError
      exact ⟨by simp, message, isMessage, rfl⟩

theorem Verdict.andThen_of_ne (notLowered : verdict ≠ .lowered) : verdict.andThen other = verdict := by
  cases verdict with
  | lowered => exact absurd rfl notLowered
  | _ => rfl

/-- The verdict on a computation in two steps. -/
theorem HasVerdict.bind {next : α → Outcome β} (first : HasVerdict outcome verdict)
    (rest : ∀ result, outcome = .ok result → HasVerdict (next result) other) :
    HasVerdict (outcome >>= next) (verdict.andThen other) := by
  cases outcome with
  | error failure =>
      rcases first.of_error (β := β) with ⟨notLowered, passed⟩
      rw [Verdict.andThen_of_ne notLowered]
      exact passed
  | ok result =>
      rw [first.of_ok]
      exact rest result rfl

theorem Verdict.andThen_eq_lowered :
    verdict.andThen other = .lowered ↔ verdict = .lowered ∧ other = .lowered := by
  cases verdict <;> simp [Verdict.andThen]

theorem Verdict.andThen_lowered (verdict : Verdict) : verdict.andThen .lowered = verdict := by
  cases verdict <;> rfl

/-- The verdict does not depend on what is made of a result. -/
theorem HasVerdict.map (build : α → β) (hasVerdict : HasVerdict outcome verdict) :
    HasVerdict (outcome >>= fun result => pure (build result)) verdict := by
  rw [← verdict.andThen_lowered]
  exact hasVerdict.bind fun result _ => ⟨build result, rfl⟩

end

/-- The verdict on a computation that expects nothing of the registers of integers. -/
def outcomeVerdict {α : Type} : Outcome α → Verdict
  | .ok _ => .lowered
  | .error (.error _) => .rejected
  | .error _ => .aborts

/-! ### Verdicts on operands -/

/-- The type is an integer type. -/
def isInteger : Ty → Bool
  | .int _ => true
  | _ => false

section

variable (module : Llvm.Module) (memorySize : Nat) (function : Llvm.Function)
  (seen : List Instruction)

/-- The value is a parameter or the result of an instruction lowered before, so it has
a register. -/
def registered (key : ValueRef) : Bool :=
  function.params.any (·.ref = key) ||
    seen.any fun instruction => binds instruction && instruction.ref = key

/-- What becomes of an integer operand. -/
def integerVerdict : Operand → Verdict
  | .constInt _ _ | .const (.int _) => .lowered
  | .ref key (.int _) => if registered function seen key then .lowered else .undefined
  | _ => .aborts

/-- What becomes of a pointer operand. -/
def addressVerdict : Operand → Verdict
  | .constAddress _ _ => .lowered
  | .constCast => .aborts
  | .ref key .ptr =>
      if ((offsetsOf seen).lookup key).isSome || registered function seen key then .lowered
      else .rejected
  | _ => .rejected

/-- What becomes of a return value. -/
def returnVerdict : Option Operand → Verdict
  | some (.ref key (.int _)) => if registered function seen key then .lowered else .undefined
  | _ => .lowered

/-- The operand is an integer constant or has a register. -/
def resolves : Operand → Bool
  | .constInt _ _ => true
  | .ref key _ => registered function seen key
  | _ => false

/-- What becomes of an instruction after those of `seen`. -/
def verdict (instruction : Instruction) : Verdict :=
  match instruction.operation with
  | .phi _ | .br _ => .lowered
  | .ret value => returnVerdict function seen value
  | .condBr cond _ _ => if cond.ref?.any (registered function seen) then .lowered else .aborts
  | .call .indirect _ => .rejected
  | .call (.function target) arguments =>
      if Llvm.countBasicBlocks module target = 0 ∨ 8 < arguments.length then .rejected
      else if arguments.all (resolves function seen) ∧ Addressable memorySize then .lowered
      else .aborts
  | .icmp predicate lhs rhs =>
      (integerVerdict function seen lhs).andThen
        ((integerVerdict function seen rhs).andThen (outcomeVerdict (comparison predicate)))
  | .binary _ lhs rhs =>
      (integerVerdict function seen lhs).andThen (integerVerdict function seen rhs)
  | .store value pointer =>
      (outcomeVerdict (storeOpcode value)).andThen
        ((integerVerdict function seen value).andThen (addressVerdict function seen pointer))
  | .load pointer =>
      (outcomeVerdict (loadOpcode instruction.type)).andThen
        (addressVerdict function seen pointer)
  | .getElementPtr element base indices =>
      (addressVerdict function seen base).andThen
        (outcomeVerdict (foldPointer (offsetsOf seen) element base indices))
  | .invoke | .atomic | .other _ => .rejected

end

/-! ### Operands -/

section

variable {module : Llvm.Module} {memorySize : Nat} {function : Llvm.Function} {label : String}
  {seen : List Instruction} {selection after : Selection} {operand : Operand}
  {instruction : Instruction}

theorem Recorded.registered_iff (recorded : Recorded function seen selection) {key : ValueRef} :
    registered function seen key = true ↔ ∃ v, selection.vregMap.lookup key = some v := by
  simp [registered, recorded.vregs]

/-- A value has a register or is unknown. -/
theorem Recorded.registered_cases (recorded : Recorded function seen selection) (key : ValueRef) :
    (registered function seen key = true ∧ ∃ v, selection.vregMap.lookup key = some v) ∨
      registered function seen key = false ∧ selection.vregMap.lookup key = none := by
  cases isBound : selection.vregMap.lookup key with
  | none =>
      refine .inr ⟨Bool.eq_false_iff.mpr fun isRegistered => ?_, rfl⟩
      rcases recorded.registered_iff.mp isRegistered with ⟨v, isV⟩
      cases isBound.symm.trans isV
  | some v => exact .inl ⟨recorded.registered_iff.mpr ⟨v, isBound⟩, v, rfl⟩

/-- Integer operands. -/
theorem hasVerdict_lowerOperand (recorded : Recorded function seen selection)
    (operand : Operand) :
    HasVerdict (lowerOperand operand selection) (integerVerdict function seen operand) := by
  have notInteger : HasVerdict (.error (.panic "non-integer operand in integer instruction") :
      Outcome (Mir.Value × Selection)) .aborts := hasVerdict_panic (by decide)
  cases operand with
  | constInt bits value => exact ⟨_, rfl⟩
  | constAddress bits value => exact notInteger
  | constCast => exact notInteger
  | const type =>
      cases type with
      | int bits => exact ⟨_, rfl⟩
      | _ => exact notInteger
  | ref key type =>
      cases type with
      | int bits =>
          unfold lowerOperand integerVerdict
          dsimp only [intConstant]
          rcases recorded.registered_cases key with ⟨isRegistered, v, isBound⟩ | ⟨unknown, unbound⟩
          · rw [isBound, if_pos isRegistered]
            exact ⟨_, rfl⟩
          · rw [unbound, if_neg (Bool.eq_false_iff.mp unknown)]
            exact ⟨_, List.mem_cons_self, rfl⟩
      | _ => exact notInteger

/-- Pointer operands. -/
theorem hasVerdict_lowerPtrOperand (recorded : Recorded function seen selection)
    (operand : Operand) :
    HasVerdict (lowerPtrOperand operand selection) (addressVerdict function seen operand) := by
  cases operand with
  | constInt bits value => exact ⟨_, rfl⟩
  | constAddress bits value => exact ⟨_, rfl⟩
  | constCast => exact hasVerdict_panic (by decide)
  | const type => cases type <;> exact ⟨_, rfl⟩
  | ref key type =>
      cases type with
      | ptr =>
          unfold lowerPtrOperand addressVerdict
          dsimp only
          rw [← recorded.offsets]
          cases isFolded : selection.gepMap.lookup key with
          | some folded =>
              rw [if_pos (by simp)]
              exact ⟨_, rfl⟩
          | none =>
              rw [Option.map_none, Option.isSome_none, Bool.false_or]
              rcases recorded.registered_cases key with
                ⟨isRegistered, v, isBound⟩ | ⟨unknown, unbound⟩
              · rw [isBound, if_pos isRegistered]
                exact ⟨_, rfl⟩
              · rw [unbound, if_neg (Bool.eq_false_iff.mp unknown)]
                exact ⟨_, rfl⟩
      | _ => exact ⟨_, rfl⟩

theorem Recorded.afterOperand (recorded : Recorded function seen selection) {value : Mir.Value}
    (lowered : lowerOperand operand selection = .ok (value, after)) :
    Recorded function seen after :=
  recorded.congr (takes_of_lowerOperand lowered).2 (gepMap_of_lowerOperand lowered)

/-- Call arguments and values of phis. -/
theorem exists_callArgument_iff (recorded : Recorded function seen selection) :
    (∃ value, callArgument selection.vregMap operand = .ok value) ↔
      resolves function seen operand = true := by
  cases operand with
  | constInt bits value => exact iff_of_true ⟨_, rfl⟩ rfl
  | constAddress bits value => simp [callArgument, Operand.ref?, expect, resolves, bind, Except.bind]
  | constCast => simp [callArgument, Operand.ref?, expect, resolves, bind, Except.bind]
  | const type => simp [callArgument, Operand.ref?, expect, resolves, bind, Except.bind]
  | ref key type =>
      rw [resolves, recorded.registered_iff]
      cases isBound : selection.vregMap.lookup key with
      | none => simp [callArgument, Operand.ref?, isBound, expect, bind, Except.bind]
      | some v =>
          simp [callArgument, Operand.ref?, isBound, expect, bind, Except.bind, pure, Except.pure]

theorem callArgument_eq_error {vregMap : HashMap ValueRef Nat} {failure : Failure}
    (failed : callArgument vregMap operand = .error failure) :
    failure = .panic "call argument not in vreg_map" := by
  unfold callArgument at failed
  split at failed
  · cases failed
  · rcases bind_eq_error.mp failed with failed | ⟨v, -, done⟩
    · unfold expect at failed
      split at failed
      · cases failed
      · exact (Except.error.inj failed).symm
    · cases done

/-! ### Computations without registers -/

theorem hasVerdict_of_rejecting {α : Type} {outcome : Outcome α}
    (rejecting : ∀ failure, outcome = .error failure → ∃ error, failure = .error error) :
    HasVerdict outcome (outcomeVerdict outcome) := by
  cases outcome with
  | ok result => exact ⟨result, rfl⟩
  | error failure =>
      rcases rejecting failure rfl with ⟨error, rfl⟩
      exact ⟨error, rfl⟩

theorem hasVerdict_comparison (predicate : Llvm.IntPredicate) :
    HasVerdict (comparison predicate) (outcomeVerdict (comparison predicate)) := by
  refine hasVerdict_of_rejecting ?_
  intro failure failed
  cases predicate <;> cases failed <;> exact ⟨_, rfl⟩

theorem hasVerdict_storeOpcode (value : Operand) :
    HasVerdict (storeOpcode value) (outcomeVerdict (storeOpcode value)) := by
  refine hasVerdict_of_rejecting ?_
  intro failure failed
  unfold storeOpcode at failed
  split at failed <;> cases failed <;> exact ⟨_, rfl⟩

theorem hasVerdict_loadOpcode (type : Ty) :
    HasVerdict (loadOpcode type) (outcomeVerdict (loadOpcode type)) := by
  refine hasVerdict_of_rejecting ?_
  intro failure failed
  unfold loadOpcode at failed
  split at failed <;> cases failed <;> exact ⟨_, rfl⟩

/-- Indices are rejected or overflow. -/
theorem foldIndex_eq_error {elemBytes totalOffset : I64} {index : Operand} {failure : Failure}
    (failed : foldIndex elemBytes totalOffset index = .error failure) :
    (∃ error, failure = .error error) ∨
      ∃ message, message ∉ usedBeforeDefinition ∧ failure = .panic message := by
  unfold foldIndex at failed
  split at failed
  · rcases bind_eq_error.mp failed with failed | ⟨product, -, failed⟩
    · unfold checkedMul at failed
      split at failed <;> cases failed
      exact .inr ⟨_, by decide, rfl⟩
    · unfold checkedAdd at failed
      split at failed <;> cases failed
      exact .inr ⟨_, by decide, rfl⟩
  · cases failed
    exact .inl ⟨_, rfl⟩

theorem hasVerdict_foldPointer (offsets : HashMap ValueRef I64) (element : Ty) (base : Operand)
    (indices : List Operand) :
    HasVerdict (foldPointer offsets element base indices)
      (outcomeVerdict (foldPointer offsets element base indices)) := by
  cases isTotal : foldPointer offsets element base indices with
  | ok totalOffset => exact ⟨totalOffset, rfl⟩
  | error failure =>
      rcases bind_eq_error.mp isTotal with failed | ⟨elemBytes, -, failed⟩
      · unfold intTypeByteSize at failed
        split at failed <;> cases failed
        exact ⟨_, rfl⟩
      · rcases exists_step_of_foldlM_error failed with ⟨front, index, back, current, -, -, fails⟩
        rcases foldIndex_eq_error fails with ⟨error, rfl⟩ | ⟨message, isOther, rfl⟩
        · exact ⟨error, rfl⟩
        · exact hasVerdict_panic isOther

/-! ### Instructions -/

theorem exists_labelOf {block : BlockRef} (inside : block < function.blocks.length) :
    ∃ label, labelOf function block = .ok label := by
  rcases exists_label inside with ⟨label, isLabel⟩
  exact ⟨label, labelOf_eq_ok.mpr isLabel⟩

theorem hasVerdict_lowerIcmp (recorded : Recorded function seen selection) (ref : ValueRef)
    (predicate : Llvm.IntPredicate) (lhs rhs : Operand) :
    HasVerdict (lowerIcmp ref predicate lhs rhs selection)
      ((integerVerdict function seen lhs).andThen
        ((integerVerdict function seen rhs).andThen (outcomeVerdict (comparison predicate)))) := by
  unfold lowerIcmp
  refine (hasVerdict_lowerOperand recorded lhs).bind ?_
  rintro ⟨left, first⟩ isLeft
  refine (hasVerdict_lowerOperand (recorded.afterOperand isLeft) rhs).bind ?_
  rintro ⟨right, second⟩ -
  rw [← Verdict.andThen_lowered (outcomeVerdict _)]
  refine (hasVerdict_comparison predicate).bind ?_
  rintro ⟨opcode, swapped⟩ -
  dsimp only
  split <;> exact ⟨_, rfl⟩

theorem hasVerdict_lowerBinary (recorded : Recorded function seen selection) (ref : ValueRef)
    (op : Llvm.BinaryOp) (lhs rhs : Operand) :
    HasVerdict (lowerBinary ref op lhs rhs selection)
      ((integerVerdict function seen lhs).andThen (integerVerdict function seen rhs)) := by
  unfold lowerBinary
  refine (hasVerdict_lowerOperand recorded lhs).bind ?_
  rintro ⟨left, first⟩ isLeft
  exact (hasVerdict_lowerOperand (recorded.afterOperand isLeft) rhs).map _

theorem hasVerdict_lowerStore (recorded : Recorded function seen selection)
    (value pointer : Operand) :
    HasVerdict (lowerStore value pointer selection)
      ((outcomeVerdict (storeOpcode value)).andThen
        ((integerVerdict function seen value).andThen (addressVerdict function seen pointer))) := by
  unfold lowerStore
  refine (hasVerdict_storeOpcode value).bind ?_
  rintro opcode -
  refine (hasVerdict_lowerOperand recorded value).bind ?_
  rintro ⟨data, after⟩ isData
  exact (hasVerdict_lowerPtrOperand (recorded.afterOperand isData) pointer).map _

theorem hasVerdict_lowerLoad (recorded : Recorded function seen selection)
    (instruction : Instruction) (pointer : Operand) :
    HasVerdict (lowerLoad instruction pointer selection)
      ((outcomeVerdict (loadOpcode instruction.type)).andThen
        (addressVerdict function seen pointer)) := by
  unfold lowerLoad
  refine (hasVerdict_loadOpcode instruction.type).bind ?_
  rintro opcode -
  exact (hasVerdict_lowerPtrOperand recorded pointer).map _

theorem hasVerdict_lowerGetElementPtr (recorded : Recorded function seen selection)
    (ref : ValueRef) (element : Ty) (base : Operand) (indices : List Operand) :
    HasVerdict (lowerGetElementPtr ref element base indices selection)
      ((addressVerdict function seen base).andThen
        (outcomeVerdict (foldPointer (offsetsOf seen) element base indices))) := by
  unfold lowerGetElementPtr
  refine (hasVerdict_lowerPtrOperand recorded base).bind ?_
  rintro ⟨baseVal, baseOffset⟩ isBase
  have hasVerdict := hasVerdict_foldPointer (offsetsOf seen) element base indices
  unfold foldPointer at hasVerdict ⊢
  rw [recorded.pointerOffset_eq isBase] at hasVerdict ⊢
  have mapped := hasVerdict.map fun totalOffset =>
    { selection with gepMap := selection.gepMap.insert ref (baseVal, totalOffset) }
  rw [bind_assoc] at mapped
  exact mapped

theorem hasVerdict_lowerCall (recorded : Recorded function seen selection) (target : String)
    (arguments : List Operand) :
    HasVerdict (lowerCall module memorySize instruction (.function target) arguments selection)
      (if Llvm.countBasicBlocks module target = 0 ∨ 8 < arguments.length then .rejected
        else if arguments.all (resolves function seen) ∧ Addressable memorySize then .lowered
        else .aborts) := by
  unfold lowerCall
  dsimp only
  by_cases undefined : Llvm.countBasicBlocks module target = 0
  · rw [if_pos undefined, if_pos (.inl undefined)]
    exact ⟨_, rfl⟩
  rw [if_neg undefined]
  by_cases many : 8 < arguments.length
  · rw [if_pos many, if_pos (.inr many)]
    exact ⟨_, rfl⟩
  rw [if_neg many, if_neg (not_or.mpr ⟨undefined, many⟩)]
  cases isValues : arguments.mapM (callArgument selection.vregMap) with
  | error failure =>
      rcases exists_item_of_mapM_error isValues with ⟨front, argument, back, rfl, -, fails⟩
      have unresolved : ¬((front ++ argument :: back).all (resolves function seen) = true ∧
          Addressable memorySize) := by
        rintro ⟨all, -⟩
        rcases (exists_callArgument_iff recorded).mpr
          (List.all_eq_true.mp all argument (by simp)) with ⟨value, isValue⟩
        cases fails.symm.trans isValue
      rw [if_neg unresolved, callArgument_eq_error fails]
      exact hasVerdict_panic (by decide)
  | ok values =>
      have all : arguments.all (resolves function seen) = true := by
        refine List.all_eq_true.mpr ?_
        intro argument isArgument
        rcases exists_image_of_forall₂ (mapM_eq_ok_iff.mp isValues) isArgument with
          ⟨value, -, isValue⟩
        exact (exists_callArgument_iff recorded).mp ⟨value, isValue⟩
      by_cases addressable : Addressable memorySize
      · rw [if_pos ⟨all, addressable⟩]
        have isAddress := linkRegSaveAddr_eq_ok.mpr ⟨addressable, rfl⟩
        simp only [bind, Except.bind, isAddress]
        exact ⟨_, rfl⟩
      · rw [if_neg fun both => addressable both.2]
        simp only [bind, Except.bind, linkRegSaveAddr_of_not_addressable addressable]
        exact hasVerdict_panic (by decide)

theorem hasVerdict_lowerReturn (recorded : Recorded function seen selection)
    (value : Option Operand) :
    HasVerdict (lowerReturn value selection) (returnVerdict function seen value) := by
  unfold lowerReturn
  split
  · rename_i constant isConstant
    rcases Option.bind_eq_some_iff.mp isConstant with ⟨operand, rfl, isInt⟩
    cases operand with
    | ref key type => cases isInt
    | _ => exact ⟨_, rfl⟩
  · rename_i key bits _
    unfold returnVerdict
    dsimp only
    rcases recorded.registered_cases key with ⟨isRegistered, v, isBound⟩ | ⟨unknown, unbound⟩
    · rw [isBound, if_pos isRegistered]
      exact ⟨_, rfl⟩
    · rw [unbound, if_neg (Bool.eq_false_iff.mp unknown)]
      exact ⟨_, by decide, rfl⟩
  · rename_i notKey _
    unfold returnVerdict
    split
    · exact absurd rfl (notKey _ _)
    · exact ⟨_, rfl⟩

theorem hasVerdict_lowerCondBr (recorded : Recorded function seen selection) (cond : Operand)
    {ifTrue ifFalse : BlockRef} (insideTrue : ifTrue < function.blocks.length)
    (insideFalse : ifFalse < function.blocks.length) :
    HasVerdict (lowerCondBr (labelOf function) cond ifTrue ifFalse selection)
      (if cond.ref?.any (registered function seen) then .lowered else .aborts) := by
  rcases exists_labelOf insideTrue with ⟨trueLabel, isTrue⟩
  rcases exists_labelOf insideFalse with ⟨falseLabel, isFalse⟩
  unfold lowerCondBr
  simp only [isTrue, isFalse, bind, Except.bind]
  cases cond with
  | ref key type =>
      have isKey : (Operand.ref key type).ref? = some key := rfl
      rw [isKey, Option.any_some, Option.bind_some]
      rcases recorded.registered_cases key with ⟨isRegistered, v, isBound⟩ | ⟨unknown, unbound⟩
      · rw [isBound, if_pos isRegistered]
        exact ⟨_, rfl⟩
      · rw [unbound, if_neg (Bool.eq_false_iff.mp unknown)]
        exact hasVerdict_panic (by decide)
  | _ => exact hasVerdict_panic (by decide)

/-- What becomes of an instruction. -/
theorem hasVerdict_lowerInstruction (recorded : Recorded function seen selection)
    (targets : ∀ block ∈ instruction.operation.blocks, block < function.blocks.length) :
    HasVerdict (lowerInstruction module memorySize (labelOf function) label selection instruction)
      (verdict module memorySize function seen instruction) := by
  unfold lowerInstruction verdict
  cases isOperation : instruction.operation with
  | phi incoming =>
      rw [isOperation] at targets
      have labels : ∃ raw, rawIncoming (labelOf function) incoming = .ok raw := by
        refine exists_mapM_ok ?_
        rintro ⟨operand, pred⟩ isIncoming
        rcases exists_labelOf (targets pred (List.mem_map_of_mem isIncoming)) with
          ⟨predLabel, isLabel⟩
        exact ⟨(predLabel, rawPhiVal operand), bind_eq_ok.mpr ⟨predLabel, isLabel, rfl⟩⟩
      rcases labels with ⟨raw, isRaw⟩
      dsimp only
      rw [lowerPhi, isRaw]
      exact ⟨_, rfl⟩
  | ret value => exact hasVerdict_lowerReturn recorded value
  | condBr cond ifTrue ifFalse =>
      rw [isOperation] at targets
      exact hasVerdict_lowerCondBr recorded cond
        (targets ifTrue (by simp [Llvm.Operation.blocks]))
        (targets ifFalse (by simp [Llvm.Operation.blocks]))
  | br target =>
      rw [isOperation] at targets
      rcases exists_labelOf (targets target (by simp [Llvm.Operation.blocks])) with
        ⟨targetLabel, isTarget⟩
      dsimp only
      rw [lowerBr, isTarget]
      exact ⟨_, rfl⟩
  | call callee arguments =>
      cases callee with
      | indirect => exact ⟨_, rfl⟩
      | function target => exact hasVerdict_lowerCall recorded target arguments
  | icmp predicate lhs rhs => exact hasVerdict_lowerIcmp recorded _ predicate lhs rhs
  | binary op lhs rhs => exact hasVerdict_lowerBinary recorded _ op lhs rhs
  | store value pointer => exact hasVerdict_lowerStore recorded value pointer
  | load pointer => exact hasVerdict_lowerLoad recorded instruction pointer
  | getElementPtr element base indices =>
      exact hasVerdict_lowerGetElementPtr recorded _ element base indices
  | invoke | atomic | other => exact ⟨_, rfl⟩

end

end VliwCompiler.Isel
