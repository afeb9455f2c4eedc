import VliwCompiler.Isel.Meaning

/-!
# Instructions and their code

The code of an instruction computes its value and has its effect on memory.  All
other values stay where they are.
-/

namespace VliwCompiler.Isel

open Asm (Opcode I64)
open Mir (Reg Value execSyllables)
open Llvm (BlockRef ValueRef Ty Operand Instruction Env Frame)
open Machine (Isa Memory State Word storeWrites)

/-- The code of an instruction has been executed: memory is that of the LLVM
function, and the value of the instruction is carried. -/
structure Performs (isa : Isa Opcode) (function : Llvm.Function) (final current next : Selection)
    (instruction : Instruction) (state final' : State Reg) (after : Frame) : Prop where
  executes : Executes isa current state next final'
  mem : final'.mem = after.mem
  value : instruction.type ≠ .void → ∀ word, after.env instruction.ref = some word →
    Carries function final final' instruction.ref word

section

variable {module : Llvm.Module} {memorySize : Nat} {function : Llvm.Function} {final : Selection}
  {visited : List String} {label : String} {node : BlockRef} {block : Llvm.Block}
  {front back : List Instruction} {instruction : Instruction} {current next : Selection}
  {isa : Isa Opcode} {state : State Reg} {frame after : Frame}

/-- The bytes of an integer that can be loaded and stored. -/
theorem bytes_int {bits : Nat} (width : bits ∈ [8, 32, 64]) : (Ty.int bits).bytes = bits / 8 := by
  simp only [List.mem_cons, List.not_mem_nil, or_false] at width
  rw [Ty.bytes, Ty.bits]
  omega

theorem elementBytes_eq {element : Ty} {elemBytes : I64}
    (fits : [.int 8, .int 16, .int 32, .int 64].contains element = true)
    (isSize : intTypeByteSize element = .ok elemBytes) :
    BitVec.ofNat 64 element.bytes = elemBytes := by
  simp only [List.contains_eq_mem, List.mem_cons, List.not_mem_nil, or_false,
    decide_eq_true_eq] at fits
  rcases fits with rfl | rfl | rfl | rfl
  all_goals
    cases isSize
    rfl

/-- The value of an integer instruction. -/
theorem eval_binary_eq_some {env : Env} {bits : Nat} {op : Llvm.BinaryOp} {lhs rhs : Operand}
    (isOperation : instruction.operation = .binary op lhs rhs) (isInt : lhs.type = .int bits)
    {word : I64} (isWord : instruction.eval env = some word) :
    ∃ left right value : BitVec bits, lhs.eval env bits = some left ∧
      rhs.eval env bits = some right ∧ op.eval left right = some value ∧
        word = value.setWidth 64 := by
  obtain rfl : lhs.type.width = bits := by rw [isInt, Ty.width_int]
  rw [Llvm.Instruction.eval, isOperation] at isWord
  obtain ⟨left, isLeft, isWord⟩ := Option.bind_eq_some_iff.mp isWord
  obtain ⟨right, isRight, isWord⟩ := Option.bind_eq_some_iff.mp isWord
  obtain ⟨value, isValue, isWord⟩ := Option.bind_eq_some_iff.mp isWord
  exact ⟨left, right, value, isLeft, isRight, isValue, (Option.some.inj isWord).symm⟩

theorem eval_icmp_eq_some {env : Env} {bits : Nat} {predicate : Llvm.IntPredicate}
    {lhs rhs : Operand} (isOperation : instruction.operation = .icmp predicate lhs rhs)
    (isInt : lhs.type = .int bits) {word : I64} (isWord : instruction.eval env = some word) :
    ∃ left right : BitVec bits, lhs.eval env bits = some left ∧ rhs.eval env bits = some right ∧
      word.getLsbD 0 = predicate.eval left right := by
  obtain rfl : lhs.type.width = bits := by rw [isInt, Ty.width_int]
  rw [Llvm.Instruction.eval, isOperation] at isWord
  obtain ⟨left, isLeft, isWord⟩ := Option.bind_eq_some_iff.mp isWord
  obtain ⟨right, isRight, isWord⟩ := Option.bind_eq_some_iff.mp isWord
  refine ⟨left, right, isLeft, isRight, ?_⟩
  rw [← Option.some.inj isWord]
  cases predicate.eval left right with
  | false => rfl
  | true => rfl

/-- A supported function with the values that its selected code records. -/
structure Setting (function : Llvm.Function) (final : Selection) : Prop where
  isSsa : function.IsSsa
  distinct : (blockLabels function).Nodup
  wellFormed : WellFormed function
  supported : Supported function
  recorded : Recorded function (loweredInstructions function) final

theorem mem_of_lowered (instructionMem : instruction ∈ loweredInstructions function) :
    instruction ∈ function.instructions := by
  obtain ⟨label, -, inBlock⟩ := List.mem_flatMap.mp instructionMem
  exact mem_instructions inBlock

/-- The place of an instruction that is no phi. -/
structure Placed (module : Llvm.Module) (memorySize : Nat) (function : Llvm.Function)
    (final : Selection) (visited : List String) (label : String) (node : BlockRef)
    (block : Llvm.Block) (front back : List Instruction) (instruction : Instruction)
    (current next : Selection) : Prop extends Setting function final where
  underway : Underway module memorySize function final visited label node block front
    (instruction :: back) current
  notPhi : ∀ incoming, instruction.operation ≠ .phi incoming
  lowered : lowerInstruction module memorySize (labelOf function) label current instruction =
    .ok next
  extended : Extends next final

namespace Placed

variable (placed : Placed module memorySize function final visited label node block front back
    instruction current next)

include placed

theorem blockMem : instruction ∈ block.instructions := by
  rw [placed.underway.isInstructions]
  simp

theorem instructionMem : instruction ∈ function.instructions :=
  included_block placed.underway.isNode instruction placed.blockMem

theorem isType : typeOf function instruction.ref = instruction.type :=
  typeOf_instruction placed.isSsa placed.instructionMem

theorem isFlag : isComparison function instruction.ref = isIcmp instruction :=
  isComparison_ref placed.isSsa placed.instructionMem

theorem agree : typesAgree instruction = true :=
  placed.supported.types instruction placed.instructionMem

theorem fits : widthFits instruction = true :=
  placed.supported.widths instruction placed.instructionMem

/-- An integer operand has its value in its register. -/
theorem operand_eq (carried : Carried function final node front state frame.env)
    {operand : Operand} {bits : Nat}
    (isOperand : operand ∈ instruction.operation.operands) (isInt : operand.type = .int bits)
    (asInteger : ∀ use ∈ intUse operand, use ∈ codeUses instruction.operation)
    (hasRegister : HasRegister current operand) {value : BitVec bits}
    (isValue : operand.eval frame.env bits = some value) :
    (operandWord current state operand).setWidth bits = value := by
  obtain ⟨word, isWord, rfl⟩ := word_of_eval isValue
  have notPtr : operand.type ≠ .ptr := by simp [isInt]
  have isUse : ∀ key type, operand = .ref key type →
      ⟨false, key⟩ ∈ codeUses instruction.operation := by
    rintro key type rfl
    obtain rfl : type = .int bits := isInt
    exact asInteger ⟨false, key⟩ (by simp [intUse])
  have same := placed.underway.operandWord_eq placed.isSsa placed.distinct
    placed.supported.comparisons placed.recorded (fun _ => mem_of_lowered) carried placed.notPhi isOperand
    notPtr isUse hasRegister isWord
  rwa [isInt] at same

/-- A pointer operand has its address. -/
theorem address_eq (carried : Carried function final node front state frame.env)
    {operand : Operand} (isOperand : operand ∈ instruction.operation.operands) {base : Value}
    {offset word : I64} (isBase : lowerPtrOperand operand current = .ok (base, offset))
    (isWord : operand.word frame.env = some word) : baseWord state base + offset = word :=
  placed.underway.address_eq placed.isSsa placed.wellFormed placed.recorded
    (fun _ => mem_of_lowered) carried placed.notPhi isOperand isBase
    (placed.supported.addresses instruction placed.instructionMem operand isOperand) isWord

/-- A value of an integer instruction is in its register. -/
theorem carries_register {bits v : Nat} {final' : State Reg} {word : I64}
    (isInt : instruction.type = .int bits) (notIcmp : isIcmp instruction = false)
    (isBound : next.vregMap.lookup instruction.ref = some v)
    (same : (final'.gpr (.vreg v)).setWidth bits = word.setWidth bits) :
    Carries function final final' instruction.ref word := by
  refine .register (placed.isFlag.trans notIcmp) (placed.extended.vregs _ _ isBound) ?_
  rw [placed.isType, isInt]
  exact same

variable (arithmetic : MachineArithmetic isa) (sameMem : state.mem = frame.mem)
  (carried : Carried function final node front state frame.env)
  (executed : instruction.exec frame = some after)

include arithmetic sameMem carried executed

theorem performs_binary {op : Llvm.BinaryOp} {lhs rhs : Operand}
    (isOperation : instruction.operation = .binary op lhs rhs) :
    ∃ final', Performs isa function final current next instruction state final' after := by
  have lowered := placed.lowered
  rw [lowerInstruction, isOperation] at lowered
  obtain ⟨v, final', isBound, executes, finalMem, isResult⟩ :=
    executes_lowerBinary arithmetic placed.underway.bounded lowered state
  obtain ⟨⟨left, first⟩, isLeft, lowered⟩ := bind_eq_ok.mp lowered
  obtain ⟨⟨right, second⟩, isRight, -⟩ := bind_eq_ok.mp lowered
  obtain ⟨leftRegister, rightRegister⟩ := hasRegisters_of_lowerOperands isLeft isRight
  have agree := placed.agree
  have fits := placed.fits
  rw [typesAgree, isOperation] at agree
  rw [widthFits, isOperation] at fits
  simp only [Bool.and_eq_true, decide_eq_true_eq] at agree
  obtain ⟨bits, isLeftInt, width⟩ : ∃ bits, lhs.type = .int bits ∧ bits ∈ [8, 32, 64] := by
    have contained := (Bool.and_eq_true_iff.mp fits).1
    simp only [List.contains_eq_mem, List.mem_cons, List.not_mem_nil, or_false,
      decide_eq_true_eq] at contained
    rcases contained with isInt | isInt | isInt
    · exact ⟨8, isInt, by simp⟩
    · exact ⟨32, isInt, by simp⟩
    · exact ⟨64, isInt, by simp⟩
  have words : op ∈ [.lshr, .ashr] → bits = 64 := by
    intro isShift
    have wide := (Bool.and_eq_true_iff.mp fits).2
    rw [isLeftInt] at wide
    simpa [isShift] using wide
  have isInt : instruction.type = .int bits := agree.1.symm.trans isLeftInt
  have isRightInt : rhs.type = .int bits := agree.2.trans isInt
  rw [Llvm.Instruction.exec, isOperation] at executed
  cases executed
  refine ⟨final', executes, finalMem.trans sameMem, ?_⟩
  intro _ word isWord
  rw [Frame.define_self] at isWord
  obtain ⟨leftValue, rightValue, value, isLeftValue, isRightValue, isValue, rfl⟩ :=
    eval_binary_eq_some isOperation isLeftInt isWord
  have leftSame := placed.operand_eq carried (by simp [isOperation, Llvm.Operation.operands])
    isLeftInt (by simp +contextual [isOperation, codeUses]) leftRegister isLeftValue
  have rightSame := placed.operand_eq carried (by simp [isOperation, Llvm.Operation.operands])
    isRightInt (by simp +contextual [isOperation, codeUses]) rightRegister isRightValue
  refine placed.carries_register isInt (by simp [isIcmp, isOperation]) isBound ?_
  rw [isResult, setWidth_wordResult width words _ _ (by rw [leftSame, rightSame]; exact isValue)]
  have le : bits ≤ 64 := by
    simp only [List.mem_cons, List.not_mem_nil, or_false] at width
    omega
  rw [BitVec.setWidth_setWidth_of_le value le, BitVec.setWidth_eq]

theorem performs_icmp {predicate : Llvm.IntPredicate} {lhs rhs : Operand}
    (isOperation : instruction.operation = .icmp predicate lhs rhs) :
    ∃ final', Performs isa function final current next instruction state final' after := by
  have lowered := placed.lowered
  rw [lowerInstruction, isOperation] at lowered
  obtain ⟨supported, v, final', isBound, executes, finalMem, isFlag⟩ :=
    executes_lowerIcmp arithmetic placed.underway.bounded lowered state
  obtain ⟨⟨left, first⟩, isLeft, lowered⟩ := bind_eq_ok.mp lowered
  obtain ⟨⟨right, second⟩, isRight, -⟩ := bind_eq_ok.mp lowered
  obtain ⟨leftRegister, rightRegister⟩ := hasRegisters_of_lowerOperands isLeft isRight
  have agree := placed.agree
  have fits := placed.fits
  rw [typesAgree, isOperation] at agree
  rw [widthFits, isOperation] at fits
  have isLeftInt : lhs.type = .int 64 := of_decide_eq_true fits
  have isRightInt : rhs.type = .int 64 := (of_decide_eq_true agree).trans isLeftInt
  rw [Llvm.Instruction.exec, isOperation] at executed
  cases executed
  refine ⟨final', executes, finalMem.trans sameMem, ?_⟩
  intro _ word isWord
  rw [Frame.define_self] at isWord
  obtain ⟨leftValue, rightValue, isLeftValue, isRightValue, isBit⟩ :=
    eval_icmp_eq_some isOperation isLeftInt isWord
  have leftSame := placed.operand_eq carried (by simp [isOperation, Llvm.Operation.operands])
    isLeftInt (by simp +contextual [isOperation, codeUses]) leftRegister isLeftValue
  have rightSame := placed.operand_eq carried (by simp [isOperation, Llvm.Operation.operands])
    isRightInt (by simp +contextual [isOperation, codeUses]) rightRegister isRightValue
  rw [BitVec.setWidth_eq] at leftSame rightSame
  refine .flag (placed.isFlag.trans (by simp [isIcmp, isOperation]))
    (placed.extended.vregs _ _ isBound) ?_
  rw [isFlag, isBit, leftSame, rightSame, wordFlag_eq supported]

theorem performs_load {pointer : Operand} (isOperation : instruction.operation = .load pointer) :
    ∃ final', Performs isa function final current next instruction state final' after := by
  have lowered := placed.lowered
  rw [lowerInstruction, isOperation] at lowered
  obtain ⟨base, offset, bits, v, final', isBase, isInt, width, isBound, executes, finalMem, same⟩ :=
    executes_lowerLoad arithmetic lowered state
  rw [Llvm.Instruction.exec, isOperation] at executed
  obtain ⟨address, isAddress, rfl⟩ := Option.map_eq_some_iff.mp executed
  refine ⟨final', executes, finalMem.trans sameMem, ?_⟩
  intro _ word isWord
  rw [Frame.define_self] at isWord
  obtain rfl := Option.some.inj isWord
  refine placed.carries_register isInt (by simp [isIcmp, isOperation]) isBound ?_
  have sameAddress := placed.address_eq carried
    (by simp [isOperation, Llvm.Operation.operands]) isBase isAddress
  rw [same, sameAddress, sameMem, isInt, bytes_int width]

theorem performs_store {value pointer : Operand}
    (isOperation : instruction.operation = .store value pointer) :
    ∃ final', Performs isa function final current next instruction state final' after := by
  have lowered := placed.lowered
  rw [lowerInstruction, isOperation] at lowered
  obtain ⟨base, offset, bits, final', isBase, isInt, width, executes, finalMem⟩ :=
    executes_lowerStore arithmetic placed.underway.bounded lowered state
  obtain ⟨opcode, -, lowered⟩ := bind_eq_ok.mp lowered
  obtain ⟨⟨data, first⟩, isData, -⟩ := bind_eq_ok.mp lowered
  have isVoid : instruction.type = .void := by
    have result := (placed.isSsa.typed instruction placed.instructionMem).result
    rw [isOperation] at result
    exact of_decide_eq_true result
  rw [Llvm.Instruction.exec, isOperation] at executed
  obtain ⟨address, isAddress, executed⟩ := Option.bind_eq_some_iff.mp executed
  obtain ⟨word, isWord, rfl⟩ := Option.map_eq_some_iff.mp executed
  refine ⟨final', executes, ?_, fun notVoid => absurd isVoid notVoid⟩
  have sameAddress := placed.address_eq carried
    (by simp [isOperation, Llvm.Operation.operands]) isBase isAddress
  have isValue : value.eval frame.env bits = some (word.setWidth bits) := by
    cases value with
    | constInt width constant =>
        obtain rfl := Option.some.inj isWord
        rfl
    | ref key type =>
        change (frame.env key).map _ = _
        change frame.env key = _ at isWord
        rw [isWord, Option.map_some]
    | constAddress bits value => cases isInt
    | constCast => cases isInt
    | const type => cases isWord
  have sameWord := placed.operand_eq carried (by simp [isOperation, Llvm.Operation.operands]) isInt
    (by simp +contextual [isOperation, codeUses]) (hasRegister_of_lowerOperand isData) isValue
  rw [finalMem, sameAddress, sameMem, isInt, bytes_int width, storeWrites_congr sameWord]

omit arithmetic sameMem in
theorem performs_getElementPtr {element : Ty} {base : Operand} {indices : List Operand}
    (sameMem : state.mem = frame.mem)
    (isOperation : instruction.operation = .getElementPtr element base indices) :
    ∃ final', Performs isa function final current next instruction state final' after := by
  have lowered := placed.lowered
  rw [lowerInstruction, isOperation] at lowered
  obtain ⟨⟨baseVal, baseOffset⟩, isBase, lowered⟩ := bind_eq_ok.mp lowered
  obtain ⟨elemBytes, isSize, lowered⟩ := bind_eq_ok.mp lowered
  obtain ⟨totalOffset, folded, lowered⟩ := bind_eq_ok.mp lowered
  have isNext := Except.ok.inj lowered
  rw [Llvm.Instruction.exec, isOperation] at executed
  cases executed
  refine ⟨state, .of_same (by rw [← isNext]) (by rw [← isNext]), sameMem, ?_⟩
  intro _ word isWord
  rw [Frame.define_self] at isWord
  obtain ⟨address, isAddress, advanced⟩ := Option.bind_eq_some_iff.mp isWord
  have sameAddress := placed.address_eq carried
    (by simp [isOperation, Llvm.Operation.operands]) isBase isAddress
  have isFolded : next.gepMap.lookup instruction.ref = some (baseVal, totalOffset) := by
    rw [← isNext]
    exact AList.lookup_insert _
  refine .pointer (placed.extended.geps _ _ isFolded) ?_
  have isBytes : BitVec.ofNat 64 element.bytes = elemBytes := by
    have fits := placed.fits
    rw [widthFits, isOperation] at fits
    exact elementBytes_eq fits isSize
  rw [← sameAddress] at advanced
  exact (foldIndex_eq isBytes folded advanced).symm

end Placed

end

end VliwCompiler.Isel
