import VliwCompiler.Isel.Collected
import VliwCompiler.Isel.Verdict

/-!
# Code of blocks

The code that an instruction is lowered to, told by the registers and the folded
pointers of the whole function, and the MIR blocks that the instructions of one
LLVM block make up.
-/

namespace VliwCompiler.Isel

open Asm (Opcode I64)
open Mir (Reg Value Syllable Block)
open Llvm (ValueRef Operand Instruction)

/-! ### Code of one instruction -/

/-- No value has the register. -/
def Spare (final : Selection) (v : Nat) : Prop :=
  ∀ key, final.vregMap.lookup key ≠ some v

/-- The code that brings an integer operand to a register. -/
inductive OperandCode (final : Selection) : Operand → List Syllable → Nat → Prop where
  | constant {operand : Operand} {value : I64} {dst : Nat}
      (isConstant : intConstant operand = some value) (spare : Spare final dst) :
      OperandCode final operand [⟨.movImm, some (.vreg dst), [.imm value]⟩] dst
  | register {key : ValueRef} {bits v : Nat} (isBound : final.vregMap.lookup key = some v) :
      OperandCode final (.ref key (.int bits)) [] v

/-- The code of two operands; that of the second leaves the first one alone. -/
inductive OperandsCode (final : Selection) (lhs rhs : Operand) :
    List Syllable → Nat → Nat → Prop where
  | both {first second : List Syllable} {left right : Nat}
      (isFirst : OperandCode final lhs first left) (isSecond : OperandCode final rhs second right)
      (apart : ∀ syllable ∈ second, syllable.dst ≠ some (.vreg left)) :
      OperandsCode final lhs rhs (first ++ second) left right

/-- The base and the displacement of a pointer operand. -/
inductive AddressOf (final : Selection) : Operand → Value → I64 → Prop where
  | absolute (bits : Nat) (address : I64) :
      AddressOf final (.constAddress bits address) (.imm address) 0
  | folded {key : ValueRef} {base : Value} {offset : I64}
      (isFolded : final.gepMap.lookup key = some (base, offset)) :
      AddressOf final (.ref key .ptr) base offset
  | register {key : ValueRef} {v : Nat} (isBound : final.vregMap.lookup key = some v) :
      AddressOf final (.ref key .ptr) (.reg (.vreg v)) 0

/-- The operation writes no syllables. -/
def isSilent : Llvm.Operation → Bool
  | .phi _ | .condBr _ _ _ | .br _ | .getElementPtr _ _ _ | .ret none => true
  | .ret (some operand) => !isInteger operand.type
  | _ => false

/-- The code of an instruction that is not a call. -/
inductive InstructionCode (final : Selection) (instruction : Instruction) :
    List Syllable → Prop where
  | silent (silent : isSilent instruction.operation = true) :
      InstructionCode final instruction []
  | constantResult {operand : Operand} {constant : I64}
      (isReturn : instruction.operation = .ret (some operand))
      (isConstant : intConstant operand = some constant) :
      InstructionCode final instruction [⟨.movImm, some (.preg retvalReg), [.imm constant]⟩]
  | result {key : ValueRef} {bits v : Nat}
      (isReturn : instruction.operation = .ret (some (.ref key (.int bits))))
      (isBound : final.vregMap.lookup key = some v) :
      InstructionCode final instruction [⟨.mov, some (.preg retvalReg), [.reg (.vreg v)]⟩]
  | compares {predicate : Llvm.IntPredicate} {lhs rhs : Operand} {opcode : Opcode} {swapped : Bool}
      {code : List Syllable} {left right dst : Nat}
      (isOperation : instruction.operation = .icmp predicate lhs rhs) (notNe : predicate ≠ .ne)
      (isOpcode : comparison predicate = .ok (opcode, swapped))
      (operands : OperandsCode final lhs rhs code left right)
      (isBound : final.vregMap.lookup instruction.ref = some dst) :
      InstructionCode final instruction (code ++ [⟨opcode, some (.vreg dst),
        if swapped then [.reg (.vreg right), .reg (.vreg left)]
        else [.reg (.vreg left), .reg (.vreg right)]⟩])
  | differs {lhs rhs : Operand} {code : List Syllable} {left right equal dst : Nat}
      (isOperation : instruction.operation = .icmp .ne lhs rhs)
      (operands : OperandsCode final lhs rhs code left right) (spare : Spare final equal)
      (isBound : final.vregMap.lookup instruction.ref = some dst) :
      InstructionCode final instruction (code ++
        [⟨.cmpEq, some (.vreg equal), [.reg (.vreg left), .reg (.vreg right)]⟩,
          ⟨.pNot, some (.vreg dst), [.reg (.vreg equal)]⟩])
  | computes {op : Llvm.BinaryOp} {lhs rhs : Operand} {code : List Syllable}
      {left right dst : Nat} (isOperation : instruction.operation = .binary op lhs rhs)
      (operands : OperandsCode final lhs rhs code left right)
      (isBound : final.vregMap.lookup instruction.ref = some dst) :
      InstructionCode final instruction (code ++
        [⟨binaryOpcode op, some (.vreg dst), [.reg (.vreg left), .reg (.vreg right)]⟩])
  | stores {value pointer : Operand} {opcode : Opcode} {code : List Syllable} {data : Nat}
      {base : Value} {offset : I64} (isOperation : instruction.operation = .store value pointer)
      (isOpcode : storeOpcode value = .ok opcode) (isData : OperandCode final value code data)
      (isAddress : AddressOf final pointer base offset) :
      InstructionCode final instruction
        (code ++ [⟨opcode, none, addressSrcs base offset ++ [.reg (.vreg data)]⟩])
  | loads {pointer : Operand} {opcode : Opcode} {base : Value} {offset : I64} {dst : Nat}
      (isOperation : instruction.operation = .load pointer)
      (isOpcode : loadOpcode instruction.type = .ok opcode)
      (isAddress : AddressOf final pointer base offset)
      (isBound : final.vregMap.lookup instruction.ref = some dst) :
      InstructionCode final instruction [⟨opcode, some (.vreg dst), addressSrcs base offset⟩]

/-- The code that keeps the result of a call. -/
inductive ResultCode (final : Selection) (instruction : Instruction) : List Syllable → Prop where
  | void (isVoid : instruction.type = .void) : ResultCode final instruction []
  | value {dst : Nat} (notVoid : instruction.type ≠ .void)
      (isBound : final.vregMap.lookup instruction.ref = some dst) :
      ResultCode final instruction [⟨.mov, some (.vreg dst), [.reg (.preg retvalReg)]⟩]

/-- The codes of the MIR blocks that instructions make up after those with code `code`:
a call moves its arguments, saves the link register and ends the block; the next
one begins by restoring the link register and keeping the result. -/
inductive BlockCode (final : Selection) (address : I64) :
    List Instruction → List Syllable → List (List Syllable) → Prop where
  | done (code : List Syllable) : BlockCode final address [] code [code]
  | step {instruction : Instruction} {instructions : List Instruction}
      {code own : List Syllable} {codes : List (List Syllable)}
      (isCode : InstructionCode final instruction own)
      (rest : BlockCode final address instructions (code ++ own) codes) :
      BlockCode final address (instruction :: instructions) code codes
  | call {instruction : Instruction} {instructions : List Instruction} {target : String}
      {arguments : List Operand} {values : List Argument} {code result : List Syllable}
      {codes : List (List Syllable)}
      (isCall : instruction.operation = .call (.function target) arguments)
      (isValues : arguments.mapM (callArgument final.vregMap) = .ok values)
      (isResult : ResultCode final instruction result)
      (rest : BlockCode final address instructions (restoreLink address :: result) codes) :
      BlockCode final address (instruction :: instructions) code
        ((code ++ argMoves 0 values ++ [saveLink address]) :: codes)

/-! ### Lowered operands -/

section

variable {module : Llvm.Module} {memorySize : Nat} {labelAt : Llvm.BlockRef → Outcome String}
  {label : String} {selection middle after final : Selection} {instruction : Instruction}

/-- Registers taken by an instruction for something else than its value are spare. -/
theorem spare_of_lowerInstruction (bounded : Bounded selection)
    (lowered : lowerInstruction module memorySize labelAt label selection instruction = .ok after)
    (extended : Extends after final) {v : Nat} (isNew : selection.nextVreg ≤ v)
    (inside : v < after.nextVreg)
    (notBound : after.vregMap.lookup instruction.ref ≠ some v) : Spare final v := by
  intro key isBound
  rcases extended.newer key v isBound with wasBound | isLater
  · rcases (takes_of_lowerInstruction lowered).bound with same | ⟨w, -, -, isInsert⟩
    · rw [same] at wasBound
      exact absurd (bounded.vregs key v wasBound) (Nat.not_lt.mpr isNew)
    · by_cases isValue : key = instruction.ref
      · exact notBound (isValue ▸ wasBound)
      · rw [isInsert, AList.lookup_insert_ne isValue] at wasBound
        exact absurd (bounded.vregs key v wasBound) (Nat.not_lt.mpr isNew)
  · exact absurd inside (Nat.not_lt.mpr isLater)

theorem code_of_lowerOperand {operand : Operand} {value : Value}
    (known : ∀ key v, selection.vregMap.lookup key = some v → final.vregMap.lookup key = some v)
    (bounded : Bounded selection)
    (spare : ∀ v, selection.nextVreg ≤ v → v < middle.nextVreg → Spare final v)
    (lowered : lowerOperand operand selection = .ok (value, middle)) :
    ∃ code v, value = .reg (.vreg v) ∧ middle.syllables = selection.syllables ++ code ∧
      OperandCode final operand code v ∧ v < middle.nextVreg ∧ Bounded middle ∧
      ∀ syllable ∈ code, ∃ dst, syllable.dst = some (.vreg dst) ∧ selection.nextVreg ≤ dst := by
  unfold lowerOperand at lowered
  split at lowered
  · rename_i constant isConstant
    cases lowered
    refine ⟨_, _, rfl, rfl, .constant isConstant (spare _ (Nat.le_refl _) (Nat.lt_succ_self _)),
      Nat.lt_succ_self _, ⟨?_, ?_⟩, ?_⟩
    · exact fun key v isBound => Nat.lt_succ_of_lt (bounded.vregs key v isBound)
    · intro key base offset isFolded
      rcases bounded.pointers key base offset isFolded with isAddress | ⟨v, inside, isBase⟩
      · exact .inl isAddress
      · exact .inr ⟨v, Nat.lt_succ_of_lt inside, isBase⟩
    · exact List.forall_mem_singleton.mpr ⟨_, rfl, Nat.le_refl _⟩
  · rcases bind_eq_ok.mp lowered with ⟨vreg, isBound, same⟩
    cases same
    have isBound := expect_eq_ok.mp isBound
    exact ⟨[], vreg, rfl, (List.append_nil _).symm, .register (known _ _ isBound),
      bounded.vregs _ _ isBound, bounded, by simp⟩
  · cases lowered

theorem code_of_lowerOperands {lhs rhs : Operand} {left right : Value}
    (known : ∀ key v, selection.vregMap.lookup key = some v → final.vregMap.lookup key = some v)
    (bounded : Bounded selection)
    (spare : ∀ v, selection.nextVreg ≤ v → v < after.nextVreg → Spare final v)
    (isLeft : lowerOperand lhs selection = .ok (left, middle))
    (isRight : lowerOperand rhs middle = .ok (right, after)) :
    ∃ code v w, left = .reg (.vreg v) ∧ right = .reg (.vreg w) ∧
      after.syllables = selection.syllables ++ code ∧ OperandsCode final lhs rhs code v w := by
  have leftTakes := takes_of_lowerOperand isLeft
  have rightTakes := takes_of_lowerOperand isRight
  rcases code_of_lowerOperand known bounded
    (fun v isNew inside => spare v isNew (Nat.lt_of_lt_of_le inside rightTakes.1)) isLeft with
    ⟨first, v, rfl, isFirst, leftCode, inside, bounded, -⟩
  rcases code_of_lowerOperand (leftTakes.2 ▸ known) bounded
    (fun v isNew inside => spare v (Nat.le_trans leftTakes.1 isNew) inside) isRight with
    ⟨second, w, rfl, isSecond, rightCode, -, -, writes⟩
  refine ⟨first ++ second, v, w, rfl, rfl, by rw [isSecond, isFirst, List.append_assoc],
    .both leftCode rightCode ?_⟩
  rintro syllable syllableMem isDst
  rcases writes syllable syllableMem with ⟨dst, isOther, isNew⟩
  cases isOther.symm.trans isDst
  exact absurd inside (Nat.not_lt.mpr isNew)

theorem callArguments_of_extends {arguments : List Operand} {values : List Argument}
    (extended : Extends selection final)
    (isValues : arguments.mapM (callArgument selection.vregMap) = .ok values) :
    arguments.mapM (callArgument final.vregMap) = .ok values := by
  rw [mapM_eq_ok_iff] at isValues ⊢
  refine isValues.imp ?_
  intro operand value isValue
  unfold callArgument at isValue ⊢
  split at isValue
  · exact isValue
  · rcases bind_eq_ok.mp isValue with ⟨v, isBound, done⟩
    rcases Option.bind_eq_some_iff.mp (expect_eq_ok.mp isBound) with ⟨key, isKey, isBound⟩
    refine bind_eq_ok.mpr ⟨v, ?_, done⟩
    exact expect_eq_ok.mpr (Option.bind_eq_some_iff.mpr ⟨key, isKey, extended.vregs key v isBound⟩)

theorem addressOf_lowerPtrOperand {operand : Operand} {base : Value} {offset : I64}
    (extended : Extends selection final)
    (lowered : lowerPtrOperand operand selection = .ok (base, offset)) :
    AddressOf final operand base offset := by
  rcases lowerPtrOperand_eq_ok lowered with
    ⟨bits, value, rfl, rfl, rfl⟩ | ⟨key, rfl, isFolded | ⟨-, v, isBound, rfl, rfl⟩⟩
  · exact .absolute bits value
  · exact .folded (extended.geps key _ isFolded)
  · exact .register (extended.vregs key v isBound)

/-! ### Lowered instructions -/

/-- A comparison. -/
theorem code_of_lowerIcmp {predicate : Llvm.IntPredicate} {lhs rhs : Operand}
    (isOperation : instruction.operation = .icmp predicate lhs rhs)
    (known : ∀ key v, selection.vregMap.lookup key = some v → final.vregMap.lookup key = some v)
    (bounded : Bounded selection) (extended : Extends after final)
    (spare : ∀ v, selection.nextVreg ≤ v → v < after.nextVreg →
      after.vregMap.lookup instruction.ref ≠ some v → Spare final v)
    (lowered : lowerIcmp instruction.ref predicate lhs rhs selection = .ok after) :
    ∃ code, after.syllables = selection.syllables ++ code ∧
      InstructionCode final instruction code := by
  rcases bind_eq_ok.mp lowered with ⟨⟨left, first⟩, isLeft, lowered⟩
  rcases bind_eq_ok.mp lowered with ⟨⟨right, second⟩, isRight, lowered⟩
  rcases bind_eq_ok.mp lowered with ⟨⟨opcode, swapped⟩, isOpcode, lowered⟩
  have older := Nat.le_trans (takes_of_lowerOperand isLeft).1 (takes_of_lowerOperand isRight).1
  dsimp only at lowered
  split at lowered
  · rename_i isNe
    subst isNe
    cases isOpcode
    cases lowered
    have isBound : (AList.insert instruction.ref (second.nextVreg + 1) second.vregMap).lookup
        instruction.ref = some (second.nextVreg + 1) := AList.lookup_insert _
    have others : ∀ v, selection.nextVreg ≤ v → v ≤ second.nextVreg → Spare final v := by
      intro v isNew inside
      refine spare v isNew (Nat.lt_succ_of_lt (Nat.lt_succ_of_le inside)) ?_
      intro isValue
      have same := Option.some.inj (isBound.symm.trans isValue)
      omega
    rcases code_of_lowerOperands known bounded
      (fun v isNew inside => others v isNew (Nat.le_of_lt inside)) isLeft isRight with
      ⟨code, v, w, rfl, rfl, isCode, operands⟩
    refine ⟨_, ?_, .differs isOperation operands (others _ older (Nat.le_refl _))
      (extended.vregs _ _ isBound)⟩
    simp [Selection.push, Selection.bindVreg, Selection.freshVreg, isCode]
  · rename_i notNe
    cases lowered
    have isBound : (AList.insert instruction.ref second.nextVreg second.vregMap).lookup
        instruction.ref = some second.nextVreg := AList.lookup_insert _
    have others : ∀ v, selection.nextVreg ≤ v → v < second.nextVreg → Spare final v := by
      intro v isNew inside
      refine spare v isNew (Nat.lt_succ_of_lt inside) ?_
      intro isValue
      exact absurd (Option.some.inj (isBound.symm.trans isValue)) (Nat.ne_of_gt inside)
    rcases code_of_lowerOperands known bounded others isLeft isRight with
      ⟨code, v, w, rfl, rfl, isCode, operands⟩
    refine ⟨_, ?_, .compares isOperation notNe isOpcode operands (extended.vregs _ _ isBound)⟩
    cases swapped <;> simp [Selection.push, Selection.bindVreg, isCode]

theorem code_of_lowerBinary {op : Llvm.BinaryOp} {lhs rhs : Operand}
    (isOperation : instruction.operation = .binary op lhs rhs)
    (known : ∀ key v, selection.vregMap.lookup key = some v → final.vregMap.lookup key = some v)
    (bounded : Bounded selection) (extended : Extends after final)
    (spare : ∀ v, selection.nextVreg ≤ v → v < after.nextVreg →
      after.vregMap.lookup instruction.ref ≠ some v → Spare final v)
    (lowered : lowerBinary instruction.ref op lhs rhs selection = .ok after) :
    ∃ code, after.syllables = selection.syllables ++ code ∧
      InstructionCode final instruction code := by
  rcases bind_eq_ok.mp lowered with ⟨⟨left, first⟩, isLeft, lowered⟩
  rcases bind_eq_ok.mp lowered with ⟨⟨right, second⟩, isRight, lowered⟩
  cases lowered
  have isBound : (AList.insert instruction.ref second.nextVreg second.vregMap).lookup
      instruction.ref = some second.nextVreg := AList.lookup_insert _
  have others : ∀ v, selection.nextVreg ≤ v → v < second.nextVreg → Spare final v := by
    intro v isNew inside
    refine spare v isNew (Nat.lt_succ_of_lt inside) ?_
    intro isValue
    exact absurd (Option.some.inj (isBound.symm.trans isValue)) (Nat.ne_of_gt inside)
  rcases code_of_lowerOperands known bounded others isLeft isRight with
    ⟨code, v, w, rfl, rfl, isCode, operands⟩
  refine ⟨_, ?_, .computes isOperation operands (extended.vregs _ _ isBound)⟩
  simp [Selection.push, Selection.bindVreg, isCode]

theorem code_of_lowerReturn {value : Option Operand}
    (isOperation : instruction.operation = .ret value) (extended : Extends selection final)
    (lowered : lowerReturn value selection = .ok after) :
    ∃ code, after.syllables = selection.syllables ++ code ∧
      InstructionCode final instruction code := by
  have silent : isSilent (.ret value) = true → after.syllables = selection.syllables →
      ∃ code, after.syllables = selection.syllables ++ code ∧
        InstructionCode final instruction code := by
    intro isSilent same
    exact ⟨[], by rw [same, List.append_nil], .silent (by rw [isOperation]; exact isSilent)⟩
  cases value with
  | none =>
      cases lowered
      exact silent rfl rfl
  | some operand =>
      cases operand with
      | constInt bits constant =>
          cases lowered
          exact ⟨_, rfl, .constantResult isOperation rfl⟩
      | constAddress | constCast =>
          cases lowered
          exact silent rfl rfl
      | const type =>
          cases type with
          | int bits =>
              cases lowered
              exact ⟨_, rfl, .constantResult isOperation rfl⟩
          | _ =>
              cases lowered
              exact silent rfl rfl
      | ref key type =>
          cases type with
          | int bits =>
              rcases bind_eq_ok.mp lowered with ⟨vreg, isBound, same⟩
              cases same
              exact ⟨_, rfl, .result isOperation (extended.vregs _ _ (expect_eq_ok.mp isBound))⟩
          | _ =>
              cases lowered
              exact silent rfl rfl

/-- The code of a lowered instruction that is not a call. -/
theorem code_of_lowerInstruction (bounded : Bounded selection)
    (fresh : Unrecorded selection instruction.ref) (extended : Extends after final)
    (notCall : ∀ callee arguments, instruction.operation ≠ .call callee arguments)
    (lowered : lowerInstruction module memorySize labelAt label selection instruction = .ok after) :
    ∃ code, after.syllables = selection.syllables ++ code ∧
      InstructionCode final instruction code := by
  have before := (extends_of_lowerInstruction fresh lowered).trans extended
  have spare := fun v isNew inside => spare_of_lowerInstruction (v := v) bounded lowered extended
    isNew inside
  unfold lowerInstruction at lowered
  cases isOperation : instruction.operation with
  | phi incoming =>
      rw [isOperation] at lowered
      rcases bind_eq_ok.mp lowered with ⟨raw, -, lowered⟩
      cases lowered
      exact ⟨[], (List.append_nil _).symm, .silent (by rw [isOperation]; rfl)⟩
  | ret value =>
      rw [isOperation] at lowered
      exact code_of_lowerReturn isOperation before lowered
  | condBr cond ifTrue ifFalse =>
      rw [isOperation] at lowered
      rcases bind_eq_ok.mp lowered with ⟨trueLabel, -, lowered⟩
      rcases bind_eq_ok.mp lowered with ⟨falseLabel, -, lowered⟩
      rcases bind_eq_ok.mp lowered with ⟨vreg, -, lowered⟩
      cases lowered
      exact ⟨[], (List.append_nil _).symm, .silent (by rw [isOperation]; rfl)⟩
  | br target =>
      rw [isOperation] at lowered
      rcases bind_eq_ok.mp lowered with ⟨targetLabel, -, lowered⟩
      cases lowered
      exact ⟨[], (List.append_nil _).symm, .silent (by rw [isOperation]; rfl)⟩
  | call callee arguments => exact absurd isOperation (notCall callee arguments)
  | icmp predicate lhs rhs =>
      rw [isOperation] at lowered
      exact code_of_lowerIcmp isOperation before.vregs bounded extended spare lowered
  | binary op lhs rhs =>
      rw [isOperation] at lowered
      exact code_of_lowerBinary isOperation before.vregs bounded extended spare lowered
  | store value pointer =>
      rw [isOperation] at lowered
      rcases bind_eq_ok.mp lowered with ⟨opcode, isOpcode, lowered⟩
      rcases bind_eq_ok.mp lowered with ⟨⟨data, middle⟩, isData, lowered⟩
      rcases bind_eq_ok.mp lowered with ⟨⟨base, offset⟩, isAddress, lowered⟩
      cases lowered
      have sameVregs := (takes_of_lowerOperand isData).2
      have others : ∀ v, selection.nextVreg ≤ v → v < middle.nextVreg → Spare final v := by
        intro v isNew inside
        refine spare v isNew inside ?_
        intro isValue
        have unbound : middle.vregMap.lookup instruction.ref = none := sameVregs ▸ fresh.1
        cases unbound.symm.trans isValue
      rcases code_of_lowerOperand before.vregs bounded others isData with
        ⟨code, v, rfl, isCode, operand, -⟩
      have onward : Extends middle final := ⟨extended.next, extended.vregs, extended.newer,
        extended.geps⟩
      refine ⟨_, ?_, .stores isOperation isOpcode operand
        (addressOf_lowerPtrOperand onward isAddress)⟩
      simp [Selection.push, isCode]
  | load pointer =>
      rw [isOperation] at lowered
      rcases bind_eq_ok.mp lowered with ⟨opcode, isOpcode, lowered⟩
      rcases bind_eq_ok.mp lowered with ⟨⟨base, offset⟩, isAddress, lowered⟩
      cases lowered
      exact ⟨_, rfl, .loads isOperation isOpcode (addressOf_lowerPtrOperand before isAddress)
        (extended.vregs _ _ (AList.lookup_insert _))⟩
  | getElementPtr element base indices =>
      rw [isOperation] at lowered
      rcases bind_eq_ok.mp lowered with ⟨pointer, -, lowered⟩
      rcases bind_eq_ok.mp lowered with ⟨elemBytes, -, lowered⟩
      rcases bind_eq_ok.mp lowered with ⟨totalOffset, -, lowered⟩
      cases lowered
      exact ⟨[], (List.append_nil _).symm, .silent (by rw [isOperation]; rfl)⟩
  | invoke | atomic | other =>
      rw [isOperation] at lowered
      cases lowered

/-- A call ends a block and begins another one. -/
theorem code_of_lowerCall {callee : Llvm.Callee} {arguments : List Operand}
    (isOperation : instruction.operation = .call callee arguments)
    (fresh : Unrecorded selection instruction.ref) (extended : Extends after final)
    (lowered : lowerInstruction module memorySize labelAt label selection instruction = .ok after) :
    ∃ target values result block, instruction.operation = .call (.function target) arguments ∧
      arguments.mapM (callArgument final.vregMap) = .ok values ∧
      ResultCode final instruction result ∧ after.mirBlocks = selection.mirBlocks ++ [block] ∧
      block.syllables = selection.syllables ++ argMoves 0 values ++
        [saveLink (linkAddress memorySize)] ∧
      after.syllables = restoreLink (linkAddress memorySize) :: result := by
  have before := (extends_of_lowerInstruction fresh lowered).trans extended
  unfold lowerInstruction at lowered
  rw [isOperation] at lowered
  rcases lowerCall_eq_ok lowered with ⟨target, values, ⟨rfl, -, -, isValues, -⟩, isAfter⟩
  have isValues : arguments.mapM (callArgument final.vregMap) = .ok values :=
    callArguments_of_extends before isValues
  dsimp only at isAfter
  split at isAfter
  · rename_i isVoid
    subst isAfter
    exact ⟨target, values, [], _, isOperation, isValues, .void isVoid, rfl, rfl, rfl⟩
  · rename_i notVoid
    subst isAfter
    exact ⟨target, values, _, _, isOperation, isValues,
      .value notVoid (extended.vregs _ _ (AList.lookup_insert _)), rfl, rfl, rfl⟩

/-- The blocks that instructions in a row make up. -/
theorem blockCode_of_foldlM {instructions : List Instruction} {last : Selection}
    (bounded : Bounded selection) (distinct : (instructions.map (·.ref)).Nodup)
    (fresh : ∀ instruction ∈ instructions, Unrecorded selection instruction.ref)
    (extended : Extends last final)
    (lowered : instructions.foldlM (lowerInstruction module memorySize labelAt label) selection =
      .ok last) :
    ∃ blocks, last.mirBlocks = selection.mirBlocks ++ blocks ∧
      BlockCode final (linkAddress memorySize) instructions selection.syllables
        (blocks.map (·.syllables) ++ [last.syllables]) := by
  induction instructions generalizing selection with
  | nil =>
      cases lowered
      exact ⟨[], (List.append_nil _).symm, .done _⟩
  | cons instruction rest ih =>
      rw [List.foldlM_cons] at lowered
      rcases bind_eq_ok.mp lowered with ⟨next, first, lowered⟩
      rw [List.map_cons, List.nodup_cons] at distinct
      rcases List.forall_mem_cons.mp fresh with ⟨isFresh, others⟩
      have restFresh : ∀ other ∈ rest, Unrecorded next other.ref := fun other otherMem =>
        (others other otherMem).afterInstruction
          (fun same => distinct.1 (same ▸ List.mem_map_of_mem otherMem)) first
      have onward := (extends_of_foldlM distinct.2 restFresh lowered).1.trans extended
      rcases ih (bounded.afterInstruction first) distinct.2 restFresh lowered with
        ⟨blocks, isBlocks, code⟩
      by_cases notCall : ∀ callee arguments, instruction.operation ≠ .call callee arguments
      · rcases code_of_lowerInstruction bounded isFresh onward notCall first with
          ⟨own, isOwn, isCode⟩
        have isSame : isCall instruction = false := by
          unfold isCall
          split
          · rename_i callee arguments isOperation
            exact absurd isOperation (notCall callee arguments)
          · rfl
        refine ⟨blocks, by rw [isBlocks, (control_of_not_isCall isSame first).1], ?_⟩
        exact .step isCode (isOwn ▸ code)
      · simp only [not_forall, not_not] at notCall
        rcases notCall with ⟨callee, arguments, isOperation⟩
        rcases code_of_lowerCall isOperation isFresh onward first with
          ⟨target, values, result, block, isTarget, isValues, isResult, isBlock, isCode, isNext⟩
        refine ⟨block :: blocks, by rw [isBlocks, isBlock, List.append_assoc]; rfl, ?_⟩
        rw [isNext] at code
        rw [List.map_cons, List.cons_append, isCode]
        exact .call isTarget isValues isResult code

end

end VliwCompiler.Isel
