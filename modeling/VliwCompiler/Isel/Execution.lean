import VliwCompiler.Isel.Width
import VliwCompiler.Isel.Sites
import VliwCompiler.Machine.Rebind
import VliwCompiler.Machine.Memory

/-!
# Execution of selected code

What the code of one instruction computes.  It writes only the registers that
were taken for it, and memory only when the instruction is a store.
-/

namespace VliwCompiler.Isel

open Asm (Opcode I64)
open Mir (Reg Value Syllable execSyllables)
open Llvm (Operand Instruction)
open Machine (Action Isa Memory Source State Word storeWrites)

/-- Code is appended and executed; it writes only registers taken for it. -/
structure Executes (isa : Isa Opcode) (selection : Selection) (state : State Reg)
    (after : Selection) (final : State Reg) : Prop where
  next : selection.nextVreg ≤ after.nextVreg
  code : ∃ code, after.syllables = selection.syllables ++ code ∧
    execSyllables isa code state = some final
  gpr : ∀ v, v < selection.nextVreg ∨ after.nextVreg ≤ v →
    final.gpr (.vreg v) = state.gpr (.vreg v)
  pred : ∀ v, v < selection.nextVreg ∨ after.nextVreg ≤ v →
    final.pred (.vreg v) = state.pred (.vreg v)

/-- The machine computes words, and narrow loads keep the bytes they load. -/
structure MachineArithmetic (isa : Isa Opcode) : Prop extends WordArithmetic isa where
  mov : ∀ word, isa.result .mov [.word word] = word
  loadB : ∀ word, (isa.extend .loadB word).setWidth 8 = word.setWidth 8
  loadW : ∀ word, (isa.extend .loadW word).setWidth 32 = word.setWidth 32

section

variable {isa : Isa Opcode} {selection middle after : Selection}
  {state between final : State Reg}

theorem Executes.refl : Executes isa selection state selection state :=
  ⟨Nat.le_refl _, ⟨[], by simp, rfl⟩, fun _ _ => rfl, fun _ _ => rfl⟩

theorem Executes.trans (first : Executes isa selection state middle between)
    (second : Executes isa middle between after final) :
    Executes isa selection state after final := by
  obtain ⟨code, isCode, executed⟩ := first.code
  obtain ⟨code', isCode', executed'⟩ := second.code
  have firstNext := first.next
  have secondNext := second.next
  refine ⟨firstNext.trans secondNext, ⟨code ++ code', ?_, ?_⟩, ?_, ?_⟩
  · rw [isCode', isCode, List.append_assoc]
  · rw [Mir.execSyllables_append, executed]
    exact executed'
  · intro v outside
    rw [second.gpr v (by omega), first.gpr v (by omega)]
  · intro v outside
    rw [second.pred v (by omega), first.pred v (by omega)]

/-- Taking no register and emitting no code. -/
theorem Executes.of_same (sameCode : after.syllables = selection.syllables)
    (isNext : selection.nextVreg ≤ after.nextVreg) : Executes isa selection state after state :=
  ⟨isNext, ⟨[], by rw [sameCode, List.append_nil], rfl⟩, fun _ _ => rfl, fun _ _ => rfl⟩

/-- One syllable whose action writes the next register, a fixed register or
memory. -/
theorem executes_action {syllable : Syllable} {action : Action Opcode Reg}
    (denotes : syllable.action = some action)
    (sameCode : after.syllables = selection.syllables ++ [syllable])
    (isNext : selection.nextVreg ≤ after.nextVreg)
    (dst : ∀ v, action.gprDst = some (.vreg v) ∨ action.predDst = some (.vreg v) →
      selection.nextVreg ≤ v ∧ v < after.nextVreg) :
    Executes isa selection state after (action.exec isa state) := by
  refine ⟨isNext, ⟨[syllable], sameCode, ?_⟩, ?_, ?_⟩
  · rw [Mir.execSyllables_singleton, denotes]
    rfl
  · intro v outside
    refine Action.exec_gpr_of_ne isa action state fun isDst => ?_
    have inside := dst v (.inl isDst)
    omega
  · intro v outside
    refine Action.exec_pred_of_ne isa action state fun isDst => ?_
    have inside := dst v (.inr isDst)
    omega

/-- A syllable that computes a word in the next register. -/
theorem executes_compute {opcode : Opcode} {srcs : List Value} {sources : List (Source Reg)}
    (isCompute : opcode.behavior = .compute)
    (isSources : srcs.mapM (Value.source (Mir.predicateSources opcode)) = some sources)
    (sameCode : after.syllables =
      selection.syllables ++ [⟨opcode, some (.vreg selection.nextVreg), srcs⟩])
    (isNext : after.nextVreg = selection.nextVreg + 1) (state : State Reg) :
    ∃ final, Executes isa selection state after final ∧ final.mem = state.mem ∧
      final.gpr (.vreg selection.nextVreg) = isa.result opcode (sources.map (·.read state)) := by
  have denotes : (⟨opcode, some (.vreg selection.nextVreg), srcs⟩ : Syllable).action =
      some (.compute opcode (some (.vreg selection.nextVreg)) sources) := by
    rw [Syllable.action]
    simp only [isCompute, isSources, Option.map_some]
  refine ⟨_, executes_action denotes sameCode (by omega) ?_, rfl, ?_⟩
  · rintro v (isDst | isDst)
    · cases isDst
      omega
    · cases isDst
  · exact Action.exec_gpr_of_eq isa _ state rfl (Reg.vreg_ne_zero _)

/-- A syllable that computes a flag in the next register. -/
theorem executes_test {opcode : Opcode} {srcs : List Value} {sources : List (Source Reg)}
    (isTest : opcode.behavior = .test)
    (isSources : srcs.mapM (Value.source (Mir.predicateSources opcode)) = some sources)
    (sameCode : after.syllables =
      selection.syllables ++ [⟨opcode, some (.vreg selection.nextVreg), srcs⟩])
    (isNext : after.nextVreg = selection.nextVreg + 1) (state : State Reg) :
    ∃ final, Executes isa selection state after final ∧ final.mem = state.mem ∧
      final.pred (.vreg selection.nextVreg) = isa.flag opcode (sources.map (·.read state)) := by
  have denotes : (⟨opcode, some (.vreg selection.nextVreg), srcs⟩ : Syllable).action =
      some (.test opcode (some (.vreg selection.nextVreg)) sources) := by
    rw [Syllable.action]
    simp only [isTest, isSources, Option.map_some]
  refine ⟨_, executes_action denotes sameCode (by omega) ?_, rfl, ?_⟩
  · rintro v (isDst | isDst)
    · cases isDst
    · cases isDst
      omega
  · exact Action.exec_pred_of_eq isa _ state rfl

/-! ### Operands -/

/-- The word of a base. -/
def baseWord (state : State Reg) : Value → Word
  | .reg reg => state.readGpr reg
  | .imm value => value
  | .stack value => value

/-- The address of a memory access. -/
theorem readGpr_address (base : Value) (offset : I64) (state : State Reg) :
    state.readGpr (base.address offset).1 + (base.address offset).2 =
      baseWord state base + offset := by
  have zero : state.readGpr (0 : Reg) = 0 := if_pos rfl
  cases base with
  | reg reg => rfl
  | imm value =>
      change state.readGpr (0 : Reg) + (value + offset) = value + offset
      rw [zero, zero_add]
  | stack value =>
      change state.readGpr (0 : Reg) + (value + offset) = value + offset
      rw [zero, zero_add]

theorem loadAddress_addressSrcs (base : Value) (offset : I64) :
    Mir.loadAddress (addressSrcs base offset) = some (base.address offset) := by
  unfold addressSrcs
  split
  · rename_i isZero
    rw [isZero]
    rfl
  · rfl

theorem storeOperands_addressSrcs (base : Value) (offset : I64) (data : Value) :
    Mir.storeOperands (addressSrcs base offset ++ [data]) = some (base.address offset, data) := by
  unfold addressSrcs
  split
  · rename_i isZero
    rw [isZero]
    rfl
  · rfl

/-- An integer operand is moved to a register or is in one. -/
theorem executes_lowerOperand (arithmetic : MachineArithmetic isa) {operand : Operand}
    {value : Value} (bounded : Bounded selection)
    (lowered : lowerOperand operand selection = .ok (value, after)) (state : State Reg) :
    ∃ v final, value = .reg (.vreg v) ∧ v < after.nextVreg ∧
      Executes isa selection state after final ∧ final.mem = state.mem ∧
      final.gpr (.vreg v) = operandWord selection state operand := by
  have moves : ∀ constant : I64, ∃ final, Executes isa selection state
      (selection.push ⟨.movImm, some (.vreg selection.nextVreg), [.imm constant]⟩).freshVreg final ∧
        final.mem = state.mem ∧ final.gpr (.vreg selection.nextVreg) = constant := by
    intro constant
    have isSources : [Value.imm constant].mapM (Value.source (Mir.predicateSources .movImm)) =
        some [.imm constant] := rfl
    have moved : ∃ final, Executes isa selection state
        (selection.push ⟨.movImm, some (.vreg selection.nextVreg), [.imm constant]⟩).freshVreg
          final ∧ final.mem = state.mem ∧
        final.gpr (.vreg selection.nextVreg) = isa.result .movImm [.word constant] :=
      executes_compute rfl isSources rfl rfl state
    rw [arithmetic.movImm] at moved
    exact moved
  unfold lowerOperand at lowered
  split at lowered
  · rename_i constant isConstant
    cases lowered
    obtain ⟨final, executes, sameMem, isWord⟩ := moves constant
    refine ⟨_, final, rfl, Nat.lt_succ_self _, executes, sameMem, isWord.trans ?_⟩
    unfold intConstant at isConstant
    split at isConstant
    · cases isConstant
      rfl
    · cases isConstant
      rfl
    · cases isConstant
  · obtain ⟨v, isBound, same⟩ := bind_eq_ok.mp lowered
    cases same
    have isBound := expect_eq_ok.mp isBound
    refine ⟨v, state, rfl, bounded.vregs _ v isBound, .refl, rfl, ?_⟩
    rw [operandWord, isBound]
    rfl
  · cases lowered

theorem Bounded.afterOperand {operand : Operand} {value : Value} (bounded : Bounded selection)
    (lowered : lowerOperand operand selection = .ok (value, after)) : Bounded after := by
  obtain ⟨isNext, sameVregs⟩ := takes_of_lowerOperand lowered
  refine ⟨?_, ?_⟩
  · rw [sameVregs]
    exact fun key v isBound => Nat.lt_of_lt_of_le (bounded.vregs key v isBound) isNext
  · rw [gepMap_of_lowerOperand lowered]
    intro key base offset isFolded
    rcases bounded.pointers key base offset isFolded with isAddress | ⟨v, isOld, isBase⟩
    · exact .inl isAddress
    · exact .inr ⟨v, Nat.lt_of_lt_of_le isOld isNext, isBase⟩

/-- Code for one operand leaves the word of another alone. -/
theorem Executes.operandWord_eq {operand : Operand} {value : Value} {other : Selection}
    (executes : Executes isa selection state middle between)
    (sameVregs : middle.vregMap = selection.vregMap) (bounded : Bounded selection)
    (lowered : lowerOperand operand middle = .ok (value, other)) :
    operandWord middle between operand = operandWord selection state operand := by
  cases operand with
  | ref key type =>
      unfold lowerOperand at lowered
      split at lowered
      · rename_i isConstant
        unfold intConstant at isConstant
        cases isConstant
      · rename_i isRef
        obtain ⟨rfl, -⟩ := Operand.ref.inj isRef
        obtain ⟨v, isBound, -⟩ := bind_eq_ok.mp lowered
        have isBound := expect_eq_ok.mp isBound
        rw [operandWord, operandWord, ← sameVregs, isBound]
        exact executes.gpr v (.inl (bounded.vregs key v (sameVregs ▸ isBound)))
      · cases lowered
  | _ => rfl

/-- Both operands of an instruction are in registers. -/
theorem executes_lowerOperands (arithmetic : MachineArithmetic isa) {lhs rhs : Operand}
    {left right : Value} (bounded : Bounded selection)
    (isLeft : lowerOperand lhs selection = .ok (left, middle))
    (isRight : lowerOperand rhs middle = .ok (right, after)) (state : State Reg) :
    ∃ l r final, left = .reg (.vreg l) ∧ right = .reg (.vreg r) ∧
      Executes isa selection state after final ∧ final.mem = state.mem ∧
      final.gpr (.vreg l) = operandWord selection state lhs ∧
      final.gpr (.vreg r) = operandWord selection state rhs := by
  obtain ⟨l, between, rfl, isNew, first, firstMem, leftWord⟩ :=
    executes_lowerOperand arithmetic bounded isLeft state
  obtain ⟨r, final, rfl, -, second, secondMem, rightWord⟩ :=
    executes_lowerOperand arithmetic (bounded.afterOperand isLeft) isRight between
  refine ⟨l, r, final, rfl, rfl, first.trans second, secondMem.trans firstMem, ?_, ?_⟩
  · rw [second.gpr l (.inl isNew), leftWord]
  · rw [rightWord, first.operandWord_eq (takes_of_lowerOperand isLeft).2 bounded isRight]

/-! ### Instructions -/

/-- An ALU instruction. -/
theorem executes_lowerBinary (arithmetic : MachineArithmetic isa) {ref : Llvm.ValueRef}
    {op : Llvm.BinaryOp} {lhs rhs : Operand} (bounded : Bounded selection)
    (lowered : lowerBinary ref op lhs rhs selection = .ok after) (state : State Reg) :
    ∃ v final, after.vregMap.lookup ref = some v ∧ Executes isa selection state after final ∧
      final.mem = state.mem ∧ final.gpr (.vreg v) =
        wordResult (operandWord selection state lhs) (operandWord selection state rhs) op := by
  obtain ⟨⟨left, first⟩, isLeft, lowered⟩ := bind_eq_ok.mp lowered
  obtain ⟨⟨right, second⟩, isRight, lowered⟩ := bind_eq_ok.mp lowered
  cases lowered
  obtain ⟨l, r, between, rfl, rfl, executes, sameMem, leftWord, rightWord⟩ :=
    executes_lowerOperands arithmetic bounded isLeft isRight state
  have isCompute : (binaryOpcode op).behavior = .compute := by cases op <;> rfl
  have isSources : [Value.reg (.vreg l), .reg (.vreg r)].mapM
      (Value.source (Mir.predicateSources (binaryOpcode op))) =
        some [.gpr (.vreg l), .gpr (.vreg r)] := by cases op <;> rfl
  have computed : ∃ final, Executes isa second between ((second.push
      ⟨binaryOpcode op, some (.vreg second.nextVreg), [.reg (.vreg l), .reg (.vreg r)]⟩).bindVreg
        ref) final ∧ final.mem = between.mem ∧ final.gpr (.vreg second.nextVreg) =
          isa.result (binaryOpcode op)
            ([Source.gpr (.vreg l), .gpr (.vreg r)].map (·.read between)) :=
    executes_compute isCompute isSources rfl rfl between
  obtain ⟨final, computes, finalMem, isWord⟩ := computed
  refine ⟨second.nextVreg, final, AList.lookup_insert _, executes.trans computes,
    finalMem.trans sameMem, ?_⟩
  rw [isWord, ← leftWord, ← rightWord, ← arithmetic.binary]
  simp [Source.read, State.readGpr, Reg.vreg_ne_zero]

/-- A comparison; `ne` is negated afterwards. -/
theorem executes_lowerIcmp (arithmetic : MachineArithmetic isa) {ref : Llvm.ValueRef}
    {predicate : Llvm.IntPredicate} {lhs rhs : Operand} (bounded : Bounded selection)
    (lowered : lowerIcmp ref predicate lhs rhs selection = .ok after) (state : State Reg) :
    predicate.isSupported = true ∧ ∃ v final, after.vregMap.lookup ref = some v ∧
      Executes isa selection state after final ∧ final.mem = state.mem ∧ final.pred (.vreg v) =
        wordFlag (operandWord selection state lhs) (operandWord selection state rhs) predicate := by
  obtain ⟨⟨left, first⟩, isLeft, lowered⟩ := bind_eq_ok.mp lowered
  obtain ⟨⟨right, second⟩, isRight, lowered⟩ := bind_eq_ok.mp lowered
  obtain ⟨⟨otherOpcode, otherSwapped⟩, isComparison, lowered⟩ := bind_eq_ok.mp lowered
  obtain ⟨l, r, between, rfl, rfl, executes, sameMem, leftWord, rightWord⟩ :=
    executes_lowerOperands arithmetic bounded isLeft isRight state
  have supported : predicate.isSupported = true := by
    cases predicate <;> first | rfl | cases isComparison
  refine ⟨supported, ?_⟩
  obtain ⟨opcode, swapped, isOther, isTest, notPred, isFlag⟩ :=
    comparison_of_supported arithmetic.toWordArithmetic supported
  obtain ⟨sameOpcode, sameOrder⟩ := Prod.mk.inj (Except.ok.inj (isOther.symm.trans isComparison))
  subst sameOpcode sameOrder
  let srcs : List Value := if swapped then [.reg (.vreg r), .reg (.vreg l)]
    else [.reg (.vreg l), .reg (.vreg r)]
  let sources : List (Source Reg) := if swapped then [.gpr (.vreg r), .gpr (.vreg l)]
    else [.gpr (.vreg l), .gpr (.vreg r)]
  have isSources : srcs.mapM (Value.source (Mir.predicateSources opcode)) = some sources := by
    rw [notPred]
    cases swapped <;> rfl
  have isRead : sources.map (·.read between) =
      if swapped then [.word (operandWord selection state rhs), .word (operandWord selection state lhs)]
      else [.word (operandWord selection state lhs), .word (operandWord selection state rhs)] := by
    rw [← leftWord, ← rightWord]
    cases swapped <;> simp [sources, Source.read, State.readGpr, Reg.vreg_ne_zero]
  let compared := second.push ⟨opcode, some (.vreg second.nextVreg), srcs⟩
  dsimp only at lowered
  split at lowered
  · rename_i isNe
    cases lowered
    have tests : ∃ tested, Executes isa second between compared.freshVreg tested ∧
        tested.mem = between.mem ∧ tested.pred (.vreg second.nextVreg) =
          isa.flag opcode (sources.map (·.read between)) :=
      executes_test isTest isSources rfl rfl between
    obtain ⟨tested, testing, testedMem, isTested⟩ := tests
    have negates : ∃ final, Executes isa compared.freshVreg tested ((compared.freshVreg.push
        ⟨.pNot, some (.vreg compared.freshVreg.nextVreg), [.reg (.vreg second.nextVreg)]⟩).bindVreg
          ref) final ∧ final.mem = tested.mem ∧ final.pred (.vreg compared.freshVreg.nextVreg) =
            isa.flag .pNot ([Source.pred (.vreg second.nextVreg)].map (·.read tested)) :=
      executes_test rfl rfl rfl rfl tested
    obtain ⟨final, negating, finalMem, isNegated⟩ := negates
    refine ⟨compared.freshVreg.nextVreg, final, AList.lookup_insert _,
      (executes.trans testing).trans negating, (finalMem.trans testedMem).trans sameMem, ?_⟩
    rw [isNegated]
    change isa.flag .pNot [.flag (tested.pred (.vreg second.nextVreg))] = _
    rw [arithmetic.pNot, isTested, isRead, isFlag, if_pos isNe, isNe]
    rfl
  · rename_i notNe
    cases lowered
    have tests : ∃ final, Executes isa second between (compared.bindVreg ref) final ∧
        final.mem = between.mem ∧ final.pred (.vreg second.nextVreg) =
          isa.flag opcode (sources.map (·.read between)) :=
      executes_test isTest isSources rfl rfl between
    obtain ⟨final, testing, finalMem, isTested⟩ := tests
    refine ⟨second.nextVreg, final, AList.lookup_insert _, executes.trans testing,
      finalMem.trans sameMem, ?_⟩
    rw [isTested, isRead, isFlag, if_neg notNe]

/-- The opcode of a load and the bytes it loads. -/
theorem loadOpcode_eq_ok {type : Llvm.Ty} {opcode : Opcode} (isOpcode : loadOpcode type = .ok opcode) :
    ∃ bits, type = .int bits ∧ bits ∈ [8, 32, 64] ∧ opcode.behavior = .load (bits / 8) ∧
      (MachineArithmetic isa → ∀ word, ((if bits / 8 = 8 then word else isa.extend opcode word) :
        Word).setWidth bits = word.setWidth bits) := by
  unfold loadOpcode at isOpcode
  split at isOpcode
  · cases isOpcode
    exact ⟨8, rfl, by simp, rfl, fun arithmetic => arithmetic.loadB⟩
  · cases isOpcode
    exact ⟨32, rfl, by simp, rfl, fun arithmetic => arithmetic.loadW⟩
  · cases isOpcode
    exact ⟨64, rfl, by simp, rfl, fun _ _ => rfl⟩
  · cases isOpcode
  · cases isOpcode

theorem storeOpcode_eq_ok {value : Operand} {opcode : Opcode}
    (isOpcode : storeOpcode value = .ok opcode) :
    ∃ bits, value.type = .int bits ∧ bits ∈ [8, 32, 64] ∧ opcode.behavior = .store (bits / 8) := by
  unfold storeOpcode at isOpcode
  split at isOpcode
  · rename_i isType
    cases isOpcode
    exact ⟨8, isType, by simp, rfl⟩
  · rename_i isType
    cases isOpcode
    exact ⟨32, isType, by simp, rfl⟩
  · rename_i isType
    cases isOpcode
    exact ⟨64, isType, by simp, rfl⟩
  · cases isOpcode
  · cases isOpcode

/-- A load. -/
theorem executes_lowerLoad (arithmetic : MachineArithmetic isa) {instruction : Instruction}
    {pointer : Operand} (lowered : lowerLoad instruction pointer selection = .ok after)
    (state : State Reg) :
    ∃ base offset bits v final, lowerPtrOperand pointer selection = .ok (base, offset) ∧
      instruction.type = .int bits ∧ bits ∈ [8, 32, 64] ∧
      after.vregMap.lookup instruction.ref = some v ∧
      Executes isa selection state after final ∧ final.mem = state.mem ∧
      (final.gpr (.vreg v)).setWidth bits =
        (state.mem.read (baseWord state base + offset) (bits / 8)).setWidth bits := by
  obtain ⟨opcode, isOpcode, lowered⟩ := bind_eq_ok.mp lowered
  obtain ⟨⟨base, offset⟩, isBase, lowered⟩ := bind_eq_ok.mp lowered
  cases lowered
  obtain ⟨bits, isType, width, isLoad, keepsBytes⟩ := loadOpcode_eq_ok isOpcode
  have denotes : (⟨opcode, some (.vreg selection.nextVreg), addressSrcs base offset⟩ :
      Syllable).action = some (.load opcode (bits / 8) (some (.vreg selection.nextVreg))
        (base.address offset).1 (base.address offset).2) := by
    rw [Syllable.action]
    simp only [isLoad, loadAddress_addressSrcs, Option.map_some]
  refine ⟨base, offset, bits, selection.nextVreg, Action.exec isa _ state, isBase, isType, width,
    AList.lookup_insert _, executes_action denotes rfl (Nat.le_succ _) ?_, rfl, ?_⟩
  · rintro v (isDst | isDst)
    · cases isDst
      exact ⟨Nat.le_refl _, Nat.lt_succ_self _⟩
    · cases isDst
  · rw [Action.exec_gpr_of_eq isa _ state rfl (Reg.vreg_ne_zero _), readGpr_address]
    exact keepsBytes arithmetic _

theorem lowerPtrOperand_congr {operand : Operand} (sameVregs : after.vregMap = selection.vregMap)
    (sameGeps : after.gepMap = selection.gepMap) :
    lowerPtrOperand operand after = lowerPtrOperand operand selection := by
  unfold lowerPtrOperand
  rw [sameVregs, sameGeps]

/-- A store. -/
theorem executes_lowerStore (arithmetic : MachineArithmetic isa) {value pointer : Operand}
    (bounded : Bounded selection) (lowered : lowerStore value pointer selection = .ok after)
    (state : State Reg) :
    ∃ base offset bits final, lowerPtrOperand pointer selection = .ok (base, offset) ∧
      value.type = .int bits ∧ bits ∈ [8, 32, 64] ∧ Executes isa selection state after final ∧
      final.mem = state.mem.write (storeWrites (baseWord state base + offset) (bits / 8)
        (operandWord selection state value)) := by
  obtain ⟨opcode, isOpcode, lowered⟩ := bind_eq_ok.mp lowered
  obtain ⟨⟨data, first⟩, isData, lowered⟩ := bind_eq_ok.mp lowered
  obtain ⟨⟨base, offset⟩, isBase, lowered⟩ := bind_eq_ok.mp lowered
  cases lowered
  obtain ⟨bits, isType, width, isStore⟩ := storeOpcode_eq_ok isOpcode
  obtain ⟨v, between, rfl, -, executes, sameMem, isWord⟩ :=
    executes_lowerOperand arithmetic bounded isData state
  have isBase := (lowerPtrOperand_congr (takes_of_lowerOperand isData).2
    (gepMap_of_lowerOperand isData)).symm.trans isBase
  have denotes : (⟨opcode, none, addressSrcs base offset ++ [.reg (.vreg v)]⟩ : Syllable).action =
      some (.store (bits / 8) (base.address offset).1 (base.address offset).2
        (.gpr (.vreg v))) := by
    rw [Syllable.action]
    simp only [isStore, storeOperands_addressSrcs, Option.bind_some]
    rfl
  have sameBase : baseWord between base = baseWord state base := by
    rcases bounded.base isBase with ⟨address, rfl⟩ | ⟨u, isOld, rfl⟩
    · rfl
    · simp only [baseWord, State.readGpr, executes.gpr u (.inl isOld)]
  have stored : ∃ final, Executes isa first between
      (first.push ⟨opcode, none, addressSrcs base offset ++ [.reg (.vreg v)]⟩) final ∧
        final.mem = between.mem.write (storeWrites (baseWord between base + offset) (bits / 8)
          (between.gpr (.vreg v))) := by
    refine ⟨_, executes_action denotes rfl (Nat.le_refl _) ?_, ?_⟩
    · rintro u (isDst | isDst)
      · cases isDst
      · cases isDst
    · rw [← readGpr_address]
      simp [Action.exec, Action.effect, Machine.Effect.apply, Source.read, State.readGpr,
        Reg.vreg_ne_zero, Machine.Datum.toWord]
  obtain ⟨final, stores, finalMem⟩ := stored
  refine ⟨base, offset, bits, final, isBase, isType, width, executes.trans stores, ?_⟩
  rw [finalMem, sameMem, sameBase, isWord]

/-- A store depends on the bytes that it writes only. -/
theorem storeWrites_congr {address : Word} {bits : Nat} {word word' : Word}
    (same : word.setWidth bits = word'.setWidth bits) :
    storeWrites address (bits / 8) word = storeWrites address (bits / 8) word' := by
  rw [Memory.storeWrites_eq, Memory.storeWrites_eq]
  refine List.map_congr_left fun k inside => ?_
  rw [List.mem_range] at inside
  refine Prod.ext rfl (BitVec.eq_of_getLsbD_eq fun i less => ?_)
  have sameBit := congrArg (·.getLsbD (8 * k + i)) same
  have inWord : 8 * k + i < bits := by omega
  simpa [inWord, less] using sameBit

end

end VliwCompiler.Isel
