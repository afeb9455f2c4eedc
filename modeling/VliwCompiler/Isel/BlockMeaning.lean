import VliwCompiler.Isel.Effects

/-!
# Blocks and their code

Executing the code of a block gives all values of the block to their registers,
and its terminator leads to the block that the LLVM function enters next.
-/

namespace VliwCompiler.Isel

open Asm (Opcode I64)
open Mir (Reg Value Terminator execSyllables)
open Llvm (BlockRef ValueRef Ty Operand Operation Instruction Env Frame Config)
open Machine (Action Isa Memory State Word)
open Worklist (Edge)

section

variable {module : Llvm.Module} {memorySize : Nat} {function : Llvm.Function} {final : Selection}
  {visited : List String} {label : String} {node : BlockRef} {block : Llvm.Block}
  {front back : List Instruction} {instruction : Instruction} {current next : Selection}
  {isa : Isa Opcode} {state : State Reg} {frame after : Frame}

/-- Instructions without a value make nothing known. -/
theorem Carried.snoc_void (carried : Carried function final node front state frame.env)
    (isVoid : instruction.type = .void) :
    Carried function final node (front ++ [instruction]) state frame.env := by
  intro key known word isWord
  rcases known.of_snoc with isOlder | ⟨-, notVoid⟩
  · exact carried key isOlder word isWord
  · exact absurd isVoid notVoid

/-- A move to the return register. -/
theorem executes_move {selection after : Selection} {opcode : Opcode} {src : Value}
    {source : Machine.Source Reg} {word : Word} (isCompute : opcode.behavior = .compute)
    (isSource : src.source (Mir.predicateSources opcode) = some source)
    (isResult : isa.result opcode [source.read state] = word)
    (sameCode : after.syllables =
      selection.syllables ++ [⟨opcode, some (.preg retvalReg), [src]⟩])
    (isNext : after.nextVreg = selection.nextVreg) :
    ∃ final', Executes isa selection state after final' ∧ final'.mem = state.mem ∧
      final'.readGpr (.preg retvalReg) = word := by
  have denotes : (⟨opcode, some (.preg retvalReg), [src]⟩ : Mir.Syllable).action =
      some (.compute opcode (some (.preg retvalReg)) [source]) := by
    rw [Mir.Syllable.action]
    simp [isCompute, isSource]
  have notZero : (.preg retvalReg : Reg) ≠ 0 := by decide
  refine ⟨_, executes_action denotes sameCode (Nat.le_of_eq isNext.symm) ?_, rfl, ?_⟩
  · rintro v (isDst | isDst)
    · cases isDst
    · cases isDst
  · rw [State.readGpr, if_neg notZero, Action.exec_gpr_of_eq isa _ state rfl notZero, ← isResult]
    rfl

theorem word_of_intConstant {operand : Operand} {constant word : I64} {env : Env}
    (isConstant : intConstant operand = some constant) (isWord : operand.word env = some word) :
    constant = word := by
  cases operand with
  | constInt width value => exact (Option.some.inj isConstant).symm.trans (Option.some.inj isWord)
  | const type => cases isWord
  | _ => cases isConstant

theorem intType_of_contains {type : Ty}
    (fits : [Ty.int 8, .int 32, .int 64].contains type = true) : ∃ bits, type = .int bits := by
  simp only [List.contains_eq_mem, List.mem_cons, List.not_mem_nil, or_false,
    decide_eq_true_eq] at fits
  rcases fits with isInt | isInt | isInt
  · exact ⟨_, isInt⟩
  · exact ⟨_, isInt⟩
  · exact ⟨_, isInt⟩

/-- A flag is the low bit of its word. -/
theorem flag_setWidth (word : I64) : word.getLsbD 0 = decide (word.setWidth 1 = (1 : BitVec 1)) := by
  rw [Bool.eq_iff_iff, decide_eq_true_iff]
  constructor
  · intro isSet
    refine BitVec.eq_of_getLsbD_eq fun i less => ?_
    obtain rfl : i = 0 := by omega
    simp [isSet]
  · intro same
    have bit := congrArg (·.getLsbD 0) same
    simpa using bit

/-- A terminator does nothing but leave the block. -/
theorem exec_of_leave {between : Frame} {config : Config}
    (left : function.leave node after instruction.operation = some config)
    (executed : instruction.exec between = some after) : after = between := by
  unfold Llvm.Function.leave at left
  split at left
  · rename_i isOperation
    rw [Llvm.Instruction.exec, isOperation] at executed
    exact (Option.some.inj executed).symm
  · rename_i isOperation
    rw [Llvm.Instruction.exec, isOperation] at executed
    exact (Option.some.inj executed).symm
  · rename_i isOperation
    rw [Llvm.Instruction.exec, isOperation] at executed
    exact (Option.some.inj executed).symm
  · cases left

/-- How a block ends: its function returns a value, or an edge leads to the next
block. -/
inductive BlockEnd (function : Llvm.Function) (final : Selection) (label : String)
    (node : BlockRef) (block : Llvm.Block) (state : State Reg) (terminator : Terminator)
    (frame : Frame) : Config → Prop where
  | returned {result : Option (Nat × I64)} (isRet : terminator = .ret)
      (value : ∀ bits word, result = some (bits, word) →
        (state.readGpr (.preg retvalReg)).setWidth bits = word.setWidth bits) :
      BlockEnd function final label node block state terminator frame ⟨none, frame, result⟩
  | edge {target : BlockRef} {name : String}
      (isName : (blockLabels function)[target]? = some name)
      (edge : Edge function.successors node target)
      (isNext : nextLabel function label state terminator = some (some name))
      (carried : Carried function final node block.instructions state frame.env) :
      BlockEnd function final label node block state terminator frame
        (function.enter node target frame)

namespace Setting

variable (setting : Setting function final) (arithmetic : MachineArithmetic isa)

include setting arithmetic

/-- The code of one more instruction. -/
theorem simulates
    (underway : Underway module memorySize function final visited label node block front
      (instruction :: back) current)
    (sameMem : state.mem = frame.mem) (carried : Carried function final node front state frame.env)
    (notTerminator : instruction.operation.isTerminator = false)
    (executed : instruction.exec frame = some after) :
    ∃ next final', lowerInstruction module memorySize (labelOf function) label current instruction =
        .ok next ∧
      Underway module memorySize function final visited label node block (front ++ [instruction])
        back next ∧ Executes isa current state next final' ∧ final'.mem = after.mem ∧
      Carried function final node (front ++ [instruction]) final' after.env := by
  obtain ⟨next, isLowered, underwayNext⟩ := underway.step setting.isSsa
  have lowered := isLowered
  by_cases isPhi : ∃ incoming, instruction.operation = .phi incoming
  · obtain ⟨incoming, isPhi⟩ := isPhi
    have carriedNext := underway.carried_phi isPhi carried executed
    rw [Llvm.Instruction.exec, isPhi] at executed
    rw [lowerInstruction, isPhi] at lowered
    obtain ⟨raw, -, lowered⟩ := bind_eq_ok.mp lowered
    have isNext := Except.ok.inj lowered
    refine ⟨next, state, isLowered, underwayNext, .of_same (by rw [← isNext]; rfl) ?_, ?_, carriedNext⟩
    · rw [← isNext]
      exact Nat.le_succ _
    · rw [← Option.some.inj executed]
      exact sameMem
  · have notPhi : ∀ incoming, instruction.operation ≠ .phi incoming := not_exists.mp isPhi
    have placed : Placed module memorySize function final visited label node block front back
        instruction current next :=
      ⟨setting, underway, notPhi, lowered, underwayNext.extended setting.isSsa⟩
    have performed : ∃ final', Performs isa function final current next instruction state final'
        after := by
      cases isOperation : instruction.operation with
      | phi incoming => exact absurd isOperation (notPhi incoming)
      | binary op lhs rhs =>
          exact placed.performs_binary arithmetic sameMem carried executed isOperation
      | icmp predicate lhs rhs =>
          exact placed.performs_icmp arithmetic sameMem carried executed isOperation
      | load pointer => exact placed.performs_load arithmetic sameMem carried executed isOperation
      | store value pointer =>
          exact placed.performs_store arithmetic sameMem carried executed isOperation
      | getElementPtr element base indices =>
          exact placed.performs_getElementPtr carried executed sameMem isOperation
      | ret | condBr | br =>
          rw [isOperation] at notTerminator
          cases notTerminator
      | call | invoke | atomic | other =>
          rw [Llvm.Instruction.exec, isOperation] at executed
          cases executed
    obtain ⟨final', performs⟩ := performed
    exact ⟨next, final', isLowered, underwayNext, performs.executes, performs.mem,
      underway.carried_snoc setting.isSsa setting.distinct setting.recorded
        (fun _ => mem_of_lowered) underwayNext notPhi lowered performs.executes carried executed
        performs.value⟩

/-- The code of the instructions before a terminator. -/
theorem simulates_body {body : List Instruction}
    (underway : Underway module memorySize function final visited label node block front
      (body ++ back) current)
    (sameMem : state.mem = frame.mem) (carried : Carried function final node front state frame.env)
    (straight : ∀ instruction ∈ body, instruction.operation.isTerminator = false)
    (executed : body.foldlM Instruction.exec frame = some after) :
    ∃ next final', body.foldlM (lowerInstruction module memorySize (labelOf function) label)
        current = .ok next ∧
      Underway module memorySize function final visited label node block (front ++ body) back next ∧
      Executes isa current state next final' ∧ final'.mem = after.mem ∧
      Carried function final node (front ++ body) final' after.env := by
  induction body generalizing front current state frame with
  | nil =>
      cases executed
      rw [List.append_nil]
      exact ⟨current, state, rfl, underway, .refl, sameMem, carried⟩
  | cons instruction body ih =>
      rw [List.foldlM_cons] at executed
      obtain ⟨middle, first, executed⟩ := Option.bind_eq_some_iff.mp executed
      obtain ⟨notTerminator, straight⟩ := List.forall_mem_cons.mp straight
      obtain ⟨next, between, lowered, underway, executes, sameMem, carried⟩ :=
        setting.simulates arithmetic underway sameMem carried notTerminator first
      obtain ⟨last, final', loweredRest, underway, executesRest, sameMem, carried⟩ :=
        ih underway sameMem carried straight executed
      rw [List.append_assoc] at underway carried
      refine ⟨last, final', ?_, underway, executes.trans executesRest, sameMem, carried⟩
      rw [List.foldlM_cons, lowered]
      exact loweredRest

/-! ### Terminators -/

omit arithmetic in
/-- The register of a branch condition. -/
theorem condition_eq
    (underway : Underway module memorySize function final visited label node block front
      (instruction :: back) current)
    (carried : Carried function final node front state frame.env) {cond : Operand}
    {ifTrue ifFalse : BlockRef} (isOperation : instruction.operation = .condBr cond ifTrue ifFalse)
    {v : Nat} (isBound : cond.ref?.bind current.vregMap.lookup = some v) {flag : BitVec 1}
    (isFlag : cond.eval frame.env 1 = some flag) :
    state.pred (.vreg v) = decide (flag = 1) := by
  obtain ⟨key, isKey, wasBound⟩ := Option.bind_eq_some_iff.mp isBound
  cases cond with
  | ref ref type =>
      obtain rfl := Option.some.inj isKey
      obtain ⟨word, isWord, rfl⟩ := Option.map_eq_some_iff.mp isFlag
      have blockMem : instruction ∈ block.instructions := by simp [underway.isInstructions]
      have isOperand : .ref ref type ∈ instruction.operation.operands := by
        simp [isOperation, Operation.operands]
      obtain ⟨known, -⟩ := known_of_operand setting.isSsa underway.isNode underway.isInstructions
        (by simp [isOperation]) isOperand
      have isComparison := (setting.supported.comparisons instruction
        (underway.mem_lowered setting.distinct blockMem) ⟨true, ref⟩
        (by simp [isOperation, codeUses, refUse, Operand.ref?])).symm
      have isBound := (underway.extended setting.isSsa).vregs ref v wasBound
      cases carried ref known word isWord with
      | register notFlag _ _ =>
          rw [notFlag] at isComparison
          cases isComparison
      | pointer isFolded _ =>
          rw [notFolded_of_bound setting.isSsa setting.recorded (fun _ => mem_of_lowered) isBound]
            at isFolded
          cases isFolded
      | flag _ isOther same =>
          obtain rfl := Option.some.inj (isOther.symm.trans isBound)
          rw [same]
          exact flag_setWidth word
  | _ => cases isKey

/-- The return register gets the returned value. -/
theorem executes_lowerReturn {value : Option Operand}
    (underway : Underway module memorySize function final visited label node block front
      (instruction :: back) current)
    (carried : Carried function final node front state frame.env)
    (isOperation : instruction.operation = .ret value)
    (lowered : lowerReturn value current = .ok next) :
    next.terminator = .ret ∧ ∃ final', Executes isa current state next final' ∧
      final'.mem = state.mem ∧ ∀ bits word, Llvm.returned frame.env value = some (bits, word) →
        (final'.readGpr (.preg retvalReg)).setWidth bits = word.setWidth bits := by
  have blockMem : instruction ∈ block.instructions := by simp [underway.isInstructions]
  have instructionMem := included_block underway.isNode instruction blockMem
  have fits := setting.supported.widths instruction instructionMem
  rw [widthFits, isOperation] at fits
  unfold lowerReturn at lowered
  split at lowered
  · rename_i constant isConstant
    cases lowered
    have moved : ∃ final', Executes isa current state { current.push
        ⟨.movImm, some (.preg retvalReg), [.imm constant]⟩ with terminator := .ret } final' ∧
        final'.mem = state.mem ∧ final'.readGpr (.preg retvalReg) = constant :=
      executes_move rfl rfl (arithmetic.movImm constant) rfl rfl
    obtain ⟨final', executes, sameMem, isResult⟩ := moved
    refine ⟨rfl, final', executes, sameMem, ?_⟩
    intro bits word isReturned
    obtain ⟨operand, rfl, isConstant⟩ := Option.bind_eq_some_iff.mp isConstant
    obtain ⟨other, isWord, isPair⟩ := Option.map_eq_some_iff.mp isReturned
    cases isPair
    rw [isResult, ← word_of_intConstant isConstant isWord]
  · rename_i key width isNone
    obtain ⟨v, wasBound, lowered⟩ := bind_eq_ok.mp lowered
    cases lowered
    have wasBound := expect_eq_ok.mp wasBound
    have moved : ∃ final', Executes isa current state { current.push
        ⟨.mov, some (.preg retvalReg), [.reg (.vreg v)]⟩ with terminator := .ret } final' ∧
        final'.mem = state.mem ∧ final'.readGpr (.preg retvalReg) = state.readGpr (.vreg v) :=
      executes_move rfl rfl (arithmetic.mov _) rfl rfl
    obtain ⟨final', executes, sameMem, isResult⟩ := moved
    refine ⟨rfl, final', executes, sameMem, ?_⟩
    intro bits word isReturned
    obtain ⟨other, isWord, isPair⟩ := Option.map_eq_some_iff.mp isReturned
    cases isPair
    have isOperand : .ref key (.int width) ∈ instruction.operation.operands := by
      simp [isOperation, Operation.operands]
    have isUse : ∀ ref type, Operand.ref key (.int width) = .ref ref type →
        ⟨false, ref⟩ ∈ codeUses instruction.operation := by
      rintro ref type isRef
      cases isRef
      simp [isOperation, codeUses, intUse]
    have hasRegister : HasRegister current (.ref key (.int width)) := by
      rintro ref type isRef
      cases isRef
      exact ⟨v, wasBound⟩
    have same := underway.operandWord_eq setting.isSsa setting.distinct
      setting.supported.comparisons setting.recorded (fun _ => mem_of_lowered) carried
      (by simp [isOperation]) isOperand (by simp [Operand.type]) isUse hasRegister isWord
    rw [isResult, State.readGpr, if_neg (Reg.vreg_ne_zero _)]
    rw [operandWord, wasBound] at same
    exact same
  · rename_i notInt notConstant
    cases lowered
    refine ⟨rfl, state, .of_same rfl (Nat.le_refl _), rfl, ?_⟩
    intro bits word isReturned
    obtain ⟨operand, rfl, isReturned⟩ := Option.bind_eq_some_iff.mp isReturned
    obtain ⟨other, isWord, -⟩ := Option.map_eq_some_iff.mp isReturned
    have isInt := intType_of_contains fits
    cases operand with
    | constInt width constant => cases notConstant
    | constAddress bits value =>
        obtain ⟨width, isInt⟩ := isInt
        cases isInt
    | constCast => cases isWord
    | const type => cases isWord
    | ref key type =>
        obtain ⟨width, rfl⟩ := isInt
        exact absurd rfl (notInt key width)

omit arithmetic in
/-- The labels that a terminator leads to. -/
theorem successors_eq {last : Instruction} (isNode : function.blocks[node]? = some block)
    (isLabel : (blockLabels function)[node]? = some label)
    (isLast : block.instructions.getLast? = some last) :
    (∀ target, last.operation = .br target → ∃ name, Edge function.successors node target ∧
        (blockLabels function)[target]? = some name ∧
          successorsOf function label = ⟨none, some name⟩) ∧
      ∀ cond ifTrue ifFalse, last.operation = .condBr cond ifTrue ifFalse →
        ∃ trueName falseName, Edge function.successors node ifTrue ∧
          Edge function.successors node ifFalse ∧
          (blockLabels function)[ifTrue]? = some trueName ∧
          (blockLabels function)[ifFalse]? = some falseName ∧
          successorsOf function label = ⟨some falseName, some trueName⟩ := by
  have instructionMem := included_block isNode last (List.mem_of_getLast? isLast)
  have isSuccessors : function.successors node = block.successors := by
    rw [Llvm.Function.successors, isNode]
    rfl
  have named : ∀ target ∈ last.operation.blocks, ∃ name,
      (blockLabels function)[target]? = some name := fun target targetMem =>
    exists_label (setting.isSsa.blocks last instructionMem target targetMem)
  have labels := successorsOf_eq setting.isSsa (found_of_nodup setting.distinct isLabel)
  unfold Edge
  rw [isSuccessors, Llvm.Block.successors, isLast, Option.map_some] at labels ⊢
  refine ⟨?_, ?_⟩
  · intro target isBr
    rw [isBr] at labels named ⊢
    obtain ⟨name, isName⟩ := named target (by simp [Operation.blocks])
    refine ⟨name, .inr rfl, isName, labels.trans ?_⟩
    rw [Option.bind_some, isName]
    rfl
  · intro cond ifTrue ifFalse isCondBr
    rw [isCondBr] at labels named ⊢
    obtain ⟨trueName, isTrueName⟩ := named ifTrue (by simp [Operation.blocks])
    obtain ⟨falseName, isFalseName⟩ := named ifFalse (by simp [Operation.blocks])
    refine ⟨trueName, falseName, .inr rfl, .inl rfl, isTrueName, isFalseName, labels.trans ?_⟩
    rw [Option.bind_some, Option.bind_some, isTrueName, isFalseName]

/-- The code of a terminator. -/
theorem simulates_terminator
    (underway : Underway module memorySize function final visited label node block front
      [instruction] current)
    (isLabel : (blockLabels function)[node]? = some label)
    (sameMem : state.mem = frame.mem) (carried : Carried function final node front state frame.env)
    (lowered : lowerInstruction module memorySize (labelOf function) label current instruction =
      .ok next) {config : Config}
    (left : function.leave node frame instruction.operation = some config) :
    ∃ final', Executes isa current state next final' ∧ final'.mem = frame.mem ∧
      BlockEnd function final label node block final' next.terminator frame config := by
  have isLast : block.instructions.getLast? = some instruction := by
    rw [underway.isInstructions, List.getLast?_concat]
  have instructionMem := included_block underway.isNode instruction (List.mem_of_getLast? isLast)
  obtain ⟨onBr, onCondBr⟩ := setting.successors_eq underway.isNode isLabel isLast
  have isVoid := (setting.isSsa.typed instruction instructionMem).result
  cases isOperation : instruction.operation with
  | ret value =>
      rw [lowerInstruction, isOperation] at lowered
      rw [isOperation] at left
      obtain ⟨isRet, final', executes, finalMem, isResult⟩ :=
        setting.executes_lowerReturn arithmetic underway carried isOperation lowered
      obtain rfl := Option.some.inj left
      exact ⟨final', executes, finalMem.trans sameMem, .returned isRet isResult⟩
  | br target =>
      rw [isOperation] at isVoid left
      rw [lowerInstruction, isOperation] at lowered
      obtain ⟨name, edge, isName, -⟩ := onBr target isOperation
      obtain ⟨other, isOther, lowered⟩ := bind_eq_ok.mp lowered
      obtain rfl := Option.some.inj ((labelOf_eq_ok.mp isOther).symm.trans isName)
      cases lowered
      obtain rfl := Option.some.inj left
      refine ⟨state, .of_same rfl (Nat.le_refl _), sameMem, .edge isName edge rfl ?_⟩
      rw [underway.isInstructions]
      exact carried.snoc_void (of_decide_eq_true isVoid)
  | condBr cond ifTrue ifFalse =>
      rw [isOperation] at isVoid left
      rw [lowerInstruction, isOperation] at lowered
      obtain ⟨trueName, falseName, trueEdge, falseEdge, isTrueName, isFalseName, isSuccessors⟩ :=
        onCondBr cond ifTrue ifFalse isOperation
      obtain ⟨other, isOther, lowered⟩ := bind_eq_ok.mp lowered
      obtain rfl := Option.some.inj ((labelOf_eq_ok.mp isOther).symm.trans isTrueName)
      obtain ⟨otherFalse, isOtherFalse, lowered⟩ := bind_eq_ok.mp lowered
      obtain ⟨v, isBound, lowered⟩ := bind_eq_ok.mp lowered
      cases lowered
      obtain ⟨flag, isFlag, rfl⟩ := Option.map_eq_some_iff.mp left
      have isPred := setting.condition_eq underway carried isOperation (expect_eq_ok.mp isBound) isFlag
      have carriedAll : Carried function final node block.instructions state frame.env := by
        rw [underway.isInstructions]
        exact carried.snoc_void (of_decide_eq_true (Bool.and_eq_true_iff.mp isVoid).1)
      refine ⟨state, .of_same rfl (Nat.le_refl _), sameMem, ?_⟩
      by_cases isSet : flag = 1
      · rw [if_pos isSet]
        refine .edge isTrueName trueEdge ?_ carriedAll
        rw [nextLabel, isPred, decide_eq_true isSet, if_pos rfl]
      · rw [if_neg isSet]
        refine .edge isFalseName falseEdge ?_ carriedAll
        rw [nextLabel, isPred, decide_eq_false isSet, isSuccessors]
        rfl
  | _ =>
      rw [isOperation] at left
      cases left

/-- The code of a block. -/
theorem simulates_block {site : Site} {before made : Selection}
    (underway : Underway module memorySize function final visited site.label node block []
      block.instructions before)
    (lowered : block.instructions.foldlM
      (lowerInstruction module memorySize (labelOf function) site.label) before = .ok made)
    (isLabel : (blockLabels function)[node]? = some site.label)
    (empty : before.syllables = [])
    (sameMem : state.mem = frame.mem) (carried : Carried function final node [] state frame.env)
    {config : Config} (stepped : function.step ⟨some node, frame, none⟩ = some config) :
    ∃ final' frame', execSyllables isa made.syllables state = some final' ∧
      final'.mem = frame'.mem ∧
      BlockEnd function final site.label node block final' made.terminator frame' config := by
  rw [Llvm.Function.step, Option.bind_some, underway.isNode, Option.bind_some] at stepped
  obtain ⟨after, executed, stepped⟩ := Option.bind_eq_some_iff.mp stepped
  obtain ⟨last, isLast, left⟩ := Option.bind_eq_some_iff.mp stepped
  obtain ⟨body, isBody⟩ := List.getLast?_eq_some_iff.mp isLast
  rw [isBody, List.foldlM_append] at executed lowered
  obtain ⟨middle, executed, ended⟩ := Option.bind_eq_some_iff.mp executed
  obtain ⟨current, loweredBody, loweredLast⟩ := bind_eq_ok.mp lowered
  have straight := setting.isSsa.straight (List.mem_of_getElem? underway.isNode) isBody
  have started : Underway module memorySize function final visited site.label node block []
      (body ++ [last]) before := isBody ▸ underway
  obtain ⟨next, between, isNext, ending, executes, betweenMem, carriedBody⟩ :=
    setting.simulates_body arithmetic started sameMem carried straight executed
  obtain rfl := Except.ok.inj (isNext.symm.trans loweredBody)
  obtain ⟨next, isMade, isAfter⟩ := bind_eq_ok.mp loweredLast
  cases isAfter
  obtain ⟨other, isOther, isSame⟩ := Option.bind_eq_some_iff.mp ended
  cases isSame
  obtain rfl := exec_of_leave left isOther
  obtain ⟨final', executesLast, finalMem, isEnd⟩ := setting.simulates_terminator arithmetic ending
    isLabel betweenMem carriedBody isMade left
  obtain ⟨code, isCode, executed⟩ := (executes.trans executesLast).code
  rw [empty, List.nil_append] at isCode
  rw [isCode]
  exact ⟨final', _, executed, finalMem, isEnd⟩

end Setting

end

end VliwCompiler.Isel
