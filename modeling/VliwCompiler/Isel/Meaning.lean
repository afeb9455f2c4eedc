import VliwCompiler.Isel.Carried

/-!
# Meaning of selected code

The code selected for an instruction computes the value of the instruction from
the values that the registers carry.  The upper halves of registers are left as
they are, so right shifts and comparisons are right for 64-bit operands only.
-/

namespace VliwCompiler.Isel

open Asm (Opcode I64)
open Mir (Reg Value execSyllables)
open Llvm (BlockRef ValueRef Ty Operand Instruction Env Frame)
open Worklist (Dominates Edge)
open Machine (Isa Memory State Word storeWrites)

/-! ### Supported instructions -/

/-- The types of operands and results agree, as in every LLVM function. -/
def typesAgree (instruction : Instruction) : Bool :=
  match instruction.operation with
  | .binary _ lhs rhs => lhs.type = instruction.type && rhs.type = instruction.type
  | .icmp _ lhs rhs => rhs.type = lhs.type
  | .phi incoming => incoming.all (·.1.type = instruction.type)
  | _ => true

/-- The instruction does not depend on the upper part of registers: right shifts and
comparisons are of words, elements are whole bytes, and integers are returned. -/
def widthFits (instruction : Instruction) : Bool :=
  match instruction.operation with
  | .binary op lhs _ => [.int 8, .int 32, .int 64].contains lhs.type &&
      (!([.lshr, .ashr].contains op) || lhs.type = .int 64)
  | .icmp _ lhs _ => lhs.type = .int 64
  | .getElementPtr element _ _ => [.int 8, .int 16, .int 32, .int 64].contains element
  | .ret (some value) => [.int 8, .int 32, .int 64].contains value.type
  | _ => true

/-- Sign extension of the integer gives the address that LLVM converts it to. -/
def addressFits : Operand → Bool
  | .constAddress bits value => Llvm.intToPtr bits value = value
  | _ => true

/-- A function whose values fit into registers as they are used. -/
structure Supported (function : Llvm.Function) : Prop where
  types : ∀ instruction ∈ function.instructions, typesAgree instruction = true
  widths : ∀ instruction ∈ function.instructions, widthFits instruction = true
  addresses : ∀ instruction ∈ function.instructions, ∀ operand ∈ instruction.operation.operands,
    addressFits operand = true
  comparisons : ComparisonsBranchOnly function

/-! ### Results -/

/-- The amount of a shift that is not poison. -/
theorem shiftAmount_toNat {bits : Nat} (width : bits ∈ [8, 32, 64]) {amount : Word}
    (small : (amount.setWidth bits).toNat < bits) :
    amount.toNat % 64 = (amount.setWidth bits).toNat := by
  simp only [List.mem_cons, List.not_mem_nil, or_false] at width
  rw [BitVec.toNat_setWidth] at small ⊢
  rcases width with rfl | rfl | rfl
  · omega
  · omega
  · omega

/-- The low bits of a result depend on the low bits of the operands. -/
theorem setWidth_wordResult {bits : Nat} (width : bits ∈ [8, 32, 64]) {op : Llvm.BinaryOp}
    (words : op ∈ [.lshr, .ashr] → bits = 64) (left right : Word) {value : BitVec bits}
    (isValue : op.eval (left.setWidth bits) (right.setWidth bits) = some value) :
    (wordResult left right op).setWidth bits = value := by
  have le : bits ≤ 64 := by
    simp only [List.mem_cons, List.not_mem_nil, or_false] at width
    omega
  cases op with
  | shl =>
      simp only [Llvm.BinaryOp.eval, Llvm.shiftBy] at isValue
      split at isValue
      · rename_i small
        rw [wordResult, shiftAmount_toNat width small, BitVec.setWidth_shiftLeft_of_le le]
        exact Option.some.inj isValue
      · cases isValue
  | lshr | ashr =>
      obtain rfl := words (by simp)
      simp only [BitVec.setWidth_eq] at isValue ⊢
      simp only [Llvm.BinaryOp.eval, Llvm.shiftBy] at isValue
      split at isValue
      · rename_i small
        rw [wordResult, Nat.mod_eq_of_lt small]
        exact Option.some.inj isValue
      · cases isValue
  | add =>
      obtain rfl := Option.some.inj isValue
      exact BitVec.setWidth_add _ _ le
  | sub =>
      obtain rfl := Option.some.inj isValue
      exact Truncation.setWidth_sub le _ _
  | mul =>
      obtain rfl := Option.some.inj isValue
      exact BitVec.setWidth_mul _ _ le
  | and | or | xor =>
      obtain rfl := Option.some.inj isValue
      simp [wordResult]

/-- The flag of a comparison of words. -/
theorem wordFlag_eq {predicate : Llvm.IntPredicate} (supported : predicate.isSupported = true)
    (left right : Word) : wordFlag left right predicate = predicate.eval left right := by
  cases predicate with
  | eq | ne | ugt | ult | sgt | slt => rfl
  | uge | ule | sge | sle => cases supported

/-- A displacement is the sum of the indices. -/
theorem foldIndex_eq {env : Env} {element : Ty} {elemBytes : I64}
    (isSize : BitVec.ofNat 64 element.bytes = elemBytes) {indices : List Operand}
    {offset total address word : I64}
    (folded : indices.foldlM (foldIndex elemBytes) offset = .ok total)
    (advanced : indices.foldlM (Llvm.advancePointer env element) (address + offset) = some word) :
    word = address + total := by
  induction indices generalizing offset with
  | nil =>
      cases folded
      cases advanced
      rfl
  | cons index indices ih =>
      rw [List.foldlM_cons] at folded advanced
      obtain ⟨middle, first, folded⟩ := bind_eq_ok.mp folded
      obtain ⟨next, isNext, advanced⟩ := Option.bind_eq_some_iff.mp advanced
      refine ih folded ?_
      obtain ⟨value, isValue, rfl⟩ := Option.map_eq_some_iff.mp isNext
      unfold foldIndex at first
      split at first
      · rename_i constant isConstant
        obtain ⟨product, isProduct, isSum⟩ := bind_eq_ok.mp first
        obtain ⟨-, rfl⟩ := checkedMul_eq_ok.mp isProduct
        obtain ⟨-, rfl⟩ := checkedAdd_eq_ok.mp isSum
        have same : constant = value := by
          cases index with
          | constInt bits number =>
              cases isConstant
              exact Option.some.inj isValue
          | const type => cases isValue
          | _ => cases isConstant
        rw [same, ← isSize, ← add_assoc]
        exact advanced
      · cases first

/-! ### Places in the code of a block -/

/-- The lowering of a block after the instructions `front`. -/
structure Underway (module : Llvm.Module) (memorySize : Nat) (function : Llvm.Function)
    (final : Selection) (visited : List String) (label : String) (node : BlockRef)
    (block : Llvm.Block) (front back : List Instruction) (current : Selection) : Prop where
  isNode : function.blocks[node]? = some block
  isLabel : (blockLabels function)[node]? = some label
  isOrder : ∃ rest, blockOrder function = visited ++ label :: rest
  isInstructions : block.instructions = front ++ back
  bounded : Bounded current
  recorded : Recorded function (visited.flatMap (instructionsOf function) ++ front) current
  fresh : ∀ instruction ∈ back, Unrecorded current instruction.ref
  rest : ∃ after, back.foldlM (lowerInstruction module memorySize (labelOf function) label) current =
    .ok after ∧ Extends after final

section

variable {module : Llvm.Module} {memorySize : Nat} {function : Llvm.Function} {final : Selection}
  {visited : List String} {label : String} {node : BlockRef} {block : Llvm.Block}
  {front back : List Instruction} {instruction : Instruction} {current next : Selection}

theorem Underway.distinct (isSsa : function.IsSsa)
    (underway : Underway module memorySize function final visited label node block front back
      current) : ((front ++ back).map (·.ref)).Nodup :=
  underway.isInstructions ▸ nodup_refs isSsa underway.isNode

theorem Underway.extended (isSsa : function.IsSsa)
    (underway : Underway module memorySize function final visited label node block front back
      current) : Extends current final := by
  obtain ⟨after, lowered, extended⟩ := underway.rest
  have distinct := underway.distinct isSsa
  rw [List.map_append] at distinct
  obtain ⟨first, -⟩ := extends_of_foldlM (List.nodup_append.mp distinct).2.1 underway.fresh lowered
  exact first.trans extended

/-- Lowering one more instruction. -/
theorem Underway.step (isSsa : function.IsSsa)
    (underway : Underway module memorySize function final visited label node block front
      (instruction :: back) current) :
    ∃ next, lowerInstruction module memorySize (labelOf function) label current instruction =
        .ok next ∧ Underway module memorySize function final visited label node block
          (front ++ [instruction]) back next := by
  obtain ⟨after, lowered, extended⟩ := underway.rest
  rw [List.foldlM_cons] at lowered
  obtain ⟨next, first, lowered⟩ := bind_eq_ok.mp lowered
  obtain ⟨isFresh, restFresh⟩ := List.forall_mem_cons.mp underway.fresh
  have distinct := underway.distinct isSsa
  rw [List.map_append, List.map_cons] at distinct
  have apart := (List.nodup_cons.mp (List.nodup_append.mp distinct).2.1).1
  refine ⟨next, first, underway.isNode, underway.isLabel, underway.isOrder, ?_,
    underway.bounded.afterInstruction first, ?_, ?_, after, lowered, extended⟩
  · rw [underway.isInstructions, List.append_assoc]
    rfl
  · rw [← List.append_assoc]
    exact underway.recorded.afterInstruction first
  · intro other otherMem
    exact (restFresh other otherMem).afterInstruction
      (fun same => apart (same ▸ List.mem_map_of_mem otherMem)) first

/-- The blocks lowered before hold instructions of the function. -/
theorem Underway.seenIncluded
    (underway : Underway module memorySize function final visited label node block front back
      current) : ∀ other ∈ visited.flatMap (instructionsOf function) ++ front,
        other ∈ function.instructions := by
  intro other otherMem
  rcases List.mem_append.mp otherMem with isBefore | isFront
  · obtain ⟨name, -, inBlock⟩ := List.mem_flatMap.mp isBefore
    exact mem_instructions inBlock
  · exact included_block underway.isNode other
      (underway.isInstructions ▸ List.mem_append_left _ isFront)

/-- A known value is that of a phi of the block or has been recorded. -/
theorem Underway.seen_of_known (isSsa : function.IsSsa)
    (distinct : (blockLabels function).Nodup)
    (underway : Underway module memorySize function final visited label node block front back
      current) {key : ValueRef} (known : Known function node front key) :
    (∃ phi ∈ block.instructions, (∃ incoming, phi.operation = .phi incoming) ∧ phi.ref = key) ∨
      (key ∈ function.params.map (·.ref) ∨
        ∃ definition ∈ visited.flatMap (instructionsOf function) ++ front,
          definition.ref = key) := by
  cases known with
  | param isParam => exact .inr (.inl isParam)
  | @above above other differ dominates isOther defines =>
      obtain ⟨definition, definitionMem, rfl, -⟩ := defines
      obtain ⟨rest, isOrder⟩ := underway.isOrder
      rcases exists_visited_dominator isSsa (labelsResolve_of_nodup distinct) differ dominates
        (found_of_nodup distinct underway.isLabel) isOrder with ⟨name, isVisited, found⟩
      refine .inr (.inr ⟨definition, List.mem_append_left _ ?_, rfl⟩)
      refine List.mem_flatMap.mpr ⟨name, isVisited, ?_⟩
      rwa [instructionsOf_eq (found.bbOf_eq.trans isOther)]
  | phi isBlock instructionMem isPhi isKey =>
      obtain rfl := Option.some.inj (isBlock.symm.trans underway.isNode)
      exact .inl ⟨_, instructionMem, ⟨_, isPhi⟩, isKey⟩
  | earlier defines =>
      obtain ⟨definition, definitionMem, rfl, -⟩ := defines
      exact .inr (.inr ⟨definition, List.mem_append_right _ definitionMem, rfl⟩)

/-- A register of another value is not taken by the next instruction. -/
theorem outside_of_bound {key : ValueRef} {v : Nat} (bounded : Bounded current)
    (lowered : lowerInstruction module memorySize (labelOf function) label current instruction =
      .ok next) (extended : Extends next final) (differ : key ≠ instruction.ref)
    (isBound : final.vregMap.lookup key = some v) :
    v < current.nextVreg ∨ next.nextVreg ≤ v := by
  rcases extended.newer key v isBound with wasBound | isNewer
  · rcases (takes_of_lowerInstruction lowered).bound with same | ⟨w, -, -, isInsert⟩
    · exact .inl (bounded.vregs key v (same ▸ wasBound))
    · rw [isInsert, AList.lookup_insert_ne differ] at wasBound
      exact .inl (bounded.vregs key v wasBound)
  · exact .inr isNewer

variable {all : List Instruction} {isa : Isa Opcode} {state final' : State Reg}
  (isSsa : function.IsSsa) (distinct : (blockLabels function).Nodup)
  (finalRecorded : Recorded function all final)
  (included : ∀ instruction ∈ all, instruction ∈ function.instructions)

include isSsa distinct finalRecorded included

/-- A folded pointer that is known has been folded. -/
theorem Underway.wasFolded
    (underway : Underway module memorySize function final visited label node block front back
      current) {key : ValueRef} (known : Known function node front key) {pointer : Value × I64}
    (isFolded : final.gepMap.lookup key = some pointer) :
    current.gepMap.lookup key = some pointer := by
  rcases underway.seen_of_known isSsa distinct known with
    ⟨phi, phiMem, ⟨incoming, isPhi⟩, rfl⟩ | isSeen
  · obtain ⟨folded, foldedMem, isFold, same⟩ := finalRecorded.exists_folds isFolded
    obtain rfl := eq_of_ref_eq isSsa (included folded foldedMem)
      (included_block underway.isNode phi phiMem) same
    rw [folds, isPhi] at isFold
    cases isFold
  · exact (recorded_early isSsa finalRecorded included underway.recorded (underway.extended isSsa)
      isSeen underway.seenIncluded).2 pointer isFolded

/-- Values other than that of the instruction stay in their registers. -/
theorem Underway.kept
    (underway : Underway module memorySize function final visited label node block front
      (instruction :: back) current)
    (lowered : lowerInstruction module memorySize (labelOf function) label current instruction =
      .ok next) (extended : Extends next final)
    (executes : Executes isa current state next final') {key : ValueRef}
    (known : Known function node front key) (differ : key ≠ instruction.ref) {word : I64}
    (carries : Carries function final state key word) : Carries function final final' key word := by
  cases carries with
  | flag isFlag isBound same =>
      refine .flag isFlag isBound ?_
      rw [executes.pred _ (outside_of_bound underway.bounded lowered extended differ isBound), same]
  | register notFlag isBound same =>
      refine .register notFlag isBound ?_
      rw [executes.gpr _ (outside_of_bound underway.bounded lowered extended differ isBound), same]
  | pointer isFolded same =>
      refine .pointer isFolded ?_
      have wasFolded := underway.wasFolded isSsa distinct finalRecorded included known isFolded
      rw [← same]
      rcases underway.bounded.pointers _ _ _ wasFolded with ⟨address, rfl⟩ | ⟨v, isOld, rfl⟩
      · rfl
      · simp only [baseWord, State.readGpr, executes.gpr v (.inl isOld)]

end

/-! ### Operands -/

theorem isComparison_ref {function : Llvm.Function} (isSsa : function.IsSsa)
    {instruction : Instruction} (instructionMem : instruction ∈ function.instructions) :
    isComparison function instruction.ref = isIcmp instruction := by
  rw [Bool.eq_iff_iff, isComparison, List.any_eq_true]
  constructor
  · rintro ⟨other, otherMem, both⟩
    simp only [Bool.and_eq_true, decide_eq_true_eq] at both
    rw [← eq_of_ref_eq isSsa otherMem instructionMem both.1]
    exact both.2
  · intro isComparison
    exact ⟨instruction, instructionMem, by simp [isComparison]⟩

/-- The word of an integer operand. -/
theorem word_of_eval {env : Env} {bits : Nat} {operand : Operand} {value : BitVec bits}
    (isValue : operand.eval env bits = some value) :
    ∃ word, operand.word env = some word ∧ word.setWidth bits = value := by
  cases operand with
  | constInt width constant => exact ⟨constant, rfl, Option.some.inj isValue⟩
  | ref key type =>
      obtain ⟨word, isWord, isValue⟩ := Option.map_eq_some_iff.mp isValue
      exact ⟨word, isWord, isValue⟩
  | _ => cases isValue

/-- The operand has a register when it is no constant. -/
def HasRegister (selection : Selection) (operand : Operand) : Prop :=
  ∀ key type, operand = .ref key type → ∃ v, selection.vregMap.lookup key = some v

theorem hasRegister_of_lowerOperand {selection after : Selection} {operand : Operand}
    {value : Value} (lowered : lowerOperand operand selection = .ok (value, after)) :
    HasRegister selection operand := by
  rintro key type rfl
  unfold lowerOperand at lowered
  split at lowered
  · rename_i isConstant
    cases isConstant
  · rename_i isRef
    obtain ⟨rfl, -⟩ := Operand.ref.inj isRef
    obtain ⟨v, isBound, -⟩ := bind_eq_ok.mp lowered
    exact ⟨v, expect_eq_ok.mp isBound⟩
  · cases lowered

theorem hasRegisters_of_lowerOperands {selection middle after : Selection} {lhs rhs : Operand}
    {left right : Value} (isLeft : lowerOperand lhs selection = .ok (left, middle))
    (isRight : lowerOperand rhs middle = .ok (right, after)) :
    HasRegister selection lhs ∧ HasRegister selection rhs := by
  refine ⟨hasRegister_of_lowerOperand isLeft, ?_⟩
  have isThere := hasRegister_of_lowerOperand isRight
  unfold HasRegister at isThere ⊢
  rwa [(takes_of_lowerOperand isLeft).2] at isThere

section

variable {module : Llvm.Module} {memorySize : Nat} {function : Llvm.Function} {final : Selection}
  {visited : List String} {label : String} {node : BlockRef} {block : Llvm.Block}
  {front back : List Instruction} {instruction : Instruction} {current next : Selection}
  {all : List Instruction} {isa : Isa Opcode} {state : State Reg} {env : Env}

theorem Underway.mem_lowered
    (underway : Underway module memorySize function final visited label node block front back
      current) (distinct : (blockLabels function).Nodup) (blockMem : instruction ∈ block.instructions) :
    instruction ∈ loweredInstructions function := by
  obtain ⟨rest, isOrder⟩ := underway.isOrder
  refine List.mem_flatMap.mpr ⟨label, by simp [isOrder], ?_⟩
  rwa [instructionsOf_eq (bbOf_eq_some distinct underway.isLabel underway.isNode)]

variable (isSsa : function.IsSsa) (distinct : (blockLabels function).Nodup)
  (wellFormed : WellFormed function) (comparisons : ComparisonsBranchOnly function)
  (finalRecorded : Recorded function all final)
  (included : ∀ instruction ∈ all, instruction ∈ function.instructions)
  (underway : Underway module memorySize function final visited label node block front
    (instruction :: back) current)
  (carried : Carried function final node front state env)
  (notPhi : ∀ incoming, instruction.operation ≠ .phi incoming)

include isSsa finalRecorded included underway carried notPhi

include distinct comparisons in
/-- The register of an integer operand carries its value. -/
theorem Underway.operandWord_eq {operand : Operand}
    (isOperand : operand ∈ instruction.operation.operands) (isInt : operand.type ≠ .ptr)
    (asInteger : ∀ key type, operand = .ref key type →
      ⟨false, key⟩ ∈ codeUses instruction.operation)
    (hasRegister : HasRegister current operand) {word : I64} (isWord : operand.word env = some word) :
    (operandWord current state operand).setWidth operand.type.bits =
      word.setWidth operand.type.bits := by
  cases operand with
  | constInt bits value =>
      obtain rfl := Option.some.inj isWord
      rfl
  | constAddress bits value => exact absurd rfl isInt
  | constCast => exact absurd rfl isInt
  | const type => cases isWord
  | ref key type =>
      obtain ⟨known, isType⟩ := known_of_operand isSsa underway.isNode underway.isInstructions notPhi
        isOperand
      obtain ⟨w, wasBound⟩ := hasRegister key type rfl
      have isBound := (underway.extended isSsa).vregs key w wasBound
      have notFlag : isComparison function key = false := by
        have instructionMem : instruction ∈ block.instructions := by
          simp [underway.isInstructions]
        exact (comparisons instruction (underway.mem_lowered distinct instructionMem) ⟨false, key⟩
          (List.mem_append_left _ (asInteger key type rfl))).symm
      rw [operandWord, wasBound, Option.getD_some, Operand.type]
      cases carried key known word isWord with
      | flag isFlag _ _ =>
          rw [notFlag] at isFlag
          cases isFlag
      | pointer isFolded _ =>
          rw [notFolded_of_bound isSsa finalRecorded included isBound] at isFolded
          cases isFolded
      | register _ isOther same =>
          obtain rfl := Option.some.inj (isOther.symm.trans isBound)
          rw [isType] at same
          exact same

include wellFormed in
/-- The address of a pointer operand. -/
theorem Underway.address_eq {operand : Operand}
    (isOperand : operand ∈ instruction.operation.operands) {base : Value} {offset word : I64}
    (lowered : lowerPtrOperand operand current = .ok (base, offset))
    (fits : addressFits operand = true) (isWord : operand.word env = some word) :
    baseWord state base + offset = word := by
  rcases lowerPtrOperand_eq_ok lowered with ⟨bits, value, rfl, rfl, rfl⟩ | ⟨key, rfl, found⟩
  · obtain rfl := Option.some.inj isWord
    exact (add_zero value).trans (of_decide_eq_true fits).symm
  · obtain ⟨known, isType⟩ := known_of_operand isSsa underway.isNode underway.isInstructions notPhi
      isOperand
    have carries := carried key known word isWord
    have extended := underway.extended isSsa
    rcases found with wasFolded | ⟨-, v, wasBound, rfl, rfl⟩
    · have isFolded := extended.geps key _ wasFolded
      cases carries with
      | pointer isOther same =>
          cases isOther.symm.trans isFolded
          exact same
      | flag _ isBound _ | register _ isBound _ =>
          rw [notFolded_of_bound isSsa finalRecorded included isBound] at isFolded
          cases isFolded
    · have isBound := extended.vregs key v wasBound
      cases carries with
      | flag isFlag _ _ =>
          have instructionMem := included_block underway.isNode instruction
            (by simp [underway.isInstructions])
          rw [wellFormed.pointers instruction instructionMem _ isOperand key rfl] at isFlag
          cases isFlag
      | pointer isFolded _ =>
          rw [notFolded_of_bound isSsa finalRecorded included isBound] at isFolded
          cases isFolded
      | register _ isOther same =>
          obtain rfl := Option.some.inj (isOther.symm.trans isBound)
          rw [isType] at same
          change state.readGpr (.vreg _) + 0 = word
          rw [add_zero, State.readGpr, if_neg (Reg.vreg_ne_zero _)]
          simpa [Llvm.Ty.bits] using same

end

/-! ### Instructions -/

section

variable {module : Llvm.Module} {memorySize : Nat} {function : Llvm.Function} {final : Selection}
  {visited : List String} {label : String} {node : BlockRef} {block : Llvm.Block}
  {front back : List Instruction} {instruction : Instruction} {current next : Selection}
  {all : List Instruction} {isa : Isa Opcode} {state final' : State Reg} {frame after : Frame}

/-- A phi has its value already. -/
theorem Underway.carried_phi
    (underway : Underway module memorySize function final visited label node block front
      (instruction :: back) current)
    {incoming : List (Operand × BlockRef)} (isPhi : instruction.operation = .phi incoming)
    (carried : Carried function final node front state frame.env)
    (executed : instruction.exec frame = some after) :
    Carried function final node (front ++ [instruction]) state after.env := by
  rw [Llvm.Instruction.exec, isPhi] at executed
  cases executed
  intro key known word isWord
  rcases known.of_snoc with isOlder | ⟨rfl, -⟩
  · exact carried key isOlder word isWord
  · exact carried _ (.phi underway.isNode (by simp [underway.isInstructions]) isPhi rfl) word isWord

variable (isSsa : function.IsSsa) (distinct : (blockLabels function).Nodup)
  (finalRecorded : Recorded function all final)
  (included : ∀ instruction ∈ all, instruction ∈ function.instructions)
  (underway : Underway module memorySize function final visited label node block front
    (instruction :: back) current)

include isSsa underway

/-- The value of an instruction is not known before it. -/
theorem Underway.not_known_ref (notPhi : ∀ incoming, instruction.operation ≠ .phi incoming) :
    ¬Known function node front instruction.ref := by
  have instructionMem : instruction ∈ block.instructions := by simp [underway.isInstructions]
  intro known
  cases known with
  | param isParam =>
      exact ref_ne_param isSsa (included_block underway.isNode instruction instructionMem) isParam
  | above differ dominates isOther defines =>
      obtain ⟨definition, definitionMem, same, -⟩ := defines
      exact ref_ne_of_node_ne isSsa isOther underway.isNode differ definitionMem instructionMem same
  | phi isBlock phiMem isPhi isKey =>
      obtain rfl := Option.some.inj (isBlock.symm.trans underway.isNode)
      have same := eq_of_ref_eq isSsa (included_block isBlock _ phiMem)
        (included_block isBlock instruction instructionMem) isKey
      rw [same] at isPhi
      exact notPhi _ isPhi
  | earlier defines =>
      obtain ⟨definition, definitionMem, same, -⟩ := defines
      have apart := underway.distinct isSsa
      rw [List.map_append, List.map_cons, List.nodup_append] at apart
      exact apart.2.2 definition.ref (List.mem_map_of_mem definitionMem) instruction.ref
        List.mem_cons_self same

include distinct finalRecorded included

/-- The values after an instruction, when its own value is carried. -/
theorem Underway.carried_snoc
    (underwayNext : Underway module memorySize function final visited label node block
      (front ++ [instruction]) back next)
    (notPhi : ∀ incoming, instruction.operation ≠ .phi incoming)
    (lowered : lowerInstruction module memorySize (labelOf function) label current instruction =
      .ok next)
    (executes : Executes isa current state next final')
    (carried : Carried function final node front state frame.env)
    (executed : instruction.exec frame = some after)
    (own : instruction.type ≠ .void → ∀ word, after.env instruction.ref = some word →
      Carries function final final' instruction.ref word) :
    Carried function final node (front ++ [instruction]) final' after.env := by
  intro key known word isWord
  rcases known.of_snoc with isOlder | ⟨rfl, notVoid⟩
  · have differ : key ≠ instruction.ref := by
      rintro rfl
      exact underway.not_known_ref isSsa notPhi isOlder
    rw [Llvm.Instruction.exec_other executed differ] at isWord
    exact underway.kept isSsa distinct finalRecorded included lowered (underwayNext.extended isSsa)
      executes isOlder differ (carried key isOlder word isWord)
  · exact own notVoid word isWord

end

end VliwCompiler.Isel
