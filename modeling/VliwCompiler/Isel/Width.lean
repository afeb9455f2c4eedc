import VliwCompiler.Isel.Registers
import VliwCompiler.Llvm.Evaluation
import VliwCompiler.Mir.Semantics

/-!
# Integer widths

Values of type `i32` are kept in the low half of 64-bit registers; nothing is
extended or truncated between two instructions.  Right shifts and comparisons
see the upper halves as well, so they keep the meaning of the LLVM instructions
exactly when the excess of their operands does not show.
-/

namespace VliwCompiler.Isel

open Asm (Opcode)
open Mir (Reg Value execSyllables)
open Llvm (Operand Instruction Entry Env StraightLine)
open Machine (Isa State Word)
open Truncation (Reading excess OrderKept)

/-! ### The machine -/

/-- The word an operation computes; shifts use the low six bits of the amount. -/
def wordResult (left right : Word) : Llvm.BinaryOp → Word
  | .add => left + right
  | .sub => left - right
  | .mul => left * right
  | .and => left &&& right
  | .or => left ||| right
  | .xor => left ^^^ right
  | .shl => left <<< (right.toNat % 64)
  | .lshr => left >>> (right.toNat % 64)
  | .ashr => left.sshiftRight (right.toNat % 64)

/-- Registers hold 64-bit integers in two's complement. -/
structure WordArithmetic (isa : Isa Opcode) : Prop where
  movImm : ∀ word, isa.result .movImm [.word word] = word
  binary : ∀ op left right,
    isa.result (binaryOpcode op) [.word left, .word right] = wordResult left right op
  cmpEq : ∀ left right, isa.flag .cmpEq [.word left, .word right] = (left == right)
  cmpLt : ∀ left right, isa.flag .cmpLt [.word left, .word right] = left.slt right
  cmpUlt : ∀ left right, isa.flag .cmpUlt [.word left, .word right] = left.ult right
  pNot : ∀ flag, isa.flag .pNot [.flag flag] = !flag

/-- The flag of a comparison. -/
def wordFlag (left right : Word) : Llvm.IntPredicate → Bool
  | .eq => left == right
  | .ne => !(left == right)
  | .ugt => right.ult left
  | .ult => left.ult right
  | .sgt => right.slt left
  | .slt => left.slt right
  | _ => false

/-! ### Meaning -/

/-- The word that an operand has in its register. -/
def operandWord (selection : Selection) (state : State Reg) : Operand → Word
  | .constInt _ value => value
  | .ref key _ => state.gpr (.vreg ((selection.vregMap.lookup key).getD 0))
  | _ => 0

/-- The register of a value holds the value, unless it is poison. -/
def Represents (selection : Selection) (state : State Reg) (env : Env) (entry : Entry) : Prop :=
  ∃ vreg, selection.vregMap.lookup entry.1 = some vreg ∧ ∀ value, env entry.1 = some value →
    if entry.2 = 1 then state.pred (.vreg vreg) = value.getLsbD 0
    else (state.gpr (.vreg vreg)).setWidth entry.2 = value.setWidth entry.2

/-- The parameters have registers that hold them, and no code has been emitted. -/
structure Prepared (params : List Entry) (selection : Selection) (state : State Reg) (env : Env) :
    Prop where
  syllables : selection.syllables = []
  widths : ∀ entry ∈ params, entry.2 ∈ [32, 64]
  bound : ∀ entry ∈ params, ∃ vreg < selection.nextVreg,
    selection.vregMap.lookup entry.1 = some vreg
  represented : ∀ entry ∈ params, Represents selection state env entry

/-- The bits above the number do not show in a result: a right shift brings in
bits of the number. -/
def ResultHidden (bits : Nat) (left right : Word) : Llvm.BinaryOp → Prop
  | .lshr => (right.setWidth bits).toNat < bits →
      (2 ^ (bits + (right.setWidth bits).toNat) : Int) ∣ excess bits .unsigned left
  | .ashr => (right.setWidth bits).toNat < bits →
      (2 ^ (bits + (right.setWidth bits).toNat) : Int) ∣ excess bits .signed left
  | _ => True

/-- The bits above the numbers do not show in a comparison: the words are ordered
like the numbers. -/
def FlagHidden (bits : Nat) (left right : Word) : Llvm.IntPredicate → Prop
  | .eq | .ne => left.setWidth bits = right.setWidth bits → left = right
  | .slt => OrderKept bits .signed left right
  | .sgt => OrderKept bits .signed right left
  | .ult => OrderKept bits .unsigned left right
  | .ugt => OrderKept bits .unsigned right left
  | _ => True

/-- The bits above the operands do not show in the result of an instruction.
Nothing is asked of poison. -/
def Hidden (selection : Selection) (state : State Reg) (env : Env) (instruction : Instruction) :
    Prop :=
  match instruction.operation with
  | .binary op lhs rhs =>
      (lhs.eval env lhs.type.width).isSome → (rhs.eval env lhs.type.width).isSome →
        ResultHidden lhs.type.width (operandWord selection state lhs)
          (operandWord selection state rhs) op
  | .icmp predicate lhs rhs =>
      (lhs.eval env lhs.type.width).isSome → (rhs.eval env lhs.type.width).isSome →
        FlagHidden lhs.type.width (operandWord selection state lhs)
          (operandWord selection state rhs) predicate
  | _ => True

section

variable (module : Llvm.Module) (memorySize : Nat) (labelOf : Llvm.BlockRef → Outcome String)
  (label : String) (isa : Isa Opcode)

/-- Lower instructions and execute their syllables. -/
def RunsTo (selection : Selection) (state : State Reg) (instructions : List Instruction)
    (after : Selection) (final : State Reg) : Prop :=
  instructions.foldlM (lowerInstruction module memorySize labelOf label) selection = .ok after ∧
    execSyllables isa after.syllables state = some final

/-- The code is lowered and executed, and the register of every result holds the
value that LLVM computes. -/
def KeepsMeaning (selection : Selection) (state : State Reg) (env : Env)
    (instructions : List Instruction) : Prop :=
  ∃ after final,
    RunsTo module memorySize labelOf label isa selection state instructions after final ∧
    ∀ instruction ∈ instructions, Represents after final (env.run instructions) instruction.entry

end

/-! ### Operations on words -/

section

variable {bits : Nat}

/-- The amount of a shift that is not poison. -/
theorem shiftAmount_eq (width : bits ∈ [32, 64]) {amount : Word}
    (small : (amount.setWidth bits).toNat < bits) :
    amount.toNat % 64 = (amount.setWidth bits).toNat := by
  simp only [List.mem_cons, List.not_mem_nil, or_false] at width
  rw [BitVec.toNat_setWidth] at small ⊢
  rcases width with rfl | rfl
  · omega
  · omega

/-- A right shift of words. -/
theorem shift_iff (width : bits ∈ [32, 64]) (reading : Reading) (left right : Word) :
    (∀ value, Llvm.shiftBy (right.setWidth bits) (reading.shift (left.setWidth bits)) = some value →
        (reading.shift left (right.toNat % 64)).setWidth bits = value) ↔
      ((right.setWidth bits).toNat < bits →
        (2 ^ (bits + (right.setWidth bits).toNat) : Int) ∣ excess bits reading left) := by
  have le : bits ≤ 64 := by
    simp only [List.mem_cons, List.not_mem_nil, or_false] at width
    omega
  unfold Llvm.shiftBy
  split
  · rename_i small
    rw [shiftAmount_eq width small, ← Truncation.setWidth_shift_iff le reading left small.le]
    exact ⟨fun agrees _ => agrees _ rfl, fun agrees value isValue =>
      (agrees small).trans (Option.some.inj isValue)⟩
  · rename_i large
    exact iff_of_true (fun value isValue => absurd isValue (by simp))
      fun small => absurd small large

/-- The low bits of a result are right exactly when a right shift brings in bits
of the number. -/
theorem wordResult_iff (width : bits ∈ [32, 64]) (op : Llvm.BinaryOp) (left right : Word) :
    (∀ value, op.eval (left.setWidth bits) (right.setWidth bits) = some value →
        (wordResult left right op).setWidth bits = value) ↔ ResultHidden bits left right op := by
  have le : bits ≤ 64 := by
    simp only [List.mem_cons, List.not_mem_nil, or_false] at width
    omega
  cases op with
  | lshr => exact shift_iff width .unsigned left right
  | ashr => exact shift_iff width .signed left right
  | shl =>
      simp only [Llvm.BinaryOp.eval, Llvm.shiftBy, wordResult, ResultHidden, iff_true]
      intro value isValue
      split at isValue
      · rename_i small
        rw [shiftAmount_eq width small, BitVec.setWidth_shiftLeft_of_le le]
        exact Option.some.inj isValue
      · cases isValue
  | add => simp [Llvm.BinaryOp.eval, wordResult, ResultHidden, BitVec.setWidth_add _ _ le]
  | sub => simp [Llvm.BinaryOp.eval, wordResult, ResultHidden, Truncation.setWidth_sub le]
  | mul => simp [Llvm.BinaryOp.eval, wordResult, ResultHidden, BitVec.setWidth_mul _ _ le]
  | and | or | xor => simp [Llvm.BinaryOp.eval, wordResult, ResultHidden]

theorem beq_setWidth_iff (left right : Word) :
    (left == right) = (left.setWidth bits == right.setWidth bits) ↔
      (left.setWidth bits = right.setWidth bits → left = right) := by
  rw [Bool.eq_iff_iff, beq_iff_eq, beq_iff_eq]
  constructor
  · exact fun same => same.mpr
  · intro same
    exact ⟨fun equal => by rw [equal], same⟩

/-- A flag is right exactly when the words are ordered like the numbers. -/
theorem wordFlag_iff (width : bits ∈ [32, 64]) {predicate : Llvm.IntPredicate}
    (supported : predicate.isSupported = true) (left right : Word) :
    wordFlag left right predicate = predicate.eval (left.setWidth bits) (right.setWidth bits) ↔
      FlagHidden bits left right predicate := by
  have le : bits ≤ 64 := by
    simp only [List.mem_cons, List.not_mem_nil, or_false] at width
    omega
  cases predicate with
  | eq => exact beq_setWidth_iff left right
  | ne =>
      change (!(left == right)) = (!(left.setWidth bits == right.setWidth bits)) ↔ _
      rw [Bool.not_inj_iff]
      exact beq_setWidth_iff left right
  | slt => exact Truncation.less_setWidth_iff le .signed left right
  | sgt => exact Truncation.less_setWidth_iff le .signed right left
  | ult => exact Truncation.less_setWidth_iff le .unsigned left right
  | ugt => exact Truncation.less_setWidth_iff le .unsigned right left
  | uge | ule | sge | sle => cases supported

end

/-! ### Execution -/

section

variable {isa : Isa Opcode} {selection after : Selection} {state final : State Reg}

/-- Code is appended and executed; it leaves the registers taken before it
alone. -/
structure Advances (isa : Isa Opcode) (selection : Selection) (state : State Reg)
    (after : Selection) (final : State Reg) : Prop where
  next : selection.nextVreg ≤ after.nextVreg
  code : ∃ code, after.syllables = selection.syllables ++ code ∧
    execSyllables isa code state = some final
  gpr : ∀ v < selection.nextVreg, final.gpr (.vreg v) = state.gpr (.vreg v)
  pred : ∀ v < selection.nextVreg, final.pred (.vreg v) = state.pred (.vreg v)

theorem Advances.refl : Advances isa selection state selection state :=
  ⟨Nat.le_refl _, ⟨[], by simp, rfl⟩, fun _ _ => rfl, fun _ _ => rfl⟩

theorem Advances.trans {middle : Selection} {between : State Reg}
    (first : Advances isa selection state middle between)
    (second : Advances isa middle between after final) :
    Advances isa selection state after final := by
  obtain ⟨code, isCode, executed⟩ := first.code
  obtain ⟨code', isCode', executed'⟩ := second.code
  refine ⟨first.next.trans second.next, ⟨code ++ code', ?_, ?_⟩, ?_, ?_⟩
  · rw [isCode', isCode, List.append_assoc]
  · rw [Mir.execSyllables_append, executed]
    exact executed'
  · intro v isOld
    rw [second.gpr v (Nat.lt_of_lt_of_le isOld first.next), first.gpr v isOld]
  · intro v isOld
    rw [second.pred v (Nat.lt_of_lt_of_le isOld first.next), first.pred v isOld]

/-- A syllable that writes the next register. -/
theorem advances_compute (isa : Isa Opcode) (selection : Selection) (state : State Reg)
    (after : Selection) {opcode : Opcode} {srcs : List Value}
    {sources : List (Machine.Source Reg)}
    (isCompute : opcode.behavior = .compute)
    (isSources : srcs.mapM (Value.source (Mir.predicateSources opcode)) = some sources)
    (sameSyllables : after.syllables =
      selection.syllables ++ [⟨opcode, some (.vreg selection.nextVreg), srcs⟩])
    (isNext : after.nextVreg = selection.nextVreg + 1) :
    ∃ final, Advances isa selection state after final ∧
      final.gpr (.vreg selection.nextVreg) =
        isa.result opcode (sources.map (·.read state)) := by
  have isGpr : ∀ v, ((Machine.Action.compute opcode (some (.vreg selection.nextVreg)) sources).exec
      isa state).gpr (.vreg v) = if v = selection.nextVreg then
        isa.result opcode (sources.map (·.read state)) else state.gpr (.vreg v) := by
    intro v
    simp [Machine.Action.exec, Machine.Action.effect, Machine.Effect.apply, Reg.vreg_ne_zero,
      Function.update_apply]
  refine ⟨(Machine.Action.compute opcode (some (.vreg selection.nextVreg)) sources).exec isa state,
    ⟨by omega, ⟨_, sameSyllables, ?_⟩, ?_, fun _ _ => rfl⟩, ?_⟩
  · rw [Mir.execSyllables_singleton, Mir.Syllable.action]
    simp only [isCompute, isSources, Option.map_some]
  · intro v isOld
    rw [isGpr, if_neg (Nat.ne_of_lt isOld)]
  · rw [isGpr, if_pos rfl]

/-- A syllable that writes the next predicate register. -/
theorem advances_test (isa : Isa Opcode) (selection : Selection) (state : State Reg)
    (after : Selection) {opcode : Opcode} {srcs : List Value}
    {sources : List (Machine.Source Reg)}
    (isTest : opcode.behavior = .test)
    (isSources : srcs.mapM (Value.source (Mir.predicateSources opcode)) = some sources)
    (sameSyllables : after.syllables =
      selection.syllables ++ [⟨opcode, some (.vreg selection.nextVreg), srcs⟩])
    (isNext : after.nextVreg = selection.nextVreg + 1) :
    ∃ final, Advances isa selection state after final ∧
      final.pred (.vreg selection.nextVreg) =
        isa.flag opcode (sources.map (·.read state)) := by
  have isPred : ∀ v, ((Machine.Action.test opcode (some (.vreg selection.nextVreg)) sources).exec
      isa state).pred (.vreg v) = if v = selection.nextVreg then
        isa.flag opcode (sources.map (·.read state)) else state.pred (.vreg v) := by
    intro v
    simp [Machine.Action.exec, Machine.Action.effect, Machine.Effect.apply, Function.update_apply]
  refine ⟨(Machine.Action.test opcode (some (.vreg selection.nextVreg)) sources).exec isa state,
    ⟨by omega, ⟨_, sameSyllables, ?_⟩, fun _ _ => rfl, ?_⟩, ?_⟩
  · rw [Mir.execSyllables_singleton, Mir.Syllable.action]
    simp only [isTest, isSources, Option.map_some]
  · intro v isOld
    rw [isPred, if_neg (Nat.ne_of_lt isOld)]
  · rw [isPred, if_pos rfl]

/-- The values in scope have registers. -/
def Bound (scope : List Entry) (selection : Selection) : Prop :=
  ∀ entry ∈ scope, ∃ vreg < selection.nextVreg, selection.vregMap.lookup entry.1 = some vreg

variable {scope : List Entry} {bits : Nat} {operand lhs rhs : Operand}

/-- Code for other values leaves the word of an operand alone. -/
theorem Advances.operandWord_eq (advances : Advances isa selection state after final)
    (sameVregs : after.vregMap = selection.vregMap) (bound : Bound scope selection)
    (inScope : operand.InScope scope bits) :
    operandWord after final operand = operandWord selection state operand := by
  cases operand with
  | ref key type =>
      obtain ⟨v, isOld, isBound⟩ := bound _ inScope.2
      rw [operandWord, operandWord, sameVregs, isBound]
      exact advances.gpr v isOld
  | _ => rfl

theorem Advances.bound_of_eq (advances : Advances isa selection state after final)
    (sameVregs : after.vregMap = selection.vregMap) (bound : Bound scope selection) :
    Bound scope after := by
  intro entry entryMem
  obtain ⟨v, isOld, isBound⟩ := bound entry entryMem
  exact ⟨v, Nat.lt_of_lt_of_le isOld advances.next, by rw [sameVregs, isBound]⟩

/-- An operand is in its register or is moved to a new one. -/
theorem lowerOperand_advances (arithmetic : WordArithmetic isa) (bound : Bound scope selection)
    (inScope : operand.InScope scope bits) (state : State Reg) :
    ∃ v after final, lowerOperand operand selection = .ok (.reg (.vreg v), after) ∧
      Advances isa selection state after final ∧ after.vregMap = selection.vregMap ∧
      v < after.nextVreg ∧ final.gpr (.vreg v) = operandWord selection state operand := by
  cases operand with
  | constInt width value =>
      obtain ⟨final, advances, isWord⟩ :=
        advances_compute isa selection state (selection.push
          ⟨.movImm, some (.vreg selection.nextVreg), [.imm value]⟩).freshVreg rfl rfl rfl rfl
      refine ⟨selection.nextVreg, _, final, rfl, advances, rfl, Nat.lt_succ_self _, ?_⟩
      rw [isWord]
      exact arithmetic.movImm value
  | ref key type =>
      obtain ⟨isType, keyMem⟩ := inScope
      obtain ⟨v, isOld, isBound⟩ := bound _ keyMem
      have lowered : lowerOperand (.ref key type) selection = .ok (.reg (.vreg v), selection) := by
        rw [isType]
        simp only [lowerOperand, intConstant, isBound, expect]
        rfl
      refine ⟨v, selection, state, lowered, .refl, rfl, isOld, ?_⟩
      simp only [operandWord, isBound, Option.getD_some]
  | _ => cases inScope

/-- Both operands of an instruction are in registers. -/
theorem lowerOperands_advances (arithmetic : WordArithmetic isa) (bound : Bound scope selection)
    (leftInScope : lhs.InScope scope bits) (rightInScope : rhs.InScope scope bits)
    (state : State Reg) :
    ∃ left right middle after final,
      lowerOperand lhs selection = .ok (.reg (.vreg left), middle) ∧
      lowerOperand rhs middle = .ok (.reg (.vreg right), after) ∧
      Advances isa selection state after final ∧ after.vregMap = selection.vregMap ∧
      final.gpr (.vreg left) = operandWord selection state lhs ∧
      final.gpr (.vreg right) = operandWord selection state rhs := by
  obtain ⟨left, middle, between, isLeft, first, sameFirst, isNew, leftWord⟩ :=
    lowerOperand_advances arithmetic bound leftInScope state
  have boundMiddle := first.bound_of_eq sameFirst bound
  obtain ⟨right, after, final, isRight, second, sameSecond, -, rightWord⟩ :=
    lowerOperand_advances arithmetic boundMiddle rightInScope between
  refine ⟨left, right, middle, after, final, isLeft, isRight, first.trans second,
    sameSecond.trans sameFirst, ?_, ?_⟩
  · rw [second.gpr left isNew, leftWord]
  · rw [rightWord, first.operandWord_eq sameFirst bound rightInScope]

/-- An ALU instruction computes its word in a new register. -/
theorem lowerBinary_advances (arithmetic : WordArithmetic isa) (bound : Bound scope selection)
    (leftInScope : lhs.InScope scope bits) (rightInScope : rhs.InScope scope bits)
    (ref : Llvm.ValueRef) (op : Llvm.BinaryOp) (state : State Reg) :
    ∃ v after final, lowerBinary ref op lhs rhs selection = .ok after ∧
      Advances isa selection state after final ∧
      after.vregMap = selection.vregMap.insert ref v ∧ v < after.nextVreg ∧
      final.gpr (.vreg v) =
        wordResult (operandWord selection state lhs) (operandWord selection state rhs) op := by
  obtain ⟨left, right, middle, ready, between, isLeft, isRight, advances, sameVregs, leftWord,
    rightWord⟩ := lowerOperands_advances arithmetic bound leftInScope rightInScope state
  have isCompute : (binaryOpcode op).behavior = .compute := by cases op <;> rfl
  have isSources : [Value.reg (.vreg left), .reg (.vreg right)].mapM
      (Value.source (Mir.predicateSources (binaryOpcode op))) =
        some [.gpr (.vreg left), .gpr (.vreg right)] := by cases op <;> rfl
  obtain ⟨final, computed, isWord⟩ := advances_compute isa ready between
    ((ready.push ⟨binaryOpcode op, some (.vreg ready.nextVreg),
      [.reg (.vreg left), .reg (.vreg right)]⟩).bindVreg ref) isCompute isSources rfl rfl
  refine ⟨ready.nextVreg, _, final, ?_, advances.trans computed, ?_, Nat.lt_succ_self _, ?_⟩
  · simp only [lowerBinary, isLeft, bind, Except.bind]
    rw [isRight]
    rfl
  · rw [← sameVregs]
    rfl
  · rw [isWord, ← leftWord, ← rightWord, ← arithmetic.binary]
    simp [Machine.Source.read, State.readGpr, Reg.vreg_ne_zero]

/-- The comparison of a supported predicate; `ne` is negated afterwards. -/
theorem comparison_of_supported (arithmetic : WordArithmetic isa) {predicate : Llvm.IntPredicate}
    (supported : predicate.isSupported = true) :
    ∃ opcode swapped, comparison predicate = .ok (opcode, swapped) ∧ opcode.behavior = .test ∧
      Mir.predicateSources opcode = false ∧
      ∀ left right, isa.flag opcode (if swapped then [.word right, .word left]
          else [.word left, .word right]) =
        if predicate = .ne then left == right else wordFlag left right predicate := by
  cases predicate with
  | eq => exact ⟨.cmpEq, false, rfl, rfl, rfl, arithmetic.cmpEq⟩
  | ne => exact ⟨.cmpEq, false, rfl, rfl, rfl, arithmetic.cmpEq⟩
  | slt => exact ⟨.cmpLt, false, rfl, rfl, rfl, arithmetic.cmpLt⟩
  | sgt => exact ⟨.cmpLt, true, rfl, rfl, rfl, fun left right => arithmetic.cmpLt right left⟩
  | ult => exact ⟨.cmpUlt, false, rfl, rfl, rfl, arithmetic.cmpUlt⟩
  | ugt => exact ⟨.cmpUlt, true, rfl, rfl, rfl, fun left right => arithmetic.cmpUlt right left⟩
  | uge | ule | sge | sle => cases supported

/-- A comparison computes its flag in a new predicate register. -/
theorem lowerIcmp_advances (arithmetic : WordArithmetic isa) (bound : Bound scope selection)
    (leftInScope : lhs.InScope scope bits) (rightInScope : rhs.InScope scope bits)
    (ref : Llvm.ValueRef) {predicate : Llvm.IntPredicate}
    (supported : predicate.isSupported = true) (state : State Reg) :
    ∃ v after final, lowerIcmp ref predicate lhs rhs selection = .ok after ∧
      Advances isa selection state after final ∧
      after.vregMap = selection.vregMap.insert ref v ∧ v < after.nextVreg ∧
      final.pred (.vreg v) =
        wordFlag (operandWord selection state lhs) (operandWord selection state rhs) predicate := by
  obtain ⟨left, right, middle, ready, between, isLeft, isRight, advances, sameVregs, leftWord,
    rightWord⟩ := lowerOperands_advances arithmetic bound leftInScope rightInScope state
  obtain ⟨opcode, swapped, isComparison, isTest, notPred, isFlag⟩ :=
    comparison_of_supported arithmetic supported
  let srcs : List Value := if swapped then [.reg (.vreg right), .reg (.vreg left)]
    else [.reg (.vreg left), .reg (.vreg right)]
  let sources : List (Machine.Source Reg) := if swapped then [.gpr (.vreg right), .gpr (.vreg left)]
    else [.gpr (.vreg left), .gpr (.vreg right)]
  have isSources : srcs.mapM (Value.source (Mir.predicateSources opcode)) = some sources := by
    rw [notPred]
    cases swapped <;> rfl
  have isRead : sources.map (·.read between) =
      if swapped then [.word (operandWord selection state rhs), .word (operandWord selection state lhs)]
      else [.word (operandWord selection state lhs), .word (operandWord selection state rhs)] := by
    rw [← leftWord, ← rightWord]
    cases swapped <;> simp [sources, Machine.Source.read, State.readGpr, Reg.vreg_ne_zero]
  let compared := ready.push ⟨opcode, some (.vreg ready.nextVreg), srcs⟩
  by_cases isNe : predicate = .ne
  · obtain ⟨tested, testing, isTested⟩ := advances_test isa ready between compared.freshVreg
      isTest isSources rfl rfl
    obtain ⟨final, negating, isNegated⟩ := advances_test isa compared.freshVreg tested
      ((compared.freshVreg.push ⟨.pNot, some (.vreg compared.freshVreg.nextVreg),
        [.reg (.vreg ready.nextVreg)]⟩).bindVreg ref) rfl rfl rfl rfl
    refine ⟨compared.freshVreg.nextVreg, _, final, ?_, (advances.trans testing).trans negating, ?_,
      Nat.lt_succ_self _, ?_⟩
    · simp only [lowerIcmp, isLeft, bind, Except.bind]
      rw [isRight]
      dsimp only
      rw [isComparison]
      dsimp only
      rw [if_pos isNe]
      rfl
    · rw [← sameVregs]
      rfl
    · rw [isNegated]
      change isa.flag .pNot [.flag (tested.pred (.vreg ready.nextVreg))] = _
      rw [arithmetic.pNot, isTested, isRead, isFlag, if_pos isNe, isNe]
      rfl
  · obtain ⟨final, testing, isTested⟩ := advances_test isa ready between (compared.bindVreg ref)
      isTest isSources rfl rfl
    refine ⟨ready.nextVreg, _, final, ?_, advances.trans testing, ?_, Nat.lt_succ_self _, ?_⟩
    · simp only [lowerIcmp, isLeft, bind, Except.bind]
      rw [isRight]
      dsimp only
      rw [isComparison]
      dsimp only
      rw [if_neg isNe]
      rfl
    · rw [← sameVregs]
      rfl
    · rw [isTested, isRead, isFlag, if_neg isNe]

end

/-! ### Steps -/

section

variable {isa : Isa Opcode} {selection after : Selection} {state final : State Reg}
  {scope : List Entry} {env : Env} {instruction : Instruction}

/-- The register of a result holds what the machine computes from the registers
of the operands. -/
def Computes (selection : Selection) (state : State Reg) (final : State Reg) (v : Nat)
    (instruction : Instruction) : Prop :=
  match instruction.operation with
  | .binary op lhs rhs => final.gpr (.vreg v) =
      wordResult (operandWord selection state lhs) (operandWord selection state rhs) op
  | .icmp predicate lhs rhs => final.pred (.vreg v) =
      wordFlag (operandWord selection state lhs) (operandWord selection state rhs) predicate
  | _ => True

theorem lowerInstruction_advances (module : Llvm.Module) (memorySize : Nat)
    (labelOf : Llvm.BlockRef → Outcome String) (label : String) (arithmetic : WordArithmetic isa)
    (bound : Bound scope selection)
    (inScope : instruction.InScope scope) (state : State Reg) :
    ∃ v after final,
      lowerInstruction module memorySize labelOf label selection instruction = .ok after ∧
      Advances isa selection state after final ∧
      after.vregMap = selection.vregMap.insert instruction.ref v ∧ v < after.nextVreg ∧
      Computes selection state final v instruction := by
  cases inScope with
  | binary ref op bits lhs rhs _ leftInScope rightInScope =>
      exact lowerBinary_advances arithmetic bound leftInScope rightInScope ref op state
  | icmp ref predicate bits lhs rhs supported _ leftInScope rightInScope =>
      exact lowerIcmp_advances arithmetic bound leftInScope rightInScope ref supported state

/-- The word of an operand carries its number. -/
theorem setWidth_operandWord {bits : Nat} (width : bits ∈ [32, 64]) {operand : Operand}
    (represented : ∀ entry ∈ scope, Represents selection state env entry)
    (inScope : operand.InScope scope bits) {value : BitVec bits}
    (isValue : operand.eval env bits = some value) :
    (operandWord selection state operand).setWidth bits = value := by
  cases operand with
  | constInt width' constant => exact Option.some.inj isValue
  | ref key type =>
      obtain ⟨v, isBound, holds⟩ := represented _ inScope.2
      obtain ⟨word, isWord, rfl⟩ := Option.map_eq_some_iff.mp isValue
      have notFlag : bits ≠ 1 := by
        rintro rfl
        simp at width
      have same := holds word isWord
      rw [if_neg notFlag] at same
      rw [← same, operandWord, isBound]
      rfl
  | _ => cases inScope

theorem represents_new_iff {v : Nat}
    (isBound : after.vregMap = selection.vregMap.insert instruction.ref v) :
    Represents after final (env.step instruction) instruction.entry ↔
      ∀ value, instruction.eval env = some value →
        if instruction.type.width = 1 then final.pred (.vreg v) = value.getLsbD 0
        else (final.gpr (.vreg v)).setWidth instruction.type.width =
          value.setWidth instruction.type.width := by
  unfold Represents Instruction.entry
  rw [isBound, AList.lookup_insert, Env.step, Function.update_self]
  simp only [Option.some.injEq, exists_eq_left']

/-- The result of an instruction is right exactly when the excess of its operands
does not show. -/
theorem represents_iff_hidden {v : Nat} (inScope : instruction.InScope scope)
    (represented : ∀ entry ∈ scope, Represents selection state env entry)
    (isBound : after.vregMap = selection.vregMap.insert instruction.ref v)
    (computes : Computes selection state final v instruction) :
    Represents after final (env.step instruction) instruction.entry ↔
      Hidden selection state env instruction := by
  rw [represents_new_iff isBound]
  cases inScope with
  | binary ref op bits lhs rhs width leftInScope rightInScope =>
      have isWidth := leftInScope.width_eq
      subst isWidth
      have notFlag : lhs.type.width ≠ 1 := by
        intro isOne
        simp [isOne] at width
      have le : lhs.type.width ≤ 64 := by
        simp only [List.mem_cons, List.not_mem_nil, or_false] at width
        omega
      simp only [Hidden, Instruction.eval, Llvm.Ty.width_int]
      cases isLeft : lhs.eval env lhs.type.width with
      | none => simp
      | some left =>
          cases isRight : rhs.eval env lhs.type.width with
          | none => simp
          | some right =>
              have leftWord := setWidth_operandWord width represented leftInScope isLeft
              have rightWord := setWidth_operandWord width represented rightInScope isRight
              have isResult : final.gpr (.vreg v) = _ := computes
              have exact := wordResult_iff width op (operandWord selection state lhs)
                (operandWord selection state rhs)
              rw [leftWord, rightWord] at exact
              simp only [Option.isSome_some, forall_const, isResult, Option.bind_eq_bind,
                Option.bind_some]
              rw [← exact]
              cases op.eval left right with
              | none => simp
              | some result => simp [notFlag, BitVec.setWidth_setWidth_of_le _ le]
  | icmp ref predicate bits lhs rhs supported width leftInScope rightInScope =>
      have isWidth := leftInScope.width_eq
      subst isWidth
      simp only [Hidden, Instruction.eval, Llvm.Ty.width_int, if_pos]
      cases isLeft : lhs.eval env lhs.type.width with
      | none => simp
      | some left =>
          cases isRight : rhs.eval env lhs.type.width with
          | none => simp
          | some right =>
              have leftWord := setWidth_operandWord width represented leftInScope isLeft
              have rightWord := setWidth_operandWord width represented rightInScope isRight
              have isResult : final.pred (.vreg v) = _ := computes
              have exact := wordFlag_iff width supported (operandWord selection state lhs)
                (operandWord selection state rhs)
              rw [leftWord, rightWord] at exact
              simp only [Option.isSome_some, forall_const, isResult, Option.bind_eq_bind,
                Option.bind_some]
              rw [← exact]
              cases predicate.eval left right <;> simp

/-- Other values are represented as before. -/
theorem represents_step_iff {v : Nat} {entry : Entry}
    (advances : Advances isa selection state after final) (bound : Bound [entry] selection)
    (isBound : after.vregMap = selection.vregMap.insert instruction.ref v)
    (other : entry.1 ≠ instruction.ref) :
    Represents after final (env.step instruction) entry ↔ Represents selection state env entry := by
  obtain ⟨u, isOld, isRegister⟩ := bound entry (by simp)
  have sameRegister : after.vregMap.lookup entry.1 = some u := by
    rw [isBound, AList.lookup_insert_ne other, isRegister]
  have sameValue : env.step instruction entry.1 = env entry.1 := by
    rw [Env.step, Function.update_of_ne other]
  unfold Represents
  rw [sameRegister, isRegister, sameValue]
  simp only [Option.some.injEq, exists_eq_left', advances.gpr u isOld, advances.pred u isOld]

end

/-! ### Runs -/

section

variable {module : Llvm.Module} {memorySize : Nat} {labelOf : Llvm.BlockRef → Outcome String}
  {label : String} {isa : Isa Opcode} {selection after other : Selection}
  {state final last : State Reg} {params : List Entry} {env : Env}
  {instructions front : List Instruction} {instruction : Instruction}

theorem RunsTo.unique
    (first : RunsTo module memorySize labelOf label isa selection state instructions after final)
    (second : RunsTo module memorySize labelOf label isa selection state instructions other last) :
    other = after ∧ last = final := by
  obtain ⟨lowered, executed⟩ := first
  obtain ⟨lowered', executed'⟩ := second
  cases lowered.symm.trans lowered'
  cases executed.symm.trans executed'
  exact ⟨rfl, rfl⟩

theorem RunsTo.snoc {next : Selection}
    (runs : RunsTo module memorySize labelOf label isa selection state front after final)
    (lowered : lowerInstruction module memorySize labelOf label after instruction = .ok next)
    (advances : Advances isa after final next last) :
    RunsTo module memorySize labelOf label isa selection state (front ++ [instruction]) next
      last := by
  obtain ⟨code, isCode, executed⟩ := advances.code
  refine ⟨?_, ?_⟩
  · rw [List.foldlM_append, runs.1]
    simp only [bind, Except.bind, List.foldlM_cons, List.foldlM_nil]
    rw [lowered]
    rfl
  · rw [isCode, Mir.execSyllables_append, runs.2]
    exact executed

/-- The places of a list with one more element. -/
theorem forall_split_snoc {α : Type} {P : List α → α → Prop} {list : List α} {added : α} :
    (∀ front item back, list ++ [added] = front ++ item :: back → P front item) ↔
      (∀ front item back, list = front ++ item :: back → P front item) ∧ P list added := by
  constructor
  · intro all
    exact ⟨fun front item back same => all front item (back ++ [added]) (by simp [same]),
      all list added [] rfl⟩
  · rintro ⟨earlier, atEnd⟩ front item back same
    rcases List.eq_nil_or_concat back with rfl | ⟨init, last, rfl⟩
    · obtain ⟨rfl, rfl⟩ := List.append_inj' same rfl |>.imp id List.singleton_inj.mp
      exact atEnd
    · rw [List.concat_eq_append, ← List.cons_append, ← List.append_assoc] at same
      exact earlier front item init (List.append_inj' same rfl).1

/-- A run of straight-line code: all values have registers, the parameters are
represented, and the results are exactly when every step hides the bits above
its operands. -/
structure Traced (module : Llvm.Module) (memorySize : Nat)
    (labelOf : Llvm.BlockRef → Outcome String) (label : String) (isa : Isa Opcode)
    (selection : Selection) (state : State Reg) (params : List Entry) (env : Env)
    (instructions : List Instruction) (after : Selection) (final : State Reg) : Prop where
  runs : RunsTo module memorySize labelOf label isa selection state instructions after final
  bound : Bound (params ++ instructions.map Instruction.entry) after
  represented : ∀ entry ∈ params, Represents after final (env.run instructions) entry
  results : (∀ instruction ∈ instructions,
      Represents after final (env.run instructions) instruction.entry) ↔
    ∀ front instruction back, instructions = front ++ instruction :: back →
      ∀ before between, RunsTo module memorySize labelOf label isa selection state front before
        between → Hidden before between (env.run front) instruction

theorem Traced.snoc (arithmetic : WordArithmetic isa)
    (straight : StraightLine params (front ++ [instruction]))
    (traced : Traced module memorySize labelOf label isa selection state params env front after
      final) :
    ∃ next last, Traced module memorySize labelOf label isa selection state params env
      (front ++ [instruction]) next last := by
  have inScope := straight.uses front instruction [] rfl
  obtain ⟨v, next, last, lowered, advances, isBound, isNew, computes⟩ :=
    lowerInstruction_advances module memorySize labelOf label arithmetic traced.bound inScope final
  have distinct := straight.distinct
  rw [List.map_append, ← List.append_assoc, List.map_singleton, List.nodup_append] at distinct
  have others : ∀ entry ∈ params ++ front.map Instruction.entry, entry.1 ≠ instruction.ref := by
    intro entry entryMem
    refine distinct.2.2 entry.1 ?_ instruction.ref (List.mem_singleton_self _)
    rcases List.mem_append.mp entryMem with isParam | isResult
    · exact List.mem_append_left _ (List.mem_map_of_mem isParam)
    · obtain ⟨earlier, earlierMem, rfl⟩ := List.mem_map.mp isResult
      exact List.mem_append_right _ (List.mem_map_of_mem earlierMem)
  have keeps : ∀ entry ∈ params ++ front.map Instruction.entry,
      (Represents next last (env.run (front ++ [instruction])) entry ↔
        Represents after final (env.run front) entry) := by
    intro entry entryMem
    rw [Env.run_snoc]
    refine represents_step_iff advances ?_ isBound (others entry entryMem)
    intro same sameMem
    rw [List.mem_singleton.mp sameMem]
    exact traced.bound entry entryMem
  refine ⟨next, last, traced.runs.snoc lowered advances, ?_, ?_, ?_⟩
  · rw [List.map_append, ← List.append_assoc]
    intro entry entryMem
    rcases List.mem_append.mp entryMem with isOld | isLast
    · obtain ⟨u, isSmall, isRegister⟩ := traced.bound entry isOld
      refine ⟨u, Nat.lt_of_lt_of_le isSmall advances.next, ?_⟩
      rw [isBound, AList.lookup_insert_ne (others entry isOld), isRegister]
    · rw [List.mem_singleton.mp isLast]
      exact ⟨v, isNew, by rw [isBound]; exact AList.lookup_insert _⟩
  · intro entry entryMem
    exact (keeps entry (List.mem_append_left _ entryMem)).mpr (traced.represented entry entryMem)
  · have earlier : (∀ other ∈ front, Represents next last (env.run (front ++ [instruction]))
        other.entry) ↔ ∀ other ∈ front, Represents after final (env.run front) other.entry :=
      forall₂_congr fun other otherMem =>
        keeps other.entry (List.mem_append_right _ (List.mem_map_of_mem otherMem))
    rw [forall_split_snoc, ← traced.results, List.forall_mem_append, earlier,
      List.forall_mem_singleton]
    refine and_congr_right fun results => ?_
    have allRepresented : ∀ entry ∈ params ++ front.map Instruction.entry,
        Represents after final (env.run front) entry := by
      refine List.forall_mem_append.mpr ⟨traced.represented, ?_⟩
      simpa using results
    rw [Env.run_snoc, represents_iff_hidden inScope allRepresented isBound computes]
    constructor
    · intro isHidden before between runs
      obtain ⟨rfl, rfl⟩ := traced.runs.unique runs
      exact isHidden
    · intro hidden
      exact hidden after final traced.runs

theorem exists_traced (module : Llvm.Module) (memorySize : Nat)
    (labelOf : Llvm.BlockRef → Outcome String) (label : String) (arithmetic : WordArithmetic isa)
    (straight : StraightLine params instructions) (prepared : Prepared params selection state env) :
    ∃ after final, Traced module memorySize labelOf label isa selection state params env
      instructions after final := by
  induction instructions using List.reverseRecOn with
  | nil =>
      refine ⟨selection, state, ⟨rfl, ?_⟩, ?_, prepared.represented, ?_⟩
      · rw [prepared.syllables]
        rfl
      · rw [List.map_nil, List.append_nil]
        exact prepared.bound
      · simp
  | append_singleton front instruction ih =>
      obtain ⟨after, final, traced⟩ := ih straight.front
      exact traced.snoc arithmetic straight

end

section

variable {module : Llvm.Module} {memorySize : Nat} {labelOf : Llvm.BlockRef → Outcome String}
  {label : String} {isa : Isa Opcode}

/-- Straight-line code keeps its meaning exactly when, at every step, the bits of
the registers above the operands do not show in the result. -/
theorem keepsMeaning_iff {params : List Entry} {instructions : List Instruction}
    {selection : Selection} {state : State Reg} {env : Env} (arithmetic : WordArithmetic isa)
    (straight : StraightLine params instructions)
    (prepared : Prepared params selection state env) :
    KeepsMeaning module memorySize labelOf label isa selection state env instructions ↔
      ∀ front instruction back, instructions = front ++ instruction :: back →
        ∀ before between, RunsTo module memorySize labelOf label isa selection state front before
          between → Hidden before between (env.run front) instruction := by
  obtain ⟨after, final, traced⟩ :=
    exists_traced module memorySize labelOf label arithmetic straight prepared
  rw [← traced.results]
  constructor
  · rintro ⟨other, last, runs, represented⟩
    obtain ⟨rfl, rfl⟩ := traced.runs.unique runs
    exact represented
  · intro represented
    exact ⟨after, final, traced.runs, represented⟩

end

/-- A 64-bit machine. -/
def wordIsa : Isa Opcode where
  result
    | .movImm, [.word word] => word
    | .add, [.word left, .word right] => left + right
    | .sub, [.word left, .word right] => left - right
    | .mul, [.word left, .word right] => left * right
    | .and, [.word left, .word right] => left &&& right
    | .or, [.word left, .word right] => left ||| right
    | .xor, [.word left, .word right] => left ^^^ right
    | .shl, [.word left, .word right] => left <<< (right.toNat % 64)
    | .srl, [.word left, .word right] => left >>> (right.toNat % 64)
    | .sra, [.word left, .word right] => left.sshiftRight (right.toNat % 64)
    | _, _ => 0
  flag
    | .cmpEq, [.word left, .word right] => left == right
    | .cmpLt, [.word left, .word right] => left.slt right
    | .cmpUlt, [.word left, .word right] => left.ult right
    | .pNot, [.flag flag] => !flag
    | _, _ => false
  extend _ value := value
  acquire _ _ _ := 0
  release _ _ := []

theorem wordArithmetic_wordIsa : WordArithmetic wordIsa :=
  ⟨fun _ => rfl, fun op _ _ => by cases op <;> rfl, fun _ _ => rfl, fun _ _ => rfl,
    fun _ _ => rfl, fun _ => rfl⟩

/-- A parameter of type `i32` shifted to the right by one bit. -/
def halving : List Instruction :=
  [⟨8, .int 32, .binary .lshr (.ref 7 (.int 32)) (.constInt 32 1)⟩]

/-- The parameter in its register, sign-extended. -/
def parameterState (word : Word) : State Reg := ⟨fun _ => word, fun _ => false, fun _ => 0⟩

def parameterEnv (word : Word) : Env := fun key => if key = 7 then some word else none

theorem straightLine_halving : StraightLine [(7, 32)] halving := by
  refine ⟨?_, by decide⟩
  intro front instruction back same
  rcases front with _ | ⟨first, front⟩
  · obtain ⟨rfl, -⟩ := List.cons.inj same
    exact .binary 8 .lshr 32 _ _ (by simp) ⟨rfl, by simp⟩ rfl
  · have short := (List.cons.inj same).2
    simp at short

theorem prepared_parameter (word : Word) :
    Prepared [(7, 32)] (({} : Selection).bindVreg 7) (parameterState word) (parameterEnv word) := by
  refine ⟨rfl, by simp, ?_, ?_⟩
  · simp only [List.forall_mem_singleton]
    exact ⟨0, Nat.zero_lt_one, rfl⟩
  · simp only [List.forall_mem_singleton]
    refine ⟨0, rfl, ?_⟩
    intro value isValue
    cases isValue
    rfl

/-- Half of four is two. -/
theorem keepsMeaning_halving_four :
    KeepsMeaning [] 4096 (fun _ => .ok "entry") "entry" wordIsa (({} : Selection).bindVreg 7)
      (parameterState 4) (parameterEnv 4) halving := by
  refine (keepsMeaning_iff wordArithmetic_wordIsa straightLine_halving
    (prepared_parameter 4)).mpr ?_
  intro front instruction back same before between runs
  rcases front with _ | ⟨first, front⟩
  · obtain ⟨rfl, -⟩ := List.cons.inj same
    obtain ⟨lowered, executed⟩ := runs
    cases lowered
    cases executed
    intro _ _ _
    decide
  · have short := (List.cons.inj same).2
    simp at short

/-- The bits above minus one come in as bits of its half. -/
theorem halving_minus_one_negative :
    ¬KeepsMeaning [] 4096 (fun _ => .ok "entry") "entry" wordIsa (({} : Selection).bindVreg 7)
      (parameterState (-1)) (parameterEnv (-1)) halving := by
  rintro ⟨after, final, ⟨lowered, executed⟩, represented⟩
  cases lowered
  cases executed
  obtain ⟨v, isBound, holds⟩ := represented _ (List.mem_singleton_self _)
  cases isBound
  exact absurd (holds _ rfl) (by decide)

end VliwCompiler.Isel
