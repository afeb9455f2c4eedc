import VliwCompiler.Isel.Lower
import VliwCompiler.Data.Worklist
import VliwCompiler.Data.MapM

/-!
# Layout of lowered functions

Which MIR blocks an LLVM block becomes depends on its name, its calls and the
order in which the blocks are visited, but not on its other instructions.  The
layout is stated for the LLVM function first; the lowered blocks have it.
-/

namespace VliwCompiler.Isel

open Mir (Block)
open Llvm (Instruction)
open Worklist (Successors)

/-! ### Layout of the LLVM function -/

/-- The instruction is a call. -/
def isCall (instruction : Instruction) : Bool :=
  match instruction.operation with
  | .call _ _ => true
  | _ => false

/-- The incoming values of a phi. -/
def phiIncoming (instruction : Instruction) : Option (List (Llvm.Operand × Llvm.BlockRef)) :=
  match instruction.operation with
  | .phi incoming => some incoming
  | _ => none

section

variable (function : Llvm.Function)

/-- The successors of a block after one more instruction. -/
def branchTargets (successors : Successors String) (instruction : Instruction) :
    Successors String :=
  match instruction.operation with
  | .condBr _ ifTrue ifFalse =>
      ⟨(blockLabels function)[ifFalse]?, (blockLabels function)[ifTrue]?⟩
  | .br target => ⟨successors.next, (blockLabels function)[target]?⟩
  | _ => successors

/-- The instructions of the block with the given label. -/
def instructionsOf (label : String) : List Instruction :=
  ((bbOf function label).map (·.instructions)).getD []

def successorsOf (label : String) : Successors String :=
  (instructionsOf function label).foldl (branchTargets function) {}

/-- The number of calls in a block. -/
def callsIn (label : String) : Nat := (instructionsOf function label).countP isCall

/-- Labels of the blocks in the order in which they are visited. -/
def blockOrder : List String :=
  Worklist.order (successorsOf function) (traversalFuel function)
    ((blockLabels function).take 1) []

/-- Labels of the MIR blocks of a block with the given number of calls. -/
def chunkLabels : String → Nat → Nat → List String
  | label, 0, _ => [label]
  | label, calls + 1, callCount =>
      label :: chunkLabels (label ++ "__cont__" ++ toString callCount) calls (callCount + 1)

/-- The label of the latch that follows a block when its false successor is
among the blocks visited before. -/
def latchLabels (visited : List String) (label : String) : List String :=
  match (successorsOf function label).next with
  | some target => if target ∈ visited then [label ++ "__latch__" ++ target] else []
  | none => []

/-- Labels of the MIR blocks of consecutively visited blocks. -/
def layoutLabels : List String → Nat → List String → List String
  | _, _, [] => []
  | visited, callCount, label :: rest =>
      chunkLabels label (callsIn function label) callCount ++
        latchLabels function (visited ++ [label]) label ++
        layoutLabels (visited ++ [label]) (callCount + callsIn function label) rest

end

/-! ### Effect of an instruction -/

/-- The variables that describe finished blocks and control flow. -/
structure Control where
  pendingPhis : List PendingPhi
  callCount : Nat
  mirBlocks : List Block
  currentMirLabel : String
  terminator : Mir.Terminator
  falseSucc : Option String
  trueSucc : Option String

def Selection.control (selection : Selection) : Control :=
  ⟨selection.pendingPhis, selection.callCount, selection.mirBlocks, selection.currentMirLabel,
    selection.terminator, selection.falseSucc, selection.trueSucc⟩

theorem control_of_lowerOperand {operand : Llvm.Operand} {selection after : Selection}
    {value : Mir.Value} (lowered : lowerOperand operand selection = .ok (value, after)) :
    after.control = selection.control := by
  unfold lowerOperand at lowered
  split at lowered
  · cases lowered
    rfl
  · obtain ⟨vreg, -, same⟩ := bind_eq_ok.mp lowered
    cases same
    rfl
  · cases lowered

section

variable {module : Llvm.Module} {memorySize : Nat} {labelAt : Llvm.BlockRef → Outcome String}
  {label : String} {selection after : Selection} {instruction : Instruction}

theorem control_of_lowerIcmp {ref : Llvm.ValueRef} {predicate : Llvm.IntPredicate}
    {lhs rhs : Llvm.Operand} (lowered : lowerIcmp ref predicate lhs rhs selection = .ok after) :
    after.control = selection.control := by
  obtain ⟨⟨left, first⟩, isLeft, lowered⟩ := bind_eq_ok.mp lowered
  obtain ⟨⟨right, second⟩, isRight, lowered⟩ := bind_eq_ok.mp lowered
  obtain ⟨⟨opcode, swapped⟩, -, lowered⟩ := bind_eq_ok.mp lowered
  have same : second.control = selection.control :=
    (control_of_lowerOperand isRight).trans (control_of_lowerOperand isLeft)
  dsimp only at lowered
  split at lowered <;> cases lowered <;> exact same

theorem control_of_lowerBinary {ref : Llvm.ValueRef} {op : Llvm.BinaryOp} {lhs rhs : Llvm.Operand}
    (lowered : lowerBinary ref op lhs rhs selection = .ok after) :
    after.control = selection.control := by
  obtain ⟨⟨left, first⟩, isLeft, lowered⟩ := bind_eq_ok.mp lowered
  obtain ⟨⟨right, second⟩, isRight, lowered⟩ := bind_eq_ok.mp lowered
  cases lowered
  exact (control_of_lowerOperand isRight).trans (control_of_lowerOperand isLeft)

theorem control_of_lowerReturn {value : Option Llvm.Operand}
    (lowered : lowerReturn value selection = .ok after) :
    after.control = { selection.control with terminator := .ret } := by
  unfold lowerReturn at lowered
  split at lowered
  · cases lowered
    rfl
  · obtain ⟨vreg, -, same⟩ := bind_eq_ok.mp lowered
    cases same
    rfl
  · cases lowered
    rfl

/-- A call that is lowered. -/
theorem lowerCall_eq_ok {callee : Llvm.Callee} {arguments : List Llvm.Operand}
    (lowered : lowerCall module memorySize instruction callee arguments selection = .ok after) :
    ∃ target values, (callee = .function target ∧ Llvm.countBasicBlocks module target ≠ 0 ∧
        arguments.length ≤ 8 ∧ arguments.mapM (callArgument selection.vregMap) = .ok values ∧
        Addressable memorySize) ∧
      after =
        let called := splitAtCall (linkAddress memorySize) target { selection with
          syllables := selection.syllables ++ argMoves 0 values ++
            [saveLink (linkAddress memorySize)] }
        if instruction.type = .void then called else captureResult instruction.ref called := by
  unfold lowerCall at lowered
  split at lowered
  · cases lowered
  · rename_i target
    split at lowered
    · cases lowered
    · rename_i defined
      split at lowered
      · cases lowered
      · rename_i few
        obtain ⟨values, isValues, lowered⟩ := bind_eq_ok.mp lowered
        obtain ⟨address, isAddress, lowered⟩ := bind_eq_ok.mp lowered
        obtain ⟨addressable, rfl⟩ := linkRegSaveAddr_eq_ok.mp isAddress
        cases lowered
        exact ⟨target, values, ⟨rfl, defined, Nat.le_of_not_lt few, isValues, addressable⟩, rfl⟩

/-- The block that a call ends, with the continuation that follows it. -/
theorem control_of_lowerCall {callee : Llvm.Callee} {arguments : List Llvm.Operand}
    (lowered : lowerCall module memorySize instruction callee arguments selection = .ok after) :
    ∃ block : Block, (block.label = selection.currentMirLabel ∧ ∃ target,
        callee = .function target ∧ block.terminator = .directCall target (contLabel selection)) ∧
      after.control = { selection.control with
        callCount := selection.callCount + 1
        mirBlocks := selection.mirBlocks ++ [block]
        currentMirLabel := contLabel selection
        terminator := .ret } := by
  obtain ⟨target, values, ⟨isCallee, -⟩, rfl⟩ := lowerCall_eq_ok lowered
  refine ⟨⟨selection.currentMirLabel, selection.syllables ++ argMoves 0 values ++
    [saveLink (linkAddress memorySize)], .directCall target (contLabel selection)⟩,
    ⟨rfl, target, isCallee, rfl⟩, ?_⟩
  split <;> rfl

/-- What an instruction does to finished blocks and control flow. -/
theorem control_of_lowerInstruction
    (lowered : lowerInstruction module memorySize labelAt label selection instruction =
      .ok after) :
    match instruction.operation with
    | .phi incoming => ∃ raw, rawIncoming labelAt incoming = .ok raw ∧
          after.control = { selection.control with
            pendingPhis := selection.pendingPhis ++ [⟨label, selection.nextVreg, raw⟩] }
    | .ret _ => after.control = { selection.control with terminator := .ret }
    | .condBr _ ifTrue ifFalse => ∃ trueLabel falseLabel vreg,
        labelAt ifTrue = .ok trueLabel ∧ labelAt ifFalse = .ok falseLabel ∧
          after.control = { selection.control with
            terminator := .branch (.vreg vreg) trueLabel
            falseSucc := some falseLabel
            trueSucc := some trueLabel }
    | .br target => ∃ targetLabel, labelAt target = .ok targetLabel ∧
        after.control = { selection.control with
          terminator := .jump targetLabel
          trueSucc := some targetLabel }
    | .call callee _ => ∃ block : Block, (block.label = selection.currentMirLabel ∧ ∃ target,
          callee = .function target ∧
            block.terminator = .directCall target (contLabel selection)) ∧
        after.control = { selection.control with
          callCount := selection.callCount + 1
          mirBlocks := selection.mirBlocks ++ [block]
          currentMirLabel := contLabel selection
          terminator := .ret }
    | _ => after.control = selection.control := by
  unfold lowerInstruction at lowered
  cases isOperation : instruction.operation with
  | phi incoming =>
      rw [isOperation] at lowered
      obtain ⟨raw, isRaw, lowered⟩ := bind_eq_ok.mp lowered
      cases lowered
      exact ⟨raw, isRaw, rfl⟩
  | ret value =>
      rw [isOperation] at lowered
      exact control_of_lowerReturn lowered
  | condBr cond ifTrue ifFalse =>
      rw [isOperation] at lowered
      obtain ⟨trueLabel, isTrue, lowered⟩ := bind_eq_ok.mp lowered
      obtain ⟨falseLabel, isFalse, lowered⟩ := bind_eq_ok.mp lowered
      obtain ⟨vreg, -, lowered⟩ := bind_eq_ok.mp lowered
      cases lowered
      exact ⟨trueLabel, falseLabel, vreg, isTrue, isFalse, rfl⟩
  | br target =>
      rw [isOperation] at lowered
      obtain ⟨targetLabel, isTarget, lowered⟩ := bind_eq_ok.mp lowered
      cases lowered
      exact ⟨targetLabel, isTarget, rfl⟩
  | call callee arguments =>
      rw [isOperation] at lowered
      exact control_of_lowerCall lowered
  | icmp predicate lhs rhs =>
      rw [isOperation] at lowered
      exact control_of_lowerIcmp lowered
  | binary op lhs rhs =>
      rw [isOperation] at lowered
      exact control_of_lowerBinary lowered
  | store value pointer =>
      rw [isOperation] at lowered
      obtain ⟨opcode, -, lowered⟩ := bind_eq_ok.mp lowered
      obtain ⟨⟨data, first⟩, isData, lowered⟩ := bind_eq_ok.mp lowered
      obtain ⟨⟨base, offset⟩, -, lowered⟩ := bind_eq_ok.mp lowered
      cases lowered
      have same := control_of_lowerOperand isData
      exact same
  | load pointer =>
      rw [isOperation] at lowered
      obtain ⟨opcode, -, lowered⟩ := bind_eq_ok.mp lowered
      obtain ⟨⟨base, offset⟩, -, lowered⟩ := bind_eq_ok.mp lowered
      cases lowered
      rfl
  | getElementPtr element base indices =>
      rw [isOperation] at lowered
      obtain ⟨⟨baseVal, baseOffset⟩, -, lowered⟩ := bind_eq_ok.mp lowered
      obtain ⟨elemBytes, -, lowered⟩ := bind_eq_ok.mp lowered
      obtain ⟨totalOffset, -, lowered⟩ := bind_eq_ok.mp lowered
      cases lowered
      rfl
  | invoke | atomic | other =>
      rw [isOperation] at lowered
      cases lowered

/-- An instruction that is not a call stays in its MIR block. -/
theorem control_of_not_isCall (notCall : isCall instruction = false)
    (lowered : lowerInstruction module memorySize labelAt label selection instruction =
      .ok after) :
    after.mirBlocks = selection.mirBlocks ∧
      after.currentMirLabel = selection.currentMirLabel := by
  have effect := control_of_lowerInstruction lowered
  cases isOperation : instruction.operation with
  | call => simp [isCall, isOperation] at notCall
  | phi incoming =>
      rw [isOperation] at effect
      obtain ⟨raw, -, same⟩ := effect
      exact ⟨congrArg Control.mirBlocks same, congrArg Control.currentMirLabel same⟩
  | condBr cond ifTrue ifFalse =>
      rw [isOperation] at effect
      obtain ⟨trueLabel, falseLabel, vreg, -, -, same⟩ := effect
      exact ⟨congrArg Control.mirBlocks same, congrArg Control.currentMirLabel same⟩
  | br target =>
      rw [isOperation] at effect
      obtain ⟨targetLabel, -, same⟩ := effect
      exact ⟨congrArg Control.mirBlocks same, congrArg Control.currentMirLabel same⟩
  | _ =>
      rw [isOperation] at effect
      exact ⟨congrArg Control.mirBlocks effect, congrArg Control.currentMirLabel effect⟩

/-- Lowering consecutive instructions of a block. -/
structure Extended (function : Llvm.Function) (label : String) (instructions : List Instruction)
    (selection after : Selection) : Prop where
  blocks : ∃ chunk, after.mirBlocks = selection.mirBlocks ++ chunk ∧
    chunk.map (·.label) ++ [after.currentMirLabel] =
      chunkLabels selection.currentMirLabel (instructions.countP isCall) selection.callCount
  callCount : after.callCount = selection.callCount + instructions.countP isCall
  successors : (⟨after.falseSucc, after.trueSucc⟩ : Successors String) =
    instructions.foldl (branchTargets function) ⟨selection.falseSucc, selection.trueSucc⟩
  phis : ∃ phis, after.pendingPhis = selection.pendingPhis ++ phis ∧
    List.Forall₂ (fun incoming (phi : PendingPhi) =>
        phi.phiBlockLabel = label ∧ rawIncoming (labelOf function) incoming = .ok phi.incoming)
      (instructions.filterMap phiIncoming) phis

theorem Extended.nil (function : Llvm.Function) (label : String) (selection : Selection) :
    Extended function label [] selection selection where
  blocks := ⟨[], by simp [chunkLabels]⟩
  callCount := by simp
  successors := rfl
  phis := ⟨[], by simp⟩

theorem chunkLabels_add {front : List String} {label current : String} {first second count : Nat}
    (labels : front ++ [current] = chunkLabels label first count) :
    chunkLabels label (first + second) count =
      front ++ chunkLabels current second (count + first) := by
  induction first generalizing front label count with
  | zero =>
      obtain ⟨rfl, rfl⟩ : front = [] ∧ current = label := by
        simpa [chunkLabels, List.append_eq_cons_iff] using labels
      simp
  | succ first ih =>
      cases front with
      | nil => cases first <;> simp [chunkLabels] at labels
      | cons head front =>
          rw [chunkLabels, List.cons_append] at labels
          obtain ⟨rfl, rest⟩ := List.cons.inj labels
          rw [Nat.add_right_comm, chunkLabels, ih rest, List.cons_append, Nat.add_assoc,
            Nat.add_comm 1 first]

theorem Extended.trans {function : Llvm.Function} {first second : List Instruction}
    {middle : Selection} (before : Extended function label first selection middle)
    (rest : Extended function label second middle after) :
    Extended function label (first ++ second) selection after := by
  obtain ⟨chunk, isChunk, labels⟩ := before.blocks
  obtain ⟨phis, isPhis, fromPhis⟩ := before.phis
  obtain ⟨chunk', isChunk', labels'⟩ := rest.blocks
  obtain ⟨phis', isPhis', fromPhis'⟩ := rest.phis
  refine ⟨⟨chunk ++ chunk', ?_, ?_⟩, ?_, ?_, phis ++ phis', ?_, ?_⟩
  · rw [isChunk', isChunk, List.append_assoc]
  · rw [List.countP_append, chunkLabels_add labels, List.map_append, List.append_assoc, labels',
      before.callCount]
  · rw [rest.callCount, before.callCount, List.countP_append, Nat.add_assoc]
  · rw [rest.successors, before.successors, List.foldl_append]
  · rw [isPhis', isPhis, List.append_assoc]
  · rw [List.filterMap_append]
    exact List.rel_append fromPhis fromPhis'

theorem labelOf_eq_ok {function : Llvm.Function} {block : Llvm.BlockRef} {name : String} :
    labelOf function block = .ok name ↔ (blockLabels function)[block]? = some name :=
  expect_eq_ok

/-- Lowering one instruction. -/
theorem Extended.single {function : Llvm.Function}
    (lowered : lowerInstruction module memorySize (labelOf function) label selection instruction =
      .ok after) :
    Extended function label [instruction] selection after := by
  have effect := control_of_lowerInstruction lowered
  cases isOperation : instruction.operation with
  | phi incoming =>
      rw [isOperation] at effect
      obtain ⟨raw, isRaw, same⟩ := effect
      injection same with samePhis sameCount sameBlocks sameLabel _ sameFalse sameTrue
      refine ⟨⟨[], ?_⟩, ?_, ?_, [⟨label, selection.nextVreg, raw⟩], samePhis, ?_⟩
      · simp_all [Selection.control, isCall, chunkLabels]
      · simp_all [Selection.control, isCall]
      · simp_all [Selection.control, branchTargets]
      · simp_all [Selection.control, phiIncoming]
  | condBr cond ifTrue ifFalse =>
      rw [isOperation] at effect
      obtain ⟨trueLabel, falseLabel, vreg, isTrue, isFalse, same⟩ := effect
      injection same with samePhis sameCount sameBlocks sameLabel _ sameFalse sameTrue
      rw [labelOf_eq_ok] at isTrue isFalse
      refine ⟨⟨[], ?_⟩, ?_, ?_, [], ?_⟩
      · simp_all [Selection.control, isCall, chunkLabels]
      · simp_all [Selection.control, isCall]
      · simp_all [Selection.control, branchTargets]
      · simp_all [Selection.control, phiIncoming]
  | br target =>
      rw [isOperation] at effect
      obtain ⟨targetLabel, isTarget, same⟩ := effect
      injection same with samePhis sameCount sameBlocks sameLabel _ sameFalse sameTrue
      rw [labelOf_eq_ok] at isTarget
      refine ⟨⟨[], ?_⟩, ?_, ?_, [], ?_⟩
      · simp_all [Selection.control, isCall, chunkLabels]
      · simp_all [Selection.control, isCall]
      · simp_all [Selection.control, branchTargets]
      · simp_all [Selection.control, phiIncoming]
  | call callee arguments =>
      rw [isOperation] at effect
      obtain ⟨block, ⟨isBlock, -⟩, same⟩ := effect
      injection same with samePhis sameCount sameBlocks sameLabel _ sameFalse sameTrue
      refine ⟨⟨[block], ?_⟩, ?_, ?_, [], ?_⟩
      · simp_all [Selection.control, isCall, chunkLabels, contLabel]
      · simp_all [Selection.control, isCall]
      · simp_all [Selection.control, branchTargets]
      · simp_all [Selection.control, phiIncoming]
  | ret value =>
      rw [isOperation] at effect
      injection effect with samePhis sameCount sameBlocks sameLabel _ sameFalse sameTrue
      refine ⟨⟨[], ?_⟩, ?_, ?_, [], ?_⟩
      · simp_all [Selection.control, isCall, chunkLabels]
      · simp_all [Selection.control, isCall]
      · simp_all [Selection.control, branchTargets]
      · simp_all [Selection.control, phiIncoming]
  | _ =>
      rw [isOperation] at effect
      injection effect with samePhis sameCount sameBlocks sameLabel _ sameFalse sameTrue
      refine ⟨⟨[], ?_⟩, ?_, ?_, [], ?_⟩
      · simp_all [isCall, chunkLabels]
      · simp_all [isCall]
      · simp_all [branchTargets]
      · simp_all [phiIncoming]

theorem extended_of_foldlM {function : Llvm.Function} {instructions : List Instruction}
    (lowered : instructions.foldlM
      (lowerInstruction module memorySize (labelOf function) label) selection = .ok after) :
    Extended function label instructions selection after := by
  induction instructions generalizing selection with
  | nil =>
      cases lowered
      exact .nil function label _
  | cons instruction instructions ih =>
      rw [List.foldlM_cons] at lowered
      obtain ⟨middle, first, rest⟩ := bind_eq_ok.mp lowered
      exact (Extended.single first).trans (ih rest)

end

/-! ### Blocks -/

theorem length_chunkLabels (label : String) (calls callCount : Nat) :
    (chunkLabels label calls callCount).length = calls + 1 := by
  induction calls generalizing label callCount with
  | zero => rfl
  | succ calls ih => rw [chunkLabels, List.length_cons, ih]

theorem head?_chunkLabels (label : String) (calls callCount : Nat) :
    (chunkLabels label calls callCount).head? = some label := by
  cases calls <;> rfl

section

variable {module : Llvm.Module} {memorySize : Nat} {function : Llvm.Function} {label : String}

/-- The MIR blocks and phis of a lowered block. -/
structure Finished (function : Llvm.Function) (label : String) (selection after : Selection) :
    Prop where
  blocks : ∃ chunk, after.mirBlocks = selection.mirBlocks ++ chunk ∧
    chunk.map (·.label) = chunkLabels label (callsIn function label) selection.callCount
  callCount : after.callCount = selection.callCount + callsIn function label
  successors : (⟨after.falseSucc, after.trueSucc⟩ : Successors String) =
    successorsOf function label
  phis : ∃ phis, after.pendingPhis = selection.pendingPhis ++ phis ∧
    List.Forall₂ (fun incoming (phi : PendingPhi) =>
        phi.phiBlockLabel = label ∧ rawIncoming (labelOf function) incoming = .ok phi.incoming)
      ((instructionsOf function label).filterMap phiIncoming) phis

theorem finished_of_lowerBlock {block : Llvm.Block} {selection after : Selection}
    (isBlock : bbOf function label = some block)
    (lowered : lowerBlock module memorySize function label block selection = .ok after) :
    Finished function label selection after := by
  obtain ⟨final, folded, lowered⟩ := bind_eq_ok.mp lowered
  cases lowered
  have extended := extended_of_foldlM folded
  have isInstructions : instructionsOf function label = block.instructions := by
    simp [instructionsOf, isBlock]
  obtain ⟨chunk, isChunk, labels⟩ := extended.blocks
  refine ⟨⟨chunk ++ [⟨final.currentMirLabel, final.syllables, final.terminator⟩], ?_, ?_⟩, ?_, ?_,
    ?_⟩
  · rw [Selection.finish, isChunk, List.append_assoc]
    rfl
  · rw [List.map_append, callsIn, isInstructions]
    exact labels
  · rw [callsIn, isInstructions]
    exact extended.callCount
  · rw [successorsOf, isInstructions]
    exact extended.successors
  · rw [isInstructions]
    exact extended.phis

end

end VliwCompiler.Isel

