import VliwCompiler.Isel.EdgeMeaning
import VliwCompiler.Isel.Edges
import VliwCompiler.Machine.Forward

/-!
# Meaning of lowered functions

A lowered function without calls computes what the LLVM function computes.  Every
step of the LLVM function is one of the selected blocks with phis on their edges,
which the lowered function follows when its edges are apart.
-/

namespace VliwCompiler.Isel

open Asm (Opcode Copies I64)
open Mir (Reg BlockId blockAt returnBlock)
open Llvm (BlockRef ValueRef Instruction Env Frame)
open Machine

/-! ### Parameters -/

section

variable {module : Llvm.Module} {memorySize : Nat} {function : Llvm.Function}
  {traversal : Traversal}

/-- Parameters stay in the first registers. -/
theorem LoopState.param_of_bound (isSsa : function.IsSsa)
    (state : LoopState module memorySize function traversal) {key : ValueRef} {v : Nat}
    (isParam : key ∈ function.params.map (·.ref))
    (isBound : traversal.selection.vregMap.lookup key = some v) :
    ∃ param, function.params[v]? = some param ∧ param.ref = key := by
  induction state with
  | start begun =>
      obtain ⟨entry, selection, -, bound, rfl⟩ := initialTraversal_eq_ok begun
      exact (bound_of_bindParams bound).2.2 key v isBound
  | skip _ _ _ ih => exact ih isBound
  | @visit current after label rest before isNext isNew visited ih =>
      obtain ⟨block, selection, isBlock, lowered, enqueued⟩ := visitBlock_eq_ok visited
      obtain ⟨final, folded, lowered⟩ := bind_eq_ok.mp lowered
      cases lowered
      obtain ⟨node, -, isNode⟩ := exists_index_of_bbOf isBlock
      have fresh : ∀ instruction ∈ block.instructions,
          Unrecorded (current.selection.begin label) instruction.ref :=
        before.unrecorded isSsa isBlock isNew
      obtain ⟨extended, -⟩ := extends_of_foldlM (nodup_refs isSsa isNode) fresh folded
      obtain ⟨w, wasBound⟩ := (before.recorded.vregs key).mpr (.inl isParam)
      have isFinal : final.vregMap.lookup key = some w := extended.vregs key w wasBound
      rw [enqueued.rest] at isBound
      obtain rfl := Option.some.inj (isFinal.symm.trans isBound)
      exact ih wasBound

end

/-! ### Steps -/

/-- The selected blocks are where the LLVM function is. -/
inductive Corresponds (function : Llvm.Function) (traversal : Traversal) :
    Llvm.Config → EdgeConfig → Prop where
  | block {node : BlockRef} {label : String} {frame : Frame} {state : State Reg}
      (isLabel : (blockLabels function)[node]? = some label)
      (isVisited : label ∈ blockOrder function) (mem : state.mem = frame.mem)
      (carried : Carried function traversal.selection node [] state frame.env) :
      Corresponds function traversal ⟨some node, frame, none⟩ ⟨some label, state⟩
  | returned {frame : Frame} {result : Option (Nat × I64)} {state : State Reg}
      (mem : state.mem = frame.mem) (value : ∀ bits word, result = some (bits, word) →
        (state.readGpr (.preg retvalReg)).setWidth bits = word.setWidth bits) :
      Corresponds function traversal ⟨none, frame, result⟩ ⟨none, state⟩

namespace CallFreeLowering

variable {module : Llvm.Module} {memorySize : Nat} {function : Llvm.Function}
  {traversal : Traversal} {table : CopyTable} {sites : List Site} {lowered : Mir.Function}
  {isa : Isa Opcode}
  (lowering : CallFreeLowering module memorySize function traversal table sites lowered)
  (supported : Supported function)

include lowering supported

/-- The selected blocks follow the LLVM function. -/
theorem forward (arithmetic : MachineArithmetic isa) :
    Forward function.step (edgeStep function traversal isa) (Corresponds function traversal) := by
  have setting := lowering.setting supported
  intro config config' next related stepped
  cases related with
  | returned => cases stepped
  | @block node label frame state isLabel isVisited sameMem carried =>
      obtain ⟨front, site, back, isSites, rfl⟩ := lowering.sited.exists_site isVisited
      obtain ⟨block, before, after, underway, made⟩ := lowering.exists_underway isSites isLabel
      obtain ⟨final, frame', executed, finalMem, isEnd⟩ := setting.simulates_block arithmetic underway
        made.lowered isLabel made.empty sameMem carried stepped
      have isCode : Mir.execSyllables isa site.block.syllables state = some final := by
        rw [made.isSite]
        exact executed
      have isStep := edgeStep_site lowering isSites isCode
      rw [made.isSite] at isStep
      cases isEnd with
      | returned isRet value =>
          refine ⟨⟨none, final⟩, .single ?_, .returned finalMem value⟩
          rw [isStep, isRet]
          rfl
      | @edge target name isName edge isNext carriedEnd =>
          obtain ⟨other, isOther, labelEdge⟩ :=
            exists_label_of_edge lowering.isSsa setting.distinct isLabel edge
          obtain rfl := Option.some.inj (isOther.symm.trans isName)
          have isTarget := mem_blockOrder_of_edge lowering.isSsa.entry isVisited labelEdge
          refine ⟨⟨some other, assign (edgeCopies traversal site.label other) final⟩, .single ?_,
            .block isName isTarget finalMem ?_⟩
          · rw [isStep, isNext]
            rfl
          · exact lowering.carried_enter supported isLabel isVisited underway.isNode isName isTarget
              edge carriedEnd

end CallFreeLowering

/-! ### Runs -/

theorem MachineArithmetic.copies {isa : Isa Opcode} (arithmetic : MachineArithmetic isa) :
    Copies isa := ⟨arithmetic.mov, arithmetic.movImm⟩

/-- Adds up numbers to a word in memory and stores the sum behind it. -/
def accumulate : Llvm.Function where
  name := "accumulate"
  params := [⟨0, .ptr⟩, ⟨1, .int 64⟩]
  returnType := .int 64
  blocks :=
    [⟨"entry", [⟨2, .int 64, .load (.ref 0 .ptr)⟩, ⟨3, .void, .br 1⟩]⟩,
      ⟨"loop", [⟨4, .int 64, .phi [(.ref 2 (.int 64), 0), (.ref 6 (.int 64), 1)]⟩,
        ⟨5, .int 64, .phi [(.constInt 64 0, 0), (.ref 7 (.int 64), 1)]⟩,
        ⟨6, .int 64, .binary .add (.ref 4 (.int 64)) (.ref 5 (.int 64))⟩,
        ⟨7, .int 64, .binary .add (.ref 5 (.int 64)) (.constInt 64 1)⟩,
        ⟨8, .int 1, .icmp .ult (.ref 7 (.int 64)) (.ref 1 (.int 64))⟩,
        ⟨9, .void, .condBr (.ref 8 (.int 1)) 1 2⟩]⟩,
      ⟨"exit", [⟨10, .int 64, .phi [(.ref 6 (.int 64), 1)]⟩,
        ⟨11, .ptr, .getElementPtr (.int 64) (.ref 0 .ptr) [.constInt 64 1]⟩,
        ⟨12, .void, .store (.ref 10 (.int 64)) (.ref 11 .ptr)⟩,
        ⟨13, .void, .ret (some (.ref 10 (.int 64)))⟩]⟩]

/-- The registers needed at the start of a block. -/
def accumulateLive (label : String) : List Nat :=
  if label = "entry" then [0, 1] else if label = "loop" then [0, 1, 3, 4] else [0, 9]

theorem wellFormed_accumulate : WellFormed accumulate where
  params := by decide +kernel
  refs := by decide +kernel
  pointers := by
    have checked : ∀ instruction ∈ allInstructions accumulate,
        ∀ operand ∈ instruction.operation.operands, operand.type = .ptr →
          ∀ key ∈ operand.ref?, isComparison accumulate key = false := by decide +kernel
    rintro instruction instructionMem operand operandMem key rfl
    exact checked instruction instructionMem _ operandMem rfl key rfl
  terminators := by decide +kernel
  phis := by
    have checked : ∀ instruction ∈ loweredInstructions accumulate,
        ∀ incoming ∈ phiIncoming instruction,
          ∃ value ∈ incoming, value.1.ref? ≠ some instruction.ref := by decide +kernel
    intro instruction instructionMem incoming isPhi
    exact checked instruction instructionMem incoming (by rw [phiIncoming, isPhi]; rfl)

end VliwCompiler.Isel
