import VliwCompiler.Isel.Classes
import VliwCompiler.Isel.Copies
import VliwCompiler.Llvm.Check

/-!
# One register class for every virtual register

A virtual register is one predicate register or one integer register of the
machine, depending on the syllable that names it.  The code of a function agrees
on the class of every register exactly when the results of comparisons are used
as branch conditions only, and nothing else is.
-/

namespace VliwCompiler.Isel

open Asm (Opcode I64)
open Mir (Reg Value Syllable Terminator Block predicateSources)
open Llvm (ValueRef Operand Operation Instruction)

/-! ### LLVM functions -/

section

variable (function : Llvm.Function)

/-- The instructions of a function. -/
def allInstructions : List Instruction := function.blocks.flatMap (·.instructions)

/-- The instructions of the blocks that are lowered. -/
def loweredInstructions : List Instruction :=
  (blockOrder function).flatMap (instructionsOf function)

def isIcmp (instruction : Instruction) : Bool :=
  match instruction.operation with
  | .icmp _ _ _ => true
  | _ => false

/-- The value is the result of a comparison. -/
def isComparison (ref : ValueRef) : Bool :=
  (allInstructions function).any fun instruction => instruction.ref = ref && isIcmp instruction

/-- What the LLVM verifier guarantees: values have different addresses, results
of comparisons are no pointers, terminators end blocks, and a phi of a reachable
block has an incoming value other than itself. -/
structure WellFormed : Prop where
  params : ∀ param ∈ function.params, ∀ instruction ∈ allInstructions function,
    instruction.ref ≠ param.ref
  refs : ∀ first ∈ allInstructions function, ∀ second ∈ allInstructions function,
    first.ref = second.ref → first = second
  pointers : ∀ instruction ∈ allInstructions function,
    ∀ operand ∈ instruction.operation.operands, ∀ key, operand = .ref key .ptr →
      isComparison function key = false
  terminators : ∀ block ∈ function.blocks, ∀ instruction ∈ block.instructions.dropLast,
    instruction.operation.isTerminator = false
  phis : ∀ instruction ∈ loweredInstructions function, ∀ incoming,
    instruction.operation = .phi incoming →
      ∃ value ∈ incoming, value.1.ref? ≠ some instruction.ref

/-- The results of comparisons are used as branch conditions only, and nothing
else is a branch condition. -/
def ComparisonsBranchOnly : Prop :=
  ∀ instruction ∈ loweredInstructions function,
    ∀ use ∈ codeUses instruction.operation ++ phiUses instruction.operation,
      use.asPred = isComparison function use.ref

instance : Decidable (ComparisonsBranchOnly function) :=
  inferInstanceAs (Decidable (∀ instruction ∈ loweredInstructions function,
    ∀ use ∈ codeUses instruction.operation ++ phiUses instruction.operation,
      use.asPred = isComparison function use.ref))

end

/-! ### MIR functions -/

/-- Every register read as a predicate is written by predicate-writing opcodes
only, and every register read as an integer by integer-writing opcodes only.
Parameters arrive in integer registers. -/
structure OneClass (params : Nat) (lowered : Mir.Function) : Prop where
  cond : ∀ block ∈ lowered.blocks, ∀ v, block.terminator.condVreg = some v → params ≤ v ∧
    ∀ other ∈ lowered.blocks, ∀ writer ∈ other.syllables, writer.dstVreg = some v →
      writer.opcode.writesPred = true
  pred : ∀ block ∈ lowered.blocks, ∀ reader ∈ block.syllables,
    predicateSources reader.opcode = true → ∀ v ∈ reader.sourceVregs, params ≤ v ∧
      ∀ other ∈ lowered.blocks, ∀ writer ∈ other.syllables, writer.dstVreg = some v →
        writer.opcode.writesPred = true
  gpr : ∀ block ∈ lowered.blocks, ∀ reader ∈ block.syllables,
    predicateSources reader.opcode = false → ∀ v ∈ reader.sourceVregs,
      ∀ other ∈ lowered.blocks, ∀ writer ∈ other.syllables, writer.dstVreg = some v →
        writer.opcode.writesGpr = true

/-! ### Selected blocks -/

section

variable {params : Nat} {isCmp : ValueRef → Bool} {uses : List Use} {classes : List Bool}
  {selection after : Selection} {module : Llvm.Module} {memorySize : Nat}
  {function : Llvm.Function} {label : String}

theorem mem_blocks_of_bbOf {block : Llvm.Block} (isBlock : bbOf function label = some block) :
    block ∈ function.blocks := by
  obtain ⟨pair, isPair, rfl⟩ := Option.map_eq_some_iff.mp isBlock
  exact (List.of_mem_zip (List.mem_reverse.mp (List.mem_of_find?_eq_some isPair))).2

theorem instructionTyped_of_wellFormed (wellFormed : WellFormed function)
    {instruction : Instruction} (instructionMem : instruction ∈ allInstructions function) :
    InstructionTyped (isComparison function) instruction where
  result := by
    constructor
    · intro isPred
      obtain ⟨other, otherMem, both⟩ := List.any_eq_true.mp isPred
      rw [Bool.and_eq_true, decide_eq_true_eq] at both
      obtain rfl := wellFormed.refs other otherMem instruction instructionMem both.1
      have isIcmp := both.2
      unfold Isel.isIcmp at isIcmp
      split at isIcmp
      · rename_i predicate lhs rhs isOperation
        exact ⟨predicate, lhs, rhs, isOperation⟩
      · cases isIcmp
    · rintro ⟨predicate, lhs, rhs, isOperation⟩
      refine List.any_eq_true.mpr ⟨instruction, instructionMem, ?_⟩
      simp [isIcmp, isOperation]
  pointers := wellFormed.pointers instruction instructionMem

/-- Only a conditional branch leaves a branch condition. -/
theorem condVreg_of_lowerInstruction {labelAt : Llvm.BlockRef → Outcome String}
    {instruction : Instruction} (ordinary : instruction.operation.isTerminator = false)
    (open? : selection.terminator.condVreg = none)
    (lowered : lowerInstruction module memorySize labelAt label selection instruction =
      .ok after) : after.terminator.condVreg = none := by
  have effect := control_of_lowerInstruction lowered
  cases isOperation : instruction.operation with
  | phi incoming =>
      rw [isOperation] at effect
      obtain ⟨raw, -, same⟩ := effect
      injection same with _ _ _ _ sameTerminator
      rw [sameTerminator]
      exact open?
  | ret | condBr | br | invoke =>
      rw [isOperation] at ordinary
      cases ordinary
  | call callee arguments =>
      rw [isOperation] at effect
      obtain ⟨block, -, same⟩ := effect
      injection same with _ _ _ _ sameTerminator
      rw [sameTerminator]
      rfl
  | _ =>
      rw [isOperation] at effect
      injection effect with _ _ _ _ sameTerminator
      rw [sameTerminator]
      exact open?

theorem Classed.instructions {instructions : List Instruction}
    (classed : Classed params isCmp uses classes selection)
    (open? : selection.terminator.condVreg = none)
    (typed : ∀ instruction ∈ instructions, InstructionTyped isCmp instruction)
    (ordinary : ∀ instruction ∈ instructions.dropLast,
      instruction.operation.isTerminator = false)
    {labelAt : Llvm.BlockRef → Outcome String}
    (lowered : instructions.foldlM (lowerInstruction module memorySize labelAt label) selection =
      .ok after) :
    ClassedBy params isCmp (uses ++ instructions.flatMap (codeUses ·.operation)) classes after := by
  induction instructions generalizing selection uses classes with
  | nil =>
      cases lowered
      exact ⟨[], by simpa using classed⟩
  | cons instruction instructions ih =>
      rw [List.foldlM_cons] at lowered
      obtain ⟨middle, first, rest⟩ := bind_eq_ok.mp lowered
      obtain ⟨added, classedMiddle⟩ :=
        classed.instruction open? (typed instruction List.mem_cons_self) first
      cases instructions with
      | nil =>
          cases rest
          exact ⟨added, by simpa using classedMiddle⟩
      | cons next others =>
          rw [List.dropLast_cons_cons] at ordinary
          have open' := condVreg_of_lowerInstruction (ordinary instruction List.mem_cons_self) open?
            first
          obtain ⟨added', classedAfter⟩ := ih classedMiddle open'
            (fun other otherMem => typed other (List.mem_cons_of_mem _ otherMem))
            (fun other otherMem => ordinary other (List.mem_cons_of_mem _ otherMem)) rest
          refine ⟨added ++ added', ?_⟩
          rw [List.flatMap_cons, ← List.append_assoc, ← List.append_assoc]
          exact classedAfter

/-- A finished block belongs to the selected code. -/
theorem Classed.finish (classed : Classed params isCmp uses classes selection) (label : String) :
    Classed params isCmp uses classes (selection.finish.begin label) := by
  have isRet : Terminator.ret.condVreg = none := rfl
  refine classed.congr rfl rfl rfl rfl (fun syllable => ?_) fun v => ?_
  · simp [Selection.emitted, Selection.finish, Selection.begin]
  · simp [Selection.conds, Selection.finish, Selection.begin, isRet]

theorem classed_of_bindParams (wellFormed : WellFormed function)
    (bound : bindParams function.params = .ok selection) (label : String) :
    Classed function.params.length (isComparison function) []
      (List.replicate function.params.length false) (selection.begin label) := by
  obtain ⟨isNext, noGeps, isBound⟩ := bound_of_bindParams bound
  injection control_of_bindParams bound with noPhis _ noBlocks
  have isFalse : ∀ v < function.params.length,
      (List.replicate function.params.length false)[v]? = some false := by
    intro v inside
    rw [List.getElem?_replicate, if_pos inside]
  have noCode : (selection.begin label).emitted = [] := by
    simp [Selection.emitted, Selection.begin, noBlocks]
  have noConds : (selection.begin label).conds = [] := by
    have isRet : Terminator.ret.condVreg = none := rfl
    simp [Selection.conds, Selection.begin, noBlocks, isRet]
  refine ⟨?_, isFalse, ?_, ?_, ?_, ?_, ?_, ?_, ?_, ?_, ?_⟩
  · rw [List.length_replicate]
    exact isNext.symm
  · simp [noCode]
  · exact fun v inside => .inl (isNext ▸ inside)
  · intro phi phiMem
    rw [Selection.begin, noPhis] at phiMem
    cases phiMem
  · intro ref v isRef
    obtain ⟨param, isParam, rfl⟩ := isBound ref v isRef
    have paramMem := List.mem_of_getElem? isParam
    obtain ⟨inside, -⟩ := List.getElem?_eq_some_iff.mp isParam
    have isWord : isComparison function param.ref = false := by
      rw [isComparison, List.any_eq_false]
      intro instruction instructionMem
      simp [wellFormed.params param paramMem instruction instructionMem]
    rw [isWord]
    exact isFalse v inside
  · intro ref v offset isFolded
    rw [Selection.begin, noGeps] at isFolded
    cases isFolded
  · simp [noCode]
  · simp [noConds]
  · simp
  · simp

/-- The classes of the selected code. -/
theorem classed_of_selectFunction {traversal : Traversal} (wellFormed : WellFormed function)
    (selected : selectFunction module memorySize function = .ok traversal) :
    ∃ classes, ∀ label, Classed function.params.length (isComparison function)
      ((loweredInstructions function).flatMap (codeUses ·.operation)) classes
      (traversal.selection.begin label) := by
  rw [loweredInstructions, ← (laidOut_of_selectFunction selected).2]
  refine selectFunction_induct (motive := fun visited selection =>
    ∃ classes, ∀ label, Classed function.params.length (isComparison function)
      ((visited.flatMap (instructionsOf function)).flatMap (codeUses ·.operation)) classes
      (selection.begin label)) ?_ ?_ ?_ selected
  · exact fun selection bound => ⟨_, classed_of_bindParams wellFormed bound⟩
  · rintro visited label block selection after ⟨classes, classed⟩ - isBlock lowered
    obtain ⟨final, folded, lowered⟩ := bind_eq_ok.mp lowered
    cases lowered
    have blockMem := mem_blocks_of_bbOf isBlock
    have isInstructions : instructionsOf function label = block.instructions := by
      simp [instructionsOf, isBlock]
    obtain ⟨added, classedFinal⟩ := (classed label).instructions rfl
      (fun instruction instructionMem => instructionTyped_of_wellFormed wellFormed
        (List.mem_flatMap.mpr ⟨block, blockMem, instructionMem⟩))
      (wellFormed.terminators block blockMem) folded
    refine ⟨classes ++ added, fun other => ?_⟩
    rw [List.flatMap_append, List.flatMap_singleton, isInstructions, List.flatMap_append]
    exact classedFinal.finish other
  · rintro visited selection latch target ⟨classes, classed⟩
    refine ⟨classes, fun label => (classed label).congr rfl rfl rfl rfl (fun syllable => ?_)
      fun v => ?_⟩
    · simp [Selection.emitted, Selection.begin]
    · have isJump : (Terminator.jump target).condVreg = none := rfl
      simp [Selection.conds, Selection.begin, isJump]

end

/-! ### Copies -/

theorem eq_or_mem_eraseIdx {α : Type} {items : List α} {pos : Nat} {item other : α}
    (here : items[pos]? = some item) (otherMem : other ∈ items) :
    other = item ∨ other ∈ items.eraseIdx pos := by
  obtain ⟨k, isK⟩ := List.mem_iff_getElem?.mp otherMem
  by_cases same : k = pos
  · subst same
    exact .inl (Option.some.inj (isK.symm.trans here))
  · exact .inr (List.mem_eraseIdx_iff_getElem?.mpr ⟨k, same, isK⟩)

/-- The code of copies consists of moves between their registers and new ones,
and every copy is performed. -/
structure Moves (copies : List PhiCopy) (nextVreg : Nat) (code : List Syllable) : Prop where
  sound : ∀ syllable ∈ code, ∃ dst src, syllable = syllableForCopy dst src ∧
    (nextVreg ≤ dst ∨ ∃ copy ∈ copies, copy.dst = dst) ∧
    ∀ v, src = .vreg v → nextVreg ≤ v ∨ ∃ copy ∈ copies, copy.src = .vreg v
  written : ∀ copy ∈ copies, ∃ syllable ∈ code, syllable.dstVreg = some copy.dst
  read : ∀ copy ∈ copies, ∀ v, copy.src = .vreg v →
    ∃ syllable ∈ code, predicateSources syllable.opcode = false ∧ v ∈ syllable.sourceVregs

theorem dstVreg_syllableForCopy (dst : Nat) (src : CopySrc) :
    (syllableForCopy dst src).dstVreg = some dst := by
  cases src <;> rfl

theorem words_syllableForCopy (dst : Nat) (src : CopySrc) :
    predicateSources (syllableForCopy dst src).opcode = false ∧
      (syllableForCopy dst src).opcode.writesPred = false ∧
      (syllableForCopy dst src).opcode.writesGpr = true := by
  cases src <;> exact ⟨rfl, rfl, rfl⟩

theorem mem_sourceVregs_syllableForCopy {dst v : Nat} {src : CopySrc} :
    v ∈ (syllableForCopy dst src).sourceVregs ↔ src = .vreg v := by
  rw [Syllable.mem_sourceVregs]
  cases src with
  | const value => simp [syllableForCopy]
  | vreg w =>
      simp only [syllableForCopy, List.mem_singleton, Value.reg.injEq, Reg.vreg.injEq,
        CopySrc.vreg.injEq]
      exact eq_comm

theorem moves_of_serialize {limit : Option Nat} {fuel nextVreg next : Nat}
    {remaining : List PhiCopy} {code : List Syllable}
    (ordered : serialize limit fuel remaining nextVreg = .ok (code, next)) :
    Moves remaining nextVreg code := by
  induction fuel generalizing remaining nextVreg next code with
  | zero => cases ordered
  | succ fuel ih =>
      unfold serialize at ordered
      split at ordered
      · rename_i isEmpty
        cases ordered
        subst isEmpty
        exact ⟨by simp, by simp, by simp⟩
      · split at ordered
        · rename_i pos _
          obtain ⟨copy, isCopy, ordered⟩ := bind_eq_ok.mp ordered
          rw [expect_eq_ok] at isCopy
          obtain ⟨⟨rest, last⟩, isRest, ordered⟩ := bind_eq_ok.mp ordered
          cases ordered
          have moves := ih isRest
          have copyMem := List.mem_of_getElem? isCopy
          refine ⟨?_, ?_, ?_⟩
          · intro syllable syllableMem
            rcases List.mem_cons.mp syllableMem with rfl | inRest
            · exact ⟨copy.dst, copy.src, rfl, .inr ⟨copy, copyMem, rfl⟩,
                fun v isSrc => .inr ⟨copy, copyMem, isSrc⟩⟩
            · obtain ⟨dst, src, isMove, isDst, isSrc⟩ := moves.sound syllable inRest
              refine ⟨dst, src, isMove, isDst.imp_right ?_, fun v isV => (isSrc v isV).imp_right ?_⟩
              · rintro ⟨other, otherMem, same⟩
                exact ⟨other, List.mem_of_mem_eraseIdx otherMem, same⟩
              · rintro ⟨other, otherMem, same⟩
                exact ⟨other, List.mem_of_mem_eraseIdx otherMem, same⟩
          · intro other otherMem
            rcases eq_or_mem_eraseIdx isCopy otherMem with rfl | inRest
            · exact ⟨_, List.mem_cons_self, dstVreg_syllableForCopy _ _⟩
            · obtain ⟨syllable, syllableMem, isDst⟩ := moves.written other inRest
              exact ⟨syllable, List.mem_cons_of_mem _ syllableMem, isDst⟩
          · intro other otherMem v isSrc
            rcases eq_or_mem_eraseIdx isCopy otherMem with rfl | inRest
            · exact ⟨_, List.mem_cons_self, (words_syllableForCopy _ _).1,
                mem_sourceVregs_syllableForCopy.mpr isSrc⟩
            · obtain ⟨syllable, syllableMem, isRead⟩ := moves.read other inRest v isSrc
              exact ⟨syllable, List.mem_cons_of_mem _ syllableMem, isRead⟩
        · obtain ⟨src, isSrc, ordered⟩ := bind_eq_ok.mp ordered
          rw [expect_eq_ok] at isSrc
          obtain ⟨fresh, isFresh, ordered⟩ := bind_eq_ok.mp ordered
          obtain ⟨⟨rest, last⟩, isRest, ordered⟩ := bind_eq_ok.mp ordered
          cases ordered
          cases succVreg_eq_ok isFresh
          have moves := ih isRest
          obtain ⟨reader, readerMem, isReader⟩ := List.exists_of_findSome?_eq_some isSrc
          rw [reg?_eq_some] at isReader
          refine ⟨?_, ?_, ?_⟩
          · intro syllable syllableMem
            rcases List.mem_cons.mp syllableMem with rfl | inRest
            · refine ⟨nextVreg, .vreg src, rfl, .inl (Nat.le_refl _), ?_⟩
              rintro v ⟨⟩
              exact .inr ⟨reader, readerMem, isReader⟩
            · obtain ⟨dst, other, isMove, isDst, isOther⟩ := moves.sound syllable inRest
              refine ⟨dst, other, isMove, ?_, ?_⟩
              · rcases isDst with isNew | ⟨copy, copyMem, same⟩
                · exact .inl (Nat.le_of_succ_le isNew)
                · obtain ⟨original, originalMem, rfl⟩ := List.mem_map.mp copyMem
                  rw [redirect_dst] at same
                  exact .inr ⟨original, originalMem, same⟩
              · intro v isV
                rcases isOther v isV with isNew | ⟨copy, copyMem, same⟩
                · exact .inl (Nat.le_of_succ_le isNew)
                · obtain ⟨original, originalMem, rfl⟩ := List.mem_map.mp copyMem
                  rw [redirect_src] at same
                  split at same
                  · cases same
                    exact .inl (Nat.le_refl _)
                  · exact .inr ⟨original, originalMem, same⟩
          · intro copy copyMem
            obtain ⟨syllable, syllableMem, isDst⟩ := moves.written _ (List.mem_map_of_mem copyMem)
            rw [redirect_dst] at isDst
            exact ⟨syllable, List.mem_cons_of_mem _ syllableMem, isDst⟩
          · intro copy copyMem v isV
            by_cases isSaved : copy.src = .vreg src
            · obtain rfl : src = v := by simpa using isSaved.symm.trans isV
              exact ⟨_, List.mem_cons_self, rfl, mem_sourceVregs_syllableForCopy.mpr rfl⟩
            · obtain ⟨syllable, syllableMem, isRead⟩ := moves.read _ (List.mem_map_of_mem copyMem) v
                (by rw [redirect_src, if_neg isSaved, isV])
              exact ⟨syllable, List.mem_cons_of_mem _ syllableMem, isRead⟩

/-! ### Lowered functions -/

/-- The syllables of a lowered function. -/
def codeOf (blocks : List Block) : List Syllable := blocks.flatMap (·.syllables)

/-- The branch conditions of a lowered function. -/
def condsOf (blocks : List Block) : List Nat := blocks.filterMap (·.terminator.condVreg)

theorem mem_codeOf {blocks : List Block} {syllable : Syllable} :
    syllable ∈ codeOf blocks ↔ ∃ block ∈ blocks, syllable ∈ block.syllables :=
  List.mem_flatMap

theorem mem_condsOf {blocks : List Block} {v : Nat} :
    v ∈ condsOf blocks ↔ ∃ block ∈ blocks, block.terminator.condVreg = some v :=
  List.mem_filterMap

theorem emitted_begin (selection : Selection) (label : String) :
    (selection.begin label).emitted = codeOf selection.mirBlocks := by
  simp [Selection.emitted, Selection.begin, codeOf]

theorem conds_begin (selection : Selection) (label : String) :
    (selection.begin label).conds = condsOf selection.mirBlocks := by
  have isRet : Terminator.ret.condVreg = none := rfl
  simp [Selection.conds, Selection.begin, condsOf, isRet]

section

variable {traversal : Traversal} {table : CopyTable} {blocks : List Block}

theorem Copied.condsOf_eq (copied : Copied traversal table blocks) :
    condsOf blocks = condsOf traversal.selection.mirBlocks := by
  have terminators : blocks.map (·.terminator) =
      traversal.selection.mirBlocks.map (·.terminator) := by
    refine List.ext_getElem? fun idx => ?_
    rw [List.getElem?_map, List.getElem?_map]
    cases isMir : traversal.selection.mirBlocks[idx]? with
    | none =>
        rw [List.getElem?_eq_none_iff, ← copied.length, ← List.getElem?_eq_none_iff] at isMir
        rw [isMir]
    | some mir =>
        obtain ⟨code, isBlock, -⟩ := copied.block idx mir isMir
        rw [isBlock]
        rfl
  have viaTerminators : ∀ others : List Block,
      condsOf others = (others.map (·.terminator)).filterMap Terminator.condVreg := by
    intro others
    rw [List.filterMap_map]
    rfl
  rw [viaTerminators, viaTerminators, terminators]

/-- The code of a lowered function is the selected code and code of copies. -/
theorem Copied.mem_codeOf (copied : Copied traversal table blocks) {syllable : Syllable}
    (syllableMem : syllable ∈ codeOf blocks) :
    syllable ∈ codeOf traversal.selection.mirBlocks ∨
      ∃ label copies nextVreg next code, table.lookup label = some copies ∧
        traversal.selection.nextVreg ≤ nextVreg ∧
        serializeParallelCopies none copies nextVreg = .ok (code, next) ∧ syllable ∈ code := by
  obtain ⟨block, blockMem, syllableMem⟩ := Isel.mem_codeOf.mp syllableMem
  obtain ⟨idx, isBlock⟩ := List.mem_iff_getElem?.mp blockMem
  obtain ⟨inside, -⟩ := List.getElem?_eq_some_iff.mp isBlock
  rw [copied.length] at inside
  obtain ⟨code, isAfter, isCode⟩ :=
    copied.block idx _ (List.getElem?_eq_getElem inside)
  obtain rfl := Option.some.inj (isAfter.symm.trans isBlock)
  rcases List.mem_append.mp syllableMem with isOld | isNew
  · exact .inl (Isel.mem_codeOf.mpr ⟨_, List.getElem_mem inside, isOld⟩)
  · rcases isCode with rfl | ⟨label, copies, nextVreg, next, found, fresh, ordered⟩
    · cases isNew
    · exact .inr ⟨label, copies, nextVreg, next, code, found, fresh, ordered, isNew⟩

theorem Copied.selected_mem_codeOf (copied : Copied traversal table blocks) {syllable : Syllable}
    (syllableMem : syllable ∈ codeOf traversal.selection.mirBlocks) :
    syllable ∈ codeOf blocks := by
  obtain ⟨mir, mirMem, syllableMem⟩ := Isel.mem_codeOf.mp syllableMem
  obtain ⟨idx, isMir⟩ := List.mem_iff_getElem?.mp mirMem
  obtain ⟨code, isBlock, -⟩ := copied.block idx mir isMir
  exact Isel.mem_codeOf.mpr
    ⟨_, List.mem_of_getElem? isBlock, List.mem_append_left _ syllableMem⟩

theorem moves_of_serializeParallelCopies {copies : List PhiCopy} {nextVreg next : Nat}
    {code : List Syllable} (ordered : serializeParallelCopies none copies nextVreg = .ok (code, next)) :
    Moves (copies.filter fun copy => copy.src ≠ .vreg copy.dst) nextVreg code :=
  moves_of_serialize ordered

/-- A copy of an edge other than to itself is performed. -/
theorem Copied.performed (copied : Copied traversal table blocks)
    (computed : copiesPerBlock traversal = .ok table) {phi : PendingPhi}
    (phiMem : phi ∈ traversal.selection.pendingPhis) {value : String × RawPhiVal}
    (valueMem : value ∈ phi.incoming) {src : CopySrc}
    (isSrc : copySrc traversal.selection value.2 = .ok src) (proper : src ≠ .vreg phi.dst) :
    (∃ syllable ∈ codeOf blocks, syllable.dstVreg = some phi.dst) ∧
      ∀ v, src = .vreg v → ∃ syllable ∈ codeOf blocks,
        predicateSources syllable.opcode = false ∧ v ∈ syllable.sourceVregs := by
  have copyMem : ⟨phi.dst, src⟩ ∈
      table.copies (actualPred traversal.edgeRemap value.1 phi.phiBlockLabel) :=
    (mem_copiesPerBlock computed _ _).mpr ⟨phi, phiMem, value, valueMem, rfl, rfl, isSrc⟩
  obtain ⟨idx, mir, code, nextVreg, next, -, -, isBlock, -, ordered⟩ :=
    copied.entry _ _ (lookup_of_mem_copies copyMem)
  have moves := moves_of_serializeParallelCopies ordered
  have inFilter : ⟨phi.dst, src⟩ ∈
      (table.copies (actualPred traversal.edgeRemap value.1 phi.phiBlockLabel)).filter
        fun copy => copy.src ≠ .vreg copy.dst :=
    List.mem_filter.mpr ⟨copyMem, decide_eq_true proper⟩
  have codeMem : ∀ syllable ∈ code, syllable ∈ codeOf blocks := by
    intro syllable syllableMem
    exact Isel.mem_codeOf.mpr
      ⟨_, List.mem_of_getElem? isBlock, List.mem_append_right _ syllableMem⟩
  refine ⟨?_, ?_⟩
  · obtain ⟨syllable, syllableMem, isDst⟩ := moves.written _ inFilter
    exact ⟨syllable, codeMem syllable syllableMem, isDst⟩
  · intro v isV
    obtain ⟨syllable, syllableMem, isRead⟩ := moves.read _ inFilter v isV
    exact ⟨syllable, codeMem syllable syllableMem, isRead⟩

end

theorem copySrc_eq_vreg {selection : Selection} {value : RawPhiVal} {v : Nat}
    (isSrc : copySrc selection value = .ok (.vreg v)) :
    ∃ key, value = .llvmRef (some key) ∧ selection.vregMap.lookup key = some v := by
  cases value with
  | const constant => cases isSrc
  | llvmRef key =>
      obtain ⟨vreg, isVreg, isSrc⟩ := bind_eq_ok.mp isSrc
      cases isSrc
      rw [expect_eq_ok] at isVreg
      obtain ⟨key, rfl, isVreg⟩ := Option.bind_eq_some_iff.mp isVreg
      exact ⟨key, rfl, isVreg⟩

theorem rawPhiVal_eq_llvmRef {operand : Operand} {key : ValueRef} :
    rawPhiVal operand = .llvmRef (some key) ↔ operand.ref? = some key := by
  cases operand <;> simp [rawPhiVal, Operand.ref?]

theorem mem_phiUses {operation : Operation} {use : Use} :
    use ∈ phiUses operation ↔ ∃ incoming, operation = .phi incoming ∧
      ∃ value ∈ incoming, value.1.ref? = some use.ref ∧ use.asPred = false := by
  cases operation with
  | phi incoming =>
      simp only [phiUses, refUse, List.mem_flatMap, List.mem_map, Option.mem_toList]
      constructor
      · rintro ⟨value, valueMem, key, isKey, rfl⟩
        exact ⟨incoming, rfl, value, valueMem, isKey, rfl⟩
      · rintro ⟨_, ⟨⟩, value, valueMem, isKey, isWord⟩
        exact ⟨value, valueMem, use.ref, isKey, by rw [← isWord]⟩
  | _ => simp [phiUses]

theorem mem_rawIncoming {labelAt : Llvm.BlockRef → Outcome String}
    {incoming : List (Operand × Llvm.BlockRef)} {raw : List (String × RawPhiVal)}
    (isRaw : rawIncoming labelAt incoming = .ok raw) :
    (∀ value ∈ incoming, ∃ image ∈ raw, image.2 = rawPhiVal value.1) ∧
      ∀ image ∈ raw, ∃ value ∈ incoming, image.2 = rawPhiVal value.1 := by
  have related := mapM_eq_ok_iff.mp isRaw
  refine ⟨?_, ?_⟩
  · intro value valueMem
    obtain ⟨image, imageMem, isImage⟩ := exists_image_of_forall₂ related valueMem
    obtain ⟨label, -, isImage⟩ := bind_eq_ok.mp isImage
    cases isImage
    exact ⟨_, imageMem, rfl⟩
  · intro image imageMem
    obtain ⟨value, valueMem, isImage⟩ := exists_mem_of_forall₂ related imageMem
    obtain ⟨label, -, isImage⟩ := bind_eq_ok.mp isImage
    cases isImage
    exact ⟨value, valueMem, rfl⟩

/-- The registers of a lowered function and how its code uses them.  `isPred`
says which registers are predicates. -/
structure Agrees (params : Nat) (isCmp : ValueRef → Bool) (uses : List Use) (isPred : Nat → Bool)
    (blocks : List Block) : Prop where
  paramClass : ∀ v < params, isPred v = false
  written : ∀ writer ∈ codeOf blocks, ∀ v, writer.dstVreg = some v →
    writer.opcode.writesPred = isPred v ∧ writer.opcode.writesGpr = !isPred v
  sound : ∀ reader ∈ codeOf blocks, ∀ v ∈ reader.sourceVregs,
    isPred v = predicateSources reader.opcode ∨
      ∃ use ∈ uses, use.asPred = predicateSources reader.opcode ∧ isPred v = isCmp use.ref
  soundCond : ∀ v ∈ condsOf blocks, ∃ use ∈ uses, use.asPred = true ∧ isPred v = isCmp use.ref
  complete : ∀ use ∈ uses, use.asPred = false → isCmp use.ref = true →
    ∃ reader ∈ codeOf blocks, predicateSources reader.opcode = false ∧
      ∃ v ∈ reader.sourceVregs, isPred v = true ∧
        ∃ writer ∈ codeOf blocks, writer.dstVreg = some v
  completeCond : ∀ use ∈ uses, use.asPred = true → isCmp use.ref = false →
    ∃ v ∈ condsOf blocks, isPred v = false ∧
      (v < params ∨ ∃ writer ∈ codeOf blocks, writer.dstVreg = some v)

/-- Every register has one class exactly when every value is used in the class
it has. -/
theorem Agrees.oneClass_iff {params : Nat} {isCmp : ValueRef → Bool} {uses : List Use}
    {isPred : Nat → Bool} {lowered : Mir.Function}
    (agrees : Agrees params isCmp uses isPred lowered.blocks) :
    OneClass params lowered ↔ ∀ use ∈ uses, use.asPred = isCmp use.ref := by
  constructor
  · intro oneClass use useMem
    cases isAsPred : use.asPred with
    | true =>
        by_contra mismatch
        obtain ⟨v, vMem, isWord, source⟩ := agrees.completeCond use useMem isAsPred
          (by simpa using Ne.symm mismatch)
        obtain ⟨block, blockMem, isCond⟩ := mem_condsOf.mp vMem
        obtain ⟨notParam, writers⟩ := oneClass.cond block blockMem v isCond
        rcases source with isParam | ⟨writer, writerMem, isDst⟩
        · omega
        · obtain ⟨other, otherMem, inOther⟩ := mem_codeOf.mp writerMem
          have writesPred := writers other otherMem writer inOther isDst
          rw [(agrees.written writer writerMem v isDst).1, isWord] at writesPred
          cases writesPred
    | false =>
        by_contra mismatch
        obtain ⟨reader, readerMem, isReader, v, vMem, isPredicate, writer, writerMem, isDst⟩ :=
          agrees.complete use useMem isAsPred (by simpa using Ne.symm mismatch)
        obtain ⟨block, blockMem, inBlock⟩ := mem_codeOf.mp readerMem
        obtain ⟨other, otherMem, inOther⟩ := mem_codeOf.mp writerMem
        have writesGpr := oneClass.gpr block blockMem reader inBlock isReader v vMem other otherMem
          writer inOther isDst
        rw [(agrees.written writer writerMem v isDst).2, isPredicate] at writesGpr
        cases writesGpr
  · intro matching
    have classOf : ∀ block ∈ lowered.blocks, ∀ reader ∈ block.syllables,
        ∀ v ∈ reader.sourceVregs, isPred v = predicateSources reader.opcode := by
      intro block blockMem reader readerMem v vMem
      rcases agrees.sound reader (mem_codeOf.mpr ⟨block, blockMem, readerMem⟩) v vMem with
        isClass | ⟨use, useMem, sameClass, isClass⟩
      · exact isClass
      · rw [isClass, ← matching use useMem, sameClass]
    have condClass : ∀ block ∈ lowered.blocks, ∀ v, block.terminator.condVreg = some v →
        isPred v = true := by
      intro block blockMem v isCond
      obtain ⟨use, useMem, isAsPred, isClass⟩ :=
        agrees.soundCond v (mem_condsOf.mpr ⟨block, blockMem, isCond⟩)
      rw [isClass, ← matching use useMem, isAsPred]
    have notParam : ∀ v, isPred v = true → params ≤ v := by
      intro v isPredicate
      by_contra isParam
      rw [agrees.paramClass v (Nat.lt_of_not_le isParam)] at isPredicate
      cases isPredicate
    have written : ∀ other ∈ lowered.blocks, ∀ writer ∈ other.syllables, ∀ v,
        writer.dstVreg = some v →
          writer.opcode.writesPred = isPred v ∧ writer.opcode.writesGpr = !isPred v :=
      fun other otherMem writer writerMem =>
        agrees.written writer (mem_codeOf.mpr ⟨other, otherMem, writerMem⟩)
    refine ⟨?_, ?_, ?_⟩
    · intro block blockMem v isCond
      have isPredicate := condClass block blockMem v isCond
      refine ⟨notParam v isPredicate, fun other otherMem writer writerMem isDst => ?_⟩
      rw [(written other otherMem writer writerMem v isDst).1, isPredicate]
    · intro block blockMem reader readerMem isReader v vMem
      have isPredicate := (classOf block blockMem reader readerMem v vMem).trans isReader
      refine ⟨notParam v isPredicate, fun other otherMem writer writerMem isDst => ?_⟩
      rw [(written other otherMem writer writerMem v isDst).1, isPredicate]
    · intro block blockMem reader readerMem isReader v vMem other otherMem writer writerMem isDst
      have isWord := (classOf block blockMem reader readerMem v vMem).trans isReader
      rw [(written other otherMem writer writerMem v isDst).2, isWord]
      rfl

/-! ### The lowered function -/

section

variable {function : Llvm.Function} {traversal : Traversal} {table : CopyTable}
  {blocks : List Block} {classes : List Bool}

/-- Whether a register is a predicate; the registers of copies are not. -/
def predClass (classes : List Bool) (v : Nat) : Bool := classes[v]?.getD false

theorem predClass_of_some {v : Nat} {isPred : Bool} (isClass : classes[v]? = some isPred) :
    predClass classes v = isPred := by
  rw [predClass, isClass, Option.getD_some]

/-- The phi that a copy belongs to. -/
theorem exists_phi_of_lookup (computed : copiesPerBlock traversal = .ok table) {label : String}
    {copies : List PhiCopy} (found : table.lookup label = some copies) {copy : PhiCopy}
    (copyMem : copy ∈ copies) :
    ∃ phi ∈ traversal.selection.pendingPhis, copy.dst = phi.dst ∧
      ∃ value ∈ phi.incoming, copySrc traversal.selection value.2 = .ok copy.src := by
  have isCopies : table.copies label = copies := by
    rw [CopyTable.copies, found, Option.getD_some]
  obtain ⟨phi, phiMem, value, valueMem, -, isDst, isSrc⟩ :=
    (mem_copiesPerBlock computed label copy).mp (isCopies ▸ copyMem)
  exact ⟨phi, phiMem, isDst, value, valueMem, isSrc⟩

/-- The value that a copy reads is used by a phi. -/
theorem Owned.exists_phiUse {labelAt : Llvm.BlockRef → Outcome String}
    {instructions : List Instruction} {owner : Nat → Option ValueRef} {selection : Selection}
    (owned : Owned labelAt instructions owner selection) {phi : PendingPhi}
    (phiMem : phi ∈ selection.pendingPhis) {value : String × RawPhiVal}
    (valueMem : value ∈ phi.incoming) {key : ValueRef} (isKey : value.2 = .llvmRef (some key)) :
    ∃ instruction ∈ instructions, ⟨false, key⟩ ∈ phiUses instruction.operation := by
  obtain ⟨-, instruction, instructionMem, -, incoming, isPhi, isRaw⟩ := owned.phis phi phiMem
  obtain ⟨operand, operandMem, isOperand⟩ := (mem_rawIncoming isRaw).2 value valueMem
  refine ⟨instruction, instructionMem, mem_phiUses.mpr ⟨incoming, isPhi, operand, operandMem, ?_, rfl⟩⟩
  exact rawPhiVal_eq_llvmRef.mp (isOperand.symm.trans isKey)

/-- A phi with another incoming value is written. -/
theorem Owned.exists_writer {labelAt : Llvm.BlockRef → Outcome String}
    {instructions : List Instruction} {owner : Nat → Option ValueRef}
    (owned : Owned labelAt instructions owner traversal.selection)
    (proper : ∀ instruction ∈ instructions, ∀ incoming, instruction.operation = .phi incoming →
      ∃ value ∈ incoming, value.1.ref? ≠ some instruction.ref)
    (copied : Copied traversal table blocks) (computed : copiesPerBlock traversal = .ok table)
    {phi : PendingPhi} (phiMem : phi ∈ traversal.selection.pendingPhis) :
    ∃ writer ∈ codeOf blocks, writer.dstVreg = some phi.dst := by
  obtain ⟨-, instruction, instructionMem, isOwner, incoming, isPhi, isRaw⟩ := owned.phis phi phiMem
  obtain ⟨operand, operandMem, isOther⟩ := proper instruction instructionMem incoming isPhi
  obtain ⟨value, valueMem, isValue⟩ := (mem_rawIncoming isRaw).1 operand operandMem
  obtain ⟨src, isSrc⟩ := exists_copySrc computed phi phiMem value valueMem
  refine (copied.performed computed phiMem valueMem isSrc ?_).1
  rintro rfl
  obtain ⟨key, isKey, isBound⟩ := copySrc_eq_vreg isSrc
  have isRef : operand.1.ref? = some key := rawPhiVal_eq_llvmRef.mp (isValue.symm.trans isKey)
  rw [(owned.bound key phi.dst isBound).2.symm.trans isOwner] at isRef
  exact isOther isRef

/-- The classes of the selected code extend to the copies. -/
theorem Classed.agrees {params : Nat} {isCmp : ValueRef → Bool} {uses : List Use}
    {labelAt : Llvm.BlockRef → Outcome String} {instructions : List Instruction}
    {owner : Nat → Option ValueRef} {label : String}
    (classed : Classed params isCmp uses classes (traversal.selection.begin label))
    (owned : Owned labelAt instructions owner traversal.selection)
    (proper : ∀ instruction ∈ instructions, ∀ incoming, instruction.operation = .phi incoming →
      ∃ value ∈ incoming, value.1.ref? ≠ some instruction.ref)
    (pending : ∀ instruction ∈ instructions, ∀ incoming, instruction.operation = .phi incoming →
      ∃ phi ∈ traversal.selection.pendingPhis, rawIncoming labelAt incoming = .ok phi.incoming)
    (copied : Copied traversal table blocks) (computed : copiesPerBlock traversal = .ok table) :
    Agrees params isCmp (uses ++ instructions.flatMap (phiUses ·.operation)) (predClass classes)
      blocks := by
  have isEmitted := emitted_begin traversal.selection label
  have isConds := conds_begin traversal.selection label
  have temporary : ∀ v, traversal.selection.nextVreg ≤ v → predClass classes v = false := by
    intro v isTemporary
    rw [predClass, List.getElem?_eq_none (classed.length.trans_le isTemporary)]
    rfl
  have bound : ∀ key v, traversal.selection.vregMap.lookup key = some v →
      predClass classes v = isCmp key :=
    fun key v isBound => predClass_of_some (classed.bound key v isBound)
  refine ⟨?_, ?_, ?_, ?_, ?_, ?_⟩
  · exact fun v isParam => predClass_of_some (classed.paramClass v isParam)
  · intro writer writerMem v isDst
    rcases copied.mem_codeOf writerMem with isOld | ⟨_, copies, _, _, code, found, fresh, ordered, isNew⟩
    · obtain ⟨isClass, exclusive⟩ := classed.written writer (isEmitted ▸ isOld) v isDst
      rw [predClass_of_some isClass]
      exact ⟨rfl, exclusive⟩
    · obtain ⟨dst, src, rfl, isSource, -⟩ :=
        (moves_of_serializeParallelCopies ordered).sound writer isNew
      obtain rfl : dst = v := Option.some.inj ((dstVreg_syllableForCopy dst src).symm.trans isDst)
      have isWord : predClass classes dst = false := by
        rcases isSource with isTemporary | ⟨copy, copyMem, rfl⟩
        · exact temporary dst (fresh.trans isTemporary)
        · obtain ⟨phi, phiMem, isPhi, -⟩ :=
            exists_phi_of_lookup computed found (List.mem_of_mem_filter copyMem)
          rw [isPhi]
          exact predClass_of_some (classed.phis phi phiMem)
      rw [isWord]
      exact (words_syllableForCopy dst src).2
  · intro reader readerMem v vMem
    rcases copied.mem_codeOf readerMem with isOld | ⟨_, copies, _, _, code, found, fresh, ordered, isNew⟩
    · rcases classed.sound reader (isEmitted ▸ isOld) v vMem with
        isClass | ⟨use, useMem, same, isClass⟩
      · exact .inl (predClass_of_some isClass)
      · exact .inr ⟨use, List.mem_append_left _ useMem, same, predClass_of_some isClass⟩
    · obtain ⟨dst, src, rfl, -, isSource⟩ :=
        (moves_of_serializeParallelCopies ordered).sound reader isNew
      rw [(words_syllableForCopy dst src).1]
      rcases isSource v (mem_sourceVregs_syllableForCopy.mp vMem) with
        isTemporary | ⟨copy, copyMem, isSrc⟩
      · exact .inl (temporary v (fresh.trans isTemporary))
      · obtain ⟨phi, phiMem, -, value, valueMem, isValue⟩ :=
          exists_phi_of_lookup computed found (List.mem_of_mem_filter copyMem)
        obtain ⟨key, isKey, isBound⟩ := copySrc_eq_vreg (isValue.trans (congrArg _ isSrc))
        obtain ⟨instruction, instructionMem, isUse⟩ := owned.exists_phiUse phiMem valueMem isKey
        exact .inr ⟨_, List.mem_append_right _ (List.mem_flatMap.mpr ⟨_, instructionMem, isUse⟩),
          rfl, bound key v isBound⟩
  · intro v vMem
    rw [copied.condsOf_eq, ← isConds] at vMem
    obtain ⟨use, useMem, isAsPred, isClass⟩ := classed.soundCond v vMem
    exact ⟨use, List.mem_append_left _ useMem, isAsPred, predClass_of_some isClass⟩
  · intro use useMem isWord isPredicate
    have exists_writer : ∀ v, classes[v]? = some true →
        ∃ writer ∈ codeOf blocks, writer.dstVreg = some v := by
      intro v isClass
      obtain ⟨inside, -⟩ := List.getElem?_eq_some_iff.mp isClass
      rcases classed.writer v (classed.length ▸ inside) with
        isParam | ⟨phi, phiMem, rfl⟩ | ⟨writer, writerMem, isDst⟩
      · rw [classed.paramClass v isParam] at isClass
        cases isClass
      · rw [classed.phis phi phiMem] at isClass
        cases isClass
      · exact ⟨writer, copied.selected_mem_codeOf (isEmitted ▸ writerMem), isDst⟩
    rcases List.mem_append.mp useMem with inCode | inPhi
    · obtain ⟨reader, readerMem, isReader, v, vMem, isClass⟩ := classed.complete use inCode isWord
      rw [isPredicate] at isClass
      exact ⟨reader, copied.selected_mem_codeOf (isEmitted ▸ readerMem), isReader, v, vMem,
        predClass_of_some isClass, exists_writer v isClass⟩
    · obtain ⟨instruction, instructionMem, isUse⟩ := List.mem_flatMap.mp inPhi
      obtain ⟨incoming, isPhi, operand, operandMem, isRef, -⟩ := mem_phiUses.mp isUse
      obtain ⟨phi, phiMem, isRaw⟩ := pending instruction instructionMem incoming isPhi
      obtain ⟨value, valueMem, isValue⟩ := (mem_rawIncoming isRaw).1 operand operandMem
      have isKey := isValue.trans (rawPhiVal_eq_llvmRef.mpr isRef)
      obtain ⟨src, isSrc⟩ := exists_copySrc computed phi phiMem value valueMem
      obtain ⟨v, isBound, rfl⟩ : ∃ v, traversal.selection.vregMap.lookup use.ref = some v ∧
          src = .vreg v := by
        rw [isKey] at isSrc
        obtain ⟨v, isBound, isSrc⟩ := bind_eq_ok.mp isSrc
        rw [expect_eq_ok] at isBound
        cases isSrc
        exact ⟨v, isBound, rfl⟩
      have isClass : classes[v]? = some true := isPredicate ▸ classed.bound use.ref v isBound
      have proper : CopySrc.vreg v ≠ .vreg phi.dst := by
        rintro ⟨⟩
        rw [classed.phis phi phiMem] at isClass
        cases isClass
      obtain ⟨reader, readerMem, isReader, vMem⟩ :=
        (copied.performed computed phiMem valueMem isSrc proper).2 v rfl
      exact ⟨reader, readerMem, isReader, v, vMem, predClass_of_some isClass, exists_writer v isClass⟩
  · intro use useMem isAsPred isWord
    rcases List.mem_append.mp useMem with inCode | inPhi
    · obtain ⟨v, vMem, isClass⟩ := classed.completeCond use inCode isAsPred
      rw [isWord] at isClass
      refine ⟨v, by rw [copied.condsOf_eq, ← isConds]; exact vMem, predClass_of_some isClass, ?_⟩
      obtain ⟨inside, -⟩ := List.getElem?_eq_some_iff.mp isClass
      rcases classed.writer v (classed.length ▸ inside) with
        isParam | ⟨phi, phiMem, rfl⟩ | ⟨writer, writerMem, isDst⟩
      · exact .inl isParam
      · exact .inr (owned.exists_writer proper copied computed phiMem)
      · exact .inr ⟨writer, copied.selected_mem_codeOf (isEmitted ▸ writerMem), isDst⟩
    · obtain ⟨instruction, -, isUse⟩ := List.mem_flatMap.mp inPhi
      obtain ⟨-, -, -, -, -, isFalse⟩ := mem_phiUses.mp isUse
      rw [isFalse] at isAsPred
      cases isAsPred

/-- Every virtual register of a lowered function has one class exactly when the
results of comparisons are used as branch conditions only and nothing else
is. -/
theorem oneClass_iff_of_lowerFunction {order : CopyOrder} {module : Llvm.Module}
    {memorySize : Nat} {lowered : Mir.Function} (wellFormed : WellFormed function)
    (isLowered : lowerFunction order module memorySize function = .ok lowered) :
    OneClass function.params.length lowered ↔ ComparisonsBranchOnly function := by
  obtain ⟨traversal, table, isSelected, computed, copied⟩ := lowerFunction_eq_ok isLowered
  obtain ⟨classes, classed⟩ := classed_of_selectFunction wellFormed isSelected
  obtain ⟨owner, owned⟩ := owned_of_selectFunction isSelected
  obtain ⟨laidOut, isVisited⟩ := laidOut_of_selectFunction isSelected
  have pending : ∀ instruction ∈ loweredInstructions function, ∀ incoming,
      instruction.operation = .phi incoming →
        ∃ phi ∈ traversal.selection.pendingPhis,
          rawIncoming (labelOf function) incoming = .ok phi.incoming := by
    intro instruction instructionMem incoming isPhi
    obtain ⟨label, labelMem, inBlock⟩ := List.mem_flatMap.mp instructionMem
    have isIncoming : incoming ∈ (instructionsOf function label).filterMap phiIncoming :=
      List.mem_filterMap.mpr ⟨instruction, inBlock, by rw [phiIncoming, isPhi]⟩
    obtain ⟨phi, phiMem, -, isRaw⟩ := laidOut.phis label (isVisited ▸ labelMem) incoming isIncoming
    exact ⟨phi, phiMem, isRaw⟩
  have agrees := (classed "").agrees owned wellFormed.phis pending copied computed
  rw [agrees.oneClass_iff, ComparisonsBranchOnly]
  constructor
  · intro matching instruction instructionMem use useMem
    refine matching use ?_
    rcases List.mem_append.mp useMem with inCode | inPhi
    · exact List.mem_append_left _ (List.mem_flatMap.mpr ⟨instruction, instructionMem, inCode⟩)
    · exact List.mem_append_right _ (List.mem_flatMap.mpr ⟨instruction, instructionMem, inPhi⟩)
  · intro matching use useMem
    rcases List.mem_append.mp useMem with inCode | inPhi
    · obtain ⟨instruction, instructionMem, inCode⟩ := List.mem_flatMap.mp inCode
      exact matching instruction instructionMem use (List.mem_append_left _ inCode)
    · obtain ⟨instruction, instructionMem, inPhi⟩ := List.mem_flatMap.mp inPhi
      exact matching instruction instructionMem use (List.mem_append_right _ inPhi)

end

/-! ### The lowered module -/

/-- The functions with a body. -/
def definitions (module : Llvm.Module) : List Llvm.Function := module.filter (·.blocks ≠ [])

/-- The functions of a lowered module are the lowered functions. -/
theorem lowered_of_lowerAllFunctions {orders : Nat → CopyOrder} {module : Llvm.Module}
    {memorySize : Nat} {lowered : List Mir.Function}
    (isLowered : lowerAllFunctions orders module memorySize = .ok lowered) :
    List.Forall₂ (fun function mir => ∃ order,
      lowerFunction order module memorySize function = .ok mir) (definitions module) lowered := by
  have numbered := mapM_eq_ok_iff.mp isLowered
  have forgotten : (definitions module).zipIdx.map (·.1) = definitions module :=
    List.zipIdx_map_fst 0 (definitions module)
  rw [← forgotten, List.forall₂_map_left_iff]
  exact numbered.imp fun _ _ isMir => ⟨_, isMir⟩

/-- Every virtual register of every lowered function has one class exactly when
every function uses comparisons as branch conditions only and branches on
nothing else. -/
theorem oneClass_iff_comparisonsBranchOnly {orders : Nat → CopyOrder} {module : Llvm.Module}
    {memorySize : Nat} {lowered : List Mir.Function}
    (wellFormed : ∀ function ∈ definitions module, WellFormed function)
    (isLowered : lowerAllFunctions orders module memorySize = .ok lowered) :
    List.Forall₂ (fun function mir => OneClass function.params.length mir) (definitions module)
        lowered ↔
      ∀ function ∈ definitions module, ComparisonsBranchOnly function := by
  have related := lowered_of_lowerAllFunctions isLowered
  clear isLowered
  generalize definitions module = functions at wellFormed related
  induction related with
  | nil => simp
  | @cons function mir functions others isMir _ ih =>
      obtain ⟨order, isMir⟩ := isMir
      have first := oneClass_iff_of_lowerFunction (wellFormed function List.mem_cons_self) isMir
      have rest := ih fun other otherMem => wellFormed other (List.mem_cons_of_mem _ otherMem)
      rw [List.forall₂_cons, List.forall_mem_cons]
      exact and_congr first rest

/-- A countdown: the comparison of the counter is the branch condition. -/
def countdown : Llvm.Function where
  name := "countdown"
  params := [⟨0, .int 64⟩]
  returnType := .int 64
  blocks :=
    [⟨"entry", [⟨1, .void, .br 1⟩]⟩,
      ⟨"loop", [⟨2, .int 64, .phi [(.ref 0 (.int 64), 0), (.ref 3 (.int 64), 1)]⟩,
        ⟨3, .int 64, .binary .sub (.ref 2 (.int 64)) (.constInt 64 1)⟩,
        ⟨4, .int 1, .icmp .sgt (.ref 3 (.int 64)) (.constInt 64 0)⟩,
        ⟨5, .void, .condBr (.ref 4 (.int 1)) 1 2⟩]⟩,
      ⟨"exit", [⟨6, .void, .ret (some (.ref 3 (.int 64)))⟩]⟩]

/-- A branch on the conjunction of two comparisons. -/
def bothPositive : Llvm.Function where
  name := "bothPositive"
  params := [⟨0, .int 64⟩, ⟨1, .int 64⟩]
  returnType := .int 64
  blocks :=
    [⟨"entry", [⟨2, .int 1, .icmp .sgt (.ref 0 (.int 64)) (.constInt 64 0)⟩,
        ⟨3, .int 1, .icmp .sgt (.ref 1 (.int 64)) (.constInt 64 0)⟩,
        ⟨4, .int 1, .binary .and (.ref 2 (.int 1)) (.ref 3 (.int 1))⟩,
        ⟨5, .void, .condBr (.ref 4 (.int 1)) 1 2⟩]⟩,
      ⟨"yes", [⟨6, .void, .ret (some (.constInt 64 1))⟩]⟩,
      ⟨"no", [⟨7, .void, .ret (some (.constInt 64 0))⟩]⟩]

/-- A check of well-formedness for functions without pointers. -/
theorem wellFormed_of_pointerFree {function : Llvm.Function}
    (params : ∀ param ∈ function.params, ∀ instruction ∈ allInstructions function,
      instruction.ref ≠ param.ref)
    (refs : ∀ first ∈ allInstructions function, ∀ second ∈ allInstructions function,
      first.ref = second.ref → first = second)
    (pointerFree : ∀ instruction ∈ allInstructions function,
      ∀ operand ∈ instruction.operation.operands, operand.type ≠ .ptr)
    (terminators : ∀ block ∈ function.blocks, ∀ instruction ∈ block.instructions.dropLast,
      instruction.operation.isTerminator = false)
    (phis : ∀ instruction ∈ loweredInstructions function, ∀ incoming ∈ phiIncoming instruction,
      ∃ value ∈ incoming, value.1.ref? ≠ some instruction.ref) :
    WellFormed function where
  params := params
  refs := refs
  pointers := by
    rintro instruction instructionMem operand operandMem key rfl
    exact absurd rfl (pointerFree instruction instructionMem _ operandMem)
  terminators := terminators
  phis := by
    intro instruction instructionMem incoming isPhi
    exact phis instruction instructionMem incoming (by rw [phiIncoming, isPhi]; rfl)

theorem wellFormed_countdown : WellFormed countdown :=
  wellFormed_of_pointerFree (by decide +kernel) (by decide +kernel) (by decide +kernel)
    (by decide +kernel) (by decide +kernel)

theorem wellFormed_bothPositive : WellFormed bothPositive :=
  wellFormed_of_pointerFree (by decide +kernel) (by decide +kernel) (by decide +kernel)
    (by decide +kernel) (by decide +kernel)

theorem oneClass_iff_comparisonsBranchOnly_countdown :
    ∃ lowered, lowerAllFunctions (fun _ => insertionOrder) [countdown] 65536 = .ok lowered ∧
      List.Forall₂ (fun function mir => OneClass function.params.length mir) [countdown]
        lowered := by
  have succeeds : (lowerAllFunctions (fun _ => insertionOrder) [countdown] 65536).isOk := by
    decide +kernel
  obtain ⟨lowered, isLowered⟩ := exists_of_isOk succeeds
  have wellFormed : ∀ function ∈ definitions [countdown], WellFormed function := by
    intro function functionMem
    obtain rfl := List.mem_singleton.mp (List.mem_of_mem_filter functionMem)
    exact wellFormed_countdown
  refine ⟨lowered, isLowered, ?_⟩
  exact (oneClass_iff_comparisonsBranchOnly wellFormed isLowered).mpr (by decide +kernel)

/-- The code of a branch on the conjunction of two comparisons. -/
def conjunctionCode : List Syllable :=
  [⟨.movImm, some (.vreg 2), [.imm 0]⟩,
    ⟨.cmpLt, some (.vreg 3), [.reg (.vreg 2), .reg (.vreg 0)]⟩,
    ⟨.movImm, some (.vreg 4), [.imm 0]⟩,
    ⟨.cmpLt, some (.vreg 5), [.reg (.vreg 4), .reg (.vreg 1)]⟩,
    ⟨.and, some (.vreg 6), [.reg (.vreg 3), .reg (.vreg 5)]⟩]

/-- The conjunction of two comparisons reads the registers of predicates as
integers, and its result is an integer register that the branch reads as a
predicate. -/
theorem conjunction_mixes_classes :
    Llvm.checkModule [bothPositive] = .ok () ∧ WellFormed bothPositive ∧
      ∃ lowered, lowerAllFunctions (fun _ => insertionOrder) [bothPositive] 65536 = .ok [lowered] ∧
        (lowered.blocks.head?.map fun block => (block.syllables, block.terminator.condVreg)) =
          some (conjunctionCode, some 6) ∧
        ¬OneClass 2 lowered := by
  have lowers : (lowerAllFunctions (fun _ => insertionOrder) [bothPositive] 65536).map
      (fun functions => functions.map fun lowered => lowered.blocks.head?.map fun block =>
        (block.syllables, block.terminator.condVreg)) = .ok [some (conjunctionCode, some 6)] := by
    decide +kernel
  obtain ⟨functions, isLowered, isCode⟩ := map_eq_ok.mp lowers
  obtain ⟨lowered, rfl, isFirst⟩ := List.map_eq_singleton_iff.mp isCode
  refine ⟨by decide +kernel, wellFormed_bothPositive, lowered, isLowered, isFirst, ?_⟩
  intro oneClass
  obtain ⟨block, isBlock, isPair⟩ := Option.map_eq_some_iff.mp isFirst
  have blockMem := List.mem_of_mem_head? isBlock
  have isSyllables : block.syllables = conjunctionCode := congrArg Prod.fst isPair
  have writesGpr := oneClass.gpr block blockMem
    ⟨.and, some (.vreg 6), [.reg (.vreg 3), .reg (.vreg 5)]⟩ (by simp [isSyllables, conjunctionCode])
    rfl 3 (by decide) block blockMem
    ⟨.cmpLt, some (.vreg 3), [.reg (.vreg 2), .reg (.vreg 0)]⟩
    (by simp [isSyllables, conjunctionCode]) rfl
  cases writesGpr

end VliwCompiler.Isel
