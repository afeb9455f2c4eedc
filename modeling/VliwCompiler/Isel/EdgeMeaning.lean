import VliwCompiler.Isel.BlockMeaning

/-!
# Phis and their copies

The copies of an edge give the phis of its target their values.  All other values
that are known in the target have registers older than those of its phis, so the
copies leave them alone.
-/

namespace VliwCompiler.Isel

open Asm (Opcode I64)
open Mir (Reg Value)
open Llvm (BlockRef ValueRef Ty Operand Instruction Env Frame)
open Machine (State Word)
open Worklist (Edge)

/-! ### Values at the start of a block -/

section

variable {function : Llvm.Function} {pred target : BlockRef} {block : Llvm.Block} {env : Env}
  (isBlock : function.blocks[target]? = some block)

include isBlock

/-- The value that a phi gets. -/
theorem enterEnv_phi (isSsa : function.IsSsa) {instruction : Instruction}
    (instructionMem : instruction ∈ block.instructions) {incoming : List (Operand × BlockRef)}
    (isPhi : instruction.operation = .phi incoming) :
    function.enterEnv pred target env instruction.ref =
      (incoming.find? (·.2 = pred)).bind fun value => value.1.word env := by
  unfold Llvm.Function.enterEnv
  dsimp only
  rw [isBlock, Option.map_some, Option.getD_some,
    find?_of_nodup (nodup_refs isSsa isBlock) instructionMem, Option.bind_some,
    Llvm.Instruction.phiValue, isPhi]

/-- All other values stay. -/
theorem enterEnv_other {key : ValueRef} (notPhi : ∀ instruction ∈ block.instructions, ∀ incoming,
      instruction.operation = .phi incoming → instruction.ref ≠ key) :
    function.enterEnv pred target env key = env key := by
  have noValue : (block.instructions.find? (·.ref = key)).bind (·.phiValue env pred) = none := by
    rw [Option.bind_eq_none_iff]
    intro instruction found
    have isKey : instruction.ref = key := by simpa using List.find?_some found
    unfold Llvm.Instruction.phiValue
    split
    · rename_i incoming isPhi
      exact absurd isKey (notPhi instruction (List.mem_of_find?_eq_some found) incoming isPhi)
    · rfl
  unfold Llvm.Function.enterEnv
  dsimp only
  rw [isBlock, Option.map_some, Option.getD_some, noValue]

end

namespace CallFreeLowering

variable {module : Llvm.Module} {memorySize : Nat} {function : Llvm.Function}
  {traversal : Traversal} {table : CopyTable} {sites : List Site} {lowered : Mir.Function}
  {pred target : BlockRef} {label name : String} {block : Llvm.Block} {state : State Reg}
  {env : Env} {key : ValueRef}
  (lowering : CallFreeLowering module memorySize function traversal table sites lowered)
  (supported : Supported function)

include lowering

theorem setting (supported : Supported function) : Setting function traversal.selection := by
  have loop := loopState_of_selectFunction lowering.isSsa.entry lowering.isSelected
  have recorded := loop.recorded
  rw [lowering.selected.visited] at recorded
  exact ⟨lowering.isSsa, lowering.distinct.blocks, lowering.wellFormed, supported, recorded⟩

theorem phisCollected : PhisCollected function (blockOrder function) traversal.selection := by
  have loop := loopState_of_selectFunction lowering.isSsa.entry lowering.isSelected
  rw [← lowering.selected.visited]
  exact loop.phisCollected lowering.isSsa

/-- The lowering of a block begins with its phis. -/
theorem exists_underway {front back : List Site} {site : Site}
    (isSites : sites = front ++ site :: back) {node : BlockRef}
    (isLabel : (blockLabels function)[node]? = some site.label) :
    ∃ block before after, Underway module memorySize function traversal.selection
        (front.map (·.label)) site.label node block [] block.instructions before ∧
      site.LoweredFrom module memorySize function traversal.selection (front.map (·.label)) block
        before after := by
  obtain ⟨block, before, after, made⟩ := lowering.sited.made _ _ _ isSites
  obtain ⟨other, isOther, isNode⟩ := exists_index_of_bbOf made.isBlock
  obtain rfl := Isel.index_unique lowering.distinct.blocks isOther isLabel
  refine ⟨block, before, after, ⟨isNode, isLabel, ?_, rfl, made.bounded, ?_, made.fresh, after,
    made.lowered, made.extended⟩, made⟩
  · exact ⟨_, lowering.sited.visited_eq isSites⟩
  · rw [List.append_nil]
    exact made.recorded

/-! ### Registers of phis -/

/-- The copies of an edge reach the registers of phis of its target. -/
theorem exists_phi_of_copy {copy : PhiCopy} (copyMem : copy ∈ edgeCopies traversal label name) :
    ∃ instruction ∈ instructionsOf function name, (∃ incoming,
      instruction.operation = .phi incoming) ∧
        traversal.selection.vregMap.lookup instruction.ref = some copy.dst := by
  obtain ⟨phi, phiMem, rfl, -, -, -, isDst, -⟩ := mem_edgeCopies.mp copyMem
  obtain ⟨-, instruction, instructionMem, phiOf⟩ := lowering.phisCollected.known phiMem
  obtain ⟨incoming, isPhi, -⟩ := phiOf.isRaw
  exact ⟨instruction, instructionMem, ⟨incoming, isPhi⟩, isDst ▸ phiOf.isBound⟩

/-- The registers of the phis of a block are newer than those of earlier values. -/
theorem le_dst_of_copy {site : Site} {visited : List String} {before after : Selection}
    (underway : Underway module memorySize function traversal.selection visited site.label target
      block [] block.instructions before)
    (made : site.LoweredFrom module memorySize function traversal.selection visited block before
      after) {copy : PhiCopy} (copyMem : copy ∈ edgeCopies traversal label site.label) :
    before.nextVreg ≤ copy.dst := by
  obtain ⟨instruction, instructionMem, -, isBound⟩ := lowering.exists_phi_of_copy copyMem
  rw [instructionsOf_eq made.isBlock] at instructionMem
  rcases (underway.extended lowering.isSsa).newer _ _ isBound with wasBound | isNewer
  · cases (made.fresh instruction instructionMem).1.symm.trans wasBound
  · exact isNewer

/-- Copies leave alone what is known at the start of a block, other than its phis. -/
theorem carries_passed {site : Site} {visited : List String} {before after : Selection}
    (underway : Underway module memorySize function traversal.selection visited site.label target
      block [] block.instructions before)
    (made : site.LoweredFrom module memorySize function traversal.selection visited block before
      after) (setting : Setting function traversal.selection) (known : Known function target [] key)
    (notPhi : ∀ instruction ∈ block.instructions, ∀ incoming,
      instruction.operation = .phi incoming → instruction.ref ≠ key) {word : I64}
    (carries : Carries function traversal.selection state key word) :
    Carries function traversal.selection (assign (edgeCopies traversal label site.label) state) key
      word := by
  have isSeen : key ∈ function.params.map (·.ref) ∨
      ∃ definition ∈ visited.flatMap (instructionsOf function) ++ [], definition.ref = key := by
    rcases underway.seen_of_known lowering.isSsa setting.distinct known with
      ⟨phi, phiMem, ⟨incoming, isPhi⟩, isKey⟩ | isSeen
    · exact absurd isKey (notPhi phi phiMem incoming isPhi)
    · exact isSeen
  obtain ⟨wasBound, wasFolded⟩ := recorded_early lowering.isSsa setting.recorded
    (fun _ => mem_of_lowered) underway.recorded (underway.extended lowering.isSsa) isSeen
    underway.seenIncluded
  have spared : ∀ v < before.nextVreg,
      (assign (edgeCopies traversal label site.label) state).gpr (.vreg v) =
        state.gpr (.vreg v) := by
    intro v isOld
    refine assign_other fun copy copyMem isDst => ?_
    have isNewer := lowering.le_dst_of_copy underway made copyMem
    omega
  cases carries with
  | flag isFlag isBound same => exact .flag isFlag isBound same
  | register notFlag isBound same =>
      refine .register notFlag isBound ?_
      rw [spared _ (underway.bounded.vregs key _ (wasBound _ isBound)), same]
  | pointer isFolded same =>
      refine .pointer isFolded ?_
      rcases underway.bounded.pointers key _ _ (wasFolded _ isFolded) with
        ⟨address, rfl⟩ | ⟨v, isOld, rfl⟩
      · exact same
      · rw [← same]
        simp only [baseWord, State.readGpr, spared v isOld]

/-- The copy of an incoming value. -/
theorem exists_copy (isPred : (blockLabels function)[pred]? = some label)
    (isVisited : name ∈ blockOrder function) {instruction : Instruction}
    (instructionMem : instruction ∈ instructionsOf function name)
    {incoming : List (Operand × BlockRef)} (isPhi : instruction.operation = .phi incoming)
    {operand : Operand} (incomingMem : (operand, pred) ∈ incoming) :
    ∃ copy ∈ edgeCopies traversal label name,
      traversal.selection.vregMap.lookup instruction.ref = some copy.dst ∧
        copySrc traversal.selection (rawPhiVal operand) = .ok copy.src := by
  obtain ⟨phi, phiMem, isName, phiOf⟩ :=
    lowering.phisCollected.collected isVisited instructionMem isPhi
  obtain ⟨other, isOther, isRaw⟩ := phiOf.isRaw
  obtain rfl := Llvm.Operation.phi.inj (isOther.symm.trans isPhi)
  obtain ⟨value, valueMem, isValue⟩ :=
    exists_image_of_forall₂ (mapM_eq_ok_iff.mp isRaw) incomingMem
  obtain ⟨predLabel, isLabel, isValue⟩ := bind_eq_ok.mp isValue
  cases isValue
  obtain rfl := Option.some.inj ((labelOf_eq_ok.mp isLabel).symm.trans isPred)
  obtain ⟨src, isSrc⟩ := exists_copySrc lowering.computed phi phiMem _ valueMem
  exact ⟨⟨phi.dst, src⟩, mem_edgeCopies.mpr ⟨phi, phiMem, isName, _, valueMem, rfl, rfl, isSrc⟩,
    phiOf.isBound, isSrc⟩

/-- A copy brings the value of a phi. -/
theorem carries_phi (setting : Setting function traversal.selection)
    (isLabel : (blockLabels function)[pred]? = some label) (isVisited : label ∈ blockOrder function)
    (isTarget : name ∈ blockOrder function) {predBlock : Llvm.Block}
    (isPred : function.blocks[pred]? = some predBlock)
    (carried : Carried function traversal.selection pred predBlock.instructions state env)
    {instruction : Instruction} (instructionMem : instruction ∈ instructionsOf function name)
    {incoming : List (Operand × BlockRef)} (isPhi : instruction.operation = .phi incoming)
    {operand : Operand} (incomingMem : (operand, pred) ∈ incoming) {word : I64}
    (isWord : operand.word env = some word) :
    Carries function traversal.selection (assign (edgeCopies traversal label name) state)
      instruction.ref word := by
  obtain ⟨copy, copyMem, isBound, isSrc⟩ :=
    lowering.exists_copy isLabel isTarget instructionMem isPhi incomingMem
  have isInstruction := mem_instructions instructionMem
  have notFlag : isComparison function instruction.ref = false := by
    rw [isComparison_ref setting.isSsa isInstruction, isIcmp, isPhi]
  refine .register notFlag isBound ?_
  rw [assign_dst (lowering.agree_edgeCopies isVisited) copyMem,
    typeOf_instruction setting.isSsa isInstruction]
  cases operand with
  | constInt bits value =>
      obtain rfl := Option.some.inj isWord
      rw [← Except.ok.inj isSrc]
      rfl
  | constAddress bits value => cases isSrc
  | constCast => cases isSrc
  | const type => cases isWord
  | ref ref type =>
      obtain ⟨v, found, isSrc⟩ := bind_eq_ok.mp isSrc
      have isOther : traversal.selection.vregMap.lookup ref = some v := expect_eq_ok.mp found
      obtain ⟨known, isType⟩ := known_of_incoming setting.isSsa isPred isInstruction isPhi incomingMem
      have agree := setting.supported.types instruction isInstruction
      rw [typesAgree, isPhi] at agree
      have sameType : type = instruction.type :=
        of_decide_eq_true (List.all_eq_true.mp agree _ incomingMem)
      have integral : isComparison function ref = false := by
        have lowered : instruction ∈ loweredInstructions function :=
          List.mem_flatMap.mpr ⟨name, isTarget, instructionMem⟩
        refine (setting.supported.comparisons instruction lowered ⟨false, ref⟩
          (List.mem_append_right _ ?_)).symm
        rw [isPhi]
        exact List.mem_flatMap.mpr ⟨_, incomingMem, by simp [refUse, Operand.ref?]⟩
      rw [← Except.ok.inj isSrc]
      cases carried ref known word isWord with
      | flag isFlag _ _ =>
          rw [integral] at isFlag
          cases isFlag
      | pointer isFolded _ =>
          rw [notFolded_of_bound setting.isSsa setting.recorded (fun _ => mem_of_lowered) isOther]
            at isFolded
          cases isFolded
      | register _ isFound same =>
          obtain rfl := Option.some.inj (isFound.symm.trans isOther)
          rw [← sameType, ← isType]
          exact same

/-- The values of the next block, with its phis. -/
theorem carried_enter (supported : Supported function)
    (isLabel : (blockLabels function)[pred]? = some label) (isVisited : label ∈ blockOrder function)
    {predBlock : Llvm.Block} (isPred : function.blocks[pred]? = some predBlock)
    (isName : (blockLabels function)[target]? = some name) (isTarget : name ∈ blockOrder function)
    (edge : Edge function.successors pred target)
    (carried : Carried function traversal.selection pred predBlock.instructions state env) :
    Carried function traversal.selection target []
      (assign (edgeCopies traversal label name) state) (function.enterEnv pred target env) := by
  have setting := lowering.setting supported
  obtain ⟨front, site, back, isSites, rfl⟩ := lowering.sited.exists_site isTarget
  obtain ⟨block, before, after, underway, made⟩ := lowering.exists_underway isSites isName
  have isInstructions := instructionsOf_eq made.isBlock
  intro key known word isWord
  by_cases isPhiKey : ∃ instruction ∈ block.instructions, ∃ incoming,
      instruction.operation = .phi incoming ∧ instruction.ref = key
  · obtain ⟨instruction, instructionMem, incoming, isPhi, rfl⟩ := isPhiKey
    rw [enterEnv_phi underway.isNode lowering.isSsa instructionMem isPhi] at isWord
    obtain ⟨⟨operand, node⟩, found, isValue⟩ := Option.bind_eq_some_iff.mp isWord
    have isPredNode : node = pred := by simpa using List.find?_some found
    subst isPredNode
    exact lowering.carries_phi setting isLabel isVisited isTarget isPred carried
      (isInstructions ▸ instructionMem) isPhi (List.mem_of_find?_eq_some found)
      isValue
  · have notPhi : ∀ instruction ∈ block.instructions, ∀ incoming,
        instruction.operation = .phi incoming → instruction.ref ≠ key :=
      fun instruction instructionMem incoming isPhi isKey =>
        isPhiKey ⟨instruction, instructionMem, incoming, isPhi, isKey⟩
    rw [enterEnv_other underway.isNode notPhi] at isWord
    have knownBefore : Known function pred predBlock.instructions key := by
      refine known_before isPred edge known fun other isOther => ?_
      obtain rfl := Option.some.inj (isOther.symm.trans underway.isNode)
      exact notPhi
    exact lowering.carries_passed underway made setting known notPhi
      (carried key knownBefore word isWord)

end CallFreeLowering

end VliwCompiler.Isel
