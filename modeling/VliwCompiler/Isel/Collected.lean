import VliwCompiler.Isel.Dominance

/-!
# Recorded values and collected phis

Registers and folded pointers, once recorded, stay recorded: a value is defined by
one instruction, and every block is lowered once.  The phis of the visited blocks
are collected in the order in which they stand.
-/

namespace VliwCompiler.Isel

open Asm (I64)
open Mir (Value)
open Llvm (BlockRef ValueRef Operand Instruction)

/-! ### What stays recorded -/

/-- A later selection knows what an earlier one knew; values recorded in between
have registers taken in between. -/
structure Extends (before after : Selection) : Prop where
  next : before.nextVreg ≤ after.nextVreg
  vregs : ∀ key v, before.vregMap.lookup key = some v → after.vregMap.lookup key = some v
  newer : ∀ key v, after.vregMap.lookup key = some v →
    before.vregMap.lookup key = some v ∨ before.nextVreg ≤ v
  geps : ∀ key pointer, before.gepMap.lookup key = some pointer →
    after.gepMap.lookup key = some pointer

theorem Extends.refl (selection : Selection) : Extends selection selection :=
  ⟨Nat.le_refl _, fun _ _ => id, fun _ _ => .inl, fun _ _ => id⟩

theorem Extends.trans {first second third : Selection} (left : Extends first second)
    (right : Extends second third) : Extends first third where
  next := left.next.trans right.next
  vregs := fun key v isBound => right.vregs key v (left.vregs key v isBound)
  newer := by
    intro key v isBound
    rcases right.newer key v isBound with before | isNewer
    · exact left.newer key v before
    · exact .inr (left.next.trans isNewer)
  geps := fun key pointer isFolded => right.geps key pointer (left.geps key pointer isFolded)

theorem Extends.congr {before after other : Selection} (extends' : Extends before after)
    (isNext : other.nextVreg = after.nextVreg) (sameVregs : other.vregMap = after.vregMap)
    (sameGeps : other.gepMap = after.gepMap) : Extends before other :=
  ⟨isNext ▸ extends'.next, sameVregs ▸ extends'.vregs, sameVregs ▸ extends'.newer,
    sameGeps ▸ extends'.geps⟩

/-- Neither a register nor a folded pointer is recorded for the value. -/
def Unrecorded (selection : Selection) (key : ValueRef) : Prop :=
  selection.vregMap.lookup key = none ∧ selection.gepMap.lookup key = none

section

variable {module : Llvm.Module} {memorySize : Nat} {labelAt : BlockRef → Outcome String}
  {label : String} {selection after : Selection} {instruction : Instruction}

theorem not_binds_of_folds {instruction : Instruction} (isFold : folds instruction = true) :
    binds instruction = false := by
  unfold folds at isFold
  split at isFold
  · rename_i isOperation
    rw [binds, isOperation]
  · cases isFold

theorem exists_getElementPtr (folding : folds instruction = true) :
    ∃ element base indices, instruction.operation = .getElementPtr element base indices := by
  unfold folds at folding
  split at folding
  · rename_i element base indices isOperation
    exact ⟨element, base, indices, isOperation⟩
  · cases folding

/-- An instruction records at most its own value. -/
theorem extends_of_lowerInstruction (fresh : Unrecorded selection instruction.ref)
    (lowered : lowerInstruction module memorySize labelAt label selection instruction =
      .ok after) : Extends selection after := by
  have records := records_of_lowerInstruction lowered
  have vregs := records.vregs
  refine ⟨records.next, ?_, ?_, ?_⟩
  · intro key v isBound
    split at vregs
    · obtain ⟨w, -, -, isInsert⟩ := vregs
      have other : key ≠ instruction.ref := by
        rintro rfl
        cases fresh.1.symm.trans isBound
      rwa [isInsert, AList.lookup_insert_ne other]
    · rwa [vregs]
  · intro key v isBound
    split at vregs
    · obtain ⟨w, isNewer, -, isInsert⟩ := vregs
      rw [isInsert] at isBound
      by_cases same : key = instruction.ref
      · subst same
        rw [AList.lookup_insert] at isBound
        exact .inr (Option.some.inj isBound ▸ isNewer)
      · rw [AList.lookup_insert_ne same] at isBound
        exact .inl isBound
    · rw [vregs] at isBound
      exact .inl isBound
  · intro key pointer isFolded
    cases folding : folds instruction with
    | false => rwa [records.geps folding]
    | true =>
        obtain ⟨element, base, indices, isOperation⟩ := exists_getElementPtr folding
        obtain ⟨baseVal, baseOffset, elemBytes, totalOffset, -, -, -, isInsert⟩ :=
          records.folded element base indices isOperation
        have other : key ≠ instruction.ref := by
          rintro rfl
          cases fresh.2.symm.trans isFolded
        rwa [isInsert, AList.lookup_insert_ne other]

/-- Values of other instructions stay unrecorded. -/
theorem Unrecorded.afterInstruction {key : ValueRef} (unrecorded : Unrecorded selection key)
    (other : key ≠ instruction.ref)
    (lowered : lowerInstruction module memorySize labelAt label selection instruction =
      .ok after) : Unrecorded after key := by
  have records := records_of_lowerInstruction lowered
  refine ⟨?_, ?_⟩
  · have vregs := records.vregs
    split at vregs
    · obtain ⟨w, -, -, isInsert⟩ := vregs
      rw [isInsert, AList.lookup_insert_ne other]
      exact unrecorded.1
    · rw [vregs]
      exact unrecorded.1
  · cases folding : folds instruction with
    | false =>
        rw [records.geps folding]
        exact unrecorded.2
    | true =>
        obtain ⟨element, base, indices, isOperation⟩ := exists_getElementPtr folding
        obtain ⟨baseVal, baseOffset, elemBytes, totalOffset, -, -, -, isInsert⟩ :=
          records.folded element base indices isOperation
        rw [isInsert, AList.lookup_insert_ne other]
        exact unrecorded.2

/-- Instructions that define different values. -/
theorem extends_of_foldlM {instructions : List Instruction}
    (distinct : (instructions.map (·.ref)).Nodup)
    (fresh : ∀ instruction ∈ instructions, Unrecorded selection instruction.ref)
    (lowered : instructions.foldlM (lowerInstruction module memorySize labelAt label) selection =
      .ok after) :
    Extends selection after ∧
      ∀ key, key ∉ instructions.map (·.ref) → Unrecorded selection key → Unrecorded after key := by
  induction instructions generalizing selection with
  | nil =>
      cases lowered
      exact ⟨.refl _, fun _ _ unrecorded => unrecorded⟩
  | cons instruction rest ih =>
      rw [List.foldlM_cons] at lowered
      obtain ⟨middle, first, lowered⟩ := bind_eq_ok.mp lowered
      rw [List.map_cons, List.nodup_cons] at distinct
      obtain ⟨isFresh, restFresh⟩ := List.forall_mem_cons.mp fresh
      obtain ⟨extended, others⟩ := ih distinct.2 (fun other otherMem =>
        (restFresh other otherMem).afterInstruction
          (fun same => distinct.1 (same ▸ List.mem_map_of_mem otherMem)) first) lowered
      refine ⟨(extends_of_lowerInstruction isFresh first).trans extended, ?_⟩
      intro key absent unrecorded
      rw [List.map_cons, List.mem_cons, not_or] at absent
      exact others key absent.2 (unrecorded.afterInstruction absent.1 first)

end

/-! ### What stays bounded -/

/-- Registers of values and of folded pointers are numbered below the next one. -/
structure Bounded (selection : Selection) : Prop where
  vregs : ∀ key v, selection.vregMap.lookup key = some v → v < selection.nextVreg
  pointers : ∀ key base offset, selection.gepMap.lookup key = some (base, offset) →
    (∃ address, base = .imm address) ∨ ∃ v < selection.nextVreg, base = .reg (.vreg v)

section

variable {module : Llvm.Module} {memorySize : Nat} {labelAt : Llvm.BlockRef → Outcome String}
  {label : String} {selection after : Selection} {instruction : Instruction}

/-- The base of a pointer operand. -/
theorem Bounded.base (bounded : Bounded selection) {operand : Llvm.Operand} {base : Value}
    {offset : I64} (lowered : lowerPtrOperand operand selection = .ok (base, offset)) :
    (∃ address, base = .imm address) ∨ ∃ v < selection.nextVreg, base = .reg (.vreg v) := by
  rcases lowerPtrOperand_eq_ok lowered with
    ⟨bits, address, -, isBase, -⟩ | ⟨key, -, isFolded | ⟨-, v, isBound, isBase, -⟩⟩
  · exact .inl ⟨address, isBase⟩
  · exact bounded.pointers key base offset isFolded
  · exact .inr ⟨v, bounded.vregs key v isBound, isBase⟩

theorem Bounded.afterInstruction (bounded : Bounded selection)
    (lowered : lowerInstruction module memorySize labelAt label selection instruction =
      .ok after) : Bounded after := by
  have isNext := (takes_of_lowerInstruction lowered).next
  refine ⟨?_, ?_⟩
  · rcases (takes_of_lowerInstruction lowered).bound with sameVregs | ⟨w, -, inside, isInsert⟩
    · intro key v isBound
      rw [sameVregs] at isBound
      exact Nat.lt_of_lt_of_le (bounded.vregs key v isBound) isNext
    · intro key v isBound
      rw [isInsert] at isBound
      by_cases same : key = instruction.ref
      · subst same
        rw [AList.lookup_insert] at isBound
        exact Option.some.inj isBound ▸ inside
      · rw [AList.lookup_insert_ne same] at isBound
        exact Nat.lt_of_lt_of_le (bounded.vregs key v isBound) isNext
  · have records := records_of_lowerInstruction lowered
    have older : ∀ base : Value, (∃ address, base = .imm address) ∨
        (∃ v < selection.nextVreg, base = .reg (.vreg v)) →
          (∃ address, base = .imm address) ∨ ∃ v < after.nextVreg, base = .reg (.vreg v) := by
      rintro base (isAddress | ⟨v, isOld, isBase⟩)
      · exact .inl isAddress
      · exact .inr ⟨v, Nat.lt_of_lt_of_le isOld isNext, isBase⟩
    intro key base offset isFolded
    refine older base ?_
    cases folding : folds instruction with
    | false =>
        rw [records.geps folding] at isFolded
        exact bounded.pointers key base offset isFolded
    | true =>
        obtain ⟨element, operand, indices, isOperation⟩ := exists_getElementPtr folding
        obtain ⟨baseVal, baseOffset, elemBytes, totalOffset, isBase, -, -, isInsert⟩ :=
          records.folded element operand indices isOperation
        rw [isInsert] at isFolded
        by_cases same : key = instruction.ref
        · subst same
          rw [AList.lookup_insert] at isFolded
          obtain ⟨rfl, -⟩ := Prod.mk.inj (Option.some.inj isFolded)
          exact bounded.base isBase
        · rw [AList.lookup_insert_ne same] at isFolded
          exact bounded.pointers key base offset isFolded

theorem Bounded.afterInstructions {instructions : List Instruction} (bounded : Bounded selection)
    (lowered : instructions.foldlM (lowerInstruction module memorySize labelAt label) selection =
      .ok after) : Bounded after := by
  induction instructions generalizing selection with
  | nil =>
      cases lowered
      exact bounded
  | cons instruction rest ih =>
      rw [List.foldlM_cons] at lowered
      obtain ⟨middle, first, lowered⟩ := bind_eq_ok.mp lowered
      exact ih (bounded.afterInstruction first) lowered

end

/-! ### Values of different blocks -/

section

variable {function : Llvm.Function} {node other : Llvm.BlockRef} {block otherBlock : Llvm.Block}

theorem nodup_refs (isSsa : function.IsSsa) (isBlock : function.blocks[node]? = some block) :
    (block.instructions.map (·.ref)).Nodup := by
  have distinct := (List.nodup_append.mp isSsa.distinct).2.1
  rw [Llvm.Function.instructions, List.map_flatMap, List.nodup_flatMap] at distinct
  exact distinct.1 block (List.mem_of_getElem? isBlock)

/-- Different blocks define different values. -/
theorem ref_ne_of_node_ne (isSsa : function.IsSsa) (isBlock : function.blocks[node]? = some block)
    (isOther : function.blocks[other]? = some otherBlock) (differ : node ≠ other)
    {first second : Instruction} (firstMem : first ∈ block.instructions)
    (secondMem : second ∈ otherBlock.instructions) : first.ref ≠ second.ref := by
  have distinct := (List.nodup_append.mp isSsa.distinct).2.1
  rw [Llvm.Function.instructions, List.map_flatMap, List.nodup_flatMap] at distinct
  obtain ⟨inside, isBlock⟩ := List.getElem?_eq_some_iff.mp isBlock
  obtain ⟨otherInside, isOther⟩ := List.getElem?_eq_some_iff.mp isOther
  have apart := List.pairwise_iff_getElem.mp distinct.2
  intro same
  have isFirst : first.ref ∈ (function.blocks[node].instructions).map (·.ref) :=
    List.mem_map_of_mem (isBlock ▸ firstMem)
  have isSecond : first.ref ∈ (function.blocks[other].instructions).map (·.ref) :=
    same ▸ List.mem_map_of_mem (isOther ▸ secondMem)
  rcases Nat.lt_or_gt_of_ne differ with before | after
  · exact apart node other inside otherInside before isFirst isSecond
  · exact apart other node otherInside inside after isSecond isFirst

/-- Parameters are not defined by instructions. -/
theorem ref_notMem_params (isSsa : function.IsSsa) (isBlock : function.blocks[node]? = some block)
    {instruction : Instruction} (instructionMem : instruction ∈ block.instructions) :
    instruction.ref ∉ function.params.map (·.ref) := by
  intro isParam
  refine (List.nodup_append.mp isSsa.distinct).2.2 _ isParam instruction.ref ?_ rfl
  exact List.mem_map_of_mem
    (List.mem_flatMap.mpr ⟨block, List.mem_of_getElem? isBlock, instructionMem⟩)

end

/-! ### Blocks still to be visited -/

section

variable {module : Llvm.Module} {memorySize : Nat} {function : Llvm.Function}
  {traversal : Traversal} {label : String}

/-- Registers are numbered below the next one. -/
theorem LoopState.bounded (state : LoopState module memorySize function traversal) :
    Bounded traversal.selection := by
  induction state with
  | start begun =>
      obtain ⟨entry, selection, -, bound, rfl⟩ := initialTraversal_eq_ok begun
      obtain ⟨isNext, noGeps, isParam⟩ := bound_of_bindParams bound
      refine ⟨?_, ?_⟩
      · intro key v isBound
        obtain ⟨param, isParam, -⟩ := isParam key v isBound
        exact lt_of_lt_of_eq (List.getElem?_eq_some_iff.mp isParam).1 isNext.symm
      · intro key base offset isFolded
        rw [noGeps] at isFolded
        cases isFolded
  | skip _ _ _ ih => exact ih
  | @visit current after label _ _ _ _ visited ih =>
      obtain ⟨block, selection, -, lowered, enqueued⟩ := visitBlock_eq_ok visited
      obtain ⟨final, folded, lowered⟩ := bind_eq_ok.mp lowered
      cases lowered
      have begun : Bounded (current.selection.begin label) := ⟨ih.vregs, ih.pointers⟩
      have ended : Bounded final := begun.afterInstructions folded
      rw [enqueued.rest]
      exact ⟨ended.vregs, ended.pointers⟩

/-- Values of blocks that are still to be visited are unrecorded. -/
theorem LoopState.unrecorded (isSsa : function.IsSsa)
    (state : LoopState module memorySize function traversal) {block : Llvm.Block}
    (isBlock : bbOf function label = some block) (unvisited : label ∉ traversal.visited) :
    ∀ instruction ∈ block.instructions, Unrecorded traversal.selection instruction.ref := by
  induction state generalizing label block with
  | start begun =>
      obtain ⟨entry, selection, -, bound, rfl⟩ := initialTraversal_eq_ok begun
      obtain ⟨node, -, isNode⟩ := exists_index_of_bbOf isBlock
      intro instruction instructionMem
      refine ⟨?_, ?_⟩
      · rw [Option.eq_none_iff_forall_ne_some]
        intro v isBound
        rcases ((recorded_of_bindParams bound).vregs _).mp ⟨v, isBound⟩ with isParam | ⟨_, seen, -⟩
        · exact ref_notMem_params isSsa isNode instructionMem isParam
        · cases seen
      · rw [(bound_of_bindParams bound).2.1]
        rfl
  | skip _ _ _ ih => exact ih isBlock unvisited
  | @visit current after visitedLabel rest _ _ isNew visited ih =>
      obtain ⟨visitedBlock, selection, isVisited, lowered, enqueued⟩ := visitBlock_eq_ok visited
      rw [enqueued.visited, List.mem_append, List.mem_singleton, not_or] at unvisited
      obtain ⟨final, folded, lowered⟩ := bind_eq_ok.mp lowered
      cases lowered
      obtain ⟨node, isLabel, isNode⟩ := exists_index_of_bbOf isBlock
      obtain ⟨other, isOtherLabel, isOther⟩ := exists_index_of_bbOf isVisited
      have differ : node ≠ other := by
        rintro rfl
        exact unvisited.2 (Option.some.inj (isLabel.symm.trans isOtherLabel))
      have begun : ∀ instruction ∈ visitedBlock.instructions,
          Unrecorded (current.selection.begin visitedLabel) instruction.ref := ih isVisited isNew
      obtain ⟨-, others⟩ := extends_of_foldlM (nodup_refs isSsa isOther) begun folded
      intro instruction instructionMem
      have absent : instruction.ref ∉ visitedBlock.instructions.map (·.ref) := by
        intro isDefined
        obtain ⟨definition, definitionMem, same⟩ := List.mem_map.mp isDefined
        exact ref_ne_of_node_ne isSsa isOther isNode differ.symm definitionMem instructionMem same
      have kept := others instruction.ref absent (ih isBlock unvisited.1 instruction instructionMem)
      rw [enqueued.rest]
      exact kept

end

/-! ### Collected phis -/

/-- The collected phi belongs to the instruction. -/
structure PhiOf (function : Llvm.Function) (selection : Selection) (instruction : Instruction)
    (phi : PendingPhi) : Prop where
  isBound : selection.vregMap.lookup instruction.ref = some phi.dst
  isRaw : ∃ incoming, instruction.operation = .phi incoming ∧
    rawIncoming (labelOf function) incoming = .ok phi.incoming

/-- The phis of a block with its label. -/
def phisOf (function : Llvm.Function) (label : String) : List (String × Instruction) :=
  ((instructionsOf function label).filter fun instruction =>
    (phiIncoming instruction).isSome).map (label, ·)

/-- The phis of the visited blocks are collected in order. -/
def PhisCollected (function : Llvm.Function) (visited : List String) (selection : Selection) :
    Prop :=
  List.Forall₂ (fun entry phi => phi.phiBlockLabel = entry.1 ∧
    PhiOf function selection entry.2 phi) (visited.flatMap (phisOf function)) selection.pendingPhis

section

variable {module : Llvm.Module} {memorySize : Nat} {function : Llvm.Function} {label : String}
  {selection after : Selection} {traversal : Traversal} {instruction : Instruction}
  {phi : PendingPhi} {visited : List String}

theorem phiIncoming_eq_some {incoming : List (Operand × BlockRef)} :
    phiIncoming instruction = some incoming ↔ instruction.operation = .phi incoming := by
  unfold phiIncoming
  split
  · rename_i isOperation
    rw [isOperation, Option.some.injEq, Llvm.Operation.phi.injEq]
  · rename_i notPhi
    exact iff_of_false (by simp) (notPhi incoming)

theorem mem_phisOf {entry : String × Instruction} (entryMem : entry ∈ phisOf function label) :
    entry.1 = label ∧ entry.2 ∈ instructionsOf function label := by
  rcases List.mem_map.mp entryMem with ⟨instruction, isPhi, rfl⟩
  exact ⟨rfl, List.mem_of_mem_filter isPhi⟩

/-- Every collected phi comes from a visited block. -/
theorem PhisCollected.known (collected : PhisCollected function visited selection)
    (phiMem : phi ∈ selection.pendingPhis) : phi.phiBlockLabel ∈ visited ∧
      ∃ instruction ∈ instructionsOf function phi.phiBlockLabel,
        PhiOf function selection instruction phi := by
  rcases exists_mem_of_forall₂ collected phiMem with ⟨⟨label, instruction⟩, entryMem, isLabel, phiOf⟩
  rcases List.mem_flatMap.mp entryMem with ⟨other, isVisited, inBlock⟩
  rcases mem_phisOf inBlock with ⟨rfl, instructionMem⟩
  rw [isLabel]
  exact ⟨isVisited, instruction, instructionMem, phiOf⟩

/-- Every phi of a visited block is collected. -/
theorem PhisCollected.collected (collected : PhisCollected function visited selection)
    (isVisited : label ∈ visited) (instructionMem : instruction ∈ instructionsOf function label)
    {incoming : List (Operand × BlockRef)} (isPhi : instruction.operation = .phi incoming) :
    ∃ phi ∈ selection.pendingPhis, phi.phiBlockLabel = label ∧
      PhiOf function selection instruction phi := by
  have entryMem : (label, instruction) ∈ visited.flatMap (phisOf function) := by
    refine List.mem_flatMap.mpr ⟨label, isVisited, List.mem_map_of_mem ?_⟩
    exact List.mem_filter.mpr ⟨instructionMem, by rw [phiIncoming_eq_some.mpr isPhi]; rfl⟩
  rcases exists_image_of_forall₂ collected entryMem with ⟨phi, phiMem, isLabel, phiOf⟩
  exact ⟨phi, phiMem, isLabel, phiOf⟩

/-- The phis that a block adds. -/
theorem collected_of_foldlM {instructions : List Instruction}
    (distinct : (instructions.map (·.ref)).Nodup)
    (fresh : ∀ instruction ∈ instructions, Unrecorded selection instruction.ref)
    (lowered : instructions.foldlM
      (lowerInstruction module memorySize (labelOf function) label) selection = .ok after) :
    ∃ added, after.pendingPhis = selection.pendingPhis ++ added ∧
      List.Forall₂ (fun instruction phi => phi.phiBlockLabel = label ∧
          PhiOf function after instruction phi)
        (instructions.filter fun instruction => (phiIncoming instruction).isSome) added := by
  induction instructions generalizing selection with
  | nil =>
      cases lowered
      exact ⟨[], by simp, .nil⟩
  | cons instruction rest ih =>
      rw [List.foldlM_cons] at lowered
      rcases bind_eq_ok.mp lowered with ⟨middle, first, lowered⟩
      rw [List.map_cons, List.nodup_cons] at distinct
      rcases List.forall_mem_cons.mp fresh with ⟨isFresh, restFresh⟩
      have stillFresh : ∀ other ∈ rest, Unrecorded middle other.ref := fun other otherMem =>
        (restFresh other otherMem).afterInstruction
          (fun same => distinct.1 (same ▸ List.mem_map_of_mem otherMem)) first
      rcases ih distinct.2 stillFresh lowered with ⟨added, isAdded, related⟩
      rcases extends_of_foldlM distinct.2 stillFresh lowered with ⟨extended, -⟩
      cases isIncoming : phiIncoming instruction with
      | some incoming =>
          have isPhi := phiIncoming_eq_some.mp isIncoming
          rw [lowerInstruction, isPhi] at first
          rcases bind_eq_ok.mp first with ⟨raw, isRaw, isAfter⟩
          cases isAfter
          have phiOf : PhiOf function after instruction ⟨label, selection.nextVreg, raw⟩ :=
            ⟨extended.vregs _ _ (AList.lookup_insert _), incoming, isPhi, isRaw⟩
          refine ⟨⟨label, selection.nextVreg, raw⟩ :: added, ?_, ?_⟩
          · rw [isAdded, List.append_assoc]
            rfl
          · rw [List.filter_cons_of_pos (by rw [isIncoming]; rfl)]
            exact .cons ⟨rfl, phiOf⟩ related
      | none =>
          refine ⟨added, ?_, ?_⟩
          · rcases pendingPhis_of_lowerInstruction first with same | ⟨incoming, -, isPhi, -⟩
            · rw [isAdded, same]
            · rw [phiIncoming_eq_some.mpr isPhi] at isIncoming
              cases isIncoming
          · rw [List.filter_cons_of_neg (by rw [isIncoming]; simp)]
            exact related

theorem LoopState.phisCollected (isSsa : function.IsSsa)
    (state : LoopState module memorySize function traversal) :
    PhisCollected function traversal.visited traversal.selection := by
  induction state with
  | start begun =>
      rcases initialTraversal_eq_ok begun with ⟨entry, selection, -, bound, rfl⟩
      injection control_of_bindParams bound with noPhis
      have isNil : selection.pendingPhis = [] := noPhis
      unfold PhisCollected
      rw [isNil]
      exact .nil
  | skip _ _ _ ih => exact ih
  | @visit current after label rest before isNext isNew visited ih =>
      rcases visitBlock_eq_ok visited with ⟨block, selection, isBlock, lowered, enqueued⟩
      rcases bind_eq_ok.mp lowered with ⟨final, folded, lowered⟩
      cases lowered
      rcases exists_index_of_bbOf isBlock with ⟨node, isLabel, isNode⟩
      have fresh : ∀ instruction ∈ block.instructions,
          Unrecorded (current.selection.begin label) instruction.ref :=
        before.unrecorded isSsa isBlock isNew
      rcases extends_of_foldlM (nodup_refs isSsa isNode) fresh folded with ⟨extended, -⟩
      rcases collected_of_foldlM (nodup_refs isSsa isNode) fresh folded with
        ⟨added, isAdded, related⟩
      have isPending : after.selection.pendingPhis = current.selection.pendingPhis ++ added := by
        rw [enqueued.rest]
        exact isAdded
      have sameVregs : after.selection.vregMap = final.vregMap := by
        rw [enqueued.rest]
        rfl
      unfold PhisCollected at ih ⊢
      rw [isPending, enqueued.visited, List.flatMap_append, List.flatMap_singleton]
      refine List.rel_append (ih.imp ?_) ?_
      · rintro entry phi ⟨isEntry, phiOf⟩
        exact ⟨isEntry, sameVregs ▸ extended.vregs _ _ phiOf.isBound, phiOf.isRaw⟩
      · rw [phisOf, instructionsOf_eq isBlock, List.forall₂_map_left_iff]
        refine related.imp ?_
        rintro instruction phi ⟨isEntry, phiOf⟩
        exact ⟨isEntry, sameVregs ▸ phiOf.isBound, phiOf.isRaw⟩

end

end VliwCompiler.Isel
