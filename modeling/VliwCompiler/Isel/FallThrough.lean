import VliwCompiler.Isel.BlockCode
import VliwCompiler.Isel.OneClass
import VliwCompiler.Isel.Rejection

/-!
# Fall-through

A conditional branch and a call are followed by the code they fall through to.
The blocks of a function are laid out in pieces: the MIR blocks of one LLVM
block, split at its calls, and the latch of its false edge if it has one.  They
hold the code of the instructions and, at their ends, copies for phis.
-/

namespace VliwCompiler.Isel

open Asm (I64)
open Mir (Block Syllable Terminator)
open Llvm (BlockRef Instruction)
open Worklist (Successors Edge Reachable)

/-! ### Outlines of blocks -/

/-- The label and the terminator of a MIR block. -/
structure Outline where
  label : String
  terminator : Terminator
  deriving DecidableEq, Repr

def outline (block : Block) : Outline := ⟨block.label, block.terminator⟩

/-- The function that an instruction calls. -/
def calledBy (instruction : Instruction) : Option String :=
  match instruction.operation with
  | .call (.function target) _ => some target
  | _ => none

/-- Blocks from `label` up to `last`: each of them calls a function and continues
in the next one. -/
inductive Linked : String → List String → List Outline → String → Prop where
  | done (label : String) : Linked label [] [] label
  | call {label callee next last : String} {callees : List String} {outlines : List Outline}
      (rest : Linked next callees outlines last) :
      Linked label (callee :: callees) (⟨label, .directCall callee next⟩ :: outlines) last

/-- The terminator of a block with the given successors. -/
def EndsAs : Successors String → Terminator → Prop
  | ⟨some _, some target⟩, terminator => ∃ cond, terminator = .branch cond target
  | ⟨none, some target⟩, terminator => terminator = .jump target
  | _, terminator => terminator = .ret

/-- The blocks of an LLVM block, split at its calls. -/
def IsChunk (function : Llvm.Function) (label : String) (chunk : List Outline) : Prop :=
  ∃ front last, chunk = front ++ [last] ∧
    Linked label ((instructionsOf function label).filterMap calledBy) front last.label ∧
    EndsAs (successorsOf function label) last.terminator

/-- The latch that follows a block when its false successor is among those
visited. -/
def latchOutlines (function : Llvm.Function) (visited : List String) (label : String) :
    List Outline :=
  match (successorsOf function label).next with
  | some target =>
      if target ∈ visited then [⟨label ++ "__latch__" ++ target, .jump target⟩] else []
  | none => []

theorem Linked.trans {label middle last : String} {first second : List String}
    {outlines others : List Outline} (before : Linked label first outlines middle)
    (rest : Linked middle second others last) :
    Linked label (first ++ second) (outlines ++ others) last := by
  induction before with
  | done label => exact rest
  | call _ ih => exact .call (ih rest)

/-! ### One block -/

section

variable {module : Llvm.Module} {memorySize : Nat} {function : Llvm.Function} {label : String}
  {selection after : Selection} {instruction : Instruction}

/-- Finished blocks are linked to the one under construction. -/
def Chained (instructions : List Instruction) (selection after : Selection) : Prop :=
  ∃ blocks, after.mirBlocks = selection.mirBlocks ++ blocks ∧
    Linked selection.currentMirLabel (instructions.filterMap calledBy) (blocks.map outline)
      after.currentMirLabel

theorem Chained.trans {first second : List Instruction} {middle : Selection}
    (before : Chained first selection middle) (rest : Chained second middle after) :
    Chained (first ++ second) selection after := by
  obtain ⟨blocks, isBlocks, linked⟩ := before
  obtain ⟨others, isOthers, linkedRest⟩ := rest
  refine ⟨blocks ++ others, by rw [isOthers, isBlocks, List.append_assoc], ?_⟩
  rw [List.filterMap_append, List.map_append]
  exact linked.trans linkedRest

theorem chained_of_same (sameBlocks : after.mirBlocks = selection.mirBlocks)
    (sameLabel : after.currentMirLabel = selection.currentMirLabel)
    (noCall : calledBy instruction = none) : Chained [instruction] selection after := by
  refine ⟨[], by rw [sameBlocks, List.append_nil], ?_⟩
  rw [List.filterMap_cons_none noCall, sameLabel]
  exact .done _

theorem chained_of_lowerInstruction {labelAt : BlockRef → Outcome String}
    (lowered : lowerInstruction module memorySize labelAt label selection instruction =
      .ok after) : Chained [instruction] selection after := by
  have effect := control_of_lowerInstruction lowered
  cases isOperation : instruction.operation with
  | phi incoming =>
      rw [isOperation] at effect
      obtain ⟨raw, -, same⟩ := effect
      exact chained_of_same (congrArg Control.mirBlocks same)
        (congrArg Control.currentMirLabel same) (by rw [calledBy, isOperation])
  | condBr cond ifTrue ifFalse =>
      rw [isOperation] at effect
      obtain ⟨trueLabel, falseLabel, vreg, -, -, same⟩ := effect
      exact chained_of_same (congrArg Control.mirBlocks same)
        (congrArg Control.currentMirLabel same) (by rw [calledBy, isOperation])
  | br target =>
      rw [isOperation] at effect
      obtain ⟨targetLabel, -, same⟩ := effect
      exact chained_of_same (congrArg Control.mirBlocks same)
        (congrArg Control.currentMirLabel same) (by rw [calledBy, isOperation])
  | call callee arguments =>
      rw [isOperation] at effect
      obtain ⟨block, ⟨isLabel, target, rfl, isCall⟩, same⟩ := effect
      refine ⟨[block], congrArg Control.mirBlocks same, ?_⟩
      have isCurrent : after.currentMirLabel = contLabel selection :=
        congrArg Control.currentMirLabel same
      have isCalled : calledBy instruction = some target := by rw [calledBy, isOperation]
      rw [List.filterMap_cons_some isCalled, List.map_singleton, outline, isLabel, isCall,
        isCurrent]
      exact .call (.done _)
  | _ =>
      rw [isOperation] at effect
      exact chained_of_same (congrArg Control.mirBlocks effect)
        (congrArg Control.currentMirLabel effect) (by rw [calledBy, isOperation])

theorem chained_of_foldlM {labelAt : BlockRef → Outcome String} {instructions : List Instruction}
    (lowered : instructions.foldlM (lowerInstruction module memorySize labelAt label) selection =
      .ok after) : Chained instructions selection after := by
  induction instructions generalizing selection with
  | nil =>
      cases lowered
      exact ⟨[], by simp, .done _⟩
  | cons instruction instructions ih =>
      rw [List.foldlM_cons] at lowered
      obtain ⟨middle, first, rest⟩ := bind_eq_ok.mp lowered
      exact (chained_of_lowerInstruction first).trans (ih rest)

/-- No branch was lowered yet. -/
structure Open (selection : Selection) : Prop where
  terminator : selection.terminator = .ret
  falseSucc : selection.falseSucc = none
  trueSucc : selection.trueSucc = none

theorem Open.afterInstruction {labelAt : BlockRef → Outcome String} (isOpen : Open selection)
    (notTerminator : instruction.operation.isTerminator = false)
    (lowered : lowerInstruction module memorySize labelAt label selection instruction =
      .ok after) : Open after := by
  have effect := control_of_lowerInstruction lowered
  cases isOperation : instruction.operation with
  | phi incoming =>
      rw [isOperation] at effect
      obtain ⟨raw, -, same⟩ := effect
      exact ⟨(congrArg Control.terminator same).trans isOpen.terminator,
        (congrArg Control.falseSucc same).trans isOpen.falseSucc,
        (congrArg Control.trueSucc same).trans isOpen.trueSucc⟩
  | call callee arguments =>
      rw [isOperation] at effect
      obtain ⟨block, -, same⟩ := effect
      exact ⟨congrArg Control.terminator same,
        (congrArg Control.falseSucc same).trans isOpen.falseSucc,
        (congrArg Control.trueSucc same).trans isOpen.trueSucc⟩
  | ret | condBr | br | invoke =>
      rw [isOperation] at notTerminator
      cases notTerminator
  | _ =>
      rw [isOperation] at effect
      exact ⟨(congrArg Control.terminator effect).trans isOpen.terminator,
        (congrArg Control.falseSucc effect).trans isOpen.falseSucc,
        (congrArg Control.trueSucc effect).trans isOpen.trueSucc⟩

theorem Open.endsAs (isOpen : Open selection) :
    EndsAs ⟨selection.falseSucc, selection.trueSucc⟩ selection.terminator := by
  rw [isOpen.falseSucc, isOpen.trueSucc]
  exact isOpen.terminator

/-- The terminator of a block ends it as its targets say. -/
theorem Open.endsAs_afterInstruction {labelAt : BlockRef → Outcome String}
    (isOpen : Open selection)
    (lowered : lowerInstruction module memorySize labelAt label selection instruction =
      .ok after) : EndsAs ⟨after.falseSucc, after.trueSucc⟩ after.terminator := by
  have effect := control_of_lowerInstruction lowered
  cases isOperation : instruction.operation with
  | ret value =>
      rw [isOperation] at effect
      have isFalse := (congrArg Control.falseSucc effect).trans isOpen.falseSucc
      have isTrue := (congrArg Control.trueSucc effect).trans isOpen.trueSucc
      exact Open.endsAs ⟨congrArg Control.terminator effect, isFalse, isTrue⟩
  | condBr cond ifTrue ifFalse =>
      rw [isOperation] at effect
      obtain ⟨trueLabel, falseLabel, vreg, -, -, same⟩ := effect
      have isFalse : after.falseSucc = some falseLabel := congrArg Control.falseSucc same
      have isTrue : after.trueSucc = some trueLabel := congrArg Control.trueSucc same
      rw [isFalse, isTrue]
      exact ⟨.vreg vreg, congrArg Control.terminator same⟩
  | br target =>
      rw [isOperation] at effect
      obtain ⟨targetLabel, -, same⟩ := effect
      have isFalse : after.falseSucc = none :=
        (congrArg Control.falseSucc same).trans isOpen.falseSucc
      have isTrue : after.trueSucc = some targetLabel := congrArg Control.trueSucc same
      rw [isFalse, isTrue]
      exact congrArg Control.terminator same
  | invoke =>
      rw [lowerInstruction, isOperation] at lowered
      cases lowered
  | _ =>
      exact (isOpen.afterInstruction (by rw [isOperation]; rfl) lowered).endsAs

theorem Open.afterInstructions {labelAt : BlockRef → Outcome String}
    {instructions : List Instruction} (isOpen : Open selection)
    (straight : ∀ instruction ∈ instructions, instruction.operation.isTerminator = false)
    (lowered : instructions.foldlM (lowerInstruction module memorySize labelAt label) selection =
      .ok after) : Open after := by
  induction instructions generalizing selection with
  | nil =>
      cases lowered
      exact isOpen
  | cons instruction instructions ih =>
      obtain ⟨first, others⟩ := List.forall_mem_cons.mp straight
      rw [List.foldlM_cons] at lowered
      obtain ⟨middle, isMiddle, rest⟩ := bind_eq_ok.mp lowered
      exact ih (isOpen.afterInstruction first isMiddle) others rest

/-- The MIR blocks of an LLVM block. -/
theorem isChunk_of_lowerBlock {block : Llvm.Block} (isSsa : function.IsSsa)
    (isBlock : bbOf function label = some block)
    (lowered : lowerBlock module memorySize function label block selection = .ok after) :
    ∃ blocks, after.mirBlocks = selection.mirBlocks ++ blocks ∧
      IsChunk function label (blocks.map outline) := by
  have successors := (finished_of_lowerBlock isBlock lowered).successors
  obtain ⟨final, folded, lowered⟩ := bind_eq_ok.mp lowered
  cases lowered
  obtain ⟨blocks, isBlocks, linked⟩ := chained_of_foldlM folded
  refine ⟨blocks ++ [⟨final.currentMirLabel, final.syllables, final.terminator⟩], ?_,
    blocks.map outline, ⟨final.currentMirLabel, final.terminator⟩, ?_, ?_, ?_⟩
  · rw [Selection.finish, isBlocks, List.append_assoc]
    rfl
  · rw [List.map_append]
    rfl
  · rw [instructionsOf_eq isBlock]
    exact linked
  · rw [← successors]
    have begun : Open (selection.begin label) := ⟨rfl, rfl, rfl⟩
    rcases List.eq_nil_or_concat block.instructions with isNil | ⟨body, last, isLast⟩
    · rw [isNil] at folded
      cases folded
      exact begun.endsAs
    · rw [List.concat_eq_append] at isLast
      obtain ⟨node, -, isNode⟩ := exists_index_of_bbOf isBlock
      have straight := isSsa.straight (List.mem_of_getElem? isNode) isLast
      rw [isLast, List.foldlM_append] at folded
      obtain ⟨middle, isMiddle, atLast⟩ := bind_eq_ok.mp folded
      rw [List.foldlM_cons] at atLast
      obtain ⟨ended, isEnded, atLast⟩ := bind_eq_ok.mp atLast
      cases atLast
      have ends := (begun.afterInstructions straight isMiddle).endsAs_afterInstruction isEnded
      exact ends

end

/-! ### All blocks -/

/-- What an LLVM block becomes: the outlines of its MIR blocks and their code, and its
latch. -/
structure Piece where
  label : String
  chunk : List Outline
  latch : List Outline
  code : List (List Syllable)

def Piece.outlines (piece : Piece) : List Outline := piece.chunk ++ piece.latch

/-- Latches hold no code of their own. -/
def Piece.codes (piece : Piece) : List (List Syllable) := piece.code ++ piece.latch.map fun _ => []

/-- The pieces of the visited blocks. -/
structure Built (function : Llvm.Function) (visited : List String) (blocks : List Outline)
    (pieces : List Piece) : Prop where
  labels : pieces.map (·.label) = visited
  blocks : blocks = pieces.flatMap Piece.outlines
  chunks : ∀ piece ∈ pieces, IsChunk function piece.label piece.chunk
  latches : ∀ front piece back, pieces = front ++ piece :: back →
    piece.latch = latchOutlines function (front.map (·.label) ++ [piece.label]) piece.label

/-- The code of the visited blocks. -/
structure Filled (function : Llvm.Function) (address : I64) (final : Selection)
    (codes : List (List Syllable)) (pieces : List Piece) : Prop where
  codes : codes = pieces.flatMap Piece.codes
  own : ∀ piece ∈ pieces,
    BlockCode final address (instructionsOf function piece.label) [] piece.code

section

variable {module : Llvm.Module} {memorySize : Nat} {function : Llvm.Function}
  {traversal : Traversal} {label : String}

theorem Built.snoc {visited : List String} {blocks : List Outline} {pieces : List Piece}
    (built : Built function visited blocks pieces) {chunk : List Outline}
    (isChunk : IsChunk function label chunk) (code : List (List Syllable)) :
    Built function (visited ++ [label])
      (blocks ++ (chunk ++ latchOutlines function (visited ++ [label]) label))
      (pieces ++ [⟨label, chunk, latchOutlines function (visited ++ [label]) label, code⟩]) where
  labels := by rw [List.map_append, built.labels, List.map_singleton]
  blocks := by
    rw [List.flatMap_append, ← built.blocks, List.flatMap_singleton]
    rfl
  chunks := List.forall_mem_append.mpr ⟨built.chunks, List.forall_mem_singleton.mpr isChunk⟩
  latches := by
    intro front piece back isPieces
    rcases Worklist.append_cons_eq_snoc.mp isPieces with ⟨rfl, rfl, -⟩ | ⟨rest, -, isPieces⟩
    · rw [built.labels]
    · exact built.latches front piece rest isPieces

theorem Filled.snoc {address : I64} {final : Selection} {codes code : List (List Syllable)}
    {pieces : List Piece} (filled : Filled function address final codes pieces)
    (isCode : BlockCode final address (instructionsOf function label) [] code)
    (chunk latch : List Outline) :
    Filled function address final (codes ++ (code ++ latch.map fun _ => []))
      (pieces ++ [⟨label, chunk, latch, code⟩]) where
  codes := by
    rw [List.flatMap_append, ← filled.codes, List.flatMap_singleton]
    rfl
  own := List.forall_mem_append.mpr ⟨filled.own, List.forall_mem_singleton.mpr isCode⟩

/-- The blocks that a visit adds: those of the LLVM block, and the latch. -/
theorem latch_of_enqueued {middle after : Traversal}
    (enqueued : Enqueued label (successorsOf function label) middle after) :
    ∃ latch, after.selection.mirBlocks = middle.selection.mirBlocks ++ latch ∧
      latch.map outline = latchOutlines function middle.visited label ∧
      latch.map (·.syllables) = (latchOutlines function middle.visited label).map fun _ => [] := by
  refine ⟨_, enqueued.mirBlocks, ?_⟩
  rw [latchOutlines]
  cases (successorsOf function label).next with
  | none => exact ⟨rfl, rfl⟩
  | some target =>
      dsimp only
      split
      · exact ⟨rfl, rfl⟩
      · exact ⟨rfl, rfl⟩

/-- A visit keeps what was recorded and adds the code of its block. -/
theorem LoopState.visited_code {current : Traversal} {block : Llvm.Block}
    {selection : Selection} (isSsa : function.IsSsa)
    (before : LoopState module memorySize function current)
    (isNew : label ∉ current.visited) (isBlock : bbOf function label = some block)
    (lowered : lowerBlock module memorySize function label block current.selection =
      .ok selection) :
    Extends current.selection selection ∧ ∀ final, Extends selection final →
      ∃ blocks, selection.mirBlocks = current.selection.mirBlocks ++ blocks ∧
        BlockCode final (linkAddress memorySize) (instructionsOf function label) []
          (blocks.map (·.syllables)) := by
  rcases bind_eq_ok.mp lowered with ⟨ended, folded, lowered⟩
  cases lowered
  rcases exists_index_of_bbOf isBlock with ⟨node, -, isNode⟩
  have fresh : ∀ instruction ∈ block.instructions,
      Unrecorded (current.selection.begin label) instruction.ref :=
    before.unrecorded isSsa isBlock isNew
  have bounded : Bounded (current.selection.begin label) :=
    ⟨before.bounded.vregs, before.bounded.pointers⟩
  have distinct := nodup_refs isSsa isNode
  have grows := (extends_of_foldlM distinct fresh folded).1
  refine ⟨⟨grows.next, grows.vregs, grows.newer, grows.geps⟩, ?_⟩
  intro final extended
  have onward : Extends ended final :=
    ⟨extended.next, extended.vregs, extended.newer, extended.geps⟩
  rcases blockCode_of_foldlM bounded distinct fresh onward folded with ⟨blocks, isBlocks, code⟩
  refine ⟨blocks ++ [⟨ended.currentMirLabel, ended.syllables, ended.terminator⟩], ?_, ?_⟩
  · rw [Selection.finish, isBlocks, List.append_assoc]
    rfl
  · rw [instructionsOf_eq isBlock, List.map_append]
    exact code

theorem LoopState.exists_built (isSsa : function.IsSsa)
    (state : LoopState module memorySize function traversal) {final : Selection}
    (extended : Extends traversal.selection final) :
    ∃ pieces, Built function traversal.visited (traversal.selection.mirBlocks.map outline)
        pieces ∧
      Filled function (linkAddress memorySize) final
        (traversal.selection.mirBlocks.map (·.syllables)) pieces := by
  induction state with
  | start begun =>
      obtain ⟨entry, selection, -, bound, rfl⟩ := initialTraversal_eq_ok begun
      injection control_of_bindParams bound with noPhis noCalls noBlocks
      exact ⟨[], ⟨rfl, by simp [noBlocks], by simp, by simp⟩, by simp [noBlocks], by simp⟩
  | skip _ _ _ ih => exact ih extended
  | @visit current after label rest before _ isNew visited ih =>
      obtain ⟨block, selection, isBlock, lowered, enqueued⟩ := visitBlock_eq_ok visited
      have onward : Extends selection final := by
        rw [enqueued.rest] at extended
        exact ⟨extended.next, extended.vregs, extended.newer, extended.geps⟩
      rcases before.visited_code isSsa isNew isBlock lowered with ⟨grows, isCode⟩
      rcases ih (grows.trans onward) with ⟨pieces, built, filled⟩
      obtain ⟨blocks, isBlocks, isChunk⟩ := isChunk_of_lowerBlock isSsa isBlock lowered
      rcases isCode final onward with ⟨others, isOthers, code⟩
      cases List.append_cancel_left (isBlocks.symm.trans isOthers)
      rcases latch_of_enqueued enqueued with ⟨latch, isAfter, isOutline, isEmpty⟩
      rw [isBlocks, List.append_assoc] at isAfter
      have outlines := built.snoc isChunk (blocks.map (·.syllables))
      have codes := filled.snoc code (blocks.map outline)
        (latchOutlines function (current.visited ++ [label]) label)
      rw [← isOutline, ← List.map_append, ← List.map_append, ← isAfter] at outlines
      rw [← isEmpty, ← List.map_append, ← List.map_append, ← isAfter] at codes
      rw [enqueued.visited]
      rw [isOutline] at outlines
      exact ⟨_, outlines, codes⟩

/-- Copies leave labels and terminators alone. -/
theorem Copied.outlines {table : CopyTable} {blocks : List Block}
    (copied : Copied traversal table blocks) :
    blocks.map outline = traversal.selection.mirBlocks.map outline := by
  refine List.ext_getElem? ?_
  intro i
  rw [List.getElem?_map, List.getElem?_map]
  cases isMir : traversal.selection.mirBlocks[i]? with
  | some mir =>
      obtain ⟨code, isBlock, -⟩ := copied.block i mir isMir
      rw [isBlock]
      rfl
  | none =>
      have outside := List.getElem?_eq_none_iff.mp isMir
      rw [List.getElem?_eq_none_iff.mpr (by rw [copied.length]; exact outside)]

/-- A syllable that performs a copy for a phi. -/
def PerformsCopy (syllable : Syllable) : Prop :=
  ∃ dst src, syllable = syllableForCopy dst src

/-- Copies are put after the code of a block. -/
theorem Copied.contents {table : CopyTable} {blocks : List Block}
    (copied : Copied traversal table blocks) :
    List.Forall₂ (fun block code => ∃ copies : List Syllable,
        block.syllables = code ++ copies ∧ ∀ copy ∈ copies, PerformsCopy copy)
      blocks (traversal.selection.mirBlocks.map (·.syllables)) := by
  refine List.forall₂_iff_get.mpr ⟨by rw [List.length_map, copied.length], ?_⟩
  intro i inside isInside
  rw [List.length_map] at isInside
  rcases copied.block i _ (List.getElem?_eq_getElem isInside) with ⟨copies, isBlock, isCopies⟩
  have isHere : blocks.get ⟨i, inside⟩ =
      { traversal.selection.mirBlocks[i] with
        syllables := traversal.selection.mirBlocks[i].syllables ++ copies } := by
    rw [List.getElem?_eq_getElem inside] at isBlock
    exact Option.some.inj isBlock
  refine ⟨copies, by rw [isHere]; simp, ?_⟩
  rcases isCopies with rfl | ⟨label, entry, nextVreg, next, -, -, ordered⟩
  · simp
  · intro copy copyMem
    rcases (moves_of_serializeParallelCopies ordered).sound copy copyMem with ⟨dst, src, same, -⟩
    exact ⟨dst, src, same⟩

/-! ### Reachable blocks -/

theorem exists_label_of_edge (isSsa : function.IsSsa) (distinct : (blockLabels function).Nodup)
    {node index : BlockRef} (isLabel : (blockLabels function)[node]? = some label)
    (edge : Edge function.successors node index) :
    ∃ target, (blockLabels function)[index]? = some target ∧
      Edge (successorsOf function) label target := by
  have inside : index < function.blocks.length := by
    obtain ⟨block, isBlock⟩ := exists_block isLabel
    have isSuccessors : function.successors node = block.successors := by
      rw [Llvm.Function.successors, isBlock]
      rfl
    unfold Edge at edge
    rw [isSuccessors, Llvm.Block.successors] at edge
    cases isLast : block.instructions.getLast? with
    | none => simp [isLast] at edge
    | some last =>
        have targets := isSsa.blocks last (List.mem_flatMap.mpr
          ⟨block, List.mem_of_getElem? isBlock, List.mem_of_getLast? isLast⟩)
        rw [isLast, Option.map_some] at edge
        cases isOperation : last.operation with
        | condBr cond ifTrue ifFalse =>
            rw [isOperation] at targets edge
            exact targets index (by
              rcases edge with isNext | isLater
              · simp [Llvm.Operation.blocks, Option.some.inj isNext]
              · simp [Llvm.Operation.blocks, Option.some.inj isLater])
        | br target =>
            rw [isOperation] at targets edge
            exact targets index (by
              rcases edge with isNext | isLater
              · cases isNext
              · simp [Llvm.Operation.blocks, Option.some.inj isLater])
        | _ => simp [isOperation] at edge
  obtain ⟨target, isTarget⟩ := exists_label inside
  refine ⟨target, isTarget, ?_⟩
  unfold Edge
  rw [successorsOf_eq isSsa (found_of_nodup distinct isLabel)]
  rcases edge with isNext | isLater
  · exact .inl (by rw [isNext]; exact isTarget)
  · exact .inr (by rw [isLater]; exact isTarget)

/-- The visited blocks are the reachable ones. -/
theorem mem_blockOrder_iff (isSsa : function.IsSsa) (distinct : (blockLabels function).Nodup)
    {node : BlockRef} (isLabel : (blockLabels function)[node]? = some label) :
    label ∈ blockOrder function ↔ Reachable function.successors 0 node := by
  obtain ⟨entry, isEntry⟩ := exists_label (List.length_pos_iff.mpr isSsa.entry)
  have enough : 2 * (blockLabels function).length + 1 ≤ traversalFuel function := by
    simp [traversalFuel, blockLabels]
  rw [blockOrder, take_one_blockLabels isEntry,
    Worklist.mem_order_iff (List.mem_of_getElem? isEntry)
      (fun _ _ _ edge => mem_blockLabels_of_edge edge) enough]
  constructor
  · rintro ⟨path, isPath⟩
    obtain ⟨indices, index, isIndexPath, isIndex, -⟩ :=
      isPath.lift (fun label node => (blockLabels function)[node]? = some label) isEntry
        fun _ _ _ isLabel edge =>
          exists_index_of_edge isSsa (found_of_nodup distinct isLabel) edge
    obtain rfl := index_unique distinct isIndex isLabel
    exact ⟨indices, isIndexPath⟩
  · rintro ⟨indices, isPath⟩
    obtain ⟨path, name, isLabelPath, isName, -⟩ :=
      isPath.lift (fun node label => (blockLabels function)[node]? = some label) isEntry
        fun _ _ _ isLabel edge => by
          obtain ⟨target, isTarget, labelEdge⟩ := exists_label_of_edge isSsa distinct isLabel edge
          exact ⟨target, labelEdge, isTarget⟩
    obtain rfl := Option.some.inj (isName.symm.trans isLabel)
    exact ⟨path, isLabelPath⟩

/-- The false successor of a block is visited next, unless it was visited
before. -/
theorem adjacent_blockOrder (isSsa : function.IsSsa) :
    Worklist.Adjacent (successorsOf function) [] (blockOrder function) := by
  obtain ⟨entry, isEntry⟩ := exists_label (List.length_pos_iff.mpr isSsa.entry)
  have exploring : Worklist.Exploring (successorsOf function) (blockLabels function) [entry] [] :=
    ⟨List.nodup_nil, by simp, List.forall_mem_singleton.mpr (List.mem_of_getElem? isEntry),
      fun _ _ _ edge => mem_blockLabels_of_edge edge, by simp⟩
  rw [blockOrder, take_one_blockLabels isEntry]
  refine (Worklist.adjacent_start _ entry).order exploring ?_
  simp [Worklist.stepsLeft, traversalFuel, blockLabels, Nat.add_comm]

theorem entry_mem_blockOrder {entry : String}
    (isEntry : (blockLabels function)[0]? = some entry) : entry ∈ blockOrder function := by
  have enough : 2 * (blockLabels function).length + 1 ≤ traversalFuel function := by
    simp [traversalFuel, blockLabels]
  rw [blockOrder, take_one_blockLabels isEntry,
    Worklist.mem_order_iff (List.mem_of_getElem? isEntry)
      (fun _ _ _ edge => mem_blockLabels_of_edge edge) enough]
  exact ⟨[entry], .start⟩

theorem mem_blockOrder_of_edge (hasEntry : function.blocks ≠ []) {target : String}
    (isVisited : label ∈ blockOrder function) (edge : Edge (successorsOf function) label target) :
    target ∈ blockOrder function := by
  obtain ⟨entry, isEntry⟩ := exists_label (List.length_pos_iff.mpr hasEntry)
  have enough : 2 * (blockLabels function).length + 1 ≤ traversalFuel function := by
    simp [traversalFuel, blockLabels]
  rw [blockOrder, take_one_blockLabels isEntry,
    Worklist.mem_order_iff (List.mem_of_getElem? isEntry)
      (fun _ _ _ edge => mem_blockLabels_of_edge edge) enough] at isVisited ⊢
  obtain ⟨path, isPath⟩ := isVisited
  exact ⟨path ++ [target], isPath.step edge⟩

/-! ### Neighbours -/

theorem Linked.calls {last : String} {callees : List String} {outlines : List Outline}
    (linked : Linked label callees outlines last) :
    ∀ outline ∈ outlines, ∃ callee next, outline.terminator = .directCall callee next := by
  induction linked with
  | done label => simp
  | call rest ih => exact List.forall_mem_cons.mpr ⟨⟨_, _, rfl⟩, ih⟩

/-- Linked blocks begin with the label they are linked from. -/
theorem Linked.head {callees : List String} {front : List Outline} {last : Outline}
    (linked : Linked label callees front last.label) :
    ∃ first rest, front ++ [last] = first :: rest ∧ first.label = label := by
  cases front with
  | nil =>
      cases linked
      exact ⟨last, [], rfl, rfl⟩
  | cons first front =>
      cases linked
      exact ⟨_, _, rfl, rfl⟩

/-- A call continues in the next block. -/
theorem Linked.next {callees : List String} {left right : List Outline} {caller last : Outline}
    (linked : Linked label callees (left ++ caller :: right) last.label) {callee cont : String}
    (isCall : caller.terminator = .directCall callee cont) :
    ∃ first rest, right ++ [last] = first :: rest ∧ first.label = cont := by
  generalize isFront : left ++ caller :: right = front at linked
  generalize isLast : last.label = lastLabel at linked
  induction linked generalizing left with
  | done label => simp at isFront
  | @call label callee' next lastLabel callees outlines rest ih =>
      cases left with
      | nil =>
          obtain ⟨rfl, rfl⟩ := List.cons.inj isFront
          obtain ⟨-, rfl⟩ := Terminator.directCall.inj isCall
          subst isLast
          exact rest.head
      | cons other left => exact ih (List.cons.inj isFront).2 isLast

theorem latchOutlines_cases (function : Llvm.Function) (visited : List String) (label : String) :
    latchOutlines function visited label = [] ∧
        (∀ target, (successorsOf function label).next = some target → target ∉ visited) ∨
      ∃ target, (successorsOf function label).next = some target ∧ target ∈ visited ∧
        latchOutlines function visited label = [⟨label ++ "__latch__" ++ target, .jump target⟩] := by
  unfold latchOutlines
  cases (successorsOf function label).next with
  | none => exact .inl ⟨rfl, by simp⟩
  | some target =>
      by_cases isVisited : target ∈ visited
      · exact .inr ⟨target, rfl, isVisited, if_pos isVisited⟩
      · refine .inl ⟨if_neg isVisited, ?_⟩
        intro other isOther
        exact Option.some.inj isOther ▸ isVisited

/-- Where a block of a piece is: it calls, it ends the LLVM block, or it is the
latch. -/
theorem Built.place {visited : List String} {blocks : List Outline} {pieces : List Piece}
    (built : Built function visited blocks pieces) {before after : List Outline}
    {element : Outline} (isBlocks : blocks = before ++ element :: after) :
    ∃ front piece back, pieces = front ++ piece :: back ∧
      ∃ chunk last, piece.chunk = chunk ++ [last] ∧
        Linked piece.label ((instructionsOf function piece.label).filterMap calledBy) chunk
          last.label ∧
        EndsAs (successorsOf function piece.label) last.terminator ∧
        ((∃ left right, chunk = left ++ element :: right ∧
            after = right ++ last :: (piece.latch ++ back.flatMap Piece.outlines)) ∨
          (element = last ∧ after = piece.latch ++ back.flatMap Piece.outlines) ∨
          element ∈ piece.latch) := by
  rw [built.blocks] at isBlocks
  obtain ⟨front, piece, back, left, right, isPieces, isPiece, -, isAfter⟩ :=
    exists_split_of_flatMap isBlocks
  obtain ⟨chunk, last, isChunk, linked, ends⟩ := built.chunks piece (by simp [isPieces])
  refine ⟨front, piece, back, isPieces, chunk, last, isChunk, linked, ends, ?_⟩
  rw [Piece.outlines, isChunk, List.append_assoc, List.singleton_append] at isPiece
  rcases List.append_eq_append_iff.mp isPiece with ⟨rest, -, isRest⟩ | ⟨rest, isFront, isRest⟩
  · cases rest with
    | nil =>
        obtain ⟨rfl, rfl⟩ := List.cons.inj isRest
        exact .inr (.inl ⟨rfl, isAfter⟩)
    | cons head rest =>
        obtain ⟨-, isLatch⟩ := List.cons.inj isRest
        exact .inr (.inr (by simp [isLatch]))
  · cases rest with
    | nil =>
        obtain ⟨rfl, rfl⟩ := List.cons.inj isRest
        exact .inr (.inl ⟨rfl, isAfter⟩)
    | cons head rest =>
        obtain ⟨rfl, rfl⟩ := List.cons.inj isRest
        exact .inl ⟨left, rest, isFront, by rw [isAfter]; simp⟩

end

/-- The code of a function is laid out so that control falls through to the right
blocks: one piece for every reachable LLVM block with the code of its instructions,
its false successor or a latch after a branch, the continuation after a call, and
blocks for all targets.  Values have the registers of `final`, each its own. -/
structure FallsThrough (function : Llvm.Function) (memorySize : Nat) (final : Selection)
    (blocks : List Block) (pieces : List Piece) : Prop where
  laidOut : blocks.map outline = pieces.flatMap Piece.outlines
  contents : List.Forall₂ (fun block code => ∃ copies : List Syllable,
      block.syllables = code ++ copies ∧ ∀ copy ∈ copies, PerformsCopy copy)
    blocks (pieces.flatMap Piece.codes)
  code : ∀ piece ∈ pieces,
    BlockCode final (linkAddress memorySize) (instructionsOf function piece.label) [] piece.code
  registers : ∀ key other v, final.vregMap.lookup key = some v →
    final.vregMap.lookup other = some v → key = other
  once : (pieces.map (·.label)).Nodup
  reachable : ∀ (node : BlockRef) (label : String), (blockLabels function)[node]? = some label →
    (label ∈ pieces.map (·.label) ↔ Reachable function.successors 0 node)
  chunks : ∀ piece ∈ pieces, IsChunk function piece.label piece.chunk
  branch : ∀ before block after cond target, blocks = before ++ block :: after →
    block.terminator = .branch cond target →
      ∃ piece ∈ pieces, ∃ (node falseNode : BlockRef) (falseLabel : String) (next : Block)
        (rest : List Block), piece.chunk.getLast? = some (outline block) ∧
        (blockLabels function)[node]? = some piece.label ∧
        (function.successors node).next = some falseNode ∧
        (blockLabels function)[falseNode]? = some falseLabel ∧ after = next :: rest ∧
        ((piece.latch = [] ∧ next.label = falseLabel) ∨
          (piece.latch = [outline next] ∧ next.terminator = .jump falseLabel))
  call : ∀ before block after callee cont, blocks = before ++ block :: after →
    block.terminator = .directCall callee cont →
      ∃ next rest, after = next :: rest ∧ next.label = cont
  targets : ∀ block ∈ blocks, ∀ label,
    (block.terminator = .jump label ∨ ∃ cond, block.terminator = .branch cond label) →
      ∃ other ∈ blocks, other.label = label

section

variable {function : Llvm.Function} {blocks : List Block} {pieces : List Piece}

theorem EndsAs.branch {successors : Successors String} {terminator : Terminator} {cond : Mir.Reg}
    {target : String} (ends : EndsAs successors terminator)
    (isBranch : terminator = .branch cond target) :
    ∃ falseLabel, successors = ⟨some falseLabel, some target⟩ := by
  subst isBranch
  unfold EndsAs at ends
  split at ends
  · rename_i falseLabel trueLabel
    obtain ⟨other, same⟩ := ends
    obtain ⟨-, rfl⟩ := Terminator.branch.inj same
    exact ⟨falseLabel, rfl⟩
  · cases ends
  · cases ends

theorem EndsAs.edge {successors : String → Successors String} {label target : String}
    {terminator : Terminator} (ends : EndsAs (successors label) terminator)
    (isJump : terminator = .jump target ∨ ∃ cond, terminator = .branch cond target) :
    Edge successors label target := by
  unfold EndsAs at ends
  split at ends
  · rename_i falseLabel trueLabel isSuccessors
    obtain ⟨cond, rfl⟩ := ends
    obtain same | ⟨other, same⟩ := isJump
    · cases same
    · cases same
      exact .inr (by rw [isSuccessors])
  · rename_i trueLabel isSuccessors
    subst ends
    obtain same | ⟨other, same⟩ := isJump
    · cases same
      exact .inr (by rw [isSuccessors])
    · cases same
  · subst ends
    obtain same | ⟨other, same⟩ := isJump
    · cases same
    · cases same

/-- Every piece begins with a block that has its label. -/
theorem Built.exists_first {visited : List String} {outlines : List Outline}
    (built : Built function visited outlines pieces) {piece : Piece} (pieceMem : piece ∈ pieces) :
    ∃ first rest, piece.outlines = first :: rest ∧ first.label = piece.label := by
  obtain ⟨chunk, last, isChunk, linked, -⟩ := built.chunks piece pieceMem
  obtain ⟨first, rest, isFirst, isLabel⟩ := linked.head
  exact ⟨first, rest ++ piece.latch, by rw [Piece.outlines, isChunk, isFirst]; rfl, isLabel⟩

variable (isSsa : function.IsSsa) (distinct : (blockLabels function).Nodup)
  (built : Built function (blockOrder function) (blocks.map outline) pieces)

include built in
theorem Built.exists_block {label : String} (isVisited : label ∈ blockOrder function) :
    ∃ block ∈ blocks, block.label = label := by
  rw [← built.labels] at isVisited
  obtain ⟨piece, pieceMem, rfl⟩ := List.mem_map.mp isVisited
  obtain ⟨first, rest, isFirst, isLabel⟩ := built.exists_first pieceMem
  have firstMem : first ∈ blocks.map outline := by
    rw [built.blocks]
    exact List.mem_flatMap.mpr ⟨piece, pieceMem, by simp [isFirst]⟩
  obtain ⟨block, blockMem, rfl⟩ := List.mem_map.mp firstMem
  exact ⟨block, blockMem, isLabel⟩

include built in
theorem Built.call {before after : List Block} {block : Block} {callee cont : String}
    (isBlocks : blocks = before ++ block :: after)
    (isCall : block.terminator = .directCall callee cont) :
    ∃ next rest, after = next :: rest ∧ next.label = cont := by
  obtain ⟨front, piece, back, isPieces, chunk, last, -, linked, ends, inChunk | isLast | inLatch⟩ :=
    built.place (by rw [isBlocks, List.map_append, List.map_cons])
  · obtain ⟨left, right, isChunk, isAfter⟩ := inChunk
    rw [isChunk] at linked
    obtain ⟨first, rest, isFirst, isLabel⟩ := linked.next isCall
    rw [List.append_cons, isFirst, List.cons_append] at isAfter
    obtain ⟨next, others, rfl, rfl, -⟩ := List.map_eq_cons_iff.mp isAfter
    exact ⟨next, others, rfl, isLabel⟩
  · obtain ⟨rfl, -⟩ := isLast
    unfold EndsAs at ends
    rw [outline, isCall] at ends
    split at ends
    · obtain ⟨cond, same⟩ := ends
      cases same
    · cases ends
    · cases ends
  · rw [built.latches front piece back isPieces] at inLatch
    rcases latchOutlines_cases function (front.map (·.label) ++ [piece.label]) piece.label with
      ⟨isNil, -⟩ | ⟨target, -, -, isLatch⟩
    · rw [isNil] at inLatch
      cases inLatch
    · rw [isLatch, List.mem_singleton] at inLatch
      cases isCall.symm.trans (congrArg Outline.terminator inLatch)

include isSsa built in
theorem Built.targets {block : Block} (blockMem : block ∈ blocks) {label : String}
    (isTarget : block.terminator = .jump label ∨ ∃ cond, block.terminator = .branch cond label) :
    ∃ other ∈ blocks, other.label = label := by
  obtain ⟨before, after, isBlocks⟩ := List.append_of_mem blockMem
  obtain ⟨front, piece, back, isPieces, chunk, last, -, linked, ends, inChunk | isLast | inLatch⟩ :=
    built.place (by rw [isBlocks, List.map_append, List.map_cons])
  · obtain ⟨left, right, isChunk, -⟩ := inChunk
    obtain ⟨callee, next, isCall⟩ := linked.calls (outline block) (by simp [isChunk])
    obtain same | ⟨cond, same⟩ := isTarget
    · cases same.symm.trans isCall
    · cases same.symm.trans isCall
  · obtain ⟨rfl, -⟩ := isLast
    refine built.exists_block (mem_blockOrder_of_edge isSsa.entry ?_ (ends.edge isTarget))
    rw [← built.labels, isPieces]
    simp
  · rw [built.latches front piece back isPieces] at inLatch
    rcases latchOutlines_cases function (front.map (·.label) ++ [piece.label]) piece.label with
      ⟨isNil, -⟩ | ⟨target, -, isVisited, isLatch⟩
    · rw [isNil] at inLatch
      cases inLatch
    · rw [isLatch, List.mem_singleton] at inLatch
      have isJump : block.terminator = .jump target := congrArg Outline.terminator inLatch
      obtain same | ⟨cond, same⟩ := isTarget
      · obtain rfl := Terminator.jump.inj (same.symm.trans isJump)
        refine built.exists_block ?_
        rw [← built.labels, isPieces, List.map_append, List.map_cons, List.append_cons]
        exact List.mem_append_left _ isVisited
      · cases same.symm.trans isJump

include isSsa distinct built in
theorem Built.branch {before after : List Block} {block : Block} {cond : Mir.Reg} {target : String}
    (isBlocks : blocks = before ++ block :: after)
    (isBranch : block.terminator = .branch cond target) :
    ∃ piece ∈ pieces, ∃ (node falseNode : BlockRef) (falseLabel : String) (next : Block)
      (rest : List Block), piece.chunk.getLast? = some (outline block) ∧
      (blockLabels function)[node]? = some piece.label ∧
      (function.successors node).next = some falseNode ∧
      (blockLabels function)[falseNode]? = some falseLabel ∧ after = next :: rest ∧
      ((piece.latch = [] ∧ next.label = falseLabel) ∨
        (piece.latch = [outline next] ∧ next.terminator = .jump falseLabel)) := by
  obtain ⟨front, piece, back, isPieces, chunk, last, isChunk, linked, ends,
    inChunk | isLast | inLatch⟩ := built.place (by rw [isBlocks, List.map_append, List.map_cons])
  · obtain ⟨left, right, isChunk, -⟩ := inChunk
    obtain ⟨callee, next, isCall⟩ := linked.calls (outline block) (by simp [isChunk])
    cases isBranch.symm.trans isCall
  · obtain ⟨rfl, isAfter⟩ := isLast
    obtain ⟨falseLabel, isSuccessors⟩ := ends.branch isBranch
    have isNext : (successorsOf function piece.label).next = some falseLabel := by
      rw [isSuccessors]
    have isVisited : blockOrder function =
        front.map (·.label) ++ piece.label :: back.map (·.label) := by
      rw [← built.labels, isPieces, List.map_append, List.map_cons]
    obtain ⟨node, isNode, falseNode, isFalseNode, isFalseLabel⟩ : ∃ node : BlockRef,
        (blockLabels function)[node]? = some piece.label ∧ ∃ falseNode,
          (function.successors node).next = some falseNode ∧
            (blockLabels function)[falseNode]? = some falseLabel := by
      cases isBlock : bbOf function piece.label with
      | none => simp [successorsOf, instructionsOf, isBlock] at isNext
      | some found =>
          obtain ⟨node, isNode, -⟩ := exists_index_of_bbOf isBlock
          rw [successorsOf_eq isSsa (found_of_nodup distinct isNode)] at isNext
          exact ⟨node, isNode, Option.bind_eq_some_iff.mp isNext⟩
    refine ⟨piece, by simp [isPieces], node, falseNode, falseLabel, ?_⟩
    rw [isChunk, List.getLast?_concat]
    rcases latchOutlines_cases function (front.map (·.label) ++ [piece.label]) piece.label with
      ⟨isNil, unvisited⟩ | ⟨other, isOther, -, isLatch⟩
    · rw [← built.latches front piece back isPieces] at isNil
      rw [isNil, List.nil_append] at isAfter
      have adjacent := adjacent_blockOrder isSsa
      cases back with
      | nil =>
          have isEmpty := adjacent.last _ _ isVisited falseLabel isNext
            (isVisited ▸ unvisited falseLabel isNext)
          cases isEmpty
      | cons follower back =>
          have isFollower := adjacent.inner _ _ _ _ isVisited falseLabel isNext
            (unvisited falseLabel isNext)
          obtain ⟨first, rest, isFirst, isLabel⟩ := built.exists_first
            (show follower ∈ pieces by simp [isPieces])
          rw [List.flatMap_cons, isFirst, List.cons_append] at isAfter
          obtain ⟨next, others, rfl, rfl, -⟩ := List.map_eq_cons_iff.mp isAfter
          exact ⟨next, others, rfl, isNode, isFalseNode, isFalseLabel, rfl,
            .inl ⟨isNil, isLabel.trans isFollower⟩⟩
    · obtain rfl := Option.some.inj (isOther.symm.trans isNext)
      rw [← built.latches front piece back isPieces] at isLatch
      rw [isLatch, List.singleton_append] at isAfter
      obtain ⟨next, others, rfl, isOutline, -⟩ := List.map_eq_cons_iff.mp isAfter
      exact ⟨next, others, rfl, isNode, isFalseNode, isFalseLabel, rfl,
        .inr ⟨isLatch.trans (by rw [isOutline]), congrArg Outline.terminator isOutline⟩⟩
  · rw [built.latches front piece back isPieces] at inLatch
    rcases latchOutlines_cases function (front.map (·.label) ++ [piece.label]) piece.label with
      ⟨isNil, -⟩ | ⟨other, -, -, isLatch⟩
    · rw [isNil] at inLatch
      cases inLatch
    · rw [isLatch, List.mem_singleton] at inLatch
      cases isBranch.symm.trans (congrArg Outline.terminator inLatch)

end

/-- The layout of a function that is lowered. -/
theorem exists_fallsThrough {module : Llvm.Module} {memorySize : Nat} {function : Llvm.Function}
    {order : CopyOrder} {lowered : Mir.Function} (isSsa : function.IsSsa)
    (distinct : LabelsDistinct function)
    (isLowered : lowerFunction order module memorySize function = .ok lowered) :
    ∃ final pieces, FallsThrough function memorySize final lowered.blocks pieces := by
  obtain ⟨traversal, table, isSelected, -, copied⟩ := lowerFunction_eq_ok isLowered
  obtain ⟨laidOut, isVisited⟩ := laidOut_of_selectFunction isSelected
  have isState := loopState_of_selectFunction isSsa.entry isSelected
  obtain ⟨pieces, built, filled⟩ := isState.exists_built isSsa (.refl _)
  rcases (complete_of_selectFunction isSsa isSelected).owned with ⟨owner, owned⟩
  rw [← copied.outlines, isVisited] at built
  have contents := copied.contents
  rw [filled.codes] at contents
  refine ⟨traversal.selection, pieces, built.blocks, contents, filled.own, ?_, ?_, ?_,
    built.chunks, ?_, ?_, ?_⟩
  · intro key other v isKey isOther
    exact Option.some.inj ((owned.bound key v isKey).2.symm.trans (owned.bound other v isOther).2)
  · rw [built.labels, ← isVisited]
    exact laidOut.distinct
  · intro node label isLabel
    rw [built.labels]
    exact mem_blockOrder_iff isSsa distinct.blocks isLabel
  · exact fun _ _ _ _ _ isBlocks isBranch => built.branch isSsa distinct.blocks isBlocks isBranch
  · exact fun _ _ _ _ _ isBlocks isCall => built.call isBlocks isCall
  · exact fun _ blockMem _ isTarget => built.targets isSsa blockMem isTarget

/-! ### Memory sizes -/

section

variable {module : Llvm.Module} {memorySize : Nat} {function : Llvm.Function}

/-- The memory size matters to calls only. -/
theorem verdict_lowered_iff {seen : List Instruction} {instruction : Instruction}
    (supported : verdict module 0 function seen instruction = .lowered) :
    verdict module memorySize function seen instruction = .lowered ↔
      isCall instruction = false ∨ Addressable memorySize := by
  unfold verdict at supported ⊢
  unfold isCall
  cases isOperation : instruction.operation with
  | call callee arguments =>
      rw [isOperation] at supported
      cases callee with
      | indirect => cases supported
      | function target =>
          dsimp only at supported ⊢
          split at supported
          · cases supported
          · rename_i defined
            rw [if_neg defined]
            split at supported
            · rename_i resolved
              simp [resolved.1]
            · cases supported
  | _ =>
      rw [isOperation] at supported
      exact iff_of_true supported (.inl rfl)

theorem verdictAfter_lowered_iff {seen instructions : List Instruction}
    (supported : verdictAfter module 0 function seen instructions = .lowered) :
    verdictAfter module memorySize function seen instructions = .lowered ↔
      (∀ instruction ∈ instructions, isCall instruction = false) ∨ Addressable memorySize := by
  induction instructions generalizing seen with
  | nil => simp [verdictAfter]
  | cons instruction instructions ih =>
      rw [verdictAfter, Verdict.andThen_eq_lowered] at supported ⊢
      rw [verdict_lowered_iff supported.1, ih supported.2, List.forall_mem_cons]
      tauto

theorem functionVerdict_lowered_iff (supported : functionVerdict module 0 function = .lowered) :
    functionVerdict module memorySize function = .lowered ↔
      (∀ instruction ∈ visitedInstructions function, isCall instruction = false) ∨
        Addressable memorySize := by
  unfold functionVerdict at supported ⊢
  split at supported
  · rename_i params
    rw [if_pos params]
    rw [Verdict.andThen_eq_lowered] at supported ⊢
    rw [verdictAfter_lowered_iff supported.1, and_iff_left supported.2]
  · cases supported

end

/-- A function of the supported subset is lowered, to blocks whose fall-through is right,
exactly if it calls nothing or the place of the link register can be computed. -/
theorem lowerFunction_fallsThrough_iff {module : Llvm.Module} {function : Llvm.Function}
    (isSsa : function.IsSsa) (distinct : LabelsDistinct function)
    (supported : functionVerdict module 0 function = .lowered) (order : CopyOrder)
    (memorySize : Nat) :
    (∃ lowered final pieces, lowerFunction order module memorySize function = .ok lowered ∧
        FallsThrough function memorySize final lowered.blocks pieces) ↔
      (∀ instruction ∈ visitedInstructions function, isCall instruction = false) ∨
        Addressable memorySize := by
  have hasVerdict := hasVerdict_lowerFunction isSsa order module memorySize
  rw [← functionVerdict_lowered_iff supported]
  constructor
  · rintro ⟨lowered, -, -, isLowered, -⟩
    rw [isLowered] at hasVerdict
    exact hasVerdict.of_ok
  · intro isLowered
    rw [isLowered] at hasVerdict
    rcases hasVerdict with ⟨lowered, isLowered⟩
    rcases exists_fallsThrough isSsa distinct isLowered with ⟨final, pieces, fallsThrough⟩
    exact ⟨lowered, final, pieces, isLowered, fallsThrough⟩

/-- A call before a loop whose false edge leads back to itself. -/
def countedLoop : Llvm.Function where
  name := "counted_loop"
  params := [⟨0, .int 64⟩]
  returnType := .int 64
  blocks :=
    [⟨"entry", [⟨1, .int 64, .call (.function "identity") [.ref 0 (.int 64)]⟩, ⟨2, .void, .br 1⟩]⟩,
      ⟨"loop", [⟨3, .int 64, .phi [(.constInt 64 0, 0), (.ref 4 (.int 64), 1)]⟩,
        ⟨4, .int 64, .binary .add (.ref 3 (.int 64)) (.constInt 64 1)⟩,
        ⟨5, .int 1, .icmp .eq (.ref 4 (.int 64)) (.ref 1 (.int 64))⟩,
        ⟨6, .void, .condBr (.ref 5 (.int 1)) 2 1⟩]⟩,
      ⟨"exit", [⟨7, .void, .ret (some (.ref 1 (.int 64)))⟩]⟩]

theorem lowerFunction_fallsThrough_iff_countedLoop :
    ∃ lowered final pieces, lowerFunction insertionOrder [identityFunction, countedLoop] 4096
        countedLoop = .ok lowered ∧ FallsThrough countedLoop 4096 final lowered.blocks pieces :=
  (lowerFunction_fallsThrough_iff (Llvm.Function.isSsa_of_checkSsa (by decide +kernel))
    ⟨by decide +kernel, by decide +kernel, by decide +kernel⟩ (by decide +kernel) insertionOrder
    4096).mpr (.inr (by decide))

/-- Lowering a call aborts if fifteen times the memory size is not a signed integer. -/
theorem lowerFunction_countedLoop_aborts :
    countedLoop.IsSsa ∧ LabelsDistinct countedLoop ∧
      functionVerdict [identityFunction, countedLoop] 0 countedLoop = .lowered ∧
      lowerFunction insertionOrder [identityFunction, countedLoop] 614891469123651721 countedLoop =
        .error (.panic "attempt to multiply with overflow") :=
  ⟨Llvm.Function.isSsa_of_checkSsa (by decide +kernel),
    ⟨by decide +kernel, by decide +kernel, by decide +kernel⟩, by decide +kernel,
    by decide +kernel⟩

end VliwCompiler.Isel
