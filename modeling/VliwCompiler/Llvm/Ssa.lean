import VliwCompiler.Llvm.Syntax
import VliwCompiler.Data.Worklist

/-!
# SSA form

Facts about a function that LLVM guarantees: values are defined once, branches
stand at the end of blocks, and the definition of a value dominates its uses.
Edges through terminators that the backend does not support are left out of the
control flow graph, which makes the condition on dominators weaker.
-/

namespace VliwCompiler.Llvm

open Worklist (Successors Dominates Edge Reachable)

/-! ### Control flow -/

/-- The blocks an operation refers to. -/
def Operation.blocks : Operation → List BlockRef
  | .phi incoming => incoming.map (·.2)
  | .condBr _ ifTrue ifFalse => [ifTrue, ifFalse]
  | .br target => [target]
  | _ => []

/-- The successors of a block; the false target of a conditional branch comes
next. -/
def Block.successors (block : Block) : Successors BlockRef :=
  match block.instructions.getLast?.map Instruction.operation with
  | some (.condBr _ ifTrue ifFalse) => ⟨some ifFalse, some ifTrue⟩
  | some (.br target) => ⟨none, some target⟩
  | _ => {}

/-- The control flow graph of a function. -/
def Function.successors (function : Function) (block : BlockRef) : Successors BlockRef :=
  ((function.blocks[block]?).map Block.successors).getD {}

/-- All instructions of a function. -/
def Function.instructions (function : Function) : List Instruction :=
  function.blocks.flatMap (·.instructions)

/-! ### Definitions and uses -/

/-- The type is one that the result of the operation can have. -/
def Operation.hasType : Operation → Ty → Bool
  | .ret _, type | .br _, type | .store _ _, type => type = .void
  | .condBr cond _ _, type => type = .void && cond.type = .int 1
  | .getElementPtr _ _ _, type => type = .ptr || type = .other
  | .phi _, type | .icmp _ _ _, type | .binary _ _ _, type | .load _, type => type ≠ .void
  | _, _ => true

/-- The types of operands and of the result fit the operation. -/
structure Instruction.WellTyped (instruction : Instruction) : Prop where
  operands : ∀ operand ∈ instruction.operation.operands, operand.type ≠ .void
  result : instruction.operation.hasType instruction.type = true

instance (instruction : Instruction) : Decidable instruction.WellTyped :=
  decidable_of_iff
    ((∀ operand ∈ instruction.operation.operands, operand.type ≠ .void) ∧
      instruction.operation.hasType instruction.type = true)
    ⟨fun both => ⟨both.1, both.2⟩, fun typed => ⟨typed.operands, typed.result⟩⟩

/-- One of the instructions defines the value. -/
def Defines (instructions : List Instruction) (key : ValueRef) (type : Ty) : Prop :=
  ∃ definition ∈ instructions, definition.ref = key ∧ definition.type = type

/-- The value is a parameter. -/
def Function.HasParam (function : Function) (key : ValueRef) (type : Ty) : Prop :=
  ∃ param ∈ function.params, param.ref = key ∧ param.type = type

/-- An instruction of the block defines the value. -/
def Function.DefinedIn (function : Function) (node : BlockRef) (key : ValueRef) (type : Ty) :
    Prop :=
  ∃ block, function.blocks[node]? = some block ∧ Defines block.instructions key type

/-- A function in SSA form. -/
structure Function.IsSsa (function : Function) : Prop where
  entry : function.blocks ≠ []
  distinct : (function.params.map (·.ref) ++ function.instructions.map (·.ref)).Nodup
  typed : ∀ instruction ∈ function.instructions, instruction.WellTyped
  terminators : ∀ block ∈ function.blocks, ∀ front instruction back,
    block.instructions = front ++ instruction :: back →
      instruction.operation.isTerminator = true → back = []
  blocks : ∀ instruction ∈ function.instructions, ∀ block ∈ instruction.operation.blocks,
    block < function.blocks.length
  uses : ∀ node block front instruction back, function.blocks[node]? = some block →
    block.instructions = front ++ instruction :: back →
    (∀ incoming, instruction.operation ≠ .phi incoming) →
      ∀ key type, .ref key type ∈ instruction.operation.operands →
        function.HasParam key type ∨ Defines front key type ∨
          ∃ above, above ≠ node ∧ Dominates function.successors 0 above node ∧
            function.DefinedIn above key type
  phis : ∀ instruction ∈ function.instructions, ∀ incoming,
    instruction.operation = .phi incoming → ∀ operand pred, (operand, pred) ∈ incoming →
      (∀ key type, operand = .ref key type → function.HasParam key type ∨
        ∃ above, Dominates function.successors 0 above pred ∧ function.DefinedIn above key type) ∧
      ∀ other, (other, pred) ∈ incoming → other = operand

/-- Only the last instruction of a block is a terminator. -/
theorem Function.IsSsa.straight {function : Function} (isSsa : function.IsSsa) {block : Block}
    (blockMem : block ∈ function.blocks) {body : List Instruction} {last : Instruction}
    (isLast : block.instructions = body ++ [last]) :
    ∀ instruction ∈ body, instruction.operation.isTerminator = false := by
  intro instruction instructionMem
  obtain ⟨front, back, rfl⟩ := List.append_of_mem instructionMem
  rw [Bool.eq_false_iff]
  intro isTerminator
  have atEnd := isSsa.terminators block blockMem front instruction (back ++ [last])
    (by simp [isLast]) isTerminator
  simp at atEnd

/-- Edges lead to blocks of the function. -/
theorem Function.IsSsa.edge_inside {function : Function} (isSsa : function.IsSsa)
    {node target : BlockRef} (edge : Edge function.successors node target) :
    target < function.blocks.length := by
  unfold Edge Function.successors at edge
  cases isBlock : function.blocks[node]? with
  | none => simp [isBlock] at edge
  | some block =>
      rw [isBlock, Option.map_some, Option.getD_some] at edge
      have isTarget : ∃ last ∈ block.instructions, target ∈ last.operation.blocks := by
        unfold Block.successors at edge
        split at edge
        · rename_i cond ifTrue ifFalse isLast
          rcases Option.map_eq_some_iff.mp isLast with ⟨last, atEnd, isBranch⟩
          refine ⟨last, List.mem_of_getLast? atEnd, ?_⟩
          rw [isBranch, Operation.blocks]
          rcases edge with isNext | isLater
          · cases Option.some.inj isNext
            simp
          · cases Option.some.inj isLater
            simp
        · rename_i jump isLast
          rcases Option.map_eq_some_iff.mp isLast with ⟨last, atEnd, isJump⟩
          refine ⟨last, List.mem_of_getLast? atEnd, ?_⟩
          rw [isJump, Operation.blocks]
          rcases edge with isNext | isLater
          · cases isNext
          · cases Option.some.inj isLater
            simp
        · rcases edge with isNext | isLater
          · cases isNext
          · cases isLater
      rcases isTarget with ⟨last, lastMem, targetMem⟩
      exact isSsa.blocks last
        (List.mem_flatMap.mpr ⟨block, List.mem_of_getElem? isBlock, lastMem⟩) target targetMem

/-- Reachable blocks are blocks of the function. -/
theorem Function.IsSsa.reachable_inside {function : Function} (isSsa : function.IsSsa)
    {node : BlockRef} (reachable : Reachable function.successors 0 node) :
    node < function.blocks.length := by
  rcases reachable with ⟨path, isPath⟩
  cases isPath with
  | start => exact List.length_pos_iff.mpr isSsa.entry
  | step before edge => exact isSsa.edge_inside edge

/-! ### Checking SSA form -/

/-- The operand is a parameter or defined by one of the instructions. -/
def Function.isKnown (function : Function) (instructions : List Instruction) : Operand → Bool
  | .ref key type =>
      function.params.any (fun param => param.ref = key && param.type = type) ||
        instructions.any fun definition => definition.ref = key && definition.type = type
  | _ => true

/-- The instructions of the entry block. -/
def Function.entryInstructions (function : Function) : List Instruction :=
  (function.blocks[0]?.map (·.instructions)).getD []

/-- The operands of an instruction are known before it; the entry block is known
in all other blocks. -/
def Function.checkUses (function : Function) (node : BlockRef) (front : List Instruction)
    (instruction : Instruction) : Bool :=
  match instruction.operation with
  | .phi incoming => incoming.all fun (operand, pred) =>
      function.isKnown (function.entryInstructions ++
        (function.blocks[pred]?.map (·.instructions)).getD []) operand &&
      incoming.all fun (other, otherPred) => otherPred ≠ pred || other = operand
  | operation => operation.operands.all
      (function.isKnown (if node = 0 then front else function.entryInstructions ++ front))

/-- The instructions of a block are in order. -/
def Function.checkBlock (function : Function) (node : BlockRef) (block : Block) : Bool :=
  (List.range block.instructions.length).all fun k =>
    (block.instructions[k]?).all fun instruction =>
      function.checkUses node (block.instructions.take k) instruction &&
        (!instruction.operation.isTerminator || k + 1 = block.instructions.length)

/-- A check for SSA form that knows two dominators of a block, itself and the
entry. -/
def Function.checkSsa (function : Function) : Bool :=
  function.blocks ≠ [] &&
    (function.params.map (·.ref) ++ function.instructions.map (·.ref)).Nodup &&
    (function.instructions.all fun instruction => instruction.WellTyped &&
      instruction.operation.blocks.all (· < function.blocks.length)) &&
    (List.range function.blocks.length).all fun node =>
      (function.blocks[node]?).all (function.checkBlock node)

theorem dominates_entry {function : Function} (node : BlockRef) :
    Dominates function.successors 0 0 node := by
  intro path isPath
  induction isPath with
  | start => exact List.mem_cons_self
  | step _ _ ih => exact List.mem_append_left _ ih

theorem dominates_self {function : Function} (node : BlockRef) :
    Dominates function.successors 0 node node := by
  intro path isPath
  cases isPath with
  | start => exact List.mem_cons_self
  | step _ _ => exact List.mem_append_right _ List.mem_cons_self

theorem Function.isKnown_eq_true {function : Function} {instructions : List Instruction}
    {key : ValueRef} {type : Ty} :
    function.isKnown instructions (.ref key type) = true ↔
      function.HasParam key type ∨ Defines instructions key type := by
  simp [Function.isKnown, Function.HasParam, Defines]

theorem Function.definedIn_entry {function : Function} {key : ValueRef} {type : Ty}
    (defines : Defines function.entryInstructions key type) : function.DefinedIn 0 key type := by
  unfold Function.entryInstructions at defines
  cases isBlock : function.blocks[0]? with
  | none =>
      obtain ⟨definition, definitionMem, -⟩ := defines
      simp [isBlock] at definitionMem
  | some block =>
      rw [isBlock] at defines
      exact ⟨block, isBlock, defines⟩

/-- What the check of a block says about one of its instructions. -/
theorem Function.checkBlock_spec {function : Function} {node : BlockRef} {block : Block}
    (checked : function.checkBlock node block = true) {front back : List Instruction}
    {instruction : Instruction} (isInstructions : block.instructions = front ++ instruction :: back) :
    function.checkUses node front instruction = true ∧
      (instruction.operation.isTerminator = true → back = []) := by
  rw [Function.checkBlock, List.all_eq_true] at checked
  have isHere := checked front.length (by simp [isInstructions])
  rw [isInstructions] at isHere
  simp only [List.getElem?_append_right (Nat.le_refl _), Nat.sub_self, List.getElem?_cons_zero,
    Option.all_some, List.take_left, Bool.and_eq_true, Bool.or_eq_true, Bool.not_eq_true',
    decide_eq_true_eq, List.length_append, List.length_cons] at isHere
  refine ⟨isHere.1, ?_⟩
  intro isTerminator
  rcases isHere.2 with notTerminator | isLast
  · rw [isTerminator] at notTerminator
    cases notTerminator
  · exact List.length_eq_zero_iff.mp (by omega)

/-- The check for SSA form is right. -/
theorem Function.isSsa_of_checkSsa {function : Function} (checked : function.checkSsa = true) :
    function.IsSsa := by
  simp only [Function.checkSsa, Bool.and_eq_true, decide_eq_true_eq, List.all_eq_true,
    List.mem_range] at checked
  obtain ⟨⟨⟨hasEntry, distinct⟩, instructions⟩, blocks⟩ := checked
  have isChecked : ∀ (node : BlockRef) (block : Block), function.blocks[node]? = some block →
      function.checkBlock node block = true := by
    intro node block isBlock
    obtain ⟨inside, -⟩ := List.getElem?_eq_some_iff.mp isBlock
    simpa [isBlock] using blocks node inside
  refine ⟨hasEntry, distinct, fun _ instructionMem => (instructions _ instructionMem).1, ?_,
    fun _ instructionMem => (instructions _ instructionMem).2, ?_, ?_⟩
  · intro block blockMem front instruction back isInstructions
    obtain ⟨node, isBlock⟩ := List.mem_iff_getElem?.mp blockMem
    exact (function.checkBlock_spec (isChecked node block isBlock) isInstructions).2
  · intro node block front instruction back isBlock isInstructions notPhi key type isOperand
    have uses := (function.checkBlock_spec (isChecked node block isBlock) isInstructions).1
    unfold Function.checkUses at uses
    split at uses
    · rename_i incoming isPhi
      exact absurd isPhi (notPhi incoming)
    · have known := List.all_eq_true.mp uses _ isOperand
      rcases Function.isKnown_eq_true.mp known with isParam | defines
      · exact .inl isParam
      · split at defines
        · exact .inr (.inl defines)
        · rename_i notEntry
          obtain ⟨definition, definitionMem, isDefinition⟩ := defines
          rcases List.mem_append.mp definitionMem with inEntry | inFront
          · exact .inr (.inr ⟨0, Ne.symm notEntry, dominates_entry node,
              Function.definedIn_entry ⟨definition, inEntry, isDefinition⟩⟩)
          · exact .inr (.inl ⟨definition, inFront, isDefinition⟩)
  · intro instruction instructionMem incoming isPhi operand pred incomingMem
    obtain ⟨block, blockMem, inBlock⟩ := List.mem_flatMap.mp instructionMem
    obtain ⟨node, isBlock⟩ := List.mem_iff_getElem?.mp blockMem
    obtain ⟨front, back, isInstructions⟩ := List.append_of_mem inBlock
    have uses := (function.checkBlock_spec (isChecked node block isBlock) isInstructions).1
    rw [Function.checkUses, isPhi] at uses
    have both := Bool.and_eq_true_iff.mp (List.all_eq_true.mp uses _ incomingMem)
    refine ⟨?_, ?_⟩
    · rintro key type rfl
      rcases Function.isKnown_eq_true.mp both.1 with isParam | ⟨definition, definitionMem,
        isDefinition⟩
      · exact .inl isParam
      · rcases List.mem_append.mp definitionMem with inEntry | inPred
        · exact .inr ⟨0, dominates_entry pred,
            Function.definedIn_entry ⟨definition, inEntry, isDefinition⟩⟩
        · cases isPred : function.blocks[pred]? with
          | none => simp [isPred] at inPred
          | some predBlock =>
              rw [isPred] at inPred
              exact .inr ⟨pred, dominates_self pred, predBlock, isPred, definition, inPred,
                isDefinition⟩
    · intro other otherMem
      simpa using List.all_eq_true.mp both.2 _ otherMem

end VliwCompiler.Llvm
