import VliwCompiler.Isel.Execution
import VliwCompiler.Isel.EdgeCode
import VliwCompiler.Llvm.Semantics

/-!
# Values in registers

How the registers of the selected code carry the values of an LLVM function:
flags in predicate registers, integers in the low bits of words, and pointers
with constant indices as displacements from the registers of other pointers.
-/

namespace VliwCompiler.Isel

open Asm (Opcode I64)
open Mir (Reg Value)
open Llvm (BlockRef ValueRef Ty Operand Instruction Env Frame)
open Worklist (Dominates Edge)
open Machine (State Word)

/-! ### Types of values -/

/-- The type of a parameter or of the result of an instruction. -/
def typeOf (function : Llvm.Function) (key : ValueRef) : Ty :=
  (((function.params.find? (·.ref = key)).map (·.type)).or
    ((function.instructions.find? (·.ref = key)).map (·.type))).getD .void

section

variable {function : Llvm.Function} {key : ValueRef} {type : Ty}

theorem find?_of_nodup {α β : Type} [DecidableEq β] {list : List α} {ref : α → β} {item : α}
    (distinct : (list.map ref).Nodup) (itemMem : item ∈ list) :
    list.find? (fun other => ref other = ref item) = some item := by
  cases found : list.find? fun other => ref other = ref item with
  | none =>
      have absent := List.find?_eq_none.mp found item itemMem
      simp at absent
  | some other =>
      have same : ref other = ref item := by simpa using List.find?_some found
      rw [List.inj_on_of_nodup_map distinct (List.mem_of_find?_eq_some found) itemMem same]

theorem typeOf_param (isSsa : function.IsSsa) {param : Llvm.Param}
    (paramMem : param ∈ function.params) : typeOf function param.ref = param.type := by
  rw [typeOf, find?_of_nodup (List.nodup_append.mp isSsa.distinct).1 paramMem]
  rfl

theorem typeOf_instruction (isSsa : function.IsSsa) {instruction : Instruction}
    (instructionMem : instruction ∈ function.instructions) :
    typeOf function instruction.ref = instruction.type := by
  have absent : function.params.find? (·.ref = instruction.ref) = none := by
    rw [List.find?_eq_none]
    intro param paramMem
    have apart := (List.nodup_append.mp isSsa.distinct).2.2 param.ref
      (List.mem_map_of_mem paramMem) instruction.ref (List.mem_map_of_mem instructionMem)
    simpa using apart
  rw [typeOf, absent, find?_of_nodup (List.nodup_append.mp isSsa.distinct).2.1 instructionMem]
  rfl

theorem typeOf_hasParam (isSsa : function.IsSsa) (hasParam : function.HasParam key type) :
    typeOf function key = type := by
  obtain ⟨param, paramMem, rfl, rfl⟩ := hasParam
  exact typeOf_param isSsa paramMem

theorem typeOf_defines (isSsa : function.IsSsa) {instructions : List Instruction}
    (included : ∀ instruction ∈ instructions, instruction ∈ function.instructions)
    (defines : Llvm.Defines instructions key type) : typeOf function key = type := by
  obtain ⟨definition, definitionMem, rfl, rfl⟩ := defines
  exact typeOf_instruction isSsa (included definition definitionMem)

end

/-! ### Recorded values -/

section

variable {function : Llvm.Function} {seen all : List Instruction} {selection final : Selection}
  {key : ValueRef}

/-- A folded pointer is the result of an instruction. -/
theorem exists_folds_of_offsetsOf {offset : I64} (isOffset : (offsetsOf seen).lookup key = some offset) :
    ∃ instruction ∈ seen, folds instruction = true ∧ instruction.ref = key := by
  induction seen using List.reverseRecOn generalizing offset with
  | nil => cases isOffset
  | append_singleton seen instruction ih =>
      rw [offsetsOf_snoc] at isOffset
      cases isFold : folds instruction with
      | false =>
          rw [addOffset_of_not_folds isFold] at isOffset
          obtain ⟨other, otherMem, found⟩ := ih isOffset
          exact ⟨other, List.mem_append_left _ otherMem, found⟩
      | true =>
          by_cases same : key = instruction.ref
          · exact ⟨instruction, by simp, isFold, same.symm⟩
          · have isOlder : (offsetsOf seen).lookup key = some offset := by
              unfold addOffset at isOffset
              split at isOffset
              · split at isOffset
                · rwa [AList.lookup_insert_ne same] at isOffset
                · exact isOffset
              · exact isOffset
            obtain ⟨other, otherMem, found⟩ := ih isOlder
            exact ⟨other, List.mem_append_left _ otherMem, found⟩

theorem Recorded.exists_folds (recorded : Recorded function seen selection) {pointer : Value × I64}
    (isFolded : selection.gepMap.lookup key = some pointer) :
    ∃ instruction ∈ seen, folds instruction = true ∧ instruction.ref = key := by
  have isOffset := recorded.offsets key
  rw [isFolded] at isOffset
  exact exists_folds_of_offsetsOf isOffset.symm

/-- Values of different instructions are different. -/
theorem eq_of_ref_eq (isSsa : function.IsSsa) {first second : Instruction}
    (firstMem : first ∈ function.instructions) (secondMem : second ∈ function.instructions)
    (same : first.ref = second.ref) : first = second :=
  List.inj_on_of_nodup_map (List.nodup_append.mp isSsa.distinct).2.1 firstMem secondMem same

theorem ref_ne_param (isSsa : function.IsSsa) {instruction : Instruction}
    (instructionMem : instruction ∈ function.instructions) :
    instruction.ref ∉ function.params.map (·.ref) := by
  intro isParam
  exact (List.nodup_append.mp isSsa.distinct).2.2 _ isParam _ (List.mem_map_of_mem instructionMem)
    rfl

variable (isSsa : function.IsSsa) (recorded : Recorded function all final)
  (included : ∀ instruction ∈ all, instruction ∈ function.instructions)

include isSsa recorded included

/-- A value has a register or is folded, not both. -/
theorem notFolded_of_bound {v : Nat} (isBound : final.vregMap.lookup key = some v) :
    final.gepMap.lookup key = none := by
  cases isFolded : final.gepMap.lookup key with
  | none => rfl
  | some pointer =>
      obtain ⟨folded, foldedMem, isFold, rfl⟩ := recorded.exists_folds isFolded
      rcases (recorded.vregs folded.ref).mp ⟨v, isBound⟩ with isParam | ⟨bound, boundMem, isBind, same⟩
      · exact absurd isParam (ref_ne_param isSsa (included folded foldedMem))
      · obtain rfl := eq_of_ref_eq isSsa (included bound boundMem) (included folded foldedMem) same
        rw [not_binds_of_folds isFold] at isBind
        cases isBind

/-- What is recorded about a value after its definition is recorded right then. -/
theorem recorded_early (early : Recorded function seen selection) (extended : Extends selection final)
    (isSeen : key ∈ function.params.map (·.ref) ∨ ∃ definition ∈ seen, definition.ref = key)
    (seenIncluded : ∀ instruction ∈ seen, instruction ∈ function.instructions) :
    (∀ v, final.vregMap.lookup key = some v → selection.vregMap.lookup key = some v) ∧
      ∀ pointer, final.gepMap.lookup key = some pointer →
        selection.gepMap.lookup key = some pointer := by
  refine ⟨?_, ?_⟩
  · intro v isBound
    have wasBound : ∃ w, selection.vregMap.lookup key = some w := by
      rw [early.vregs]
      rcases isSeen with isParam | ⟨definition, definitionMem, rfl⟩
      · exact .inl isParam
      · rcases (recorded.vregs definition.ref).mp ⟨v, isBound⟩ with isParam | ⟨bound, boundMem, isBind, same⟩
        · exact .inl isParam
        · obtain rfl := eq_of_ref_eq isSsa (included bound boundMem)
            (seenIncluded definition definitionMem) same
          exact .inr ⟨bound, definitionMem, isBind, rfl⟩
    obtain ⟨w, wasBound⟩ := wasBound
    rw [wasBound, ← extended.vregs key w wasBound, isBound]
  · intro pointer isFolded
    obtain ⟨folded, foldedMem, isFold, rfl⟩ := recorded.exists_folds isFolded
    rcases isSeen with isParam | ⟨definition, definitionMem, same⟩
    · exact absurd isParam (ref_ne_param isSsa (included folded foldedMem))
    · obtain rfl := eq_of_ref_eq isSsa (seenIncluded definition definitionMem)
        (included folded foldedMem) same
      obtain ⟨other, wasFolded⟩ := early.folded definition definitionMem isFold
      rw [wasFolded, ← extended.geps _ other wasFolded, isFolded]

end

/-! ### Values in scope -/

/-- One of the instructions has the value as its result. -/
def HasResult (instructions : List Instruction) (key : ValueRef) : Prop :=
  ∃ definition ∈ instructions, definition.ref = key ∧ definition.type ≠ .void

/-- The definition of the value comes before a place: the block of the place with
the instructions in front of it. -/
inductive Known (function : Llvm.Function) (node : BlockRef) (front : List Instruction)
    (key : ValueRef) : Prop where
  | param (isParam : key ∈ function.params.map (·.ref))
  | above {above : BlockRef} {block : Llvm.Block} (differ : above ≠ node)
      (dominates : Dominates function.successors 0 above node)
      (isBlock : function.blocks[above]? = some block)
      (defines : HasResult block.instructions key)
  | phi {block : Llvm.Block} {instruction : Instruction} {incoming : List (Operand × BlockRef)}
      (isBlock : function.blocks[node]? = some block)
      (instructionMem : instruction ∈ block.instructions)
      (isPhi : instruction.operation = .phi incoming) (isKey : instruction.ref = key)
  | earlier (defines : HasResult front key)

/-- The registers carry the word that a value has. -/
inductive Carries (function : Llvm.Function) (selection : Selection) (state : State Reg)
    (key : ValueRef) (word : I64) : Prop where
  | flag {v : Nat} (isFlag : isComparison function key = true)
      (isBound : selection.vregMap.lookup key = some v)
      (same : state.pred (.vreg v) = word.getLsbD 0)
  | pointer {base : Value} {offset : I64}
      (isFolded : selection.gepMap.lookup key = some (base, offset))
      (same : baseWord state base + offset = word)
  | register {v : Nat} (notFlag : isComparison function key = false)
      (isBound : selection.vregMap.lookup key = some v)
      (same : (state.gpr (.vreg v)).setWidth (typeOf function key).bits =
        word.setWidth (typeOf function key).bits)

/-- All values that are known at a place are carried. -/
def Carried (function : Llvm.Function) (selection : Selection) (node : BlockRef)
    (front : List Instruction) (state : State Reg) (env : Env) : Prop :=
  ∀ key, Known function node front key → ∀ word, env key = some word →
    Carries function selection state key word

section

variable {function : Llvm.Function} {node target pred : BlockRef} {front back : List Instruction}
  {block : Llvm.Block} {instruction : Instruction} {key : ValueRef} {type : Ty}

theorem included_block (isBlock : function.blocks[node]? = some block) :
    ∀ instruction ∈ block.instructions, instruction ∈ function.instructions :=
  fun _ instructionMem => List.mem_flatMap.mpr ⟨block, List.mem_of_getElem? isBlock, instructionMem⟩

/-- Operands are known, and have their types. -/
theorem known_of_operand (isSsa : function.IsSsa) (isBlock : function.blocks[node]? = some block)
    (isInstructions : block.instructions = front ++ instruction :: back)
    (notPhi : ∀ incoming, instruction.operation ≠ .phi incoming)
    (isOperand : .ref key type ∈ instruction.operation.operands) :
    Known function node front key ∧ typeOf function key = type := by
  have instructionMem : instruction ∈ function.instructions :=
    included_block isBlock instruction (by simp [isInstructions])
  have notVoid := (isSsa.typed instruction instructionMem).operands _ isOperand
  rcases isSsa.uses node block front instruction back isBlock isInstructions notPhi key type
    isOperand with isParam | defines | ⟨above, differ, dominates, other, isOther, defines⟩
  · refine ⟨.param ?_, typeOf_hasParam isSsa isParam⟩
    obtain ⟨param, paramMem, rfl, -⟩ := isParam
    exact List.mem_map_of_mem paramMem
  · refine ⟨.earlier ?_, typeOf_defines isSsa (fun other otherMem => ?_) defines⟩
    · obtain ⟨definition, definitionMem, rfl, rfl⟩ := defines
      exact ⟨definition, definitionMem, rfl, notVoid⟩
    · exact included_block isBlock other (isInstructions ▸ List.mem_append_left _ otherMem)
  · refine ⟨.above differ dominates isOther ?_, typeOf_defines isSsa (included_block isOther) defines⟩
    obtain ⟨definition, definitionMem, rfl, rfl⟩ := defines
    exact ⟨definition, definitionMem, rfl, notVoid⟩

/-- Incoming values are known at the end of the predecessor. -/
theorem known_of_incoming (isSsa : function.IsSsa) (isPred : function.blocks[pred]? = some block)
    (instructionMem : instruction ∈ function.instructions)
    {incoming : List (Operand × BlockRef)} (isPhi : instruction.operation = .phi incoming)
    (incomingMem : (.ref key type, pred) ∈ incoming) :
    Known function pred block.instructions key ∧ typeOf function key = type := by
  have isOperand : .ref key type ∈ instruction.operation.operands := by
    rw [isPhi]
    exact List.mem_map_of_mem incomingMem
  have notVoid := (isSsa.typed instruction instructionMem).operands _ isOperand
  rcases (isSsa.phis instruction instructionMem incoming isPhi _ pred incomingMem).1 key type rfl
    with isParam | ⟨above, dominates, other, isOther, defines⟩
  · refine ⟨.param ?_, typeOf_hasParam isSsa isParam⟩
    obtain ⟨param, paramMem, rfl, -⟩ := isParam
    exact List.mem_map_of_mem paramMem
  · refine ⟨?_, typeOf_defines isSsa (included_block isOther) defines⟩
    obtain ⟨definition, definitionMem, rfl, rfl⟩ := defines
    by_cases same : above = pred
    · subst same
      obtain rfl := Option.some.inj (isOther.symm.trans isPred)
      exact .earlier ⟨definition, definitionMem, rfl, notVoid⟩
    · exact .above same dominates isOther ⟨definition, definitionMem, rfl, notVoid⟩

/-- What is known in a block is known before it, or the value of one of its phis. -/
theorem known_before (isPred : function.blocks[pred]? = some block)
    (edge : Edge function.successors pred target) (known : Known function target [] key)
    (notPhi : ∀ block, function.blocks[target]? = some block → ∀ instruction ∈ block.instructions,
      ∀ incoming, instruction.operation = .phi incoming → instruction.ref ≠ key) :
    Known function pred block.instructions key := by
  cases known with
  | param isParam => exact .param isParam
  | @above above other differ dominates isOther defines =>
      have before : Dominates function.successors 0 above pred := by
        intro path isPath
        have onPath := dominates _ (isPath.step edge)
        rcases List.mem_append.mp onPath with isBefore | isLast
        · exact isBefore
        · exact absurd (List.mem_singleton.mp isLast) differ
      by_cases same : above = pred
      · subst same
        obtain rfl := Option.some.inj (isOther.symm.trans isPred)
        exact .earlier defines
      · exact .above same before isOther defines
  | phi isBlock instructionMem isPhi isKey =>
      exact absurd isKey (notPhi _ isBlock _ instructionMem _ isPhi)
  | earlier defines =>
      obtain ⟨definition, definitionMem, -⟩ := defines
      cases definitionMem

/-- What an instruction makes known. -/
theorem Known.of_snoc (known : Known function node (front ++ [instruction]) key) :
    Known function node front key ∨ (key = instruction.ref ∧ instruction.type ≠ .void) := by
  cases known with
  | param isParam => exact .inl (.param isParam)
  | above differ dominates isBlock defines => exact .inl (.above differ dominates isBlock defines)
  | phi isBlock instructionMem isPhi isKey => exact .inl (.phi isBlock instructionMem isPhi isKey)
  | earlier defines =>
      obtain ⟨definition, definitionMem, isKey, notVoid⟩ := defines
      rcases List.mem_append.mp definitionMem with inFront | isLast
      · exact .inl (.earlier ⟨definition, inFront, isKey, notVoid⟩)
      · obtain rfl := List.mem_singleton.mp isLast
        exact .inr ⟨isKey.symm, notVoid⟩

end

end VliwCompiler.Isel
