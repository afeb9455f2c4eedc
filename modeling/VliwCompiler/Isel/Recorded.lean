import VliwCompiler.Isel.Progress
import VliwCompiler.Isel.Registers
import VliwCompiler.Llvm.Ssa

/-!
# Recorded values

Which values have a register and which pointers are folded depends on the
instructions lowered so far alone.
-/

namespace VliwCompiler.Isel

open Asm (I64)
open Llvm (ValueRef Ty Operand Instruction)

/-! ### Displacements -/

/-- The displacement of a pointer operand. -/
def pointerOffset (offsets : HashMap ValueRef I64) : Operand → I64
  | .ref key .ptr => (offsets.lookup key).getD 0
  | _ => 0

/-- The displacement of a pointer with constant indices. -/
def foldPointer (offsets : HashMap ValueRef I64) (element : Ty) (base : Operand)
    (indices : List Operand) : Outcome I64 := do
  let elemBytes ← intTypeByteSize element
  indices.foldlM (foldIndex elemBytes) (pointerOffset offsets base)

/-- The displacements of folded pointers after one more instruction. -/
def addOffset (offsets : HashMap ValueRef I64) (instruction : Instruction) :
    HashMap ValueRef I64 :=
  match instruction.operation with
  | .getElementPtr element base indices =>
      match foldPointer offsets element base indices with
      | .ok totalOffset => offsets.insert instruction.ref totalOffset
      | .error _ => offsets
  | _ => offsets

/-- The displacements of the pointers that the instructions fold. -/
def offsetsOf (instructions : List Instruction) : HashMap ValueRef I64 :=
  instructions.foldl addOffset ∅

theorem offsetsOf_snoc (instructions : List Instruction) (instruction : Instruction) :
    offsetsOf (instructions ++ [instruction]) =
      addOffset (offsetsOf instructions) instruction := by
  rw [offsetsOf, List.foldl_append]
  rfl

theorem addOffset_of_not_folds {offsets : HashMap ValueRef I64} {instruction : Instruction}
    (notFolded : folds instruction = false) : addOffset offsets instruction = offsets := by
  unfold addOffset
  split
  · rename_i isOperation
    rw [folds, isOperation] at notFolded
    cases notFolded
  · rfl

/-! ### Values -/

/-- What is known after the instructions `seen`. -/
structure Recorded (function : Llvm.Function) (seen : List Instruction) (selection : Selection) :
    Prop where
  vregs : ∀ key, (∃ v, selection.vregMap.lookup key = some v) ↔
    key ∈ function.params.map (·.ref) ∨
      ∃ instruction ∈ seen, binds instruction = true ∧ instruction.ref = key
  offsets : ∀ key, (selection.gepMap.lookup key).map (·.2) = (offsetsOf seen).lookup key
  folded : ∀ instruction ∈ seen, folds instruction = true →
    ∃ pointer, selection.gepMap.lookup instruction.ref = some pointer
  valued : ∀ instruction ∈ seen, instruction.WellTyped → instruction.type ≠ .void →
    binds instruction = true ∨ folds instruction = true

section

variable {module : Llvm.Module} {memorySize : Nat} {function : Llvm.Function}
  {labelAt : Llvm.BlockRef → Outcome String} {label : String} {seen : List Instruction}
  {selection after : Selection} {instruction : Instruction}

/-- An instruction with a value has a register or is folded. -/
theorem valued_of_lowerInstruction
    (lowered : lowerInstruction module memorySize labelAt label selection instruction = .ok after)
    (typed : instruction.WellTyped) (notVoid : instruction.type ≠ .void) :
    binds instruction = true ∨ folds instruction = true := by
  have result := typed.result
  unfold lowerInstruction at lowered
  cases isOperation : instruction.operation with
  | phi | icmp | binary | load => exact .inl (by rw [binds, isOperation])
  | call =>
      refine .inl ?_
      rw [binds, isOperation]
      exact decide_eq_true notVoid
  | getElementPtr => exact .inr (by rw [folds, isOperation])
  | ret | br | store =>
      rw [isOperation] at result
      exact absurd (of_decide_eq_true result) notVoid
  | condBr =>
      rw [isOperation] at result
      exact absurd (of_decide_eq_true (Bool.and_eq_true_iff.mp result).1) notVoid
  | invoke | atomic | other =>
      rw [isOperation] at lowered
      cases lowered

/-- The displacement of a lowered pointer. -/
theorem Recorded.pointerOffset_eq (recorded : Recorded function seen selection)
    {operand : Operand} {base : Mir.Value} {offset : I64}
    (lowered : lowerPtrOperand operand selection = .ok (base, offset)) :
    pointerOffset (offsetsOf seen) operand = offset := by
  rcases lowerPtrOperand_eq_ok lowered with
    ⟨bits, address, rfl, -, rfl⟩ | ⟨key, rfl, isFolded | ⟨notFolded, vreg, -, -, rfl⟩⟩
  · rfl
  · rw [pointerOffset, ← recorded.offsets key, isFolded]
    rfl
  · rw [pointerOffset, ← recorded.offsets key, notFolded]
    rfl

/-- The pointer that an instruction folds. -/
theorem Records.exists_pointer (records : Records instruction selection after)
    (isFold : folds instruction = true) :
    ∃ element base indices pointer, instruction.operation = .getElementPtr element base indices ∧
      (∃ baseOffset elemBytes, (∃ baseVal, lowerPtrOperand base selection =
          .ok (baseVal, baseOffset)) ∧ intTypeByteSize element = .ok elemBytes ∧
        indices.foldlM (foldIndex elemBytes) baseOffset = .ok pointer.2) ∧
      after.gepMap = selection.gepMap.insert instruction.ref pointer := by
  unfold folds at isFold
  split at isFold
  · rename_i element base indices isOperation
    obtain ⟨baseVal, baseOffset, elemBytes, totalOffset, isBase, isElement, isTotal, isGeps⟩ :=
      records.folded element base indices isOperation
    exact ⟨element, base, indices, (baseVal, totalOffset), isOperation,
      ⟨baseOffset, elemBytes, ⟨baseVal, isBase⟩, isElement, isTotal⟩, isGeps⟩
  · cases isFold

theorem Recorded.afterInstruction (recorded : Recorded function seen selection)
    (lowered : lowerInstruction module memorySize labelAt label selection instruction =
      .ok after) : Recorded function (seen ++ [instruction]) after := by
  have records := records_of_lowerInstruction lowered
  refine ⟨?_, ?_, ?_, ?_⟩
  · intro key
    have vregs := records.vregs
    have before := recorded.vregs key
    simp only [List.mem_append, List.mem_singleton, or_and_right, exists_or, exists_eq_left]
    split at vregs
    · rename_i bindsValue
      obtain ⟨v, -, -, isBound⟩ := vregs
      rw [isBound]
      by_cases same : key = instruction.ref
      · subst same
        simp [bindsValue]
      · rw [AList.lookup_insert_ne same, before]
        simp [bindsValue, Ne.symm same]
    · rename_i noValue
      rw [vregs, before]
      simp [noValue]
  · intro key
    rw [offsetsOf_snoc]
    cases isFold : folds instruction with
    | false =>
        rw [records.geps isFold, addOffset_of_not_folds isFold]
        exact recorded.offsets key
    | true =>
        obtain ⟨element, base, indices, pointer, isOperation,
          ⟨baseOffset, elemBytes, ⟨baseVal, isBase⟩, isElement, isTotal⟩, isGeps⟩ :=
          records.exists_pointer isFold
        have isFolded : foldPointer (offsetsOf seen) element base indices = .ok pointer.2 := by
          rw [foldPointer, recorded.pointerOffset_eq isBase, isElement]
          exact isTotal
        rw [isGeps, addOffset, isOperation]
        dsimp only
        rw [isFolded]
        by_cases same : key = instruction.ref
        · subst same
          simp
        · rw [AList.lookup_insert_ne same, AList.lookup_insert_ne same]
          exact recorded.offsets key
  · have inserted : folds instruction = true →
        ∃ pointer, after.gepMap = selection.gepMap.insert instruction.ref pointer := by
      intro isFold
      obtain ⟨element, base, indices, pointer, -, -, isGeps⟩ := records.exists_pointer isFold
      exact ⟨pointer, isGeps⟩
    refine List.forall_mem_append.mpr ⟨?_, List.forall_mem_singleton.mpr ?_⟩
    · intro other otherMem otherFolds
      obtain ⟨pointer, isPointer⟩ := recorded.folded other otherMem otherFolds
      cases isFold : folds instruction with
      | false => exact ⟨pointer, by rw [records.geps isFold, isPointer]⟩
      | true =>
          obtain ⟨added, isGeps⟩ := inserted isFold
          by_cases same : other.ref = instruction.ref
          · exact ⟨added, by rw [isGeps, same, AList.lookup_insert]⟩
          · exact ⟨pointer, by rw [isGeps, AList.lookup_insert_ne same, isPointer]⟩
    · intro isFold
      obtain ⟨added, isGeps⟩ := inserted isFold
      exact ⟨added, by rw [isGeps, AList.lookup_insert]⟩
  · refine List.forall_mem_append.mpr ⟨recorded.valued, List.forall_mem_singleton.mpr ?_⟩
    exact valued_of_lowerInstruction lowered

theorem Recorded.afterInstructions {instructions : List Instruction}
    (recorded : Recorded function seen selection)
    (lowered : instructions.foldlM (lowerInstruction module memorySize labelAt label) selection =
      .ok after) : Recorded function (seen ++ instructions) after := by
  induction instructions generalizing seen selection with
  | nil =>
      cases lowered
      simpa using recorded
  | cons instruction instructions ih =>
      rw [List.foldlM_cons] at lowered
      obtain ⟨middle, first, rest⟩ := bind_eq_ok.mp lowered
      simpa using ih (recorded.afterInstruction first) rest

theorem Recorded.congr (recorded : Recorded function seen selection)
    (sameVregs : after.vregMap = selection.vregMap) (sameGeps : after.gepMap = selection.gepMap) :
    Recorded function seen after :=
  ⟨by rw [sameVregs]; exact recorded.vregs, by rw [sameGeps]; exact recorded.offsets,
    by rw [sameGeps]; exact recorded.folded, recorded.valued⟩

/-! ### The loop -/

theorem mem_vregMap_of_bindParams {params : List Llvm.Param} {selection : Selection}
    (bound : bindParams params = .ok selection) (key : ValueRef) :
    (∃ v, selection.vregMap.lookup key = some v) ↔ key ∈ params.map (·.ref) := by
  unfold bindParams at bound
  induction params using List.reverseRecOn generalizing selection with
  | nil =>
      cases bound
      simp
  | append_singleton params param ih =>
      rw [List.foldlM_append] at bound
      obtain ⟨middle, first, last⟩ := bind_eq_ok.mp bound
      have isLast : selection = middle.bindVreg param.ref := by
        rw [List.foldlM_cons] at last
        obtain ⟨selected, isSelected, last⟩ := bind_eq_ok.mp last
        cases last
        split at isSelected <;> cases isSelected <;> rfl
      subst isLast
      rw [Selection.bindVreg, List.map_append, List.mem_append, ← ih first]
      by_cases same : key = param.ref
      · subst same
        simp
      · rw [AList.lookup_insert_ne same]
        simp [same]

theorem recorded_of_bindParams (bound : bindParams function.params = .ok selection) :
    Recorded function [] selection := by
  obtain ⟨-, noGeps, -⟩ := bound_of_bindParams bound
  refine ⟨?_, ?_, by simp, by simp⟩
  · intro key
    rw [mem_vregMap_of_bindParams bound]
    simp
  · intro key
    rw [noGeps]
    rfl

theorem Recorded.afterBlock {block : Llvm.Block} {visited : List String}
    (recorded : Recorded function (visited.flatMap (instructionsOf function)) selection)
    (isBlock : bbOf function label = some block)
    (lowered : lowerBlock module memorySize function label block selection = .ok after) :
    Recorded function ((visited ++ [label]).flatMap (instructionsOf function)) after := by
  obtain ⟨final, folded, lowered⟩ := bind_eq_ok.mp lowered
  cases lowered
  have isInstructions : instructionsOf function label = block.instructions := by
    simp [instructionsOf, isBlock]
  have begun : Recorded function (visited.flatMap (instructionsOf function))
      (selection.begin label) := recorded.congr rfl rfl
  rw [List.flatMap_append, List.flatMap_singleton, isInstructions]
  exact (begun.afterInstructions folded).congr rfl rfl

theorem LoopState.recorded {traversal : Traversal}
    (state : LoopState module memorySize function traversal) :
    Recorded function (traversal.visited.flatMap (instructionsOf function))
      traversal.selection := by
  induction state with
  | start begun =>
      obtain ⟨entry, selection, -, bound, rfl⟩ := initialTraversal_eq_ok begun
      exact recorded_of_bindParams bound
  | skip _ _ _ ih => exact ih
  | visit _ _ _ visited ih =>
      obtain ⟨block, selection, isBlock, lowered, enqueued⟩ := visitBlock_eq_ok visited
      have afterBlock := ih.afterBlock isBlock lowered
      rw [enqueued.visited, enqueued.rest]
      exact afterBlock.congr rfl rfl

theorem Reached.recorded {traversal : Traversal} {front back : List Instruction}
    (reached : Reached module memorySize function traversal label front instruction back
      selection) :
    Recorded function (traversal.visited.flatMap (instructionsOf function) ++ front)
      selection := by
  have begun : Recorded function (traversal.visited.flatMap (instructionsOf function))
      (traversal.selection.begin label) := reached.state.recorded.congr rfl rfl
  exact begun.afterInstructions reached.lowered

end

end VliwCompiler.Isel
