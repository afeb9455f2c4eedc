import VliwCompiler.Isel.Recorded

/-!
# Definitions before uses

Blocks are visited after the blocks that dominate them, so the values of a
function in SSA form have their registers before they are used.  Blocks are
known to the traversal by their labels, which must lead back to them.
-/

namespace VliwCompiler.Isel

open Llvm (BlockRef ValueRef Ty Operand Instruction)
open Worklist (Edge IsPath Dominates Reachable Successors)

/-! ### Blocks and their labels -/

section

variable {function : Llvm.Function} {node other : BlockRef} {label : String} {block : Llvm.Block}

/-- The block with index `node` is the one found for the label: the last that has it. -/
structure Found (function : Llvm.Function) (label : String) (node : BlockRef) : Prop where
  isLabel : (blockLabels function)[node]? = some label
  last : ∀ other, (blockLabels function)[other]? = some label → other ≤ node

theorem Found.unique (found : Found function label node) (found' : Found function label other) :
    node = other :=
  Nat.le_antisymm (found'.last node found.isLabel) (found.last other found'.isLabel)

/-- A label leads to the last block that has it. -/
theorem exists_found_of_bbOf (isBlock : bbOf function label = some block) :
    ∃ node : BlockRef, Found function label node ∧ function.blocks[node]? = some block := by
  rcases Option.map_eq_some_iff.mp isBlock with ⟨entry, isEntry, rfl⟩
  rcases List.find?_eq_some_iff_append.mp isEntry with ⟨isLabel, before, after, isSplit, others⟩
  have isLabel : entry.1 = label := by simpa using isLabel
  have isZip : (blockLabels function).zip function.blocks =
      after.reverse ++ entry :: before.reverse := by
    rw [← List.reverse_reverse ((blockLabels function).zip function.blocks), isSplit]
    simp
  have isHere : ((blockLabels function).zip function.blocks)[after.length]? = some entry := by
    rw [isZip, List.getElem?_append_right (by simp)]
    simp
  rw [List.getElem?_zip_eq_some, isLabel] at isHere
  refine ⟨after.length, ⟨isHere.1, ?_⟩, isHere.2⟩
  intro other isOther
  by_contra isLater
  rw [Nat.not_le] at isLater
  have inside : other < function.blocks.length := by
    rcases List.getElem?_eq_some_iff.mp isOther with ⟨inside, -⟩
    simpa [blockLabels] using inside
  have atOther : ((blockLabels function).zip function.blocks)[other]? =
      some (label, function.blocks[other]) :=
    List.getElem?_zip_eq_some.mpr ⟨isOther, List.getElem?_eq_getElem inside⟩
  rw [isZip, List.getElem?_append_right (by simpa using Nat.le_of_lt isLater),
    List.length_reverse] at atOther
  rcases Nat.exists_eq_add_of_lt isLater with ⟨distance, rfl⟩
  have isDistance : after.length + distance + 1 - after.length = distance + 1 := by omega
  rw [isDistance, List.getElem?_cons_succ] at atOther
  have notLabel := others _ (List.mem_reverse.mp (List.mem_of_getElem? atOther))
  simp at notLabel

theorem exists_index_of_bbOf (isBlock : bbOf function label = some block) :
    ∃ node : BlockRef, (blockLabels function)[node]? = some label ∧
      function.blocks[node]? = some block := by
  rcases exists_found_of_bbOf isBlock with ⟨node, found, isNode⟩
  exact ⟨node, found.isLabel, isNode⟩

theorem Found.bbOf_eq (found : Found function label node) :
    bbOf function label = function.blocks[node]? := by
  rcases exists_bbOf (List.mem_of_getElem? found.isLabel) with ⟨block, isBlock⟩
  rcases exists_found_of_bbOf isBlock with ⟨other, found', isOther⟩
  rw [found.unique found', isBlock, isOther]

theorem index_unique (distinct : (blockLabels function).Nodup)
    (isLabel : (blockLabels function)[node]? = some label)
    (isOther : (blockLabels function)[other]? = some label) : node = other := by
  obtain ⟨inside, -⟩ := List.getElem?_eq_some_iff.mp isLabel
  exact (List.getElem?_inj inside distinct).mp (isLabel.trans isOther.symm)

/-- Distinct labels tell blocks apart. -/
theorem found_of_nodup (distinct : (blockLabels function).Nodup)
    (isLabel : (blockLabels function)[node]? = some label) : Found function label node :=
  ⟨isLabel, fun _ isOther => Nat.le_of_eq (index_unique distinct isOther isLabel)⟩

theorem bbOf_eq_some (distinct : (blockLabels function).Nodup)
    (isLabel : (blockLabels function)[node]? = some label)
    (isBlock : function.blocks[node]? = some block) : bbOf function label = some block :=
  (found_of_nodup distinct isLabel).bbOf_eq.trans isBlock

theorem instructionsOf_eq (isBlock : bbOf function label = some block) :
    instructionsOf function label = block.instructions := by
  simp [instructionsOf, isBlock]

theorem exists_label (inside : node < function.blocks.length) :
    ∃ label, (blockLabels function)[node]? = some label := by
  have inside : node < (blockLabels function).length := by simpa [blockLabels] using inside
  exact ⟨_, List.getElem?_eq_getElem inside⟩

theorem exists_block (isLabel : (blockLabels function)[node]? = some label) :
    ∃ block, function.blocks[node]? = some block := by
  obtain ⟨inside, -⟩ := List.getElem?_eq_some_iff.mp isLabel
  have inside : node < function.blocks.length := by simpa [blockLabels] using inside
  exact ⟨_, List.getElem?_eq_getElem inside⟩

/-! ### Edges -/

/-- Only the last instruction of a block branches. -/
theorem foldl_branchTargets {body : List Instruction}
    (straight : ∀ instruction ∈ body, instruction.operation.isTerminator = false)
    (successors : Successors String) :
    body.foldl (branchTargets function) successors = successors := by
  induction body with
  | nil => rfl
  | cons instruction body ih =>
      obtain ⟨first, rest⟩ := List.forall_mem_cons.mp straight
      have unchanged : branchTargets function successors instruction = successors := by
        unfold branchTargets
        split
        · rename_i isOperation
          rw [isOperation] at first
          cases first
        · rename_i isOperation
          rw [isOperation] at first
          cases first
        · rfl
      rw [List.foldl_cons, unchanged, ih rest]

/-- The successors of a block by their labels. -/
theorem successorsOf_eq (isSsa : function.IsSsa) (found : Found function label node) :
    successorsOf function label =
      ⟨(function.successors node).next.bind ((blockLabels function)[·]?),
        (function.successors node).later.bind ((blockLabels function)[·]?)⟩ := by
  obtain ⟨block, isBlock⟩ := exists_block found.isLabel
  have isSuccessors : function.successors node = block.successors := by
    rw [Llvm.Function.successors, isBlock]
    rfl
  rw [successorsOf, instructionsOf_eq (found.bbOf_eq.trans isBlock), isSuccessors]
  rcases List.eq_nil_or_concat block.instructions with isNil | ⟨body, last, isLast⟩
  · simp [Llvm.Block.successors, isNil]
  · rw [List.concat_eq_append] at isLast
    have straight := isSsa.straight (List.mem_of_getElem? isBlock) isLast
    rw [Llvm.Block.successors, isLast, List.getLast?_concat, Option.map_some, List.foldl_append,
      foldl_branchTargets straight, List.foldl_cons, List.foldl_nil]
    cases isOperation : last.operation with
    | condBr | br => simp [branchTargets, isOperation]
    | _ => simp [branchTargets, isOperation]

theorem exists_index_of_edge (isSsa : function.IsSsa) (found : Found function label node)
    {target : String}
    (edge : Edge (successorsOf function) label target) :
    ∃ index, Edge function.successors node index ∧
      (blockLabels function)[index]? = some target := by
  unfold Edge at edge
  rw [successorsOf_eq isSsa found] at edge
  rcases edge with isNext | isLater
  · obtain ⟨index, isIndex, isTarget⟩ := Option.bind_eq_some_iff.mp isNext
    exact ⟨index, .inl isIndex, isTarget⟩
  · obtain ⟨index, isIndex, isTarget⟩ := Option.bind_eq_some_iff.mp isLater
    exact ⟨index, .inr isIndex, isTarget⟩

/-! ### Dominators -/

/-- The labels of reachable blocks lead back to them. -/
def LabelsResolve (function : Llvm.Function) : Prop :=
  ∀ node label, Reachable function.successors 0 node →
    (blockLabels function)[node]? = some label → Found function label node

theorem labelsResolve_of_nodup (distinct : (blockLabels function).Nodup) :
    LabelsResolve function :=
  fun _ _ _ isLabel => found_of_nodup distinct isLabel

theorem edge_lift (isSsa : function.IsSsa) (resolve : LabelsResolve function) :
    ∀ (label target : String) (node : BlockRef),
      (Reachable function.successors 0 node ∧ (blockLabels function)[node]? = some label) →
      Edge (successorsOf function) label target →
        ∃ index, Edge function.successors node index ∧
          Reachable function.successors 0 index ∧
            (blockLabels function)[index]? = some target := by
  rintro label target node ⟨reachable, isLabel⟩ edge
  rcases exists_index_of_edge isSsa (resolve node label reachable isLabel) edge with
    ⟨index, isEdge, isTarget⟩
  rcases reachable with ⟨path, isPath⟩
  exact ⟨index, isEdge, ⟨path ++ [index], isPath.step isEdge⟩, isTarget⟩

/-- Visited labels are found at reachable blocks. -/
theorem exists_found_of_visited (isSsa : function.IsSsa) (resolve : LabelsResolve function)
    (isVisited : label ∈ blockOrder function) :
    ∃ node, Reachable function.successors 0 node ∧ Found function label node := by
  rcases exists_label (List.length_pos_iff.mpr isSsa.entry) with ⟨entry, isEntry⟩
  rcases List.append_of_mem isVisited with ⟨front, back, isOrder⟩
  have grounded : Worklist.Grounded (successorsOf function) entry [] (blockOrder function) := by
    rw [blockOrder, take_one_blockLabels isEntry]
    exact (Worklist.grounded_start (successorsOf function) entry).order
  rcases grounded.reached front label back isOrder with ⟨path, isPath, -⟩
  rcases isPath.lift (fun label node => Reachable function.successors 0 node ∧
      (blockLabels function)[node]? = some label) ⟨⟨[0], .start⟩, isEntry⟩
      (fun label target node => edge_lift isSsa resolve label target node) with
    ⟨indices, index, -, ⟨reachable, isIndex⟩, -⟩
  exact ⟨index, reachable, resolve index label reachable isIndex⟩

/-- Dominators by their labels. -/
theorem dominates_labels (isSsa : function.IsSsa) (resolve : LabelsResolve function)
    {entry above : String} (isEntry : (blockLabels function)[0]? = some entry)
    (dominates : Dominates function.successors 0 other node)
    (isAbove : (blockLabels function)[other]? = some above)
    (found : Found function label node) :
    Dominates (successorsOf function) entry above label := by
  intro path isPath
  rcases isPath.lift (fun label node => Reachable function.successors 0 node ∧
      (blockLabels function)[node]? = some label) ⟨⟨[0], .start⟩, isEntry⟩
      (fun label target node => edge_lift isSsa resolve label target node) with
    ⟨indices, index, isIndexPath, ⟨reachable, isIndex⟩, related⟩
  cases (resolve index label reachable isIndex).unique found
  rcases exists_mem_of_forall₂ related (dominates indices isIndexPath) with
    ⟨name, nameMem, -, isName⟩
  cases Option.some.inj (isName.symm.trans isAbove)
  exact nameMem

/-- Blocks are visited after their dominators. -/
theorem dominator_visited_first (isSsa : function.IsSsa) (resolve : LabelsResolve function)
    (dominates : Dominates function.successors 0 other node) {above : String}
    (isAbove : (blockLabels function)[other]? = some above)
    (found : Found function label node) {front back : List String}
    (isOrder : blockOrder function = front ++ label :: back) : above ∈ front ++ [label] := by
  obtain ⟨entry, isEntry⟩ := exists_label (List.length_pos_iff.mpr isSsa.entry)
  have grounded : Worklist.Grounded (successorsOf function) entry [] (blockOrder function) := by
    rw [blockOrder, take_one_blockLabels isEntry]
    exact (Worklist.grounded_start (successorsOf function) entry).order
  rw [isOrder] at grounded
  exact grounded.dominators_first (dominates_labels isSsa resolve isEntry dominates isAbove found)

/-- A dominator of a visited block is visited before it. -/
theorem exists_visited_dominator (isSsa : function.IsSsa) (resolve : LabelsResolve function)
    (differ : other ≠ node) (dominates : Dominates function.successors 0 other node)
    (found : Found function label node) {front back : List String}
    (isOrder : blockOrder function = front ++ label :: back) :
    ∃ above ∈ front, Found function above other := by
  have isVisited : label ∈ blockOrder function := by simp [isOrder]
  rcases exists_found_of_visited isSsa resolve isVisited with ⟨index, reachable, isIndex⟩
  cases isIndex.unique found
  have aboveReachable := dominates.reachable reachable
  rcases exists_label (isSsa.reachable_inside aboveReachable) with ⟨above, isAbove⟩
  have foundAbove := resolve other above aboveReachable isAbove
  refine ⟨above, ?_, foundAbove⟩
  rcases List.mem_append.mp
    (dominator_visited_first isSsa resolve dominates isAbove found isOrder) with before | isLast
  · exact before
  · cases List.mem_singleton.mp isLast
    exact absurd (foundAbove.unique found) differ

/-! ### Operands -/

theorem mem_instructions {instruction : Instruction}
    (instructionMem : instruction ∈ instructionsOf function label) :
    instruction ∈ function.instructions := by
  cases isBlock : bbOf function label with
  | none => simp [instructionsOf, isBlock] at instructionMem
  | some block =>
      rw [instructionsOf_eq isBlock] at instructionMem
      obtain ⟨node, -, isNode⟩ := exists_index_of_bbOf isBlock
      exact List.mem_flatMap.mpr ⟨block, List.mem_of_getElem? isNode, instructionMem⟩

/-- The instruction that the loop lowers next, in the order of the blocks. -/
theorem Reached.place {module : Llvm.Module} {memorySize : Nat} {traversal : Traversal}
    {front back : List Instruction} {instruction : Instruction} {selection : Selection}
    (reached : Reached module memorySize function traversal label front instruction back
      selection) :
    ∃ rest, blockOrder function = traversal.visited ++ label :: rest ∧
      instructionsOf function label = front ++ instruction :: back := by
  obtain ⟨block, isBlock, isInstructions⟩ := reached.isBlock
  obtain ⟨pending, isNext⟩ := List.head?_eq_some_iff.mp reached.isNext
  obtain ⟨rest, isOrder⟩ := reached.state.blockOrder_eq isNext reached.unvisited
  exact ⟨rest, isOrder, (instructionsOf_eq isBlock).trans isInstructions⟩

/-- The definition of an operand comes before its use. -/
theorem known_operand (isSsa : function.IsSsa) (resolve : LabelsResolve function)
    {visited rest : List String} (isOrder : blockOrder function = visited ++ label :: rest)
    {front back : List Instruction} {instruction : Instruction}
    (isInstructions : instructionsOf function label = front ++ instruction :: back)
    (notPhi : ∀ incoming, instruction.operation ≠ .phi incoming) {key : ValueRef} {type : Ty}
    (isOperand : .ref key type ∈ instruction.operation.operands) :
    function.HasParam key type ∨
      Llvm.Defines (visited.flatMap (instructionsOf function) ++ front) key type := by
  cases isBlock : bbOf function label with
  | none => simp [instructionsOf, isBlock] at isInstructions
  | some block =>
      rw [instructionsOf_eq isBlock] at isInstructions
      rcases exists_found_of_bbOf isBlock with ⟨node, found, isNode⟩
      rcases isSsa.uses node block front instruction back isNode isInstructions notPhi key type
        isOperand with isParam | ⟨definition, definitionMem, defines⟩ |
          ⟨above, differ, dominates, other, isOther, definition, definitionMem, defines⟩
      · exact .inl isParam
      · exact .inr ⟨definition, List.mem_append_right _ definitionMem, defines⟩
      · rcases exists_visited_dominator isSsa resolve differ dominates found isOrder with
          ⟨name, isVisited, foundAbove⟩
        refine .inr ⟨definition, List.mem_append_left _ ?_, defines⟩
        refine List.mem_flatMap.mpr ⟨name, isVisited, ?_⟩
        rwa [instructionsOf_eq (foundAbove.bbOf_eq.trans isOther)]

/-- Integers with a definition have registers. -/
theorem Recorded.exists_vreg {seen : List Instruction} {selection : Selection} {key : ValueRef}
    {bits : Nat} (recorded : Recorded function seen selection)
    (typed : ∀ instruction ∈ seen, instruction.WellTyped)
    (known : function.HasParam key (.int bits) ∨ Llvm.Defines seen key (.int bits)) :
    ∃ v, selection.vregMap.lookup key = some v := by
  rw [recorded.vregs]
  rcases known with ⟨param, paramMem, rfl, -⟩ | ⟨definition, definitionMem, rfl, isInt⟩
  · exact .inl (List.mem_map_of_mem paramMem)
  · refine .inr ⟨definition, definitionMem, ?_, rfl⟩
    have isTyped := typed definition definitionMem
    rcases recorded.valued definition definitionMem isTyped (by simp [isInt]) with
      bindsValue | isFolded
    · exact bindsValue
    · have result := isTyped.result
      unfold folds at isFolded
      split at isFolded
      · rename_i isOperation
        rw [isOperation, isInt] at result
        cases result
      · cases isFolded

end

end VliwCompiler.Isel
