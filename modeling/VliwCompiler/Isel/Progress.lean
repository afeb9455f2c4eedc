import VliwCompiler.Isel.Traversal

/-!
# Progress of the traversal

The states that the loop over the worklist goes through.  The loop ends: it
finishes, or lowering an instruction of a visited block fails.
-/

namespace VliwCompiler.Isel

open Llvm (Instruction)
open Worklist (Edge Exploring Grounded)

section

variable (module : Llvm.Module) (memorySize : Nat) (function : Llvm.Function)

/-- The states of the loop over the worklist. -/
inductive LoopState : Traversal → Prop where
  | start {traversal : Traversal} (begun : initialTraversal function = .ok traversal) :
      LoopState traversal
  | skip {traversal : Traversal} {label : String} {rest : List String}
      (before : LoopState traversal) (isNext : traversal.worklist = label :: rest)
      (isVisited : label ∈ traversal.visited) : LoopState { traversal with worklist := rest }
  | visit {traversal after : Traversal} {label : String} {rest : List String}
      (before : LoopState traversal) (isNext : traversal.worklist = label :: rest)
      (unvisited : label ∉ traversal.visited)
      (visited : visitBlock module memorySize function label { traversal with worklist := rest } =
        .ok after) : LoopState after

/-- The loop visits the block `label` and lowers its instruction `instruction`
next, after those of `front`. -/
structure Reached (traversal : Traversal) (label : String) (front : List Instruction)
    (instruction : Instruction) (back : List Instruction) (selection : Selection) : Prop where
  state : LoopState module memorySize function traversal
  isNext : traversal.worklist.head? = some label
  unvisited : label ∉ traversal.visited
  isBlock : ∃ block, bbOf function label = some block ∧
    block.instructions = front ++ instruction :: back
  lowered : front.foldlM (lowerInstruction module memorySize (labelOf function) label)
    (traversal.selection.begin label) = .ok selection

end

section

variable {module : Llvm.Module} {memorySize : Nat} {function : Llvm.Function}
  {traversal : Traversal} {label : String}

/-! ### Labels of blocks -/

theorem exists_bbOf (isLabel : label ∈ blockLabels function) :
    ∃ block, bbOf function label = some block := by
  have sameLength : (blockLabels function).length = function.blocks.length := by
    simp [blockLabels]
  obtain ⟨i, inside, isLabel⟩ := List.mem_iff_getElem.mp isLabel
  have found : (((blockLabels function).zip function.blocks).reverse.find?
      (·.1 = label)).isSome = true := by
    rw [List.find?_isSome]
    refine ⟨((blockLabels function)[i], function.blocks[i]), ?_, by simpa using isLabel⟩
    rw [List.mem_reverse, List.mem_iff_getElem]
    exact ⟨i, by simp only [List.length_zip]; omega, List.getElem_zip⟩
  obtain ⟨entry, isEntry⟩ := Option.isSome_iff_exists.mp found
  exact ⟨entry.2, by rw [bbOf, isEntry]; rfl⟩

/-- Branches lead to labels of blocks. -/
theorem mem_blockLabels_of_edge {target : String}
    (edge : Edge (successorsOf function) label target) : target ∈ blockLabels function := by
  have inside : ∀ (instructions : List Instruction) (successors : Worklist.Successors String),
      (∀ node, successors.next = some node ∨ successors.later = some node →
        node ∈ blockLabels function) →
      ∀ node, (instructions.foldl (branchTargets function) successors).next = some node ∨
        (instructions.foldl (branchTargets function) successors).later = some node →
          node ∈ blockLabels function := by
    intro instructions
    induction instructions with
    | nil => exact fun successors holds => holds
    | cons instruction instructions ih =>
        intro successors holds
        refine ih _ ?_
        intro node isSuccessor
        unfold branchTargets at isSuccessor
        split at isSuccessor
        · rcases isSuccessor with isNext | isLater
          · exact List.mem_of_getElem? isNext
          · exact List.mem_of_getElem? isLater
        · rcases isSuccessor with isNext | isLater
          · exact holds node (.inl isNext)
          · exact List.mem_of_getElem? isLater
        · exact holds node isSuccessor
  exact inside _ {} (by simp) target edge

/-! ### Invariants -/

theorem initialTraversal_eq_ok (begun : initialTraversal function = .ok traversal) :
    ∃ entry selection, (blockLabels function)[0]? = some entry ∧
      bindParams function.params = .ok selection ∧
      traversal = { selection := selection, worklist := [entry] } := by
  obtain ⟨entry, isEntry, begun⟩ := bind_eq_ok.mp begun
  obtain ⟨selection, bound, begun⟩ := bind_eq_ok.mp begun
  cases begun
  exact ⟨entry, selection, labelOf_eq_ok.mp isEntry, bound, rfl⟩

theorem take_one_blockLabels {entry : String} (isEntry : (blockLabels function)[0]? = some entry) :
    (blockLabels function).take 1 = [entry] := by
  cases isLabels : blockLabels function with
  | nil => simp [isLabels] at isEntry
  | cons head rest =>
      rw [isLabels] at isEntry
      simpa using Option.some.inj isEntry

/-- Every state is on the way to the order of the blocks, and enough steps are left. -/
structure OnTheWay (function : Llvm.Function) (fuel : Nat) (traversal : Traversal) : Prop where
  grounded : ∀ entry, (blockLabels function)[0]? = some entry →
    Grounded (successorsOf function) entry traversal.worklist traversal.visited
  exploring : Exploring (successorsOf function) (blockLabels function) traversal.worklist
    traversal.visited
  enough : Worklist.stepsLeft (blockLabels function) traversal.worklist traversal.visited ≤ fuel
  order : Worklist.order (successorsOf function) fuel traversal.worklist traversal.visited =
    blockOrder function

theorem onTheWay_start (begun : initialTraversal function = .ok traversal) :
    OnTheWay function (traversalFuel function) traversal := by
  obtain ⟨entry, selection, isEntry, -, rfl⟩ := initialTraversal_eq_ok begun
  refine ⟨?_, ⟨List.nodup_nil, by simp, ?_, ?_, by simp⟩, ?_, ?_⟩
  · intro other isOther
    obtain rfl := Option.some.inj (isEntry.symm.trans isOther)
    exact Worklist.grounded_start _ entry
  · exact List.forall_mem_singleton.mpr (List.mem_of_getElem? isEntry)
  · exact fun node _ target edge => mem_blockLabels_of_edge edge
  · simp [Worklist.stepsLeft, traversalFuel, blockLabels, Nat.add_comm]
  · rw [blockOrder, take_one_blockLabels isEntry]

theorem OnTheWay.skip {fuel : Nat} {rest : List String}
    (onTheWay : OnTheWay function (fuel + 1) traversal)
    (isNext : traversal.worklist = label :: rest) (isVisited : label ∈ traversal.visited) :
    OnTheWay function fuel { traversal with worklist := rest } := by
  obtain ⟨grounded, exploring, enough, order⟩ := onTheWay
  rw [isNext] at grounded exploring enough order
  refine ⟨fun entry isEntry => (grounded entry isEntry).skip, exploring.skip isVisited, ?_, ?_⟩
  · unfold Worklist.stepsLeft at enough ⊢
    rw [List.length_cons] at enough
    dsimp only
    omega
  · rw [← order, Worklist.order, if_pos isVisited]

theorem OnTheWay.visit {fuel : Nat} {rest : List String} {after : Traversal}
    (onTheWay : OnTheWay function (fuel + 1) traversal)
    (isNext : traversal.worklist = label :: rest) (unvisited : label ∉ traversal.visited)
    (visited : visitBlock module memorySize function label { traversal with worklist := rest } =
      .ok after) : OnTheWay function fuel after := by
  obtain ⟨grounded, exploring, enough, order⟩ := onTheWay
  rw [isNext] at grounded exploring enough order
  obtain ⟨block, selection, -, -, enqueued⟩ := visitBlock_eq_ok visited
  have isWorklist := enqueued.worklist
  have isVisited := enqueued.visited
  dsimp only at isWorklist isVisited
  have fewer := exploring.stepsLeft_visit unvisited
  refine ⟨?_, ?_, ?_, ?_⟩
  · rw [isWorklist, isVisited]
    exact fun entry isEntry => (grounded entry isEntry).visit
  · rw [isWorklist, isVisited]
    exact exploring.visit unvisited
  · rw [isWorklist, isVisited]
    omega
  · rw [isWorklist, isVisited, ← order, Worklist.order, if_neg unvisited]

theorem OnTheWay.pos {fuel : Nat} {rest : List String} (onTheWay : OnTheWay function fuel traversal)
    (isNext : traversal.worklist = label :: rest) : ∃ less, fuel = less + 1 := by
  refine Nat.exists_eq_add_one.mpr ?_
  have enough := onTheWay.enough
  rw [isNext, Worklist.stepsLeft, List.length_cons] at enough
  omega

theorem LoopState.onTheWay (state : LoopState module memorySize function traversal) :
    ∃ fuel, OnTheWay function fuel traversal := by
  induction state with
  | start begun => exact ⟨_, onTheWay_start begun⟩
  | skip _ isNext isVisited ih =>
      obtain ⟨fuel, onTheWay⟩ := ih
      obtain ⟨less, rfl⟩ := onTheWay.pos isNext
      exact ⟨less, onTheWay.skip isNext isVisited⟩
  | visit _ isNext unvisited visited ih =>
      obtain ⟨fuel, onTheWay⟩ := ih
      obtain ⟨less, rfl⟩ := onTheWay.pos isNext
      exact ⟨less, onTheWay.visit isNext unvisited visited⟩

/-- The block that is visited next has its place in the order of the blocks. -/
theorem LoopState.blockOrder_eq (state : LoopState module memorySize function traversal)
    {rest : List String} (isNext : traversal.worklist = label :: rest)
    (unvisited : label ∉ traversal.visited) :
    ∃ back, blockOrder function = traversal.visited ++ label :: back := by
  obtain ⟨fuel, onTheWay⟩ := state.onTheWay
  obtain ⟨less, rfl⟩ := onTheWay.pos isNext
  obtain ⟨back, isBack⟩ := Worklist.exists_order_eq_append (successorsOf function) less
    (Worklist.enqueue (traversal.visited ++ [label]) (successorsOf function label) rest)
    (traversal.visited ++ [label])
  refine ⟨back, ?_⟩
  rw [← onTheWay.order, isNext, Worklist.order, if_neg unvisited, isBack, List.append_assoc,
    List.singleton_append]

/-! ### The loop ends -/

/-- A visit fails at an instruction. -/
theorem reached_of_visitBlock {failure : Failure} {rest : List String}
    (state : LoopState module memorySize function traversal)
    (isNext : traversal.worklist = label :: rest) (unvisited : label ∉ traversal.visited)
    (failed : visitBlock module memorySize function label { traversal with worklist := rest } =
      .error failure) :
    ∃ front instruction back selection,
      Reached module memorySize function traversal label front instruction back selection ∧
        lowerInstruction module memorySize (labelOf function) label selection instruction =
          .error failure := by
  obtain ⟨fuel, onTheWay⟩ := state.onTheWay
  have isLabel := onTheWay.exploring.pendingInside label (isNext ▸ List.mem_cons_self)
  obtain ⟨block, isBlock⟩ := exists_bbOf isLabel
  unfold visitBlock at failed
  rw [isBlock] at failed
  rcases bind_eq_error.mp failed with missing | ⟨_, isSame, failed⟩
  · cases missing
  · cases isSame
    rcases bind_eq_error.mp failed with failed | ⟨_, _, done⟩
    · rcases bind_eq_error.mp failed with failed | ⟨_, _, done⟩
      · obtain ⟨front, instruction, back, selection, isInstructions, lowered, fails⟩ :=
          exists_step_of_foldlM_error failed
        exact ⟨front, instruction, back, selection, ⟨state, by rw [isNext]; rfl, unvisited,
          ⟨block, isBlock, isInstructions⟩, lowered⟩, fails⟩
      · cases done
    · cases done

/-- The loop finishes, or lowering an instruction fails. -/
theorem traverse_cases {fuel : Nat} (state : LoopState module memorySize function traversal)
    (onTheWay : OnTheWay function fuel traversal) :
    (∃ final, traverse module memorySize function fuel traversal = .ok final ∧
      LoopState module memorySize function final) ∨
    ∃ failure, traverse module memorySize function fuel traversal = .error failure ∧
      ∃ current label front instruction back selection,
        Reached module memorySize function current label front instruction back selection ∧
          lowerInstruction module memorySize (labelOf function) label selection instruction =
            .error failure := by
  induction fuel generalizing traversal with
  | zero =>
      cases isNext : traversal.worklist with
      | nil => exact .inl ⟨traversal, by unfold traverse; rw [isNext], state⟩
      | cons label rest =>
          obtain ⟨less, impossible⟩ := onTheWay.pos isNext
          cases impossible
  | succ fuel ih =>
      unfold traverse
      cases isNext : traversal.worklist with
      | nil => exact .inl ⟨traversal, rfl, state⟩
      | cons label rest =>
          dsimp only
          by_cases isVisited : label ∈ traversal.visited
          · rw [if_pos isVisited]
            exact ih (state.skip isNext isVisited) (onTheWay.skip isNext isVisited)
          · rw [if_neg isVisited]
            cases outcome : visitBlock module memorySize function label
                { traversal with worklist := rest } with
            | error failure =>
                obtain ⟨front, instruction, back, selection, reached, fails⟩ :=
                  reached_of_visitBlock state isNext isVisited outcome
                exact .inr ⟨failure, rfl, traversal, label, front, instruction, back, selection,
                  reached, fails⟩
            | ok after =>
                exact ih (state.visit isNext isVisited outcome)
                  (onTheWay.visit isNext isVisited outcome)

/-- Selection finishes unless a parameter has no register or lowering an instruction
fails. -/
theorem selectFunction_cases (module : Llvm.Module) (memorySize : Nat)
    (hasEntry : function.blocks ≠ []) :
    (∃ final, selectFunction module memorySize function = .ok final ∧
      LoopState module memorySize function final) ∨
    (∃ failure, bindParams function.params = .error failure ∧
      selectFunction module memorySize function = .error failure) ∨
    ∃ failure, selectFunction module memorySize function = .error failure ∧
      ∃ current label front instruction back selection,
        Reached module memorySize function current label front instruction back selection ∧
          lowerInstruction module memorySize (labelOf function) label selection instruction =
            .error failure := by
  have isEntry : ∃ entry, labelOf function 0 = .ok entry := by
    cases isBlocks : function.blocks with
    | nil => exact absurd isBlocks hasEntry
    | cons block blocks =>
        exact ⟨blockLabel 0 block, by simp [labelOf_eq_ok, blockLabels, isBlocks]⟩
  obtain ⟨entry, isEntry⟩ := isEntry
  cases bound : bindParams function.params with
  | error failure =>
      refine .inr (.inl ⟨failure, rfl, ?_⟩)
      rw [selectFunction, initialTraversal, isEntry, bound]
      rfl
  | ok selection =>
      have begun : initialTraversal function =
          .ok { selection := selection, worklist := [entry] } := by
        rw [initialTraversal, isEntry, bound]
        rfl
      have state : LoopState module memorySize function
          { selection := selection, worklist := [entry] } := .start begun
      rw [selectFunction, begun]
      rcases traverse_cases state (onTheWay_start begun) with finishes | fails
      · exact .inl finishes
      · exact .inr (.inr fails)

/-- A finished selection is a state of the loop. -/
theorem loopState_of_selectFunction (hasEntry : function.blocks ≠ [])
    (isSelected : selectFunction module memorySize function = .ok traversal) :
    LoopState module memorySize function traversal := by
  rcases selectFunction_cases module memorySize hasEntry with
    ⟨final, isFinal, state⟩ | ⟨failure, -, failed⟩ | ⟨failure, failed, -⟩
  · obtain rfl := Except.ok.inj (isFinal.symm.trans isSelected)
    exact state
  · cases failed.symm.trans isSelected
  · cases failed.symm.trans isSelected

end

end VliwCompiler.Isel
