import VliwCompiler.Isel.Layout

/-!
# Traversal of a function

The loop over the worklist visits the blocks in the order of the LLVM function
alone and lays their MIR blocks out one after another.  A latch exists exactly
for the false edges to blocks that were visited before.
-/

namespace VliwCompiler.Isel

open Mir (Block)
open Worklist (Successors)

section

variable (function : Llvm.Function)

/-- The number of calls in consecutively visited blocks. -/
def callsBefore (visited : List String) : Nat := (visited.map (callsIn function)).sum

/-- Labels of the MIR blocks of the blocks visited first. -/
def mirLabels (visited : List String) : List String := layoutLabels function [] 0 visited

/-- The false edge of `pred` leads to a block visited before or at the same
time, so it goes through a latch. -/
def LatchedAfter (visited : List String) (pred target : String) : Prop :=
  ∃ front back, visited = front ++ pred :: back ∧
    (successorsOf function pred).next = some target ∧ target ∈ front ++ [pred]

end

theorem callsBefore_cons (function : Llvm.Function) (label : String) (rest : List String) :
    callsBefore function (label :: rest) = callsIn function label + callsBefore function rest := by
  rw [callsBefore, List.map_cons, List.sum_cons, callsBefore]

theorem callsBefore_snoc (function : Llvm.Function) (front : List String) (label : String) :
    callsBefore function (front ++ [label]) =
      callsBefore function front + callsIn function label := by
  simp [callsBefore]

theorem layoutLabels_append (function : Llvm.Function) (before : List String) (callCount : Nat)
    (first second : List String) :
    layoutLabels function before callCount (first ++ second) =
      layoutLabels function before callCount first ++
        layoutLabels function (before ++ first) (callCount + callsBefore function first) second := by
  induction first generalizing before callCount with
  | nil => simp [layoutLabels, callsBefore]
  | cons label first ih =>
      rw [List.cons_append, layoutLabels, ih, layoutLabels, callsBefore_cons]
      simp only [List.append_assoc, List.cons_append, List.nil_append, Nat.add_assoc]

theorem mirLabels_snoc (function : Llvm.Function) (visited : List String) (label : String) :
    mirLabels function (visited ++ [label]) = mirLabels function visited ++
      (chunkLabels label (callsIn function label) (callsBefore function visited) ++
        latchLabels function (visited ++ [label]) label) := by
  rw [mirLabels, layoutLabels_append, layoutLabels, layoutLabels, List.append_nil, mirLabels,
    List.nil_append, Nat.zero_add]

theorem latchedAfter_snoc {function : Llvm.Function} {visited : List String}
    {label pred target : String} :
    LatchedAfter function (visited ++ [label]) pred target ↔
      LatchedAfter function visited pred target ∨
        (pred = label ∧ (successorsOf function label).next = some target ∧
          target ∈ visited ++ [label]) := by
  constructor
  · rintro ⟨front, back, isVisited, isNext, targetMem⟩
    rcases Worklist.append_cons_eq_snoc.mp isVisited with ⟨rfl, rfl, rfl⟩ | ⟨rest, rfl, rfl⟩
    · exact .inr ⟨rfl, isNext, targetMem⟩
    · exact .inl ⟨front, rest, rfl, isNext, targetMem⟩
  · rintro (⟨front, back, rfl, isNext, targetMem⟩ | ⟨rfl, isNext, targetMem⟩)
    · exact ⟨front, back ++ [label], by simp, isNext, targetMem⟩
    · exact ⟨visited, [], rfl, isNext, targetMem⟩

/-- The state of the loop agrees with the layout of the visited blocks. -/
structure LaidOut (function : Llvm.Function) (traversal : Traversal) : Prop where
  distinct : traversal.visited.Nodup
  labels : traversal.selection.mirBlocks.map (·.label) = mirLabels function traversal.visited
  callCount : traversal.selection.callCount = callsBefore function traversal.visited
  placed : ∀ placement ∈ traversal.placements, ∃ front back,
    traversal.visited = front ++ placement.label :: back ∧
      placement.first = (mirLabels function front).length ∧
      placement.last = placement.first + callsIn function placement.label
  exists_placement : ∀ label ∈ traversal.visited, ∃ placement ∈ traversal.placements,
    placement.label = label
  latched : ∀ pred target latch, traversal.edgeRemap.lookup (pred, target) = some latch ↔
    LatchedAfter function traversal.visited pred target ∧ latch = pred ++ "__latch__" ++ target
  phis : ∀ label ∈ traversal.visited,
    ∀ incoming ∈ (instructionsOf function label).filterMap phiIncoming,
      ∃ phi ∈ traversal.selection.pendingPhis, phi.phiBlockLabel = label ∧
        rawIncoming (labelOf function) incoming = .ok phi.incoming
  fromPhi : ∀ phi ∈ traversal.selection.pendingPhis, phi.phiBlockLabel ∈ traversal.visited ∧
    ∃ incoming ∈ (instructionsOf function phi.phiBlockLabel).filterMap phiIncoming,
      rawIncoming (labelOf function) incoming = .ok phi.incoming

/-! ### One visit -/

section

variable {module : Llvm.Module} {memorySize : Nat} {function : Llvm.Function} {label : String}
  {traversal after : Traversal}

/-- Adding the successors of a block to the worklist, with the latch of its
false edge. -/
structure Enqueued (label : String) (successors : Successors String)
    (traversal after : Traversal) : Prop where
  worklist : after.worklist = Worklist.enqueue traversal.visited successors traversal.worklist
  visited : after.visited = traversal.visited
  placements : after.placements = traversal.placements
  mirBlocks : after.selection.mirBlocks = traversal.selection.mirBlocks ++
    match successors.next with
    | some target =>
        if target ∈ traversal.visited then
          [⟨label ++ "__latch__" ++ target, [], .jump target⟩] else []
    | none => []
  rest : after.selection = { traversal.selection with mirBlocks := after.selection.mirBlocks }
  edgeRemap : ∀ pred target latch, after.edgeRemap.lookup (pred, target) = some latch ↔
    if pred = label ∧ successors.next = some target ∧ target ∈ traversal.visited then
      latch = label ++ "__latch__" ++ target
    else traversal.edgeRemap.lookup (pred, target) = some latch

theorem enqueueTrue_eq (traversal : Traversal) :
    traversal.enqueueTrue = { traversal with
      worklist := Worklist.pushLater traversal.visited traversal.selection.trueSucc
        traversal.worklist } := by
  unfold Traversal.enqueueTrue
  split
  · rename_i isNone
    rw [isNone]
    rfl
  · rename_i target isSome
    rw [isSome, Worklist.pushLater]
    split <;> rfl

theorem enqueued_of_successors {successors : Successors String}
    (isSuccessors : (⟨traversal.selection.falseSucc, traversal.selection.trueSucc⟩ :
      Successors String) = successors) :
    Enqueued label successors traversal (traversal.enqueueFalse label).enqueueTrue := by
  subst isSuccessors
  cases isFalse : traversal.selection.falseSucc with
  | none =>
      have enqueued : traversal.enqueueFalse label = traversal := by
        simp [Traversal.enqueueFalse, isFalse]
      rw [enqueueTrue_eq, enqueued]
      exact ⟨rfl, rfl, rfl, by simp, rfl, by simp⟩
  | some target =>
      by_cases targetMem : target ∈ traversal.visited
      · have enqueued : traversal.enqueueFalse label = { traversal with
            edgeRemap := traversal.edgeRemap.insert (label, target)
              (label ++ "__latch__" ++ target)
            selection := { traversal.selection with
              mirBlocks := traversal.selection.mirBlocks ++
                [⟨label ++ "__latch__" ++ target, [], .jump target⟩] } } := by
          simp [Traversal.enqueueFalse, isFalse, targetMem]
        rw [enqueueTrue_eq, enqueued]
        refine ⟨?_, rfl, rfl, ?_, rfl, ?_⟩
        · simp [Worklist.enqueue, Worklist.pushNext, targetMem]
        · simp [targetMem]
        · intro pred other latch
          by_cases isEdge : pred = label ∧ other = target
          · obtain ⟨rfl, rfl⟩ := isEdge
            simp [targetMem, eq_comm]
          · have differ : (pred, other) ≠ (label, target) := by simpa using isEdge
            have notEdge :
                ¬(pred = label ∧ some target = some other ∧ other ∈ traversal.visited) := by
              rintro ⟨isLabel, isTarget, -⟩
              exact isEdge ⟨isLabel, (Option.some.inj isTarget).symm⟩
            rw [if_neg notEdge, AList.lookup_insert_ne differ]
      · have enqueued : traversal.enqueueFalse label =
            { traversal with worklist := target :: traversal.worklist } := by
          simp [Traversal.enqueueFalse, isFalse, targetMem]
        rw [enqueueTrue_eq, enqueued]
        refine ⟨?_, rfl, rfl, ?_, rfl, ?_⟩
        · simp [Worklist.enqueue, Worklist.pushNext, targetMem]
        · simp [targetMem]
        · intro pred other latch
          have notEdge :
              ¬(pred = label ∧ some target = some other ∧ other ∈ traversal.visited) := by
            rintro ⟨-, isTarget, otherMem⟩
            exact targetMem (Option.some.inj isTarget ▸ otherMem)
          rw [if_neg notEdge]

/-- A visit. -/
theorem visitBlock_eq_ok
    (visited : visitBlock module memorySize function label traversal = .ok after) :
    ∃ block selection, bbOf function label = some block ∧
      lowerBlock module memorySize function label block traversal.selection = .ok selection ∧
      Enqueued label (successorsOf function label)
        { traversal with
          selection := selection
          visited := traversal.visited ++ [label]
          placements := traversal.placements ++
            [⟨label, traversal.selection.mirBlocks.length, selection.mirBlocks.length - 1⟩] }
        after := by
  obtain ⟨block, isBlock, visited⟩ := bind_eq_ok.mp visited
  obtain ⟨selection, lowered, visited⟩ := bind_eq_ok.mp visited
  rw [expect_eq_ok] at isBlock
  cases visited
  exact ⟨block, selection, isBlock, lowered,
    enqueued_of_successors (finished_of_lowerBlock isBlock lowered).successors⟩

/-- A visit keeps the layout. -/
theorem LaidOut.visitBlock (laidOut : LaidOut function traversal)
    (unvisited : label ∉ traversal.visited)
    (visited : visitBlock module memorySize function label traversal = .ok after) :
    LaidOut function after := by
  obtain ⟨block, selection, isBlock, lowered, enqueued⟩ := visitBlock_eq_ok visited
  have finished := finished_of_lowerBlock isBlock lowered
  obtain ⟨chunk, isChunk, chunkIs⟩ := finished.blocks
  obtain ⟨phis, isPhis, fromPhis⟩ := finished.phis
  have isVisited : after.visited = traversal.visited ++ [label] := enqueued.visited
  refine ⟨?_, ?_, ?_, ?_, ?_, ?_, ?_, ?_⟩
  · rw [isVisited]
    refine List.nodup_append.mpr ⟨laidOut.distinct, List.pairwise_singleton _ label, ?_⟩
    intro node nodeMem other otherMem same
    exact unvisited (List.mem_singleton.mp otherMem ▸ same ▸ nodeMem)
  · rw [isVisited, mirLabels_snoc, enqueued.mirBlocks, List.map_append, isChunk, List.map_append,
      laidOut.labels, chunkIs, laidOut.callCount, List.append_assoc]
    congr 2
    rw [latchLabels]
    cases (successorsOf function label).next with
    | none => rfl
    | some target =>
        dsimp only
        split <;> rfl
  · rw [isVisited, callsBefore_snoc, enqueued.rest, ← laidOut.callCount]
    exact finished.callCount
  · rw [isVisited, enqueued.placements]
    intro placement placementMem
    rcases List.mem_append.mp placementMem with isOld | isNew
    · obtain ⟨front, back, isFront, first, last⟩ := laidOut.placed placement isOld
      exact ⟨front, back ++ [label], by simp [isFront], first, last⟩
    · obtain rfl := List.mem_singleton.mp isNew
      have chunkLength : chunk.length = callsIn function label + 1 := by
        rw [← List.length_map (·.label), chunkIs, length_chunkLabels]
      refine ⟨traversal.visited, [], rfl, ?_, ?_⟩
      · rw [← laidOut.labels, List.length_map]
      · dsimp only
        rw [isChunk, List.length_append, chunkLength]
        rfl
  · rw [isVisited, enqueued.placements]
    intro other otherMem
    rcases List.mem_append.mp otherMem with isOld | isNew
    · obtain ⟨placement, placementMem, isLabel⟩ := laidOut.exists_placement other isOld
      exact ⟨placement, List.mem_append_left _ placementMem, isLabel⟩
    · obtain rfl := List.mem_singleton.mp isNew
      exact ⟨_, List.mem_append_right _ (List.mem_singleton_self _), rfl⟩
  · intro pred target latch
    rw [enqueued.edgeRemap, isVisited, latchedAfter_snoc]
    split
    · rename_i isEdge
      obtain ⟨rfl, isNext, targetMem⟩ := isEdge
      exact ⟨fun isLatch => ⟨.inr ⟨rfl, isNext, targetMem⟩, isLatch⟩, fun both => both.2⟩
    · rename_i notEdge
      rw [or_iff_left notEdge]
      exact laidOut.latched pred target latch
  · rw [isVisited, enqueued.rest]
    intro other otherMem incoming incomingMem
    rw [isPhis]
    rcases List.mem_append.mp otherMem with isOld | isNew
    · obtain ⟨phi, phiMem, isPhi⟩ := laidOut.phis other isOld incoming incomingMem
      exact ⟨phi, List.mem_append_left _ phiMem, isPhi⟩
    · obtain rfl := List.mem_singleton.mp isNew
      obtain ⟨phi, phiMem, isPhi⟩ := exists_image_of_forall₂ fromPhis incomingMem
      exact ⟨phi, List.mem_append_right _ phiMem, isPhi⟩
  · rw [isVisited, enqueued.rest]
    intro phi phiMem
    rw [isPhis] at phiMem
    rcases List.mem_append.mp phiMem with isOld | isNew
    · obtain ⟨blockMem, fromBlock⟩ := laidOut.fromPhi phi isOld
      exact ⟨List.mem_append_left _ blockMem, fromBlock⟩
    · obtain ⟨incoming, incomingMem, rfl, isRaw⟩ := exists_mem_of_forall₂ fromPhis isNew
      exact ⟨List.mem_append_right _ (List.mem_singleton_self _), incoming, incomingMem, isRaw⟩

/-! ### The loop -/

theorem LaidOut.withWorklist (laidOut : LaidOut function traversal) (worklist : List String) :
    LaidOut function { traversal with worklist := worklist } :=
  ⟨laidOut.distinct, laidOut.labels, laidOut.callCount, laidOut.placed, laidOut.exists_placement,
    laidOut.latched, laidOut.phis, laidOut.fromPhi⟩

/-- The loop keeps the layout and visits the blocks in order. -/
theorem LaidOut.traverse {fuel : Nat} (laidOut : LaidOut function traversal)
    (ended : traverse module memorySize function fuel traversal = .ok after) :
    LaidOut function after ∧ after.visited =
      Worklist.order (successorsOf function) fuel traversal.worklist traversal.visited := by
  induction fuel generalizing traversal with
  | zero =>
      unfold Isel.traverse at ended
      split at ended
      · cases ended
        exact ⟨laidOut, by rw [Worklist.order]⟩
      · cases ended
  | succ fuel ih =>
      unfold Isel.traverse at ended
      split at ended
      · rename_i isEmpty
        cases ended
        exact ⟨laidOut, by rw [isEmpty, Worklist.order]; simp⟩
      · rename_i label rest isPending
        dsimp only at ended
        rw [isPending, Worklist.order]
        split at ended
        · rename_i isVisited
          rw [if_pos isVisited]
          exact ih (laidOut.withWorklist rest) ended
        · rename_i unvisited
          rw [if_neg unvisited]
          obtain ⟨middle, visited, ended⟩ := bind_eq_ok.mp ended
          obtain ⟨block, selection, isBlock, lowered, enqueued⟩ := visitBlock_eq_ok visited
          have both := ih ((laidOut.withWorklist rest).visitBlock unvisited visited) ended
          rw [enqueued.worklist, enqueued.visited] at both
          exact both

theorem control_of_bindParams {params : List Llvm.Param} {selection : Selection}
    (bound : bindParams params = .ok selection) :
    selection.control = ({} : Selection).control := by
  unfold bindParams at bound
  generalize ({} : Selection) = start at bound ⊢
  induction params generalizing start with
  | nil =>
      cases bound
      rfl
  | cons param params ih =>
      rw [List.foldlM_cons] at bound
      obtain ⟨middle, first, rest⟩ := bind_eq_ok.mp bound
      have kept : middle.control = start.control := by
        split at first <;> cases first <;> rfl
      rw [ih middle rest, kept]

/-- What every visit and every latch keeps holds of the selected blocks. -/
theorem selectFunction_induct {motive : List String → Selection → Prop}
    (start : ∀ selection, bindParams function.params = .ok selection → motive [] selection)
    (visit : ∀ visited label block selection after, motive visited selection →
      label ∉ visited → bbOf function label = some block →
      lowerBlock module memorySize function label block selection = .ok after →
        motive (visited ++ [label]) after)
    (addLatch : ∀ visited selection latch target, motive visited selection →
      motive visited { selection with
        mirBlocks := selection.mirBlocks ++ [⟨latch, [], .jump target⟩] })
    (selected : selectFunction module memorySize function = .ok traversal) :
    motive traversal.visited traversal.selection := by
  obtain ⟨initial, isInitial, selected⟩ := bind_eq_ok.mp selected
  obtain ⟨entryLabel, -, isInitial⟩ := bind_eq_ok.mp isInitial
  obtain ⟨selection, bound, isInitial⟩ := bind_eq_ok.mp isInitial
  cases isInitial
  have loop : ∀ (fuel : Nat) (current : Traversal), motive current.visited current.selection →
      traverse module memorySize function fuel current = .ok traversal →
        motive traversal.visited traversal.selection := by
    intro fuel
    induction fuel with
    | zero =>
        intro current holds ended
        unfold Isel.traverse at ended
        split at ended
        · cases ended
          exact holds
        · cases ended
    | succ fuel ih =>
        intro current holds ended
        unfold Isel.traverse at ended
        split at ended
        · cases ended
          exact holds
        · rename_i label rest _
          dsimp only at ended
          split at ended
          · exact ih { current with worklist := rest } holds ended
          · rename_i unvisited
            obtain ⟨middle, visited, ended⟩ := bind_eq_ok.mp ended
            refine ih middle ?_ ended
            obtain ⟨block, after, isBlock, lowered, enqueued⟩ := visitBlock_eq_ok visited
            have visitedBlock := visit _ label block _ after holds unvisited isBlock lowered
            rw [enqueued.visited, enqueued.rest, enqueued.mirBlocks]
            cases (successorsOf function label).next with
            | none => simpa using visitedBlock
            | some target =>
                dsimp only
                split
                · exact addLatch _ _ _ _ visitedBlock
                · simpa using visitedBlock
  exact loop _ _ (start selection bound) selected

/-- The selected blocks are laid out in the order of the LLVM function. -/
theorem laidOut_of_selectFunction
    (selected : selectFunction module memorySize function = .ok traversal) :
    LaidOut function traversal ∧ traversal.visited = blockOrder function := by
  obtain ⟨initial, isInitial, selected⟩ := bind_eq_ok.mp selected
  obtain ⟨entryLabel, isEntry, isInitial⟩ := bind_eq_ok.mp isInitial
  obtain ⟨selection, bound, isInitial⟩ := bind_eq_ok.mp isInitial
  cases isInitial
  injection control_of_bindParams bound with noPhis noCalls noBlocks
  have start : LaidOut function { selection := selection, worklist := [entryLabel] } := by
    refine ⟨List.nodup_nil, ?_, ?_, ?_, ?_, ?_, ?_, ?_⟩
    · simp [noBlocks, mirLabels, layoutLabels]
    · simp [noCalls, callsBefore]
    · simp
    · simp
    · simp [LatchedAfter]
    · simp
    · simp [noPhis]
  obtain ⟨laidOut, isVisited⟩ := start.traverse selected
  refine ⟨laidOut, isVisited.trans ?_⟩
  have isFirst := labelOf_eq_ok.mp isEntry
  rw [blockOrder]
  congr 1
  cases isLabels : blockLabels function with
  | nil => simp [isLabels] at isFirst
  | cons head rest =>
      rw [isLabels] at isFirst
      simpa using (Option.some.inj isFirst).symm

end

end VliwCompiler.Isel
