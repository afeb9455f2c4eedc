import VliwCompiler.Schedule.Dag
import VliwCompiler.Error

/-!
# List scheduling

The scheduler keeps a list of nodes whose predecessors have all been issued,
repeatedly issues the one with the greatest height among those whose sources
are ready, and otherwise the one that is ready first.  The output is recorded
as a list of positions in the input block.
-/

namespace VliwCompiler.Schedule

open Mir (Syllable Block Function)

/-- Fold a list to one of its elements; `keep` decides between the element
held so far and the next one. -/
def selectBy {α : Type} (keep : α → α → Bool) (items : List α) : Option α :=
  items.foldl (fun best item =>
    match best with
    | none => some item
    | some held => if keep held item then some held else some item) none

/-- The last element with a maximal key, as `Iterator::max_by_key`. -/
def maxByKey {α : Type} (le : α → α → Bool) (items : List α) : Option α :=
  selectBy (fun held item => !le held item) items

/-- The first element with a minimal key, as `Iterator::min_by_key`. -/
def minByKey {α : Type} (le : α → α → Bool) (items : List α) : Option α :=
  selectBy le items

/-- Remove the element at `pos`, replacing it by the last one. -/
def swapRemove {α : Type} (items : List α) (pos : Nat) : List α :=
  match items.getLast? with
  | some last => (items.set pos last).dropLast
  | none => []

/-- Required cycle of the syllable at `idx`. -/
def requiredCycleAt (syllables : List Syllable) (ready : ReadyState) (idx : Nat) : Nat :=
  ((syllables[idx]?).map (syllableRequiredCycle · ready)).getD 0

/-- Height of the node at `idx`. -/
def heightAt (nodes : List SchedNode) (idx : Nat) : Nat :=
  ((nodes[idx]?).map (·.height)).getD 0

/-- Position in `ready` of the best node whose sources are ready at `cycle`:
greatest height first, then smallest index. -/
def pickReadyNode (syllables : List Syllable) (nodes : List SchedNode) (ready : List Nat)
    (issueReady : ReadyState) (cycle : Nat) : Option Nat :=
  let issuable := ready.zipIdx.filter fun entry =>
    requiredCycleAt syllables issueReady entry.1 ≤ cycle
  (maxByKey (fun left right =>
    heightAt nodes left.1 < heightAt nodes right.1 ||
      (heightAt nodes left.1 = heightAt nodes right.1 && right.1 ≤ left.1)) issuable).map (·.2)

/-- Position in `ready` of the node that can issue first, breaking ties by
greatest height and then smallest index. -/
def earliestReadyNode (syllables : List Syllable) (nodes : List SchedNode) (ready : List Nat)
    (issueReady : ReadyState) : Option Nat :=
  let required := requiredCycleAt syllables issueReady
  (minByKey (fun left right =>
    required left.1 < required right.1 ||
      (required left.1 = required right.1 &&
        (heightAt nodes right.1 < heightAt nodes left.1 ||
          (heightAt nodes left.1 = heightAt nodes right.1 && left.1 ≤ right.1))))
    ready.zipIdx).map (·.2)

/-- The state of the scheduling loop. -/
structure LoopState where
  nodes : List SchedNode
  ready : List Nat
  scheduled : List Bool
  issueReady : ReadyState := {}
  cycle : Nat := 0
  out : List Nat := []

/-- Position in the ready list of the node issued next. -/
def selectPosition (syllables : List Syllable) (state : LoopState) : Option Nat :=
  (pickReadyNode syllables state.nodes state.ready state.issueReady state.cycle).or
    (earliestReadyNode syllables state.nodes state.ready state.issueReady)

/-- Account for one successor of an issued node. -/
def releaseSucc (scheduled : List Bool) (current : List SchedNode × List Nat) (succ : Nat) :
    List SchedNode × List Nat :=
  let nodes := current.1.modify succ fun node =>
    { node with unscheduledPreds := node.unscheduledPreds - 1 }
  if (nodes[succ]?).any (·.unscheduledPreds = 0) && !scheduled.getD succ false then
    (nodes, current.2 ++ [succ])
  else (nodes, current.2)

/-- Issue the node `idx` found at position `pos` of the ready list. -/
def issueNode (state : LoopState) (pos idx : Nat) (syllable : Syllable) (node : SchedNode) :
    LoopState :=
  let required := syllableRequiredCycle syllable state.issueReady
  let cycle := max state.cycle required
  let scheduled := state.scheduled.set idx true
  let released := node.succs.foldl (releaseSucc scheduled) (state.nodes, swapRemove state.ready pos)
  { nodes := released.1
    ready := released.2
    scheduled := scheduled
    issueReady := updateReadyAfterMirSyllable syllable cycle state.issueReady
    cycle := cycle + 1
    out := state.out ++ [idx] }

/-- One iteration of the scheduling loop. -/
def scheduleStep (syllables : List Syllable) (state : LoopState) : Option LoopState :=
  (selectPosition syllables state).bind fun pos =>
    (state.ready[pos]?).bind fun idx =>
      (syllables[idx]?).bind fun syllable =>
        (state.nodes[idx]?).map (issueNode state pos idx syllable)

/-- The scheduling loop; every iteration issues one syllable. -/
def scheduleLoop (syllables : List Syllable) : Nat → LoopState → Option LoopState
  | 0, state => some state
  | remaining + 1, state =>
      (scheduleStep syllables state).bind (scheduleLoop syllables remaining)

/-- The state in which the loop starts. -/
def initialLoopState (syllables : List Syllable) : LoopState :=
  let nodes := computeHeights (buildSchedDag syllables) syllables
  { nodes := nodes
    ready := (List.range nodes.length).filter fun idx =>
      (nodes[idx]?).any (·.unscheduledPreds = 0)
    scheduled := List.replicate syllables.length false }

/-- Reorder a block to hide result latencies. -/
def listScheduleSyllables (syllables : List Syllable) : Outcome (List Syllable) :=
  if syllables.length ≤ 1 then .ok syllables
  else
    (expect "DAG scheduler must have a ready node"
      (scheduleLoop syllables syllables.length (initialLoopState syllables))).map
      fun final => final.out.filterMap (syllables[·]?)

/-- Schedule the syllables of a block. -/
def listScheduleBlock (block : Block) : Outcome Block :=
  (listScheduleSyllables block.syllables).map fun syllables =>
    { block with syllables := syllables }

/-- Schedule every block of a function. -/
def listScheduleFunction (function : Function) : Outcome Function :=
  (function.blocks.mapM listScheduleBlock).map fun blocks => { function with blocks := blocks }

end VliwCompiler.Schedule
