import VliwCompiler.Schedule.Ready
import VliwCompiler.Codegen.Slots
import Mathlib.Data.List.Sort
import Mathlib.Logic.Relation

/-!
# The dependence graph of a block

`buildSchedDag` scans a block once.  It remembers only the last writer of each
register, the readers since that write, the last memory barrier and the memory
operations seen so far, and adds an edge from each of those to the syllable it
visits.  Dependences on older syllables are represented by paths.
-/

namespace VliwCompiler.Schedule

open Asm (Opcode)
open Mir (Value Syllable)

/-- A node of the dependence graph. -/
structure SchedNode where
  succs : List Nat
  unscheduledPreds : Nat
  height : Nat
  deriving DecidableEq, Repr

/-- Alias classes of memory operations. -/
inductive MemoryBucket where
  | stack
  | global
  | unknown
  deriving DecidableEq, Repr

/-- The base address operand of a load or store. -/
def memoryBaseValue (syllable : Syllable) : Option Value :=
  match syllable.opcode with
  | .loadB | .loadH | .loadW | .loadD => syllable.srcs.head?
  | .storeB | .storeH | .storeW | .storeD => syllable.srcs.head?
  | _ => none

/-- The alias class of a memory operation. -/
def memoryBucket (syllable : Syllable) : MemoryBucket :=
  match memoryBaseValue syllable with
  | none => .unknown
  | some (.stack _) => .stack
  | some (.imm _) => .global
  | some (.reg _) => .unknown

/-- Whether operations of two alias classes may touch the same memory. -/
def memoryBucketsMayAlias (lhs rhs : MemoryBucket) : Bool :=
  lhs = .unknown || rhs = .unknown || lhs = rhs

/-- Insertion into an ordered set. -/
def btreeInsert (value : Nat) (set : List Nat) : List Nat :=
  if value ∈ set then set else set.orderedInsert (· ≤ ·) value

/-- Successor sets indexed by syllable. -/
abbrev SuccSets := List (List Nat)

/-- Insert `target` into the successors of `source`. -/
def addEdge (sets : SuccSets) (source target : Nat) : SuccSets :=
  sets.modify source (btreeInsert target)

/-- The state of the scan. -/
structure DagState where
  succSets : SuccSets
  lastWriter : HashMap RegKey Nat := ∅
  lastReaders : HashMap RegKey (List Nat) := ∅
  lastUnknownMemoryBarrier : Option Nat := none
  priorMemory : List (Nat × MemoryBucket) := []

namespace DagState

/-- Order the visited syllable after the last barrier. -/
def visitBarrier (state : DagState) (idx : Nat) : DagState :=
  match state.lastUnknownMemoryBarrier with
  | some barrier => { state with succSets := addEdge state.succSets barrier idx }
  | none => state

/-- Record one source of the visited syllable. -/
def visitSource (idx : Nat) (state : DagState) (src : RegKey) : DagState :=
  { state with
    succSets :=
      match state.lastWriter.lookup src with
      | some writer => addEdge state.succSets writer idx
      | none => state.succSets
    lastReaders := state.lastReaders.insert src ((state.lastReaders.lookup src).getD [] ++ [idx]) }

/-- Record the destination of the visited syllable. -/
def visitDest (idx : Nat) (state : DagState) (dst : RegKey) : DagState :=
  let afterWriter :=
    match state.lastWriter.lookup dst with
    | some writer => addEdge state.succSets writer idx
    | none => state.succSets
  let readers := (state.lastReaders.lookup dst).getD []
  { state with
    lastWriter := state.lastWriter.insert dst idx
    lastReaders := state.lastReaders.erase dst
    succSets := (readers.filter (· ≠ idx)).foldl (fun sets reader => addEdge sets reader idx)
      afterWriter }

/-- Record the memory access of the visited syllable. -/
def visitMemory (idx : Nat) (syllable : Syllable) (state : DagState) : DagState :=
  if isMemoryOpcode syllable.opcode then
    let bucket := memoryBucket syllable
    let recorded := { state with priorMemory := state.priorMemory ++ [(idx, bucket)] }
    if bucket = .unknown then
      { recorded with
        succSets := (List.range idx).foldl (fun sets prior => addEdge sets prior idx)
          state.succSets
        lastUnknownMemoryBarrier := some idx }
    else
      { recorded with
        succSets :=
          (state.priorMemory.filter fun prior => memoryBucketsMayAlias prior.2 bucket).foldl
            (fun sets prior => addEdge sets prior.1 idx) state.succSets }
  else state

/-- Visit one syllable. -/
def visit (state : DagState) (idx : Nat) (syllable : Syllable) : DagState :=
  let afterBarrier := state.visitBarrier idx
  let afterSources := (sourceRegKeys syllable).foldl (visitSource idx) afterBarrier
  let afterDest :=
    match destRegKey syllable with
    | some dst => visitDest idx afterSources dst
    | none => afterSources
  visitMemory idx syllable afterDest

end DagState

/-- Scan a block from left to right. -/
def scanBlock (syllables : List Syllable) : DagState :=
  syllables.zipIdx.foldl (fun state entry => state.visit entry.2 entry.1)
    { succSets := List.replicate syllables.length [] }

/-- The number of predecessors of `target`. -/
def predCount (sets : SuccSets) (target : Nat) : Nat :=
  (sets.map fun succs => succs.count target).sum

/-- The dependence graph of a block, with heights still to be computed. -/
def buildSchedDag (syllables : List Syllable) : List SchedNode :=
  let sets := (scanBlock syllables).succSets
  sets.zipIdx.map fun entry =>
    { succs := entry.1, unscheduledPreds := predCount sets entry.2, height := 0 }

/-- Longest latency path from each node, computed from the last node back. -/
def computeHeights (nodes : List SchedNode) (syllables : List Syllable) : List SchedNode :=
  (List.range nodes.length).reverse.foldl
    (fun current idx =>
      match current[idx]?, syllables[idx]? with
      | some node, some syllable =>
          let succHeight :=
            (node.succs.filterMap fun succ => (current[succ]?).map (·.height)).foldl max 0
          current.set idx { node with height := syllable.opcode.latency + succHeight }
      | _, _ => current)
    nodes

end VliwCompiler.Schedule
