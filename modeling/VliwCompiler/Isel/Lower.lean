import VliwCompiler.Isel.Select

/-!
# Lowering of functions

The blocks of a function are visited from a worklist that starts with the entry
block.  The false successor of a conditional branch is visited next, so that it
follows the branch in the layout; when it was visited before, an empty *latch*
block that jumps to it takes its place.  The phis are lowered at the end.
-/

namespace VliwCompiler.Isel

open Asm (I64)
open Mir (Block)
open Llvm (BlockRef)

/-! ### Labels -/

/-- The label of the block with the given index. -/
def blockLabel (idx : Nat) (block : Llvm.Block) : String :=
  if block.name = "" then "bb" ++ toString idx else block.name

/-- The labels of the blocks of a function. -/
def blockLabels (function : Llvm.Function) : List String :=
  function.blocks.mapIdx blockLabel

def labelOf (function : Llvm.Function) (block : BlockRef) : Outcome String :=
  expect "block not in label_of" (blockLabels function)[block]?

/-- The block with the given label; the last one if there are several. -/
def bbOf (function : Llvm.Function) (label : String) : Option Llvm.Block :=
  (((blockLabels function).zip function.blocks).reverse.find? (·.1 = label)).map (·.2)

/-! ### Traversal -/

/-- Begin the first MIR block of the block `label`. -/
def Selection.begin (selection : Selection) (label : String) : Selection :=
  { selection with
    currentMirLabel := label
    syllables := []
    terminator := .ret
    falseSucc := none
    trueSucc := none }

/-- Finish the MIR block under construction. -/
def Selection.finish (selection : Selection) : Selection :=
  { selection with
    mirBlocks := selection.mirBlocks ++
      [⟨selection.currentMirLabel, selection.syllables, selection.terminator⟩] }

/-- Where the code of an LLVM block is: the indices of its first MIR block and
of the one with its terminator. -/
structure Placement where
  label : String
  first : Nat
  last : Nat
  deriving DecidableEq, Repr

/-- Variables of the loop over the worklist.  `placements` records where the
visited blocks are. -/
structure Traversal where
  selection : Selection
  edgeRemap : HashMap (String × String) String := ∅
  worklist : List String
  visited : List String := []
  placements : List Placement := []

namespace Traversal

/-- Visit the false successor of `label` next, or make a latch for it. -/
def enqueueFalse (label : String) (traversal : Traversal) : Traversal :=
  match traversal.selection.falseSucc with
  | none => traversal
  | some target =>
      if target ∈ traversal.visited then
        let latch := label ++ "__latch__" ++ target
        { traversal with
          edgeRemap := traversal.edgeRemap.insert (label, target) latch
          selection := { traversal.selection with
            mirBlocks := traversal.selection.mirBlocks ++ [⟨latch, [], .jump target⟩] } }
      else { traversal with worklist := target :: traversal.worklist }

/-- Visit the other successor later. -/
def enqueueTrue (traversal : Traversal) : Traversal :=
  match traversal.selection.trueSucc with
  | none => traversal
  | some target =>
      if target ∈ traversal.visited then traversal
      else { traversal with worklist := traversal.worklist ++ [target] }

end Traversal

section

variable (module : Llvm.Module) (memorySize : Nat) (function : Llvm.Function)

/-- Lower the instructions of a block. -/
def lowerBlock (label : String) (block : Llvm.Block) (selection : Selection) :
    Outcome Selection := do
  let selection ← block.instructions.foldlM
    (lowerInstruction module memorySize (labelOf function) label) (selection.begin label)
  return selection.finish

/-- Visit the block `label`. -/
def visitBlock (label : String) (traversal : Traversal) : Outcome Traversal := do
  let block ← expect "label not in bb_of" (bbOf function label)
  let selection ← lowerBlock module memorySize function label block traversal.selection
  let placement : Placement :=
    ⟨label, traversal.selection.mirBlocks.length, selection.mirBlocks.length - 1⟩
  let traversal := { traversal with
    selection := selection
    visited := traversal.visited ++ [label]
    placements := traversal.placements ++ [placement] }
  return (traversal.enqueueFalse label).enqueueTrue

/-- The loop over the worklist. -/
def traverse : Nat → Traversal → Outcome Traversal
  | fuel, traversal =>
      match traversal.worklist with
      | [] => .ok traversal
      | label :: rest =>
          match fuel with
          | 0 => .error .diverges
          | fuel + 1 =>
              let traversal := { traversal with worklist := rest }
              if label ∈ traversal.visited then traverse fuel traversal
              else do traverse fuel (← visitBlock module memorySize function label traversal)

end

/-! ### Phis -/

/-- The source of the copy for an incoming value. -/
def copySrc (selection : Selection) : RawPhiVal → Outcome CopySrc
  | .const value => .ok (.const value)
  | .llvmRef key => do
      let vreg ← expect "phi incoming value not found in vreg_map after ISel"
        (key.bind selection.vregMap.lookup)
      return .vreg vreg

/-- The block that receives the copies of an edge. -/
def actualPred (edgeRemap : HashMap (String × String) String) (pred phiBlock : String) : String :=
  (edgeRemap.lookup (pred, phiBlock)).getD pred

/-- Copies by the label of the block that receives them. -/
abbrev CopyTable := HashMap String (List PhiCopy)

/-- The copy of one incoming value. -/
def addCopy (traversal : Traversal) (phi : PendingPhi) (table : CopyTable)
    (incoming : String × RawPhiVal) : Outcome CopyTable := do
  let pred := actualPred traversal.edgeRemap incoming.1 phi.phiBlockLabel
  let src ← copySrc traversal.selection incoming.2
  return table.insert pred ((table.lookup pred).getD [] ++ [⟨phi.dst, src⟩])

def copiesPerBlock (traversal : Traversal) : Outcome CopyTable :=
  traversal.selection.pendingPhis.foldlM
    (fun table phi => phi.incoming.foldlM (addCopy traversal phi) table) ∅

/-- The order in which the table of copies is visited. -/
structure CopyOrder where
  entries : CopyTable → List (String × List PhiCopy)
  perm : ∀ table, (entries table).Perm (table.entries.map fun entry => (entry.1, entry.2))

/-! ### Functions -/

/-- Give every parameter a virtual register. -/
def bindParams (params : List Llvm.Param) : Outcome Selection :=
  params.foldlM (fun selection param =>
    match param.type with
    | .int _ | .ptr => .ok (selection.bindVreg param.ref)
    | _ => .error (.panic "unsupported function parameter type")) {}

/-- The traversal before the first block is visited. -/
def initialTraversal (function : Llvm.Function) : Outcome Traversal := do
  let entryLabel ← labelOf function 0
  let selection ← bindParams function.params
  return { selection := selection, worklist := [entryLabel] }

/-- Every visit takes a label from the worklist and adds at most two. -/
def traversalFuel (function : Llvm.Function) : Nat := 2 * function.blocks.length + 1

/-- All blocks before phi lowering. -/
def selectFunction (module : Llvm.Module) (memorySize : Nat) (function : Llvm.Function) :
    Outcome Traversal := do
  traverse module memorySize function (traversalFuel function) (← initialTraversal function)

def lowerFunction (order : CopyOrder) (module : Llvm.Module) (memorySize : Nat)
    (function : Llvm.Function) : Outcome Mir.Function := do
  let traversal ← selectFunction module memorySize function
  let table ← copiesPerBlock traversal
  let (blocks, _) ← lowerPhiCopies traversal.selection.mirBlocks (order.entries table)
    traversal.selection.nextVreg
  return ⟨function.name, blocks⟩

def lowerAllFunctions (orders : Nat → CopyOrder) (module : Llvm.Module) (memorySize : Nat) :
    Outcome (List Mir.Function) :=
  ((module.filter (·.blocks ≠ [])).zipIdx).mapM fun (function, k) =>
    lowerFunction (orders k) module memorySize function

end VliwCompiler.Isel
