import VliwCompiler.Regalloc.Liveness
import VliwCompiler.Regs

/-!
# Linear virtual-register allocator

The allocator walks the blocks in layout order and binds every virtual register
to a physical one when it first meets it.  Registers whose value is no longer
needed go back to the front of the free list; when the list is empty some
unprotected register is spilled.  Which one depends on the iteration order of a
hash map, so the order is a parameter.
-/

namespace VliwCompiler

open Asm (I64)
open Mir (Reg Value Syllable Terminator Block Function)
open Liveness (LiveSet)

namespace Regalloc

/-- The order in which the entries of a hash map are visited, possibly another
one at every search. -/
structure HashOrder where
  entries : Nat → HashMap Nat UInt8 → List (Nat × UInt8)
  perm : ∀ search map, (entries search map).Perm (map.entries.map fun entry => (entry.1, entry.2))

/-- Entries of a hash map in the order of insertion. -/
def insertionOrder : HashOrder where
  entries _ map := map.entries.map fun entry => (entry.1, entry.2)
  perm _ _ := .refl _

/-- Bytes of a spill slot. -/
def spillSlotBytes : I64 := 8

/-- Position of the last read of every virtual register in a block whose first
syllable is at position `pos`. -/
def blockLastUses (pos : Nat) (block : Block) : HashMap Nat Nat :=
  let uses := (block.syllables.zipIdx pos).foldl (fun uses (syllable, pos) =>
    syllable.sourceVregs.foldl (fun uses vreg => uses.insert vreg pos) uses) ∅
  match block.terminator.condVreg with
  | some vreg => uses.insert vreg (pos + block.syllables.length)
  | none => uses

/-- The last reads of consecutive blocks. -/
def lastUsesFrom : Nat → List Block → List (HashMap Nat Nat)
  | _, [] => []
  | pos, block :: rest =>
      blockLastUses pos block :: lastUsesFrom (pos + block.syllables.length + 1) rest

def computeBlockLastUses (function : Function) : List (HashMap Nat Nat) :=
  lastUsesFrom 0 function.blocks

/-- State of the allocator.  `victims` lists the registers spilled so far. -/
structure Allocator where
  lastUses : List (HashMap Nat Nat)
  liveOut : List LiveSet
  assigned : HashMap Nat UInt8
  free : List UInt8
  spillSlots : HashMap Nat I64
  nextSpillSlot : Nat
  spillBase : I64
  victims : List Nat

namespace Allocator

/-- The registers available to the allocator. -/
def allocatable : List UInt8 :=
  (List.range (lastAllocatableGpr.toNat - firstAllocatableGpr.toNat + 1)).map fun k =>
    firstAllocatableGpr + UInt8.ofNat k

def new (lastUses : List (HashMap Nat Nat)) (liveOut : List LiveSet) (spillBase : I64) :
    Allocator where
  lastUses := lastUses
  liveOut := liveOut
  assigned := ∅
  free := allocatable
  spillSlots := ∅
  nextSpillSlot := 0
  spillBase := spillBase
  victims := []

section Queries

variable (alloc : Allocator) (vreg blockIdx pos : Nat)

def isLiveOut : Bool := (alloc.liveOut[blockIdx]?.getD {}).contains vreg

/-- Position of the last read in a block. -/
def lastUse : Option Nat := (alloc.lastUses[blockIdx]?).bind (·.lookup vreg)

def canFreeAfter : Bool := alloc.lastUse vreg blockIdx = some pos && !alloc.isLiveOut vreg blockIdx

def hasLaterBlockUse : Bool := (alloc.lastUse vreg blockIdx).any (pos < ·)

/-- How often the register was spilled. -/
def spills : Nat := alloc.victims.count vreg

end Queries

def freeVreg (alloc : Allocator) (vreg : Nat) : Allocator :=
  match alloc.assigned.lookup vreg with
  | some preg =>
      { alloc with assigned := alloc.assigned.erase vreg, free := preg :: alloc.free }
  | none => alloc

/-- Compute the address of the spill slot with the given number. -/
def slotAddress (base : I64) (k : Nat) : Outcome I64 := do
  let offset ← checkedMul (BitVec.ofNat 64 k) spillSlotBytes
  checkedAdd base offset

/-- The spill slot of a register, a new one if it has none yet. -/
def spillSlot (alloc : Allocator) (vreg : Nat) : Outcome (I64 × Allocator) :=
  match alloc.spillSlots.lookup vreg with
  | some slot => .ok (slot, alloc)
  | none => do
      let slot ← slotAddress alloc.spillBase alloc.nextSpillSlot
      return (slot, { alloc with
        spillSlots := alloc.spillSlots.insert vreg slot
        nextSpillSlot := alloc.nextSpillSlot + 1 })

/-- Take the register of `victim` away and find its spill slot. -/
def evict (alloc : Allocator) (victim : Nat) : Outcome (I64 × Allocator) :=
  Allocator.spillSlot { alloc with
    assigned := alloc.assigned.erase victim
    victims := victim :: alloc.victims } victim

end Allocator

/-- Store of a register to its spill slot. -/
def spillStore (slot : I64) (preg : UInt8) : Syllable :=
  ⟨.storeD, none, [.stack slot, .reg (.preg preg)]⟩

/-- Load of a register from its spill slot. -/
def spillLoad (preg : UInt8) (slot : I64) : Syllable := ⟨.loadD, some (.preg preg), [.stack slot]⟩

/-- The allocator together with the syllables inserted so far. -/
structure Work where
  alloc : Allocator
  inserted : List Syllable

section Rewriting

variable (order : HashOrder)

def allocPreg (requestingVreg : Nat) (protectedVregs : List Nat) (work : Work) :
    Outcome (UInt8 × Work) :=
  match work.alloc.free with
  | preg :: free => .ok (preg, { work with alloc := { work.alloc with free := free } })
  | [] =>
      match (order.entries work.alloc.victims.length work.alloc.assigned).find?
          (·.1 ∉ protectedVregs) with
      | none => .error (.error (.outOfRegisters requestingVreg))
      | some (victim, preg) => do
          let (slot, alloc) ← work.alloc.evict victim
          return (preg, ⟨alloc, work.inserted ++ [spillStore slot preg]⟩)

def pregForVreg (vreg : Nat) (protectedVregs : List Nat) (work : Work) :
    Outcome (UInt8 × Work) :=
  match work.alloc.assigned.lookup vreg with
  | some preg => .ok (preg, work)
  | none => do
      let (preg, work) ← allocPreg order vreg protectedVregs work
      let alloc := { work.alloc with assigned := work.alloc.assigned.insert vreg preg }
      match alloc.spillSlots.lookup vreg with
      | some slot => return (preg, ⟨alloc, work.inserted ++ [spillLoad preg slot]⟩)
      | none => return (preg, { work with alloc := alloc })

def rewriteValue (protectedVregs : List Nat) (work : Work) : Value → Outcome (Value × Work)
  | .reg (.vreg vreg) => do
      let (preg, work) ← pregForVreg order vreg protectedVregs work
      return (.reg (.preg preg), work)
  | value => .ok (value, work)

/-- Rewrite the operands from left to right. -/
def rewriteValues (protectedVregs : List Nat) (work : Work) :
    List Value → Outcome (List Value × Work)
  | [] => .ok ([], work)
  | value :: values => do
      let (first, work) ← rewriteValue order protectedVregs work value
      let (others, work) ← rewriteValues protectedVregs work values
      return (first :: others, work)

/-- Free the sources that are read for the last time, except a register that
is written as well. -/
def freeSources (dstVreg : Option Nat) (blockIdx pos : Nat) (state : Allocator × List Nat) :
    List Nat → Allocator × List Nat
  | [] => state
  | vreg :: vregs =>
      if some vreg ≠ dstVreg ∧ state.1.canFreeAfter vreg blockIdx pos then
        freeSources dstVreg blockIdx pos (state.1.freeVreg vreg, state.2.filter (· ≠ vreg)) vregs
      else freeSources dstVreg blockIdx pos state vregs

def rewriteDst (protectedVregs : List Nat) (blockIdx pos : Nat) (work : Work) :
    Option Reg → Outcome (Option Reg × Work)
  | some (.vreg vreg) => do
      let (preg, work) ← pregForVreg order vreg protectedVregs work
      let alloc :=
        if !work.alloc.hasLaterBlockUse vreg blockIdx pos && !work.alloc.isLiveOut vreg blockIdx
        then work.alloc.freeVreg vreg
        else work.alloc
      return (some (.preg preg), { work with alloc := alloc })
  | other => .ok (other, work)

def rewriteSyllable (alloc : Allocator) (syllable : Syllable) (blockIdx pos : Nat) :
    Outcome (List Syllable × Allocator) := do
  let (srcs, work) ← rewriteValues order syllable.sourceVregs ⟨alloc, []⟩ syllable.srcs
  let (freed, protectedVregs) := freeSources syllable.dstVreg blockIdx pos
    (work.alloc, syllable.sourceVregs) syllable.sourceVregs
  let (dst, work) ← rewriteDst order protectedVregs blockIdx pos { work with alloc := freed }
    syllable.dst
  return (work.inserted ++ [⟨syllable.opcode, dst, srcs⟩], work.alloc)

def rewriteTerminator (alloc : Allocator) (terminator : Terminator) (blockIdx pos : Nat) :
    Outcome ((List Syllable × Terminator) × Allocator) :=
  match terminator with
  | .branch (.vreg vreg) label => do
      let (preg, work) ← pregForVreg order vreg [vreg] ⟨alloc, []⟩
      let alloc :=
        if work.alloc.canFreeAfter vreg blockIdx pos then work.alloc.freeVreg vreg else work.alloc
      return ((work.inserted, .branch (.preg preg) label), alloc)
  | other => .ok (([], other), alloc)

/-- Rewrite the syllables of a block, starting at position `pos`. -/
def rewriteSyllables (blockIdx : Nat) :
    Nat → Allocator → List Syllable → Outcome (List Syllable × Allocator)
  | _, alloc, [] => .ok ([], alloc)
  | pos, alloc, syllable :: rest => do
      let (first, alloc) ← rewriteSyllable order alloc syllable blockIdx pos
      let (others, alloc) ← rewriteSyllables blockIdx (pos + 1) alloc rest
      return (first ++ others, alloc)

def rewriteBlock (blockIdx pos : Nat) (alloc : Allocator) (block : Block) :
    Outcome (Block × Allocator) := do
  let (syllables, alloc) ← rewriteSyllables order blockIdx pos alloc block.syllables
  let ((inserted, terminator), alloc) ←
    rewriteTerminator order alloc block.terminator blockIdx (pos + block.syllables.length)
  return (⟨block.label, syllables ++ inserted, terminator⟩, alloc)

/-- Rewrite blocks in layout order; every syllable and every terminator has its
own position. -/
def rewriteBlocks : Nat → Nat → Allocator → List Block → Outcome (List Block × Allocator)
  | _, _, alloc, [] => .ok ([], alloc)
  | blockIdx, pos, alloc, block :: rest => do
      let (first, alloc) ← rewriteBlock order blockIdx pos alloc block
      let (others, alloc) ←
        rewriteBlocks (blockIdx + 1) (pos + block.syllables.length + 1) alloc rest
      return (first :: others, alloc)

/-- The allocator a function starts with. -/
def initialAllocator (function : Function) (memorySize : Nat) : Outcome Allocator := do
  let infos ← Liveness.compute function
  let base ← spillBase memorySize
  return .new (computeBlockLastUses function) (infos.map (·.liveOut)) base

/-- Rewrite all virtual registers of a function to physical ones. -/
def allocateRegisters (function : Function) (memorySize : Nat) : Outcome Function := do
  let alloc ← initialAllocator function memorySize
  let (blocks, _) ← rewriteBlocks order 0 0 alloc function.blocks
  return ⟨function.name, blocks⟩

end Rewriting

end Regalloc

end VliwCompiler
