import VliwCompiler.Mir.Syntax
import VliwCompiler.Asm.Verify
import VliwCompiler.Data.MapM
import VliwCompiler.Error

/-!
# Liveness analysis

Per-block live-in and live-out sets by backward iteration to a fixpoint.  Only
virtual registers are tracked.  Sets are 64-bit masks; inserting a larger index
fails the assertion of the source.
-/

namespace VliwCompiler

open Mir (Reg Value Syllable Terminator Block Function)

namespace Liveness

/-- A set of virtual-register indices stored as a 64-bit mask. -/
structure LiveSet where
  bits : BitVec 64 := 0
  deriving DecidableEq, Repr

namespace LiveSet

def insert (set : LiveSet) (idx : Nat) : Outcome LiveSet :=
  if idx < 64 then .ok ⟨set.bits ||| 1#64 <<< idx⟩
  else .error (.panic "VReg index out of LiveSet range")

def contains (set : LiveSet) (idx : Nat) : Bool :=
  idx < 64 && (set.bits >>> idx) &&& 1#64 == 1#64

def union (set other : LiveSet) : LiveSet := ⟨set.bits ||| other.bits⟩

def difference (set other : LiveSet) : LiveSet := ⟨set.bits &&& ~~~other.bits⟩

theorem contains_eq (set : LiveSet) (idx : Nat) : set.contains idx = set.bits.getLsbD idx := by
  have lowBit : ((set.bits >>> idx) &&& 1#64 == 1#64) = set.bits.getLsbD idx := by
    rw [BitVec.and_one_eq_setWidth_ofBool_getLsbD, BitVec.getLsbD_ushiftRight, Nat.add_zero]
    cases set.bits.getLsbD idx <;> rfl
  unfold contains
  rw [lowBit]
  cases isSet : set.bits.getLsbD idx with
  | false => simp
  | true => simp [BitVec.lt_of_getLsbD isSet]

@[simp]
theorem contains_empty (idx : Nat) : (LiveSet.mk 0#64).contains idx = false := by
  simp [contains_eq]

@[simp]
theorem contains_union (set other : LiveSet) (idx : Nat) :
    (set.union other).contains idx = (set.contains idx || other.contains idx) := by
  simp [contains_eq, union]

@[simp]
theorem contains_difference (set other : LiveSet) (idx : Nat) :
    (set.difference other).contains idx = (set.contains idx && !other.contains idx) := by
  simp only [contains_eq, difference, BitVec.getLsbD_and, BitVec.getLsbD_not]
  cases isSet : set.bits.getLsbD idx with
  | false => simp
  | true => simp [BitVec.lt_of_getLsbD isSet]

theorem contains_insert {set result : LiveSet} {idx : Nat} (done : set.insert idx = .ok result)
    (other : Nat) : result.contains other = (set.contains other || other == idx) := by
  unfold insert at done
  split at done
  · cases done
    rename_i inside
    simp only [contains_eq, BitVec.getLsbD_or, BitVec.getLsbD_shiftLeft, BitVec.getLsbD_one]
    congr 1
    rw [Bool.eq_iff_iff]
    simp
    omega
  · cases done

theorem lt_of_insert {set result : LiveSet} {idx : Nat} (done : set.insert idx = .ok result) :
    idx < 64 := by
  unfold insert at done
  split at done
  · assumption
  · cases done

end LiveSet

/-- Liveness of one block. -/
structure BlockInfo where
  useBeforeDef : LiveSet := {}
  defs : LiveSet := {}
  liveIn : LiveSet := {}
  liveOut : LiveSet := {}
  deriving DecidableEq, Repr

/-! ### Uses and definitions of a block -/

/-- A read of a virtual register. -/
def scanVreg (info : BlockInfo) (idx : Nat) : Outcome BlockInfo :=
  if info.defs.contains idx then .ok info
  else (info.useBeforeDef.insert idx).map fun uses => { info with useBeforeDef := uses }

def scanSource (info : BlockInfo) : Value → Outcome BlockInfo
  | .reg (.vreg idx) => scanVreg info idx
  | _ => .ok info

def scanSyllable (info : BlockInfo) (syllable : Syllable) : Outcome BlockInfo := do
  let info ← syllable.srcs.foldlM scanSource info
  match syllable.dst with
  | some (.vreg idx) => (info.defs.insert idx).map fun defs => { info with defs := defs }
  | _ => return info

def scanTerminator (info : BlockInfo) : Terminator → Outcome BlockInfo
  | .branch (.vreg idx) _ => scanVreg info idx
  | _ => .ok info

/-- The first pass over a block. -/
def scanBlock (block : Block) : Outcome BlockInfo := do
  let info ← block.syllables.foldlM scanSyllable {}
  scanTerminator info block.terminator

/-! ### Fixpoint iteration -/

/-- Block indices by label. -/
def labelToIdx (function : Function) : HashMap String Nat :=
  function.blocks.zipIdx.foldl (fun map (block, i) => map.insert block.label i) ∅

/-- The successors of a block in the control-flow graph. -/
def successors (function : Function) (i : Nat) (block : Block) : List Nat :=
  match block.terminator with
  | .branch _ label =>
      let succs := ((labelToIdx function).lookup label).toList
      let fall := i + 1
      if fall < function.blocks.length ∧ fall ∉ succs then succs ++ [fall] else succs
  | .jump label => ((labelToIdx function).lookup label).toList
  | .ret => []
  | .directCall _ cont => ((labelToIdx function).lookup cont).toList

/-- Recompute the sets of one block; the flag records whether they changed. -/
def updateBlock (function : Function) (state : List BlockInfo × Bool) (i : Nat) :
    List BlockInfo × Bool :=
  match function.blocks[i]?, state.1[i]? with
  | some block, some info =>
      let newLiveOut := (successors function i block).foldl
        (fun acc s => acc.union (state.1[s]?.getD {}).liveIn) {}
      let newLiveIn := info.useBeforeDef.union (newLiveOut.difference info.defs)
      if newLiveOut ≠ info.liveOut ∨ newLiveIn ≠ info.liveIn then
        (state.1.set i { info with liveOut := newLiveOut, liveIn := newLiveIn }, true)
      else state
  | _, _ => state

/-- One backward pass over all blocks. -/
def sweep (function : Function) (infos : List BlockInfo) : List BlockInfo × Bool :=
  (List.range infos.length).reverse.foldl (updateBlock function) (infos, false)

/-- Iterate until nothing changes. -/
def iterate (function : Function) : Nat → List BlockInfo → Outcome (List BlockInfo)
  | 0, _ => .error .diverges
  | fuel + 1, infos =>
      let next := sweep function infos
      if next.2 then iterate function fuel next.1 else .ok next.1

/-- Liveness of a function.  Every pass but the last adds an element to one of
the sets. -/
def compute (function : Function) : Outcome (List BlockInfo) := do
  let infos ← function.blocks.mapM scanBlock
  iterate function (128 * function.blocks.length + 1) infos

end Liveness

end VliwCompiler
