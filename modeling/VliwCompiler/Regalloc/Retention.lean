import VliwCompiler.Regalloc.Blocks
import VliwCompiler.Regalloc.Exactness

/-!
# Registers of values that leave a block

A virtual register that is read after the end of a block keeps its physical
register while the block is rewritten, unless it is spilled.  The analysis this
rests on covers the indices a live set can hold.
-/

namespace VliwCompiler.Regalloc

open Mir (Syllable Terminator Block Function)
open Liveness (LiveAfter Flow ReadLater SmallIndices)

/-- A register that held or received a physical register in a step still has
one afterwards, unless it was spilled, and that one is not free. -/
structure Retained (alloc alloc' : Allocator) (touched : Prop) (v : Nat) : Prop where
  same : ∀ preg, alloc.assigned.lookup v = some preg → alloc'.spills v = alloc.spills v →
    alloc'.assigned.lookup v = some preg
  received : touched → alloc'.assigned.lookup v ≠ none
  taken : ∀ preg, alloc'.assigned.lookup v = some preg → preg ∉ alloc'.free

theorem retained_syllable {keeps : Prop} {limit : Nat} {alloc alloc' : Allocator}
    {syllable : Syllable} {blockIdx pos : Nat} {code : List Syllable} {rename : Nat → UInt8}
    {dst : Option Mir.Reg}
    (rewritten : Rewritten keeps limit alloc syllable blockIdx pos code rename dst alloc') {v : Nat}
    (isOut : alloc.isLiveOut v blockIdx = true) :
    Retained alloc alloc' (v ∈ syllable.sourceVregs ∨ syllable.dstVreg = some v) v := by
  have alive : ¬LastRead alloc syllable blockIdx pos v := by
    rintro ⟨-, -, canFree⟩
    simp [Allocator.canFreeAfter, isOut] at canFree
  have needed : alloc.needsAfter v blockIdx pos = true := by
    simp [Allocator.needsAfter, isOut]
  refine ⟨?_, ?_, fun preg => rewritten.pool.apart⟩
  · intro preg bound same
    by_cases isDst : syllable.dstVreg = some v
    · obtain ⟨other, -, -, -, isBound, unspilled⟩ := rewritten.vregDst v isDst
      rw [isBound, if_pos needed, unspilled same preg bound]
    · exact rewritten.unspilled same isDst alive bound
  · intro touched
    by_cases isDst : syllable.dstVreg = some v
    · obtain ⟨preg, -, -, -, isBound, -⟩ := rewritten.vregDst v isDst
      rw [isBound, if_pos needed]
      exact Option.some_ne_none _
    · rw [rewritten.held v (touched.resolve_right isDst) isDst alive]
      exact Option.some_ne_none _

theorem retained_terminator {limit : Nat} {alloc alloc' : Allocator}
    {terminator terminator' : Terminator} {i pos : Nat} {inserted : List Syllable}
    (ended : Ended limit alloc terminator i pos inserted terminator' alloc') {v : Nat}
    (isOut : alloc.isLiveOut v i = true) :
    Retained alloc alloc' (terminator.condVreg = some v) v := by
  have alive : alloc.canFreeAfter v i pos = false := by
    simp [Allocator.canFreeAfter, isOut]
  refine ⟨?_, fun isCond => ended.held isCond alive, fun preg => ended.pool.apart⟩
  intro preg bound same
  refine ended.unspilled same ?_ bound
  rintro ⟨-, canFree⟩
  rw [alive] at canFree
  cases canFree

/-- The registers that are read after the end of a block are reported as live
there and keep their physical registers while the block is rewritten. -/
structure KeepsLiveOut (order : HashOrder) (function : Function) (memorySize i : Nat)
    (block : Block) (v : Nat) : Prop where
  reported : ∀ j alloc, j ≤ block.syllables.length →
    allocatorBefore order function memorySize i j = .ok alloc → alloc.isLiveOut v i = true
  syllable : ∀ j syllable alloc alloc', block.syllables[j]? = some syllable →
    allocatorBefore order function memorySize i j = .ok alloc →
    allocatorBefore order function memorySize i (j + 1) = .ok alloc' →
    Retained alloc alloc' (v ∈ syllable.sourceVregs ∨ syllable.dstVreg = some v) v
  terminator : ∀ alloc alloc',
    allocatorBefore order function memorySize i block.syllables.length = .ok alloc →
    allocatorAt order function memorySize (i + 1) = .ok alloc' →
    Retained alloc alloc' (block.terminator.condVreg = some v) v

theorem keepsLiveOut_of_liveAfter {order : HashOrder} {function : Function} {memorySize i v : Nat}
    {block : Block} (found : function.blocks[i]? = some block) (live : LiveAfter function v i) :
    KeepsLiveOut order function memorySize i block v := by
  have sound : ∀ {j alloc}, j ≤ block.syllables.length →
      allocatorBefore order function memorySize i j = .ok alloc →
      Consults function memorySize alloc ∧ Pool 64 alloc := by
    intro j alloc inside reached
    have isLength : (block.syllables.take j).length = j := List.length_take_of_le inside
    refine sound_before found (fun start atStart => ?_) (List.take_append_drop j _).symm
      (by rwa [isLength])
    exact sound_at (Nat.le_of_lt (List.getElem?_eq_some_iff.mp found).1) atStart
  refine ⟨?_, ?_, ?_⟩
  · intro j alloc inside reached
    exact ((sound inside reached).1.liveOut v i).mpr live
  · intro j syllable alloc alloc' here reached reached'
    have inside := (List.getElem?_eq_some_iff.mp here).1
    have isLength : (block.syllables.take j).length = j :=
      List.length_take_of_le (Nat.le_of_lt inside)
    have split : block.syllables =
        block.syllables.take j ++ syllable :: block.syllables.drop (j + 1) := by
      rw [← Liveness.drop_eq_cons here, List.take_append_drop]
    obtain ⟨consults, pool⟩ := sound (Nat.le_of_lt inside) reached
    rw [← isLength] at reached reached'
    obtain ⟨before, code, isBefore, done⟩ := (allocatorBefore_succ found split).mp reached'
    obtain rfl := Except.ok.inj (isBefore.symm.trans reached)
    obtain ⟨inserted, rename, dst, -, rewritten⟩ := rewritten_at found split reached pool done
    exact retained_syllable rewritten ((consults.liveOut v i).mpr live)
  · intro alloc alloc' reached reached'
    obtain ⟨before, ⟨inserted, terminator⟩, isBefore, done⟩ := allocatorAt_succ found reached'
    obtain rfl := Except.ok.inj (isBefore.symm.trans reached)
    obtain ⟨consults, pool⟩ := sound (Nat.le_refl _) reached
    exact retained_terminator (ended_at found reached pool done) ((consults.liveOut v i).mpr live)

/-- The analysis runs without a failed assertion exactly when a live set can
hold every register of the function; then no register that is read after the
end of a block is given back while the block is rewritten. -/
theorem compute_keepsLiveOut (order : HashOrder) (function : Function) (memorySize : Nat) :
    ((∃ infos, Liveness.compute function = .ok infos) ↔
      ∀ block ∈ function.blocks, SmallIndices block) ∧
    ∀ i block v s, function.blocks[i]? = some block → Flow function i s →
      ReadLater function v (s, 0) → KeepsLiveOut order function memorySize i block v := by
  refine ⟨Liveness.exists_compute, ?_⟩
  intro i block v s found flow later
  exact keepsLiveOut_of_liveAfter found (Liveness.liveAfter_iff_readLater.mpr ⟨s, flow, later⟩)

/-- A loop that adds a value which the loop keeps needing. -/
def sumLoop : Function :=
  ⟨"main", [
    ⟨"entry", [⟨.movImm, some (.vreg 0), [.imm 5]⟩, ⟨.movImm, some (.vreg 1), [.imm 0]⟩],
      .jump "body"⟩,
    ⟨"body", [⟨.add, some (.vreg 2), [.reg (.vreg 1), .reg (.vreg 0)]⟩,
      ⟨.mov, some (.vreg 1), [.reg (.vreg 2)]⟩,
      ⟨.cmpEq, some (.vreg 3), [.reg (.vreg 1), .imm 20]⟩], .branch (.vreg 3) "body"⟩,
    ⟨"done", [⟨.mov, some (.preg 1), [.reg (.vreg 1)]⟩], .ret⟩]⟩

theorem compute_keepsLiveOut_sumLoop :
    ∃ block, sumLoop.blocks[1]? = some block ∧ block.syllables.length = 3 ∧
      KeepsLiveOut insertionOrder sumLoop 4096 1 block 0 := by
  have denotes : Liveness.Denotes sumLoop "body" 1 := Liveness.lookup_labelToIdx.mp (by decide)
  refine ⟨_, rfl, rfl, (compute_keepsLiveOut insertionOrder sumLoop 4096).2 1 _ 0 1 rfl
    (.taken rfl rfl denotes) ?_⟩
  exact ⟨(1, 0), _, .refl, rfl, .inl ⟨_, rfl, by decide⟩⟩

/-- A function with one register more than a live set holds. -/
def largeIndex : Function :=
  ⟨"f", [⟨"entry", [⟨.movImm, some (.vreg 64), [.imm 1]⟩], .ret⟩]⟩

theorem largeIndex_aborts :
    Liveness.compute largeIndex = .error (.panic "VReg index out of LiveSet range") := by
  rfl

end VliwCompiler.Regalloc
