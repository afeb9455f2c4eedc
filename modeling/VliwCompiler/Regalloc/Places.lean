import VliwCompiler.Regalloc.Blocks

/-!
# Places on control-flow edges

The allocator carries one assignment through the blocks in layout order, so the
places in which a block leaves its values are those of the next block of the
layout.  Another successor finds them there only if nothing between the two
blocks moved them.
-/

namespace VliwCompiler.Regalloc

open Asm (Opcode I64)
open Mir (Reg Value Syllable Terminator Block Function execSyllables)
open Liveness (LiveAt LiveAfter successors)
open Allocator (allocatable)
open Machine

/-- The register occurs in a block. -/
def Mentions (block : Block) (v : Nat) : Prop :=
  (∃ syllable ∈ block.syllables, v ∈ syllable.sourceVregs ∨ syllable.dstVreg = some v) ∨
    block.terminator.condVreg = some v

/-- Unless the register is spilled, its place is kept; a register that is
mentioned is kept only while it is bound. -/
structure Undisturbed (v : Nat) (mentioned : Prop) (alloc alloc' : Allocator) : Prop where
  spills : alloc.spills v ≤ alloc'.spills v
  place : alloc'.spills v = alloc.spills v →
    (mentioned → ∃ preg, alloc.assigned.lookup v = some preg) → alloc'.place v = alloc.place v

namespace Undisturbed

variable {v : Nat} {mentioned : Prop}

theorem refl (alloc : Allocator) : Undisturbed v mentioned alloc alloc :=
  ⟨Nat.le_refl _, fun _ _ => rfl⟩

theorem trans {first second third : Allocator} (left : Undisturbed v mentioned first second)
    (right : Undisturbed v mentioned second third) : Undisturbed v mentioned first third where
  spills := left.spills.trans right.spills
  place := by
    intro same bound
    have leftLe := left.spills
    have rightLe := right.spills
    have leftSame := left.place (by omega) bound
    refine (right.place (by omega) fun isMentioned => ?_).trans leftSame
    obtain ⟨preg, found⟩ := bound isMentioned
    rw [← place_eq_register, ← leftSame, place_eq_register] at found
    exact ⟨preg, found⟩

theorem mono {mentioned' : Prop} {alloc alloc' : Allocator}
    (kept : Undisturbed v mentioned alloc alloc') (weaker : mentioned → mentioned') :
    Undisturbed v mentioned' alloc alloc' :=
  ⟨kept.spills, fun same bound => kept.place same fun isMentioned => bound (weaker isMentioned)⟩

end Undisturbed

/-- An operation on allocator states that rebinds no register except some, and
those only if they are unbound. -/
theorem undisturbed_of_kept {v : Nat} {mentioned : Prop} {alloc alloc' : Allocator}
    (spills : alloc.spills v ≤ alloc'.spills v)
    (kept : alloc'.spills v = alloc.spills v → ∀ preg, alloc.assigned.lookup v = some preg →
      alloc'.assigned.lookup v = some preg)
    (old : ¬mentioned → ∀ preg, alloc'.assigned.lookup v = some preg →
      alloc.assigned.lookup v = some preg)
    (sameSlots : alloc'.spills v = alloc.spills v →
      alloc'.spillSlots.lookup v = alloc.spillSlots.lookup v) :
    Undisturbed v mentioned alloc alloc' where
  spills := spills
  place := by
    intro same bound
    refine place_congr ?_ (sameSlots same)
    cases before : alloc.assigned.lookup v with
    | some preg => exact kept same preg before
    | none =>
        have unmentioned : ¬mentioned := fun isMentioned => by
          obtain ⟨preg, found⟩ := bound isMentioned
          rw [before] at found
          cases found
        cases after : alloc'.assigned.lookup v with
        | none => rfl
        | some preg =>
            rw [old unmentioned preg after] at before
            cases before

section Blocks

variable {order : HashOrder} {function : Function} {memorySize : Nat} {i v : Nat} {block : Block}

theorem undisturbed_syllable {keeps : Prop} {alloc alloc' : Allocator} {syllable : Syllable} {pos : Nat}
    {code : List Syllable} {rename : Nat → UInt8} {dst : Option Reg}
    (consults : Consults function memorySize alloc)
    (rewritten : Rewritten keeps 64 alloc syllable i pos code rename dst alloc')
    (syllableMem : syllable ∈ block.syllables)
    (live : Mentions block v → LiveAfter function v i) :
    Undisturbed v (Mentions block v) alloc alloc' := by
  have mentions : v ∈ syllable.sourceVregs ∨ syllable.dstVreg = some v → Mentions block v :=
    fun occurs => .inl ⟨syllable, syllableMem, occurs⟩
  refine undisturbed_of_kept (rewritten.spills v) ?_ ?_ rewritten.sameSlots
  · intro same preg bound
    by_cases isDst : syllable.dstVreg = some v
    · have isLive := (consults.liveOut v i).mpr (live (mentions (.inr isDst)))
      obtain ⟨preg', -, -, -, after, samePreg⟩ := rewritten.vregDst v isDst
      rw [after, samePreg same preg bound, Allocator.needsAfter, isLive, Bool.or_true, if_pos rfl]
    · refine rewritten.unspilled same isDst ?_ bound
      rintro ⟨isSource, -, canFree⟩
      have isLive := (consults.liveOut v i).mpr (live (mentions (.inl isSource)))
      simp [Allocator.canFreeAfter, isLive] at canFree
  · intro absent preg after
    exact rewritten.old (fun isDst => absent (mentions (.inr isDst)))
      (fun isSource => absent (mentions (.inl isSource))) after

theorem undisturbed_terminator {alloc alloc' : Allocator} {pos : Nat} {inserted : List Syllable}
    {terminator : Terminator} (consults : Consults function memorySize alloc)
    (ended : Ended 64 alloc block.terminator i pos inserted terminator alloc')
    (live : Mentions block v → LiveAfter function v i) :
    Undisturbed v (Mentions block v) alloc alloc' := by
  refine undisturbed_of_kept (ended.spills v) ?_ ?_ ended.sameSlots
  · intro same preg bound
    refine ended.unspilled same ?_ bound
    rintro ⟨isCond, canFree⟩
    have isLive := (consults.liveOut v i).mpr (live (.inr isCond))
    simp [Allocator.canFreeAfter, isLive] at canFree
  · exact fun absent preg after => ended.old (fun isCond => absent (.inr isCond)) after

theorem undisturbed_before (found : function.blocks[i]? = some block)
    (live : Mentions block v → LiveAfter function v i)
    {front rest : List Syllable} (split : block.syllables = front ++ rest)
    {start alloc : Allocator} (atStart : allocatorAt order function memorySize i = .ok start)
    (reached : allocatorBefore order function memorySize i front.length = .ok alloc) :
    Undisturbed v (Mentions block v) start alloc := by
  have inside : i ≤ function.blocks.length := Nat.le_of_lt (List.getElem?_eq_some_iff.mp found).1
  induction front using List.reverseRecOn generalizing rest alloc with
  | nil =>
      rw [List.length_nil, allocatorBefore_zero, atStart] at reached
      cases reached
      exact .refl _
  | append_singleton front syllable ih =>
      rw [List.append_assoc, List.singleton_append] at split
      rw [List.length_append, List.length_singleton, allocatorBefore_succ found split] at reached
      obtain ⟨before, code, atBefore, done⟩ := reached
      obtain ⟨consults, pool⟩ :=
        sound_before found (fun _ => sound_at inside) split atBefore
      obtain ⟨code, rename, dst, -, rewritten⟩ :=
        rewritten_at found split atBefore pool done
      exact (ih split atBefore).trans
        (undisturbed_syllable consults rewritten (by simp [split]) live)

/-- A block that ends with the register live, or does not mention it, leaves it
in its place. -/
theorem undisturbed_block (found : function.blocks[i]? = some block)
    (live : Mentions block v → LiveAfter function v i) {alloc alloc' : Allocator}
    (before : allocatorAt order function memorySize i = .ok alloc)
    (after : allocatorAt order function memorySize (i + 1) = .ok alloc') :
    Undisturbed v (Mentions block v) alloc alloc' := by
  have inside : i ≤ function.blocks.length := Nat.le_of_lt (List.getElem?_eq_some_iff.mp found).1
  obtain ⟨last, ⟨inserted, terminator⟩, reached, done⟩ := allocatorAt_succ found after
  obtain ⟨consults, pool⟩ := sound_before found (fun _ => sound_at inside)
    (List.append_nil _).symm reached
  exact (undisturbed_before found live (List.append_nil _).symm before reached).trans
    (undisturbed_terminator consults (ended_at found reached pool done) live)

/-- The same for consecutive blocks. -/
theorem undisturbed_range {lo hi : Nat} (ordered : lo ≤ hi) (inside : hi ≤ function.blocks.length)
    (live : ∀ k block, lo ≤ k → k < hi → function.blocks[k]? = some block → Mentions block v →
      LiveAfter function v k) {alloc alloc' : Allocator}
    (before : allocatorAt order function memorySize lo = .ok alloc)
    (after : allocatorAt order function memorySize hi = .ok alloc') :
    Undisturbed v (∃ k block, lo ≤ k ∧ k < hi ∧ function.blocks[k]? = some block ∧
      Mentions block v) alloc alloc' := by
  induction hi, ordered using Nat.le_induction generalizing alloc' with
  | base =>
      rw [before] at after
      cases after
      exact .refl _
  | succ hi ordered ih =>
      have found := List.getElem?_eq_getElem inside
      obtain ⟨last, code, reached, -⟩ := allocatorAt_succ found after
      obtain ⟨middle, atMiddle, -⟩ := bind_eq_ok.mp reached
      have left := ih (Nat.le_of_lt inside)
        (fun k block above below => live k block above (Nat.lt_succ_of_lt below)) atMiddle
      have right := undisturbed_block found
        (live hi _ ordered (Nat.lt_succ_self hi) found) atMiddle after
      refine (left.mono ?_).trans (right.mono ?_)
      · rintro ⟨k, block, above, below, isBlock, mentions⟩
        exact ⟨k, block, above, Nat.lt_succ_of_lt below, isBlock, mentions⟩
      · exact fun mentions => ⟨hi, _, ordered, Nat.lt_succ_self hi, found, mentions⟩

end Blocks

/-! ### Edges -/

/-- Nothing that is laid out between the end of block `p` and the start of block
`s` spills, frees or rebinds the register. -/
structure QuietBetween (order : HashOrder) (function : Function) (memorySize : Nat) (v p s : Nat) :
    Prop where
  spills : ∀ alloc alloc', allocatorAt order function memorySize (p + 1) = .ok alloc →
    allocatorAt order function memorySize s = .ok alloc' → alloc'.spills v = alloc.spills v
  live : ∀ k block, min (p + 1) s ≤ k → k < max (p + 1) s → function.blocks[k]? = some block →
    Mentions block v → LiveAfter function v k
  bound : ∀ k block, min (p + 1) s ≤ k → k < max (p + 1) s → function.blocks[k]? = some block →
    Mentions block v → ∀ alloc, allocatorAt order function memorySize (min (p + 1) s) = .ok alloc →
      ∃ preg, alloc.assigned.lookup v = some preg

/-- Both ends of such an edge have the register in the same place. -/
theorem QuietBetween.place {order : HashOrder} {function : Function} {memorySize v p s : Nat}
    (quiet : QuietBetween order function memorySize v p s)
    (insideP : p < function.blocks.length) (insideS : s ≤ function.blocks.length)
    {alloc alloc' : Allocator} (atEnd : allocatorAt order function memorySize (p + 1) = .ok alloc)
    (atStart : allocatorAt order function memorySize s = .ok alloc') :
    alloc.place v = alloc'.place v := by
  have sameSpills := quiet.spills alloc alloc' atEnd atStart
  rcases Nat.le_total (p + 1) s with forward | backward
  · have isMin : min (p + 1) s = p + 1 := Nat.min_eq_left forward
    have isMax : max (p + 1) s = s := Nat.max_eq_right forward
    have live := quiet.live
    have bound := quiet.bound
    rw [isMin, isMax] at live bound
    refine ((undisturbed_range forward insideS live atEnd atStart).place sameSpills ?_).symm
    rintro ⟨k, block, above, below, isBlock, mentions⟩
    exact bound k block above below isBlock mentions alloc atEnd
  · have isMin : min (p + 1) s = s := Nat.min_eq_right backward
    have isMax : max (p + 1) s = p + 1 := Nat.max_eq_left backward
    have live := quiet.live
    have bound := quiet.bound
    rw [isMin, isMax] at live bound
    refine (undisturbed_range backward insideP live atStart atEnd).place sameSpills.symm ?_
    rintro ⟨k, block, above, below, isBlock, mentions⟩
    exact bound k block above below isBlock mentions alloc' atStart

end VliwCompiler.Regalloc
