import VliwCompiler.Regalloc.Operation
import VliwCompiler.Regalloc.Dataflow

/-!
# Positions of a function

The allocator passes every syllable of a function once, in layout order.  This
file names its state before every syllable and relates the tables it consults,
last reads and live-out sets, to the registers that are needed at a position.
-/

namespace VliwCompiler.Regalloc

open Asm (I64)
open Mir (Reg Value Syllable Terminator Block Function)
open Liveness (LiveSet Exposed Defines LiveAt LiveAfter infoAt successors)

/-! ### Last reads -/

/-- Position of the first syllable of a block. -/
def startPos (blocks : List Block) (i : Nat) : Nat :=
  ((blocks.take i).map fun block => block.syllables.length + 1).sum

theorem startPos_cons (block : Block) (blocks : List Block) (i : Nat) :
    startPos (block :: blocks) (i + 1) = block.syllables.length + 1 + startPos blocks i := by
  simp [startPos]

/-- The table has a read of the register at or after a position. -/
def ReadFrom (uses : HashMap Nat Nat) (v pos : Nat) : Prop :=
  ∃ last, uses.lookup v = some last ∧ pos ≤ last

theorem readFrom_insert {uses : HashMap Nat Nat} {v pos w last : Nat} (later : pos ≤ last)
    (isRead : ReadFrom uses v pos ∨ v = w) : ReadFrom (uses.insert w last) v pos := by
  by_cases same : v = w
  · exact ⟨last, by rw [same, AList.lookup_insert], later⟩
  · obtain ⟨old, found, bound⟩ := isRead.resolve_right same
    exact ⟨old, by rw [AList.lookup_insert_ne same, found], bound⟩

/-- The reads of one syllable. -/
def syllableUses (uses : HashMap Nat Nat) (vregs : List Nat) (pos : Nat) : HashMap Nat Nat :=
  vregs.foldl (fun uses vreg => uses.insert vreg pos) uses

theorem readFrom_syllableUses {uses : HashMap Nat Nat} {vregs : List Nat} {v pos last : Nat}
    (later : pos ≤ last) (isRead : ReadFrom uses v pos ∨ v ∈ vregs) :
    ReadFrom (syllableUses uses vregs last) v pos := by
  induction vregs generalizing uses with
  | nil => simpa [syllableUses] using isRead
  | cons w vregs ih =>
      refine ih ?_
      rcases isRead with already | isSource
      · exact .inl (readFrom_insert later (.inl already))
      · rcases List.mem_cons.mp isSource with same | inRest
        · exact .inl (readFrom_insert later (.inr same))
        · exact .inr inRest

/-- The reads of consecutive syllables. -/
def syllablesUses (uses : HashMap Nat Nat) (syllables : List Syllable) (pos : Nat) :
    HashMap Nat Nat :=
  (syllables.zipIdx pos).foldl (fun uses (syllable, pos) =>
    syllableUses uses syllable.sourceVregs pos) uses

theorem readFrom_syllablesUses {uses : HashMap Nat Nat} {syllables : List Syllable}
    {v pos start : Nat} (later : pos ≤ start)
    (isRead : ReadFrom uses v pos) : ReadFrom (syllablesUses uses syllables start) v pos := by
  induction syllables generalizing uses start with
  | nil => exact isRead
  | cons syllable syllables ih =>
      exact ih (Nat.le_succ_of_le later) (readFrom_syllableUses later (.inl isRead))

theorem readFrom_of_source (uses : HashMap Nat Nat) {syllables : List Syllable} (start : Nat)
    {j v : Nat} {syllable : Syllable} (found : syllables[j]? = some syllable)
    (isSource : v ∈ syllable.sourceVregs) :
    ReadFrom (syllablesUses uses syllables start) v (start + j) := by
  induction syllables generalizing uses start j with
  | nil => cases found
  | cons first syllables ih =>
      cases j with
      | zero =>
          cases found
          have isRead : ReadFrom (syllableUses uses syllable.sourceVregs start) v start :=
            readFrom_syllableUses (Nat.le_refl start) (.inr isSource)
          change ReadFrom (syllablesUses (syllableUses uses syllable.sourceVregs start) syllables
            (start + 1)) v start
          exact readFrom_syllablesUses (Nat.le_succ start) isRead
      | succ j =>
          have inRest := ih (syllableUses uses first.sourceVregs start) (start + 1) found
          rw [Nat.add_right_comm] at inRest
          exact inRest

theorem blockLastUses_eq (pos : Nat) (block : Block) :
    blockLastUses pos block =
      match block.terminator.condVreg with
      | some vreg => (syllablesUses ∅ block.syllables pos).insert vreg
          (pos + block.syllables.length)
      | none => syllablesUses ∅ block.syllables pos := rfl

/-- A register that is read before it is written from position `j` of a block on
has its last read there. -/
theorem readFrom_of_exposed (pos : Nat) {block : Block} {front rest : List Syllable} {v : Nat}
    (split : block.syllables = front ++ rest) (exposed : Exposed block.terminator v rest) :
    ReadFrom (blockLastUses pos block) v (pos + front.length) := by
  rw [blockLastUses_eq]
  have inBlock : front.length ≤ block.syllables.length := by simp [split]
  induction rest generalizing front with
  | nil =>
      rw [show block.terminator.condVreg = some v from exposed]
      exact readFrom_insert (Nat.add_le_add_left inBlock pos) (.inr rfl)
  | cons syllable rest ih =>
      rcases exposed with isSource | ⟨-, inRest⟩
      · have found : block.syllables[front.length]? = some syllable := by simp [split]
        have isRead : ReadFrom (syllablesUses ∅ block.syllables pos) v (pos + front.length) :=
          readFrom_of_source _ pos found isSource
        split
        · exact readFrom_insert (Nat.add_le_add_left inBlock pos) (.inl isRead)
        · exact isRead
      · have longer : block.syllables = (front ++ [syllable]) ++ rest := by simp [split]
        obtain ⟨last, found, bound⟩ := ih longer inRest (by simp [split])
        refine ⟨last, found, Nat.le_trans ?_ bound⟩
        simp

theorem lastUsesFrom_getElem? {blocks : List Block} {i : Nat} {block : Block} (start : Nat)
    (found : blocks[i]? = some block) :
    (lastUsesFrom start blocks)[i]? = some (blockLastUses (start + startPos blocks i) block) := by
  induction blocks generalizing start i with
  | nil => cases found
  | cons first blocks ih =>
      cases i with
      | zero =>
          cases found
          rfl
      | succ i =>
          rw [lastUsesFrom, List.getElem?_cons_succ, ih _ found, startPos_cons]
          congr 2
          omega

/-! ### Needed registers -/

/-- The value of a register is needed before the rest of a block. -/
def NeededBefore (function : Function) (i : Nat) (terminator : Terminator) (rest : List Syllable)
    (v : Nat) : Prop :=
  Exposed terminator v rest ∨ (LiveAfter function v i ∧ ¬Defines rest v)

section Needs

variable {function : Function} {i : Nat} {block : Block}

theorem needed_iff_liveAt (found : function.blocks[i]? = some block) {v : Nat} :
    NeededBefore function i block.terminator block.syllables v ↔ LiveAt function v i := by
  constructor
  · rintro (exposed | ⟨⟨other, s, found', succ, live⟩, kept⟩)
    · exact .use found exposed
    · obtain rfl : block = other := Option.some.inj (found.symm.trans found')
      exact .through found kept succ live
  · intro live
    cases live with
    | use found' exposed =>
        cases Option.some.inj (found.symm.trans found')
        exact .inl exposed
    | through found' kept succ live =>
        cases Option.some.inj (found.symm.trans found')
        exact .inr ⟨⟨block, _, found, succ, live⟩, kept⟩

theorem needed_of_source {terminator : Terminator} {syllable : Syllable} {rest : List Syllable}
    {v : Nat} (isSource : v ∈ syllable.sourceVregs) :
    NeededBefore function i terminator (syllable :: rest) v :=
  .inl (.inl isSource)

theorem needed_cons {terminator : Terminator} {syllable : Syllable} {rest : List Syllable} {v : Nat}
    (isNeeded : NeededBefore function i terminator rest v) (isOther : syllable.dstVreg ≠ some v) :
    NeededBefore function i terminator (syllable :: rest) v := by
  rcases isNeeded with exposed | ⟨live, kept⟩
  · exact .inl (.inr ⟨isOther, exposed⟩)
  · refine .inr ⟨live, fun defines => ?_⟩
    rcases Liveness.defines_cons.mp defines with isDst | inRest
    · exact isOther isDst
    · exact kept inRest

end Needs

/-! ### The tables of the allocator -/

/-- The allocator works on the tables of a function. -/
structure Consults (function : Function) (memorySize : Nat) (alloc : Allocator) : Prop where
  lastUses : alloc.lastUses = computeBlockLastUses function
  liveOut : ∀ v i, alloc.isLiveOut v i = true ↔ LiveAfter function v i
  base : alloc.spillBase = spillAddress memorySize

theorem Consults.transfer {function : Function} {memorySize : Nat} {alloc alloc' : Allocator}
    (consults : Consults function memorySize alloc) (same : SameTables alloc alloc') :
    Consults function memorySize alloc' where
  lastUses := same.lastUses.trans consults.lastUses
  liveOut := by
    intro v i
    unfold Allocator.isLiveOut
    rw [same.liveOut]
    exact consults.liveOut v i
  base := same.spillBase.trans consults.base

theorem consults_initialAllocator {function : Function} {memorySize : Nat} {alloc : Allocator}
    (done : initialAllocator function memorySize = .ok alloc) :
    Consults function memorySize alloc ∧ Pool 64 alloc := by
  obtain ⟨-, infos, computed, rfl⟩ := initialAllocator_eq_ok.mp done
  refine ⟨⟨rfl, ?_, rfl⟩, .new _ _ _ _⟩
  intro v i
  rw [← Liveness.contains_liveOut computed]
  unfold Allocator.isLiveOut infoAt Allocator.new
  rw [List.getElem?_map]
  cases infos[i]? <;> rfl

section Tables

variable {function : Function} {memorySize : Nat} {alloc : Allocator} {i : Nat} {block : Block}
  {front rest : List Syllable} {v : Nat} (consults : Consults function memorySize alloc)
  (found : function.blocks[i]? = some block)

include consults found

theorem Consults.lastUse_eq :
    alloc.lastUse v i = (blockLastUses (startPos function.blocks i) block).lookup v := by
  unfold Allocator.lastUse
  rw [consults.lastUses, computeBlockLastUses, lastUsesFrom_getElem? 0 found, Nat.zero_add]
  rfl

/-- A needed register is not read for the last time before. -/
theorem Consults.not_lastRead {syllable : Syllable}
    (split : block.syllables = front ++ syllable :: rest)
    (isNeeded : NeededBefore function i block.terminator rest v) :
    ¬LastRead alloc syllable i (startPos function.blocks i + front.length) v := by
  rintro ⟨-, -, canFree⟩
  simp only [Allocator.canFreeAfter, Bool.and_eq_true, decide_eq_true_eq,
    Bool.not_eq_eq_eq_not, Bool.not_true] at canFree
  rcases isNeeded with exposed | ⟨live, -⟩
  · have longer : block.syllables = (front ++ [syllable]) ++ rest := by simp [split]
    obtain ⟨last, isLast, bound⟩ :=
      readFrom_of_exposed (startPos function.blocks i) longer exposed
    rw [consults.lastUse_eq found, isLast, Option.some.injEq] at canFree
    rw [List.length_append, List.length_singleton] at bound
    omega
  · rw [(consults.liveOut v i).mpr live] at canFree
    cases canFree.2

/-- A needed register is kept after it is written. -/
theorem Consults.needsAfter {syllable : Syllable}
    (split : block.syllables = front ++ syllable :: rest)
    (isNeeded : NeededBefore function i block.terminator rest v) :
    alloc.needsAfter v i (startPos function.blocks i + front.length) = true := by
  unfold Allocator.needsAfter
  rw [Bool.or_eq_true]
  rcases isNeeded with exposed | ⟨live, -⟩
  · left
    have longer : block.syllables = (front ++ [syllable]) ++ rest := by simp [split]
    obtain ⟨last, isLast, bound⟩ :=
      readFrom_of_exposed (startPos function.blocks i) longer exposed
    unfold Allocator.hasLaterBlockUse
    rw [consults.lastUse_eq found, isLast]
    rw [List.length_append, List.length_singleton] at bound
    simp
    omega
  · exact .inr ((consults.liveOut v i).mpr live)

/-- What a syllable demands of the allocator. -/
theorem Consults.demand {syllable : Syllable} {isPred : Nat → Prop} {alloc' : Allocator}
    (split : block.syllables = front ++ syllable :: rest)
    (flags : ∀ v, NeededBefore function i block.terminator rest v → isPred v →
      syllable.dstVreg ≠ some v → alloc'.assigned.lookup v ≠ none) :
    Demand isPred (NeededBefore function i block.terminator (syllable :: rest))
      (NeededBefore function i block.terminator rest) alloc alloc' syllable i
      (startPos function.blocks i + front.length) where
  reads := fun _ isSource => needed_of_source isSource
  through := fun _ isNeeded isOther => needed_cons isNeeded isOther
  alive := fun _ isNeeded => consults.not_lastRead found split isNeeded
  dst := fun _ _ isNeeded => consults.needsAfter found split isNeeded
  flags := flags

end Tables

end VliwCompiler.Regalloc
