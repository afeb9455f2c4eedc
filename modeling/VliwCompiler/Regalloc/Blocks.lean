import VliwCompiler.Regalloc.Positions

/-!
# Allocation of blocks

The state of the allocator before every syllable and every block of a function,
and what rewriting keeps from one position to the next.
-/

namespace VliwCompiler.Regalloc

open Asm (Opcode I64)
open Mir (Reg Value Syllable Terminator Block Function execSyllables)
open Liveness (LiveSet Exposed Defines LiveAt LiveAfter successors)
open Allocator (allocatable)
open Machine

/-! ### Positions -/

section Split

variable {order : HashOrder}

theorem rewriteSyllables_cons {i pos : Nat} {alloc final : Allocator} {syllable : Syllable}
    {rest out : List Syllable} :
    rewriteSyllables order i pos alloc (syllable :: rest) = .ok (out, final) ↔
      ∃ code middle back, rewriteSyllable order alloc syllable i pos = .ok (code, middle) ∧
        rewriteSyllables order i (pos + 1) middle rest = .ok (back, final) ∧
        out = code ++ back := by
  rw [rewriteSyllables, bind_eq_ok]
  constructor
  · rintro ⟨⟨code, middle⟩, first, rest⟩
    obtain ⟨⟨back, last⟩, others, finished⟩ := bind_eq_ok.mp rest
    cases finished
    exact ⟨code, middle, back, first, others, rfl⟩
  · rintro ⟨code, middle, back, first, others, rfl⟩
    exact ⟨(code, middle), first, bind_eq_ok.mpr ⟨(back, final), others, rfl⟩⟩

theorem rewriteSyllables_append {i pos : Nat} {alloc final : Allocator}
    {first second out : List Syllable} :
    rewriteSyllables order i pos alloc (first ++ second) = .ok (out, final) ↔
      ∃ front middle back, rewriteSyllables order i pos alloc first = .ok (front, middle) ∧
        rewriteSyllables order i (pos + first.length) middle second = .ok (back, final) ∧
        out = front ++ back := by
  induction first generalizing pos alloc out with
  | nil =>
      constructor
      · exact fun done => ⟨[], alloc, out, rfl, done, rfl⟩
      · rintro ⟨front, middle, back, nothing, done, rfl⟩
        cases nothing
        exact done
  | cons syllable first ih =>
      rw [List.cons_append, rewriteSyllables_cons, List.length_cons, Nat.add_comm first.length,
        ← Nat.add_assoc]
      constructor
      · rintro ⟨code, middle, back, here, others, rfl⟩
        obtain ⟨front, last, back, left, right, rfl⟩ := ih.mp others
        exact ⟨code ++ front, last, back,
          rewriteSyllables_cons.mpr ⟨code, middle, front, here, left, rfl⟩, right, by simp⟩
      · rintro ⟨front, middle, back, left, right, rfl⟩
        obtain ⟨code, next, front, here, others, rfl⟩ := rewriteSyllables_cons.mp left
        exact ⟨code, next, front ++ back, here, ih.mpr ⟨front, middle, back, others, right, rfl⟩,
          by simp⟩

theorem rewriteSyllables_singleton {i pos : Nat} {alloc final : Allocator} {syllable : Syllable}
    {out : List Syllable} :
    rewriteSyllables order i pos alloc [syllable] = .ok (out, final) ↔
      rewriteSyllable order alloc syllable i pos = .ok (out, final) := by
  rw [rewriteSyllables_cons]
  constructor
  · rintro ⟨code, middle, back, here, nothing, rfl⟩
    cases nothing
    rwa [List.append_nil]
  · exact fun here => ⟨out, final, [], here, rfl, by simp⟩

theorem rewriteBlock_eq {i pos : Nat} {alloc final : Allocator} {block block' : Block} :
    rewriteBlock order i pos alloc block = .ok (block', final) ↔
      ∃ body middle inserted terminator,
        rewriteSyllables order i pos alloc block.syllables = .ok (body, middle) ∧
        rewriteTerminator order middle block.terminator i (pos + block.syllables.length) =
          .ok ((inserted, terminator), final) ∧
        block' = ⟨block.label, body ++ inserted, terminator⟩ := by
  rw [rewriteBlock, bind_eq_ok]
  constructor
  · rintro ⟨⟨body, middle⟩, first, rest⟩
    obtain ⟨⟨⟨inserted, terminator⟩, last⟩, ended, finished⟩ := bind_eq_ok.mp rest
    cases finished
    exact ⟨body, middle, inserted, terminator, first, ended, rfl⟩
  · rintro ⟨body, middle, inserted, terminator, first, ended, rfl⟩
    exact ⟨(body, middle), first, bind_eq_ok.mpr ⟨((inserted, terminator), final), ended, rfl⟩⟩

theorem rewriteBlocks_cons {i pos : Nat} {alloc final : Allocator} {block : Block}
    {rest out : List Block} :
    rewriteBlocks order i pos alloc (block :: rest) = .ok (out, final) ↔
      ∃ block' middle back, rewriteBlock order i pos alloc block = .ok (block', middle) ∧
        rewriteBlocks order (i + 1) (pos + block.syllables.length + 1) middle rest =
          .ok (back, final) ∧
        out = block' :: back := by
  rw [rewriteBlocks, bind_eq_ok]
  constructor
  · rintro ⟨⟨block', middle⟩, first, rest⟩
    obtain ⟨⟨back, last⟩, others, finished⟩ := bind_eq_ok.mp rest
    cases finished
    exact ⟨block', middle, back, first, others, rfl⟩
  · rintro ⟨block', middle, back, first, others, rfl⟩
    exact ⟨(block', middle), first, bind_eq_ok.mpr ⟨(back, final), others, rfl⟩⟩

/-- Every block is rewritten from the state its predecessors in the layout
leave. -/
theorem rewriteBlocks_getElem? {i pos k : Nat} {alloc final : Allocator} {blocks out : List Block}
    {block : Block} (done : rewriteBlocks order i pos alloc blocks = .ok (out, final))
    (found : blocks[k]? = some block) :
    ∃ front before block' after,
      rewriteBlocks order i pos alloc (blocks.take k) = .ok (front, before) ∧
      rewriteBlock order (i + k) (pos + startPos blocks k) before block = .ok (block', after) ∧
      rewriteBlocks order i pos alloc (blocks.take (k + 1)) = .ok (front ++ [block'], after) ∧
      out[k]? = some block' := by
  induction blocks generalizing i pos k alloc out with
  | nil => cases found
  | cons first blocks ih =>
      obtain ⟨first', middle, back, here, others, rfl⟩ := rewriteBlocks_cons.mp done
      cases k with
      | zero =>
          cases found
          exact ⟨[], alloc, first', middle, rfl, here,
            rewriteBlocks_cons.mpr ⟨first', middle, [], here, rfl, rfl⟩, rfl⟩
      | succ k =>
          obtain ⟨front, before, block', after, left, atBlock, right, isOut⟩ := ih others found
          refine ⟨first' :: front, before, block', after,
            rewriteBlocks_cons.mpr ⟨first', middle, front, here, left, rfl⟩, ?_,
            rewriteBlocks_cons.mpr ⟨first', middle, front ++ [block'], here, right, rfl⟩, isOut⟩
          rw [startPos_cons, show i + (k + 1) = i + 1 + k by omega,
            show pos + (first.syllables.length + 1 + startPos blocks k) =
              pos + first.syllables.length + 1 + startPos blocks k by omega]
          exact atBlock

theorem length_of_rewriteBlocks {i pos : Nat} {alloc final : Allocator} {blocks out : List Block}
    (done : rewriteBlocks order i pos alloc blocks = .ok (out, final)) :
    out.length = blocks.length := by
  induction blocks generalizing i pos alloc out with
  | nil =>
      cases done
      rfl
  | cons first blocks ih =>
      obtain ⟨first', middle, back, -, others, rfl⟩ := rewriteBlocks_cons.mp done
      rw [List.length_cons, List.length_cons, ih others]

end Split

section States

variable (order : HashOrder) (function : Function) (memorySize : Nat)

/-- The allocator before a block. -/
def allocatorAt (i : Nat) : Outcome Allocator := do
  let alloc ← initialAllocator function memorySize
  let (_, alloc) ← rewriteBlocks order 0 0 alloc (function.blocks.take i)
  return alloc

/-- The allocator before a syllable of a block; before the terminator when `j`
is the number of syllables. -/
def allocatorBefore (i j : Nat) : Outcome Allocator := do
  let alloc ← allocatorAt order function memorySize i
  let (_, alloc) ← rewriteSyllables order i (startPos function.blocks i) alloc
    (((function.blocks[i]?.map (·.syllables)).getD []).take j)
  return alloc

end States

section Chain

variable {order : HashOrder} {function : Function} {memorySize : Nat}

theorem allocatorAt_zero : allocatorAt order function memorySize 0 =
    initialAllocator function memorySize := by
  unfold allocatorAt
  cases initialAllocator function memorySize <;> rfl

theorem allocatorBefore_zero (i : Nat) : allocatorBefore order function memorySize i 0 =
    allocatorAt order function memorySize i := by
  unfold allocatorBefore
  rw [List.take_zero]
  cases allocatorAt order function memorySize i <;> rfl

theorem allocatorBefore_eq {i : Nat} {block : Block} (found : function.blocks[i]? = some block)
    {front rest : List Syllable} (split : block.syllables = front ++ rest) {alloc : Allocator} :
    allocatorBefore order function memorySize i front.length = .ok alloc ↔
      ∃ start code, allocatorAt order function memorySize i = .ok start ∧
        rewriteSyllables order i (startPos function.blocks i) start front = .ok (code, alloc) := by
  unfold allocatorBefore
  rw [found, Option.map_some, Option.getD_some, split, List.take_left, bind_eq_ok]
  constructor
  · rintro ⟨start, atStart, rest⟩
    obtain ⟨⟨code, last⟩, done, finished⟩ := bind_eq_ok.mp rest
    cases finished
    exact ⟨start, code, atStart, done⟩
  · rintro ⟨start, code, atStart, done⟩
    exact ⟨start, atStart, bind_eq_ok.mpr ⟨(code, alloc), done, rfl⟩⟩

theorem allocatorBefore_succ {i : Nat} {block : Block} (found : function.blocks[i]? = some block)
    {front rest : List Syllable} {syllable : Syllable}
    (split : block.syllables = front ++ syllable :: rest) {alloc : Allocator} :
    allocatorBefore order function memorySize i (front.length + 1) = .ok alloc ↔
      ∃ before code, allocatorBefore order function memorySize i front.length = .ok before ∧
        rewriteSyllable order before syllable i (startPos function.blocks i + front.length) =
          .ok (code, alloc) := by
  have longer : block.syllables = (front ++ [syllable]) ++ rest := by simp [split]
  have isLength : front.length + 1 = (front ++ [syllable]).length := by simp
  rw [isLength, allocatorBefore_eq found longer]
  simp only [allocatorBefore_eq found split, rewriteSyllables_append, rewriteSyllables_singleton]
  constructor
  · rintro ⟨start, out, atStart, code, before, last, left, right, -⟩
    exact ⟨before, last, ⟨start, code, atStart, left⟩, right⟩
  · rintro ⟨before, last, ⟨start, code, atStart, left⟩, right⟩
    exact ⟨start, _, atStart, code, before, last, left, right, rfl⟩

theorem allocatorAt_succ {i : Nat} {block : Block} (found : function.blocks[i]? = some block)
    {alloc : Allocator} (done : allocatorAt order function memorySize (i + 1) = .ok alloc) :
    ∃ before code, allocatorBefore order function memorySize i block.syllables.length =
        .ok before ∧
      rewriteTerminator order before block.terminator i
        (startPos function.blocks i + block.syllables.length) = .ok (code, alloc) := by
  obtain ⟨initial, started, rest⟩ := bind_eq_ok.mp done
  obtain ⟨⟨out, final⟩, rewritten, finished⟩ := bind_eq_ok.mp rest
  cases finished
  have inTake : (function.blocks.take (i + 1))[i]? = some block := by
    rw [List.getElem?_take_of_lt (Nat.lt_succ_self i), found]
  obtain ⟨front, before, block', after, left, atBlock, right, -⟩ :=
    rewriteBlocks_getElem? rewritten inTake
  rw [List.take_take, Nat.min_self, rewritten] at right
  cases right
  rw [List.take_take, Nat.min_eq_left (Nat.le_succ i)] at left
  have samePos : startPos (function.blocks.take (i + 1)) i = startPos function.blocks i := by
    unfold startPos
    rw [List.take_take, Nat.min_eq_left (Nat.le_succ i)]
  rw [Nat.zero_add, Nat.zero_add, samePos] at atBlock
  obtain ⟨body, middle, inserted, terminator, first, ended, rfl⟩ := rewriteBlock_eq.mp atBlock
  refine ⟨middle, (inserted, terminator), ?_, ended⟩
  rw [allocatorBefore_eq found (List.append_nil _).symm]
  exact ⟨before, body, bind_eq_ok.mpr ⟨initial, started, bind_eq_ok.mpr ⟨_, left, rfl⟩⟩, first⟩

/-- Every block of an allocated function is the rewritten one. -/
theorem block_of_allocateRegisters {allocated : Function}
    (done : allocateRegisters order function memorySize = .ok allocated) {i : Nat} {block : Block}
    (found : function.blocks[i]? = some block) :
    ∃ before body middle inserted terminator after,
      allocatorAt order function memorySize i = .ok before ∧
      rewriteSyllables order i (startPos function.blocks i) before block.syllables =
        .ok (body, middle) ∧
      rewriteTerminator order middle block.terminator i
        (startPos function.blocks i + block.syllables.length) =
          .ok ((inserted, terminator), after) ∧
      allocatorAt order function memorySize (i + 1) = .ok after ∧
      allocated.blocks[i]? = some ⟨block.label, body ++ inserted, terminator⟩ := by
  obtain ⟨initial, started, rest⟩ := bind_eq_ok.mp done
  obtain ⟨⟨out, final⟩, rewritten, finished⟩ := bind_eq_ok.mp rest
  cases finished
  obtain ⟨front, before, block', after, left, atBlock, right, isOut⟩ :=
    rewriteBlocks_getElem? rewritten found
  rw [Nat.zero_add, Nat.zero_add] at atBlock
  obtain ⟨body, middle, inserted, terminator, first, ended, rfl⟩ := rewriteBlock_eq.mp atBlock
  exact ⟨before, body, middle, inserted, terminator, after,
    bind_eq_ok.mpr ⟨initial, started, bind_eq_ok.mpr ⟨_, left, rfl⟩⟩, first, ended,
    bind_eq_ok.mpr ⟨initial, started, bind_eq_ok.mpr ⟨_, right, rfl⟩⟩, isOut⟩

theorem length_of_allocateRegisters {allocated : Function}
    (done : allocateRegisters order function memorySize = .ok allocated) :
    allocated.blocks.length = function.blocks.length := by
  obtain ⟨initial, -, rest⟩ := bind_eq_ok.mp done
  obtain ⟨⟨blocks, final⟩, rewritten, finished⟩ := bind_eq_ok.mp rest
  cases finished
  exact length_of_rewriteBlocks rewritten

end Chain

/-! ### Terminators -/

/-- What rewriting a terminator does. -/
structure Ended (limit : Nat) (alloc : Allocator) (terminator : Terminator) (i pos : Nat)
    (inserted : List Syllable) (terminator' : Terminator) (alloc' : Allocator) : Prop where
  pool : Pool limit alloc'
  tables : SameTables alloc alloc'
  spills : ∀ v, alloc.spills v ≤ alloc'.spills v
  unspilled : ∀ {v p}, alloc'.spills v = alloc.spills v →
    ¬(terminator.condVreg = some v ∧ alloc.canFreeAfter v i pos = true) →
      alloc.assigned.lookup v = some p → alloc'.assigned.lookup v = some p
  held : ∀ {v}, terminator.condVreg = some v → alloc.canFreeAfter v i pos = false →
    alloc'.assigned.lookup v ≠ none
  old : ∀ {v q}, terminator.condVreg ≠ some v → alloc'.assigned.lookup v = some q →
    alloc.assigned.lookup v = some q
  sameSlots : ∀ {v}, alloc'.spills v = alloc.spills v →
    alloc'.spillSlots.lookup v = alloc.spillSlots.lookup v
  placed : ∀ {v}, ¬(terminator.condVreg = some v ∧ alloc.canFreeAfter v i pos = true) →
    alloc.place v ≠ none → alloc'.place v ≠ none
  fixed : terminator.condVreg = none → inserted = [] ∧ terminator' = terminator ∧ alloc' = alloc
  bound : ∀ {v p}, terminator.condVreg = some v → alloc.assigned.lookup v = some p →
    inserted = [] ∧ (alloc' = alloc ∨ alloc.canFreeAfter v i pos = true ∧ alloc' = alloc.freeVreg v) ∧
      ∃ label, terminator = .branch (.vreg v) label ∧ terminator' = .branch (.preg p) label

theorem ended_of_rewriteTerminator {order : HashOrder} {limit : Nat} (small : limit ≤ 2 ^ 32)
    {alloc alloc' : Allocator} {terminator terminator' : Terminator} {i pos : Nat}
    {inserted : List Syllable} (pool : Pool limit alloc)
    (bounded : ∀ v, terminator.condVreg = some v → v < limit)
    (done : rewriteTerminator order alloc terminator i pos =
      .ok ((inserted, terminator'), alloc')) :
    Ended limit alloc terminator i pos inserted terminator' alloc' := by
  unfold rewriteTerminator at done
  split at done
  · rename_i v label
    obtain ⟨⟨preg, work⟩, bindDone, finished⟩ := bind_eq_ok.mp done
    obtain ⟨code, isCode, isBound⟩ := bound_of_pregForVreg small pool (bounded v rfl) bindDone
    have tables : SameTables alloc work.alloc :=
      ⟨isBound.lastUses, isBound.liveOut, isBound.spillBase⟩
    have kept : ∀ {w p}, work.alloc.spills w = alloc.spills w →
        alloc.assigned.lookup w = some p → work.alloc.assigned.lookup w = some p :=
      fun same bound => isBound.kept (.inr same) bound
    have already : ∀ {p}, alloc.assigned.lookup v = some p →
        preg = p ∧ work = ⟨alloc, []⟩ := by
      intro p bound
      unfold pregForVreg at bindDone
      simp only [bound] at bindDone
      cases bindDone
      exact ⟨rfl, rfl⟩
    dsimp only at finished
    rw [tables.canFreeAfter] at finished
    by_cases canFree : alloc.canFreeAfter v i pos = true
    · rw [if_pos canFree] at finished
      cases finished
      exact
        { pool := isBound.pool.freeVreg v
          tables := tables.trans (sameTables_freeVreg _ v)
          spills := by
            intro w
            rw [freeVreg_spills]
            exact isBound.spills w
          unspilled := by
            intro w p same stays bound
            rw [freeVreg_spills] at same
            rw [freeVreg_lookup, if_neg, kept same bound]
            rintro rfl
            exact stays ⟨rfl, canFree⟩
          held := by
            intro w isCond cannot
            cases isCond
            rw [canFree] at cannot
            cases cannot
          old := by
            intro w q other bound
            have different : w ≠ v := fun same => other (by rw [same]; rfl)
            rw [freeVreg_lookup, if_neg different] at bound
            exact isBound.old different bound
          sameSlots := by
            intro w same
            rw [freeVreg_spills] at same
            rw [freeVreg_spillSlots, isBound.sameSlots same]
          placed := by
            intro w stays placed
            have different : w ≠ v := fun same => stays ⟨by rw [same]; rfl, by rwa [same]⟩
            rw [freeVreg_place _ different]
            exact isBound.placed placed
          fixed := fun none => by cases none
          bound := by
            intro w p isCond bound
            cases isCond
            obtain ⟨rfl, rfl⟩ := already bound
            exact ⟨rfl, .inr ⟨canFree, rfl⟩, label, rfl, rfl⟩ }
    · rw [if_neg canFree] at finished
      cases finished
      exact
        { pool := isBound.pool
          tables := tables
          spills := isBound.spills
          unspilled := fun same _ bound => kept same bound
          held := by
            intro w isCond _
            cases isCond
            rw [isBound.bound]
            exact Option.some_ne_none _
          old := by
            intro w q other bound
            exact isBound.old (fun same => other (by rw [same]; rfl)) bound
          sameSlots := isBound.sameSlots
          placed := fun _ placed => isBound.placed placed
          fixed := fun none => by cases none
          bound := by
            intro w p isCond bound
            cases isCond
            obtain ⟨rfl, rfl⟩ := already bound
            exact ⟨rfl, .inl rfl, label, rfl, rfl⟩ }
  · rename_i notBranch
    cases done
    have noCond : terminator.condVreg = none := by
      cases isCond : terminator.condVreg with
      | none => rfl
      | some v =>
          obtain ⟨label, isBranch⟩ := Mir.Terminator.condVreg_eq_some.mp isCond
          exact absurd isBranch (notBranch v label)
    exact
      { pool := pool
        tables := .refl _
        spills := fun _ => Nat.le_refl _
        unspilled := fun _ _ bound => bound
        held := by
          intro v isCond
          rw [noCond] at isCond
          cases isCond
        old := fun _ bound => bound
        sameSlots := fun _ => rfl
        placed := fun _ placed => placed
        fixed := fun _ => ⟨rfl, rfl, rfl⟩
        bound := by
          intro v p isCond
          rw [noCond] at isCond
          cases isCond }

/-! ### Invariants of every position -/

section Invariants

variable {order : HashOrder} {function : Function} {memorySize : Nat}

/-- No syllable of the function loads its destination over a source. -/
def KeepsAllSources (order : HashOrder) (function : Function) (memorySize : Nat) : Prop :=
  ∀ i block front syllable rest alloc, function.blocks[i]? = some block →
    block.syllables = front ++ syllable :: rest →
    allocatorBefore order function memorySize i front.length = .ok alloc →
    KeepsSources order alloc syllable i (startPos function.blocks i + front.length)

theorem small_of_initialAllocator {alloc : Allocator}
    (started : initialAllocator function memorySize = .ok alloc) {i : Nat} {block : Block}
    (found : function.blocks[i]? = some block) :
    (∀ syllable ∈ block.syllables, (∀ v ∈ syllable.sourceVregs, v < 64) ∧
      ∀ v, syllable.dstVreg = some v → v < 64) ∧
      ∀ v, block.terminator.condVreg = some v → v < 64 := by
  obtain ⟨-, infos, computed, -⟩ := initialAllocator_eq_ok.mp started
  exact Liveness.small_of_compute computed found

theorem initial_of_allocatorAt {i : Nat} {alloc : Allocator}
    (reached : allocatorAt order function memorySize i = .ok alloc) :
    ∃ initial, initialAllocator function memorySize = .ok initial := by
  obtain ⟨initial, started, -⟩ := bind_eq_ok.mp reached
  exact ⟨initial, started⟩

/-- Specification of the rewriting of one syllable of the function. -/
theorem rewritten_at {i : Nat} {block : Block} {front rest : List Syllable} {syllable : Syllable}
    {alloc alloc' : Allocator} {out : List Syllable}
    (found : function.blocks[i]? = some block)
    (split : block.syllables = front ++ syllable :: rest)
    (reached : allocatorBefore order function memorySize i front.length = .ok alloc)
    (pool : Pool 64 alloc)
    (done : rewriteSyllable order alloc syllable i (startPos function.blocks i + front.length) =
      .ok (out, alloc')) :
    ∃ code rename dst,
      out = code ++ [⟨syllable.opcode, dst, syllable.srcs.map (renameValue rename)⟩] ∧
      Rewritten (KeepsSources order alloc syllable i (startPos function.blocks i + front.length))
        64 alloc syllable i (startPos function.blocks i + front.length) code rename dst alloc' := by
  obtain ⟨start, atStart, -⟩ := bind_eq_ok.mp reached
  obtain ⟨initial, started⟩ := initial_of_allocatorAt atStart
  have small := (small_of_initialAllocator started found).1 syllable (by simp [split])
  exact rewritten_of_rewriteSyllable (by decide) pool small.1 small.2 done

theorem ended_at {i : Nat} {block : Block} {alloc alloc' : Allocator}
    {inserted : List Syllable} {terminator : Terminator}
    (found : function.blocks[i]? = some block)
    (reached : allocatorBefore order function memorySize i block.syllables.length = .ok alloc)
    (pool : Pool 64 alloc)
    (done : rewriteTerminator order alloc block.terminator i
      (startPos function.blocks i + block.syllables.length) =
        .ok ((inserted, terminator), alloc')) :
    Ended 64 alloc block.terminator i (startPos function.blocks i + block.syllables.length)
      inserted terminator alloc' := by
  obtain ⟨start, atStart, -⟩ := bind_eq_ok.mp reached
  obtain ⟨initial, started⟩ := initial_of_allocatorAt atStart
  exact ended_of_rewriteTerminator (by decide) pool (small_of_initialAllocator started found).2
    done

theorem sound_before {i : Nat} {block : Block}
    (found : function.blocks[i]? = some block)
    (start : ∀ alloc, allocatorAt order function memorySize i = .ok alloc →
      Consults function memorySize alloc ∧ Pool 64 alloc)
    {front rest : List Syllable} (split : block.syllables = front ++ rest) {alloc : Allocator}
    (reached : allocatorBefore order function memorySize i front.length = .ok alloc) :
    Consults function memorySize alloc ∧ Pool 64 alloc := by
  induction front using List.reverseRecOn generalizing rest alloc with
  | nil =>
      rw [List.length_nil, allocatorBefore_zero] at reached
      exact start alloc reached
  | append_singleton front syllable ih =>
      rw [List.append_assoc, List.singleton_append] at split
      rw [List.length_append, List.length_singleton, allocatorBefore_succ found split] at reached
      obtain ⟨before, code, atBefore, done⟩ := reached
      obtain ⟨consults, pool⟩ := ih split atBefore
      obtain ⟨code, rename, dst, -, rewritten⟩ :=
        rewritten_at found split atBefore pool done
      exact ⟨consults.transfer rewritten.tables, rewritten.pool⟩

theorem sound_at {i : Nat} (inside : i ≤ function.blocks.length) {alloc : Allocator}
    (reached : allocatorAt order function memorySize i = .ok alloc) :
    Consults function memorySize alloc ∧ Pool 64 alloc := by
  induction i generalizing alloc with
  | zero =>
      rw [allocatorAt_zero] at reached
      exact consults_initialAllocator reached
  | succ i ih =>
      have found := List.getElem?_eq_getElem inside
      obtain ⟨before, ⟨inserted, terminator⟩, atBefore, done⟩ := allocatorAt_succ found reached
      obtain ⟨consults, pool⟩ := sound_before found (fun _ => ih (Nat.le_of_lt inside))
        (List.append_nil _).symm atBefore
      have ended := ended_at found atBefore pool done
      exact ⟨consults.transfer ended.tables, ended.pool⟩

end Invariants

/-! ### Simulation of a block -/

/-- The memory accesses of consecutive syllables stay clear of an area. -/
def AvoidsAll (isa : Isa Opcode) (area : Set Word) : List Syllable → State Reg → Prop
  | [], _ => True
  | syllable :: rest, state => ∀ action, syllable.action = some action →
      Action.Avoids area action state ∧ AvoidsAll isa area rest (action.exec isa state)

/-- No predicate that is still needed is spilled. -/
def KeepsFlags (isPred : Nat → Prop) (order : HashOrder) (function : Function)
    (memorySize : Nat) : Prop :=
  ∀ i block front syllable rest alloc alloc', function.blocks[i]? = some block →
    block.syllables = front ++ syllable :: rest →
    allocatorBefore order function memorySize i front.length = .ok alloc →
    allocatorBefore order function memorySize i (front.length + 1) = .ok alloc' →
    ∀ v, isPred v → NeededBefore function i block.terminator rest v →
      alloc'.spills v = alloc.spills v

section Simulation

variable {order : HashOrder} {function : Function} {memorySize : Nat} {isPred : Nat → Prop}
  {i : Nat} {block : Block}

theorem represents_syllables (isa : Isa Opcode)
    (keeps : KeepsAllSources order function memorySize)
    (keepsFlags : KeepsFlags isPred order function memorySize)
    (found : function.blocks[i]? = some block)
    (typed : ∀ syllable ∈ block.syllables, Typed isPred syllable)
    (fixed : ∀ syllable ∈ block.syllables, FixedOutside syllable)
    (wellFormed : ∀ syllable ∈ block.syllables, syllable.WellFormed)
    {front rest : List Syllable} (split : block.syllables = front ++ rest)
    {alloc alloc' : Allocator} {out : List Syllable} {state state' : State Reg}
    (reached : allocatorBefore order function memorySize i front.length = .ok alloc)
    (consults : Consults function memorySize alloc) (pool : Pool 64 alloc)
    (done : rewriteSyllables order i (startPos function.blocks i + front.length) alloc rest =
      .ok (out, alloc'))
    (represents :
      Represents 64 isPred (NeededBefore function i block.terminator rest) alloc state state')
    (avoids : AvoidsAll isa (spillArea (spillAddress memorySize) 64) rest state) :
    ∃ final final', execSyllables isa rest state = some final ∧
      execSyllables isa out state' = some final' ∧
      Represents 64 isPred (NeededBefore function i block.terminator []) alloc' final final' := by
  induction rest generalizing front alloc out state state' with
  | nil =>
      cases done
      exact ⟨state, state', rfl, rfl, represents⟩
  | cons syllable rest ih =>
      have syllableMem : syllable ∈ block.syllables := by simp [split]
      obtain ⟨code, middle, back, here, others, rfl⟩ := rewriteSyllables_cons.mp done
      have next := (allocatorBefore_succ found split).mpr ⟨alloc, code, reached, here⟩
      obtain ⟨code, rename, dst, rfl, rewritten⟩ :=
        rewritten_at found split reached pool here
      obtain ⟨action, denotes⟩ := Option.isSome_iff_exists.mp (wellFormed syllable syllableMem).1
      obtain ⟨avoidsHere, avoidsRest⟩ := avoids action denotes
      rw [← consults.base] at avoidsHere
      have flags : ∀ v, NeededBefore function i block.terminator rest v → isPred v →
          syllable.dstVreg ≠ some v → middle.assigned.lookup v ≠ none := by
        intro v isNeeded isFlag isOther
        obtain ⟨preg, bound, -⟩ := represents.flags v (needed_cons isNeeded isOther) isFlag
        have spared := keepsFlags i block front syllable rest alloc middle found split reached
          next v isFlag isNeeded
        rw [rewritten.unspilled spared isOther (consults.not_lastRead found split isNeeded) bound]
        exact Option.some_ne_none preg
      have isKept := keeps i block front syllable rest alloc found split reached
      obtain ⟨mid, executed, middleRepresents⟩ := represents_step isa rewritten represents isKept
        (typed syllable syllableMem) (fixed syllable syllableMem) (wellFormed syllable syllableMem)
        denotes (consults.demand found split flags) avoidsHere
      have longer : block.syllables = (front ++ [syllable]) ++ rest := by simp [split]
      have isLength : (front ++ [syllable]).length = front.length + 1 := by simp
      obtain ⟨final, final', original, allocated, atEnd⟩ := ih longer
        (by rw [isLength]; exact next) (consults.transfer rewritten.tables) rewritten.pool
        (by rw [isLength]; exact others) middleRepresents avoidsRest
      refine ⟨final, final', ?_, ?_, atEnd⟩
      · rw [← List.singleton_append, Mir.execSyllables_append, Mir.execSyllables_singleton,
          denotes, Option.map_some, Option.bind_some, original]
      · rw [Mir.execSyllables_append, executed, Option.bind_some, allocated]

end Simulation

end VliwCompiler.Regalloc
