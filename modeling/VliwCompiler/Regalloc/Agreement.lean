import VliwCompiler.Regalloc.ControlFlow
import VliwCompiler.Regalloc.Places
import VliwCompiler.Machine.LockStep
import VliwCompiler.Mir.Layout
import VliwCompiler.Mir.Shape

/-!
# Agreement of allocated functions

A call-free function and its allocation visit the same blocks with the same
return value and the same memory outside the spill area, as long as every value
stays in its place on every edge.
-/

namespace VliwCompiler.Regalloc

open Asm (Opcode I64)
open Mir (Reg Value Syllable Terminator Block Function BlockId Config execSyllables blockAt
  jumpTarget labelledBlock namedBlock fallThrough returnBlock follow)
open Liveness (LiveAt LiveAfter successors labelToIdx Exposed)
open Allocator (allocatable)
open Machine

/-! ### Successors -/

/-- Every successor is a block of the function. -/
theorem successor_inside {function : Function} {p s : Nat} {block : Block}
    (succ : s ∈ successors function p block) : s < function.blocks.length := by
  have target : ∀ {label}, s ∈ ((labelToIdx function).lookup label).toList →
      s < function.blocks.length := by
    intro label isTarget
    rw [Option.mem_toList] at isTarget
    exact (Liveness.lookup_labelToIdx.mp isTarget).inside
  unfold successors at succ
  split at succ
  · dsimp only at succ
    split at succ
    · rename_i fall
      rcases List.mem_append.mp succ with isTarget | falls
      · exact target isTarget
      · rw [List.mem_singleton.mp falls]
        exact fall.1
    · exact target succ
  · exact target succ
  · cases succ
  · exact target succ

section Successors

variable {function : Function} (distinct : (function.blocks.map (·.label)).Nodup)

include distinct

theorem labelToIdx_of_labelledBlock {label : String} {id : BlockId}
    (found : labelledBlock [function] 0 label = some id) :
    id.func = 0 ∧ id.block < function.blocks.length ∧
      (labelToIdx function).lookup label = some id.block := by
  obtain ⟨k, isFound, rfl⟩ := Option.map_eq_some_iff.mp (show
    (function.blocks.findIdx? (·.label = label)).map (BlockId.mk 0) = some id from found)
  obtain ⟨inside, sameLabel, -⟩ := List.findIdx?_eq_some_iff_getElem.mp isFound
  have isLabel := of_decide_eq_true sameLabel
  have here : (function.blocks.map (·.label))[k]? = some label := by
    rw [List.getElem?_map, List.getElem?_eq_getElem inside, Option.map_some, isLabel]
  refine ⟨rfl, inside, Liveness.lookup_labelToIdx.mpr ⟨?_, fun t later isLater => ?_⟩⟩
  · rw [← List.getElem?_map, here]
  · rw [← List.getElem?_map, ← here] at isLater
    have same := (List.getElem?_inj (by simpa using inside) distinct).mp isLater.symm
    exact absurd same (Nat.ne_of_lt later)

omit distinct in
/-- A label that is no block of the function can only be the name of the
function. -/
theorem namedBlock_of_unlabelled {label : String} {id : BlockId}
    (unlabelled : labelledBlock [function] 0 label = none)
    (found : namedBlock [function] label = some id) :
    id = ⟨0, 0⟩ ∧ 0 < function.blocks.length := by
  have idMem := List.mem_of_find?_eq_some found
  have labelled : label ∈ Mir.blockLabels [function] id := by
    have accepted := List.find?_some found
    exact of_decide_eq_true accepted
  obtain ⟨block, isBlock⟩ := Mir.blockAt_of_mem_blockIds idMem
  obtain ⟨other, isFunction, inFunction⟩ := Option.bind_eq_some_iff.mp isBlock
  obtain ⟨func, k⟩ := id
  have isFirst : func = 0 := by
    have inside := (List.getElem?_eq_some_iff.mp isFunction).1
    simpa using inside
  subst isFirst
  obtain rfl : function = other := Option.some.inj isFunction
  have notLabel : block.label ≠ label := by
    intro same
    have absent := Option.map_eq_none_iff.mp (show
      (function.blocks.findIdx? (·.label = label)).map (BlockId.mk 0) = none from unlabelled)
    rw [List.findIdx?_eq_none_iff] at absent
    have different := absent block (List.mem_of_getElem? inFunction)
    rw [decide_eq_false_iff_not] at different
    exact different same
  by_cases isEntry : k = 0
  · subst isEntry
    exact ⟨rfl, (List.getElem?_eq_some_iff.mp inFunction).1⟩
  · unfold Mir.blockLabels at labelled
    rw [if_neg isEntry, isBlock] at labelled
    simp only [Option.toList_none, List.nil_append, Option.map_some, Option.toList_some,
      List.mem_singleton] at labelled
    exact absurd labelled.symm notLabel

theorem jumpTarget_successor {label : String} {id : BlockId}
    (found : jumpTarget [function] 0 label = some id) :
    id.func = 0 ∧ id.block < function.blocks.length ∧
      ((labelToIdx function).lookup label = some id.block ∨ id.block = 0) := by
  unfold jumpTarget at found
  cases labelled : labelledBlock [function] 0 label with
  | some other =>
      rw [labelled] at found
      cases found
      obtain ⟨isFirst, inside, indexed⟩ := labelToIdx_of_labelledBlock distinct labelled
      exact ⟨isFirst, inside, .inl indexed⟩
  | none =>
      rw [labelled] at found
      obtain ⟨rfl, nonempty⟩ := namedBlock_of_unlabelled labelled found
      exact ⟨rfl, nonempty, .inr rfl⟩

/-- A call-free block that does not return continues with a successor or with
the entry. -/
theorem follow_successor {link : BlockId → Word} {i : Nat} {block : Block} {state : State Reg}
    {next : Config}
    (callFree : ∀ target cont, block.terminator ≠ .directCall target cont)
    (goes : follow [function] link ⟨0, i⟩ state block.terminator = some next) :
    (block.terminator = .ret ∧ next =
        ⟨returnBlock [function] link (state.readGpr (.preg linkReg)), state⟩) ∨
      ∃ s < function.blocks.length, next = ⟨some ⟨0, s⟩, state⟩ ∧
        (s ∈ successors function i block ∨ s = 0) := by
  have target : ∀ {label}, (jumpTarget [function] 0 label).map
      (fun id => (⟨some id, state⟩ : Config)) = some next →
      ∃ s < function.blocks.length, next = ⟨some ⟨0, s⟩, state⟩ ∧
        ((labelToIdx function).lookup label = some s ∨ s = 0) := by
    intro label jumps
    obtain ⟨⟨func, s⟩, isTarget, rfl⟩ := Option.map_eq_some_iff.mp jumps
    obtain ⟨isFirst, inside, indexed⟩ := jumpTarget_successor distinct isTarget
    cases isFirst
    exact ⟨s, inside, rfl, indexed⟩
  cases isTerminator : block.terminator with
  | ret =>
      rw [isTerminator] at goes
      exact .inl ⟨rfl, (Option.some.inj goes).symm⟩
  | directCall name cont => exact absurd isTerminator (callFree name cont)
  | jump label =>
      rw [isTerminator] at goes
      obtain ⟨s, inside, isNext, indexed⟩ := target goes
      refine .inr ⟨s, inside, isNext, indexed.imp_left fun isIndex => ?_⟩
      simp [successors, isTerminator, isIndex]
  | branch cond label =>
      rw [isTerminator] at goes
      simp only [follow] at goes
      split at goes
      · obtain ⟨s, inside, isNext, indexed⟩ := target goes
        refine .inr ⟨s, inside, isNext, indexed.imp_left fun isIndex => ?_⟩
        simp only [successors, isTerminator, isIndex]
        split <;> simp
      · obtain ⟨id, falls, rfl⟩ := Option.map_eq_some_iff.mp goes
        obtain ⟨other, isBlock, rfl⟩ := Option.map_eq_some_iff.mp falls
        have inside : i + 1 < function.blocks.length :=
          (List.getElem?_eq_some_iff.mp (show function.blocks[i + 1]? = some other from isBlock)).1
        refine .inr ⟨i + 1, inside, rfl, .inl ?_⟩
        simp only [successors, isTerminator, inside, true_and]
        split
        · simp
        · rename_i present
          simpa using present

end Successors

/-! ### The condition -/

/-- No block ends in a call. -/
def CallFree (function : Function) : Prop :=
  ∀ block ∈ function.blocks, ∀ target cont, block.terminator ≠ .directCall target cont

/-- Every virtual register is used in one class. -/
def WellTyped (isPred : Nat → Prop) (function : Function) : Prop :=
  ∀ block ∈ function.blocks, (∀ syllable ∈ block.syllables, Typed isPred syllable) ∧
    ∀ v, block.terminator.condVreg = some v → isPred v

instance (isPred : Nat → Prop) [DecidablePred isPred] (function : Function) :
    Decidable (WellTyped isPred function) :=
  inferInstanceAs (Decidable (∀ block ∈ function.blocks,
    (∀ syllable ∈ block.syllables, Typed isPred syllable) ∧
      ∀ v, block.terminator.condVreg = some v → isPred v))

/-- The condition of a branch is no register the allocator hands out. -/
def condOutside : Terminator → Bool
  | .branch cond _ => regOutside cond
  | _ => true

/-- Fixed registers are not available to the allocator. -/
def FixedOnly (function : Function) : Prop :=
  ∀ block ∈ function.blocks, (∀ syllable ∈ block.syllables, FixedOutside syllable) ∧
    condOutside block.terminator

instance (function : Function) : Decidable (FixedOnly function) :=
  inferInstanceAs (Decidable (∀ block ∈ function.blocks,
    (∀ syllable ∈ block.syllables, FixedOutside syllable) ∧ condOutside block.terminator))

/-- Nothing disturbs a value on its way to a use. -/
structure SafeAllocation (order : HashOrder) (function : Function) (memorySize : Nat)
    (isPred : Nat → Prop) : Prop where
  fixed : FixedOnly function
  keepsSources : KeepsAllSources order function memorySize
  keepsFlags : KeepsFlags isPred order function memorySize
  quiet : ∀ p block s v, function.blocks[p]? = some block → s ∈ successors function p block →
    LiveAt function v s → QuietBetween order function memorySize v p s

/-- The next block stays clear of the spill area, and a return leaves the
function. -/
structure Admissible (isa : Isa Opcode) (link : BlockId → Word) (function : Function)
    (memorySize : Nat) (config : Config) : Prop where
  avoids : ∀ id block, config.block = some id → blockAt [function] id = some block →
    AvoidsAll isa (spillArea (spillAddress memorySize) 64) block.syllables config.state
  leaves : ∀ id block final, config.block = some id → blockAt [function] id = some block →
    block.terminator = .ret → execSyllables isa block.syllables config.state = some final →
      returnBlock [function] link (final.readGpr (.preg linkReg)) = none

/-- What the caller of a function can see: the block about to be executed, the
return value and the memory outside the spill area. -/
def outcome (memorySize : Nat) (config : Config) :
    Option BlockId × Word × (↥(spillArea (spillAddress memorySize) 64)ᶜ → Byte) :=
  (config.block, config.state.gpr (.preg retvalReg), fun cell => config.state.mem cell)

/-! ### Simulation of a function -/

theorem Represents.transfer {limit : Nat} {isPred needed needed' : Nat → Prop}
    {alloc alloc' : Allocator} {state state' : State Reg}
    (represents : Represents limit isPred needed alloc state state')
    (sameBase : alloc'.spillBase = alloc.spillBase)
    (kept : ∀ v, needed' v → needed v ∧ alloc'.place v = alloc.place v) :
    Represents limit isPred needed' alloc' state state' where
  words := by
    intro v isNeeded isWord
    obtain ⟨wasNeeded, samePlace⟩ := kept v isNeeded
    rw [word?_eq_place, samePlace, ← word?_eq_place]
    exact represents.words v wasNeeded isWord
  flags := by
    intro v isNeeded isFlag
    obtain ⟨wasNeeded, samePlace⟩ := kept v isNeeded
    obtain ⟨preg, bound, sameFlag⟩ := represents.flags v wasNeeded isFlag
    rw [← place_eq_register, ← samePlace, place_eq_register] at bound
    exact ⟨preg, bound, sameFlag⟩
  gpr := represents.gpr
  pred := represents.pred
  mem := by
    intro cell outside
    rw [sameBase] at outside
    exact represents.mem cell outside

section Function

variable {order : HashOrder} {function allocated : Function} {memorySize : Nat}
  {isPred : Nat → Prop}

theorem shape_of_allocateRegisters
    (done : allocateRegisters order function memorySize = .ok allocated) :
    [function].map Function.shape = [allocated].map Function.shape := by
  obtain ⟨initial, started, rest⟩ := bind_eq_ok.mp done
  obtain ⟨⟨out, final⟩, rewritten, finished⟩ := bind_eq_ok.mp rest
  have sameLength := length_of_rewriteBlocks rewritten
  cases finished
  rw [List.map_singleton, List.map_singleton]
  refine congrArg (fun labels => [(function.name, labels)]) ?_
  refine List.ext_getElem? fun k => ?_
  rw [List.getElem?_map, List.getElem?_map]
  cases found : function.blocks[k]? with
  | none =>
      rw [List.getElem?_eq_none_iff, ← sameLength, ← List.getElem?_eq_none_iff] at found
      rw [found]
  | some block =>
      obtain ⟨_, _, _, _, _, _, -, -, -, -, isOut⟩ := block_of_allocateRegisters done found
      rw [isOut]
      rfl

/-- The state before the terminator still represents the live registers after
it, and both terminators go to the same block. -/
theorem represents_terminator (link : BlockId → Word) {i : Nat} {block : Block}
    {alloc alloc' : Allocator} {inserted : List Syllable} {terminator : Terminator}
    {state state' : State Reg}
    (done : allocateRegisters order function memorySize = .ok allocated)
    (typed : ∀ v, block.terminator.condVreg = some v → isPred v)
    (fixed : condOutside block.terminator)
    (callFree : ∀ target cont, block.terminator ≠ .directCall target cont)
    (consults : Consults function memorySize alloc)
    (ended : Ended 64 alloc block.terminator i
      (startPos function.blocks i + block.syllables.length) inserted terminator alloc')
    (represents : Represents 64 isPred (NeededBefore function i block.terminator []) alloc state
      state') :
    inserted = [] ∧ Represents 64 isPred (LiveAfter function · i) alloc' state state' ∧
      follow [allocated] link ⟨0, i⟩ state' terminator =
        (follow [function] link ⟨0, i⟩ state block.terminator).map
          fun next => ⟨next.block, state'⟩ := by
  have shape := shape_of_allocateRegisters done
  have live : ∀ v, LiveAfter function v i → NeededBefore function i block.terminator [] v :=
    fun v isLive => .inr ⟨isLive, by rintro ⟨syllable, nothing, -⟩; cases nothing⟩
  cases isCond : block.terminator.condVreg with
  | none =>
      obtain ⟨rfl, rfl, rfl⟩ := ended.fixed isCond
      refine ⟨rfl, represents.transfer rfl fun v isLive => ⟨live v isLive, rfl⟩, ?_⟩
      cases isTerminator : block.terminator with
      | ret =>
          have sameLink : state'.readGpr (.preg linkReg) = state.readGpr (.preg linkReg) := by
            unfold State.readGpr
            rw [represents.gpr linkReg (by decide)]
          simp only [follow, Option.map_some, sameLink, Mir.returnBlock_of_shape shape]
      | directCall target cont => exact absurd isTerminator (callFree target cont)
      | jump label =>
          simp only [follow, Mir.jumpTarget_of_shape shape, Option.map_map, Function.comp_def]
      | branch cond label =>
          cases cond with
          | vreg v =>
              rw [isTerminator] at isCond
              cases isCond
          | preg preg =>
              rw [isTerminator] at fixed
              have sameFlag := represents.pred preg (of_decide_eq_true fixed)
              simp only [follow, sameFlag, Mir.jumpTarget_of_shape shape,
                Mir.fallThrough_of_shape shape]
              split <;> simp [Option.map_map, Function.comp_def]
  | some v =>
      obtain ⟨preg, bound, sameFlag⟩ := represents.flags v (.inl isCond) (typed v isCond)
      obtain ⟨rfl, change, label, isBranch, rfl⟩ := ended.bound isCond bound
      refine ⟨rfl, represents.transfer ended.tables.spillBase ?_, ?_⟩
      · intro w isLive
        refine ⟨live w isLive, ?_⟩
        rcases change with rfl | ⟨canFree, rfl⟩
        · rfl
        · have different : w ≠ v := by
            rintro rfl
            simp [Allocator.canFreeAfter, (consults.liveOut w i).mpr isLive] at canFree
          exact freeVreg_place alloc different
      · rw [isBranch]
        simp only [follow, sameFlag, Mir.jumpTarget_of_shape shape,
          Mir.fallThrough_of_shape shape]
        split <;> simp [Option.map_map, Function.comp_def]

/-- The block can be reached from the entry. -/
inductive Reachable (function : Function) : Nat → Prop where
  | entry : Reachable function 0
  | edge {p s : Nat} {block : Block} (reached : Reachable function p)
      (found : function.blocks[p]? = some block) (succ : s ∈ successors function p block) :
      Reachable function s

theorem placed_before {i : Nat} {block : Block}
    (found : function.blocks[i]? = some block)
    (start : ∀ v alloc, LiveAt function v i → allocatorAt order function memorySize i = .ok alloc →
      alloc.place v ≠ none)
    {front rest : List Syllable} (split : block.syllables = front ++ rest) {alloc : Allocator}
    (reached : allocatorBefore order function memorySize i front.length = .ok alloc) {v : Nat}
    (isNeeded : NeededBefore function i block.terminator rest v) : alloc.place v ≠ none := by
  have inside : i ≤ function.blocks.length := Nat.le_of_lt (List.getElem?_eq_some_iff.mp found).1
  induction front using List.reverseRecOn generalizing rest alloc with
  | nil =>
      rw [List.length_nil, allocatorBefore_zero] at reached
      rw [List.nil_append] at split
      rw [← split, needed_iff_liveAt found] at isNeeded
      exact start v alloc isNeeded reached
  | append_singleton front syllable ih =>
      rw [List.append_assoc, List.singleton_append] at split
      rw [List.length_append, List.length_singleton, allocatorBefore_succ found split] at reached
      obtain ⟨before, code, atBefore, done⟩ := reached
      obtain ⟨consults, pool⟩ :=
        sound_before found (fun _ => sound_at inside) split atBefore
      obtain ⟨code, rename, dst, -, rewritten⟩ :=
        rewritten_at found split atBefore pool done
      by_cases isDst : syllable.dstVreg = some v
      · obtain ⟨preg, -, -, -, bound, -⟩ := rewritten.vregDst v isDst
        rw [consults.needsAfter found split isNeeded, if_pos rfl, ← place_eq_register] at bound
        rw [bound]
        exact Option.some_ne_none _
      · exact rewritten.placed isDst (consults.not_lastRead found split isNeeded)
          (ih split atBefore (needed_cons isNeeded isDst))

theorem placed_after {i : Nat} {block : Block}
    (found : function.blocks[i]? = some block)
    (start : ∀ v alloc, LiveAt function v i → allocatorAt order function memorySize i = .ok alloc →
      alloc.place v ≠ none) {alloc : Allocator}
    (reached : allocatorAt order function memorySize (i + 1) = .ok alloc) {v : Nat}
    (live : LiveAfter function v i) : alloc.place v ≠ none := by
  have inside : i ≤ function.blocks.length := Nat.le_of_lt (List.getElem?_eq_some_iff.mp found).1
  obtain ⟨before, ⟨inserted, terminator⟩, atBefore, done⟩ := allocatorAt_succ found reached
  obtain ⟨consults, pool⟩ := sound_before found (fun _ => sound_at inside)
    (List.append_nil _).symm atBefore
  refine (ended_at found atBefore pool done).placed ?_
    (placed_before found start (List.append_nil _).symm atBefore
      (.inr ⟨live, by rintro ⟨syllable, nothing, -⟩; cases nothing⟩))
  rintro ⟨-, canFree⟩
  simp [Allocator.canFreeAfter, (consults.liveOut v i).mpr live] at canFree

/-- Live registers of reachable blocks have a place. -/
theorem placed_at (done : allocateRegisters order function memorySize = .ok allocated)
    (safe : SafeAllocation order function memorySize isPred)
    (defined : ∀ v, ¬LiveAt function v 0) {i : Nat} (reachable : Reachable function i) {v : Nat}
    {alloc : Allocator} (live : LiveAt function v i)
    (reached : allocatorAt order function memorySize i = .ok alloc) : alloc.place v ≠ none := by
  induction reachable generalizing v alloc with
  | entry => exact absurd live (defined v)
  | @edge p s block _ found succ ih =>
      have insideP := (List.getElem?_eq_some_iff.mp found).1
      obtain ⟨_, _, _, _, _, after, -, -, -, atEnd, -⟩ := block_of_allocateRegisters done found
      have samePlace := (safe.quiet p block s v found succ live).place insideP
        (Nat.le_of_lt (successor_inside succ)) atEnd reached
      rw [← samePlace]
      exact placed_after found (fun _ _ isLive atStart => ih isLive atStart)
        atEnd ⟨block, s, found, succ, live⟩

/-- The original function and its allocation at the same block. -/
def Corresponds (isa : Isa Opcode) (link : BlockId → Word) (order : HashOrder)
    (function : Function) (memorySize : Nat) (isPred : Nat → Prop) (config config' : Config) :
    Prop :=
  config'.block = config.block ∧
    (∀ later, Relation.ReflTransGen (fun a b => Mir.step [function] isa link a = some b) config
      later → Admissible isa link function memorySize later) ∧
    ∃ alloc, Consults function memorySize alloc ∧
      (∀ id, config.block = some id →
        id.func = 0 ∧ allocatorAt order function memorySize id.block = .ok alloc) ∧
      Represents 64 isPred (fun v => ∃ i, config.block = some ⟨0, i⟩ ∧ LiveAt function v i) alloc
        config.state config'.state

theorem Corresponds.outcome_eq {isa : Isa Opcode} {link : BlockId → Word} {config config' : Config}
    (related : Corresponds isa link order function memorySize isPred config config') :
    outcome memorySize config' = outcome memorySize config := by
  obtain ⟨sameBlock, -, alloc, consults, -, represents⟩ := related
  unfold outcome
  rw [sameBlock, represents.gpr retvalReg (by decide)]
  congr 2
  funext cell
  refine represents.mem cell ?_
  rw [consults.base]
  exact cell.2

section Step

variable {isa : Isa Opcode} {link : BlockId → Word}
  (done : allocateRegisters order function memorySize = .ok allocated)
  (callFree : CallFree function) (distinct : (function.blocks.map (·.label)).Nodup)
  (wellFormed : ∀ block ∈ function.blocks, ∀ syllable ∈ block.syllables, syllable.WellFormed)
  (typed : WellTyped isPred function) (defined : ∀ v, ¬LiveAt function v 0)
  (safe : SafeAllocation order function memorySize isPred)

include done callFree wellFormed typed safe in
/-- Both functions execute the block and go to the same block. -/
theorem represents_block (isa : Isa Opcode) (link : BlockId → Word) {i : Nat} {block : Block}
    {alloc : Allocator} {state state' : State Reg}
    (found : function.blocks[i]? = some block)
    (atStart : allocatorAt order function memorySize i = .ok alloc)
    (represents : Represents 64 isPred (LiveAt function · i) alloc state state')
    (avoids : AvoidsAll isa (spillArea (spillAddress memorySize) 64) block.syllables state) :
    ∃ final final' after, execSyllables isa block.syllables state = some final ∧
      allocatorAt order function memorySize (i + 1) = .ok after ∧
      Represents 64 isPred (LiveAfter function · i) after final final' ∧
      Mir.step [function] isa link ⟨some ⟨0, i⟩, state⟩ =
        follow [function] link ⟨0, i⟩ final block.terminator ∧
      Mir.step [allocated] isa link ⟨some ⟨0, i⟩, state'⟩ =
        (follow [function] link ⟨0, i⟩ final block.terminator).map
          fun next => ⟨next.block, final'⟩ := by
  have blockMem := List.mem_of_getElem? found
  have inside : i ≤ function.blocks.length := Nat.le_of_lt (List.getElem?_eq_some_iff.mp found).1
  obtain ⟨before, body, middle, inserted, terminator, after, atBefore, first, ended, atEnd, isOut⟩ :=
    block_of_allocateRegisters done found
  obtain rfl : before = alloc := Except.ok.inj (atBefore.symm.trans atStart)
  obtain ⟨consults, pool⟩ := sound_at inside atStart
  have atMiddle := (allocatorBefore_eq found (List.append_nil _).symm).mpr
    ⟨before, body, atStart, first⟩
  obtain ⟨consultsMiddle, poolMiddle⟩ := sound_before found
    (fun _ => sound_at inside) (List.append_nil _).symm atMiddle
  obtain ⟨final, final', executed, executed', atTerminator⟩ := represents_syllables isa
    safe.keepsSources safe.keepsFlags found (typed block blockMem).1 (safe.fixed block blockMem).1
    (wellFormed block blockMem) (List.nil_append _).symm
    (by rw [List.length_nil, allocatorBefore_zero, atStart]) consults pool first
    (represents.transfer rfl fun v isNeeded => ⟨(needed_iff_liveAt found).mp isNeeded, rfl⟩) avoids
  obtain ⟨rfl, atExit, goes⟩ := represents_terminator link done (typed block blockMem).2
    (safe.fixed block blockMem).2 (callFree block blockMem) consultsMiddle
    (ended_at found atMiddle poolMiddle ended) atTerminator
  refine ⟨final, final', after, executed, atEnd, atExit, ?_, ?_⟩
  · have isBlock : blockAt [function] ⟨0, i⟩ = some block := found
    simp only [Mir.step, Option.bind_some, isBlock, executed]
  · have isBlock : blockAt [allocated] ⟨0, i⟩ = some ⟨block.label, body, terminator⟩ := by
      rw [List.append_nil] at isOut
      exact isOut
    simp only [Mir.step, Option.bind_some, isBlock, executed', goes]

include done callFree distinct wellFormed typed defined safe in
/-- Both functions stop, or both take a step. -/
theorem corresponds_step {config config' : Config}
    (related : Corresponds isa link order function memorySize isPred config config') :
    (Mir.step [function] isa link config = none ∧ Mir.step [allocated] isa link config' = none) ∨
      ∃ next next', Mir.step [function] isa link config = some next ∧
        Mir.step [allocated] isa link config' = some next' ∧
        Corresponds isa link order function memorySize isPred next next' := by
  obtain ⟨block, state⟩ := config
  obtain ⟨block', state'⟩ := config'
  obtain ⟨sameBlock, admissible, alloc, consults, atStart, represents⟩ := related
  obtain rfl : block' = block := sameBlock
  cases block' with
  | none => exact .inl ⟨rfl, rfl⟩
  | some id =>
      obtain ⟨func, i⟩ := id
      obtain ⟨isFirst, isAlloc⟩ := atStart _ rfl
      obtain rfl : func = 0 := isFirst
      cases found : function.blocks[i]? with
      | none =>
          have missing : blockAt [function] ⟨0, i⟩ = none := found
          have missing' : blockAt [allocated] ⟨0, i⟩ = none := by
            have sameSome := Mir.isSome_blockAt_of_shape (shape_of_allocateRegisters done) ⟨0, i⟩
            rw [missing] at sameSome
            exact Option.isNone_iff_eq_none.mp (by simpa using sameSome.symm)
          left
          simp only [Mir.step, Option.bind_some, missing, missing', Option.bind_none, and_self]
      | some block =>
          have blockMem := List.mem_of_getElem? found
          have insideP := (List.getElem?_eq_some_iff.mp found).1
          have here := admissible _ .refl
          obtain ⟨final, final', after, executed, atEnd, atExit, stepped, stepped'⟩ :=
            represents_block done callFree wellFormed typed safe isa link found
              isAlloc (represents.transfer rfl fun v isLive => ⟨⟨i, rfl, isLive⟩, rfl⟩)
              (here.avoids _ block rfl found)
          have consultsAfter := (sound_at insideP atEnd).1
          rw [stepped, stepped']
          cases goes : follow [function] link ⟨0, i⟩ final block.terminator with
          | none => exact .inl ⟨rfl, rfl⟩
          | some next =>
              refine .inr ⟨next, ⟨next.block, final'⟩, rfl, rfl, rfl, ?_, ?_⟩
              · intro later reaches
                exact admissible later (.head (by rw [stepped, goes]) reaches)
              · rcases follow_successor distinct (callFree block blockMem) goes with
                  ⟨isRet, rfl⟩ | ⟨s, insideS, rfl, succ⟩
                · have leaves := here.leaves _ block final rfl found isRet executed
                  rw [leaves]
                  refine ⟨after, consultsAfter, ?_, atExit.transfer rfl ?_⟩
                  · rintro id ⟨⟩
                  · rintro v ⟨k, impossible, -⟩
                    cases impossible
                · obtain ⟨start, _, _, _, _, _, atSucc, -⟩ :=
                    block_of_allocateRegisters done (List.getElem?_eq_getElem insideS)
                  have consultsStart :=
                    (sound_at (Nat.le_of_lt insideS) atSucc).1
                  refine ⟨start, consultsStart, ?_, atExit.transfer ?_ ?_⟩
                  · rintro id ⟨⟩
                    exact ⟨rfl, atSucc⟩
                  · rw [consultsStart.base, consultsAfter.base]
                  · rintro v ⟨k, isBlock, live⟩
                    cases isBlock
                    have isSucc := succ.resolve_right fun isEntry =>
                      defined v (isEntry ▸ live)
                    refine ⟨⟨block, s, found, isSucc, live⟩, ?_⟩
                    exact ((safe.quiet i block s v found isSucc live).place
                      insideP (Nat.le_of_lt insideS) atEnd atSucc).symm

end Step

end Function

end VliwCompiler.Regalloc
