import VliwCompiler.Regalloc.Blocks
import VliwCompiler.Regalloc.Harmless

/-!
# Spilling in straight-line code

In a block whose registers are all defined once, before they are read, a
destination never has a spill slot yet.  The allocated block performs the
operations of the original one on the same operand values, whatever is spilled
in between.
-/

namespace VliwCompiler.Regalloc

open Asm (Opcode I64)
open Mir (Reg Value Syllable Terminator Block Function execSyllables predicateSources)
open Liveness (Exposed Defines)
open Allocator (allocatable)
open Machine

/-- A block whose virtual registers hold words, are defined exactly once and
before they are read, and whose fixed registers are not available to the
allocator. -/
structure StraightLine (block : Block) : Prop where
  defined : ∀ front syllable rest, block.syllables = front ++ syllable :: rest →
    ∀ v ∈ syllable.sourceVregs, Defines front v
  once : ∀ front syllable rest, block.syllables = front ++ syllable :: rest →
    ∀ d, syllable.dstVreg = some d → ¬Defines front d
  words : ∀ syllable ∈ block.syllables, Typed (fun _ => False) syllable
  fixed : ∀ syllable ∈ block.syllables, FixedOutside syllable
  wellFormed : ∀ syllable ∈ block.syllables, syllable.WellFormed
  cond : block.terminator.condVreg = none

/-- The second code performs the operations of the first one, on the same
operand values, with spill code in between. -/
inductive SameOperations (isa : Isa Opcode) (base : I64) (limit : Nat) :
    List Syllable → State Reg → List Syllable → State Reg → Prop where
  | done {state state' : State Reg} : SameOperations isa base limit [] state [] state'
  | spill {rest code : List Syllable} {state state' : State Reg} {inserted : Syllable}
      {action : Action Opcode Reg} (isSpill : IsSpill base limit inserted)
      (denotes : inserted.action = some action)
      (later : SameOperations isa base limit rest state code (action.exec isa state')) :
      SameOperations isa base limit rest state (inserted :: code) state'
  | operation {rest code : List Syllable} {state state' : State Reg} {syllable syllable' : Syllable}
      {action action' : Action Opcode Reg} (opcode : syllable'.opcode = syllable.opcode)
      (denotes : syllable.action = some action) (denotes' : syllable'.action = some action')
      (operands : action'.sources.map (·.read state') = action.sources.map (·.read state))
      (later : SameOperations isa base limit rest (action.exec isa state) code
        (action'.exec isa state')) :
      SameOperations isa base limit (syllable :: rest) state (syllable' :: code) state'

/-- Spill code in front. -/
theorem SameOperations.prepend {isa : Isa Opcode} {base : I64} {limit : Nat}
    {rest code inserted : List Syllable} {state state' mid : State Reg}
    (isSpill : ∀ syllable ∈ inserted, IsSpill base limit syllable)
    (executed : execSyllables isa inserted state' = some mid)
    (later : SameOperations isa base limit rest state code mid) :
    SameOperations isa base limit rest state (inserted ++ code) state' := by
  induction inserted generalizing state' with
  | nil =>
      obtain rfl : state' = mid := Option.some.inj executed
      exact later
  | cons syllable inserted ih =>
      obtain ⟨first, others⟩ := List.forall_mem_cons.mp isSpill
      rw [← List.singleton_append, Mir.execSyllables_append, Mir.execSyllables_singleton] at executed
      obtain ⟨next, isNext, executed⟩ := Option.bind_eq_some_iff.mp executed
      obtain ⟨action, denotes, rfl⟩ := Option.map_eq_some_iff.mp isNext
      exact .spill first denotes (ih others executed)

/-! ### Registers without a place -/

/-- A register that a syllable does not mention gets no place. -/
theorem place_of_unmentioned {order : HashOrder} {alloc alloc' : Allocator} {syllable : Syllable}
    {blockIdx pos t : Nat} {out : List Syllable}
    (done : rewriteSyllable order alloc syllable blockIdx pos = .ok (out, alloc'))
    (unread : t ∉ syllable.sourceVregs) (unwritten : syllable.dstVreg ≠ some t)
    (nowhere : alloc.assigned.lookup t = none ∧ alloc.spillSlots.lookup t = none) :
    alloc'.assigned.lookup t = none ∧ alloc'.spillSlots.lookup t = none := by
  have afterReading : ∀ {srcs read}, rewriteValues order syllable.sourceVregs ⟨alloc, []⟩
      syllable.srcs = .ok (srcs, read) →
      (afterSources read.alloc syllable blockIdx pos).1.assigned.lookup t = none ∧
        (afterSources read.alloc syllable blockIdx pos).1.spillSlots.lookup t = none := by
    intro srcs read sourcesDone
    obtain ⟨stays, slots⟩ := unread_of_rewriteValues sourcesDone unread nowhere.1
    exact unassigned_freeSources ⟨stays, slots.trans nowhere.2⟩
  cases isDst : syllable.dstVreg with
  | none =>
      obtain ⟨srcs, read, sourcesDone, -, rfl⟩ := (rewriteSyllable_fixed isDst).mp done
      exact afterReading sourcesDone
  | some d =>
      obtain ⟨srcs, read, preg, bound, sourcesDone, bindDone, -, rfl⟩ :=
        (rewriteSyllable_vreg isDst).mp done
      have different : t ≠ d := fun same => unwritten (by rw [isDst, same])
      obtain ⟨stays, slots⟩ := afterReading sourcesDone
      obtain ⟨staysBound, slotsBound⟩ := unread_of_pregForVreg bindDone different stays
      split
      · exact ⟨staysBound, slotsBound.trans slots⟩
      · rw [freeVreg_lookup, if_neg different, freeVreg_spillSlots]
        exact ⟨staysBound, slotsBound.trans slots⟩

/-! ### The block -/

theorem defines_append {first second : List Syllable} {v : Nat} :
    Defines (first ++ second) v ↔ Defines first v ∨ Defines second v := by
  simp [Defines, or_and_right, exists_or]

/-- A register that is not defined up to a syllable does not occur in it. -/
theorem StraightLine.unread {block : Block} (straight : StraightLine block)
    {front rest : List Syllable} {syllable : Syllable} {v : Nat}
    (split : block.syllables = front ++ syllable :: rest)
    (undefined : ¬Defines (front ++ [syllable]) v) :
    v ∉ syllable.sourceVregs ∧ syllable.dstVreg ≠ some v := by
  rw [defines_append, Liveness.defines_cons] at undefined
  push Not at undefined
  exact ⟨fun isSource => undefined.1 (straight.defined front syllable rest split v isSource),
    undefined.2.1⟩

/-- Nothing is exposed at the start of the block. -/
theorem StraightLine.not_exposed {block : Block} (straight : StraightLine block) (v : Nat) :
    ¬Exposed block.terminator v block.syllables := by
  have general : ∀ front rest, block.syllables = front ++ rest → ¬Defines front v →
      ¬Exposed block.terminator v rest := by
    intro front rest
    induction rest generalizing front with
    | nil =>
        intro _ _ exposed
        rw [Exposed, straight.cond] at exposed
        cases exposed
    | cons syllable rest ih =>
        rintro split undefined (isSource | ⟨isOther, later⟩)
        · exact undefined (straight.defined front syllable rest split v isSource)
        · refine ih (front ++ [syllable]) (by simp [split]) ?_ later
          rw [defines_append, Liveness.defines_cons]
          rintro (before | here | ⟨other, otherMem, -⟩)
          · exact undefined before
          · exact isOther here
          · cases otherMem
  exact general [] block.syllables rfl (by simp [Defines])

section Run

variable {order : HashOrder} {function : Function} {memorySize : Nat} {block : Block}
  (found : function.blocks[0]? = some block) (straight : StraightLine block)

include found straight

/-- A register has no place before its definition. -/
theorem nowhere_before {front rest : List Syllable} (split : block.syllables = front ++ rest)
    {alloc : Allocator}
    (reached : allocatorBefore order function memorySize 0 front.length = .ok alloc) {v : Nat}
    (undefined : ¬Defines front v) :
    alloc.assigned.lookup v = none ∧ alloc.spillSlots.lookup v = none := by
  induction front using List.reverseRecOn generalizing rest alloc with
  | nil =>
      rw [List.length_nil, allocatorBefore_zero, allocatorAt_zero] at reached
      obtain ⟨-, infos, -, rfl⟩ := initialAllocator_eq_ok.mp reached
      exact ⟨rfl, rfl⟩
  | append_singleton front syllable ih =>
      have splitHere : block.syllables = front ++ syllable :: rest := by simp [split]
      rw [List.length_append, List.length_singleton] at reached
      obtain ⟨before, code, atBefore, done⟩ := (allocatorBefore_succ found splitHere).mp reached
      have undefinedBefore : ¬Defines front v := fun isDefined =>
        undefined (defines_append.mpr (.inl isDefined))
      obtain ⟨unread, unwritten⟩ := straight.unread splitHere undefined
      exact place_of_unmentioned done unread unwritten (ih splitHere atBefore undefinedBefore)

/-- The destination of a syllable has no spill slot. -/
theorem StraightLine.keepsSources {front rest : List Syllable} {syllable : Syllable}
    (split : block.syllables = front ++ syllable :: rest) {alloc : Allocator}
    (reached : allocatorBefore order function memorySize 0 front.length = .ok alloc) (pos : Nat) :
    KeepsSources order alloc syllable 0 pos := by
  intro srcs read sourcesDone d isDst unassigned hasSlot
  have undefined := straight.once front syllable rest split d isDst
  obtain ⟨nowhere, noSlot⟩ := nowhere_before found straight split reached undefined
  have unread : d ∉ syllable.sourceVregs := fun isSource =>
    undefined (straight.defined front syllable rest split d isSource)
  rw [(unread_of_rewriteValues sourcesDone unread nowhere).2] at hasSlot
  exact absurd noSlot hasSlot

theorem sameOperations_syllables (isa : Isa Opcode) {front rest : List Syllable}
    (split : block.syllables = front ++ rest) {alloc alloc' : Allocator} {out : List Syllable}
    {state state' : State Reg}
    (reached : allocatorBefore order function memorySize 0 front.length = .ok alloc)
    (consults : Consults function memorySize alloc) (pool : Pool 64 alloc)
    (done : rewriteSyllables order 0 (startPos function.blocks 0 + front.length) alloc rest =
      .ok (out, alloc'))
    (represents : Represents 64 (fun _ => False) (Exposed block.terminator · rest) alloc
      state state')
    (avoids : AvoidsAll isa (spillArea (spillAddress memorySize) 64) rest state) :
    ∃ final final', execSyllables isa rest state = some final ∧
      execSyllables isa out state' = some final' ∧
      SameOperations isa (spillAddress memorySize) 64 rest state out state' ∧
      Represents 64 (fun _ => False) (Exposed block.terminator · []) alloc' final final' := by
  induction rest generalizing front alloc out state state' with
  | nil =>
      cases done
      exact ⟨state, state', rfl, rfl, .done, represents⟩
  | cons syllable rest ih =>
      have syllableMem : syllable ∈ block.syllables := by simp [split]
      obtain ⟨code, middle, back, here, others, rfl⟩ := rewriteSyllables_cons.mp done
      have next := (allocatorBefore_succ found split).mpr ⟨alloc, code, reached, here⟩
      obtain ⟨code, rename, dst, rfl, rewritten⟩ := rewritten_at found split reached pool here
      obtain ⟨action, denotes⟩ :=
        Option.isSome_iff_exists.mp (straight.wellFormed syllable syllableMem).1
      obtain ⟨avoidsHere, avoidsRest⟩ := avoids action denotes
      rw [← consults.base] at avoidsHere
      have demand : Demand (fun _ => False) (Exposed block.terminator · (syllable :: rest))
          (Exposed block.terminator · rest) alloc middle syllable 0
          (startPos function.blocks 0 + front.length) :=
        { reads := fun v isSource => .inl isSource
          through := fun v exposed isOther => .inr ⟨isOther, exposed⟩
          alive := fun v exposed => consults.not_lastRead found split (.inl exposed)
          dst := fun d _ exposed => consults.needsAfter found split (.inl exposed)
          flags := fun _ _ => False.elim }
      have isKept := straight.keepsSources found split reached
        (startPos function.blocks 0 + front.length)
      obtain ⟨mid, action', executed, denotes', operands, simulated⟩ := simulates_step isa rewritten
        represents (fun _ => isKept) (straight.words syllable syllableMem)
        (straight.fixed syllable syllableMem) (straight.wellFormed syllable syllableMem) denotes
        demand
      have longer : block.syllables = (front ++ [syllable]) ++ rest := by simp [split]
      have isLength : (front ++ [syllable]).length = front.length + 1 := by simp
      obtain ⟨final, final', original, allocated, same, atEnd⟩ := ih longer
        (by rw [isLength]; exact next) (consults.transfer rewritten.tables) rewritten.pool
        (by rw [isLength]; exact others) (simulated avoidsHere) avoidsRest
      refine ⟨final, final', ?_, ?_, ?_, atEnd⟩
      · rw [← List.singleton_append, Mir.execSyllables_append, Mir.execSyllables_singleton,
          denotes, Option.map_some, Option.bind_some, original]
      · rw [Mir.execSyllables_append, Mir.execSyllables_append, executed, Option.bind_some,
          Mir.execSyllables_singleton, denotes', Option.map_some, Option.bind_some, allocated]
      · have isSpill := rewritten.spillCode
        rw [consults.base] at isSpill
        rw [List.append_assoc, List.singleton_append]
        exact SameOperations.prepend isSpill executed
          (.operation rfl denotes denotes' operands same)

end Run

/-- Spilling is transparent: the allocated block performs the operations of the
original block on the same operand values and leaves the same `r1`, `r31` and
memory outside the spill area. -/
theorem allocateRegisters_straightLine {order : HashOrder} {function allocated : Function}
    {memorySize : Nat} {block : Block} (single : function.blocks = [block])
    (straight : StraightLine block)
    (done : allocateRegisters order function memorySize = .ok allocated) (isa : Isa Opcode)
    (state : State Reg)
    (avoids : AvoidsAll isa (spillArea (spillAddress memorySize) 64) block.syllables state) :
    ∃ block' final final', allocated.blocks = [block'] ∧
      block'.terminator = block.terminator ∧
      execSyllables isa block.syllables state = some final ∧
      execSyllables isa block'.syllables state = some final' ∧
      SameOperations isa (spillAddress memorySize) 64 block.syllables state block'.syllables state ∧
      final'.gpr (.preg retvalReg) = final.gpr (.preg retvalReg) ∧
      final'.gpr (.preg linkReg) = final.gpr (.preg linkReg) ∧
      ∀ cell ∉ spillArea (spillAddress memorySize) 64, final'.mem cell = final.mem cell := by
  have found : function.blocks[0]? = some block := by
    rw [single]
    rfl
  obtain ⟨before, body, middle, inserted, terminator, after, atBefore, rewritten, ended, -,
    isBlock⟩ := block_of_allocateRegisters done found
  obtain ⟨consults, pool⟩ := sound_at (Nat.zero_le _) atBefore
  have reached : allocatorBefore order function memorySize 0 ([] : List Syllable).length =
      .ok before := by
    rw [List.length_nil, allocatorBefore_zero]
    exact atBefore
  have represents : Represents 64 (fun _ => False) (Exposed block.terminator · block.syllables)
      before state state :=
    { words := fun v exposed => absurd exposed (straight.not_exposed v)
      flags := fun _ _ => False.elim
      gpr := fun _ _ => rfl
      pred := fun _ _ => rfl
      mem := fun _ _ => rfl }
  obtain ⟨final, final', original, executed, same, atEnd⟩ := sameOperations_syllables found
    straight isa (List.nil_append _).symm reached consults pool rewritten represents avoids
  have unchanged : inserted = [] ∧ terminator = block.terminator := by
    unfold rewriteTerminator at ended
    split at ended
    · rename_i v label isBranch
      have noCond := straight.cond
      rw [isBranch] at noCond
      cases noCond
    · cases ended
      exact ⟨rfl, rfl⟩
  obtain ⟨rfl, rfl⟩ := unchanged
  have oneBlock : allocated.blocks = [⟨block.label, body ++ [], block.terminator⟩] := by
    have isLength := length_of_allocateRegisters done
    rw [single, List.length_singleton] at isLength
    obtain ⟨only, isOnly⟩ := List.length_eq_one_iff.mp isLength
    rw [isOnly] at isBlock ⊢
    exact congrArg (fun block => [block]) (Option.some.inj isBlock)
  rw [List.append_nil] at oneBlock
  have base : middle.spillBase = spillAddress memorySize := by
    have split : block.syllables = block.syllables ++ [] := (List.append_nil _).symm
    have atEnd := (allocatorBefore_eq found split).mpr ⟨before, body, atBefore, rewritten⟩
    exact (sound_before found (fun _ => sound_at (Nat.zero_le _)) split atEnd).1.base
  refine ⟨_, final, final', oneBlock, rfl, original, executed, same,
    atEnd.gpr retvalReg (by decide), atEnd.gpr linkReg (by decide), ?_⟩
  intro cell outside
  refine atEnd.mem cell ?_
  rwa [base]

/-! ### More values than registers -/

/-- Every register is written once and before it is read; `defs` are those
written already. -/
def definedOnce (defs : List Nat) : List Syllable → Bool
  | [] => true
  | syllable :: rest =>
      syllable.sourceVregs.all (· ∈ defs) && syllable.dstVreg.all (· ∉ defs) &&
        definedOnce (syllable.dstVreg.toList ++ defs) rest

theorem defined_of_definedOnce {defs : List Nat} {front rest : List Syllable} {syllable : Syllable}
    (checked : definedOnce defs (front ++ syllable :: rest) = true) :
    (∀ v ∈ syllable.sourceVregs, v ∈ defs ∨ Defines front v) ∧
      ∀ d, syllable.dstVreg = some d → d ∉ defs ∧ ¬Defines front d := by
  induction front generalizing defs with
  | nil =>
      simp only [List.nil_append, definedOnce, Bool.and_eq_true, List.all_eq_true,
        decide_eq_true_eq, Option.all_eq_true] at checked
      exact ⟨fun v isSource => .inl (checked.1.1 v isSource),
        fun d isDst => ⟨checked.1.2 d isDst, by simp [Defines]⟩⟩
  | cons first front ih =>
      simp only [List.cons_append, definedOnce, Bool.and_eq_true] at checked
      obtain ⟨sources, dst⟩ := ih checked.2
      constructor
      · intro v isSource
        rw [Liveness.defines_cons]
        rcases sources v isSource with inDefs | later
        · rcases List.mem_append.mp inDefs with here | before
          · exact .inr (.inl (Option.mem_toList.mp here))
          · exact .inl before
        · exact .inr (.inr later)
      · intro d isDst
        obtain ⟨notHere, notLater⟩ := dst d isDst
        rw [List.mem_append, not_or, Option.mem_toList] at notHere
        rw [Liveness.defines_cons, not_or]
        exact ⟨notHere.2, notHere.1, notLater⟩

/-- A block that only computes does not access memory. -/
theorem avoidsAll_of_compute (isa : Isa Opcode) (area : Set Word) {syllables : List Syllable}
    (computes : ∀ syllable ∈ syllables, syllable.opcode.behavior = .compute) (state : State Reg) :
    AvoidsAll isa area syllables state := by
  induction syllables generalizing state with
  | nil => trivial
  | cons syllable syllables ih =>
      obtain ⟨first, others⟩ := List.forall_mem_cons.mp computes
      intro action denotes
      refine ⟨?_, ih others _⟩
      unfold Syllable.action at denotes
      rw [first] at denotes
      obtain ⟨sources, -, rfl⟩ := Option.map_eq_some_iff.mp denotes
      exact fun cell _ => ⟨id, id⟩

/-- Thirty values that are all needed at the same time. -/
def thirtyValues : Block :=
  ⟨"entry", (List.range 30).map (fun k => ⟨.movImm, some (.vreg k), [.imm k]⟩) ++
    (List.range 30).map (fun k => ⟨.mov, some (.preg 1), [.reg (.vreg k)]⟩), .ret⟩

theorem straightLine_thirtyValues : StraightLine thirtyValues where
  defined := by
    intro front syllable rest split v isSource
    have checked : definedOnce [] (front ++ syllable :: rest) = true := by
      rw [← split]
      decide +kernel
    exact ((defined_of_definedOnce checked).1 v isSource).resolve_left (by simp)
  once := by
    intro front syllable rest split d isDst
    have checked : definedOnce [] (front ++ syllable :: rest) = true := by
      rw [← split]
      decide +kernel
    exact ((defined_of_definedOnce checked).2 d isDst).2
  words := by decide +kernel
  fixed := by decide +kernel
  wellFormed := by decide +kernel
  cond := rfl

theorem allocateRegisters_straightLine_thirtyValues :
    ∃ allocated block' final final',
      allocateRegisters insertionOrder ⟨"f", [thirtyValues]⟩ 4096 = .ok allocated ∧
      allocated.blocks = [block'] ∧
      block'.terminator = thirtyValues.terminator ∧
      execSyllables default thirtyValues.syllables default = some final ∧
      execSyllables default block'.syllables default = some final' ∧
      SameOperations default (spillAddress 4096) 64 thirtyValues.syllables default block'.syllables
        default ∧
      final'.gpr (.preg retvalReg) = final.gpr (.preg retvalReg) ∧
      final'.gpr (.preg linkReg) = final.gpr (.preg linkReg) ∧
      ∀ cell ∉ spillArea (spillAddress 4096) 64, final'.mem cell = final.mem cell := by
  obtain ⟨allocated, done⟩ : ∃ allocated,
      allocateRegisters insertionOrder ⟨"f", [thirtyValues]⟩ 4096 = .ok allocated :=
    exists_of_isOk (by decide +kernel)
  have avoids : AvoidsAll default (spillArea (spillAddress 4096) 64) thirtyValues.syllables default :=
    avoidsAll_of_compute default _ (by decide +kernel) default
  obtain ⟨block', final, final', rest⟩ := allocateRegisters_straightLine rfl
    straightLine_thirtyValues done default default avoids
  exact ⟨allocated, block', final, final', done, rest⟩

end VliwCompiler.Regalloc
