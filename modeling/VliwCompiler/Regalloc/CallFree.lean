import VliwCompiler.Regalloc.Room

/-!
# Call-free functions

The allocation of a call-free function computes what the function computes if
nothing is moved between the ends of an edge.  Freeing registers in one arm of a
branch moves the values of the other arm.
-/

namespace VliwCompiler.Regalloc

open Asm (Opcode I64 moveIsa)
open Mir (Reg Value Syllable Terminator Block Function BlockId Config execSyllables blockAt
  follow)
open Liveness (LiveAt LiveAfter successors infoAt)
open Allocator (allocatable)
open Machine

/-- Only calls change the state. -/
theorem follow_state {functions : List Function} {link : BlockId → Word} {id : BlockId}
    {state : State Reg} {terminator : Terminator} {next : Config}
    (callFree : ∀ target cont, terminator ≠ .directCall target cont)
    (goes : follow functions link id state terminator = some next) : next.state = state := by
  cases terminator with
  | branch cond label =>
      simp only [follow] at goes
      split at goes
      all_goals
        obtain ⟨target, -, rfl⟩ := Option.map_eq_some_iff.mp goes
        rfl
  | jump label =>
      obtain ⟨target, -, rfl⟩ := Option.map_eq_some_iff.mp goes
      rfl
  | ret =>
      cases goes
      rfl
  | directCall target cont => exact absurd rfl (callFree target cont)

section Agreement

variable {order : HashOrder} {function allocated : Function} {memorySize : Nat}
  {isPred : Nat → Prop}

/-- Allocation keeps what a call-free function computes.  On every edge the
values live into the target are in the places where the target looks for them,
and every run shows the same blocks, return values and memory outside the spill
area. -/
theorem allocateRegisters_agrees
    (done : allocateRegisters order function memorySize = .ok allocated)
    (callFree : CallFree function) (distinct : (function.blocks.map (·.label)).Nodup)
    (wellFormed : ∀ block ∈ function.blocks, ∀ syllable ∈ block.syllables, syllable.WellFormed)
    (typed : WellTyped isPred function) (defined : ∀ v, ¬LiveAt function v 0)
    (safe : SafeAllocation order function memorySize isPred) :
    (∀ p block s v alloc alloc', function.blocks[p]? = some block →
      s ∈ successors function p block → LiveAt function v s →
      allocatorAt order function memorySize (p + 1) = .ok alloc →
      allocatorAt order function memorySize s = .ok alloc' →
      alloc.place v = alloc'.place v ∧ (Reachable function p → alloc.place v ≠ none)) ∧
    ∀ (isa : Isa Opcode) (link : BlockId → Word) (state : State Reg),
      (∀ config, Relation.ReflTransGen (fun a b => Mir.step [function] isa link a = some b)
        ⟨some ⟨0, 0⟩, state⟩ config → Admissible isa link function memorySize config) →
      SameVisits (Mir.step [allocated] isa link) (some ∘ outcome memorySize)
        ⟨some ⟨0, 0⟩, state⟩ (Mir.step [function] isa link) (some ∘ outcome memorySize)
        ⟨some ⟨0, 0⟩, state⟩ := by
  constructor
  · intro p block s v alloc alloc' found succ live atEnd atStart
    have insideP := (List.getElem?_eq_some_iff.mp found).1
    refine ⟨(safe.quiet p block s v found succ live).place insideP
      (Nat.le_of_lt (successor_inside succ)) atEnd atStart, fun reachable => ?_⟩
    exact placed_after found
      (fun _ _ isLive reached => placed_at done safe defined reachable isLive reached)
      atEnd ⟨block, s, found, succ, live⟩
  · intro isa link state admissible
    have simulation : LockStep (Mir.step [allocated] isa link) (some ∘ outcome memorySize)
        (Mir.step [function] isa link) (outcome memorySize)
        (Corresponds isa link order function memorySize isPred) := by
      refine ⟨fun related => congrArg some related.outcome_eq, ?_, ?_⟩
      · intro config config' next related steps
        rcases corresponds_step done callFree distinct wellFormed typed defined safe related with
          ⟨halts, -⟩ | ⟨other, next', steps', stepped, after⟩
        · rw [halts] at steps
          cases steps
        · obtain rfl := Option.some.inj (steps'.symm.trans steps)
          exact ⟨next', .single stepped, after⟩
      · intro config config' related halts
        rcases corresponds_step done callFree distinct wellFormed typed defined safe related with
          ⟨-, halted⟩ | ⟨next, next', steps, -⟩
        · exact .now halted
        · rw [halts] at steps
          cases steps
    obtain ⟨initial, started, -⟩ := bind_eq_ok.mp done
    refine simulation.sameVisits ⟨rfl, admissible, initial, (consults_initialAllocator started).1,
      ?_, ?_⟩
    · rintro id ⟨⟩
      exact ⟨rfl, allocatorAt_zero.trans started⟩
    · exact
        { words := by
            rintro v ⟨k, isEntry, live⟩
            cases isEntry
            exact absurd live (defined v)
          flags := by
            rintro v ⟨k, isEntry, live⟩
            cases isEntry
            exact absurd live (defined v)
          gpr := fun _ _ => rfl
          pred := fun _ _ => rfl
          mem := fun _ _ => rfl }

end Agreement

/-! ### A value that stays in its register -/

/-- A return address outside the function. -/
def returnsOutside : State Reg where
  gpr reg := if reg = .preg linkReg then 1 else 0
  pred _ := false
  mem _ := 0

/-- One arm doubles a value that both arms pass on. -/
def joinedArms : Function :=
  ⟨"main", [
    ⟨"entry",
      [⟨.movImm, some (.vreg 0), [.imm 5]⟩,
        ⟨.cmpEq, some (.vreg 1), [.reg (.vreg 0), .reg (.vreg 0)]⟩], .branch (.vreg 1) "join"⟩,
    ⟨"double", [⟨.add, some (.vreg 0), [.reg (.vreg 0), .reg (.vreg 0)]⟩], .jump "join"⟩,
    ⟨"join", [⟨.mov, some (.preg 1), [.reg (.vreg 0)]⟩], .ret⟩]⟩

theorem not_liveAt_of_empty {function : Function} {infos : List Liveness.BlockInfo} {i : Nat}
    (computed : Liveness.compute function = .ok infos) (empty : (infoAt infos i).liveIn = {})
    (v : Nat) : ¬LiveAt function v i := by
  rw [← Liveness.contains_liveIn computed, empty]
  simp

theorem defined_joinedArms (v : Nat) : ¬LiveAt joinedArms v 0 := by
  obtain ⟨infos, computed⟩ : ∃ infos, Liveness.compute joinedArms = .ok infos :=
    exists_of_isOk (by decide)
  have empty : (Liveness.compute joinedArms).map (fun infos => (infoAt infos 0).liveIn) =
      .ok {} := rfl
  rw [computed] at empty
  exact not_liveAt_of_empty computed (Except.ok.inj empty) v

theorem callFree_joinedArms : CallFree joinedArms := by
  intro block blockMem target cont
  simp only [joinedArms, List.mem_cons, List.not_mem_nil, or_false] at blockMem
  rcases blockMem with rfl | rfl | rfl <;> rintro ⟨⟩

theorem safeAllocation_joinedArms :
    SafeAllocation insertionOrder joinedArms 4096 (· = 1) := by
  refine safeAllocation_of_fewRegisters (by decide) (by decide) ?_
  intro p block s v found succ live k other above below isOther mentions
  have insideP := (List.getElem?_eq_some_iff.mp found).1
  have isEdge : k = 1 ∧ min (p + 1) s = 1 := by
    have ends : ∀ p < 3, ∀ block ∈ joinedArms.blocks[p]?, ∀ s ∈ successors joinedArms p block,
        min (p + 1) s = max (p + 1) s ∨ (min (p + 1) s = 1 ∧ max (p + 1) s = 2) := by
      decide
    rcases ends p insideP block found s succ with same | ⟨low, high⟩ <;> omega
  obtain ⟨rfl, isLow⟩ := isEdge
  rw [isLow]
  obtain rfl := Option.some.inj isOther
  have isValue : v = 0 := by
    rcases mentions with ⟨syllable, syllableMem, occurs⟩ | isCond
    · obtain rfl := List.mem_singleton.mp syllableMem
      simpa [Mir.Syllable.sourceVregs, Mir.Syllable.dstVreg, Value.vreg?, eq_comm] using occurs
    · cases isCond
  subst isValue
  constructor
  · exact ⟨_, 2, rfl, by decide, .use rfl (.inl (by decide))⟩
  · intro alloc reached
    have bound : (allocatorAt insertionOrder joinedArms 4096 1).map (·.assigned.lookup 0) =
        .ok (some 2) := rfl
    rw [reached] at bound
    exact ⟨2, Except.ok.inj bound⟩

theorem avoidsAll_of_registers (isa : Isa Opcode) (area : Set Word) {syllables : List Syllable}
    (registers : ∀ syllable ∈ syllables,
      syllable.opcode.behavior = .compute ∨ syllable.opcode.behavior = .test) (state : State Reg) :
    AvoidsAll isa area syllables state := by
  induction syllables generalizing state with
  | nil => trivial
  | cons syllable syllables ih =>
      obtain ⟨here, others⟩ := List.forall_mem_cons.mp registers
      intro action denotes
      refine ⟨?_, ih others _⟩
      unfold Mir.Syllable.action at denotes
      intro cell _
      rcases here with isCompute | isTest
      · rw [isCompute] at denotes
        obtain ⟨sources, -, rfl⟩ := Option.map_eq_some_iff.mp denotes
        exact ⟨id, id⟩
      · rw [isTest] at denotes
        obtain ⟨sources, -, rfl⟩ := Option.map_eq_some_iff.mp denotes
        exact ⟨id, id⟩

theorem blockAt_joinedArms {id : BlockId} {block : Block}
    (found : blockAt [joinedArms] id = some block) : block ∈ joinedArms.blocks := by
  obtain ⟨function, isFunction, isBlock⟩ := Option.bind_eq_some_iff.mp found
  obtain rfl := List.mem_singleton.mp (List.mem_of_getElem? isFunction)
  exact List.mem_of_getElem? isBlock

theorem exec_joinedArms {block : Block} (blockMem : block ∈ joinedArms.blocks)
    (state : State Reg) :
    ∃ final, execSyllables moveIsa block.syllables state = some final ∧
      final.readGpr (.preg linkReg) = state.readGpr (.preg linkReg) := by
  simp only [joinedArms, List.mem_cons, List.not_mem_nil, or_false] at blockMem
  rcases blockMem with rfl | rfl | rfl <;> exact ⟨_, rfl, rfl⟩

theorem admissible_joinedArms {config : Config}
    (reached : Relation.ReflTransGen
      (fun a b => Mir.step [joinedArms] moveIsa (fun _ => 0) a = some b)
      ⟨some ⟨0, 0⟩, returnsOutside⟩ config) :
    Admissible moveIsa (fun _ => 0) joinedArms 4096 config := by
  have keepsLink : config.state.readGpr (.preg linkReg) = 1 := by
    induction reached with
    | refl => rfl
    | tail _ steps ih =>
        obtain ⟨id, -, rest⟩ := Option.bind_eq_some_iff.mp steps
        obtain ⟨block, found, rest⟩ := Option.bind_eq_some_iff.mp rest
        obtain ⟨state, executed, goes⟩ := Option.bind_eq_some_iff.mp rest
        have blockMem := blockAt_joinedArms found
        obtain ⟨final, executed', sameLink⟩ := exec_joinedArms blockMem _
        obtain rfl := Option.some.inj (executed.symm.trans executed')
        rw [follow_state (callFree_joinedArms block blockMem) goes, sameLink, ih]
  constructor
  · intro id block _ found
    refine avoidsAll_of_registers _ _ ?_ _
    exact (by decide : ∀ block ∈ joinedArms.blocks, ∀ syllable ∈ block.syllables,
      syllable.opcode.behavior = .compute ∨ syllable.opcode.behavior = .test) block
        (blockAt_joinedArms found)
  · intro id block final _ found _ executed
    obtain ⟨final', executed', sameLink⟩ := exec_joinedArms (blockAt_joinedArms found) config.state
    obtain rfl := Option.some.inj (executed.symm.trans executed')
    rw [sameLink, keepsLink]
    decide

theorem allocateRegisters_agrees_joinedArms :
    ∃ allocated, allocateRegisters insertionOrder joinedArms 4096 = .ok allocated ∧
      SameVisits (Mir.step [allocated] moveIsa fun _ => 0) (some ∘ outcome 4096)
        ⟨some ⟨0, 0⟩, returnsOutside⟩ (Mir.step [joinedArms] moveIsa fun _ => 0)
        (some ∘ outcome 4096) ⟨some ⟨0, 0⟩, returnsOutside⟩ := by
  obtain ⟨allocated, done⟩ : ∃ allocated,
      allocateRegisters insertionOrder joinedArms 4096 = .ok allocated := exists_of_isOk (by decide)
  have agrees := allocateRegisters_agrees done callFree_joinedArms (by decide) (by decide)
    (by decide) defined_joinedArms safeAllocation_joinedArms
  exact ⟨allocated, done, agrees.2 moveIsa (fun _ => 0) returnsOutside
    fun _ reached => admissible_joinedArms reached⟩

/-! ### A value lost between two arms -/

/-- Both arms return one of two values. -/
def twoArms : Function :=
  ⟨"main", [
    ⟨"entry",
      [⟨.movImm, some (.vreg 0), [.imm 5]⟩, ⟨.movImm, some (.vreg 1), [.imm 7]⟩,
        ⟨.cmpEq, some (.vreg 2), [.reg (.vreg 0), .reg (.vreg 0)]⟩], .branch (.vreg 2) "then"⟩,
    ⟨"else",
      [⟨.mov, some (.preg 1), [.reg (.vreg 0)]⟩, ⟨.mov, some (.preg 1), [.reg (.vreg 1)]⟩], .ret⟩,
    ⟨"then", [⟨.mov, some (.preg 1), [.reg (.vreg 0)]⟩], .ret⟩]⟩

/-- The return value after a number of blocks. -/
def valueAfter (function : Function) : Nat → Config → Option Word
  | 0, config => some (config.state.gpr (.preg retvalReg))
  | steps + 1, config =>
      (Mir.step [function] moveIsa (fun _ => 0) config).bind (valueAfter function steps)

/-- The register freed last in one arm is handed to the first value of the
other. -/
theorem twoArms_disagrees :
    CallFree twoArms ∧ (twoArms.blocks.map (·.label)).Nodup ∧
      (∀ block ∈ twoArms.blocks, ∀ syllable ∈ block.syllables, syllable.WellFormed) ∧
      WellTyped (· = 2) twoArms ∧ (∀ v, ¬LiveAt twoArms v 0) ∧
      ∀ order : HashOrder, ∃ allocated, allocateRegisters order twoArms 4096 = .ok allocated ∧
        (LiveAt twoArms 0 2 ∧ ∃ entry alloc alloc', twoArms.blocks[0]? = some entry ∧
          2 ∈ successors twoArms 0 entry ∧ allocatorAt order twoArms 4096 1 = .ok alloc ∧
          allocatorAt order twoArms 4096 2 = .ok alloc' ∧
          alloc.place 0 = some (.register 2) ∧ alloc'.place 0 = none ∧
          allocated.blocks[2]? =
            some ⟨"then", [⟨.mov, some (.preg 1), [.reg (.preg 3)]⟩], .ret⟩) ∧
        valueAfter twoArms 2 ⟨some ⟨0, 0⟩, returnsOutside⟩ = some 5 ∧
        valueAfter allocated 2 ⟨some ⟨0, 0⟩, returnsOutside⟩ = some 7 := by
  refine ⟨?_, by decide, by decide, by decide, ?_, fun order => ?_⟩
  · intro block blockMem target cont
    simp only [twoArms, List.mem_cons, List.not_mem_nil, or_false] at blockMem
    rcases blockMem with rfl | rfl | rfl <;> rintro ⟨⟩
  · obtain ⟨infos, computed⟩ : ∃ infos, Liveness.compute twoArms = .ok infos :=
      exists_of_isOk (by decide)
    have empty : (Liveness.compute twoArms).map (fun infos => (infoAt infos 0).liveIn) =
        .ok {} := rfl
    rw [computed] at empty
    exact not_liveAt_of_empty computed (Except.ok.inj empty)
  · refine ⟨_, rfl, ⟨.use rfl (.inl (by decide)), _, _, _, rfl, by decide, rfl, rfl, rfl, rfl, rfl⟩,
      by decide, rfl⟩

end VliwCompiler.Regalloc
