import VliwCompiler.Regalloc.Reload
import VliwCompiler.Regalloc.Exactness

/-!
# Allocated functions are well formed

Allocation succeeds whenever no syllable reads more registers than there are,
less one.  Its result is the function with every virtual register replaced by an
allocatable one and with spill code in between.
-/

namespace VliwCompiler.Regalloc

open Asm (I64)
open Mir (Reg Value Syllable Terminator Block Function)
open Allocator (allocatable)
open Liveness (SmallIndices)

/-! ### What allocation may change -/

/-- Spill code on an allocatable register. -/
inductive Inserted : Syllable → Prop where
  | store (slot : I64) {preg : UInt8} (allocated : preg ∈ allocatable) :
      Inserted (spillStore slot preg)
  | load (slot : I64) {preg : UInt8} (allocated : preg ∈ allocatable) :
      Inserted (spillLoad preg slot)

/-- A virtual register becomes an allocatable one, a fixed register stays. -/
inductive RenamedReg : Reg → Reg → Prop where
  | vreg (v : Nat) {preg : UInt8} (allocated : preg ∈ allocatable) :
      RenamedReg (.vreg v) (.preg preg)
  | fixed (preg : UInt8) : RenamedReg (.preg preg) (.preg preg)

/-- Registers are renamed, other operands stay. -/
inductive RenamedValue : Value → Value → Prop where
  | reg {reg reg' : Reg} (renamed : RenamedReg reg reg') : RenamedValue (.reg reg) (.reg reg')
  | imm (word : I64) : RenamedValue (.imm word) (.imm word)
  | stack (address : I64) : RenamedValue (.stack address) (.stack address)

/-- The same operation on renamed registers. -/
structure RenamedSyllable (syllable syllable' : Syllable) : Prop where
  opcode : syllable'.opcode = syllable.opcode
  dst : Option.Rel RenamedReg syllable.dst syllable'.dst
  srcs : List.Forall₂ RenamedValue syllable.srcs syllable'.srcs

/-- The terminator with the same kind and targets. -/
inductive RenamedTerminator : Terminator → Terminator → Prop where
  | ret : RenamedTerminator .ret .ret
  | jump (label : String) : RenamedTerminator (.jump label) (.jump label)
  | branch {cond cond' : Reg} (renamed : RenamedReg cond cond') (label : String) :
      RenamedTerminator (.branch cond label) (.branch cond' label)
  | directCall (target cont : String) :
      RenamedTerminator (.directCall target cont) (.directCall target cont)

/-- Without the inserted syllables, the second list is the first one renamed. -/
inductive Interleaved : List Syllable → List Syllable → Prop where
  | nil : Interleaved [] []
  | inserted {syllables syllables' : List Syllable} {code : Syllable} (isInserted : Inserted code)
      (rest : Interleaved syllables syllables') : Interleaved syllables (code :: syllables')
  | renamed {syllables syllables' : List Syllable} {syllable syllable' : Syllable}
      (isRenamed : RenamedSyllable syllable syllable') (rest : Interleaved syllables syllables') :
      Interleaved (syllable :: syllables) (syllable' :: syllables')

/-- An allocated block. -/
structure RenamedBlock (block block' : Block) : Prop where
  label : block'.label = block.label
  syllables : Interleaved block.syllables block'.syllables
  terminator : RenamedTerminator block.terminator block'.terminator

/-- The block has no virtual registers. -/
def FullyAllocated (block : Block) : Prop :=
  (∀ syllable ∈ block.syllables, syllable.sourceVregs = [] ∧ syllable.dstVreg = none) ∧
    block.terminator.condVreg = none

/-- An allocated function. -/
structure RenamedFunction (function function' : Function) : Prop where
  name : function'.name = function.name
  blocks : List.Forall₂ RenamedBlock function.blocks function'.blocks
  allocated : ∀ block ∈ function'.blocks, FullyAllocated block

theorem Interleaved.insertAll {syllables syllables' code : List Syllable}
    (areInserted : ∀ syllable ∈ code, Inserted syllable)
    (rest : Interleaved syllables syllables') : Interleaved syllables (code ++ syllables') := by
  induction code with
  | nil => exact rest
  | cons syllable code ih =>
      obtain ⟨first, others⟩ := List.forall_mem_cons.mp areInserted
      exact .inserted first (ih others)

theorem Interleaved.append {first first' second second' : List Syllable}
    (left : Interleaved first first') (right : Interleaved second second') :
    Interleaved (first ++ second) (first' ++ second') := by
  induction left with
  | nil => exact right
  | inserted isInserted _ ih => exact .inserted isInserted ih
  | renamed isRenamed _ ih => exact .renamed isRenamed ih

/-! ### No virtual register is left -/

theorem RenamedReg.physical {reg reg' : Reg} (renamed : RenamedReg reg reg') :
    ∃ preg, reg' = .preg preg := by
  cases renamed with
  | vreg v allocated => exact ⟨_, rfl⟩
  | fixed preg => exact ⟨preg, rfl⟩

theorem sourceVregs_of_renamed {values values' : List Value}
    (renamed : List.Forall₂ RenamedValue values values') :
    values'.filterMap Value.vreg? = [] := by
  induction renamed with
  | nil => rfl
  | cons first _ ih =>
      cases first with
      | reg renamed =>
          obtain ⟨preg, rfl⟩ := renamed.physical
          exact ih
      | imm word => exact ih
      | stack address => exact ih

theorem RenamedSyllable.allocated {syllable syllable' : Syllable}
    (renamed : RenamedSyllable syllable syllable') :
    syllable'.sourceVregs = [] ∧ syllable'.dstVreg = none := by
  refine ⟨sourceVregs_of_renamed renamed.srcs, ?_⟩
  have dst := renamed.dst
  unfold Syllable.dstVreg
  generalize syllable.dst = given at dst
  generalize syllable'.dst = final at dst
  cases dst with
  | none => rfl
  | some renamedDst =>
      obtain ⟨preg, rfl⟩ := renamedDst.physical
      rfl

theorem Interleaved.allocated {syllables syllables' : List Syllable}
    (interleaved : Interleaved syllables syllables') :
    ∀ syllable ∈ syllables', syllable.sourceVregs = [] ∧ syllable.dstVreg = none := by
  induction interleaved with
  | nil => simp
  | inserted isInserted _ ih =>
      refine List.forall_mem_cons.mpr ⟨?_, ih⟩
      cases isInserted with
      | store slot allocated => exact ⟨rfl, rfl⟩
      | load slot allocated => exact ⟨rfl, rfl⟩
  | renamed isRenamed _ ih => exact List.forall_mem_cons.mpr ⟨isRenamed.allocated, ih⟩

theorem RenamedBlock.allocated {block block' : Block} (renamed : RenamedBlock block block') :
    FullyAllocated block' := by
  refine ⟨renamed.syllables.allocated, ?_⟩
  have terminator := renamed.terminator
  generalize block.terminator = given at terminator
  generalize block'.terminator = final at terminator
  cases terminator with
  | ret => rfl
  | jump label => rfl
  | branch renamedCond label =>
      obtain ⟨preg, rfl⟩ := renamedCond.physical
      rfl
  | directCall target cont => rfl

/-! ### Allocation succeeds -/

/-- The registers are partitioned, and every spill slot has an address. -/
structure Stocked (limit : Nat) (alloc : Allocator) : Prop where
  pool : Pool limit alloc
  slotsFit : SlotsFit limit alloc.spillBase

theorem Stocked.transfer {limit : Nat} {alloc alloc' : Allocator} (stocked : Stocked limit alloc)
    (pool : Pool limit alloc') (same : alloc'.spillBase = alloc.spillBase) :
    Stocked limit alloc' :=
  ⟨pool, same ▸ stocked.slotsFit⟩

theorem Stocked.freeVreg {limit : Nat} {alloc : Allocator} (stocked : Stocked limit alloc)
    (v : Nat) : Stocked limit (alloc.freeVreg v) :=
  stocked.transfer (stocked.pool.freeVreg v) (sameTables_freeVreg alloc v).spillBase

section Steps

variable {limit : Nat} (small : limit ≤ 2 ^ 32)
include small

/-- A register is found, and only spill code is inserted. -/
theorem exists_bound {protectedVregs : List Nat}
    (few : protectedVregs.dedup.length < allocatable.length) (order : HashOrder) (work : Work)
    (stocked : Stocked limit work.alloc) {v : Nat} (bounded : v < limit) :
    ∃ preg work' code, pregForVreg order v protectedVregs work = .ok (preg, work') ∧
      Stocked limit work'.alloc ∧ preg ∈ allocatable ∧ work'.inserted = work.inserted ++ code ∧
      ∀ syllable ∈ code, Inserted syllable := by
  obtain ⟨preg, work', done⟩ := exists_pregForVreg few order work stocked.pool stocked.slotsFit v
  obtain ⟨_, -, bound⟩ := bound_of_pregForVreg small stocked.pool bounded done
  have allocated := bound.pool.range bound.bound
  have stocked' := stocked.transfer bound.pool bound.spillBase
  rcases pregForVreg_cases done with ⟨-, rfl⟩ | ⟨-, alloc, code, found, rfl⟩
  · exact ⟨preg, _, [], done, stocked, allocated, (List.append_nil _).symm, by simp⟩
  · refine ⟨preg, _, _, done, stocked', allocated, List.append_assoc _ _ _, ?_⟩
    refine List.forall_mem_append.mpr ⟨?_, ?_⟩
    · rcases found with ⟨rest, -, -, rfl⟩ | ⟨-, victim, -, slot, -, -, rfl⟩
      · simp
      · exact List.forall_mem_singleton.mpr (.store _ allocated)
    · intro syllable isLoad
      obtain ⟨slot, -, rfl⟩ := Option.map_eq_some_iff.mp (Option.mem_toList.mp isLoad)
      exact .load slot allocated

theorem exists_renamedValues {protectedVregs : List Nat}
    (few : protectedVregs.dedup.length < allocatable.length) (order : HashOrder) (work : Work)
    (stocked : Stocked limit work.alloc) {values : List Value}
    (bounded : ∀ v ∈ values.filterMap Value.vreg?, v < limit) :
    ∃ values' work' code, rewriteValues order protectedVregs work values = .ok (values', work') ∧
      Stocked limit work'.alloc ∧ List.Forall₂ RenamedValue values values' ∧
      work'.inserted = work.inserted ++ code ∧ ∀ syllable ∈ code, Inserted syllable := by
  induction values generalizing work with
  | nil => exact ⟨[], work, [], rfl, stocked, .nil, (List.append_nil _).symm, by simp⟩
  | cons value values ih =>
      have unchanged : (∀ v, value ≠ .reg (.vreg v)) → RenamedValue value value →
          (∀ v ∈ values.filterMap Value.vreg?, v < limit) →
          rewriteValue order protectedVregs work value = .ok (value, work) →
          ∃ values' work' code,
            rewriteValues order protectedVregs work (value :: values) = .ok (values', work') ∧
            Stocked limit work'.alloc ∧ List.Forall₂ RenamedValue (value :: values) values' ∧
            work'.inserted = work.inserted ++ code ∧ ∀ syllable ∈ code, Inserted syllable := by
        intro _ same others head
        obtain ⟨values', work', code, tail, finalStocked, renamed, inserted, areInserted⟩ :=
          ih work stocked others
        exact ⟨value :: values', work', code, bind_eq_ok.mpr ⟨(value, work), head,
          bind_eq_ok.mpr ⟨(values', work'), tail, rfl⟩⟩, finalStocked, .cons same renamed, inserted,
          areInserted⟩
      rcases value with (v | preg) | word | address
      · change ∀ w ∈ v :: values.filterMap Value.vreg?, w < limit at bounded
        obtain ⟨vSmall, othersSmall⟩ := List.forall_mem_cons.mp bounded
        obtain ⟨preg, middle, code, bindDone, middleStocked, allocated, inserted, areInserted⟩ :=
          exists_bound small few order work stocked vSmall
        obtain ⟨values', work', code', tail, finalStocked, renamed, inserted', areInserted'⟩ :=
          ih middle middleStocked othersSmall
        refine ⟨.reg (.preg preg) :: values', work', code ++ code', ?_, finalStocked,
          .cons (.reg (.vreg v allocated)) renamed, ?_,
          List.forall_mem_append.mpr ⟨areInserted, areInserted'⟩⟩
        · exact bind_eq_ok.mpr ⟨(.reg (.preg preg), middle),
            bind_eq_ok.mpr ⟨(preg, middle), bindDone, rfl⟩,
            bind_eq_ok.mpr ⟨(values', work'), tail, rfl⟩⟩
        · rw [inserted', inserted, List.append_assoc]
      · exact unchanged (by simp) (.reg (.fixed preg)) bounded rfl
      · exact unchanged (by simp) (.imm word) bounded rfl
      · exact unchanged (by simp) (.stack address) bounded rfl

/-- A syllable that does not read too many registers is rewritten. -/
theorem exists_renamedSyllable (order : HashOrder) {alloc : Allocator} {syllable : Syllable}
    (blockIdx pos : Nat) (stocked : Stocked limit alloc)
    (few : syllable.sourceVregs.dedup.length < allocatable.length)
    (bounded : ∀ v ∈ syllable.sourceVregs, v < limit)
    (dstBounded : ∀ d, syllable.dstVreg = some d → d < limit) :
    ∃ out alloc', rewriteSyllable order alloc syllable blockIdx pos = .ok (out, alloc') ∧
      Stocked limit alloc' ∧ Interleaved [syllable] out := by
  obtain ⟨srcs, read, code, sourcesDone, readStocked, renamed, inserted, areInserted⟩ :=
    exists_renamedValues small few order ⟨alloc, []⟩ stocked bounded
  have freed := freed_freeSources syllable.dstVreg blockIdx pos syllable.sourceVregs
    syllable.sourceVregs readStocked.pool
  have freedStocked := readStocked.transfer freed.pool freed.tables.spillBase
  rw [List.nil_append] at inserted
  cases isDst : syllable.dstVreg with
  | none =>
      refine ⟨_, _, (rewriteSyllable_fixed isDst).mpr ⟨srcs, read, sourcesDone, rfl, rfl⟩,
        freedStocked, ?_⟩
      rw [inserted]
      refine Interleaved.insertAll areInserted (.renamed ⟨rfl, ?_, renamed⟩ .nil)
      unfold Syllable.dstVreg at isDst
      cases sameDst : syllable.dst with
      | none => exact .none
      | some reg =>
          rw [sameDst] at isDst
          cases reg with
          | vreg v => cases isDst
          | preg preg => exact .some (.fixed preg)
  | some d =>
      have fewLeft : (afterSources read.alloc syllable blockIdx pos).2.dedup.length <
          allocatable.length :=
        Nat.lt_of_le_of_lt (length_dedup_le (protected_freeSources_subset _ _ _ _ _)) few
      obtain ⟨preg, bound, code', bindDone, boundStocked, allocated, inserted', areInserted'⟩ :=
        exists_bound small fewLeft order
          ⟨(afterSources read.alloc syllable blockIdx pos).1, read.inserted⟩ freedStocked
          (dstBounded d isDst)
      refine ⟨_, _, (rewriteSyllable_vreg isDst).mpr
        ⟨srcs, read, preg, bound, sourcesDone, bindDone, rfl, rfl⟩, ?_, ?_⟩
      · split
        · exact boundStocked
        · exact boundStocked.freeVreg d
      · rw [inserted', inserted]
        refine Interleaved.insertAll (List.forall_mem_append.mpr ⟨areInserted, areInserted'⟩)
          (.renamed ⟨rfl, ?_, renamed⟩ .nil)
        rw [Mir.Syllable.dstVreg_eq_some.mp isDst]
        exact .some (.vreg d allocated)

theorem exists_renamedSyllables (order : HashOrder) (blockIdx : Nat) {syllables : List Syllable}
    (pos : Nat) {alloc : Allocator} (stocked : Stocked limit alloc)
    (each : ∀ syllable ∈ syllables, syllable.sourceVregs.dedup.length < allocatable.length ∧
      (∀ v ∈ syllable.sourceVregs, v < limit) ∧ ∀ d, syllable.dstVreg = some d → d < limit) :
    ∃ out alloc', rewriteSyllables order blockIdx pos alloc syllables = .ok (out, alloc') ∧
      Stocked limit alloc' ∧ Interleaved syllables out := by
  induction syllables generalizing pos alloc with
  | nil => exact ⟨[], alloc, rfl, stocked, .nil⟩
  | cons syllable syllables ih =>
      obtain ⟨⟨few, bounded, dstBounded⟩, others⟩ := List.forall_mem_cons.mp each
      obtain ⟨first, middle, head, middleStocked, isFirst⟩ :=
        exists_renamedSyllable small order blockIdx pos stocked few bounded dstBounded
      obtain ⟨out, final, tail, finalStocked, isOut⟩ := ih (pos + 1) middleStocked others
      exact ⟨first ++ out, final, bind_eq_ok.mpr ⟨(first, middle), head,
        bind_eq_ok.mpr ⟨(out, final), tail, rfl⟩⟩, finalStocked, isFirst.append isOut⟩

theorem exists_renamedTerminator (order : HashOrder) {alloc : Allocator} {terminator : Terminator}
    (blockIdx pos : Nat) (stocked : Stocked limit alloc)
    (bounded : ∀ v, terminator.condVreg = some v → v < limit) :
    ∃ code terminator' alloc',
      rewriteTerminator order alloc terminator blockIdx pos = .ok ((code, terminator'), alloc') ∧
      Stocked limit alloc' ∧ (∀ syllable ∈ code, Inserted syllable) ∧
      RenamedTerminator terminator terminator' := by
  cases terminator with
  | ret => exact ⟨[], _, alloc, rfl, stocked, by simp, .ret⟩
  | jump label => exact ⟨[], _, alloc, rfl, stocked, by simp, .jump label⟩
  | directCall target cont => exact ⟨[], _, alloc, rfl, stocked, by simp, .directCall target cont⟩
  | branch cond label =>
      cases cond with
      | preg preg => exact ⟨[], _, alloc, rfl, stocked, by simp, .branch (.fixed preg) label⟩
      | vreg v =>
          have few : [v].dedup.length < allocatable.length := by
            rw [List.dedup_eq_self.mpr (List.nodup_singleton v)]
            exact (by decide : 1 < allocatable.length)
          obtain ⟨preg, work, code, bindDone, boundStocked, allocated, inserted, areInserted⟩ :=
            exists_bound small few order ⟨alloc, []⟩ stocked (bounded v rfl)
          rw [List.nil_append] at inserted
          refine ⟨work.inserted, _, _, bind_eq_ok.mpr ⟨(preg, work), bindDone, rfl⟩, ?_,
            inserted ▸ areInserted, .branch (.vreg v allocated) label⟩
          split
          · exact boundStocked.freeVreg v
          · exact boundStocked

/-- The registers of a block are below the limit, and no syllable reads too
many of them. -/
def FewSources (limit : Nat) (block : Block) : Prop :=
  (∀ syllable ∈ block.syllables, syllable.sourceVregs.dedup.length ≤ 28 ∧
    (∀ v ∈ syllable.sourceVregs, v < limit) ∧ ∀ d, syllable.dstVreg = some d → d < limit) ∧
    ∀ v, block.terminator.condVreg = some v → v < limit

theorem exists_renamedBlock (order : HashOrder) {alloc : Allocator} {block : Block}
    (blockIdx pos : Nat) (stocked : Stocked limit alloc) (few : FewSources limit block) :
    ∃ block' alloc', rewriteBlock order blockIdx pos alloc block = .ok (block', alloc') ∧
      Stocked limit alloc' ∧ RenamedBlock block block' := by
  obtain ⟨each, cond⟩ := few
  have spare : ∀ syllable ∈ block.syllables,
      syllable.sourceVregs.dedup.length < allocatable.length ∧
        (∀ v ∈ syllable.sourceVregs, v < limit) ∧ ∀ d, syllable.dstVreg = some d → d < limit := by
    intro syllable isSyllable
    obtain ⟨atMost, bounds⟩ := each syllable isSyllable
    exact ⟨Nat.lt_of_le_of_lt atMost (by decide), bounds⟩
  obtain ⟨out, middle, syllablesDone, middleStocked, interleaved⟩ :=
    exists_renamedSyllables small order blockIdx pos stocked spare
  obtain ⟨code, terminator, final, terminatorDone, finalStocked, areInserted, isTerminator⟩ :=
    exists_renamedTerminator small order blockIdx (pos + block.syllables.length) middleStocked cond
  refine ⟨⟨block.label, out ++ code, terminator⟩, final, bind_eq_ok.mpr ⟨(out, middle),
    syllablesDone, bind_eq_ok.mpr ⟨((code, terminator), final), terminatorDone, rfl⟩⟩, finalStocked,
    rfl, ?_, isTerminator⟩
  have whole := interleaved.append (Interleaved.insertAll areInserted .nil)
  rwa [List.append_nil, List.append_nil] at whole

theorem exists_renamedBlocks (order : HashOrder) {blocks : List Block} (blockIdx pos : Nat)
    {alloc : Allocator} (stocked : Stocked limit alloc)
    (few : ∀ block ∈ blocks, FewSources limit block) :
    ∃ blocks' alloc', rewriteBlocks order blockIdx pos alloc blocks = .ok (blocks', alloc') ∧
      List.Forall₂ RenamedBlock blocks blocks' := by
  induction blocks generalizing blockIdx pos alloc with
  | nil => exact ⟨[], alloc, rfl, .nil⟩
  | cons block blocks ih =>
      obtain ⟨first, others⟩ := List.forall_mem_cons.mp few
      obtain ⟨block', middle, head, middleStocked, renamed⟩ :=
        exists_renamedBlock small order blockIdx pos stocked first
      obtain ⟨blocks', final, tail, rest⟩ :=
        ih (blockIdx + 1) (pos + block.syllables.length + 1) middleStocked others
      exact ⟨block' :: blocks', final, bind_eq_ok.mpr ⟨(block', middle), head,
        bind_eq_ok.mpr ⟨(blocks', final), tail, rfl⟩⟩, .cons renamed rest⟩

end Steps

/-- Without virtual registers from 64 on and with an address for the spill area,
allocation does not run out of registers, and its result is well formed. -/
theorem exists_allocated (order : HashOrder) {function : Function} {memorySize : Nat}
    (addressable : Addressable memorySize)
    (few : ∀ block ∈ function.blocks, FewSources 64 block) :
    ∃ allocated, allocateRegisters order function memorySize = .ok allocated ∧
      RenamedFunction function allocated := by
  have smallIndices : ∀ block ∈ function.blocks, SmallIndices block := by
    intro block isBlock
    obtain ⟨each, cond⟩ := few block isBlock
    exact ⟨fun syllable isSyllable => (each syllable isSyllable).2, cond⟩
  obtain ⟨infos, computed⟩ := Liveness.exists_compute.mpr smallIndices
  obtain ⟨blocks, final, rewritten, renamed⟩ := exists_renamedBlocks (by decide : 64 ≤ 2 ^ 32)
    order 0 0 ⟨Pool.new 64 (computeBlockLastUses function) (infos.map (·.liveOut))
      (spillAddress memorySize), slotsFit_spillAddress addressable (by decide)⟩ few
  refine ⟨⟨function.name, blocks⟩, ?_, rfl, renamed, ?_⟩
  · exact bind_eq_ok.mpr ⟨_, initialAllocator_eq_ok.mpr ⟨addressable, infos, computed, rfl⟩,
      bind_eq_ok.mpr ⟨(blocks, final), rewritten, rfl⟩⟩
  · intro block isBlock
    obtain ⟨original, -, isRenamed⟩ := exists_mem_of_forall₂ renamed isBlock
    exact isRenamed.allocated

theorem addressable_of_allocateRegisters {order : HashOrder} {function allocated : Function}
    {memorySize : Nat} (done : allocateRegisters order function memorySize = .ok allocated) :
    Addressable memorySize := by
  obtain ⟨alloc, started, -⟩ := bind_eq_ok.mp done
  exact (initialAllocator_eq_ok.mp started).1

/-- Allocation succeeds, with a well-formed result, exactly when the address of
the spill area is computed without overflow. -/
theorem allocateRegisters_wellFormed_iff (order : HashOrder) (function : Function)
    (memorySize : Nat) (few : ∀ block ∈ function.blocks, FewSources 64 block) :
    (∃ allocated, allocateRegisters order function memorySize = .ok allocated ∧
      RenamedFunction function allocated) ↔ Addressable memorySize := by
  constructor
  · rintro ⟨allocated, done, -⟩
    exact addressable_of_allocateRegisters done
  · intro addressable
    exact exists_allocated order addressable few

/-- A sum and a branch on its comparison. -/
def comparedSum : Function :=
  ⟨"f", [⟨"entry", [⟨.add, some (.vreg 1), [.reg (.vreg 0), .reg (.vreg 0)]⟩,
    ⟨.cmpEq, some (.vreg 2), [.reg (.vreg 1), .imm 4]⟩], .branch (.vreg 2) "entry"⟩]⟩

theorem fewSources_comparedSum : ∀ block ∈ comparedSum.blocks, FewSources 64 block := by
  intro block isBlock
  obtain rfl := List.mem_singleton.mp isBlock
  refine ⟨?_, ?_⟩
  · intro syllable isSyllable
    simp only [List.mem_cons, List.not_mem_nil, or_false] at isSyllable
    rcases isSyllable with rfl | rfl
    · exact ⟨by decide, by decide, by simp [Syllable.dstVreg]⟩
    · exact ⟨by decide, by decide, by simp [Syllable.dstVreg]⟩
  · simp [Terminator.condVreg]

theorem allocateRegisters_wellFormed_iff_comparedSum :
    ∃ allocated, allocateRegisters insertionOrder comparedSum 4096 = .ok allocated ∧
      RenamedFunction comparedSum allocated :=
  (allocateRegisters_wellFormed_iff insertionOrder comparedSum 4096 fewSources_comparedSum).mpr
    (by decide)

/-- Fifteen times the largest signed memory size overflows. -/
theorem largeMemory_aborts :
    (∀ block ∈ comparedSum.blocks, FewSources 64 block) ∧
      allocateRegisters insertionOrder comparedSum 0x7fffffffffffffff =
        .error (.panic "attempt to multiply with overflow") :=
  ⟨fewSources_comparedSum, by decide +kernel⟩

end VliwCompiler.Regalloc
