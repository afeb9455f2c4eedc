import VliwCompiler.Regalloc.Pool
import VliwCompiler.Mir.Semantics
import VliwCompiler.Machine.Memory

/-!
# Where the allocator keeps values

A virtual register lives in the physical register it is bound to, or else in
its spill slot.  The code inserted to bind another register moves values
between these places without changing them.
-/

namespace VliwCompiler

open Asm (Opcode I64)
open Machine

namespace Regalloc

open Mir (Reg Value Syllable execSyllables)
open Allocator (allocatable)

/-- The bytes of the first `limit` spill slots. -/
def spillArea (base : I64) (limit : Nat) : Set Word :=
  {cell | ∃ k < limit, cell ∈ addresses (slotAt base k) 8}

/-- The word kept for a virtual register. -/
def Allocator.word? (alloc : Allocator) (state : State Reg) (v : Nat) : Option Word :=
  match alloc.assigned.lookup v with
  | some preg => some (state.gpr (.preg preg))
  | none => (alloc.spillSlots.lookup v).map (state.mem.read · 8)

theorem word?_of_assigned {alloc : Allocator} {v : Nat} {preg : UInt8} (state : State Reg)
    (bound : alloc.assigned.lookup v = some preg) :
    alloc.word? state v = some (state.gpr (.preg preg)) := by
  simp [Allocator.word?, bound]

theorem word?_of_spilled {alloc : Allocator} {v : Nat} {slot : I64} (state : State Reg)
    (unbound : alloc.assigned.lookup v = none) (isSlot : alloc.spillSlots.lookup v = some slot) :
    alloc.word? state v = some (state.mem.read slot 8) := by
  simp [Allocator.word?, unbound, isSlot]

/-- Where a value is kept. -/
inductive Place where
  | register (preg : UInt8)
  | slot (address : I64)
  deriving DecidableEq, Repr

/-- The place of a virtual register. -/
def Allocator.place (alloc : Allocator) (v : Nat) : Option Place :=
  match alloc.assigned.lookup v with
  | some preg => some (.register preg)
  | none => (alloc.spillSlots.lookup v).map .slot

/-- The word in a place. -/
def Place.word (state : State Reg) : Place → Word
  | .register preg => state.gpr (.preg preg)
  | .slot address => state.mem.read address 8

theorem word?_eq_place (alloc : Allocator) (state : State Reg) (v : Nat) :
    alloc.word? state v = (alloc.place v).map (Place.word state) := by
  unfold Allocator.word? Allocator.place
  cases alloc.assigned.lookup v with
  | some preg => rfl
  | none => rw [Option.map_map]; rfl

theorem place_eq_register {alloc : Allocator} {v : Nat} {preg : UInt8} :
    alloc.place v = some (.register preg) ↔ alloc.assigned.lookup v = some preg := by
  unfold Allocator.place
  cases alloc.assigned.lookup v with
  | some other => simp
  | none => simp

theorem place_congr {alloc alloc' : Allocator} {v : Nat}
    (sameBinding : alloc'.assigned.lookup v = alloc.assigned.lookup v)
    (sameSlot : alloc'.spillSlots.lookup v = alloc.spillSlots.lookup v) :
    alloc'.place v = alloc.place v := by
  unfold Allocator.place
  rw [sameBinding, sameSlot]

theorem place_ne_none {alloc : Allocator} {v : Nat} {state : State Reg} {word : Word}
    (isWord : alloc.word? state v = some word) : alloc.place v ≠ none := by
  rw [word?_eq_place] at isWord
  intro nowhere
  rw [nowhere] at isWord
  cases isWord

theorem exists_word {alloc : Allocator} {v : Nat} (state : State Reg)
    (placed : alloc.place v ≠ none) : ∃ word, alloc.word? state v = some word := by
  obtain ⟨place, isPlace⟩ := Option.ne_none_iff_exists'.mp placed
  exact ⟨place.word state, by rw [word?_eq_place, isPlace]; rfl⟩

theorem preg_ne_zero {preg : UInt8} (inside : preg ∈ allocatable) : (Reg.preg preg) ≠ 0 := by
  rintro same
  cases same
  exact absurd inside (by decide)

/-! ### Spill code -/

theorem execSyllables_spillStore (isa : Isa Opcode) (slot : I64) (preg : UInt8)
    (state : State Reg) :
    execSyllables isa [spillStore slot preg] state =
      some { state with
        mem := state.mem.write (storeWrites slot 8 (state.readGpr (.preg preg))) } := by
  have denotes : (spillStore slot preg).action =
      some (.store 8 0 (slot + 0) (.gpr (.preg preg))) := rfl
  rw [Mir.execSyllables_singleton, denotes, Option.map_some]
  simp [Action.exec, Action.effect, Effect.apply, Source.read, Datum.toWord]

theorem execSyllables_spillLoad (isa : Isa Opcode) (slot : I64) {preg : UInt8}
    (inside : preg ∈ allocatable) (state : State Reg) :
    execSyllables isa [spillLoad preg slot] state =
      some { state with
        gpr := Function.update state.gpr (.preg preg) (state.mem.read slot 8) } := by
  have denotes : (spillLoad preg slot).action =
      some (.load .loadD 8 (some (.preg preg)) 0 (slot + 0)) := rfl
  rw [Mir.execSyllables_singleton, denotes, Option.map_some]
  simp [Action.exec, Action.effect, Effect.apply, preg_ne_zero inside, Memory.write]

/-- Different slots have different bytes. -/
theorem slots_disjoint {base : I64} {j k : Nat} (jSmall : j < 2 ^ 60) (kSmall : k < 2 ^ 60)
    (different : j ≠ k) :
    ∀ cell ∈ addresses (slotAt base j) 8, cell ∉ addresses (slotAt base k) 8 := by
  intro cell inFirst inSecond
  obtain ⟨x, xSmall, rfl⟩ := mem_addresses.mp inFirst
  obtain ⟨y, ySmall, same⟩ := mem_addresses.mp inSecond
  unfold slotAt at same
  rw [add_assoc, add_assoc] at same
  have sameOffset := congrArg BitVec.toNat (add_left_cancel same)
  rw [BitVec.toNat_add, BitVec.toNat_add, BitVec.toNat_mul, BitVec.toNat_mul, BitVec.toNat_ofNat,
    BitVec.toNat_ofNat, BitVec.toNat_ofNat, BitVec.toNat_ofNat,
    show spillSlotBytes.toNat = 8 from rfl] at sameOffset
  omega

/-! ### Binding a register -/

/-- Values and everything that does not belong to the allocator are kept. -/
structure Carried (limit : Nat) (alloc alloc' : Allocator) (state state' : State Reg) : Prop where
  words : ∀ {v word}, alloc.word? state v = some word → alloc'.word? state' v = some word
  gpr : ∀ reg, (∀ preg ∈ allocatable, reg ≠ .preg preg) → state'.gpr reg = state.gpr reg
  pred : state'.pred = state.pred
  mem : ∀ cell ∉ spillArea alloc.spillBase limit, state'.mem cell = state.mem cell

/-- A value that is carried has a place. -/
theorem Carried.placed {limit : Nat} {alloc alloc' : Allocator} {state state' : State Reg}
    (carried : Carried limit alloc alloc' state state') {v : Nat} (placed : alloc.place v ≠ none) :
    alloc'.place v ≠ none := by
  obtain ⟨word, isWord⟩ := exists_word state placed
  exact place_ne_none (carried.words isWord)

/-- Code that moves a value between a register and a spill slot. -/
inductive IsSpill (base : I64) (limit : Nat) : Syllable → Prop where
  | store {k : Nat} {preg : UInt8} (inside : k < limit) :
      IsSpill base limit (spillStore (slotAt base k) preg)
  | load {k : Nat} {preg : UInt8} (inside : k < limit) (allocated : preg ∈ allocatable) :
      IsSpill base limit (spillLoad preg (slotAt base k))

/-- A slot in use is one of the spill area. -/
theorem isSpill_load {limit : Nat} {alloc : Allocator} (pool : SlotPool limit alloc) {v : Nat}
    {preg : UInt8} (inside : preg ∈ allocatable) :
    ∀ syllable ∈ ((alloc.spillSlots.lookup v).map (spillLoad preg)).toList,
      IsSpill alloc.spillBase limit syllable := by
  intro syllable syllableMem
  obtain ⟨slot, isSlot, rfl⟩ := Option.map_eq_some_iff.mp (Option.mem_toList.mp syllableMem)
  obtain ⟨k, less, rfl⟩ := pool.slots isSlot
  exact .load (Nat.lt_of_lt_of_le less pool.nextSpillSlot_le) inside

/-- What binding a virtual register does to the allocator. -/
structure Bound (limit : Nat) (vreg : Nat) (protectedVregs : List Nat) (preg : UInt8)
    (alloc alloc' : Allocator) (code : List Syllable) : Prop where
  pool : Pool limit alloc'
  lastUses : alloc'.lastUses = alloc.lastUses
  liveOut : alloc'.liveOut = alloc.liveOut
  spillBase : alloc'.spillBase = alloc.spillBase
  bound : alloc'.assigned.lookup vreg = some preg
  old : ∀ {v p}, v ≠ vreg → alloc'.assigned.lookup v = some p → alloc.assigned.lookup v = some p
  kept : ∀ {v p}, v ∈ protectedVregs ∨ alloc'.spills v = alloc.spills v →
    alloc.assigned.lookup v = some p → alloc'.assigned.lookup v = some p
  spills : ∀ v, alloc.spills v ≤ alloc'.spills v
  origin : alloc.assigned.lookup vreg = some preg ∨ preg ∈ alloc.free ∨
    ∃ victim ∉ protectedVregs, alloc.assigned.lookup victim = some preg
  slots : ∀ {v slot}, alloc.spillSlots.lookup v = some slot →
    alloc'.spillSlots.lookup v = some slot
  sameSlots : ∀ {v}, alloc'.spills v = alloc.spills v →
    alloc'.spillSlots.lookup v = alloc.spillSlots.lookup v
  spillCode : ∀ syllable ∈ code, IsSpill alloc.spillBase limit syllable
  exec : ∀ isa state, ∃ state', execSyllables isa code state = some state' ∧
    Carried limit alloc alloc' state state' ∧
      (∀ reg, reg ≠ .preg preg → state'.gpr reg = state.gpr reg) ∧
      (alloc.assigned.lookup vreg ≠ none ∨ alloc.spillSlots.lookup vreg = none →
        state'.gpr = state.gpr)

theorem Bound.placed {limit vreg : Nat} {protectedVregs : List Nat} {preg : UInt8}
    {alloc alloc' : Allocator} {code : List Syllable}
    (isBound : Bound limit vreg protectedVregs preg alloc alloc' code) {v : Nat}
    (placed : alloc.place v ≠ none) : alloc'.place v ≠ none := by
  obtain ⟨state, -, carried, -⟩ := isBound.exec default default
  exact carried.placed placed

/-- The ways in which a register is found: it is bound already, it is taken
from the free list, or it is taken from another virtual register. -/
theorem pregForVreg_cases {order : HashOrder} {vreg : Nat} {protectedVregs : List Nat}
    {work work' : Work} {preg : UInt8}
    (done : pregForVreg order vreg protectedVregs work = .ok (preg, work')) :
    (work.alloc.assigned.lookup vreg = some preg ∧ work' = work) ∨
      (work.alloc.assigned.lookup vreg = none ∧ ∃ alloc code,
        ((∃ rest, work.alloc.free = preg :: rest ∧ alloc = { work.alloc with free := rest } ∧
            code = []) ∨
          (work.alloc.free = [] ∧ ∃ victim ∉ protectedVregs, ∃ slot,
            work.alloc.assigned.lookup victim = some preg ∧
              work.alloc.evict victim = .ok (slot, alloc) ∧ code = [spillStore slot preg])) ∧
        work' = ⟨{ alloc with assigned := alloc.assigned.insert vreg preg },
          work.inserted ++ code ++ ((alloc.spillSlots.lookup vreg).map
            (spillLoad preg)).toList⟩) := by
  unfold pregForVreg at done
  split at done
  · rename_i other bound
    cases done
    exact .inl ⟨bound, rfl⟩
  · rename_i unbound
    right
    refine ⟨unbound, ?_⟩
    obtain ⟨⟨other, middle⟩, allocated, rest⟩ := bind_eq_ok.mp done
    have finished : preg = other ∧ work' =
        ⟨{ middle.alloc with assigned := middle.alloc.assigned.insert vreg other },
          middle.inserted ++ ((middle.alloc.spillSlots.lookup vreg).map
            (spillLoad other)).toList⟩ := by
      dsimp only at rest
      split at rest
      · rename_i slot found
        cases rest
        exact ⟨rfl, by rw [found]; rfl⟩
      · rename_i found
        cases rest
        exact ⟨rfl, by rw [found]; simp⟩
    obtain ⟨rfl, rfl⟩ := finished
    unfold allocPreg at allocated
    split at allocated
    · rename_i first free isFree
      cases allocated
      exact ⟨_, [], .inl ⟨free, isFree, rfl, rfl⟩, by simp⟩
    · rename_i isEmpty
      split at allocated
      · cases allocated
      · rename_i victim found isVictim
        obtain ⟨⟨slot, evicted⟩, evictDone, finished⟩ := bind_eq_ok.mp allocated
        cases finished
        have unprotected := List.find?_some isVictim
        have isEntry := (order.perm _ _).mem_iff.mp (List.mem_of_find?_eq_some isVictim)
        obtain ⟨entry, entryMem, same⟩ := List.mem_map.mp isEntry
        have bound : work.alloc.assigned.lookup victim = some preg := by
          rw [Prod.mk.injEq] at same
          rw [← same.1, ← same.2]
          exact AList.mem_lookup_iff.mpr entryMem
        exact ⟨evicted, _, .inr ⟨isEmpty, victim, by simpa using unprotected, slot, bound,
          evictDone, rfl⟩, rfl⟩

/-- The state after the reload of a register that has a spill slot. -/
def reloaded (preg : UInt8) (slot? : Option I64) (state : State Reg) : State Reg :=
  match slot? with
  | some slot =>
      { state with gpr := Function.update state.gpr (.preg preg) (state.mem.read slot 8) }
  | none => state

theorem execSyllables_reload (isa : Isa Opcode) {preg : UInt8} (inside : preg ∈ allocatable)
    (slot? : Option I64) (state : State Reg) :
    execSyllables isa (slot?.map (spillLoad preg)).toList state =
      some (reloaded preg slot? state) := by
  cases slot? with
  | none => rfl
  | some slot => exact execSyllables_spillLoad isa slot inside state

theorem reloaded_gpr_of_ne {preg : UInt8} {slot? : Option I64} {state : State Reg} {reg : Reg}
    (other : reg ≠ .preg preg) : (reloaded preg slot? state).gpr reg = state.gpr reg := by
  cases slot? with
  | none => rfl
  | some slot => exact Function.update_of_ne other _ _

@[simp]
theorem reloaded_mem (preg : UInt8) (slot? : Option I64) (state : State Reg) :
    (reloaded preg slot? state).mem = state.mem := by
  cases slot? <;> rfl

@[simp]
theorem reloaded_pred (preg : UInt8) (slot? : Option I64) (state : State Reg) :
    (reloaded preg slot? state).pred = state.pred := by
  cases slot? <;> rfl

/-- Reloading the newly bound register keeps every value. -/
theorem words_reload (alloc : Allocator) {vreg : Nat} {preg : UInt8} {state : State Reg}
    (unbound : alloc.assigned.lookup vreg = none)
    (unused : ∀ v, alloc.assigned.lookup v ≠ some preg) {v : Nat} {word : Word}
    (isWord : alloc.word? state v = some word) :
    Allocator.word? { alloc with assigned := alloc.assigned.insert vreg preg }
      (reloaded preg (alloc.spillSlots.lookup vreg) state) v = some word := by
  by_cases same : v = vreg
  · subst same
    rw [word?_of_assigned _ (AList.lookup_insert _)]
    cases isSlot : alloc.spillSlots.lookup v with
    | none => simp [Allocator.word?, unbound, isSlot] at isWord
    | some slot =>
        rw [word?_of_spilled state unbound isSlot] at isWord
        simpa [reloaded] using isWord
  · have sameBinding : (alloc.assigned.insert vreg preg).lookup v = alloc.assigned.lookup v :=
      AList.lookup_insert_ne same
    rw [← isWord]
    unfold Allocator.word?
    simp only [sameBinding, reloaded_mem]
    cases bound : alloc.assigned.lookup v with
    | none => rfl
    | some other =>
        have different : Reg.preg other ≠ .preg preg := fun equal => by
          cases equal
          exact unused v bound
        simp only [reloaded_gpr_of_ne different]

/-- Spilling the victim keeps every value. -/
theorem words_spill {limit : Nat} {alloc alloc' : Allocator} (pool : Pool limit alloc)
    (small : limit ≤ 2 ^ 32) {victim : Nat} {preg : UInt8} {saved : I64}
    (bound : alloc.assigned.lookup victim = some preg)
    (done : alloc.evict victim = .ok (saved, alloc')) (state : State Reg) {v : Nat} {word : Word}
    (isWord : alloc.word? state v = some word) :
    alloc'.word? { state with
      mem := state.mem.write (storeWrites saved 8 (state.readGpr (.preg preg))) } v = some word := by
  have evicted := evicted_of_evict done
  have slotPool := slotPool_of_evict pool.toSlotPool small (pool.bounded bound) done
  by_cases same : v = victim
  · subst same
    rw [word?_of_assigned state bound] at isWord
    have gone : alloc'.assigned.lookup v = none := by
      rw [evicted.assigned, AList.lookup_erase]
    rw [word?_of_spilled _ gone evicted.saved, Memory.read_write_same, State.readGpr,
      if_neg (preg_ne_zero (pool.range bound))]
    exact isWord
  · have sameBinding : alloc'.assigned.lookup v = alloc.assigned.lookup v := by
      rw [evicted.assigned, AList.lookup_erase_ne same]
    cases isBound : alloc.assigned.lookup v with
    | some other =>
        rw [word?_of_assigned _ (sameBinding.trans isBound)]
        rwa [word?_of_assigned state isBound] at isWord
    | none =>
        cases isSlot : alloc.spillSlots.lookup v with
        | none => simp [Allocator.word?, isBound, isSlot] at isWord
        | some slot =>
            have isSlot' := (evicted.others v same).trans isSlot
            rw [word?_of_spilled _ (sameBinding.trans isBound) isSlot',
              Memory.read_write_disjoint]
            · rwa [word?_of_spilled state isBound isSlot] at isWord
            · obtain ⟨j, jLess, rfl⟩ := slotPool.slots isSlot'
              obtain ⟨k, kLess, isK⟩ := slotPool.slots evicted.saved
              have count := slotPool.nextSpillSlot_le
              rw [map_fst_storeWrites, isK]
              refine slots_disjoint (by omega) (by omega) ?_
              rintro rfl
              rw [← isK] at isSlot'
              exact same (slotPool.slotsInjective isSlot' evicted.saved)

/-- Binding a register keeps the values of all others. -/
theorem bound_of_pregForVreg {order : HashOrder} {limit vreg : Nat} {protectedVregs : List Nat}
    {work work' : Work} {preg : UInt8} (small : limit ≤ 2 ^ 32) (pool : Pool limit work.alloc)
    (bounded : vreg < limit)
    (done : pregForVreg order vreg protectedVregs work = .ok (preg, work')) :
    ∃ code, work'.inserted = work.inserted ++ code ∧
      Bound limit vreg protectedVregs preg work.alloc work'.alloc code := by
  rcases pregForVreg_cases done with ⟨isBound, rfl⟩ | ⟨unbound, alloc, code, found, rfl⟩
  · exact ⟨[], by simp,
      { pool := pool
        lastUses := rfl
        liveOut := rfl
        spillBase := rfl
        bound := isBound
        old := fun _ => id
        kept := fun _ => id
        spills := fun _ => Nat.le_refl _
        origin := .inl isBound
        slots := id
        sameSlots := fun _ => rfl
        spillCode := by simp
        exec := fun isa state => ⟨state, rfl, ⟨id, fun _ _ => rfl, rfl, fun _ _ => rfl⟩,
          fun _ _ => rfl, fun _ => rfl⟩ }⟩
  · refine ⟨_, List.append_assoc _ _ _, ?_⟩
    rcases found with ⟨rest, isFree, rfl, rfl⟩ |
      ⟨isEmpty, victim, unprotected, slot, isVictim, evictDone, rfl⟩
    · have inFree : preg ∈ work.alloc.free := by simp [isFree]
      have inside := pool.freeRange preg inFree
      exact
        { pool := pool.bindFree bounded unbound isFree
          lastUses := rfl
          liveOut := rfl
          spillBase := rfl
          bound := AList.lookup_insert _
          old := fun other found => by rwa [AList.lookup_insert_ne other] at found
          kept := by
            intro v p _ isBound
            have other : v ≠ vreg := fun same => by
              rw [same, unbound] at isBound
              cases isBound
            rwa [AList.lookup_insert_ne other]
          spills := fun _ => Nat.le_refl _
          origin := .inr (.inl inFree)
          slots := id
          sameSlots := fun _ => rfl
          spillCode := isSpill_load pool.toSlotPool inside
          exec := by
            intro isa state
            refine ⟨_, execSyllables_reload isa inside _ state, ⟨?_, ?_, ?_, ?_⟩, ?_, ?_⟩
            · exact words_reload { work.alloc with free := rest } unbound
                (fun v isBound => pool.apart isBound inFree)
            · exact fun reg outside => reloaded_gpr_of_ne (outside preg inside)
            · exact reloaded_pred _ _ _
            · exact fun cell _ => by rw [reloaded_mem]
            · exact fun reg other => reloaded_gpr_of_ne other
            · intro quiet
              rw [quiet.resolve_left (fun bound => bound unbound)]
              rfl }
    · have evicted := evicted_of_evict evictDone
      have inside := pool.range isVictim
      have slotPool := slotPool_of_evict pool.toSlotPool small (pool.bounded isVictim) evictDone
      have count := slotPool.nextSpillSlot_le
      exact
        { pool := pool.bindVictim small bounded unbound isVictim evictDone
          lastUses := evicted.lastUses
          liveOut := evicted.liveOut
          spillBase := evicted.spillBase
          bound := AList.lookup_insert _
          old := by
            intro v p other found
            rw [AList.lookup_insert_ne other, evicted.assigned] at found
            by_cases same : v = victim
            · rw [same, AList.lookup_erase] at found
              cases found
            · rwa [AList.lookup_erase_ne same] at found
          kept := by
            intro v p safe isBound
            have other : v ≠ vreg := fun same => by
              rw [same, unbound] at isBound
              cases isBound
            have notVictim : v ≠ victim := by
              rintro rfl
              rcases safe with isProtected | unspilled
              · exact unprotected isProtected
              · exact evicted.spills_ne unspilled
            rw [AList.lookup_insert_ne other, evicted.assigned, AList.lookup_erase_ne notVictim]
            exact isBound
          spills := evicted.spills_le
          origin := .inr (.inr ⟨victim, unprotected, isVictim⟩)
          slots := by
            intro v old isSlot
            by_cases same : v = victim
            · subst same
              rw [evicted.kept old isSlot]
              exact evicted.saved
            · exact (evicted.others v same).trans isSlot
          sameSlots := by
            intro v same
            refine evicted.others v ?_
            rintro rfl
            exact evicted.spills_ne same
          spillCode := by
            have reload := isSpill_load (v := vreg) slotPool inside
            rw [evicted.spillBase] at reload
            refine List.forall_mem_append.mpr ⟨?_, reload⟩
            rw [List.forall_mem_singleton]
            obtain ⟨k, less, isK⟩ := slotPool.slots evicted.saved
            rw [isK, evicted.spillBase]
            exact .store (by omega)
          exec := by
            intro isa state
            refine ⟨reloaded preg (alloc.spillSlots.lookup vreg)
              { state with
                mem := state.mem.write (storeWrites slot 8
                  (state.readGpr (.preg preg))) }, ?_, ⟨?_, ?_, ?_, ?_⟩, ?_, ?_⟩
            · rw [Mir.execSyllables_append, execSyllables_spillStore, Option.bind_some,
                execSyllables_reload isa inside]
            · intro v word isWord
              refine words_reload _ ?_ ?_ (words_spill pool small isVictim evictDone state isWord)
              · rw [evicted.assigned]
                by_cases same : vreg = victim
                · rw [same, AList.lookup_erase]
                · rw [AList.lookup_erase_ne same, unbound]
              · intro w isBound
                rw [evicted.assigned] at isBound
                by_cases same : w = victim
                · rw [same, AList.lookup_erase] at isBound
                  cases isBound
                · rw [AList.lookup_erase_ne same] at isBound
                  exact same (pool.injective isBound isVictim)
            · exact fun reg outside => reloaded_gpr_of_ne (outside preg inside)
            · exact reloaded_pred _ _ _
            · intro cell outside
              rw [reloaded_mem]
              refine Memory.write_apply_of_notMem _ ?_
              rw [map_fst_storeWrites]
              intro inSlot
              obtain ⟨k, less, isK⟩ := slotPool.slots evicted.saved
              rw [isK, evicted.spillBase] at inSlot
              exact outside ⟨k, by omega, inSlot⟩
            · exact fun reg other => reloaded_gpr_of_ne other
            · intro quiet
              have other : vreg ≠ victim := fun same => by
                rw [← same, unbound] at isVictim
                cases isVictim
              rw [evicted.others vreg other, quiet.resolve_left (fun bound => bound unbound)]
              rfl }

end Regalloc

end VliwCompiler
