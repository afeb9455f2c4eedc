import VliwCompiler.Regalloc.Allocator

/-!
# The register pool

In every state of the allocator the bound registers and the free list partition
the allocatable registers, and spilled registers have slots of their own.
-/

namespace VliwCompiler.Regalloc

open Asm (I64)
open Allocator (allocatable)

/-- The spill slot with the given number. -/
def slotAt (base : I64) (k : Nat) : I64 := base + BitVec.ofNat 64 k * spillSlotBytes

/-- Virtual registers below `limit` have spill slots of their own. -/
structure SlotPool (limit : Nat) (alloc : Allocator) : Prop where
  spilled : ∀ {v s}, alloc.spillSlots.lookup v = some s → v < limit
  slots : ∀ {v s}, alloc.spillSlots.lookup v = some s →
    ∃ k < alloc.nextSpillSlot, s = slotAt alloc.spillBase k
  slotsInjective : ∀ {v w s}, alloc.spillSlots.lookup v = some s →
    alloc.spillSlots.lookup w = some s → v = w
  slotCount : alloc.nextSpillSlot = alloc.spillSlots.keys.length

/-- Partition of the registers and of the spill slots among virtual registers
below `limit`. -/
structure Pool (limit : Nat) (alloc : Allocator) : Prop extends SlotPool limit alloc where
  bounded : ∀ {v p}, alloc.assigned.lookup v = some p → v < limit
  range : ∀ {v p}, alloc.assigned.lookup v = some p → p ∈ allocatable
  injective : ∀ {v w p}, alloc.assigned.lookup v = some p → alloc.assigned.lookup w = some p →
    v = w
  freeRange : ∀ p ∈ alloc.free, p ∈ allocatable
  freeNodup : alloc.free.Nodup
  apart : ∀ {v p}, alloc.assigned.lookup v = some p → p ∉ alloc.free
  whole : ∀ p ∈ allocatable, p ∈ alloc.free ∨ ∃ v, alloc.assigned.lookup v = some p

theorem length_le_of_nodup {limit : Nat} {keys : List Nat} (distinct : keys.Nodup)
    (bounded : ∀ key ∈ keys, key < limit) : keys.length ≤ limit := by
  have inside : keys ⊆ List.range limit := fun key keyMem => List.mem_range.mpr (bounded key keyMem)
  have counted := (List.subperm_of_subset distinct inside).length_le
  rwa [List.length_range] at counted

theorem slotAt_injective {base : I64} {j k : Nat} (jSmall : j < 2 ^ 60) (kSmall : k < 2 ^ 60)
    (same : slotAt base j = slotAt base k) : j = k := by
  have sameOffset := congrArg BitVec.toNat (add_left_cancel same)
  rw [BitVec.toNat_mul, BitVec.toNat_mul, BitVec.toNat_ofNat, BitVec.toNat_ofNat,
    show spillSlotBytes.toNat = 8 from rfl] at sameOffset
  omega

theorem eq_slotAt_of_slotAddress {base slot : I64} {k : Nat}
    (computed : Allocator.slotAddress base k = .ok slot) : slot = slotAt base k := by
  obtain ⟨offset, isOffset, isSum⟩ := bind_eq_ok.mp computed
  obtain ⟨-, rfl⟩ := checkedMul_eq_ok.mp isOffset
  exact (checkedAdd_eq_ok.mp isSum).2.symm

/-- The addresses of so many spill slots are computed without overflow. -/
def SlotsFit (limit : Nat) (base : I64) : Prop :=
  -2 ^ 62 ≤ base.toInt ∧ base.toInt ≤ 2 ^ 62 ∧ limit ≤ 2 ^ 32

theorem slotsFit_spillAddress {memorySize limit : Nat} (addressable : Addressable memorySize)
    (small : limit ≤ 2 ^ 32) : SlotsFit limit (spillAddress memorySize) := by
  have bounds := toInt_spillAddress_bounds addressable
  exact ⟨by omega, by omega, small⟩

theorem initialAllocator_eq_ok {function : Mir.Function} {memorySize : Nat} {alloc : Allocator} :
    initialAllocator function memorySize = .ok alloc ↔ Addressable memorySize ∧
      ∃ infos, Liveness.compute function = .ok infos ∧
        alloc = .new (computeBlockLastUses function) (infos.map (·.liveOut))
          (spillAddress memorySize) := by
  unfold initialAllocator
  rw [bind_eq_ok]
  constructor
  · rintro ⟨infos, computed, rest⟩
    obtain ⟨base, isBase, finished⟩ := bind_eq_ok.mp rest
    obtain ⟨addressable, rfl⟩ := spillBase_eq_ok.mp isBase
    cases finished
    exact ⟨addressable, infos, computed, rfl⟩
  · rintro ⟨addressable, infos, computed, rfl⟩
    exact ⟨infos, computed, bind_eq_ok.mpr ⟨_, spillBase_eq_ok.mpr ⟨addressable, rfl⟩, rfl⟩⟩

theorem exists_slotAddress {limit : Nat} {base : I64} (slotsFit : SlotsFit limit base) {k : Nat}
    (small : k ≤ limit) : Allocator.slotAddress base k = .ok (slotAt base k) := by
  obtain ⟨low, high, few⟩ := slotsFit
  have isNumber : (BitVec.ofNat 64 k).toInt = k := by
    rw [BitVec.toInt_eq_toNat_cond, BitVec.toNat_ofNat, Nat.mod_eq_of_lt (by omega),
      if_pos (by omega)]
  have isEight : spillSlotBytes.toInt = 8 := rfl
  have isOffset : (BitVec.ofNat 64 k * spillSlotBytes).toInt = k * 8 := by
    rw [BitVec.toInt_mul, isNumber, isEight]
    exact Int.bmod_eq_of_le (by omega) (by omega)
  refine bind_eq_ok.mpr ⟨BitVec.ofNat 64 k * spillSlotBytes, checkedMul_eq_ok.mpr ⟨?_, rfl⟩,
    checkedAdd_eq_ok.mpr ⟨?_, rfl⟩⟩
  · rw [smulOverflow_eq_false_iff, isNumber, isEight]
    exact ⟨by omega, by omega⟩
  · rw [saddOverflow_eq_false_iff, isOffset]
    exact ⟨by omega, by omega⟩

theorem mem_keys_iff {K V : Type} [DecidableEq K] {map : HashMap K V} {key : K} :
    key ∈ map.keys ↔ ∃ value, map.lookup key = some value := by
  rw [← AList.mem_keys, ← AList.lookup_isSome, Option.isSome_iff_exists]

theorem SlotPool.nextSpillSlot_le {limit : Nat} {alloc : Allocator} (pool : SlotPool limit alloc) :
    alloc.nextSpillSlot ≤ limit := by
  rw [pool.slotCount]
  refine length_le_of_nodup alloc.spillSlots.nodupKeys ?_
  intro key keyMem
  obtain ⟨slot, found⟩ := mem_keys_iff.mp keyMem
  exact pool.spilled found

/-- What taking a register away does: the victim has a slot afterwards, and all
other slots are as before. -/
structure Evicted (alloc : Allocator) (victim : Nat) (slot : I64) (alloc' : Allocator) : Prop where
  assigned : alloc'.assigned = alloc.assigned.erase victim
  free : alloc'.free = alloc.free
  lastUses : alloc'.lastUses = alloc.lastUses
  liveOut : alloc'.liveOut = alloc.liveOut
  spillBase : alloc'.spillBase = alloc.spillBase
  victims : alloc'.victims = victim :: alloc.victims
  saved : alloc'.spillSlots.lookup victim = some slot
  others : ∀ v, v ≠ victim → alloc'.spillSlots.lookup v = alloc.spillSlots.lookup v
  kept : ∀ s, alloc.spillSlots.lookup victim = some s → s = slot

theorem Evicted.spills_le {alloc alloc' : Allocator} {victim : Nat} {slot : I64}
    (evicted : Evicted alloc victim slot alloc') (v : Nat) : alloc.spills v ≤ alloc'.spills v := by
  unfold Allocator.spills
  rw [evicted.victims]
  exact List.count_le_count_cons

theorem Evicted.spills_ne {alloc alloc' : Allocator} {victim : Nat} {slot : I64}
    (evicted : Evicted alloc victim slot alloc') : alloc'.spills victim ≠ alloc.spills victim := by
  unfold Allocator.spills
  rw [evicted.victims, List.count_cons_self]
  exact Nat.succ_ne_self _

section Evicting

variable {alloc alloc' : Allocator} {victim : Nat} {slot : I64}

/-- The slot of the victim is its old one or the next one. -/
theorem evict_eq_ok :
    alloc.evict victim = .ok (slot, alloc') ↔
      (alloc.spillSlots.lookup victim = some slot ∧
          alloc' = { alloc with
            assigned := alloc.assigned.erase victim
            victims := victim :: alloc.victims }) ∨
        (alloc.spillSlots.lookup victim = none ∧
          Allocator.slotAddress alloc.spillBase alloc.nextSpillSlot = .ok slot ∧
          alloc' = { alloc with
            assigned := alloc.assigned.erase victim
            victims := victim :: alloc.victims
            spillSlots := alloc.spillSlots.insert victim slot
            nextSpillSlot := alloc.nextSpillSlot + 1 }) := by
  unfold Allocator.evict Allocator.spillSlot
  cases found : alloc.spillSlots.lookup victim with
  | some old =>
      simp only [Except.ok.injEq, Prod.mk.injEq, Option.some.injEq, reduceCtorEq, false_and,
        or_false, eq_comm (a := alloc')]
  | none =>
      simp only [bind_eq_ok, pure, Except.pure, Except.ok.injEq, Prod.mk.injEq, reduceCtorEq,
        false_and, false_or, true_and, eq_comm (a := alloc')]
      constructor
      · rintro ⟨other, computed, rfl, same⟩
        exact ⟨computed, same⟩
      · rintro ⟨computed, same⟩
        exact ⟨slot, computed, rfl, same⟩

theorem evicted_of_evict (done : alloc.evict victim = .ok (slot, alloc')) :
    Evicted alloc victim slot alloc' := by
  rcases evict_eq_ok.mp done with ⟨found, rfl⟩ | ⟨found, -, rfl⟩
  · exact ⟨rfl, rfl, rfl, rfl, rfl, rfl, found, fun _ _ => rfl, fun s same => by
      rw [found] at same
      exact (Option.some.inj same).symm⟩
  · exact ⟨rfl, rfl, rfl, rfl, rfl, rfl, AList.lookup_insert _,
      fun v other => AList.lookup_insert_ne other, fun s same => by
        rw [found] at same
        cases same⟩

/-- A register can be taken away where the addresses of the slots fit. -/
theorem exists_evict {limit : Nat} (pool : SlotPool limit alloc)
    (slotsFit : SlotsFit limit alloc.spillBase) (victim : Nat) :
    ∃ slot alloc', alloc.evict victim = .ok (slot, alloc') := by
  cases found : alloc.spillSlots.lookup victim with
  | some slot => exact ⟨slot, _, evict_eq_ok.mpr (.inl ⟨found, rfl⟩)⟩
  | none =>
      exact ⟨_, _, evict_eq_ok.mpr (.inr ⟨found,
        exists_slotAddress slotsFit pool.nextSpillSlot_le, rfl⟩)⟩

theorem slotPool_of_evict {limit : Nat} (pool : SlotPool limit alloc) (small : limit ≤ 2 ^ 32)
    (bounded : victim < limit) (done : alloc.evict victim = .ok (slot, alloc')) :
    SlotPool limit alloc' := by
  rcases evict_eq_ok.mp done with ⟨found, rfl⟩ | ⟨found, computed, rfl⟩
  · exact ⟨pool.spilled, pool.slots, pool.slotsInjective, pool.slotCount⟩
  · obtain rfl := eq_slotAt_of_slotAddress computed
    have unspilled : victim ∉ alloc.spillSlots.keys := by
      rw [mem_keys_iff, found]
      simp
    have count := pool.nextSpillSlot_le
    have old : ∀ {v s}, v ≠ victim → (alloc.spillSlots.insert victim
        (slotAt alloc.spillBase alloc.nextSpillSlot)).lookup v = some s →
        alloc.spillSlots.lookup v = some s := by
      intro v s other isSlot
      rwa [AList.lookup_insert_ne other] at isSlot
    have fresh : ∀ {v s}, alloc.spillSlots.lookup v = some s →
        s ≠ slotAt alloc.spillBase alloc.nextSpillSlot := by
      rintro v s isSlot rfl
      obtain ⟨k, less, same⟩ := pool.slots isSlot
      have := slotAt_injective (by omega) (by omega) same
      omega
    refine ⟨?_, ?_, ?_, ?_⟩
    · intro v s isSlot
      by_cases same : v = victim
      · exact same ▸ bounded
      · exact pool.spilled (old same isSlot)
    · intro v s isSlot
      by_cases same : v = victim
      · subst same
        rw [AList.lookup_insert, Option.some.injEq] at isSlot
        exact ⟨alloc.nextSpillSlot, Nat.lt_succ_self _, isSlot.symm⟩
      · obtain ⟨k, less, isK⟩ := pool.slots (old same isSlot)
        exact ⟨k, Nat.lt_succ_of_lt less, isK⟩
    · intro v w s first second
      by_cases sameV : v = victim
      · by_cases sameW : w = victim
        · rw [sameV, sameW]
        · subst sameV
          rw [AList.lookup_insert, Option.some.injEq] at first
          exact absurd first.symm (fresh (old sameW second))
      · by_cases sameW : w = victim
        · subst sameW
          rw [AList.lookup_insert, Option.some.injEq] at second
          exact absurd second.symm (fresh (old sameV first))
        · exact pool.slotsInjective (old sameV first) (old sameW second)
    · rw [AList.keys_insert, List.erase_of_not_mem unspilled, List.length_cons, pool.slotCount]

end Evicting

namespace Pool

variable {limit : Nat} {alloc : Allocator}

/-- The allocator starts with all registers free. -/
theorem new (limit : Nat) (lastUses : List (HashMap Nat Nat)) (liveOut : List Liveness.LiveSet)
    (base : I64) : Pool limit (Allocator.new lastUses liveOut base) where
  bounded := by simp [Allocator.new]
  range := by simp [Allocator.new]
  injective := by simp [Allocator.new]
  freeRange := fun _ => id
  freeNodup := (by decide : allocatable.Nodup)
  apart := by simp [Allocator.new]
  whole := fun _ => .inl
  spilled := by simp [Allocator.new]
  slots := by simp [Allocator.new]
  slotsInjective := by simp [Allocator.new]
  slotCount := rfl

/-- A freed register goes back to the free list. -/
theorem freeVreg (pool : Pool limit alloc) (vreg : Nat) : Pool limit (alloc.freeVreg vreg) := by
  unfold Allocator.freeVreg
  cases bound : alloc.assigned.lookup vreg with
  | none => exact pool
  | some preg =>
      have kept : ∀ {v p}, (alloc.assigned.erase vreg).lookup v = some p →
          v ≠ vreg ∧ alloc.assigned.lookup v = some p := by
        intro v p found
        by_cases same : v = vreg
        · rw [same, AList.lookup_erase] at found
          cases found
        · exact ⟨same, by rwa [AList.lookup_erase_ne same] at found⟩
      exact
        { bounded := fun found => pool.bounded (kept found).2
          range := fun found => pool.range (kept found).2
          injective := fun first second => pool.injective (kept first).2 (kept second).2
          freeRange := List.forall_mem_cons.mpr ⟨pool.range bound, pool.freeRange⟩
          freeNodup := List.nodup_cons.mpr ⟨pool.apart bound, pool.freeNodup⟩
          apart := by
            intro v p found inFree
            obtain ⟨other, isBound⟩ := kept found
            rcases List.mem_cons.mp inFree with rfl | inOld
            · exact other (pool.injective isBound bound)
            · exact pool.apart isBound inOld
          whole := by
            intro p inside
            rcases pool.whole p inside with isFree | ⟨v, isBound⟩
            · exact .inl (List.mem_cons_of_mem _ isFree)
            · by_cases same : v = vreg
              · subst same
                rw [bound, Option.some.injEq] at isBound
                exact .inl (by simp [isBound])
              · exact .inr ⟨v, by simpa [AList.lookup_erase_ne same] using isBound⟩
          spilled := pool.spilled
          slots := pool.slots
          slotsInjective := pool.slotsInjective
          slotCount := pool.slotCount }

/-- Binding a register from the free list. -/
theorem bindFree (pool : Pool limit alloc) {vreg : Nat} {preg : UInt8} {rest : List UInt8}
    (bounded : vreg < limit) (unbound : alloc.assigned.lookup vreg = none)
    (isFree : alloc.free = preg :: rest) :
    Pool limit { alloc with assigned := alloc.assigned.insert vreg preg, free := rest } := by
  have distinct := pool.freeNodup
  rw [isFree, List.nodup_cons] at distinct
  have inFree : preg ∈ alloc.free := by simp [isFree]
  have cases : ∀ {v p}, (alloc.assigned.insert vreg preg).lookup v = some p →
      v = vreg ∧ p = preg ∨ v ≠ vreg ∧ alloc.assigned.lookup v = some p := by
    intro v p found
    by_cases same : v = vreg
    · subst same
      rw [AList.lookup_insert, Option.some.injEq] at found
      exact .inl ⟨rfl, found.symm⟩
    · rw [AList.lookup_insert_ne same] at found
      exact .inr ⟨same, found⟩
  exact
    { pool.toSlotPool with
      bounded := by
        intro v p found
        rcases cases found with ⟨rfl, -⟩ | ⟨-, old⟩
        · exact bounded
        · exact pool.bounded old
      range := by
        intro v p found
        rcases cases found with ⟨-, rfl⟩ | ⟨-, old⟩
        · exact pool.freeRange _ inFree
        · exact pool.range old
      injective := by
        intro v w p first second
        rcases cases first with ⟨rfl, rfl⟩ | ⟨-, oldV⟩
        · rcases cases second with ⟨rfl, -⟩ | ⟨-, oldW⟩
          · rfl
          · exact absurd inFree (pool.apart oldW)
        · rcases cases second with ⟨rfl, rfl⟩ | ⟨-, oldW⟩
          · exact absurd inFree (pool.apart oldV)
          · exact pool.injective oldV oldW
      freeRange := fun p inRest => pool.freeRange p (by simp [isFree, inRest])
      freeNodup := distinct.2
      apart := by
        intro v p found inRest
        rcases cases found with ⟨-, rfl⟩ | ⟨-, old⟩
        · exact distinct.1 inRest
        · exact pool.apart old (by simp [isFree, inRest])
      whole := by
        intro p inside
        rcases pool.whole p inside with inOld | ⟨v, old⟩
        · rw [isFree] at inOld
          rcases List.mem_cons.mp inOld with rfl | inRest
          · exact .inr ⟨vreg, AList.lookup_insert _⟩
          · exact .inl inRest
        · by_cases same : v = vreg
          · rw [same, unbound] at old
            cases old
          · exact .inr ⟨v, by simpa [AList.lookup_insert_ne same] using old⟩ }

/-- Binding the register of a spilled one. -/
theorem bindVictim (pool : Pool limit alloc) (small : limit ≤ 2 ^ 32) {vreg victim : Nat}
    {preg : UInt8} (bounded : vreg < limit) (unbound : alloc.assigned.lookup vreg = none)
    (bound : alloc.assigned.lookup victim = some preg) {slot : I64} {alloc' : Allocator}
    (done : alloc.evict victim = .ok (slot, alloc')) :
    Pool limit { alloc' with assigned := alloc'.assigned.insert vreg preg } := by
  have evicted := evicted_of_evict done
  have slotPool := slotPool_of_evict pool.toSlotPool small (pool.bounded bound) done
  have cases : ∀ {v p}, (alloc'.assigned.insert vreg preg).lookup v = some p →
      v = vreg ∧ p = preg ∨ v ≠ vreg ∧ v ≠ victim ∧ alloc.assigned.lookup v = some p := by
    intro v p found
    by_cases same : v = vreg
    · subst same
      rw [AList.lookup_insert, Option.some.injEq] at found
      exact .inl ⟨rfl, found.symm⟩
    · rw [AList.lookup_insert_ne same, evicted.assigned] at found
      by_cases isVictim : v = victim
      · rw [isVictim, AList.lookup_erase] at found
        cases found
      · rw [AList.lookup_erase_ne isVictim] at found
        exact .inr ⟨same, isVictim, found⟩
  exact
    { slotPool with
      bounded := by
        intro v p found
        rcases cases found with ⟨rfl, -⟩ | ⟨-, -, old⟩
        · exact bounded
        · exact pool.bounded old
      range := by
        intro v p found
        rcases cases found with ⟨-, rfl⟩ | ⟨-, -, old⟩
        · exact pool.range bound
        · exact pool.range old
      injective := by
        intro v w p first second
        rcases cases first with ⟨rfl, rfl⟩ | ⟨-, notV, oldV⟩
        · rcases cases second with ⟨rfl, -⟩ | ⟨-, notW, oldW⟩
          · rfl
          · exact absurd (pool.injective oldW bound) notW
        · rcases cases second with ⟨rfl, rfl⟩ | ⟨-, -, oldW⟩
          · exact absurd (pool.injective oldV bound) notV
          · exact pool.injective oldV oldW
      freeRange := by
        rw [evicted.free]
        exact pool.freeRange
      freeNodup := by
        rw [evicted.free]
        exact pool.freeNodup
      apart := by
        intro v p found
        rw [evicted.free]
        rcases cases found with ⟨-, rfl⟩ | ⟨-, -, old⟩
        · exact pool.apart bound
        · exact pool.apart old
      whole := by
        intro p inside
        rw [evicted.free]
        rcases pool.whole p inside with inOld | ⟨v, old⟩
        · exact .inl inOld
        · right
          by_cases isVictim : v = victim
          · subst isVictim
            rw [bound, Option.some.injEq] at old
            exact ⟨vreg, by rw [AList.lookup_insert, old]⟩
          · have other : v ≠ vreg := fun same => by
              rw [same, unbound] at old
              cases old
            exact ⟨v, by rw [AList.lookup_insert_ne other, evicted.assigned,
              AList.lookup_erase_ne isVictim, old]⟩ }

end Pool

end VliwCompiler.Regalloc
