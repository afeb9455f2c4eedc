import VliwCompiler.Regalloc.Rewrite
import Mathlib.Data.List.NodupEquivFin

/-!
# The partition of the register pool

The allocator is used through two calls, one for a syllable and one for a
terminator.  A call that fails leaves the allocator as far as it had come.  In
every state that any sequence of calls leaves, the registers are either bound
to exactly one virtual register or listed once as free.
-/

namespace VliwCompiler.Regalloc

open Asm (I64)
open Mir (Reg Value Syllable Terminator)
open Liveness (LiveSet)
open Allocator (allocatable)

/-! ### The state a call leaves -/

section Calls

variable (order : HashOrder)

/-- The allocator after the operands that could be rewritten. -/
def valuesLeave (protectedVregs : List Nat) (work : Work) : List Value → Allocator
  | [] => work.alloc
  | value :: values =>
      match rewriteValue order protectedVregs work value with
      | .error _ => work.alloc
      | .ok (_, next) => valuesLeave protectedVregs next values

/-- The allocator after a syllable, also when there was no register left. -/
def syllableLeaves (alloc : Allocator) (syllable : Syllable) (blockIdx pos : Nat) : Allocator :=
  match rewriteValues order syllable.sourceVregs ⟨alloc, []⟩ syllable.srcs with
  | .error _ => valuesLeave order syllable.sourceVregs ⟨alloc, []⟩ syllable.srcs
  | .ok (_, work) =>
      let (freed, protectedVregs) := freeSources syllable.dstVreg blockIdx pos
        (work.alloc, syllable.sourceVregs) syllable.sourceVregs
      match rewriteDst order protectedVregs blockIdx pos { work with alloc := freed }
          syllable.dst with
      | .error _ => freed
      | .ok (_, work) => work.alloc

/-- The allocator after a terminator. -/
def terminatorLeaves (alloc : Allocator) (terminator : Terminator) (blockIdx pos : Nat) :
    Allocator :=
  match rewriteTerminator order alloc terminator blockIdx pos with
  | .error _ => alloc
  | .ok (_, alloc) => alloc

end Calls

/-- A call of the allocator for the code at some place of a function. -/
inductive Call where
  | syllable (syllable : Syllable) (blockIdx pos : Nat)
  | terminator (terminator : Terminator) (blockIdx pos : Nat)

namespace Call

/-- The virtual registers of a call are 32-bit numbers. -/
def Bounded : Call → Prop
  | syllable code _ _ =>
      (∀ v ∈ code.sourceVregs, v < 2 ^ 32) ∧ ∀ v, code.dstVreg = some v → v < 2 ^ 32
  | terminator exit _ _ => ∀ v, exit.condVreg = some v → v < 2 ^ 32

/-- The allocator a call leaves. -/
def leaves (order : HashOrder) (alloc : Allocator) : Call → Allocator
  | syllable code blockIdx pos => syllableLeaves order alloc code blockIdx pos
  | terminator exit blockIdx pos => terminatorLeaves order alloc exit blockIdx pos

end Call

/-- The states of a new allocator after any calls.  Every call may see the
assigned registers in another order. -/
inductive CallReachable (lastUses : List (HashMap Nat Nat)) (liveOut : List LiveSet) (base : I64) :
    Allocator → Prop where
  | new : CallReachable lastUses liveOut base (.new lastUses liveOut base)
  | call {alloc : Allocator} (order : HashOrder) (call : Call) (bounded : call.Bounded) :
      CallReachable lastUses liveOut base alloc →
        CallReachable lastUses liveOut base (call.leaves order alloc)

/-- When all operands are rewritten the walk ends in the state returned. -/
theorem valuesLeave_of_rewriteValues {order : HashOrder} {protectedVregs : List Nat}
    {work work' : Work} {values values' : List Value}
    (done : rewriteValues order protectedVregs work values = .ok (values', work')) :
    valuesLeave order protectedVregs work values = work'.alloc := by
  induction values generalizing work values' with
  | nil =>
      cases done
      rfl
  | cons value values ih =>
      obtain ⟨⟨first, middle⟩, head, rest⟩ := bind_eq_ok.mp done
      obtain ⟨⟨others, final⟩, tail, finished⟩ := bind_eq_ok.mp rest
      cases finished
      rw [valuesLeave, head]
      exact ih tail

/-! ### Every call keeps the pool -/

section Keeps

variable {order : HashOrder} {limit : Nat} (small : limit ≤ 2 ^ 32)
include small

theorem pool_of_pregForVreg {vreg : Nat} {protectedVregs : List Nat} {work work' : Work}
    {preg : UInt8} (pool : Pool limit work.alloc) (bounded : vreg < limit)
    (done : pregForVreg order vreg protectedVregs work = .ok (preg, work')) :
    Pool limit work'.alloc := by
  obtain ⟨code, -, bound⟩ := bound_of_pregForVreg small pool bounded done
  exact bound.pool

theorem pool_of_rewriteValue {protectedVregs : List Nat} {work work' : Work}
    {value value' : Value} (pool : Pool limit work.alloc)
    (bounded : ∀ v, value.vreg? = some v → v < limit)
    (done : rewriteValue order protectedVregs work value = .ok (value', work')) :
    Pool limit work'.alloc := by
  rcases value with (vreg | preg) | word | address
  · obtain ⟨⟨preg, middle⟩, bindDone, same⟩ := bind_eq_ok.mp done
    cases same
    exact pool_of_pregForVreg small pool (bounded vreg rfl) bindDone
  · cases done
    exact pool
  · cases done
    exact pool
  · cases done
    exact pool

theorem pool_valuesLeave {protectedVregs : List Nat} {work : Work} {values : List Value}
    (pool : Pool limit work.alloc) (bounded : ∀ v ∈ values.filterMap Value.vreg?, v < limit) :
    Pool limit (valuesLeave order protectedVregs work values) := by
  induction values generalizing work with
  | nil => exact pool
  | cons value values ih =>
      rw [valuesLeave]
      have first : ∀ v, value.vreg? = some v → v < limit := by
        intro v isVreg
        exact bounded v (List.mem_filterMap.mpr ⟨value, List.mem_cons_self, isVreg⟩)
      have others : ∀ v ∈ values.filterMap Value.vreg?, v < limit := by
        intro v inside
        obtain ⟨source, isSource, isVreg⟩ := List.mem_filterMap.mp inside
        exact bounded v (List.mem_filterMap.mpr ⟨source, List.mem_cons_of_mem _ isSource, isVreg⟩)
      split
      · exact pool
      · rename_i value' next step
        exact ih (pool_of_rewriteValue small pool first step) others

theorem pool_of_rewriteDst {protectedVregs : List Nat} {blockIdx pos : Nat} {work work' : Work}
    {dst dst' : Option Reg} (pool : Pool limit work.alloc)
    (bounded : ∀ v, dst = some (.vreg v) → v < limit)
    (done : rewriteDst order protectedVregs blockIdx pos work dst = .ok (dst', work')) :
    Pool limit work'.alloc := by
  rcases dst with _ | vreg | preg
  · cases done
    exact pool
  · obtain ⟨⟨preg, middle⟩, bindDone, same⟩ := bind_eq_ok.mp done
    cases same
    have bound := pool_of_pregForVreg small pool (bounded vreg rfl) bindDone
    dsimp only
    split
    · exact bound.freeVreg vreg
    · exact bound
  · cases done
    exact pool

theorem pool_syllableLeaves {alloc : Allocator} {syllable : Syllable} {blockIdx pos : Nat}
    (pool : Pool limit alloc) (sources : ∀ v ∈ syllable.sourceVregs, v < limit)
    (target : ∀ v, syllable.dstVreg = some v → v < limit) :
    Pool limit (syllableLeaves order alloc syllable blockIdx pos) := by
  unfold syllableLeaves
  split
  · exact pool_valuesLeave small pool sources
  · rename_i srcs work read
    have readPool : Pool limit work.alloc := by
      rw [← valuesLeave_of_rewriteValues read]
      exact pool_valuesLeave small pool sources
    have freed := freed_freeSources syllable.dstVreg blockIdx pos syllable.sourceVregs
      syllable.sourceVregs readPool
    dsimp only
    split
    · exact freed.pool
    · rename_i dst final written
      refine pool_of_rewriteDst small freed.pool ?_ written
      intro v isTarget
      exact target v (Mir.Syllable.dstVreg_eq_some.mpr isTarget)

theorem pool_terminatorLeaves {alloc : Allocator} {terminator : Terminator} {blockIdx pos : Nat}
    (pool : Pool limit alloc) (bounded : ∀ v, terminator.condVreg = some v → v < limit) :
    Pool limit (terminatorLeaves order alloc terminator blockIdx pos) := by
  unfold terminatorLeaves
  split
  · exact pool
  · rename_i result final done
    unfold rewriteTerminator at done
    split at done
    · rename_i vreg label
      obtain ⟨⟨preg, work⟩, bindDone, same⟩ := bind_eq_ok.mp done
      cases same
      have bound := pool_of_pregForVreg small pool (bounded vreg rfl) bindDone
      split
      · exact bound.freeVreg vreg
      · exact bound
    · cases done
      exact pool

end Keeps

theorem Call.pool {order : HashOrder} {alloc : Allocator} {call : Call}
    (pool : Pool (2 ^ 32) alloc) (bounded : call.Bounded) :
    Pool (2 ^ 32) (call.leaves order alloc) := by
  cases call with
  | syllable syllable blockIdx pos =>
      exact pool_syllableLeaves le_rfl pool bounded.1 bounded.2
  | terminator terminator blockIdx pos =>
      exact pool_terminatorLeaves le_rfl pool bounded

/-- Every reachable state has the pool of registers of a new allocator. -/
theorem CallReachable.pool {lastUses : List (HashMap Nat Nat)} {liveOut : List LiveSet} {base : I64}
    {alloc : Allocator} (reachable : CallReachable lastUses liveOut base alloc) :
    Pool (2 ^ 32) alloc := by
  induction reachable with
  | new => exact Pool.new _ lastUses liveOut base
  | call order call bounded _ ih => exact call.pool ih bounded

/-! ### The partition -/

/-- The bound registers and the free list partition `r2..r30`, and the spilled
values have slots with pairwise distinct numbers. -/
structure Partitioned (alloc : Allocator) : Prop where
  injective : ∀ v w preg, alloc.assigned.lookup v = some preg →
    alloc.assigned.lookup w = some preg → v = w
  exact : (alloc.assigned.entries.map (·.2) ++ alloc.free).Perm
    ((List.range' 2 29).map UInt8.ofNat)
  slotsInjective : ∀ v w slot, alloc.spillSlots.lookup v = some slot →
    alloc.spillSlots.lookup w = some slot → v = w
  numbered : ∃ number : Nat → Nat, Set.InjOn number {v | v ∈ alloc.spillSlots} ∧
    ∀ v slot, alloc.spillSlots.lookup v = some slot →
      number v < alloc.nextSpillSlot ∧ slot = slotAt alloc.spillBase (number v)

theorem allocatable_eq : allocatable = (List.range' 2 29).map UInt8.ofNat := by
  decide

/-- The registers bound by an injective map are distinct. -/
theorem nodup_values {map : HashMap Nat UInt8}
    (injective : ∀ {v w preg}, map.lookup v = some preg → map.lookup w = some preg → v = w) :
    (map.entries.map (·.2)).Nodup := by
  refine (List.nodup_map_iff_inj_on ?_).mpr ?_
  · exact List.NodupKeys.nodup map.nodupKeys
  · intro first isFirst second isSecond same
    have keys := injective (AList.mem_lookup_iff.mpr isFirst)
      (by rw [same]; exact AList.mem_lookup_iff.mpr isSecond)
    exact Sigma.ext keys (heq_of_eq same)

theorem mem_values {map : HashMap Nat UInt8} {preg : UInt8} :
    preg ∈ map.entries.map (·.2) ↔ ∃ v, map.lookup v = some preg := by
  constructor
  · intro inside
    obtain ⟨entry, isEntry, rfl⟩ := List.mem_map.mp inside
    exact ⟨entry.1, AList.mem_lookup_iff.mpr isEntry⟩
  · rintro ⟨v, bound⟩
    exact List.mem_map.mpr ⟨⟨v, preg⟩, AList.mem_lookup_iff.mp bound, rfl⟩

theorem Pool.perm {limit : Nat} {alloc : Allocator} (pool : Pool limit alloc) :
    (alloc.assigned.entries.map (·.2) ++ alloc.free).Perm allocatable := by
  have distinct : (alloc.assigned.entries.map (·.2) ++ alloc.free).Nodup := by
    refine List.nodup_append'.mpr ⟨nodup_values pool.injective, pool.freeNodup, ?_⟩
    intro preg isBound isFree
    obtain ⟨v, bound⟩ := mem_values.mp isBound
    exact pool.apart bound isFree
  refine (List.perm_ext_iff_of_nodup distinct (by decide)).mpr ?_
  intro preg
  rw [List.mem_append, mem_values]
  constructor
  · rintro (⟨v, bound⟩ | isFree)
    · exact pool.range bound
    · exact pool.freeRange preg isFree
  · intro inside
    exact (pool.whole preg inside).symm

theorem SlotPool.numbered {limit : Nat} {alloc : Allocator} (pool : SlotPool limit alloc) :
    ∃ number : Nat → Nat, Set.InjOn number {v | v ∈ alloc.spillSlots} ∧
      ∀ v slot, alloc.spillSlots.lookup v = some slot →
        number v < alloc.nextSpillSlot ∧ slot = slotAt alloc.spillBase (number v) := by
  have each : ∀ v, ∃ number, ∀ slot, alloc.spillSlots.lookup v = some slot →
      number < alloc.nextSpillSlot ∧ slot = slotAt alloc.spillBase number := by
    intro v
    cases found : alloc.spillSlots.lookup v with
    | none => exact ⟨0, fun slot same => by cases same⟩
    | some slot =>
        obtain ⟨number, small, isSlot⟩ := pool.slots found
        exact ⟨number, fun other same => by cases same; exact ⟨small, isSlot⟩⟩
  choose number numbers using each
  refine ⟨number, ?_, numbers⟩
  intro v vSpilled w wSpilled same
  obtain ⟨first, isFirst⟩ := Option.isSome_iff_exists.mp (AList.lookup_isSome.mpr vSpilled)
  obtain ⟨second, isSecond⟩ := Option.isSome_iff_exists.mp (AList.lookup_isSome.mpr wSpilled)
  have equal : first = second := by
    rw [(numbers v first isFirst).2, (numbers w second isSecond).2, same]
  exact pool.slotsInjective isFirst (equal ▸ isSecond)

/-- The register pool is partitioned in every reachable state. -/
theorem partitioned_of_callReachable {lastUses : List (HashMap Nat Nat)} {liveOut : List LiveSet}
    {base : I64} {alloc : Allocator} (reachable : CallReachable lastUses liveOut base alloc) :
    Partitioned alloc where
  injective := fun _ _ _ => reachable.pool.injective
  exact := by
    rw [← allocatable_eq]
    exact reachable.pool.perm
  slotsInjective := fun _ _ _ => reachable.pool.slotsInjective
  numbered := reachable.pool.numbered

/-- A call that reads more registers than there are fails, and its state is
partitioned as well. -/
theorem partitioned_crowded_call :
    let crowded : Syllable := ⟨.add, none, (List.range 30).map fun v => .reg (.vreg v)⟩
    (rewriteSyllable insertionOrder (.new [] [] 1024) crowded 0 0).isOk = false ∧
      Partitioned ((Call.syllable crowded 0 0).leaves insertionOrder (.new [] [] 1024)) := by
  refine ⟨by decide +kernel, @partitioned_of_callReachable [] [] 1024 _
    (.call insertionOrder _ ⟨?_, ?_⟩ .new)⟩
  · decide
  · intro v isTarget
    cases isTarget

end VliwCompiler.Regalloc
