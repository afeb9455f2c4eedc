import VliwCompiler.Regalloc.Agreement

/-!
# Functions without spills

A function with no more virtual registers than the allocator has physical ones
is allocated without spilling.
-/

namespace VliwCompiler.Regalloc

open Asm (Opcode I64)
open Mir (Reg Value Syllable Terminator Block Function BlockId Config)
open Liveness (LiveAt LiveAfter successors)
open Allocator (allocatable)
open Machine

/-- Nothing was spilled, and only as many virtual registers as there are
physical ones occur. -/
structure Roomy (alloc : Allocator) : Prop where
  pool : Pool allocatable.length alloc
  victims : alloc.victims = []
  spillSlots : alloc.spillSlots = ∅

theorem free_ne_nil {alloc : Allocator} (pool : Pool allocatable.length alloc) {v : Nat}
    (small : v < allocatable.length) (unbound : alloc.assigned.lookup v = none) :
    alloc.free ≠ [] := by
  intro empty
  have distinct : (v :: alloc.assigned.keys).Nodup := by
    refine List.nodup_cons.mpr ⟨fun isKey => ?_, alloc.assigned.nodupKeys⟩
    obtain ⟨preg, bound⟩ := mem_keys_iff.mp isKey
    rw [unbound] at bound
    cases bound
  have bounded : ∀ key ∈ v :: alloc.assigned.keys, key < allocatable.length := by
    refine List.forall_mem_cons.mpr ⟨small, fun key isKey => ?_⟩
    obtain ⟨preg, bound⟩ := mem_keys_iff.mp isKey
    exact pool.bounded bound
  have few := length_le_of_nodup distinct bounded
  have owned : allocatable ⊆ alloc.assigned.keys.map alloc.binding := by
    intro preg inside
    rcases pool.whole preg inside with isFree | ⟨w, bound⟩
    · rw [empty] at isFree
      cases isFree
    · exact List.mem_map.mpr ⟨w, mem_keys_iff.mpr ⟨preg, bound⟩, binding_eq bound⟩
  have many := (List.subperm_of_subset (by decide : allocatable.Nodup) owned).length_le
  rw [List.length_map] at many
  rw [List.length_cons] at few
  omega

section Rewriting

variable {order : HashOrder}

theorem roomy_pregForVreg {v : Nat} {protectedVregs : List Nat} {work work' : Work} {preg : UInt8}
    (roomy : Roomy work.alloc) (small : v < allocatable.length)
    (done : pregForVreg order v protectedVregs work = .ok (preg, work')) : Roomy work'.alloc := by
  rcases pregForVreg_cases done with ⟨-, rfl⟩ | ⟨unbound, alloc, code, found, rfl⟩
  · exact roomy
  · rcases found with ⟨rest, isFree, rfl, -⟩ | ⟨empty, -⟩
    · exact ⟨roomy.pool.bindFree small unbound isFree, roomy.victims, roomy.spillSlots⟩
    · exact absurd empty (free_ne_nil roomy.pool small unbound)

theorem roomy_freeVreg {alloc : Allocator} (roomy : Roomy alloc) (v : Nat) :
    Roomy (alloc.freeVreg v) where
  pool := roomy.pool.freeVreg v
  victims := by
    unfold Allocator.freeVreg
    split <;> exact roomy.victims
  spillSlots := (freeVreg_spillSlots alloc v).trans roomy.spillSlots

theorem roomy_rewriteValues {protectedVregs : List Nat} {values values' : List Value}
    {work work' : Work} (roomy : Roomy work.alloc)
    (small : ∀ v ∈ values.filterMap Value.vreg?, v < allocatable.length)
    (done : rewriteValues order protectedVregs work values = .ok (values', work')) :
    Roomy work'.alloc := by
  induction values generalizing values' work with
  | nil =>
      cases done
      exact roomy
  | cons value values ih =>
      obtain ⟨⟨first, middle⟩, head, rest⟩ := bind_eq_ok.mp done
      obtain ⟨⟨others, final⟩, tail, finished⟩ := bind_eq_ok.mp rest
      cases finished
      have smallRest : ∀ v ∈ values.filterMap Value.vreg?, v < allocatable.length := by
        intro v isSource
        refine small v ?_
        rw [List.filterMap_cons]
        split
        · exact isSource
        · exact List.mem_cons_of_mem _ isSource
      refine ih ?_ smallRest tail
      unfold rewriteValue at head
      split at head
      · obtain ⟨⟨preg, after⟩, bound, same⟩ := bind_eq_ok.mp head
        cases same
        exact roomy_pregForVreg roomy (small _ List.mem_cons_self) bound
      · cases head
        exact roomy

theorem roomy_freeSources (dstVreg : Option Nat) (i pos : Nat) (vregs protectedVregs : List Nat)
    {alloc : Allocator} (roomy : Roomy alloc) :
    Roomy (freeSources dstVreg i pos (alloc, protectedVregs) vregs).1 := by
  induction vregs generalizing alloc protectedVregs with
  | nil => exact roomy
  | cons v vregs ih =>
      rw [freeSources]
      split
      · exact ih _ (roomy_freeVreg roomy v)
      · exact ih _ roomy

theorem roomy_rewriteSyllable {alloc alloc' : Allocator} {syllable : Syllable} {i pos : Nat}
    {out : List Syllable} (roomy : Roomy alloc)
    (small : ∀ v ∈ syllable.sourceVregs, v < allocatable.length)
    (dstSmall : ∀ d, syllable.dstVreg = some d → d < allocatable.length)
    (done : rewriteSyllable order alloc syllable i pos = .ok (out, alloc')) : Roomy alloc' := by
  obtain ⟨⟨srcs, read⟩, sourcesDone, rest⟩ := bind_eq_ok.mp done
  obtain ⟨⟨dst, final⟩, dstDone, finished⟩ := bind_eq_ok.mp rest
  cases finished
  have freed := roomy_freeSources syllable.dstVreg i pos syllable.sourceVregs
    syllable.sourceVregs (roomy_rewriteValues roomy small sourcesDone)
  unfold rewriteDst at dstDone
  split at dstDone
  · rename_i d isDst
    obtain ⟨⟨preg, bound⟩, bindDone, same⟩ := bind_eq_ok.mp dstDone
    cases same
    have isBound := roomy_pregForVreg freed
      (dstSmall d (Mir.Syllable.dstVreg_eq_some.mpr isDst)) bindDone
    dsimp only
    split
    · exact roomy_freeVreg isBound d
    · exact isBound
  · cases dstDone
    exact freed

/-- Nothing has to be loaded from a spill slot. -/
theorem keepsSources_of_roomy {alloc : Allocator} {syllable : Syllable} (roomy : Roomy alloc)
    (small : ∀ v ∈ syllable.sourceVregs, v < allocatable.length) (i pos : Nat) :
    KeepsSources order alloc syllable i pos := by
  intro srcs work sourcesDone d isDst unbound spilled
  rw [(roomy_rewriteValues roomy small sourcesDone).spillSlots] at spilled
  exact absurd rfl spilled

theorem roomy_rewriteTerminator {alloc alloc' : Allocator} {terminator : Terminator} {i pos : Nat}
    {out : List Syllable × Terminator} (roomy : Roomy alloc)
    (small : ∀ v, terminator.condVreg = some v → v < allocatable.length)
    (done : rewriteTerminator order alloc terminator i pos = .ok (out, alloc')) :
    Roomy alloc' := by
  unfold rewriteTerminator at done
  split at done
  · rename_i v label
    obtain ⟨⟨preg, work⟩, bindDone, finished⟩ := bind_eq_ok.mp done
    cases finished
    have isBound := roomy_pregForVreg roomy (small v rfl) bindDone
    split
    · exact roomy_freeVreg isBound v
    · exact isBound
  · cases done
    exact roomy

end Rewriting

section Function

variable {order : HashOrder} {function : Function} {memorySize : Nat}

/-- No more virtual registers occur than there are physical ones. -/
def FewRegisters (function : Function) : Prop :=
  ∀ block ∈ function.blocks, (∀ syllable ∈ block.syllables,
    (∀ v ∈ syllable.sourceVregs, v < allocatable.length) ∧
      ∀ d, syllable.dstVreg = some d → d < allocatable.length) ∧
    ∀ v, block.terminator.condVreg = some v → v < allocatable.length

instance (function : Function) : Decidable (FewRegisters function) :=
  inferInstanceAs (Decidable (∀ block ∈ function.blocks, (∀ syllable ∈ block.syllables,
    (∀ v ∈ syllable.sourceVregs, v < allocatable.length) ∧
      ∀ d, syllable.dstVreg = some d → d < allocatable.length) ∧
    ∀ v, block.terminator.condVreg = some v → v < allocatable.length))

variable (few : FewRegisters function)

include few

theorem roomy_before {i : Nat} {block : Block} (found : function.blocks[i]? = some block)
    (start : ∀ alloc, allocatorAt order function memorySize i = .ok alloc → Roomy alloc)
    {front rest : List Syllable} (split : block.syllables = front ++ rest) {alloc : Allocator}
    (reached : allocatorBefore order function memorySize i front.length = .ok alloc) :
    Roomy alloc := by
  induction front using List.reverseRecOn generalizing rest alloc with
  | nil =>
      rw [List.length_nil, allocatorBefore_zero] at reached
      exact start alloc reached
  | append_singleton front syllable ih =>
      rw [List.append_assoc, List.singleton_append] at split
      rw [List.length_append, List.length_singleton, allocatorBefore_succ found split] at reached
      obtain ⟨before, code, atBefore, done⟩ := reached
      have small := (few block (List.mem_of_getElem? found)).1 syllable (by simp [split])
      exact roomy_rewriteSyllable (ih split atBefore) small.1 small.2 done

theorem roomy_at {i : Nat} (inside : i ≤ function.blocks.length) {alloc : Allocator}
    (reached : allocatorAt order function memorySize i = .ok alloc) : Roomy alloc := by
  induction i generalizing alloc with
  | zero =>
      rw [allocatorAt_zero] at reached
      obtain ⟨-, infos, -, rfl⟩ := initialAllocator_eq_ok.mp reached
      exact ⟨.new _ _ _ _, rfl, rfl⟩
  | succ i ih =>
      have found := List.getElem?_eq_getElem inside
      obtain ⟨before, code, atBefore, done⟩ := allocatorAt_succ found reached
      exact roomy_rewriteTerminator (roomy_before few found (fun _ => ih (Nat.le_of_lt inside))
        (List.append_nil _).symm atBefore) (few _ (List.mem_of_getElem? found)).2 done

/-- Without spills only the edges have to be checked. -/
theorem safeAllocation_of_fewRegisters {isPred : Nat → Prop} (fixed : FixedOnly function)
    (live : ∀ p block s v, function.blocks[p]? = some block → s ∈ successors function p block →
      LiveAt function v s → ∀ k block, min (p + 1) s ≤ k → k < max (p + 1) s →
        function.blocks[k]? = some block → Mentions block v →
        LiveAfter function v k ∧ ∀ alloc,
          allocatorAt order function memorySize (min (p + 1) s) = .ok alloc →
          ∃ preg, alloc.assigned.lookup v = some preg) :
    SafeAllocation order function memorySize isPred where
  fixed := fixed
  keepsSources := by
    intro i block front syllable rest alloc found split reached
    have inside := Nat.le_of_lt (List.getElem?_eq_some_iff.mp found).1
    have roomy := roomy_before few found (fun _ => roomy_at few inside) split reached
    have small := (few block (List.mem_of_getElem? found)).1 syllable (by simp [split])
    exact keepsSources_of_roomy roomy small.1 _ _
  keepsFlags := by
    intro i block front syllable rest alloc alloc' found split reached reached' v isFlag isNeeded
    have inside := Nat.le_of_lt (List.getElem?_eq_some_iff.mp found).1
    have longer : block.syllables = (front ++ [syllable]) ++ rest := by simp [split]
    have before := roomy_before few found (fun _ => roomy_at few inside) split reached
    have after := roomy_before few found (fun _ => roomy_at few inside) longer
      (by rw [List.length_append]; exact reached')
    unfold Allocator.spills
    rw [before.victims, after.victims]
  quiet := by
    intro p block s v found succ isLive
    have insideP := (List.getElem?_eq_some_iff.mp found).1
    refine ⟨?_, ?_, ?_⟩
    · intro alloc alloc' atEnd atStart
      have before := roomy_at few insideP atEnd
      have after := roomy_at few (Nat.le_of_lt (successor_inside succ)) atStart
      unfold Allocator.spills
      rw [before.victims, after.victims]
    · intro k other above below isBlock mentions
      exact (live p block s v found succ isLive k other above below isBlock mentions).1
    · intro k other above below isBlock mentions alloc
      exact (live p block s v found succ isLive k other above below isBlock mentions).2 alloc

end Function

end VliwCompiler.Regalloc
