import VliwCompiler.Regalloc.Rewrite
import Mathlib.Data.Finset.Card

/-!
# When registers are taken away

Reading the sources of a syllable binds every source that has no register yet.
A register is taken away from another value exactly when more sources lack a
register than there are free ones, and every unprotected value can be the
victim.
-/

namespace VliwCompiler.Regalloc

open Asm (I64)
open Mir (Reg Value Syllable)
open Allocator (allocatable)

/-- Number of distinct registers in the list without a physical register. -/
def unbound (assigned : HashMap Nat UInt8) (vregs : List Nat) : Nat :=
  (vregs.toFinset.filter fun v => assigned.lookup v = none).card

/-- An order in which a given register comes first. -/
def favoring (victim : Nat) : HashOrder where
  entries _ map :=
    let entries := map.entries.map fun entry => (entry.1, entry.2)
    entries.filter (·.1 = victim) ++ entries.filter (¬·.1 = victim)
  perm _ map := by
    have split := List.filter_append_perm (fun entry : Nat × UInt8 => decide (entry.1 = victim))
      (map.entries.map fun entry => (entry.1, entry.2))
    simpa using split

/-! ### Reading the sources -/

section Reading

variable {order : HashOrder} {protectedVregs : List Nat}

/-- Reading operands binds their registers one after another. -/
theorem rewriteValues_induct {motive : List Nat → Work → Work → Prop}
    (nil : ∀ work, motive [] work work)
    (cons : ∀ v vregs work middle work' preg,
      pregForVreg order v protectedVregs work = .ok (preg, middle) → motive vregs middle work' →
        motive (v :: vregs) work work')
    {values values' : List Value} {work work' : Work}
    (done : rewriteValues order protectedVregs work values = .ok (values', work')) :
    motive (values.filterMap Value.vreg?) work work' := by
  induction values generalizing values' work with
  | nil =>
      cases done
      exact nil _
  | cons value values ih =>
      obtain ⟨⟨first, middle⟩, head, rest⟩ := bind_eq_ok.mp done
      obtain ⟨⟨others, final⟩, tail, finished⟩ := bind_eq_ok.mp rest
      cases finished
      match value with
      | .reg (.vreg v) =>
          obtain ⟨⟨preg, afterBind⟩, bindDone, same⟩ := bind_eq_ok.mp head
          cases same
          exact cons v _ work middle work' preg bindDone (ih tail)
      | .reg (.preg p) | .imm _ | .stack _ =>
          cases head
          exact ih tail

/-- Binding one register leaves the places of registers without a physical one
alone. -/
theorem unread_of_pregForVreg {v t : Nat} {preg : UInt8} {work work' : Work}
    (done : pregForVreg order v protectedVregs work = .ok (preg, work')) (different : t ≠ v)
    (unassigned : work.alloc.assigned.lookup t = none) :
    work'.alloc.assigned.lookup t = none ∧
      work'.alloc.spillSlots.lookup t = work.alloc.spillSlots.lookup t := by
  rcases pregForVreg_cases done with ⟨-, rfl⟩ | ⟨-, alloc, code, found, rfl⟩
  · exact ⟨unassigned, rfl⟩
  · rcases found with ⟨rest, -, rfl, -⟩ | ⟨-, victim, -, slot, isVictim, evictDone, -⟩
    · refine ⟨?_, rfl⟩
      dsimp only
      rwa [AList.lookup_insert_ne different]
    · have evicted := evicted_of_evict evictDone
      have other : t ≠ victim := by
        rintro rfl
        rw [unassigned] at isVictim
        cases isVictim
      refine ⟨?_, evicted.others t other⟩
      dsimp only
      rw [AList.lookup_insert_ne different, evicted.assigned, AList.lookup_erase_ne other]
      exact unassigned

/-- A register without a physical one stays without, unless it is read. -/
theorem unread_of_rewriteValues {values values' : List Value} {work work' : Work}
    (done : rewriteValues order protectedVregs work values = .ok (values', work')) {t : Nat}
    (unread : t ∉ values.filterMap Value.vreg?)
    (unassigned : work.alloc.assigned.lookup t = none) :
    work'.alloc.assigned.lookup t = none ∧
      work'.alloc.spillSlots.lookup t = work.alloc.spillSlots.lookup t := by
  refine rewriteValues_induct (motive := fun vregs work work' => t ∉ vregs →
    work.alloc.assigned.lookup t = none → work'.alloc.assigned.lookup t = none ∧
      work'.alloc.spillSlots.lookup t = work.alloc.spillSlots.lookup t)
    (fun _ _ unassigned => ⟨unassigned, rfl⟩) ?_ done unread unassigned
  intro v vregs work middle work' preg bindDone ih unread unassigned
  rw [List.mem_cons, not_or] at unread
  obtain ⟨stays, slots⟩ := unread_of_pregForVreg bindDone unread.1 unassigned
  obtain ⟨staysLater, slotsLater⟩ := ih unread.2 stays
  exact ⟨staysLater, slotsLater.trans slots⟩

theorem unbound_cons_of_bound {assigned : HashMap Nat UInt8} {v : Nat} {preg : UInt8}
    (bound : assigned.lookup v = some preg) (vregs : List Nat) :
    unbound assigned (v :: vregs) = unbound assigned vregs := by
  unfold unbound
  rw [List.toFinset_cons, Finset.filter_insert, if_neg (by rw [bound]; exact Option.some_ne_none _)]

theorem unbound_cons_of_unbound {assigned : HashMap Nat UInt8} {v : Nat}
    (unassigned : assigned.lookup v = none) (vregs : List Nat) (preg : UInt8) :
    unbound assigned (v :: vregs) = unbound (assigned.insert v preg) vregs + 1 := by
  unfold unbound
  rw [List.toFinset_cons, Finset.filter_insert, if_pos unassigned]
  have others : vregs.toFinset.filter (fun w => (assigned.insert v preg).lookup w = none) =
      (vregs.toFinset.filter fun w => assigned.lookup w = none).erase v := by
    ext w
    simp only [Finset.mem_filter, Finset.mem_erase, List.mem_toFinset]
    by_cases same : w = v
    · simp [same]
    · rw [AList.lookup_insert_ne same]
      simp [same]
  rw [others, ← Finset.card_insert_of_notMem (Finset.notMem_erase v _)]
  congr 1
  ext w
  by_cases same : w = v
  · simp [same]
  · simp [same]

theorem unbound_pos {assigned : HashMap Nat UInt8} {v : Nat}
    (unassigned : assigned.lookup v = none) (vregs : List Nat) :
    0 < unbound assigned (v :: vregs) := by
  rw [unbound_cons_of_unbound unassigned vregs 0]
  exact Nat.succ_pos _

/-- With enough free registers nothing is taken away. -/
theorem quiet_of_rewriteValues {values values' : List Value} {work work' : Work}
    (done : rewriteValues order protectedVregs work values = .ok (values', work'))
    (enough : unbound work.alloc.assigned (values.filterMap Value.vreg?) ≤
      work.alloc.free.length) :
    work'.alloc.victims = work.alloc.victims ∧
      work'.alloc.free.length + unbound work.alloc.assigned (values.filterMap Value.vreg?) =
        work.alloc.free.length := by
  refine rewriteValues_induct (motive := fun vregs work work' =>
    unbound work.alloc.assigned vregs ≤ work.alloc.free.length →
      work'.alloc.victims = work.alloc.victims ∧
        work'.alloc.free.length + unbound work.alloc.assigned vregs = work.alloc.free.length)
    (fun work _ => ⟨rfl, rfl⟩) ?_ done enough
  intro v vregs work middle work' preg bindDone ih enough
  rcases pregForVreg_cases bindDone with ⟨bound, rfl⟩ | ⟨unassigned, alloc, code, found, rfl⟩
  · rw [unbound_cons_of_bound bound] at enough ⊢
    exact ih enough
  · rcases found with ⟨rest, isFree, rfl, -⟩ | ⟨empty, -⟩
    · rw [unbound_cons_of_unbound unassigned vregs preg, isFree, List.length_cons] at enough ⊢
      obtain ⟨same, count⟩ := ih (Nat.le_of_succ_le_succ enough)
      exact ⟨same, congrArg Nat.succ count⟩
    · have positive := unbound_pos unassigned vregs
      rw [empty, List.length_nil] at enough
      omega

end Reading

/-! ### The victim -/

section Victim

variable {t : Nat} {protectedVregs : List Nat}

theorem find?_favoring {map : HashMap Nat UInt8} {preg : UInt8}
    (bound : map.lookup t = some preg) (unprotected : t ∉ protectedVregs) (search : Nat) :
    ((favoring t).entries search map).find? (·.1 ∉ protectedVregs) = some (t, preg) := by
  have isFirst : ∀ entry ∈ (map.entries.map fun entry => (entry.1, entry.2)).filter (·.1 = t),
      entry = (t, preg) := by
    intro entry entryMem
    obtain ⟨isEntry, isKey⟩ := List.mem_filter.mp entryMem
    obtain ⟨original, originalMem, rfl⟩ := List.mem_map.mp isEntry
    obtain rfl : original.1 = t := of_decide_eq_true isKey
    have same := AList.mem_lookup_iff.mpr originalMem
    rw [Option.mem_def, bound] at same
    rw [Option.some.inj same]
  have isMember : (t, preg) ∈ (map.entries.map fun entry => (entry.1, entry.2)).filter
      (·.1 = t) := by
    refine List.mem_filter.mpr ⟨List.mem_map.mpr ⟨⟨t, preg⟩, ?_, rfl⟩, decide_eq_true rfl⟩
    exact AList.mem_lookup_iff.mp bound
  unfold favoring
  dsimp only
  cases first : (map.entries.map fun entry => (entry.1, entry.2)).filter (·.1 = t) with
  | nil =>
      rw [first] at isMember
      cases isMember
  | cons entry entries =>
      rw [isFirst entry (by rw [first]; exact List.mem_cons_self), List.cons_append,
        List.find?_cons_of_pos (by simpa using unprotected)]

/-- The favoured register is the victim when none is free. -/
theorem evicts_of_pregForVreg {v : Nat} {work work' : Work} {preg other : UInt8}
    (bound : work.alloc.assigned.lookup t = some preg) (unprotected : t ∉ protectedVregs)
    (empty : work.alloc.free = []) (unassigned : work.alloc.assigned.lookup v = none)
    (done : pregForVreg (favoring t) v protectedVregs work = .ok (other, work')) :
    work'.alloc.assigned.lookup t = none ∧ work'.alloc.spillSlots.lookup t ≠ none := by
  have different : t ≠ v := by
    rintro rfl
    rw [unassigned] at bound
    cases bound
  unfold pregForVreg at done
  simp only [unassigned] at done
  obtain ⟨⟨first, middle⟩, allocated, rest⟩ := bind_eq_ok.mp done
  unfold allocPreg at allocated
  simp only [empty, find?_favoring bound unprotected] at allocated
  obtain ⟨⟨slot, alloc⟩, evictDone, finished⟩ := bind_eq_ok.mp allocated
  cases finished
  have evicted := evicted_of_evict evictDone
  have result : work'.alloc = { alloc with assigned := alloc.assigned.insert v preg } := by
    dsimp only at rest
    split at rest
    · cases rest
      rfl
    · cases rest
      rfl
  rw [result]
  refine ⟨?_, ?_⟩
  · rw [AList.lookup_insert_ne different, evicted.assigned, AList.lookup_erase]
  · dsimp only
    rw [evicted.saved]
    exact Option.some_ne_none _

/-- When there are too few free registers the favoured register loses its own. -/
theorem evicts_of_rewriteValues {values values' : List Value} {work work' : Work} {preg : UInt8}
    (done : rewriteValues (favoring t) protectedVregs work values = .ok (values', work'))
    (bound : work.alloc.assigned.lookup t = some preg) (unprotected : t ∉ protectedVregs)
    (unread : t ∉ values.filterMap Value.vreg?)
    (shortage : work.alloc.free.length <
      unbound work.alloc.assigned (values.filterMap Value.vreg?)) :
    work'.alloc.assigned.lookup t = none ∧ work'.alloc.spillSlots.lookup t ≠ none := by
  induction values generalizing values' work with
  | nil =>
      simp [unbound] at shortage
  | cons value values ih =>
      obtain ⟨⟨first, middle⟩, head, rest⟩ := bind_eq_ok.mp done
      obtain ⟨⟨others, final⟩, tail, finished⟩ := bind_eq_ok.mp rest
      cases finished
      match value with
      | .reg (.preg p) | .imm _ | .stack _ =>
          cases head
          exact ih tail bound unread shortage
      | .reg (.vreg v) =>
          obtain ⟨⟨other, afterBind⟩, bindDone, same⟩ := bind_eq_ok.mp head
          cases same
          change t ∉ v :: values.filterMap Value.vreg? at unread
          change work.alloc.free.length < unbound work.alloc.assigned
            (v :: values.filterMap Value.vreg?) at shortage
          rw [List.mem_cons, not_or] at unread
          rcases pregForVreg_cases bindDone with ⟨isBound, rfl⟩ |
            ⟨unassigned, alloc, code, found, same⟩
          · rw [unbound_cons_of_bound isBound] at shortage
            exact ih tail bound unread.2 shortage
          · rcases found with ⟨free, isFree, rfl, -⟩ | ⟨empty, -⟩
            · subst same
              rw [unbound_cons_of_unbound unassigned _ other, isFree, List.length_cons] at shortage
              refine ih tail ?_ unread.2 (Nat.lt_of_succ_lt_succ shortage)
              dsimp only
              rwa [AList.lookup_insert_ne unread.1]
            · obtain ⟨lost, saved⟩ :=
                evicts_of_pregForVreg bound unprotected empty unassigned bindDone
              obtain ⟨stays, slots⟩ := unread_of_rewriteValues tail unread.2 lost
              exact ⟨stays, by rwa [slots]⟩

end Victim

/-! ### Success -/

theorem length_dedup_le {first second : List Nat} (subset : first ⊆ second) :
    first.dedup.length ≤ second.dedup.length := by
  refine (List.subperm_of_subset (List.nodup_dedup first) ?_).length_le
  intro v isMember
  exact List.mem_dedup.mpr (subset (List.mem_dedup.mp isMember))

section Success

variable {limit : Nat} {protectedVregs : List Nat}
  (few : protectedVregs.dedup.length < allocatable.length)
include few

theorem exists_victim {alloc : Allocator} (pool : Pool limit alloc) (empty : alloc.free = []) :
    ∃ victim preg, victim ∉ protectedVregs ∧ alloc.assigned.lookup victim = some preg := by
  by_contra none
  push Not at none
  have owned : allocatable ⊆ protectedVregs.dedup.map alloc.binding := by
    intro preg inside
    rcases pool.whole preg inside with isFree | ⟨v, bound⟩
    · rw [empty] at isFree
      cases isFree
    · refine List.mem_map.mpr ⟨v, List.mem_dedup.mpr ?_, binding_eq bound⟩
      by_contra unprotected
      exact none v preg unprotected bound
  have many := (List.subperm_of_subset (by decide : allocatable.Nodup) owned).length_le
  rw [List.length_map] at many
  omega

theorem exists_pregForVreg (order : HashOrder) (work : Work) (pool : Pool limit work.alloc)
    (slotsFit : SlotsFit limit work.alloc.spillBase) (v : Nat) :
    ∃ preg work', pregForVreg order v protectedVregs work = .ok (preg, work') := by
  have exists_allocPreg : ∃ preg middle,
      allocPreg order v protectedVregs work = .ok (preg, middle) := by
    unfold allocPreg
    cases isFree : work.alloc.free with
    | cons preg free => exact ⟨_, _, rfl⟩
    | nil =>
        obtain ⟨victim, preg, unprotected, bound⟩ := exists_victim few pool isFree
        have isEntry : (victim, preg) ∈ order.entries work.alloc.victims.length
            work.alloc.assigned :=
          (order.perm _ _).mem_iff.mpr
            (List.mem_map.mpr ⟨⟨victim, preg⟩, AList.mem_lookup_iff.mp bound, rfl⟩)
        cases isFound : (order.entries work.alloc.victims.length work.alloc.assigned).find?
            (·.1 ∉ protectedVregs) with
        | some entry =>
            obtain ⟨slot, alloc, evictDone⟩ := exists_evict pool.toSlotPool slotsFit entry.1
            exact ⟨_, _, bind_eq_ok.mpr ⟨(slot, alloc), evictDone, rfl⟩⟩
        | none =>
            have isProtected := List.find?_eq_none.mp isFound _ isEntry
            simp [unprotected] at isProtected
  unfold pregForVreg
  split
  · exact ⟨_, _, rfl⟩
  · obtain ⟨preg, middle, allocated⟩ := exists_allocPreg
    rw [allocated]
    simp only [bind, Except.bind]
    split
    · exact ⟨_, _, rfl⟩
    · exact ⟨_, _, rfl⟩

theorem exists_rewriteValues (order : HashOrder) (work : Work) (pool : Pool limit work.alloc)
    (small : limit ≤ 2 ^ 32) (slotsFit : SlotsFit limit work.alloc.spillBase)
    {values : List Value} (bounded : ∀ v ∈ values.filterMap Value.vreg?, v < limit) :
    ∃ values' work', rewriteValues order protectedVregs work values = .ok (values', work') := by
  induction values generalizing work with
  | nil => exact ⟨[], work, rfl⟩
  | cons value values ih =>
      match value with
      | .reg (.preg p) =>
          obtain ⟨others, work', tail⟩ := ih work pool slotsFit bounded
          exact ⟨_, work', bind_eq_ok.mpr ⟨(.reg (.preg p), work), rfl,
            bind_eq_ok.mpr ⟨(others, work'), tail, rfl⟩⟩⟩
      | .imm word =>
          obtain ⟨others, work', tail⟩ := ih work pool slotsFit bounded
          exact ⟨_, work', bind_eq_ok.mpr ⟨(.imm word, work), rfl,
            bind_eq_ok.mpr ⟨(others, work'), tail, rfl⟩⟩⟩
      | .stack address =>
          obtain ⟨others, work', tail⟩ := ih work pool slotsFit bounded
          exact ⟨_, work', bind_eq_ok.mpr ⟨(.stack address, work), rfl,
            bind_eq_ok.mpr ⟨(others, work'), tail, rfl⟩⟩⟩
      | .reg (.vreg v) =>
          change ∀ w ∈ v :: values.filterMap Value.vreg?, w < limit at bounded
          obtain ⟨vSmall, othersSmall⟩ := List.forall_mem_cons.mp bounded
          obtain ⟨preg, middle, bindDone⟩ := exists_pregForVreg few order work pool slotsFit v
          obtain ⟨code, -, isBound⟩ := bound_of_pregForVreg small pool vSmall bindDone
          obtain ⟨others, work', tail⟩ := ih middle isBound.pool (isBound.spillBase ▸ slotsFit) othersSmall
          exact ⟨_, work', bind_eq_ok.mpr ⟨(.reg (.preg preg), middle),
            bind_eq_ok.mpr ⟨(preg, middle), bindDone, rfl⟩,
            bind_eq_ok.mpr ⟨(others, work'), tail, rfl⟩⟩⟩

end Success

end VliwCompiler.Regalloc
