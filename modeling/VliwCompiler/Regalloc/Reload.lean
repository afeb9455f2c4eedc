import VliwCompiler.Regalloc.Harmless

/-!
# Destinations loaded over a source

The condition for the simulation of a rewritten syllable is exact: where the
destination is loaded over a source or a predicate can be taken out of its
register, some run of the allocator and some state are not simulated.
-/

namespace VliwCompiler.Regalloc

open Asm (Opcode I64)
open Mir (Reg Value Syllable execSyllables predicateSources)
open Allocator (allocatable)
open Machine

/-! ### States that tell values apart -/

/-- The state of the original code that a state of the allocated code
represents. -/
def represented (alloc : Allocator) (state : State Reg) : State Reg where
  gpr
    | .vreg v => (alloc.word? state v).getD 0
    | .preg preg => state.gpr (.preg preg)
  pred
    | .vreg v => state.pred (.preg (alloc.binding v))
    | .preg preg => state.pred (.preg preg)
  mem := state.mem

theorem represents_represented {limit : Nat} {isPred needed : Nat → Prop} {alloc : Allocator}
    (words : ∀ v, needed v → ¬isPred v → alloc.place v ≠ none)
    (flags : ∀ v, needed v → isPred v → alloc.assigned.lookup v ≠ none) (state : State Reg) :
    Represents limit isPred needed alloc (represented alloc state) state where
  words := by
    intro v isNeeded isWord
    obtain ⟨word, found⟩ := exists_word state (words v isNeeded isWord)
    change _ = some ((alloc.word? state v).getD 0)
    rw [found]
    rfl
  flags := by
    intro v isNeeded isFlag
    obtain ⟨preg, bound⟩ := Option.ne_none_iff_exists'.mp (flags v isNeeded isFlag)
    refine ⟨preg, bound, ?_⟩
    change _ = state.pred (.preg (alloc.binding v))
    rw [binding_eq bound]
  gpr := fun _ _ => rfl
  pred := fun _ _ => rfl
  mem := fun _ _ => rfl

/-- Some state tells one value from all others. -/
theorem exists_state_word {limit : Nat} {alloc : Allocator} (pool : Pool limit alloc)
    (small : limit ≤ 2 ^ 32) {d : Nat} (placed : alloc.place d ≠ none) :
    ∃ state : State Reg, alloc.word? state d = some 1 ∧
      ∀ v word, v ≠ d → alloc.word? state v = some word → word = 0 := by
  have zero : ∀ address, Memory.read (fun _ => 0) address 8 = 0 := by
    intro address
    exact Memory.read_of_bytes fun k _ => by simp
  cases bound : alloc.assigned.lookup d with
  | some preg =>
      refine ⟨⟨fun reg => if reg = .preg preg then 1 else 0, fun _ => false, fun _ => 0⟩,
        ?_, ?_⟩
      · rw [word?_of_assigned _ bound]
        exact congrArg some (if_pos rfl)
      · intro v word different isWord
        cases boundV : alloc.assigned.lookup v with
        | some other =>
            have apart : Reg.preg other ≠ .preg preg := by
              rintro ⟨⟩
              exact different (pool.injective boundV bound)
            rw [word?_of_assigned _ boundV, Option.some.injEq] at isWord
            exact isWord.symm.trans (if_neg apart)
        | none =>
            cases isSlot : alloc.spillSlots.lookup v with
            | none => simp [Allocator.word?, boundV, isSlot] at isWord
            | some slot =>
                rw [word?_of_spilled _ boundV isSlot, zero] at isWord
                exact (Option.some.inj isWord).symm
  | none =>
      obtain ⟨slot, isSlot⟩ : ∃ slot, alloc.spillSlots.lookup d = some slot := by
        cases isSlot : alloc.spillSlots.lookup d with
        | some slot => exact ⟨slot, rfl⟩
        | none => simp [Allocator.place, bound, isSlot] at placed
      refine ⟨⟨fun _ => 0, fun _ => false, Memory.write (fun _ => 0) (storeWrites slot 8 1)⟩,
        ?_, ?_⟩
      · rw [word?_of_spilled _ bound isSlot, Memory.read_write_same]
      · intro v word different isWord
        cases boundV : alloc.assigned.lookup v with
        | some other =>
            rw [word?_of_assigned _ boundV] at isWord
            exact (Option.some.inj isWord).symm
        | none =>
            cases isSlotV : alloc.spillSlots.lookup v with
            | none => simp [Allocator.word?, boundV, isSlotV] at isWord
            | some other =>
                have apart : ∀ cell ∈ addresses other 8,
                    cell ∉ (storeWrites slot 8 1).map Prod.fst := by
                  rw [map_fst_storeWrites]
                  obtain ⟨j, jLess, rfl⟩ := pool.slots isSlotV
                  obtain ⟨k, kLess, rfl⟩ := pool.slots isSlot
                  have count := pool.nextSpillSlot_le
                  refine slots_disjoint (by omega) (by omega) ?_
                  rintro rfl
                  exact different (pool.slotsInjective isSlotV isSlot)
                rw [word?_of_spilled _ boundV isSlotV, Memory.read_write_disjoint _ apart,
                  zero] at isWord
                exact (Option.some.inj isWord).symm

/-- A virtual register read by a syllable with a destination is an operand. -/
theorem mem_sources_of_vreg {syllable : Syllable} {action : Action Opcode Reg} {w : Nat}
    (denotes : syllable.action = some action) (wellFormed : syllable.WellFormed)
    (hasDst : syllable.dst.isSome) (words : predicateSources syllable.opcode = false)
    (isSource : w ∈ syllable.sourceVregs) : .gpr (.vreg w) ∈ action.sources := by
  have isOperand := Mir.Syllable.mem_sourceVregs.mp isSource
  have writes := wellFormed.2.mp hasDst
  have table : ∀ opcode : Opcode, opcode.writesGpr = true ∨ opcode.writesPred = true →
      opcode.behavior = .compute ∨ opcode.behavior = .test ∨ opcode.behavior = .acquire ∨
        opcode.behavior = .control ∨ ∃ width, opcode.behavior = .load width := by
    intro opcode
    cases opcode <;> simp [Opcode.behavior, Opcode.writesGpr, Opcode.writesPred]
  have scalar : ∀ {sources}, syllable.srcs.mapM (Value.source false) = some sources →
      Source.gpr (.vreg w) ∈ sources := by
    intro sources isList
    obtain ⟨source, sourceMem, isRead⟩ := exists_image_of_forall₂ (mapM_eq_some_iff.mp isList)
      isOperand
    cases isRead
    exact sourceMem
  unfold Syllable.action at denotes
  simp only [words] at denotes
  rcases table syllable.opcode writes with behavior | behavior | behavior | behavior |
    ⟨width, behavior⟩
  · rw [behavior] at denotes
    obtain ⟨sources, isList, rfl⟩ := Option.map_eq_some_iff.mp denotes
    exact scalar isList
  · rw [behavior] at denotes
    obtain ⟨sources, isList, rfl⟩ := Option.map_eq_some_iff.mp denotes
    exact scalar isList
  · rw [behavior] at denotes
    obtain ⟨sources, isList, rfl⟩ := Option.map_eq_some_iff.mp denotes
    exact scalar isList
  · rw [behavior] at denotes
    cases denotes
  · rw [behavior] at denotes
    obtain ⟨address, isAddress, rfl⟩ := Option.map_eq_some_iff.mp denotes
    unfold Mir.loadAddress at isAddress
    split at isAddress
    · rename_i base isList
      rw [isList, List.mem_singleton] at isOperand
      subst isOperand
      cases isAddress
      exact List.mem_singleton_self _
    · rename_i base offset isList
      rw [isList, List.mem_cons, List.mem_singleton] at isOperand
      rcases isOperand with rfl | impossible
      · cases isAddress
        exact List.mem_singleton_self _
      · cases impossible
    · cases isAddress

theorem protected_freeSources_subset (dstVreg : Option Nat) (blockIdx pos : Nat)
    (vregs : List Nat) (state : Allocator × List Nat) :
    (freeSources dstVreg blockIdx pos state vregs).2 ⊆ state.2 := by
  induction vregs generalizing state with
  | nil => exact List.Subset.refl _
  | cons vreg vregs ih =>
      rw [freeSources]
      split
      · exact List.Subset.trans (ih _) List.filter_sublist.subset
      · exact ih state

section Harm

variable {limit : Nat} {isPred live : Nat → Prop} {alloc : Allocator} {syllable : Syllable}
  {blockIdx pos : Nat} (situation : Situation limit isPred live alloc syllable blockIdx pos)

include situation

theorem Situation.distinct : syllable.sourceVregs.dedup.length < allocatable.length :=
  Nat.lt_of_le_of_lt (List.dedup_sublist _).length_le situation.few

theorem exists_rewriteSyllable (order : HashOrder) :
    ∃ out alloc', rewriteSyllable order alloc syllable blockIdx pos = .ok (out, alloc') := by
  obtain ⟨srcs, read, sourcesDone⟩ := exists_rewriteValues situation.distinct order ⟨alloc, []⟩
    situation.pool situation.small situation.slotsFit situation.bounded
  cases isDst : syllable.dstVreg with
  | none => exact ⟨_, _, (rewriteSyllable_fixed isDst).mpr ⟨srcs, read, sourcesDone, rfl, rfl⟩⟩
  | some d =>
      obtain ⟨isRead, freed⟩ :=
        sourcesRead_of_pool situation.small situation.pool situation.bounded sourcesDone blockIdx pos
      have sameBase := (isRead.tables.trans freed.tables).spillBase
      have few : (afterSources read.alloc syllable blockIdx pos).2.dedup.length <
          allocatable.length :=
        Nat.lt_of_le_of_lt (length_dedup_le (protected_freeSources_subset _ _ _ _ _))
          situation.distinct
      obtain ⟨preg, bound, bindDone⟩ := exists_pregForVreg few order
        ⟨(afterSources read.alloc syllable blockIdx pos).1, read.inserted⟩ freed.pool
        (sameBase ▸ situation.slotsFit) d
      exact ⟨_, _, (rewriteSyllable_vreg isDst).mpr
        ⟨srcs, read, preg, bound, sourcesDone, bindDone, rfl, rfl⟩⟩

/-- A predicate can be the victim whenever a register is taken away. -/
theorem flag_evicted {v : Nat} (isLive : live v) (isFlag : isPred v)
    (isOther : syllable.dstVreg ≠ some v) (unread : v ∉ syllable.sourceVregs)
    (evicts : ReadingEvicts alloc syllable ∨
      ∃ d, syllable.dstVreg = some d ∧ WritingEvicts alloc syllable blockIdx pos d)
    {out : List Syllable} {alloc' : Allocator}
    (done : rewriteSyllable (favoring v) alloc syllable blockIdx pos = .ok (out, alloc')) :
    alloc'.assigned.lookup v = none := by
  obtain ⟨preg, bound⟩ := Option.ne_none_iff_exists'.mp
    (situation.flags v (.inr ⟨isLive, isOther⟩) isFlag)
  have lostReading : ReadingEvicts alloc syllable → ∀ {srcs read},
      rewriteValues (favoring v) syllable.sourceVregs ⟨alloc, []⟩ syllable.srcs =
        .ok (srcs, read) → read.alloc.assigned.lookup v = none := fun shortage _ _ sourcesDone =>
    (evicts_of_rewriteValues sourcesDone bound unread unread shortage).1
  cases isDst : syllable.dstVreg with
  | none =>
      obtain ⟨srcs, read, sourcesDone, -, rfl⟩ := (rewriteSyllable_fixed isDst).mp done
      obtain ⟨-, freed⟩ :=
        sourcesRead_of_pool situation.small situation.pool situation.bounded sourcesDone blockIdx pos
      have shortage := evicts.resolve_right fun ⟨d, same, _⟩ => by
        rw [isDst] at same
        cases same
      rw [freed.lookup_eq fun isLast => unread isLast.1]
      exact lostReading shortage sourcesDone
  | some d =>
      obtain ⟨srcs, read, other, final, sourcesDone, bindDone, -, rfl⟩ :=
        (rewriteSyllable_vreg isDst).mp done
      obtain ⟨isRead, freed⟩ :=
        sourcesRead_of_pool situation.small situation.pool situation.bounded sourcesDone blockIdx pos
      have different : v ≠ d := fun same => isOther (by rw [same, isDst])
      have sameFreed : (afterSources read.alloc syllable blockIdx pos).1.assigned.lookup v =
          read.alloc.assigned.lookup v := freed.lookup_eq fun isLast => unread isLast.1
      obtain ⟨inserted, -, isBound⟩ := bound_of_pregForVreg situation.small freed.pool
        (situation.dstBounded d isDst) bindDone
      have lost : final.alloc.assigned.lookup v = none := by
        by_cases shortage : ReadingEvicts alloc syllable
        · cases stillBound : final.alloc.assigned.lookup v with
          | none => rfl
          | some p =>
              have before := isBound.old different stillBound
              rw [sameFreed, lostReading shortage sourcesDone] at before
              cases before
        · obtain ⟨e, same, writing⟩ := evicts.resolve_left shortage
          obtain rfl := Option.some.inj (isDst.symm.trans same)
          obtain ⟨sameVictims, count⟩ := victims_of_not_readingEvicts sourcesDone shortage
          obtain ⟨freedRegs, isFree, members, -⟩ :=
            free_afterSources situation.small situation.pool situation.bounded sourcesDone blockIdx pos
          have noneFreed : freedRegs = [] := by
            cases freedRegs with
            | nil => rfl
            | cons p rest =>
                obtain ⟨w, isLast, -⟩ := members p List.mem_cons_self
                exact absurd isLast (writing.occupied w)
          have exhausted := writing.exhausted
          have noneLeft : read.alloc.free = [] := List.eq_nil_of_length_eq_zero (by omega)
          have stays := sameFreed.trans
            (isRead.kept (.inr (spills_eq_of_victims sameVictims v)) bound)
          refine (evicts_of_pregForVreg stays ?_ ?_ ?_ bindDone).1
          · exact fun isProtected => unread (protected_freeSources isProtected)
          · dsimp only
            rw [isFree, noneFreed, noneLeft]
            rfl
          · dsimp only
            rw [lookup_dst_afterSources situation.small situation.pool situation.bounded sourcesDone blockIdx pos
              isDst]
            exact (unread_of_rewriteValues sourcesDone writing.unread writing.unassigned).1
      split
      · exact lost
      · rw [freeVreg_lookup, if_neg different]
        exact lost

/-- A destination that is loaded from its slot overwrites a source. -/
theorem source_overwritten (isa : Isa Opcode) {order : HashOrder} {d w : Nat} {srcs : List Value}
    {read : Work} {preg : UInt8} {bound : Work} {slot : I64} {state : State Reg}
    (isDst : syllable.dstVreg = some d)
    (sourcesDone : rewriteValues order syllable.sourceVregs ⟨alloc, []⟩ syllable.srcs =
      .ok (srcs, read))
    (bindDone : pregForVreg order d (afterSources read.alloc syllable blockIdx pos).2
      ⟨(afterSources read.alloc syllable blockIdx pos).1, read.inserted⟩ = .ok (preg, bound))
    (unassigned : read.alloc.assigned.lookup d = none)
    (isSlot : read.alloc.spillSlots.lookup d = some slot)
    (isLast : LastRead alloc syllable blockIdx pos w)
    {word : Word} (isWord : alloc.word? state d = some word) :
    ∃ v mid, LastRead alloc syllable blockIdx pos v ∧
      execSyllables isa bound.inserted state = some mid ∧
      mid.gpr (.preg (read.alloc.binding v)) = word := by
  obtain ⟨isRead, freed⟩ :=
    sourcesRead_of_pool situation.small situation.pool situation.bounded sourcesDone blockIdx pos
  obtain ⟨freedRegs, isFree, members, some⟩ :=
    free_afterSources situation.small situation.pool situation.bounded sourcesDone blockIdx pos
  have unassigned' := (lookup_dst_afterSources situation.small situation.pool situation.bounded
    sourcesDone blockIdx pos isDst).trans unassigned
  obtain ⟨first, others, rfl⟩ := List.exists_cons_of_ne_nil (some w isLast)
  obtain ⟨v, isLastV, isFirst⟩ := members first List.mem_cons_self
  have result : preg = first ∧ bound.inserted = read.inserted ++ [spillLoad first slot] := by
    rcases pregForVreg_cases bindDone with ⟨already, -⟩ | ⟨-, next, code, found, rfl⟩
    · dsimp only at already
      rw [unassigned'] at already
      cases already
    · rcases found with ⟨rest, front, rfl, rfl⟩ | ⟨empty, -⟩
      · dsimp only at front ⊢
        rw [isFree, List.cons_append] at front
        cases front
        rw [freed.slots, isSlot]
        simp
      · dsimp only at empty
        rw [isFree] at empty
        cases empty
  obtain ⟨middle, executed, carried, -⟩ := isRead.exec isa state
  have inside : first ∈ allocatable := by
    obtain ⟨p, isBound⟩ := isRead.bound v isLastV.1
    rw [← isFirst, binding_eq isBound]
    exact isRead.pool.range isBound
  have saved := carried.words isWord
  rw [word?_of_spilled _ unassigned isSlot] at saved
  have loaded := execSyllables_spillLoad isa slot inside middle
  refine ⟨v, { middle with
    gpr := Function.update middle.gpr (.preg first) (middle.mem.read slot 8) }, isLastV, ?_, ?_⟩
  · rw [result.2, Mir.execSyllables_append, executed, Option.bind_some, loaded]
  · rw [isFirst]
    dsimp only
    rw [Function.update_self]
    exact Option.some.inj saved

theorem not_simulates_of_overwritten {order : HashOrder} {d w : Nat} {srcs : List Value}
    {read : Work} {slot : I64} {out : List Syllable} {alloc' : Allocator}
    (isDst : syllable.dstVreg = some d) (unread : d ∉ syllable.sourceVregs)
    (words : predicateSources syllable.opcode = false)
    (done : rewriteSyllable order alloc syllable blockIdx pos = .ok (out, alloc'))
    (sourcesDone : rewriteValues order syllable.sourceVregs ⟨alloc, []⟩ syllable.srcs =
      .ok (srcs, read))
    (unassigned : read.alloc.assigned.lookup d = none)
    (isSlot : read.alloc.spillSlots.lookup d = some slot) (placed : alloc.place d ≠ none)
    (isLast : LastRead alloc syllable blockIdx pos w) :
    ¬Simulates limit isPred live alloc syllable out alloc' := by
  intro simulates
  obtain ⟨srcs', read', preg, bound, sourcesDone', bindDone, rfl, -⟩ :=
    (rewriteSyllable_vreg isDst).mp done
  cases sourcesDone.symm.trans sourcesDone'
  obtain ⟨isRead, -⟩ :=
    sourcesRead_of_pool situation.small situation.pool situation.bounded sourcesDone blockIdx pos
  obtain ⟨state, isOne, others⟩ := exists_state_word situation.pool situation.small placed
  obtain ⟨v, mid, isLastV, executed, overwritten⟩ :=
    source_overwritten situation default isDst sourcesDone bindDone unassigned isSlot isLast isOne
  obtain ⟨action, denotes⟩ := Option.isSome_iff_exists.mp situation.wellFormed.1
  obtain ⟨code, operation, mid', action', isOut, executed', isAction, operands, -⟩ :=
    simulates.steps default action (represented alloc state) state denotes
      (represents_represented situation.words situation.flags state)
  obtain ⟨rfl, isOperation⟩ := List.append_inj' isOut rfl
  cases isOperation
  obtain rfl := Option.some.inj (executed.symm.trans executed')
  have hasDst : syllable.dst.isSome := by
    rw [Mir.Syllable.dstVreg_eq_some.mp isDst]
    rfl
  have isSource := isLastV.1
  have isOperand := mem_sources_of_vreg denotes situation.wellFormed hasDst words isSource
  have renamed : action' = action.rebind (renameReg read.alloc.binding)
      (renameReg fun _ => preg) := by
    have byRenaming := action_renamed read.alloc.binding (renameReg fun _ => preg) syllable
    rw [Mir.Syllable.dstVreg_eq_some.mp isDst, ← isRead.renamed, denotes] at byRenaming
    exact Option.some.inj (isAction.symm.trans byRenaming)
  rw [renamed, Action.sources_rebind, List.map_map] at operands
  have sameValue := List.map_inj_left.mp operands _ isOperand
  have notFlag : ¬isPred v := fun isFlag => by
    rw [(situation.typed.sources v isSource).mp isFlag] at words
    cases words
  obtain ⟨word, isWord⟩ := exists_word state (situation.words v (.inl isSource) notFlag)
  have different : v ≠ d := fun same => unread (same ▸ isSource)
  obtain rfl := others v word different isWord
  have inside := (binding_source isRead isSource).1
  change Datum.word (mid.readGpr (.preg (read.alloc.binding v))) =
    Datum.word ((represented alloc state).readGpr (.vreg v)) at sameValue
  rw [State.readGpr, if_neg (preg_ne_zero inside), overwritten, State.readGpr,
    if_neg (Reg.vreg_ne_zero v)] at sameValue
  change Datum.word 1 = Datum.word ((alloc.word? state v).getD 0) at sameValue
  rw [isWord] at sameValue
  exact absurd (Datum.word.inj sameValue) (by decide)

/-- Rewriting a syllable simulates it, whatever registers are spilled, exactly
when the syllable is harmless. -/
theorem rewriteSyllable_simulates_iff :
    (∀ order out alloc', rewriteSyllable order alloc syllable blockIdx pos = .ok (out, alloc') →
        Simulates limit isPred live alloc syllable out alloc') ↔
      Harmless isPred live alloc syllable blockIdx pos := by
  constructor
  · intro always
    have never : ∀ {order d w srcs read}, syllable.dstVreg = some d →
        d ∉ syllable.sourceVregs → predicateSources syllable.opcode = false →
        LastRead alloc syllable blockIdx pos w → alloc.place d ≠ none →
        rewriteValues order syllable.sourceVregs ⟨alloc, []⟩ syllable.srcs = .ok (srcs, read) →
        read.alloc.assigned.lookup d = none → read.alloc.spillSlots.lookup d ≠ none → False := by
      intro order d w srcs read isDst unread words isLast placed sourcesDone unassigned hasSlot
      obtain ⟨slot, isSlot⟩ := Option.ne_none_iff_exists'.mp hasSlot
      obtain ⟨out, alloc', done⟩ := exists_rewriteSyllable situation order
      exact not_simulates_of_overwritten situation isDst unread words done sourcesDone unassigned
        isSlot placed isLast (always order out alloc' done)
    have reads : ∀ order, ∃ srcs read, rewriteValues order syllable.sourceVregs ⟨alloc, []⟩
        syllable.srcs = .ok (srcs, read) := fun order =>
      exists_rewriteValues situation.distinct order ⟨alloc, []⟩ situation.pool situation.small
        situation.slotsFit situation.bounded
    refine ⟨?_, ?_⟩
    · intro words d v isDst unread isLast
      constructor
      · intro unassigned
        by_contra hasSlot
        obtain ⟨srcs, read, sourcesDone⟩ := reads insertionOrder
        obtain ⟨stays, slots⟩ := unread_of_rewriteValues sourcesDone unread unassigned
        refine never isDst unread words isLast ?_ sourcesDone stays (by rwa [slots])
        obtain ⟨slot, isSlot⟩ := Option.ne_none_iff_exists'.mp hasSlot
        simp [Allocator.place, unassigned, isSlot]
      · intro assigned shortage
        obtain ⟨preg, bound⟩ := Option.ne_none_iff_exists'.mp assigned
        obtain ⟨srcs, read, sourcesDone⟩ := reads (favoring d)
        obtain ⟨lost, saved⟩ := evicts_of_rewriteValues sourcesDone bound unread unread shortage
        refine never isDst unread words isLast ?_ sourcesDone lost saved
        simp [Allocator.place, bound]
    · intro v isLive isFlag isOther unread
      obtain ⟨out, alloc', done⟩ := exists_rewriteSyllable situation (favoring v)
      have kept := (always (favoring v) out alloc' done).flags v isLive isFlag
      constructor
      · intro shortage
        exact kept (flag_evicted situation isLive isFlag isOther unread (.inl shortage) done)
      · intro d isDst writing
        exact kept (flag_evicted situation isLive isFlag isOther unread
          (.inr ⟨d, isDst, writing⟩) done)
  · intro harmless order out alloc' done
    exact simulates_of_harmless situation harmless done

end Harm

/-! ### A copy to a spilled register -/

/-- `v1` is in a register and read for the last time at position 0 of the block;
`v0`, which is live at its end, has a spill slot and no register. -/
def spilledPhi : Allocator where
  lastUses := [AList.insert 1 0 ∅]
  liveOut := [⟨1#64⟩]
  assigned := AList.insert 1 2 ∅
  free := allocatable.tail
  spillSlots := AList.insert 0 (slotAt (spillAddress 4096) 0) ∅
  nextSpillSlot := 1
  spillBase := spillAddress 4096
  victims := [0]

theorem lookup_singleton {V : Type} {key k : Nat} {value x : V} :
    (AList.insert key value (∅ : HashMap Nat V)).lookup k = some x ↔ k = key ∧ x = value := by
  by_cases same : k = key
  · subst same
    rw [AList.lookup_insert, Option.some.injEq]
    exact ⟨fun equal => ⟨rfl, equal.symm⟩, fun both => both.2.symm⟩
  · rw [AList.lookup_insert_ne same]
    exact ⟨fun impossible => (by cases impossible), fun both => absurd both.1 same⟩

theorem pool_spilledPhi : Pool 64 spilledPhi where
  bounded := fun bound => by
    obtain ⟨rfl, -⟩ := lookup_singleton.mp bound
    decide
  range := fun bound => by
    obtain ⟨-, rfl⟩ := lookup_singleton.mp bound
    decide
  injective := fun first second =>
    (lookup_singleton.mp first).1.trans (lookup_singleton.mp second).1.symm
  freeRange := fun _ isFree => List.mem_of_mem_tail isFree
  freeNodup := by decide
  apart := fun bound => by
    obtain ⟨-, rfl⟩ := lookup_singleton.mp bound
    decide
  whole := by
    intro preg inside
    by_cases isFirst : preg = 2
    · exact .inr ⟨1, lookup_singleton.mpr ⟨rfl, isFirst⟩⟩
    · left
      exact (List.mem_cons.mp (show preg ∈ 2 :: allocatable.tail from inside)).resolve_left isFirst
  spilled := fun isSlot => by
    obtain ⟨rfl, -⟩ := lookup_singleton.mp isSlot
    decide
  slots := fun isSlot => ⟨0, Nat.zero_lt_one, (lookup_singleton.mp isSlot).2⟩
  slotsInjective := fun first second =>
    (lookup_singleton.mp first).1.trans (lookup_singleton.mp second).1.symm
  slotCount := rfl

/-- The copy of a phi destination. -/
def phiCopy : Syllable := ⟨.mov, some (.vreg 0), [.reg (.vreg 1)]⟩

/-- The same copy to a register that was never spilled. -/
def freshCopy : Syllable := ⟨.mov, some (.vreg 2), [.reg (.vreg 1)]⟩

theorem situation_copy {d : Nat} (isTarget : d = 0 ∨ d = 2) :
    Situation 64 (fun _ => False) (· = 0) spilledPhi ⟨.mov, some (.vreg d), [.reg (.vreg 1)]⟩
      0 0 where
  small := by decide
  pool := pool_spilledPhi
  slotsFit := slotsFit_spillAddress (by decide) (by decide)
  bounded := by simp [Syllable.sourceVregs, Value.vreg?]
  dstBounded := by
    intro e isDst
    obtain rfl : d = e := by simpa [Syllable.dstVreg] using isDst
    omega
  few := (by decide : 1 < allocatable.length)
  wellFormed := ⟨rfl, by simp [Opcode.writesGpr]⟩
  typed := ⟨by simp [Syllable.sourceVregs, Value.vreg?, predicateSources],
    by simp [Opcode.writesPred]⟩
  fixed := ⟨by simp, by simp⟩
  later := by
    rintro v rfl
    rfl
  words := by
    rintro v (isSource | ⟨rfl, -⟩) -
    · obtain rfl : v = 1 := by simpa [Syllable.sourceVregs, Value.vreg?] using isSource
      rw [place_eq_register.mpr (lookup_singleton.mpr ⟨rfl, rfl⟩)]
      exact Option.some_ne_none _
    · rintro ⟨⟩
  flags := fun _ _ => False.elim

theorem lastRead_phiCopy : LastRead spilledPhi phiCopy 0 0 1 :=
  ⟨by decide, by decide, by rfl⟩

/-- The copy reads its destination's old value. -/
theorem phiCopy_overwrites :
    Situation 64 (fun _ => False) (· = 0) spilledPhi phiCopy 0 0 ∧
      ∃ out alloc', rewriteSyllable insertionOrder spilledPhi phiCopy 0 0 = .ok (out, alloc') ∧
        out = [spillLoad 2 (slotAt (spillAddress 4096) 0),
          ⟨.mov, some (.preg 2), [.reg (.preg 2)]⟩] ∧
        ¬Simulates 64 (fun _ => False) (· = 0) spilledPhi phiCopy out alloc' := by
  have situation : Situation 64 (fun _ => False) (· = 0) spilledPhi phiCopy 0 0 :=
    situation_copy (.inl rfl)
  refine ⟨situation, ?_⟩
  obtain ⟨out, alloc', done⟩ := exists_rewriteSyllable situation insertionOrder
  obtain ⟨srcs, read, preg, bound, sourcesDone, -⟩ := (rewriteSyllable_vreg rfl).mp done
  have unread : 0 ∉ phiCopy.sourceVregs := by decide
  obtain ⟨unassigned, slots⟩ := unread_of_rewriteValues sourcesDone unread rfl
  refine ⟨out, alloc', done, ?_, ?_⟩
  · have isOut : (rewriteSyllable insertionOrder spilledPhi phiCopy 0 0).map (·.1) =
        .ok [spillLoad 2 (slotAt (spillAddress 4096) 0),
          ⟨.mov, some (.preg 2), [.reg (.preg 2)]⟩] := rfl
    rw [done] at isOut
    exact Except.ok.inj isOut
  · exact not_simulates_of_overwritten situation rfl unread rfl done sourcesDone unassigned
      (slots.trans rfl) (by rintro ⟨⟩) lastRead_phiCopy

theorem rewriteSyllable_simulates_iff_freshCopy :
    Harmless (fun _ => False) (· = 0) spilledPhi freshCopy 0 0 ∧
      ∀ order out alloc', rewriteSyllable order spilledPhi freshCopy 0 0 = .ok (out, alloc') →
        Simulates 64 (fun _ => False) (· = 0) spilledPhi freshCopy out alloc' := by
  have harmless : Harmless (fun _ => False) (· = 0) spilledPhi freshCopy 0 0 := by
    refine ⟨?_, fun _ _ => False.elim⟩
    rintro - d v isDst - -
    obtain rfl : 2 = d := Option.some.inj isDst
    exact ⟨fun _ => rfl, fun assigned => absurd rfl assigned⟩
  exact ⟨harmless, (rewriteSyllable_simulates_iff (situation_copy (.inr rfl))).mpr harmless⟩

end VliwCompiler.Regalloc
