import VliwCompiler.Regalloc.Eviction
import VliwCompiler.Regalloc.Operation

/-!
# One rewritten syllable

Two things can go wrong when a syllable is rewritten.  A destination that has to
be loaded from its spill slot takes the register of a source that is read for
the last time, so the source is lost before it is read.  A predicate that is
taken out of its register is saved as if it were a word.  A syllable to which
neither can happen is simulated.
-/

namespace VliwCompiler.Regalloc

open Asm (Opcode I64)
open Mir (Reg Value Syllable execSyllables predicateSources)
open Allocator (allocatable)
open Machine

/-! ### Steps of the rewriting -/

theorem canFreeAfter_freeVreg (alloc : Allocator) (vreg v blockIdx pos : Nat) :
    (alloc.freeVreg vreg).canFreeAfter v blockIdx pos = alloc.canFreeAfter v blockIdx pos :=
  (sameTables_freeVreg alloc vreg).canFreeAfter v blockIdx pos

/-- Freed registers are put in front of the free list. -/
theorem free_freeSources (dstVreg : Option Nat) (blockIdx pos : Nat) (vregs : List Nat)
    (alloc : Allocator) (protectedVregs : List Nat) :
    ∃ freed, (freeSources dstVreg blockIdx pos (alloc, protectedVregs) vregs).1.free =
        freed ++ alloc.free ∧
      (∀ preg ∈ freed, ∃ v ∈ vregs, some v ≠ dstVreg ∧
        alloc.canFreeAfter v blockIdx pos = true ∧ alloc.assigned.lookup v = some preg) ∧
      ∀ v ∈ vregs, some v ≠ dstVreg → alloc.canFreeAfter v blockIdx pos = true →
        alloc.assigned.lookup v ≠ none → freed ≠ [] := by
  induction vregs generalizing alloc protectedVregs with
  | nil => exact ⟨[], rfl, by simp, by simp⟩
  | cons vreg vregs ih =>
      rw [freeSources]
      by_cases last : some vreg ≠ dstVreg ∧ alloc.canFreeAfter vreg blockIdx pos = true
      · rw [if_pos last]
        obtain ⟨freed, isFree, members, some⟩ :=
          ih (alloc.freeVreg vreg) (protectedVregs.filter (· ≠ vreg))
        simp only [canFreeAfter_freeVreg] at members some
        have members' : ∀ preg ∈ freed, ∃ v ∈ vreg :: vregs, Option.some v ≠ dstVreg ∧
            alloc.canFreeAfter v blockIdx pos = true ∧ alloc.assigned.lookup v = .some preg := by
          intro preg pregMem
          obtain ⟨v, vMem, notDst, canFree, bound⟩ := members preg pregMem
          rw [freeVreg_lookup] at bound
          split at bound
          · cases bound
          · exact ⟨v, List.mem_cons_of_mem _ vMem, notDst, canFree, bound⟩
        cases bound : alloc.assigned.lookup vreg with
        | none =>
            have same : alloc.freeVreg vreg = alloc := by
              unfold Allocator.freeVreg
              rw [bound]
            rw [same] at isFree some ⊢
            refine ⟨freed, isFree, members', fun v vMem notDst canFree isBound => ?_⟩
            rcases List.mem_cons.mp vMem with rfl | inRest
            · exact absurd bound isBound
            · exact some v inRest notDst canFree isBound
        | some preg =>
            have front : (alloc.freeVreg vreg).free = preg :: alloc.free := by
              unfold Allocator.freeVreg
              rw [bound]
            rw [front] at isFree
            refine ⟨freed ++ [preg], by rw [isFree]; simp, ?_, fun _ _ _ _ _ => by simp⟩
            intro p pMem
            rcases List.mem_append.mp pMem with inFreed | isLast
            · exact members' p inFreed
            · obtain rfl := List.mem_singleton.mp isLast
              exact ⟨vreg, List.mem_cons_self, last.1, last.2, bound⟩
      · rw [if_neg last]
        obtain ⟨freed, isFree, members, some⟩ := ih alloc protectedVregs
        refine ⟨freed, isFree, fun preg pregMem => ?_, fun v vMem notDst canFree => ?_⟩
        · obtain ⟨v, vMem, others⟩ := members preg pregMem
          exact ⟨v, List.mem_cons_of_mem _ vMem, others⟩
        · rcases List.mem_cons.mp vMem with rfl | inRest
          · exact absurd ⟨notDst, canFree⟩ last
          · exact some v inRest notDst canFree

theorem protected_freeSources {dstVreg : Option Nat} {blockIdx pos : Nat} {vregs : List Nat}
    {state : Allocator × List Nat} {v : Nat}
    (isProtected : v ∈ (freeSources dstVreg blockIdx pos state vregs).2) : v ∈ state.2 := by
  induction vregs generalizing state with
  | nil => exact isProtected
  | cons vreg vregs ih =>
      rw [freeSources] at isProtected
      split at isProtected
      · exact (List.mem_filter.mp (ih isProtected)).1
      · exact ih isProtected

theorem unassigned_freeSources {dstVreg : Option Nat} {blockIdx pos : Nat} {vregs : List Nat}
    {state : Allocator × List Nat} {t : Nat}
    (nowhere : state.1.assigned.lookup t = none ∧ state.1.spillSlots.lookup t = none) :
    (freeSources dstVreg blockIdx pos state vregs).1.assigned.lookup t = none ∧
      (freeSources dstVreg blockIdx pos state vregs).1.spillSlots.lookup t = none := by
  induction vregs generalizing state with
  | nil => exact nowhere
  | cons vreg vregs ih =>
      rw [freeSources]
      split
      · refine ih ⟨?_, ?_⟩
        · rw [freeVreg_lookup]
          split
          · rfl
          · exact nowhere.1
        · rw [freeVreg_spillSlots]
          exact nowhere.2
      · exact ih nowhere

section Parts

variable {order : HashOrder} {alloc alloc' : Allocator} {syllable : Syllable} {blockIdx pos : Nat}
  {out : List Syllable}

/-- The allocator after the sources that are read for the last time are freed,
and the registers that stay protected. -/
def afterSources (read : Allocator) (syllable : Syllable) (blockIdx pos : Nat) :
    Allocator × List Nat :=
  freeSources syllable.dstVreg blockIdx pos (read, syllable.sourceVregs) syllable.sourceVregs

/-- Rewriting a syllable whose destination is a virtual register. -/
theorem rewriteSyllable_vreg {d : Nat} (isDst : syllable.dstVreg = some d) :
    rewriteSyllable order alloc syllable blockIdx pos = .ok (out, alloc') ↔
      ∃ srcs read preg bound,
        rewriteValues order syllable.sourceVregs ⟨alloc, []⟩ syllable.srcs = .ok (srcs, read) ∧
        pregForVreg order d (afterSources read.alloc syllable blockIdx pos).2
          ⟨(afterSources read.alloc syllable blockIdx pos).1, read.inserted⟩ = .ok (preg, bound) ∧
        out = bound.inserted ++ [⟨syllable.opcode, some (.preg preg), srcs⟩] ∧
        alloc' = if bound.alloc.needsAfter d blockIdx pos then bound.alloc
          else bound.alloc.freeVreg d := by
  have choice : ∀ bound : Allocator, (if bound.needsAfter d blockIdx pos then bound
      else bound.freeVreg d) = if (!bound.hasLaterBlockUse d blockIdx pos &&
        !bound.isLiveOut d blockIdx) = true then bound.freeVreg d else bound := by
    intro bound
    unfold Allocator.needsAfter
    cases bound.hasLaterBlockUse d blockIdx pos <;> cases bound.isLiveOut d blockIdx <;> rfl
  unfold rewriteSyllable
  rw [bind_eq_ok]
  constructor
  · rintro ⟨⟨srcs, read⟩, sourcesDone, rest⟩
    obtain ⟨⟨dst, final⟩, dstDone, finished⟩ := bind_eq_ok.mp rest
    cases finished
    rw [Mir.Syllable.dstVreg_eq_some.mp isDst] at dstDone
    obtain ⟨⟨preg, bound⟩, bindDone, same⟩ := bind_eq_ok.mp dstDone
    cases same
    exact ⟨srcs, read, preg, bound, sourcesDone, bindDone, rfl, (choice bound.alloc).symm⟩
  · rintro ⟨srcs, read, preg, bound, sourcesDone, bindDone, rfl, rfl⟩
    refine ⟨(srcs, read), sourcesDone, bind_eq_ok.mpr
      ⟨(some (.preg preg), ⟨if bound.alloc.needsAfter d blockIdx pos then bound.alloc
        else bound.alloc.freeVreg d, bound.inserted⟩), ?_, rfl⟩⟩
    rw [Mir.Syllable.dstVreg_eq_some.mp isDst]
    refine bind_eq_ok.mpr ⟨(preg, bound), bindDone, ?_⟩
    rw [choice]
    rfl

/-- Rewriting a syllable without a virtual destination. -/
theorem rewriteSyllable_fixed (noVreg : syllable.dstVreg = none) :
    rewriteSyllable order alloc syllable blockIdx pos = .ok (out, alloc') ↔
      ∃ srcs read,
        rewriteValues order syllable.sourceVregs ⟨alloc, []⟩ syllable.srcs = .ok (srcs, read) ∧
        out = read.inserted ++ [⟨syllable.opcode, syllable.dst, srcs⟩] ∧
        alloc' = (afterSources read.alloc syllable blockIdx pos).1 := by
  have unchanged : ∀ protectedVregs work,
      rewriteDst order protectedVregs blockIdx pos work syllable.dst = .ok (syllable.dst, work) := by
    intro protectedVregs work
    unfold rewriteDst
    split
    · rename_i d same
      rw [Mir.Syllable.dstVreg_eq_some.mpr same] at noVreg
      cases noVreg
    · rfl
  unfold rewriteSyllable
  rw [bind_eq_ok]
  constructor
  · rintro ⟨⟨srcs, read⟩, sourcesDone, rest⟩
    dsimp only at rest
    rw [unchanged] at rest
    cases rest
    exact ⟨srcs, read, sourcesDone, rfl, rfl⟩
  · rintro ⟨srcs, read, sourcesDone, rfl, rfl⟩
    refine ⟨(srcs, read), sourcesDone, ?_⟩
    dsimp only
    rw [unchanged]
    rfl

end Parts

/-! ### The simulation -/

/-- The registers whose values a syllable needs, given those needed after it. -/
def LiveBefore (live : Nat → Prop) (syllable : Syllable) (v : Nat) : Prop :=
  v ∈ syllable.sourceVregs ∨ (live v ∧ syllable.dstVreg ≠ some v)

/-- A state of the allocator that has a place for every value a syllable
needs. -/
structure Situation (limit : Nat) (isPred live : Nat → Prop) (alloc : Allocator)
    (syllable : Syllable) (blockIdx pos : Nat) : Prop where
  small : limit ≤ 2 ^ 32
  pool : Pool limit alloc
  slotsFit : SlotsFit limit alloc.spillBase
  bounded : ∀ v ∈ syllable.sourceVregs, v < limit
  dstBounded : ∀ d, syllable.dstVreg = some d → d < limit
  few : syllable.sourceVregs.length < allocatable.length
  wellFormed : syllable.WellFormed
  typed : Typed isPred syllable
  fixed : FixedOutside syllable
  later : ∀ v, live v → alloc.needsAfter v blockIdx pos = true
  words : ∀ v, LiveBefore live syllable v → ¬isPred v → alloc.place v ≠ none
  flags : ∀ v, LiveBefore live syllable v → isPred v → alloc.assigned.lookup v ≠ none

/-- The code returned for a syllable simulates it: the operation reads the
values of the original operands, and all values needed afterwards are
represented.  A predicate can only be represented in a register. -/
structure Simulates (limit : Nat) (isPred live : Nat → Prop) (alloc : Allocator)
    (syllable : Syllable) (out : List Syllable) (alloc' : Allocator) : Prop where
  flags : ∀ v, live v → isPred v → alloc'.assigned.lookup v ≠ none
  steps : ∀ isa action state state', syllable.action = some action →
    Represents limit isPred (LiveBefore live syllable) alloc state state' →
    ∃ code operation mid action', out = code ++ [operation] ∧
      execSyllables isa code state' = some mid ∧ operation.action = some action' ∧
      action'.sources.map (·.read mid) = action.sources.map (·.read state) ∧
      (Action.Avoids (spillArea alloc.spillBase limit) action state →
        Represents limit isPred live alloc' (action.exec isa state) (action'.exec isa mid))

/-- Reading the sources takes a register away from another value. -/
def ReadingEvicts (alloc : Allocator) (syllable : Syllable) : Prop :=
  alloc.free.length < unbound alloc.assigned syllable.sourceVregs

/-- Finding a register for the destination takes one away. -/
structure WritingEvicts (alloc : Allocator) (syllable : Syllable) (blockIdx pos d : Nat) :
    Prop where
  unread : d ∉ syllable.sourceVregs
  unassigned : alloc.assigned.lookup d = none
  exhausted : alloc.free.length ≤ unbound alloc.assigned syllable.sourceVregs
  occupied : ∀ v, ¬LastRead alloc syllable blockIdx pos v

/-- The destination is not loaded from its slot when a source is read for the
last time, and no needed predicate can be taken out of its register. -/
structure Harmless (isPred live : Nat → Prop) (alloc : Allocator) (syllable : Syllable)
    (blockIdx pos : Nat) : Prop where
  reload : predicateSources syllable.opcode = false → ∀ d v, syllable.dstVreg = some d →
    d ∉ syllable.sourceVregs → LastRead alloc syllable blockIdx pos v →
    (alloc.assigned.lookup d = none → alloc.spillSlots.lookup d = none) ∧
      (alloc.assigned.lookup d ≠ none → ¬ReadingEvicts alloc syllable)
  flags : ∀ v, live v → isPred v → syllable.dstVreg ≠ some v → v ∉ syllable.sourceVregs →
    ¬ReadingEvicts alloc syllable ∧
      ∀ d, syllable.dstVreg = some d → ¬WritingEvicts alloc syllable blockIdx pos d

/-! ### Harmless syllables are simulated -/

theorem not_lastRead_of_needsAfter {alloc : Allocator} {syllable : Syllable} {blockIdx pos v : Nat}
    (needed : alloc.needsAfter v blockIdx pos = true) :
    ¬LastRead alloc syllable blockIdx pos v := by
  rintro ⟨-, -, canFree⟩
  simp only [Allocator.canFreeAfter, Bool.and_eq_true, decide_eq_true_eq,
    Bool.not_eq_eq_eq_not, Bool.not_true] at canFree
  simp [Allocator.needsAfter, Allocator.hasLaterBlockUse, canFree] at needed

@[simp]
theorem freeVreg_victims (alloc : Allocator) (vreg : Nat) :
    (alloc.freeVreg vreg).victims = alloc.victims := by
  unfold Allocator.freeVreg
  split <;> rfl

theorem freeSources_victims (dstVreg : Option Nat) (blockIdx pos : Nat) (vregs : List Nat)
    (state : Allocator × List Nat) :
    (freeSources dstVreg blockIdx pos state vregs).1.victims = state.1.victims := by
  induction vregs generalizing state with
  | nil => rfl
  | cons vreg vregs ih =>
      rw [freeSources]
      split
      · rw [ih, freeVreg_victims]
      · exact ih state

section Read

variable {order : HashOrder} {limit : Nat} {alloc : Allocator} {syllable : Syllable}
  (small : limit ≤ 2 ^ 32) (pool : Pool limit alloc)
  (bounded : ∀ v ∈ syllable.sourceVregs, v < limit) {srcs : List Value} {read : Work}
  (sourcesDone : rewriteValues order syllable.sourceVregs ⟨alloc, []⟩ syllable.srcs =
    .ok (srcs, read)) (blockIdx pos : Nat)

include small pool bounded sourcesDone

/-- What reading the sources and freeing the dead ones does. -/
theorem sourcesRead_of_pool :
    SourcesRead limit syllable.sourceVregs syllable.srcs srcs alloc read.alloc read.inserted ∧
      Freed limit (LastRead alloc syllable blockIdx pos) syllable.sourceVregs
        (afterSources read.alloc syllable blockIdx pos).2 read.alloc
        (afterSources read.alloc syllable blockIdx pos).1 := by
  obtain ⟨code, inserted, isRead⟩ := sourcesRead_of_rewriteValues small pool bounded
    (fun v isSource => isSource) sourcesDone
  rw [List.nil_append] at inserted
  have freed := freed_freeSources syllable.dstVreg blockIdx pos syllable.sourceVregs
    syllable.sourceVregs isRead.pool
  simp only [isRead.tables.canFreeAfter] at freed
  rw [inserted]
  exact ⟨isRead, freed⟩

/-- Registers freed after the sources are those of sources read for the last
time. -/
theorem free_afterSources :
    ∃ freed, (afterSources read.alloc syllable blockIdx pos).1.free = freed ++ read.alloc.free ∧
      (∀ preg ∈ freed, ∃ v, LastRead alloc syllable blockIdx pos v ∧
        read.alloc.binding v = preg) ∧
      ∀ v, LastRead alloc syllable blockIdx pos v → freed ≠ [] := by
  obtain ⟨isRead, -⟩ := sourcesRead_of_pool small pool bounded sourcesDone blockIdx pos
  obtain ⟨freed, isFree, members, some⟩ := free_freeSources syllable.dstVreg blockIdx pos
    syllable.sourceVregs read.alloc syllable.sourceVregs
  simp only [isRead.tables.canFreeAfter] at members some
  refine ⟨freed, isFree, fun preg pregMem => ?_, fun v isLast => ?_⟩
  · obtain ⟨v, isSource, notDst, canFree, bound⟩ := members preg pregMem
    exact ⟨v, ⟨isSource, notDst, canFree⟩, binding_eq bound⟩
  · obtain ⟨preg, bound⟩ := isRead.bound v isLast.1
    exact some v isLast.1 isLast.2.1 isLast.2.2 (by rw [bound]; exact Option.some_ne_none _)

/-- A destination that is not read stays in its register, if nothing is taken
away. -/
theorem lookup_dst_afterSources {d : Nat} (isDst : syllable.dstVreg = some d) :
    (afterSources read.alloc syllable blockIdx pos).1.assigned.lookup d =
      read.alloc.assigned.lookup d := by
  obtain ⟨-, freed⟩ := sourcesRead_of_pool small pool bounded sourcesDone blockIdx pos
  exact freed.lookup_eq fun isLast => isLast.2.1 isDst.symm

omit small pool bounded in
theorem victims_of_not_readingEvicts (quiet : ¬ReadingEvicts alloc syllable) :
    read.alloc.victims = alloc.victims ∧
      read.alloc.free.length + unbound alloc.assigned syllable.sourceVregs = alloc.free.length :=
  quiet_of_rewriteValues sourcesDone (Nat.le_of_not_lt quiet)

end Read

theorem spills_eq_of_victims {alloc alloc' : Allocator} (same : alloc'.victims = alloc.victims)
    (v : Nat) : alloc'.spills v = alloc.spills v := by
  unfold Allocator.spills
  rw [same]

/-- Without a shortage no register is taken away. -/
theorem victims_of_rewriteSyllable {order : HashOrder} {limit : Nat} {alloc alloc' : Allocator}
    {syllable : Syllable} {blockIdx pos : Nat} {out : List Syllable} (small : limit ≤ 2 ^ 32)
    (pool : Pool limit alloc) (bounded : ∀ v ∈ syllable.sourceVregs, v < limit)
    (done : rewriteSyllable order alloc syllable blockIdx pos = .ok (out, alloc'))
    (reading : ¬ReadingEvicts alloc syllable)
    (writing : ∀ d, syllable.dstVreg = some d → ¬WritingEvicts alloc syllable blockIdx pos d) :
    alloc'.victims = alloc.victims := by
  cases isDst : syllable.dstVreg with
  | none =>
      obtain ⟨srcs, read, sourcesDone, -, rfl⟩ := (rewriteSyllable_fixed isDst).mp done
      rw [afterSources, freeSources_victims]
      exact (victims_of_not_readingEvicts sourcesDone reading).1
  | some d =>
      obtain ⟨srcs, read, preg, bound, sourcesDone, bindDone, -, rfl⟩ :=
        (rewriteSyllable_vreg isDst).mp done
      obtain ⟨sameVictims, count⟩ := victims_of_not_readingEvicts sourcesDone reading
      have freedVictims : (afterSources read.alloc syllable blockIdx pos).1.victims =
          alloc.victims := by
        rw [afterSources, freeSources_victims, sameVictims]
      have boundVictims : bound.alloc.victims = alloc.victims := by
        rcases pregForVreg_cases bindDone with ⟨-, rfl⟩ | ⟨unassigned, next, code, found, rfl⟩
        · exact freedVictims
        · rcases found with ⟨rest, -, rfl, -⟩ | ⟨empty, -⟩
          · exact freedVictims
          · exfalso
            obtain ⟨isRead, -⟩ := sourcesRead_of_pool small pool bounded sourcesDone blockIdx pos
            obtain ⟨freed, isFree, -, some⟩ := free_afterSources small pool bounded sourcesDone blockIdx pos
            dsimp only at empty unassigned
            rw [isFree, List.append_eq_nil_iff] at empty
            rw [lookup_dst_afterSources small pool bounded sourcesDone blockIdx pos isDst] at unassigned
            refine writing d isDst ⟨?_, ?_, ?_, fun v isLast => some v isLast empty.1⟩
            · intro isSource
              obtain ⟨other, isBound⟩ := isRead.bound d isSource
              rw [isBound] at unassigned
              cases unassigned
            · cases before : alloc.assigned.lookup d with
              | none => rfl
              | some other =>
                  rw [isRead.kept (.inr (spills_eq_of_victims sameVictims d)) before] at unassigned
                  cases unassigned
            · rw [empty.2, List.length_nil] at count
              omega
      split
      · exact boundVictims
      · rw [freeVreg_victims]
        exact boundVictims

section Enough

variable {order : HashOrder} {limit : Nat} {isPred live : Nat → Prop} {alloc alloc' : Allocator}
  {syllable : Syllable} {blockIdx pos : Nat} {out : List Syllable}
  (situation : Situation limit isPred live alloc syllable blockIdx pos)

include situation

theorem keepsSources_of_harmless (harmless : Harmless isPred live alloc syllable blockIdx pos)
    (words : predicateSources syllable.opcode = false) :
    KeepsSources order alloc syllable blockIdx pos := by
  intro srcs read sourcesDone d isDst unassigned isSlot v isLast
  obtain ⟨isRead, -⟩ := sourcesRead_of_pool situation.small situation.pool
    situation.bounded sourcesDone blockIdx pos
  have unread : d ∉ syllable.sourceVregs := by
    intro isSource
    obtain ⟨preg, bound⟩ := isRead.bound d isSource
    rw [bound] at unassigned
    cases unassigned
  obtain ⟨noSlot, quiet⟩ := harmless.reload words d v isDst unread isLast
  by_cases before : alloc.assigned.lookup d = none
  · rw [(unread_of_rewriteValues sourcesDone unread before).2] at isSlot
    exact isSlot (noSlot before)
  · obtain ⟨preg, bound⟩ := Option.ne_none_iff_exists'.mp before
    have sameVictims := (victims_of_not_readingEvicts sourcesDone (quiet before)).1
    rw [isRead.kept (.inr (spills_eq_of_victims sameVictims d)) bound] at unassigned
    cases unassigned

theorem simulates_of_harmless (harmless : Harmless isPred live alloc syllable blockIdx pos)
    (done : rewriteSyllable order alloc syllable blockIdx pos = .ok (out, alloc')) :
    Simulates limit isPred live alloc syllable out alloc' := by
  obtain ⟨code, rename, dst, rfl, rewritten⟩ := rewritten_of_rewriteSyllable situation.small
    situation.pool situation.bounded situation.dstBounded done
  have alive : ∀ v, live v → ¬LastRead alloc syllable blockIdx pos v := fun v isLive =>
    not_lastRead_of_needsAfter (situation.later v isLive)
  have flags : ∀ v, live v → isPred v → alloc'.assigned.lookup v ≠ none := by
    intro v isLive isFlag
    by_cases isDst : syllable.dstVreg = some v
    · obtain ⟨preg, -, -, -, bound, -⟩ := rewritten.vregDst v isDst
      rw [bound, if_pos (situation.later v isLive)]
      exact Option.some_ne_none _
    · by_cases isSource : v ∈ syllable.sourceVregs
      · rw [rewritten.held v isSource isDst (alive v isLive)]
        exact Option.some_ne_none _
      · obtain ⟨reading, writing⟩ := harmless.flags v isLive isFlag isDst isSource
        have sameVictims := victims_of_rewriteSyllable situation.small situation.pool
          situation.bounded done reading writing
        obtain ⟨preg, bound⟩ := Option.ne_none_iff_exists'.mp
          (situation.flags v (.inr ⟨isLive, isDst⟩) isFlag)
        rw [rewritten.unspilled (spills_eq_of_victims sameVictims v) isDst (alive v isLive) bound]
        exact Option.some_ne_none _
  have demand : Demand isPred (LiveBefore live syllable) live alloc alloc' syllable blockIdx pos :=
    { reads := fun v isSource => .inl isSource
      through := fun v isLive isOther => .inr ⟨isLive, isOther⟩
      alive := alive
      dst := fun d _ isLive => situation.later d isLive
      flags := fun v isLive isFlag _ => flags v isLive isFlag }
  refine ⟨flags, fun isa action state state' denotes represents => ?_⟩
  obtain ⟨mid, action', executed, isAction, operands, simulated⟩ := simulates_step isa rewritten
    represents (keepsSources_of_harmless situation harmless) situation.typed situation.fixed
    situation.wellFormed denotes demand
  exact ⟨code, _, mid, action', rfl, executed, isAction, operands, simulated⟩

end Enough

end VliwCompiler.Regalloc
