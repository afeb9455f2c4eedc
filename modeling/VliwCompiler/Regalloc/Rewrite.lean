import VliwCompiler.Regalloc.Values

/-!
# Rewriting one syllable

The syllables returned for one syllable first bring its sources into registers
and make room for its destination, then perform the operation on physical
registers.  All values that are still needed are kept.
-/

namespace VliwCompiler.Regalloc

open Asm (Opcode I64)
open Mir (Reg Value Syllable Terminator execSyllables)
open Allocator (allocatable)
open Machine

/-! ### Sources -/

/-- An operand with its virtual register replaced. -/
def renameValue (rename : Nat → UInt8) : Value → Value
  | .reg (.vreg v) => .reg (.preg (rename v))
  | value => value

/-- The physical register a virtual one is bound to. -/
def Allocator.binding (alloc : Allocator) (v : Nat) : UInt8 := (alloc.assigned.lookup v).getD 0

theorem binding_eq {alloc : Allocator} {v : Nat} {preg : UInt8}
    (bound : alloc.assigned.lookup v = some preg) : alloc.binding v = preg := by
  simp [Allocator.binding, bound]

/-- The parts of the allocator that never change. -/
structure SameTables (alloc alloc' : Allocator) : Prop where
  lastUses : alloc'.lastUses = alloc.lastUses
  liveOut : alloc'.liveOut = alloc.liveOut
  spillBase : alloc'.spillBase = alloc.spillBase

theorem SameTables.refl (alloc : Allocator) : SameTables alloc alloc := ⟨rfl, rfl, rfl⟩

theorem SameTables.trans {first second third : Allocator} (left : SameTables first second)
    (right : SameTables second third) : SameTables first third :=
  ⟨right.lastUses.trans left.lastUses, right.liveOut.trans left.liveOut,
    right.spillBase.trans left.spillBase⟩

theorem SameTables.canFreeAfter {alloc alloc' : Allocator} (same : SameTables alloc alloc')
    (v blockIdx pos : Nat) :
    alloc'.canFreeAfter v blockIdx pos = alloc.canFreeAfter v blockIdx pos := by
  unfold Allocator.canFreeAfter Allocator.lastUse Allocator.isLiveOut
  rw [same.lastUses, same.liveOut]

theorem Carried.trans {limit : Nat} {first second third : Allocator} {a b c : State Reg}
    (same : second.spillBase = first.spillBase) (left : Carried limit first second a b)
    (right : Carried limit second third b c) : Carried limit first third a c where
  words := fun isWord => right.words (left.words isWord)
  gpr := fun reg outside => (right.gpr reg outside).trans (left.gpr reg outside)
  pred := right.pred.trans left.pred
  mem := fun cell outside =>
    (right.mem cell (by rwa [same])).trans (left.mem cell outside)

/-- The operands are in registers, and values are kept. -/
structure SourcesRead (limit : Nat) (protectedVregs : List Nat) (values values' : List Value)
    (alloc alloc' : Allocator) (code : List Syllable) : Prop where
  pool : Pool limit alloc'
  tables : SameTables alloc alloc'
  renamed : values' = values.map (renameValue alloc'.binding)
  bound : ∀ v ∈ values.filterMap Value.vreg?, ∃ preg, alloc'.assigned.lookup v = some preg
  old : ∀ {v preg}, v ∉ values.filterMap Value.vreg? → alloc'.assigned.lookup v = some preg →
    alloc.assigned.lookup v = some preg
  kept : ∀ {v preg}, v ∈ protectedVregs ∨ alloc'.spills v = alloc.spills v →
    alloc.assigned.lookup v = some preg → alloc'.assigned.lookup v = some preg
  spills : ∀ v, alloc.spills v ≤ alloc'.spills v
  slots : ∀ {v slot}, alloc.spillSlots.lookup v = some slot →
    alloc'.spillSlots.lookup v = some slot
  sameSlots : ∀ {v}, alloc'.spills v = alloc.spills v →
    alloc'.spillSlots.lookup v = alloc.spillSlots.lookup v
  spillCode : ∀ syllable ∈ code, IsSpill alloc.spillBase limit syllable
  exec : ∀ isa state, ∃ state', execSyllables isa code state = some state' ∧
    Carried limit alloc alloc' state state' ∧
    ∀ reg, (∀ v ∈ values.filterMap Value.vreg?, alloc.assigned.lookup v = none →
      reg ≠ .preg (alloc'.binding v)) → state'.gpr reg = state.gpr reg

theorem Carried.refl (limit : Nat) (alloc : Allocator) (state : State Reg) :
    Carried limit alloc alloc state state :=
  ⟨id, fun _ _ => rfl, rfl, fun _ _ => rfl⟩

theorem sourcesRead_of_rewriteValues {order : HashOrder} {limit : Nat} (small : limit ≤ 2 ^ 32)
    {protectedVregs : List Nat} {values values' : List Value} {work work' : Work}
    (pool : Pool limit work.alloc)
    (bounded : ∀ v ∈ values.filterMap Value.vreg?, v < limit)
    (safe : ∀ v ∈ values.filterMap Value.vreg?, v ∈ protectedVregs)
    (done : rewriteValues order protectedVregs work values = .ok (values', work')) :
    ∃ code, work'.inserted = work.inserted ++ code ∧
      SourcesRead limit protectedVregs values values' work.alloc work'.alloc code := by
  induction values generalizing values' work with
  | nil =>
      cases done
      exact ⟨[], by simp,
        { pool := pool
          tables := .refl _
          renamed := rfl
          bound := by simp
          old := fun _ => id
          kept := fun _ => id
          spills := fun _ => Nat.le_refl _
          slots := id
          sameSlots := fun _ => rfl
          spillCode := by simp
          exec := fun isa state => ⟨state, rfl, .refl _ _ _, fun _ _ => rfl⟩ }⟩
  | cons value values ih =>
      obtain ⟨⟨first, middle⟩, head, rest⟩ := bind_eq_ok.mp done
      obtain ⟨⟨others, final⟩, tail, finished⟩ := bind_eq_ok.mp rest
      cases finished
      by_cases isVreg : ∃ v, value = .reg (.vreg v)
      · obtain ⟨v, rfl⟩ := isVreg
        have expanded : (Value.reg (.vreg v) :: values).filterMap Value.vreg? =
            v :: values.filterMap Value.vreg? := rfl
        rw [expanded] at bounded safe
        obtain ⟨vSmall, othersSmall⟩ := List.forall_mem_cons.mp bounded
        obtain ⟨vSafe, othersSafe⟩ := List.forall_mem_cons.mp safe
        obtain ⟨⟨preg, afterBind⟩, bindDone, same⟩ := bind_eq_ok.mp head
        cases same
        obtain ⟨code, inserted, isBound⟩ := bound_of_pregForVreg small pool vSmall bindDone
        obtain ⟨code', inserted', read⟩ := ih isBound.pool othersSmall othersSafe tail
        have stays := read.kept (.inl vSafe) isBound.bound
        refine ⟨code ++ code', by rw [inserted', inserted, List.append_assoc],
          { pool := read.pool
            tables := ?_
            renamed := ?_
            bound := ?_
            old := ?_
            kept := ?_
            spills := fun w => (isBound.spills w).trans (read.spills w)
            slots := ?_
            sameSlots := ?_
            spillCode := ?_
            exec := ?_ }⟩
        · exact .trans ⟨isBound.lastUses, isBound.liveOut, isBound.spillBase⟩ read.tables
        · rw [List.map_cons, ← read.renamed, renameValue, binding_eq stays]
        · rw [expanded]
          exact List.forall_mem_cons.mpr ⟨⟨preg, stays⟩, read.bound⟩
        · intro w p notMem found
          rw [expanded, List.mem_cons, not_or] at notMem
          exact isBound.old notMem.1 (read.old notMem.2 found)
        · intro w p isSafe found
          have first := isBound.spills w
          have second := read.spills w
          have isSafe' : w ∈ protectedVregs ∨ middle.alloc.spills w = work.alloc.spills w :=
            isSafe.imp_right fun same => by omega
          have isSafe'' : w ∈ protectedVregs ∨ work'.alloc.spills w = middle.alloc.spills w :=
            isSafe.imp_right fun same => by omega
          exact read.kept isSafe'' (isBound.kept isSafe' found)
        · exact fun found => read.slots (isBound.slots found)
        · intro w same
          have first := isBound.spills w
          have second := read.spills w
          rw [read.sameSlots (by omega), isBound.sameSlots (by omega)]
        · have later := read.spillCode
          rw [isBound.spillBase] at later
          exact List.forall_mem_append.mpr ⟨isBound.spillCode, later⟩
        · intro isa state
          obtain ⟨next, executed, carried, frame, quiet⟩ := isBound.exec isa state
          obtain ⟨final, executed', carried', frame'⟩ := read.exec isa next
          refine ⟨final, ?_, carried.trans isBound.spillBase carried', ?_⟩
          · rw [Mir.execSyllables_append, executed, Option.bind_some, executed']
          · intro reg untouched
            rw [expanded, List.forall_mem_cons] at untouched
            have later : final.gpr reg = next.gpr reg := by
              refine frame' reg fun w isSource unbound => untouched.2 w isSource ?_
              cases before : work.alloc.assigned.lookup w with
              | none => rfl
              | some p =>
                  rw [isBound.kept (.inl (othersSafe w isSource)) before] at unbound
                  cases unbound
            rw [later]
            by_cases already : work.alloc.assigned.lookup v = none
            · refine frame reg ?_
              rw [← binding_eq stays]
              exact untouched.1 already
            · rw [quiet (.inl already)]
      · have noVreg : value.vreg? = none := by
          cases found : value.vreg? with
          | none => rfl
          | some v => exact absurd ⟨v, Value.vreg?_eq_some.mp found⟩ isVreg
        have unchanged : rewriteValue order protectedVregs work value = .ok (value, work) := by
          unfold rewriteValue
          split
          · rename_i v
            exact absurd ⟨v, rfl⟩ isVreg
          · rfl
        rw [unchanged] at head
        cases head
        have expanded : (value :: values).filterMap Value.vreg? = values.filterMap Value.vreg? :=
          List.filterMap_cons_none noVreg
        rw [expanded] at bounded safe
        obtain ⟨code, inserted, read⟩ := ih pool bounded safe tail
        refine ⟨code, inserted,
          { pool := read.pool
            tables := read.tables
            renamed := ?_
            bound := by
              rw [expanded]
              exact read.bound
            old := by
              rw [expanded]
              exact read.old
            kept := read.kept
            spills := read.spills
            slots := read.slots
            sameSlots := read.sameSlots
            spillCode := read.spillCode
            exec := by
              rw [expanded]
              exact read.exec }⟩
        rw [List.map_cons, ← read.renamed]
        congr 1
        unfold renameValue
        split
        · rename_i v
          exact absurd ⟨v, rfl⟩ isVreg
        · rfl

/-! ### Freeing -/

theorem freeVreg_lookup (alloc : Allocator) (vreg v : Nat) :
    (alloc.freeVreg vreg).assigned.lookup v =
      if v = vreg then none else alloc.assigned.lookup v := by
  unfold Allocator.freeVreg
  cases bound : alloc.assigned.lookup vreg with
  | none =>
      by_cases same : v = vreg
      · rw [if_pos same, same, bound]
      · rw [if_neg same]
  | some preg =>
      by_cases same : v = vreg
      · rw [if_pos same, same, AList.lookup_erase]
      · rw [if_neg same, AList.lookup_erase_ne same]

theorem freeVreg_spillSlots (alloc : Allocator) (vreg : Nat) :
    (alloc.freeVreg vreg).spillSlots = alloc.spillSlots := by
  unfold Allocator.freeVreg
  split <;> rfl

theorem freeVreg_place (alloc : Allocator) {vreg v : Nat} (different : v ≠ vreg) :
    (alloc.freeVreg vreg).place v = alloc.place v :=
  place_congr (by rw [freeVreg_lookup, if_neg different]) (by rw [freeVreg_spillSlots])

theorem sameTables_freeVreg (alloc : Allocator) (vreg : Nat) :
    SameTables alloc (alloc.freeVreg vreg) := by
  unfold Allocator.freeVreg
  split <;> exact ⟨rfl, rfl, rfl⟩

@[simp]
theorem freeVreg_spills (alloc : Allocator) (vreg v : Nat) :
    (alloc.freeVreg vreg).spills v = alloc.spills v := by
  unfold Allocator.freeVreg
  split <;> rfl

theorem mem_free_freeVreg {alloc : Allocator} {vreg : Nat} {preg : UInt8}
    (isFree : preg ∈ (alloc.freeVreg vreg).free) :
    preg ∈ alloc.free ∨ alloc.assigned.lookup vreg = some preg := by
  unfold Allocator.freeVreg at isFree
  cases bound : alloc.assigned.lookup vreg with
  | none =>
      rw [bound] at isFree
      exact .inl isFree
  | some other =>
      rw [bound] at isFree
      rcases List.mem_cons.mp isFree with rfl | inOld
      · exact .inr rfl
      · exact .inl inOld

/-- Registers that hold nothing needed any more were freed. -/
structure Freed (limit : Nat) (dead : Nat → Prop) (protectedVregs protectedVregs' : List Nat)
    (alloc alloc' : Allocator) : Prop where
  pool : Pool limit alloc'
  tables : SameTables alloc alloc'
  lookup : ∀ {v preg}, alloc'.assigned.lookup v = some preg ↔
    alloc.assigned.lookup v = some preg ∧ ¬dead v
  slots : alloc'.spillSlots = alloc.spillSlots
  spills : ∀ v, alloc'.spills v = alloc.spills v
  stillProtected : ∀ v ∈ protectedVregs, ¬dead v → v ∈ protectedVregs'
  free : ∀ preg ∈ alloc'.free, preg ∈ alloc.free ∨
    ∃ v, dead v ∧ alloc.assigned.lookup v = some preg

theorem freed_freeSources {limit : Nat} (dstVreg : Option Nat) (blockIdx pos : Nat)
    (vregs : List Nat) {alloc : Allocator} (protectedVregs : List Nat) (pool : Pool limit alloc) :
    Freed limit (fun v => v ∈ vregs ∧ some v ≠ dstVreg ∧
        alloc.canFreeAfter v blockIdx pos = true) protectedVregs
      (freeSources dstVreg blockIdx pos (alloc, protectedVregs) vregs).2 alloc
      (freeSources dstVreg blockIdx pos (alloc, protectedVregs) vregs).1 := by
  induction vregs generalizing alloc protectedVregs with
  | nil =>
      exact
        { pool := pool
          tables := .refl _
          lookup := by simp [freeSources]
          slots := rfl
          spills := fun _ => rfl
          stillProtected := fun _ isProtected _ => isProtected
          free := fun _ => .inl }
  | cons vreg vregs ih =>
      rw [freeSources]
      by_cases last : some vreg ≠ dstVreg ∧ alloc.canFreeAfter vreg blockIdx pos = true
      · rw [if_pos last]
        have tables := sameTables_freeVreg alloc vreg
        have rest := ih (protectedVregs.filter (· ≠ vreg)) (pool.freeVreg vreg)
        simp only [tables.canFreeAfter] at rest
        exact
          { pool := rest.pool
            tables := tables.trans rest.tables
            lookup := by
              intro v preg
              rw [rest.lookup, freeVreg_lookup]
              by_cases same : v = vreg
              · subst same
                simp [last]
              · simp [same]
            slots := rest.slots.trans (freeVreg_spillSlots alloc vreg)
            spills := fun v => (rest.spills v).trans (freeVreg_spills alloc vreg v)
            stillProtected := by
              intro v isProtected alive
              by_cases same : v = vreg
              · subst same
                exact absurd ⟨List.mem_cons_self, last⟩ alive
              · refine rest.stillProtected v (by simp [isProtected, same]) ?_
                rintro ⟨inRest, others⟩
                exact alive ⟨List.mem_cons_of_mem _ inRest, others⟩
            free := by
              intro preg isFree
              rcases rest.free preg isFree with inFreed | ⟨v, ⟨inRest, others⟩, bound⟩
              · rcases mem_free_freeVreg inFreed with inOld | bound
                · exact .inl inOld
                · exact .inr ⟨vreg, ⟨List.mem_cons_self, last⟩, bound⟩
              · rw [freeVreg_lookup] at bound
                split at bound
                · cases bound
                · exact .inr ⟨v, ⟨List.mem_cons_of_mem _ inRest, others⟩, bound⟩ }
      · rw [if_neg last]
        have rest := ih protectedVregs pool
        have dead : ∀ v, (v ∈ vreg :: vregs ∧ some v ≠ dstVreg ∧
            alloc.canFreeAfter v blockIdx pos = true) ↔ (v ∈ vregs ∧ some v ≠ dstVreg ∧
            alloc.canFreeAfter v blockIdx pos = true) := by
          intro v
          constructor
          · rintro ⟨isMem, others⟩
            rcases List.mem_cons.mp isMem with rfl | inRest
            · exact absurd others last
            · exact ⟨inRest, others⟩
          · exact fun ⟨inRest, others⟩ => ⟨List.mem_cons_of_mem _ inRest, others⟩
        simp only [dead]
        exact rest

/-! ### The whole syllable -/

/-- The syllable reads the register for the last time. -/
def LastRead (alloc : Allocator) (syllable : Syllable) (blockIdx pos v : Nat) : Prop :=
  v ∈ syllable.sourceVregs ∧ some v ≠ syllable.dstVreg ∧ alloc.canFreeAfter v blockIdx pos = true

/-- The value of the register is needed after the position. -/
def Allocator.needsAfter (alloc : Allocator) (v blockIdx pos : Nat) : Bool :=
  alloc.hasLaterBlockUse v blockIdx pos || alloc.isLiveOut v blockIdx

/-- When the destination has to be loaded from its spill slot, no source is
freed first: the freed register would be the one that is loaded. -/
def KeepsSources (order : HashOrder) (alloc : Allocator) (syllable : Syllable)
    (blockIdx pos : Nat) : Prop :=
  ∀ srcs work, rewriteValues order syllable.sourceVregs ⟨alloc, []⟩ syllable.srcs =
      .ok (srcs, work) →
    ∀ d, syllable.dstVreg = some d → work.alloc.assigned.lookup d = none →
      work.alloc.spillSlots.lookup d ≠ none → ∀ v, ¬LastRead alloc syllable blockIdx pos v

/-- What the syllables `code ++ [op]` returned for a syllable do.  The sources are
in their registers if `keeps` holds. -/
structure Rewritten (keeps : Prop) (limit : Nat) (alloc : Allocator) (syllable : Syllable)
    (blockIdx pos : Nat) (code : List Syllable) (rename : Nat → UInt8) (dst : Option Reg)
    (alloc' : Allocator) : Prop where
  pool : Pool limit alloc'
  tables : SameTables alloc alloc'
  spills : ∀ v, alloc.spills v ≤ alloc'.spills v
  sources : ∀ v ∈ syllable.sourceVregs, rename v ∈ allocatable ∧
    ∀ preg, alloc.assigned.lookup v = some preg → rename v = preg
  held : ∀ v ∈ syllable.sourceVregs, syllable.dstVreg ≠ some v →
    ¬LastRead alloc syllable blockIdx pos v → alloc'.assigned.lookup v = some (rename v)
  fixedDst : syllable.dstVreg = none → dst = syllable.dst
  vregDst : ∀ d, syllable.dstVreg = some d → ∃ preg ∈ allocatable, dst = some (.preg preg) ∧
    (∀ v, v ≠ d → alloc'.assigned.lookup v ≠ some preg) ∧
    alloc'.assigned.lookup d = (if alloc.needsAfter d blockIdx pos then some preg else none) ∧
    (alloc'.spills d = alloc.spills d → ∀ p, alloc.assigned.lookup d = some p → p = preg)
  stays : ∀ {v p q}, syllable.dstVreg ≠ some v → alloc.assigned.lookup v = some p →
    alloc'.assigned.lookup v = some q → q = p
  unspilled : ∀ {v p}, alloc'.spills v = alloc.spills v → syllable.dstVreg ≠ some v →
    ¬LastRead alloc syllable blockIdx pos v → alloc.assigned.lookup v = some p →
      alloc'.assigned.lookup v = some p
  old : ∀ {v q}, syllable.dstVreg ≠ some v → v ∉ syllable.sourceVregs →
    alloc'.assigned.lookup v = some q → alloc.assigned.lookup v = some q
  slots : ∀ {v slot}, alloc.spillSlots.lookup v = some slot →
    alloc'.spillSlots.lookup v = some slot
  sameSlots : ∀ {v}, alloc'.spills v = alloc.spills v →
    alloc'.spillSlots.lookup v = alloc.spillSlots.lookup v
  spillCode : ∀ inserted ∈ code, IsSpill alloc.spillBase limit inserted
  exec : ∀ isa state, ∃ mid, execSyllables isa code state = some mid ∧
    (∀ reg, (∀ v ∈ syllable.sourceVregs, alloc.assigned.lookup v = none →
      reg ≠ .preg (rename v)) → (syllable.dstVreg ≠ none → dst ≠ some reg) →
      mid.gpr reg = state.gpr reg) ∧
    (∀ reg, (∀ preg ∈ allocatable, reg ≠ .preg preg) → mid.gpr reg = state.gpr reg) ∧
    mid.pred = state.pred ∧
    (∀ cell ∉ spillArea alloc.spillBase limit, mid.mem cell = state.mem cell) ∧
    (keeps → ∀ v ∈ syllable.sourceVregs, ∀ word, alloc.word? state v = some word →
      mid.gpr (.preg (rename v)) = word) ∧
    ∀ v word, syllable.dstVreg ≠ some v → ¬LastRead alloc syllable blockIdx pos v →
      alloc.word? state v = some word → alloc'.word? mid v = some word

theorem word?_congr {alloc alloc' : Allocator} {v : Nat}
    (sameBinding : alloc'.assigned.lookup v = alloc.assigned.lookup v)
    (sameSlot : alloc'.spillSlots.lookup v = alloc.spillSlots.lookup v) (state : State Reg) :
    alloc'.word? state v = alloc.word? state v := by
  unfold Allocator.word?
  rw [sameBinding, sameSlot]

/-- A value that is still needed has a place afterwards. -/
theorem Rewritten.placed {keeps : Prop} {limit : Nat} {alloc alloc' : Allocator} {syllable : Syllable}
    {blockIdx pos : Nat} {code : List Syllable} {rename : Nat → UInt8} {dst : Option Reg}
    (rewritten : Rewritten keeps limit alloc syllable blockIdx pos code rename dst alloc') {v : Nat}
    (isOther : syllable.dstVreg ≠ some v) (alive : ¬LastRead alloc syllable blockIdx pos v)
    (placed : alloc.place v ≠ none) : alloc'.place v ≠ none := by
  obtain ⟨mid, -, -, -, -, -, -, words⟩ := rewritten.exec default default
  obtain ⟨word, isWord⟩ := exists_word default placed
  exact place_ne_none (words v word isOther alive isWord)

theorem Freed.lookup_eq {limit : Nat} {dead : Nat → Prop} {before after : List Nat}
    {alloc alloc' : Allocator} (freed : Freed limit dead before after alloc alloc') {v : Nat}
    (alive : ¬dead v) : alloc'.assigned.lookup v = alloc.assigned.lookup v := by
  cases bound : alloc.assigned.lookup v with
  | some preg => exact freed.lookup.mpr ⟨bound, alive⟩
  | none =>
      cases bound' : alloc'.assigned.lookup v with
      | none => rfl
      | some preg =>
          rw [(freed.lookup.mp bound').1] at bound
          cases bound

section Assembly

variable {limit : Nat} {alloc read : Allocator} {syllable : Syllable} {blockIdx pos : Nat}
  {srcs : List Value} {code : List Syllable} {freedAlloc : Allocator} {protectedVregs : List Nat}
  (isRead : SourcesRead limit syllable.sourceVregs syllable.srcs srcs alloc read code)
  (freed : Freed limit (LastRead alloc syllable blockIdx pos) syllable.sourceVregs protectedVregs
    read freedAlloc)

include freed in
/-- A value that survives the sources of a syllable. -/
theorem words_freed {state mid : State Reg} (carried : Carried limit alloc read state mid) {v : Nat}
    {word : Word} (alive : ¬LastRead alloc syllable blockIdx pos v)
    (isWord : alloc.word? state v = some word) : freedAlloc.word? mid v = some word := by
  rw [word?_congr (freed.lookup_eq alive) (by rw [freed.slots])]
  exact carried.words isWord

include isRead in
/-- The value of a source is in its register. -/
theorem source_word {state mid : State Reg} (carried : Carried limit alloc read state mid) {v : Nat}
    {word : Word} (isSource : v ∈ syllable.sourceVregs) (isWord : alloc.word? state v = some word) :
    mid.gpr (.preg (read.binding v)) = word := by
  obtain ⟨preg, bound⟩ := isRead.bound v isSource
  have kept := carried.words isWord
  rw [word?_of_assigned mid bound] at kept
  rw [binding_eq bound]
  exact Option.some.inj kept

include isRead in
theorem binding_source {v : Nat} (isSource : v ∈ syllable.sourceVregs) :
    read.binding v ∈ allocatable ∧
      ∀ preg, alloc.assigned.lookup v = some preg → read.binding v = preg := by
  obtain ⟨preg, bound⟩ := isRead.bound v isSource
  refine ⟨?_, fun other found => binding_eq (isRead.kept (.inl isSource) found)⟩
  rw [binding_eq bound]
  exact isRead.pool.range bound

include isRead freed

/-- A source that is not freed stays in its register. -/
theorem held_freed {v : Nat} (isSource : v ∈ syllable.sourceVregs)
    (alive : ¬LastRead alloc syllable blockIdx pos v) :
    freedAlloc.assigned.lookup v = some (read.binding v) := by
  obtain ⟨preg, bound⟩ := isRead.bound v isSource
  rw [binding_eq bound]
  exact freed.lookup.mpr ⟨bound, alive⟩

theorem stays_freed {v : Nat} {p q : UInt8} (before : alloc.assigned.lookup v = some p)
    (after : freedAlloc.assigned.lookup v = some q) : q = p := by
  have inRead := (freed.lookup.mp after).1
  by_cases isSource : v ∈ syllable.sourceVregs
  · rw [isRead.kept (.inl isSource) before] at inRead
    exact (Option.some.inj inRead).symm
  · rw [isRead.old isSource inRead] at before
    exact Option.some.inj before

/-- A syllable whose destination is no virtual register. -/
theorem rewritten_fixed (keeps : Prop) (fixed : syllable.dstVreg = none) :
    Rewritten keeps limit alloc syllable blockIdx pos code read.binding syllable.dst freedAlloc where
  pool := freed.pool
  tables := isRead.tables.trans freed.tables
  spills := by
    intro v
    rw [freed.spills]
    exact isRead.spills v
  sources := fun v isSource => binding_source isRead isSource
  held := fun v isSource _ alive => held_freed isRead freed isSource alive
  fixedDst := fun _ => rfl
  vregDst := fun d isDst => by
    rw [fixed] at isDst
    cases isDst
  stays := fun _ before after => stays_freed isRead freed before after
  unspilled := by
    intro v p same _ alive bound
    rw [freed.spills] at same
    rw [freed.lookup_eq alive]
    exact isRead.kept (.inr same) bound
  old := fun _ unread found => isRead.old unread (freed.lookup.mp found).1
  slots := fun found => by
    rw [freed.slots]
    exact isRead.slots found
  sameSlots := by
    intro v same
    rw [freed.spills] at same
    rw [freed.slots, isRead.sameSlots same]
  spillCode := isRead.spillCode
  exec := by
    intro isa state
    obtain ⟨mid, executed, carried, frame⟩ := isRead.exec isa state
    exact ⟨mid, executed, fun reg untouched _ => frame reg untouched, carried.gpr, carried.pred, carried.mem,
      fun _ v isSource word isWord => source_word isRead carried isSource isWord,
      fun v word _ alive isWord => words_freed freed carried alive isWord⟩

/-- The destination is bound without touching a source. -/
theorem source_kept {d : Nat} {preg : UInt8} {final : Allocator} {code' : List Syllable}
    (isDst : syllable.dstVreg = some d)
    (keeps : read.assigned.lookup d = none → read.spillSlots.lookup d ≠ none →
      ∀ v, ¬LastRead alloc syllable blockIdx pos v)
    (isBound : Bound limit d protectedVregs preg freedAlloc final code')
    {mid last : State Reg} (others : ∀ reg, reg ≠ .preg preg → last.gpr reg = mid.gpr reg)
    (quiet : freedAlloc.assigned.lookup d ≠ none ∨ freedAlloc.spillSlots.lookup d = none →
      last.gpr = mid.gpr) {v : Nat} (isSource : v ∈ syllable.sourceVregs) :
    last.gpr (.preg (read.binding v)) = mid.gpr (.preg (read.binding v)) := by
  obtain ⟨q, bound⟩ := isRead.bound v isSource
  rw [binding_eq bound]
  by_cases different : q = preg
  · subst different
    have dstAlive : ¬LastRead alloc syllable blockIdx pos d := fun isLast => isLast.2.1 isDst.symm
    by_cases loads : freedAlloc.assigned.lookup d ≠ none ∨ freedAlloc.spillSlots.lookup d = none
    · rw [quiet loads]
    · exfalso
      push Not at loads
      rw [freed.lookup_eq dstAlive, freed.slots] at loads
      have alive := keeps loads.1 loads.2
      have boundFreed : freedAlloc.assigned.lookup v = some q := freed.lookup.mpr ⟨bound, alive v⟩
      rcases isBound.origin with already | inFree | ⟨victim, unprotected, isVictim⟩
      · rw [freed.lookup_eq dstAlive, loads.1] at already
        cases already
      · exact freed.pool.apart boundFreed inFree
      · obtain rfl := freed.pool.injective boundFreed isVictim
        exact unprotected (freed.stillProtected v isSource (alive v))
  · exact others _ (fun same => different (Reg.preg.inj same))

/-- A syllable whose destination is a virtual register. -/
theorem rewritten_vreg {keeps : Prop} {d : Nat} {preg : UInt8} {bound : Allocator}
    {code' : List Syllable} (isDst : syllable.dstVreg = some d)
    (safe : keeps → read.assigned.lookup d = none → read.spillSlots.lookup d ≠ none →
      ∀ v, ¬LastRead alloc syllable blockIdx pos v)
    (isBound : Bound limit d protectedVregs preg freedAlloc bound code') :
    Rewritten keeps limit alloc syllable blockIdx pos (code ++ code') read.binding
      (some (.preg preg)) (if bound.needsAfter d blockIdx pos then bound else bound.freeVreg d) := by
  have boundTables : SameTables freedAlloc bound :=
    ⟨isBound.lastUses, isBound.liveOut, isBound.spillBase⟩
  have tables : SameTables alloc bound := (isRead.tables.trans freed.tables).trans boundTables
  have needs : bound.needsAfter d blockIdx pos = alloc.needsAfter d blockIdx pos := by
    unfold Allocator.needsAfter Allocator.hasLaterBlockUse Allocator.isLiveOut Allocator.lastUse
    rw [tables.lastUses, tables.liveOut]
  have dstAlive : ¬LastRead alloc syllable blockIdx pos d := fun isLast => isLast.2.1 isDst.symm
  have other : ∀ {v}, syllable.dstVreg ≠ some v → v ≠ d := fun isOther same =>
    isOther (same ▸ isDst)
  rw [needs]
  have final : ∀ v, v ≠ d → (if alloc.needsAfter d blockIdx pos then bound
      else bound.freeVreg d).assigned.lookup v = bound.assigned.lookup v := by
    intro v isOther
    split
    · rfl
    · rw [freeVreg_lookup, if_neg isOther]
  have finalSlots : (if alloc.needsAfter d blockIdx pos then bound
      else bound.freeVreg d).spillSlots = bound.spillSlots := by
    split
    · rfl
    · exact freeVreg_spillSlots bound d
  have finalSpills : ∀ v, (if alloc.needsAfter d blockIdx pos then bound
      else bound.freeVreg d).spills v = bound.spills v := by
    intro v
    split
    · rfl
    · exact freeVreg_spills bound d v
  have first : ∀ v, alloc.spills v ≤ read.spills v := isRead.spills
  have second : ∀ v, read.spills v ≤ bound.spills v := by
    intro v
    rw [← freed.spills v]
    exact isBound.spills v
  have spared : ∀ {v}, bound.spills v = alloc.spills v →
      read.spills v = alloc.spills v ∧ bound.spills v = freedAlloc.spills v := by
    intro v same
    have here := first v
    have there := second v
    exact ⟨by omega, by rw [freed.spills]; omega⟩
  exact
    { pool := by
        split
        · exact isBound.pool
        · exact isBound.pool.freeVreg d
      tables := by
        split
        · exact tables
        · exact tables.trans (sameTables_freeVreg bound d)
      spills := by
        intro v
        rw [finalSpills]
        exact (first v).trans (second v)
      sources := fun v isSource => binding_source isRead isSource
      held := by
        intro v isSource isOther alive
        rw [final v (other isOther)]
        exact isBound.kept (.inl (freed.stillProtected v isSource alive))
          (held_freed isRead freed isSource alive)
      fixedDst := fun fixed => by
        rw [isDst] at fixed
        cases fixed
      vregDst := by
        intro d' isDst'
        obtain rfl := Option.some.inj (isDst.symm.trans isDst')
        refine ⟨preg, isBound.pool.range isBound.bound, rfl, ?_, ?_, ?_⟩
        · intro v isOther
          rw [final v isOther]
          exact fun found => isOther (isBound.pool.injective found isBound.bound)
        · split
          · exact isBound.bound
          · rw [freeVreg_lookup, if_pos rfl]
        · intro same p before
          rw [finalSpills] at same
          have inRead := isRead.kept (.inr (spared same).1) before
          rw [← freed.lookup_eq dstAlive] at inRead
          have inBound := isBound.kept (.inr (spared same).2) inRead
          exact Option.some.inj (inBound.symm.trans isBound.bound)
      stays := by
        intro v p q isOther before after
        rw [final v (other isOther)] at after
        exact stays_freed isRead freed before (isBound.old (other isOther) after)
      unspilled := by
        intro v p same isOther alive before
        rw [finalSpills] at same
        rw [final v (other isOther)]
        refine isBound.kept (.inr (spared same).2) ?_
        rw [freed.lookup_eq alive]
        exact isRead.kept (.inr (spared same).1) before
      old := by
        intro v q isOther unread found
        rw [final v (other isOther)] at found
        exact isRead.old unread (freed.lookup.mp (isBound.old (other isOther) found)).1
      slots := by
        intro v slot found
        rw [finalSlots]
        refine isBound.slots ?_
        rw [freed.slots]
        exact isRead.slots found
      sameSlots := by
        intro v same
        rw [finalSpills] at same
        rw [finalSlots, isBound.sameSlots (spared same).2, freed.slots,
          isRead.sameSlots (spared same).1]
      spillCode := by
        have later := isBound.spillCode
        rw [(isRead.tables.trans freed.tables).spillBase] at later
        exact List.forall_mem_append.mpr ⟨isRead.spillCode, later⟩
      exec := by
        intro isa state
        obtain ⟨mid, executed, carried, frame⟩ := isRead.exec isa state
        obtain ⟨last, executed', carried', others, quiet⟩ := isBound.exec isa mid
        have sameBase : freedAlloc.spillBase = alloc.spillBase :=
          (isRead.tables.trans freed.tables).spillBase
        refine ⟨last, ?_, ?_, ?_, ?_, ?_, ?_, ?_⟩
        · rw [Mir.execSyllables_append, executed, Option.bind_some, executed']
        · intro reg untouched notDst
          have isVreg : syllable.dstVreg ≠ none := by simp [isDst]
          rw [others reg fun same => notDst isVreg (by rw [same]), frame reg untouched]
        · exact fun reg outside => (carried'.gpr reg outside).trans (carried.gpr reg outside)
        · exact carried'.pred.trans carried.pred
        · intro cell outside
          rw [← carried.mem cell outside]
          exact carried'.mem cell (by rwa [sameBase])
        · intro isKept v isSource word isWord
          rw [source_kept isRead freed isDst (safe isKept) isBound others quiet isSource]
          exact source_word isRead carried isSource isWord
        · intro v word isOther alive isWord
          rw [word?_congr (final v (other isOther)) (by rw [finalSlots])]
          exact carried'.words (words_freed freed carried alive isWord) }

end Assembly

/-- Specification of `rewriteSyllable`. -/
theorem rewritten_of_rewriteSyllable {order : HashOrder} {limit : Nat} (small : limit ≤ 2 ^ 32)
    {alloc alloc' : Allocator} {syllable : Syllable} {blockIdx pos : Nat} {out : List Syllable}
    (pool : Pool limit alloc) (bounded : ∀ v ∈ syllable.sourceVregs, v < limit)
    (dstBounded : ∀ d, syllable.dstVreg = some d → d < limit)
    (done : rewriteSyllable order alloc syllable blockIdx pos = .ok (out, alloc')) :
    ∃ code rename dst,
      out = code ++ [⟨syllable.opcode, dst, syllable.srcs.map (renameValue rename)⟩] ∧
      Rewritten (KeepsSources order alloc syllable blockIdx pos) limit alloc syllable blockIdx pos
        code rename dst alloc' := by
  obtain ⟨⟨srcs, read⟩, sourcesDone, rest⟩ := bind_eq_ok.mp done
  obtain ⟨⟨dst, final⟩, dstDone, finished⟩ := bind_eq_ok.mp rest
  cases finished
  obtain ⟨code, inserted, isRead⟩ := sourcesRead_of_rewriteValues small pool bounded
    (fun v isSource => isSource) sourcesDone
  rw [List.nil_append] at inserted
  have freed := freed_freeSources syllable.dstVreg blockIdx pos syllable.sourceVregs
    syllable.sourceVregs isRead.pool
  simp only [isRead.tables.canFreeAfter] at freed
  rw [isRead.renamed]
  cases isDst : syllable.dstVreg with
  | none =>
      have unchanged : dst = syllable.dst ∧ final = ⟨(freeSources syllable.dstVreg blockIdx pos
          (read.alloc, syllable.sourceVregs) syllable.sourceVregs).1, read.inserted⟩ := by
        unfold rewriteDst at dstDone
        split at dstDone
        · rename_i d same
          rw [Mir.Syllable.dstVreg_eq_some.mpr same] at isDst
          cases isDst
        · cases dstDone
          exact ⟨rfl, rfl⟩
      obtain ⟨rfl, rfl⟩ := unchanged
      exact ⟨code, read.alloc.binding, _, by rw [inserted], rewritten_fixed isRead freed _ isDst⟩
  | some d =>
      rw [Mir.Syllable.dstVreg_eq_some.mp isDst] at dstDone
      obtain ⟨⟨preg, bound⟩, bindDone, same⟩ := bind_eq_ok.mp dstDone
      cases same
      obtain ⟨code', inserted', isBound⟩ :=
        bound_of_pregForVreg small freed.pool (dstBounded d isDst) bindDone
      refine ⟨code ++ code', read.alloc.binding, some (.preg preg), ?_, ?_⟩
      · dsimp only at inserted' ⊢
        rw [inserted', inserted]
      · have assembled := rewritten_vreg isRead freed isDst
          (fun keeps : KeepsSources order alloc syllable blockIdx pos =>
            keeps srcs read sourcesDone d isDst) isBound
        have sameChoice : (if bound.alloc.needsAfter d blockIdx pos then bound.alloc
            else bound.alloc.freeVreg d) =
            if (!bound.alloc.hasLaterBlockUse d blockIdx pos &&
              !bound.alloc.isLiveOut d blockIdx) = true then bound.alloc.freeVreg d
            else bound.alloc := by
          unfold Allocator.needsAfter
          cases bound.alloc.hasLaterBlockUse d blockIdx pos <;>
            cases bound.alloc.isLiveOut d blockIdx <;> rfl
        rw [sameChoice] at assembled
        exact assembled

end VliwCompiler.Regalloc
