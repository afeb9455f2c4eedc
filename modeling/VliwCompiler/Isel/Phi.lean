import VliwCompiler.Mir.Semantics
import VliwCompiler.Error
import Mathlib.Data.Finset.Card

/-!
# Phi lowering

The phis of a block become copies at the end of its predecessors.  The copies of
one predecessor happen at the same time; they are put into an order in which no
copy overwrites a register that a later one reads, and cycles are broken with a
fresh register.
-/

namespace VliwCompiler.Isel

open Asm (Opcode I64 Copies)
open Mir (Reg Syllable Block execSyllables)
open Machine

/-- Source of a phi copy: an immediate constant or a virtual register. -/
inductive CopySrc where
  | const (value : I64)
  | vreg (index : Nat)
  deriving DecidableEq, Repr

/-- One copy `dst ← src` to be inserted into a predecessor block. -/
structure PhiCopy where
  dst : Nat
  src : CopySrc
  deriving DecidableEq, Repr

def syllableForCopy (dst : Nat) : CopySrc → Syllable
  | .const value => ⟨.movImm, some (.vreg dst), [.imm value]⟩
  | .vreg src => ⟨.mov, some (.vreg dst), [.reg (.vreg src)]⟩

/-- Some pending copy reads the register. -/
def reads (remaining : List PhiCopy) (reg : Nat) : Bool :=
  remaining.any (·.src = .vreg reg)

/-- The register read by a copy. -/
def CopySrc.reg? : CopySrc → Option Nat
  | .vreg index => some index
  | .const _ => none

/-- A copy with reads of `src` replaced by reads of `tmp`. -/
def PhiCopy.redirect (src tmp : Nat) (copy : PhiCopy) : PhiCopy :=
  if copy.src = .vreg src then ⟨copy.dst, .vreg tmp⟩ else copy

/-- The number after `nextVreg`.  Registers are numbered without end unless a limit
is given. -/
def succVreg (limit : Option Nat) (nextVreg : Nat) : Outcome Nat :=
  if limit.all (nextVreg + 1 < ·) then .ok (nextVreg + 1)
  else .error (.panic "attempt to add with overflow")

section

variable (limit : Option Nat)

/-- The loop over the pending copies. -/
def serialize : Nat → List PhiCopy → Nat → Outcome (List Syllable × Nat)
  | 0, _, _ => .error .diverges
  | fuel + 1, remaining, nextVreg =>
      if remaining = [] then .ok ([], nextVreg)
      else
        match remaining.findIdx? fun copy => !reads remaining copy.dst with
        | some pos => do
            let copy ← expect "removal index out of bounds" remaining[pos]?
            let (rest, nextVreg) ← serialize fuel (remaining.eraseIdx pos) nextVreg
            return (syllableForCopy copy.dst copy.src :: rest, nextVreg)
        | none => do
            let src ← expect "copy cycle must contain a register source"
              (remaining.findSome? (·.src.reg?))
            let tmp := nextVreg
            let nextVreg ← succVreg limit nextVreg
            let (rest, nextVreg) ← serialize fuel (remaining.map (·.redirect src tmp)) nextVreg
            return (syllableForCopy tmp (.vreg src) :: rest, nextVreg)

/-- Order a set of parallel copies.  A pass of the loop removes a copy, or the
next one does. -/
def serializeParallelCopies (copies : List PhiCopy) (nextVreg : Nat) :
    Outcome (List Syllable × Nat) :=
  let remaining := copies.filter fun copy => copy.src ≠ .vreg copy.dst
  serialize limit (2 * remaining.length + 2) remaining nextVreg

end

/-- Append the copies of every predecessor to its syllables, in the order in
which the table of copies is visited.  The registers of a function are numbered
without end: there is no room for a function with 2^32 values. -/
def lowerPhiCopies (blocks : List Block) :
    List (String × List PhiCopy) → Nat → Outcome (List Block × Nat)
  | [], nextVreg => .ok (blocks, nextVreg)
  | (label, copies) :: rest, nextVreg => do
      let idx ← expect ("phi predecessor block '" ++ label ++ "' not found in MIR")
        (blocks.findIdx? (·.label = label))
      let (syllables, nextVreg) ← serializeParallelCopies none copies nextVreg
      lowerPhiCopies (blocks.modify idx fun block =>
        { block with syllables := block.syllables ++ syllables }) rest nextVreg

theorem succVreg_none (nextVreg : Nat) : succVreg none nextVreg = .ok (nextVreg + 1) := rfl

theorem succVreg_eq_ok {limit : Option Nat} {nextVreg next : Nat}
    (isNext : succVreg limit nextVreg = .ok next) : next = nextVreg + 1 := by
  unfold succVreg at isNext
  split at isNext
  · exact (Except.ok.inj isNext).symm
  · cases isNext

theorem le_of_serialize {limit : Option Nat} {fuel nextVreg next : Nat}
    {remaining : List PhiCopy} {syllables : List Syllable}
    (ordered : serialize limit fuel remaining nextVreg = .ok (syllables, next)) :
    nextVreg ≤ next := by
  induction fuel generalizing remaining nextVreg next syllables with
  | zero => cases ordered
  | succ fuel ih =>
      unfold serialize at ordered
      split at ordered
      · cases ordered
        exact Nat.le_refl _
      · split at ordered
        · obtain ⟨copy, -, ordered⟩ := bind_eq_ok.mp ordered
          obtain ⟨⟨rest, last⟩, isRest, ordered⟩ := bind_eq_ok.mp ordered
          cases ordered
          exact ih isRest
        · obtain ⟨src, -, ordered⟩ := bind_eq_ok.mp ordered
          obtain ⟨fresh, isFresh, ordered⟩ := bind_eq_ok.mp ordered
          obtain ⟨⟨rest, last⟩, isRest, ordered⟩ := bind_eq_ok.mp ordered
          cases ordered
          cases succVreg_eq_ok isFresh
          exact Nat.le_of_succ_le (ih isRest)

/-! ### The loop ends -/

/-- Equal destinations have equal sources. -/
def Agree (copies : List PhiCopy) : Prop :=
  ∀ first ∈ copies, ∀ second ∈ copies, first.dst = second.dst → first.src = second.src

theorem reads_eq_true {remaining : List PhiCopy} {reg : Nat} :
    reads remaining reg = true ↔ ∃ copy ∈ remaining, copy.src = .vreg reg := by
  simp [reads]

theorem reg?_eq_some {src : CopySrc} {reg : Nat} : src.reg? = some reg ↔ src = .vreg reg := by
  cases src <;> simp [CopySrc.reg?]

/-- When every destination is still read, every register that is read is a
destination. -/
theorem exists_dst_of_stuck {remaining : List PhiCopy} (agree : Agree remaining)
    (stuck : ∀ copy ∈ remaining, reads remaining copy.dst = true) {src : Nat}
    (isRead : reads remaining src = true) : ∃ copy ∈ remaining, copy.dst = src := by
  let dsts := (remaining.map (·.dst)).toFinset
  let srcs := (remaining.filterMap (·.src.reg?)).toFinset
  have mem_dsts : ∀ reg, reg ∈ dsts ↔ ∃ copy ∈ remaining, copy.dst = reg := by simp [dsts]
  have mem_srcs : ∀ reg, reg ∈ srcs ↔ ∃ copy ∈ remaining, copy.src = .vreg reg := by
    simp [srcs, reg?_eq_some]
  have included : dsts ⊆ srcs := by
    intro reg isDst
    obtain ⟨copy, copyMem, rfl⟩ := (mem_dsts reg).mp isDst
    exact (mem_srcs _).mpr (reads_eq_true.mp (stuck copy copyMem))
  let source : Nat → Nat := fun reg =>
    ((remaining.find? (·.dst = reg)).bind (·.src.reg?)).getD 0
  have image : srcs ⊆ dsts.image source := by
    intro reg isSrc
    obtain ⟨copy, copyMem, isCopy⟩ := (mem_srcs reg).mp isSrc
    refine Finset.mem_image.mpr ⟨copy.dst, (mem_dsts _).mpr ⟨copy, copyMem, rfl⟩, ?_⟩
    cases isFound : remaining.find? (·.dst = copy.dst) with
    | none =>
        have absent := List.find?_eq_none.mp isFound copy copyMem
        simp at absent
    | some other =>
        have sameDst : other.dst = copy.dst := by simpa using List.find?_some isFound
        have sameSrc := agree other (List.mem_of_find?_eq_some isFound) copy copyMem sameDst
        simp [source, isFound, sameSrc, isCopy, CopySrc.reg?]
  have few : srcs.card ≤ dsts.card := (Finset.card_le_card image).trans Finset.card_image_le
  have same := Finset.eq_of_subset_of_card_le included few
  rw [← mem_dsts, same, mem_srcs]
  exact reads_eq_true.mp isRead

/-- Some copy can be emitted. -/
def Ready (remaining : List PhiCopy) : Prop :=
  ∃ copy ∈ remaining, reads remaining copy.dst = false

theorem reads_of_not_ready {remaining : List PhiCopy} (stuck : ¬Ready remaining) :
    ∀ copy ∈ remaining, reads remaining copy.dst = true := by
  intro copy copyMem
  by_contra unread
  exact stuck ⟨copy, copyMem, Bool.eq_false_iff.mpr unread⟩

theorem findIdx?_ready {remaining : List PhiCopy} :
    (remaining.findIdx? fun copy => !reads remaining copy.dst) = none ↔ ¬Ready remaining := by
  simp [List.findIdx?_eq_none_iff, Ready]

/-- Copies of which none can be emitted have a register source. -/
theorem exists_source_of_not_ready {remaining : List PhiCopy} (stuck : ¬Ready remaining)
    (notEmpty : remaining ≠ []) :
    ∃ src, remaining.findSome? (·.src.reg?) = some src ∧ reads remaining src = true := by
  obtain ⟨first, firstMem⟩ := List.exists_mem_of_ne_nil remaining notEmpty
  obtain ⟨copy, copyMem, isReg⟩ := reads_eq_true.mp (reads_of_not_ready stuck first firstMem)
  obtain ⟨src, isSource⟩ : ∃ src, remaining.findSome? (·.src.reg?) = some src := by
    rw [← Option.isSome_iff_exists, List.findSome?_isSome_iff]
    exact ⟨copy, copyMem, by rw [isReg]; rfl⟩
  obtain ⟨reader, readerMem, isReader⟩ := List.exists_of_findSome?_eq_some isSource
  exact ⟨src, isSource, reads_eq_true.mpr ⟨reader, readerMem, reg?_eq_some.mp isReader⟩⟩

/-- After the source of a destination is saved some copy can be emitted. -/
theorem ready_redirect {remaining : List PhiCopy} {src tmp : Nat}
    (isDst : ∃ copy ∈ remaining, copy.dst = src) (fresh : ∀ copy ∈ remaining, copy.dst ≠ tmp) :
    Ready (remaining.map (·.redirect src tmp)) := by
  obtain ⟨copy, copyMem, rfl⟩ := isDst
  have sameDst : (copy.redirect copy.dst tmp).dst = copy.dst := by
    unfold PhiCopy.redirect
    split <;> rfl
  refine ⟨copy.redirect copy.dst tmp, List.mem_map_of_mem copyMem, ?_⟩
  rw [sameDst, Bool.eq_false_iff, Ne, reads_eq_true]
  rintro ⟨other, otherMem, isSource⟩
  obtain ⟨original, -, rfl⟩ := List.mem_map.mp otherMem
  unfold PhiCopy.redirect at isSource
  split at isSource
  · exact fresh copy copyMem (CopySrc.vreg.inj isSource).symm
  · contradiction

/-! ### The order is right -/

/-- The value of a source. -/
def CopySrc.value (state : State Reg) : CopySrc → Word
  | .const value => value
  | .vreg index => state.gpr (.vreg index)

/-- Write a virtual register. -/
def setVreg (state : State Reg) (dst : Nat) (word : Word) : State Reg :=
  { state with gpr := Function.update state.gpr (.vreg dst) word }

@[simp]
theorem setVreg_preg (state : State Reg) (dst : Nat) (word : Word) (preg : UInt8) :
    (setVreg state dst word).gpr (.preg preg) = state.gpr (.preg preg) := by
  simp [setVreg]

theorem exec_syllableForCopy {isa : Isa Opcode} (copies : Copies isa) (dst : Nat) (src : CopySrc)
    (rest : List Syllable) (state : State Reg) :
    execSyllables isa (syllableForCopy dst src :: rest) state =
      execSyllables isa rest (setVreg state dst (src.value state)) := by
  rw [← List.singleton_append, Mir.execSyllables_append, Mir.execSyllables_singleton]
  cases src with
  | const value =>
      have denotes : (syllableForCopy dst (.const value)).action =
          some (.compute .movImm (some (.vreg dst)) [.imm value]) := rfl
      rw [denotes, Option.map_some, Option.bind_some]
      simp [Action.exec, Action.effect, Effect.apply, Source.read, copies.movImm, Reg.vreg_ne_zero, setVreg,
        CopySrc.value, Memory.write]
  | vreg src =>
      have denotes : (syllableForCopy dst (.vreg src)).action =
          some (.compute .mov (some (.vreg dst)) [.gpr (.vreg src)]) := rfl
      rw [denotes, Option.map_some, Option.bind_some]
      simp [Action.exec, Action.effect, Effect.apply, Source.read, State.readGpr, copies.mov,
        Reg.vreg_ne_zero, setVreg, CopySrc.value, Memory.write]

/-- The pending copies can be put in order: equal destinations agree, and all
registers are below the next fresh one. -/
structure Orderly (remaining : List PhiCopy) (nextVreg : Nat) : Prop where
  agree : Agree remaining
  dst : ∀ copy ∈ remaining, copy.dst < nextVreg
  src : ∀ copy ∈ remaining, ∀ reg, copy.src = .vreg reg → reg < nextVreg

theorem Orderly.eraseIdx {remaining : List PhiCopy} {nextVreg : Nat}
    (orderly : Orderly remaining nextVreg) (pos : Nat) :
    Orderly (remaining.eraseIdx pos) nextVreg where
  agree := fun first firstMem second secondMem =>
    orderly.agree first (List.mem_of_mem_eraseIdx firstMem) second
      (List.mem_of_mem_eraseIdx secondMem)
  dst := fun copy copyMem => orderly.dst copy (List.mem_of_mem_eraseIdx copyMem)
  src := fun copy copyMem => orderly.src copy (List.mem_of_mem_eraseIdx copyMem)

theorem redirect_dst (src tmp : Nat) (copy : PhiCopy) : (copy.redirect src tmp).dst = copy.dst := by
  unfold PhiCopy.redirect
  split <;> rfl

theorem redirect_src (src tmp : Nat) (copy : PhiCopy) :
    (copy.redirect src tmp).src = if copy.src = .vreg src then .vreg tmp else copy.src := by
  unfold PhiCopy.redirect
  split <;> rfl

theorem Orderly.redirect {remaining : List PhiCopy} {nextVreg : Nat}
    (orderly : Orderly remaining nextVreg) (src : Nat) :
    Orderly (remaining.map (·.redirect src nextVreg)) (nextVreg + 1) where
  agree := by
    intro _ firstMem _ secondMem sameDst
    obtain ⟨first, isFirst, rfl⟩ := List.mem_map.mp firstMem
    obtain ⟨second, isSecond, rfl⟩ := List.mem_map.mp secondMem
    rw [redirect_dst, redirect_dst] at sameDst
    rw [redirect_src, redirect_src, orderly.agree first isFirst second isSecond sameDst]
  dst := by
    intro _ copyMem
    obtain ⟨copy, isCopy, rfl⟩ := List.mem_map.mp copyMem
    rw [redirect_dst]
    exact Nat.lt_succ_of_lt (orderly.dst copy isCopy)
  src := by
    intro _ copyMem reg isSource
    obtain ⟨copy, isCopy, rfl⟩ := List.mem_map.mp copyMem
    rw [redirect_src] at isSource
    split at isSource
    · cases isSource
      exact Nat.lt_succ_self _
    · exact Nat.lt_succ_of_lt (orderly.src copy isCopy reg isSource)

/-- The final state of a set of copies: destinations have the values of their
sources, and nothing else below the fresh registers is changed. -/
structure Assigned (copies : List PhiCopy) (nextVreg : Nat) (state final : State Reg) : Prop where
  dst : ∀ copy ∈ copies, final.gpr (.vreg copy.dst) = copy.src.value state
  other : ∀ v < nextVreg, (∀ copy ∈ copies, copy.dst ≠ v) →
    final.gpr (.vreg v) = state.gpr (.vreg v)
  fixed : ∀ preg, final.gpr (.preg preg) = state.gpr (.preg preg)
  pred : final.pred = state.pred
  mem : final.mem = state.mem

theorem value_setVreg {src : CopySrc} {dst : Nat} (other : src ≠ .vreg dst) (state : State Reg)
    (word : Word) : src.value (setVreg state dst word) = src.value state := by
  cases src with
  | const value => rfl
  | vreg index =>
      have different : Reg.vreg index ≠ .vreg dst := by
        rintro ⟨⟩
        exact other rfl
      exact Function.update_of_ne different _ _

/-- Emitting a copy whose destination is not read any more. -/
theorem Assigned.emit {remaining : List PhiCopy} {nextVreg pos : Nat} {copy : PhiCopy}
    {state final : State Reg} (orderly : Orderly remaining nextVreg)
    (here : remaining[pos]? = some copy) (unread : reads remaining copy.dst = false)
    (assigned : Assigned (remaining.eraseIdx pos) nextVreg
      (setVreg state copy.dst (copy.src.value state)) final) :
    Assigned remaining nextVreg state final := by
  have copyMem := List.mem_of_getElem? here
  have notSource : ∀ other ∈ remaining, other.src ≠ .vreg copy.dst := by
    intro other otherMem isSource
    rw [Bool.eq_false_iff, Ne, reads_eq_true] at unread
    exact unread ⟨other, otherMem, isSource⟩
  have split : ∀ other ∈ remaining, other = copy ∨ other ∈ remaining.eraseIdx pos := by
    intro other otherMem
    obtain ⟨k, isK⟩ := List.mem_iff_getElem?.mp otherMem
    by_cases same : k = pos
    · subst same
      exact .inl (Option.some.inj (isK.symm.trans here))
    · exact .inr (List.mem_eraseIdx_iff_getElem?.mpr ⟨k, same, isK⟩)
  refine ⟨?_, ?_, ?_, assigned.pred, assigned.mem⟩
  · intro other otherMem
    by_cases later : other ∈ remaining.eraseIdx pos
    · rw [assigned.dst other later, value_setVreg (notSource other otherMem)]
    · obtain rfl := (split other otherMem).resolve_right later
      by_cases again : ∃ twin ∈ remaining.eraseIdx pos, twin.dst = other.dst
      · obtain ⟨twin, twinMem, sameDst⟩ := again
        have twinBefore := List.mem_of_mem_eraseIdx twinMem
        rw [← sameDst, assigned.dst twin twinMem, value_setVreg (notSource twin twinBefore),
          orderly.agree twin twinBefore other otherMem sameDst]
      · push Not at again
        rw [assigned.other _ (orderly.dst other otherMem) again]
        exact Function.update_self _ _ _
  · intro v small notDst
    rw [assigned.other v small fun other otherMem =>
      notDst other (List.mem_of_mem_eraseIdx otherMem)]
    have different : Reg.vreg v ≠ .vreg copy.dst := by
      rintro ⟨⟩
      exact notDst copy copyMem rfl
    exact Function.update_of_ne different _ _
  · intro preg
    rw [assigned.fixed, setVreg_preg]

/-- Saving a source in a fresh register. -/
theorem Assigned.save {remaining : List PhiCopy} {nextVreg src : Nat} {state final : State Reg}
    (orderly : Orderly remaining nextVreg)
    (assigned : Assigned (remaining.map (·.redirect src nextVreg)) (nextVreg + 1)
      (setVreg state nextVreg (state.gpr (.vreg src))) final) :
    Assigned remaining nextVreg state final := by
  have older : ∀ {v}, v < nextVreg → Reg.vreg v ≠ .vreg nextVreg := by
    rintro v small ⟨⟩
    exact Nat.lt_irrefl _ small
  refine ⟨?_, ?_, ?_, assigned.pred, assigned.mem⟩
  · intro copy copyMem
    have redirected := assigned.dst _ (List.mem_map_of_mem copyMem)
    rw [redirect_dst, redirect_src] at redirected
    rw [redirected]
    split
    · rename_i isSource
      rw [isSource]
      exact Function.update_self _ _ _
    · refine value_setVreg (fun isFresh => ?_) _ _
      exact Nat.lt_irrefl _ (orderly.src copy copyMem nextVreg isFresh)
  · intro v small notDst
    rw [assigned.other v (Nat.lt_succ_of_lt small)]
    · exact Function.update_of_ne (older small) _ _
    · intro _ copyMem
      obtain ⟨copy, isCopy, rfl⟩ := List.mem_map.mp copyMem
      rw [redirect_dst]
      exact notDst copy isCopy
  · intro preg
    rw [assigned.fixed, setVreg_preg]

/-- Passes of the loop that are left: two for every copy, and one more when a
cycle has to be broken first. -/
def passes (remaining : List PhiCopy) : Nat :=
  2 * remaining.length + if remaining.all (reads remaining ·.dst) then 1 else 0

theorem passes_le (remaining : List PhiCopy) : passes remaining ≤ 2 * remaining.length + 1 := by
  unfold passes
  split <;> omega

theorem passes_of_ready {remaining : List PhiCopy} (ready : Ready remaining) :
    passes remaining = 2 * remaining.length := by
  obtain ⟨copy, copyMem, unread⟩ := ready
  unfold passes
  rw [if_neg, Nat.add_zero]
  intro all
  rw [List.all_eq_true.mp all copy copyMem] at unread
  cases unread

theorem passes_of_not_ready {remaining : List PhiCopy} (stuck : ¬Ready remaining) :
    passes remaining = 2 * remaining.length + 1 := by
  unfold passes
  rw [if_pos]
  rw [List.all_eq_true]
  intro copy copyMem
  by_contra unread
  exact stuck ⟨copy, copyMem, Bool.eq_false_iff.mpr unread⟩

/-- With enough fuel the loop ends and orders the pending copies. -/
theorem serialize_spec {isa : Isa Opcode} (copies : Copies isa) {fuel nextVreg : Nat}
    {remaining : List PhiCopy} (orderly : Orderly remaining nextVreg)
    (enough : passes remaining < fuel) :
    ∃ syllables next, serialize none fuel remaining nextVreg = .ok (syllables, next) ∧
      nextVreg ≤ next ∧ ∀ state, ∃ final, execSyllables isa syllables state = some final ∧
        Assigned remaining nextVreg state final := by
  induction fuel generalizing remaining nextVreg with
  | zero => cases enough
  | succ fuel ih =>
      unfold serialize
      by_cases empty : remaining = []
      · subst empty
        rw [if_pos rfl]
        exact ⟨[], nextVreg, rfl, Nat.le_refl _, fun state => ⟨state, rfl, by simp,
          fun _ _ _ => rfl, fun _ => rfl, rfl, rfl⟩⟩
      rw [if_neg empty]
      cases isReady : remaining.findIdx? fun copy => !reads remaining copy.dst with
      | some pos =>
          obtain ⟨inside, unread, -⟩ := List.findIdx?_eq_some_iff_getElem.mp isReady
          have here := List.getElem?_eq_getElem inside
          rw [Bool.not_eq_eq_eq_not, Bool.not_true] at unread
          have count := passes_of_ready ⟨_, List.getElem_mem inside, unread⟩
          have fewer := passes_le (remaining.eraseIdx pos)
          rw [List.length_eraseIdx_of_lt inside] at fewer
          obtain ⟨syllables, next, serialized, grows, runs⟩ :=
            ih (orderly.eraseIdx pos) (by omega)
          refine ⟨_, next, bind_eq_ok.mpr ⟨remaining[pos], expect_eq_ok.mpr here,
            bind_eq_ok.mpr ⟨(syllables, next), serialized, rfl⟩⟩, grows, fun state => ?_⟩
          obtain ⟨final, executed, assigned⟩ :=
            runs (setVreg state remaining[pos].dst (remaining[pos].src.value state))
          refine ⟨final, ?_, assigned.emit orderly here unread⟩
          rw [exec_syllableForCopy copies, executed]
      | none =>
          have stuck := findIdx?_ready.mp isReady
          obtain ⟨src, isSource, isRead⟩ := exists_source_of_not_ready stuck empty
          have isDst := exists_dst_of_stuck orderly.agree (reads_of_not_ready stuck) isRead
          have ready := ready_redirect isDst fun copy copyMem =>
            Nat.ne_of_lt (orderly.dst copy copyMem)
          have count := passes_of_not_ready stuck
          have fewer := passes_of_ready ready
          rw [List.length_map] at fewer
          obtain ⟨syllables, next, serialized, grows, runs⟩ :=
            ih (orderly.redirect src) (by omega)
          refine ⟨_, next, bind_eq_ok.mpr ⟨src, expect_eq_ok.mpr isSource,
            bind_eq_ok.mpr ⟨nextVreg + 1, rfl,
              bind_eq_ok.mpr ⟨(syllables, next), serialized, rfl⟩⟩⟩, by omega, fun state => ?_⟩
          obtain ⟨final, executed, assigned⟩ :=
            runs (setVreg state nextVreg (state.gpr (.vreg src)))
          refine ⟨final, ?_, assigned.save orderly⟩
          rw [exec_syllableForCopy copies, ← executed]
          rfl

theorem Orderly.filter {copies : List PhiCopy} {nextVreg : Nat} (orderly : Orderly copies nextVreg)
    (keep : PhiCopy → Bool) : Orderly (copies.filter keep) nextVreg where
  agree := fun first firstMem second secondMem =>
    orderly.agree first (List.mem_filter.mp firstMem).1 second (List.mem_filter.mp secondMem).1
  dst := fun copy copyMem => orderly.dst copy (List.mem_filter.mp copyMem).1
  src := fun copy copyMem => orderly.src copy (List.mem_filter.mp copyMem).1

/-- Copies between a register and itself need no code. -/
theorem Assigned.of_filter {copies : List PhiCopy} {nextVreg : Nat} {state final : State Reg}
    (orderly : Orderly copies nextVreg)
    (assigned : Assigned (copies.filter fun copy => copy.src ≠ .vreg copy.dst) nextVreg
      state final) : Assigned copies nextVreg state final := by
  refine ⟨?_, ?_, assigned.fixed, assigned.pred, assigned.mem⟩
  · intro copy copyMem
    by_cases same : copy.src = .vreg copy.dst
    · rw [same]
      refine assigned.other _ (orderly.dst copy copyMem) ?_
      intro other otherMem sameDst
      obtain ⟨inCopies, different⟩ := List.mem_filter.mp otherMem
      refine of_decide_eq_true different ?_
      rw [orderly.agree other inCopies copy copyMem sameDst, same, sameDst]
    · exact assigned.dst copy (List.mem_filter.mpr ⟨copyMem, decide_eq_true same⟩)
  · intro v small notDst
    exact assigned.other v small fun copy copyMem =>
      notDst copy (List.mem_filter.mp copyMem).1

end VliwCompiler.Isel
