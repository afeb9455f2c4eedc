import VliwCompiler.Isel.Copies
import VliwCompiler.Regalloc.Operation

/-!
# Phis on edges

The blocks that instruction selection produces before its phis are lowered have
a meaning of their own: an edge between two LLVM blocks gives all phis of its
target their incoming values at once.  A register is needed at the start of a
block when some path reads it before that block's code, or the phis on the way,
give it a new value.  Two states that agree on the needed registers cannot be
told apart by the code that follows.
-/

namespace VliwCompiler.Isel

open Asm (Opcode)
open Mir (Reg Value Syllable Terminator Block execSyllables predicateSources)
open Llvm (BlockRef)
open Machine
open Worklist (Edge Successors)

/-! ### States that agree -/

/-- Two states with the same fixed registers, predicates and memory, and with the
same values in the virtual registers of a set. -/
structure SameOn (needed : Nat → Prop) (state state' : State Reg) : Prop where
  vreg : ∀ v, needed v → state'.gpr (.vreg v) = state.gpr (.vreg v)
  preg : ∀ n, state'.gpr (.preg n) = state.gpr (.preg n)
  pred : state'.pred = state.pred
  mem : state'.mem = state.mem

/-- The syllable reads the integer register. -/
def ReadsGpr (syllable : Syllable) (v : Nat) : Prop :=
  predicateSources syllable.opcode = false ∧ v ∈ syllable.sourceVregs

/-- The syllable writes the integer register. -/
def WritesGpr (syllable : Syllable) (v : Nat) : Prop :=
  syllable.opcode.writesGpr = true ∧ syllable.dstVreg = some v

/-- Code reads the register before writing it. -/
def ReadFirst (v : Nat) : List Syllable → Prop
  | [] => False
  | syllable :: rest => ReadsGpr syllable v ∨ (¬WritesGpr syllable v ∧ ReadFirst v rest)

/-- Code leaves the register alone. -/
def Keeps (v : Nat) (code : List Syllable) : Prop := ∀ syllable ∈ code, ¬WritesGpr syllable v

section

variable {needed after : Nat → Prop} {state state' final : State Reg} {syllable : Syllable}
  {code : List Syllable}

theorem ReadFirst.exists_reads {v : Nat} (reads : ReadFirst v code) :
    ∃ syllable ∈ code, ReadsGpr syllable v := by
  induction code with
  | nil => cases reads
  | cons syllable rest ih =>
      rcases reads with reads | ⟨-, later⟩
      · exact ⟨syllable, List.mem_cons_self, reads⟩
      · obtain ⟨other, otherMem, isRead⟩ := ih later
        exact ⟨other, List.mem_cons_of_mem _ otherMem, isRead⟩

theorem SameOn.refl (needed : Nat → Prop) (state : State Reg) : SameOn needed state state :=
  ⟨fun _ _ => rfl, fun _ => rfl, rfl, rfl⟩

theorem SameOn.mono {others : Nat → Prop} (same : SameOn needed state state')
    (included : ∀ v, others v → needed v) : SameOn others state state' :=
  ⟨fun v isOther => same.vreg v (included v isOther), same.preg, same.pred, same.mem⟩

theorem SameOn.readGpr (same : SameOn needed state state') {reg : Reg}
    (isNeeded : ∀ v, reg = .vreg v → needed v) : state'.readGpr reg = state.readGpr reg := by
  unfold State.readGpr
  split
  · rfl
  · cases reg with
    | vreg v => exact same.vreg v (isNeeded v rfl)
    | preg n => exact same.preg n

/-- An action reads the same values when the sources of its syllable agree. -/
theorem SameOn.agree (same : SameOn needed state state')
    (reads : ∀ v, ReadsGpr syllable v → needed v) {action : Action Opcode Reg}
    (denotes : syllable.action = some action) : action.Agree state state' where
  sources := by
    intro operand isSource
    rcases Regalloc.source_cases denotes isSource with ⟨value, rfl⟩ | rfl | ⟨reg, regMem, rfl⟩
    · rfl
    · have isFixed : ∀ v, (0 : Reg) = .vreg v → needed v := by rintro v ⟨⟩
      simp only [Source.read, same.readGpr isFixed]
    · cases isClass : predicateSources syllable.opcode with
      | true => simp only [if_true, Source.read, same.pred]
      | false =>
          have isNeeded : ∀ v, reg = .vreg v → needed v := by
            rintro v rfl
            exact reads v ⟨isClass, Syllable.mem_sourceVregs.mpr regMem⟩
          simp only [Bool.false_eq_true, if_false, Source.read, same.readGpr isNeeded]
  mem := fun cell _ => by rw [same.mem]

/-- One syllable keeps states in agreement. -/
theorem SameOn.exec (isa : Isa Opcode)
    (same : SameOn (fun v => ReadsGpr syllable v ∨ (¬WritesGpr syllable v ∧ after v)) state state')
    {action : Action Opcode Reg} (denotes : syllable.action = some action) :
    SameOn after (action.exec isa state) (action.exec isa state') := by
  have sameEffect := Action.effect_congr isa (same.agree (fun _ => .inl) denotes)
  have gpr : ∀ reg, (∀ v, reg = .vreg v → after v) →
      (action.exec isa state').gpr reg = (action.exec isa state).gpr reg := by
    intro reg isAfter
    by_cases isDst : action.gprDst = some reg
    · obtain ⟨value, isWrite⟩ := Action.exists_gpr_write isa action state isDst
      by_cases isZero : reg = 0
      · rw [isZero, Action.exec_gpr_zero, Action.exec_gpr_zero]
        exact same.preg 0
      · rw [Action.exec_gpr_of_eq isa action state isWrite isZero,
          Action.exec_gpr_of_eq isa action state' (sameEffect ▸ isWrite) isZero]
    · rw [Action.exec_gpr_of_ne isa action state isDst, Action.exec_gpr_of_ne isa action state' isDst]
      cases reg with
      | preg n => exact same.preg n
      | vreg v =>
          refine same.vreg v (.inr ⟨?_, isAfter v rfl⟩)
          rintro ⟨writes, isVreg⟩
          rw [((Regalloc.dst_action denotes).1 writes).1] at isDst
          exact isDst (Syllable.dstVreg_eq_some.mp isVreg)
  refine ⟨fun v isAfter => gpr _ (by rintro _ ⟨⟩; exact isAfter), fun n => gpr _ (by rintro _ ⟨⟩), ?_,
    ?_⟩
  · unfold Action.exec Effect.apply
    rw [sameEffect, same.pred]
  · unfold Action.exec Effect.apply
    rw [sameEffect, same.mem]

/-- Code keeps states in agreement. -/
theorem SameOn.execSyllables (isa : Isa Opcode)
    (same : SameOn (fun v => ReadFirst v code ∨ (Keeps v code ∧ after v)) state state')
    (executed : execSyllables isa code state = some final) :
    ∃ final', Mir.execSyllables isa code state' = some final' ∧ SameOn after final final' := by
  induction code generalizing state state' with
  | nil =>
      cases executed
      exact ⟨state', rfl, same.mono fun v isAfter => .inr ⟨by simp [Keeps], isAfter⟩⟩
  | cons syllable rest ih =>
      rw [← List.singleton_append, Mir.execSyllables_append, Mir.execSyllables_singleton] at executed ⊢
      obtain ⟨middle, isMiddle, executed⟩ := Option.bind_eq_some_iff.mp executed
      obtain ⟨action, denotes, rfl⟩ := Option.map_eq_some_iff.mp isMiddle
      rw [denotes, Option.map_some, Option.bind_some]
      refine ih (SameOn.exec isa (same.mono ?_) denotes) executed
      rintro v (reads | ⟨notWritten, readsLater | ⟨kept, isAfter⟩⟩)
      · exact .inl (.inl reads)
      · exact .inl (.inr ⟨notWritten, readsLater⟩)
      · exact .inr ⟨List.forall_mem_cons.mpr ⟨notWritten, kept⟩, isAfter⟩

end

/-! ### The meaning of phis -/

/-- Give every destination the value that its source has now. -/
def assign (copies : List PhiCopy) (state : State Reg) : State Reg :=
  { state with
    gpr := fun reg =>
      match copies.find? fun copy => reg = .vreg copy.dst with
      | some copy => copy.src.value state
      | none => state.gpr reg }

/-- A function about to execute the code of an LLVM block whose phis have their
values, or one that has returned. -/
structure EdgeConfig where
  label : Option String
  state : State Reg

section

variable (function : Llvm.Function) (traversal : Traversal)

/-- The phi values that the edge from `pred` to `target` brings. -/
def edgeCopies (pred target : String) : List PhiCopy :=
  traversal.selection.pendingPhis.flatMap fun phi =>
    phi.incoming.filterMap fun incoming =>
      if phi.phiBlockLabel = target ∧ incoming.1 = pred then
        (copySrc traversal.selection incoming.2).toOption.map fun src => ⟨phi.dst, src⟩
      else none

/-- The MIR block of an LLVM block without calls. -/
def siteBlock (label : String) : Option Block :=
  traversal.selection.mirBlocks.find? (·.label = label)

/-- The successor that a terminator chooses; the false successor of a branch is
that of the LLVM block. -/
def nextLabel (label : String) (state : State Reg) : Terminator → Option (Option String)
  | .jump target => some (some target)
  | .branch cond target =>
      if state.pred cond then some (some target)
      else (successorsOf function label).next.map some
  | .ret => some none
  | .directCall _ _ => none

/-- Leave a block by an edge, giving the phis of its target their values. -/
def leave (label : String) (state : State Reg) : Option String → EdgeConfig
  | some target => ⟨some target, assign (edgeCopies traversal label target) state⟩
  | none => ⟨none, state⟩

/-- Execute the code of one LLVM block and the phis of the edge taken. -/
def edgeStep (isa : Isa Opcode) (config : EdgeConfig) : Option EdgeConfig :=
  config.label.bind fun label =>
    (siteBlock traversal label).bind fun block =>
      (execSyllables isa block.syllables config.state).bind fun state =>
        (nextLabel function label state block.terminator).map (leave traversal label state)

/-! ### Needed registers -/

/-- The register is needed at the start of a block whose phis have their values:
the block reads it, or a phi on an edge that leaves the block does, or it is
needed at the end of such an edge and is not one of its phis. -/
inductive NeededAt (v : Nat) : String → Prop where
  | read {label : String} {block : Block} (isBlock : siteBlock traversal label = some block)
      (reads : ReadFirst v block.syllables) : NeededAt v label
  | copied {label target : String} {block : Block} {copy : PhiCopy}
      (isBlock : siteBlock traversal label = some block) (kept : Keeps v block.syllables)
      (edge : Edge (successorsOf function) label target)
      (copyMem : copy ∈ edgeCopies traversal label target) (isSrc : copy.src = .vreg v) :
      NeededAt v label
  | passed {label target : String} {block : Block}
      (isBlock : siteBlock traversal label = some block) (kept : Keeps v block.syllables)
      (edge : Edge (successorsOf function) label target)
      (other : ∀ copy ∈ edgeCopies traversal label target, copy.dst ≠ v)
      (needed : NeededAt v target) : NeededAt v label

/-- The register is needed on the edge from `pred` to `target`, before its phis
get their values. -/
def NeededOn (pred target : String) (v : Nat) : Prop :=
  (∃ copy ∈ edgeCopies traversal pred target, copy.src = .vreg v) ∨
    (NeededAt function traversal v target ∧ ∀ copy ∈ edgeCopies traversal pred target, copy.dst ≠ v)

/-- The copies that a block executes for its other edges do no harm to an edge:
they leave alone what is needed at its target and, when the edge has a latch,
what its own copies read.  An edge with a latch is no true edge at the same
time. -/
structure EdgesApart : Prop where
  direct : ∀ pred target other, pred ∈ blockOrder function →
    Edge (successorsOf function) pred target → ¬Latched function pred target →
    ¬Latched function pred other → ∀ copy ∈ edgeCopies traversal pred other,
      NeededAt function traversal copy.dst target →
        ∃ own ∈ edgeCopies traversal pred target, own.dst = copy.dst
  latched : ∀ pred target other, pred ∈ blockOrder function → Latched function pred target →
    ¬Latched function pred other → ∀ copy ∈ edgeCopies traversal pred other,
      ¬NeededOn function traversal pred target copy.dst
  oneWay : ∀ pred target, pred ∈ blockOrder function → Latched function pred target →
    (successorsOf function pred).later = some target → edgeCopies traversal pred target = []

end

section

variable {function : Llvm.Function} {traversal : Traversal} {pred target label : String}

theorem mem_edgeCopies {copy : PhiCopy} :
    copy ∈ edgeCopies traversal pred target ↔
      ∃ phi ∈ traversal.selection.pendingPhis, phi.phiBlockLabel = target ∧
        ∃ value ∈ phi.incoming, value.1 = pred ∧ copy.dst = phi.dst ∧
          copySrc traversal.selection value.2 = .ok copy.src := by
  unfold edgeCopies
  rw [List.mem_flatMap]
  refine exists_congr fun phi => and_congr_right fun _ => ?_
  rw [List.mem_filterMap]
  constructor
  · rintro ⟨value, valueMem, isCopy⟩
    split at isCopy
    · rename_i here
      obtain ⟨src, isSrc, rfl⟩ := Option.map_eq_some_iff.mp isCopy
      refine ⟨here.1, value, valueMem, here.2, rfl, ?_⟩
      cases outcome : copySrc traversal.selection value.2 with
      | error failure =>
          rw [outcome] at isSrc
          cases isSrc
      | ok other =>
          rw [outcome] at isSrc
          exact congrArg Except.ok (Option.some.inj isSrc)
    · cases isCopy
  · rintro ⟨isTarget, value, valueMem, isPred, isDst, isSrc⟩
    refine ⟨value, valueMem, ?_⟩
    rw [if_pos ⟨isTarget, isPred⟩, isSrc]
    exact congrArg some (by rw [← isDst])

/-- The registers needed before a block's code are those read by it and those
needed on the edges that leave it. -/
theorem needed_of_neededOn {v : Nat} {block : Block}
    (isBlock : siteBlock traversal label = some block) (kept : Keeps v block.syllables)
    (edge : Edge (successorsOf function) label target)
    (neededOn : NeededOn function traversal label target v) :
    NeededAt function traversal v label := by
  rcases neededOn with ⟨copy, copyMem, isSrc⟩ | ⟨needed, other⟩
  · exact .copied isBlock kept edge copyMem isSrc
  · exact .passed isBlock kept edge other needed

end

/-! ### Parallel assignment -/

section

variable {copies : List PhiCopy} {state state' final : State Reg} {nextVreg : Nat}

theorem assign_dst (agree : Agree copies) {copy : PhiCopy} (copyMem : copy ∈ copies) :
    (assign copies state).gpr (.vreg copy.dst) = copy.src.value state := by
  unfold assign
  dsimp only
  split
  · rename_i found isFound
    have same : copy.dst = found.dst := by simpa using List.find?_some isFound
    rw [agree copy copyMem found (List.mem_of_find?_eq_some isFound) same]
  · rename_i notFound
    have isOther := List.find?_eq_none.mp notFound copy copyMem
    simp at isOther

theorem assign_other {v : Nat} (other : ∀ copy ∈ copies, copy.dst ≠ v) :
    (assign copies state).gpr (.vreg v) = state.gpr (.vreg v) := by
  have notFound : copies.find? (fun copy => Reg.vreg v = .vreg copy.dst) = none := by
    rw [List.find?_eq_none]
    intro copy copyMem
    simpa using (other copy copyMem).symm
  unfold assign
  dsimp only
  rw [notFound]

theorem assign_preg {n : UInt8} : (assign copies state).gpr (.preg n) = state.gpr (.preg n) := by
  have notFound : copies.find? (fun copy => Reg.preg n = .vreg copy.dst) = none := by
    rw [List.find?_eq_none]
    intro copy copyMem
    simp
  unfold assign
  dsimp only
  rw [notFound]

end

end VliwCompiler.Isel
