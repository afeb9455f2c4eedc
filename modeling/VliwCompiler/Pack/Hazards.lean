import VliwCompiler.Pack.Merge
import VliwCompiler.Machine.Independent
import VliwCompiler.Asm.Run

/-!
# Hazards of accepted bundles

The verifier compares the general-purpose registers that the operands of a
bundle name.  A bundle it accepts can still have hazards on predicate registers
and on the link register, which `call` writes and `ret` reads without naming it.
Without these, the syllables of the bundle can be executed in any order.
-/

namespace VliwCompiler.Pack

open Asm (Opcode Operand Bundle Processor verifyBundle)
open Machine

/-! ### Accesses -/

/-- The opcode of a syllable; `nop` counts as none. -/
def opcodeOf (syllable : Asm.Syllable) : Option Opcode :=
  (Opcode.fromMnemonic syllable.opcode).filter (· ≠ .nop)

/-- Registers written, with the link register of a call. -/
def gprWrites (syllable : Asm.Syllable) : List UInt8 :=
  (gprWriteOf syllable).toList ++ if opcodeOf syllable = some .call then [linkReg] else []

/-- Registers read, with the link register of a return. -/
def allGprReads (syllable : Asm.Syllable) : List UInt8 :=
  gprReadsOf syllable ++ if opcodeOf syllable = some .ret then [linkReg] else []

/-- The predicate destination, by convention the first operand. -/
def predWriteOf (syllable : Asm.Syllable) : Option UInt8 :=
  match (opcodeOf syllable).any (·.writesPred), syllable.operands with
  | true, .pred n :: _ => some n
  | _, _ => none

/-- Predicates named by an operand list; the first one is skipped when it is the
destination. -/
def predReads (skipDest : Bool) : List Operand → List UInt8
  | [] => []
  | .pred n :: rest => if skipDest then predReads false rest else n :: predReads false rest
  | _ :: rest => predReads skipDest rest

def predReadsOf (syllable : Asm.Syllable) : List UInt8 :=
  match opcodeOf syllable with
  | none => []
  | some opcode => predReads opcode.writesPred syllable.operands

/-- One of the syllables writes a predicate that the other reads or writes. -/
def PredHazard (first second : Asm.Syllable) : Prop :=
  ∃ pred, (predWriteOf first = some pred ∧
      (predWriteOf second = some pred ∨ pred ∈ predReadsOf second)) ∨
    (predWriteOf second = some pred ∧ pred ∈ predReadsOf first)

/-- One of the syllables writes a register that the other reads or writes. -/
def GprHazard (first second : Asm.Syllable) : Prop :=
  ∃ reg, (reg ∈ gprWrites first ∧ (reg ∈ gprWrites second ∨ reg ∈ allGprReads second)) ∨
    (reg ∈ gprWrites second ∧ reg ∈ allGprReads first)

/-- The first syllable is a call and the second one names the link register, is
a call or is a return, or the first one is a return and the second one names the
link register as its destination. -/
def LinkHazard (first second : Asm.Syllable) : Prop :=
  (opcodeOf first = some .call ∧ (gprWriteOf second = some linkReg ∨
      linkReg ∈ gprReadsOf second ∨ opcodeOf second = some .call ∨
      opcodeOf second = some .ret)) ∨
    (opcodeOf first = some .ret ∧ gprWriteOf second = some linkReg)

/-- The syllables a processor issues for a bundle; slots beyond its width are
not written to the program. -/
def issued (processor : Processor) (bundle : Bundle) : List Asm.Syllable :=
  (bundle.slots.take processor.width).filterMap id

/-- No syllable writes a register or predicate that another one reads or
writes. -/
def HazardFree (processor : Processor) (bundle : Bundle) : Prop :=
  (issued processor bundle).Pairwise fun first second =>
    ¬GprHazard first second ∧ ¬PredHazard first second

/-! ### Execution -/

/-- The operation of a syllable on registers.  A call stores a return address,
the result of `call`; a branch reads its predicate and a return the link
register. -/
def registerAction (syllable : Asm.Syllable) : Option (Action Opcode UInt8) :=
  match syllable.control with
  | some (.branch cond _) => some (.test .branch none [.pred cond])
  | some (.jump _) => some .skip
  | some (.call _) => some (.compute .call (some linkReg) [])
  | some .ret => some (.compute .ret none [.gpr linkReg])
  | none => syllable.action

/-- The syllable accesses memory. -/
def accessesMemory (syllable : Asm.Syllable) : Bool :=
  (opcodeOf syllable).any fun opcode =>
    match opcode.behavior with
    | .load _ | .store _ | .acquire | .release => true
    | _ => false

/-- The syllables of a bundle that do not access memory can be executed one
after another in any order: every one reads the values it reads when they are
issued together, and the final state is the same. -/
def OrderIndependent (processor : Processor) (bundle : Bundle) : Prop :=
  ∀ isa actions state, ((issued processor bundle).filter (!accessesMemory ·)).mapM
      registerAction = some actions →
    (∀ order, order.Perm actions →
      Action.execAll isa order state = Action.issue isa actions state) ∧
    ∀ front action back, (front ++ action :: back).Perm actions →
      action.sources.map (·.read (Action.execAll isa front state)) =
        action.sources.map (·.read state)

/-! ### What the verifier establishes -/

theorem opcodeOf_eq_some {syllable : Asm.Syllable} {opcode : Opcode} :
    opcodeOf syllable = some opcode ↔
      Opcode.fromMnemonic syllable.opcode = some opcode ∧ opcode ≠ .nop := by
  simp [opcodeOf, Option.filter_eq_some_iff]

theorem mem_gprWrites {syllable : Asm.Syllable} {reg : UInt8} :
    reg ∈ gprWrites syllable ↔ gprWriteOf syllable = some reg ∨
      (reg = linkReg ∧ opcodeOf syllable = some .call) := by
  unfold gprWrites
  rw [List.mem_append, Option.mem_toList]
  split <;> simp_all

theorem mem_allGprReads {syllable : Asm.Syllable} {reg : UInt8} :
    reg ∈ allGprReads syllable ↔ reg ∈ gprReadsOf syllable ∨
      (reg = linkReg ∧ opcodeOf syllable = some .ret) := by
  unfold allGprReads
  rw [List.mem_append]
  split <;> simp_all

/-- Syllables in different slots of the issued part of a bundle. -/
theorem pairwise_issued {processor : Processor} {bundle : Bundle}
    {relation : Asm.Syllable → Asm.Syllable → Prop}
    (apart : ∀ i j first second, i < processor.width → j < processor.width → i < j →
      bundle.slots[i]? = some (some first) → bundle.slots[j]? = some (some second) →
      relation first second) : (issued processor bundle).Pairwise relation := by
  unfold issued
  rw [List.pairwise_filterMap, List.pairwise_iff_getElem]
  intro i j iInside jInside less first isFirst second isSecond
  rw [List.length_take] at iInside jInside
  rw [List.getElem_take] at isFirst isSecond
  refine apart i j first second (by omega) (by omega) less ?_ ?_
  · rw [List.getElem?_eq_getElem (by omega)]
    exact congrArg some isFirst
  · rw [List.getElem?_eq_getElem (by omega)]
    exact congrArg some isSecond

/-- Among the syllables of an accepted bundle, general-purpose registers meet in
the link register only. -/
theorem gprHazard_iff {processor : Processor} {bundle : Bundle}
    (accepted : verifyBundle bundle processor = .ok ()) :
    (issued processor bundle).Pairwise fun first second =>
      GprHazard first second ↔ LinkHazard first second ∨ LinkHazard second first := by
  have verified := verified_of_verifyBundle accepted
  refine pairwise_issued fun i j first second iInside jInside less isFirst isSecond => ?_
  have different := Nat.ne_of_lt less
  have noWaw : ∀ reg, gprWriteOf first = some reg → gprWriteOf second ≠ some reg := fun reg =>
    verified.waw iInside jInside different isFirst isSecond
  have noRaw : ∀ reg, gprWriteOf first = some reg → reg ∉ gprReadsOf second := fun reg =>
    verified.raw iInside jInside different isFirst isSecond
  have noRaw' : ∀ reg, gprWriteOf second = some reg → reg ∉ gprReadsOf first := fun reg =>
    verified.raw jInside iInside different.symm isSecond isFirst
  simp only [GprHazard, mem_gprWrites, mem_allGprReads]
  constructor
  · rintro ⟨reg, ⟨write | ⟨rfl, isCall⟩, (write' | ⟨isLink, isCall'⟩) | (read' | ⟨isLink, isRet'⟩)⟩ |
      ⟨write' | ⟨rfl, isCall'⟩, read | ⟨isLink, isRet⟩⟩⟩
    · exact absurd write' (noWaw reg write)
    · exact .inr (.inl ⟨isCall', .inl (isLink ▸ write)⟩)
    · exact absurd read' (noRaw reg write)
    · exact .inr (.inr ⟨isRet', isLink ▸ write⟩)
    · exact .inl (.inl ⟨isCall, .inl write'⟩)
    · exact .inl (.inl ⟨isCall, .inr (.inr (.inl isCall'))⟩)
    · exact .inl (.inl ⟨isCall, .inr (.inl read')⟩)
    · exact .inl (.inl ⟨isCall, .inr (.inr (.inr isRet'))⟩)
    · exact absurd read (noRaw' reg write')
    · exact .inl (.inr ⟨isRet, isLink ▸ write'⟩)
    · exact .inr (.inl ⟨isCall', .inr (.inl read)⟩)
    · exact .inr (.inl ⟨isCall', .inr (.inr (.inr isRet))⟩)
  · rintro ((⟨isCall, write | read | isCall' | isRet⟩ | ⟨isRet, write⟩) |
      (⟨isCall, write | read | isCall' | isRet⟩ | ⟨isRet, write⟩))
    · exact ⟨linkReg, .inl ⟨.inr ⟨rfl, isCall⟩, .inl (.inl write)⟩⟩
    · exact ⟨linkReg, .inl ⟨.inr ⟨rfl, isCall⟩, .inr (.inl read)⟩⟩
    · exact ⟨linkReg, .inl ⟨.inr ⟨rfl, isCall⟩, .inl (.inr ⟨rfl, isCall'⟩)⟩⟩
    · exact ⟨linkReg, .inl ⟨.inr ⟨rfl, isCall⟩, .inr (.inr ⟨rfl, isRet⟩)⟩⟩
    · exact ⟨linkReg, .inr ⟨.inl write, .inr ⟨rfl, isRet⟩⟩⟩
    · exact ⟨linkReg, .inl ⟨.inl write, .inl (.inr ⟨rfl, isCall⟩)⟩⟩
    · exact ⟨linkReg, .inr ⟨.inr ⟨rfl, isCall⟩, .inl read⟩⟩
    · exact ⟨linkReg, .inl ⟨.inr ⟨rfl, isCall'⟩, .inl (.inr ⟨rfl, isCall⟩)⟩⟩
    · exact ⟨linkReg, .inr ⟨.inr ⟨rfl, isCall⟩, .inr ⟨rfl, isRet⟩⟩⟩
    · exact ⟨linkReg, .inl ⟨.inl write, .inr (.inr ⟨rfl, isRet⟩)⟩⟩

/-! ### Actions -/

theorem mem_predReads_of_sources {operands : List Operand} {sources : List (Source UInt8)}
    (denote : operands.mapM Operand.source = some sources) {pred : UInt8}
    (sourceMem : Source.pred pred ∈ sources) : pred ∈ predReads false operands := by
  have related := mapM_eq_some_iff.mp denote
  clear denote
  induction related with
  | nil => simp at sourceMem
  | @cons operand source operands sources isSource _ ih =>
      rcases List.mem_cons.mp sourceMem with rfl | tailMem
      · cases operand <;> simp_all [Operand.source, predReads]
      · have inTail := ih tailMem
        cases operand <;> simp [predReads, inTail]

/-- Predicates written and read by the action of a syllable are those its
operands name. -/
theorem pred_of_action {syllable : Asm.Syllable} {action : Action Opcode UInt8}
    (denotes : syllable.action = some action) :
    (∀ pred, action.predDst = some pred → predWriteOf syllable = some pred) ∧
      ∀ pred, Source.pred pred ∈ action.sources → pred ∈ predReadsOf syllable := by
  obtain ⟨opcode, known, operands⟩ := Option.bind_eq_some_iff.mp denotes
  have writes := Opcode.writes_of_behavior opcode
  have isOpcode : opcode ≠ .nop → opcodeOf syllable = some opcode := fun proper =>
    opcodeOf_eq_some.mpr ⟨known, proper⟩
  have readsOf : opcode ≠ .nop →
      predReadsOf syllable = predReads opcode.writesPred syllable.operands := by
    intro proper
    simp [predReadsOf, isOpcode proper]
  unfold Asm.operandsAction at operands
  split at operands
  · rename_i dst srcs behavior shape
    have proper := Opcode.ne_nop_of_behavior (behavior.trans_ne (by simp))
    rw [behavior] at writes
    obtain ⟨sources, denote, rfl⟩ := Option.map_eq_some_iff.mp operands
    rw [readsOf proper, shape, writes.2]
    exact ⟨fun pred dstEq => (by cases dstEq),
      fun pred sourceMem => mem_predReads_of_sources denote sourceMem⟩
  · rename_i dst srcs behavior shape
    have proper := Opcode.ne_nop_of_behavior (behavior.trans_ne (by simp))
    rw [behavior] at writes
    obtain ⟨sources, denote, rfl⟩ := Option.map_eq_some_iff.mp operands
    rw [readsOf proper, shape, writes.2]
    refine ⟨fun pred dstEq => ?_, fun pred sourceMem => mem_predReads_of_sources denote sourceMem⟩
    simpa [predWriteOf, isOpcode proper, writes.2, shape, Action.predDst] using dstEq
  · rename_i width dst base offset behavior shape
    cases operands
    exact ⟨fun pred dstEq => (by cases dstEq),
      fun pred sourceMem => by simp [Action.sources] at sourceMem⟩
  · rename_i width base offset data behavior shape
    have proper := Opcode.ne_nop_of_behavior (behavior.trans_ne (by simp))
    rw [behavior] at writes
    obtain ⟨source, denote, rfl⟩ := Option.map_eq_some_iff.mp operands
    rw [readsOf proper, shape, writes.2]
    refine ⟨fun pred dstEq => (by cases dstEq), fun pred sourceMem => ?_⟩
    simp only [Action.sources, List.mem_cons, List.not_mem_nil, or_false, reduceCtorEq,
      false_or] at sourceMem
    subst sourceMem
    cases data <;> simp_all [Operand.source, predReads]
  · rename_i dst srcs behavior shape
    have proper := Opcode.ne_nop_of_behavior (behavior.trans_ne (by simp))
    rw [behavior] at writes
    obtain ⟨sources, denote, rfl⟩ := Option.map_eq_some_iff.mp operands
    rw [readsOf proper, shape, writes.2]
    exact ⟨fun pred dstEq => (by cases dstEq),
      fun pred sourceMem => mem_predReads_of_sources denote sourceMem⟩
  · rename_i behavior
    have proper := Opcode.ne_nop_of_behavior (behavior.trans_ne (by simp))
    rw [behavior] at writes
    obtain ⟨sources, denote, rfl⟩ := Option.map_eq_some_iff.mp operands
    rw [readsOf proper, writes.2]
    exact ⟨fun pred dstEq => (by cases dstEq),
      fun pred sourceMem => mem_predReads_of_sources denote sourceMem⟩
  · obtain ⟨sources, -, rfl⟩ := Option.map_eq_some_iff.mp operands
    exact ⟨fun pred dstEq => (by cases dstEq), fun pred sourceMem => (by cases sourceMem)⟩
  · cases operands

/-- What a syllable does to registers is covered by its accesses. -/
structure Covered (syllable : Asm.Syllable) (action : Action Opcode UInt8) : Prop where
  gprDst : ∀ reg, action.gprDst = some reg → reg ∈ gprWrites syllable
  gprSource : ∀ reg, Source.gpr reg ∈ action.sources → reg ∈ allGprReads syllable
  predDst : ∀ pred, action.predDst = some pred → predWriteOf syllable = some pred
  predSource : ∀ pred, Source.pred pred ∈ action.sources → pred ∈ predReadsOf syllable

theorem covered_of_registerAction {syllable : Asm.Syllable} {action : Action Opcode UInt8}
    (denotes : registerAction syllable = some action) : Covered syllable action := by
  unfold registerAction at denotes
  cases isControl : syllable.control with
  | none =>
      rw [isControl] at denotes
      obtain ⟨gprDst, gprSource⟩ := gpr_of_action denotes
      obtain ⟨predDst, predSource⟩ := pred_of_action denotes
      exact ⟨fun reg isDst => mem_gprWrites.mpr (.inl (gprDst reg isDst)),
        fun reg isSource => mem_allGprReads.mpr (.inl (gprSource reg isSource)), predDst,
        predSource⟩
  | some control =>
      rw [isControl] at denotes
      unfold Asm.Syllable.control at isControl
      split at isControl
      · rename_i cond target known shape
        cases isControl
        cases denotes
        have isOpcode := opcodeOf_eq_some.mpr ⟨known, Opcode.noConfusion⟩
        refine ⟨by simp [Action.gprDst], by simp [Action.sources], by simp [Action.predDst], ?_⟩
        intro pred isSource
        simpa [predReadsOf, isOpcode, Opcode.writesPred, shape, predReads, Action.sources]
          using isSource
      · cases isControl
        cases denotes
        exact ⟨by simp [Action.gprDst], by simp [Action.sources], by simp [Action.predDst],
          by simp [Action.sources]⟩
      · rename_i target known shape
        cases isControl
        cases denotes
        have isOpcode := opcodeOf_eq_some.mpr ⟨known, Opcode.noConfusion⟩
        refine ⟨?_, by simp [Action.sources], by simp [Action.predDst], by simp [Action.sources]⟩
        intro reg isDst
        cases isDst
        exact mem_gprWrites.mpr (.inr ⟨rfl, isOpcode⟩)
      · rename_i known shape
        cases isControl
        cases denotes
        have isOpcode := opcodeOf_eq_some.mpr ⟨known, Opcode.noConfusion⟩
        refine ⟨by simp [Action.gprDst], ?_, by simp [Action.predDst], by simp [Action.sources]⟩
        intro reg isSource
        obtain rfl : reg = linkReg := by simpa [Action.sources] using isSource
        exact mem_allGprReads.mpr (.inr ⟨rfl, isOpcode⟩)
      · cases isControl

theorem memory_of_registerAction {syllable : Asm.Syllable} {action : Action Opcode UInt8}
    (denotes : registerAction syllable = some action) (pure : accessesMemory syllable = false)
    (state : State UInt8) : action.memReads state = ∅ ∧ action.memWrites state = ∅ := by
  unfold registerAction at denotes
  split at denotes
  · cases denotes
    exact ⟨rfl, rfl⟩
  · cases denotes
    exact ⟨rfl, rfl⟩
  · cases denotes
    exact ⟨rfl, rfl⟩
  · cases denotes
    exact ⟨rfl, rfl⟩
  · obtain ⟨opcode, known, operands⟩ := Option.bind_eq_some_iff.mp denotes
    have noAccess : opcode ≠ .nop → (match opcode.behavior with
        | .load _ | .store _ | .acquire | .release => true
        | _ => false) = false := by
      intro proper
      have isOpcode := opcodeOf_eq_some.mpr ⟨known, proper⟩
      simpa only [accessesMemory, isOpcode, Option.any_some] using pure
    unfold Asm.operandsAction at operands
    split at operands
    · obtain ⟨sources, -, rfl⟩ := Option.map_eq_some_iff.mp operands
      exact ⟨rfl, rfl⟩
    · obtain ⟨sources, -, rfl⟩ := Option.map_eq_some_iff.mp operands
      exact ⟨rfl, rfl⟩
    · rename_i behavior _
      have proper := Opcode.ne_nop_of_behavior (behavior.trans_ne (by simp))
      rw [behavior] at noAccess
      exact absurd (noAccess proper) (by simp)
    · rename_i behavior _
      have proper := Opcode.ne_nop_of_behavior (behavior.trans_ne (by simp))
      rw [behavior] at noAccess
      exact absurd (noAccess proper) (by simp)
    · rename_i behavior _
      have proper := Opcode.ne_nop_of_behavior (behavior.trans_ne (by simp))
      rw [behavior] at noAccess
      exact absurd (noAccess proper) (by simp)
    · rename_i behavior
      have proper := Opcode.ne_nop_of_behavior (behavior.trans_ne (by simp))
      rw [behavior] at noAccess
      exact absurd (noAccess proper) (by simp)
    · obtain ⟨sources, -, rfl⟩ := Option.map_eq_some_iff.mp operands
      exact ⟨rfl, rfl⟩
    · cases operands

/-- The actions of two syllables without a hazard do not meet. -/
theorem independent_of_covered {first second : Asm.Syllable} {left right : Action Opcode UInt8}
    (isLeft : Covered first left) (isRight : Covered second right)
    (noGpr : ¬GprHazard first second) (noPred : ¬PredHazard first second) {state : State UInt8}
    (leftMemory : left.memReads state = ∅ ∧ left.memWrites state = ∅)
    (rightMemory : right.memReads state = ∅ ∧ right.memWrites state = ∅) :
    Action.Independent state left right := by
  refine ⟨⟨?_, ?_, ?_⟩, ⟨?_, ?_, ?_⟩, ⟨?_, ?_, ?_⟩⟩
  · intro reg isDst _ isSource
    exact noGpr ⟨reg, .inl ⟨isLeft.gprDst reg isDst, .inr (isRight.gprSource reg isSource)⟩⟩
  · intro pred isDst isSource
    exact noPred ⟨pred, .inl ⟨isLeft.predDst pred isDst, .inr (isRight.predSource pred isSource)⟩⟩
  · rw [leftMemory.2]
    exact Set.empty_disjoint _
  · intro reg isDst _ isSource
    exact noGpr ⟨reg, .inr ⟨isRight.gprDst reg isDst, isLeft.gprSource reg isSource⟩⟩
  · intro pred isDst isSource
    exact noPred ⟨pred, .inr ⟨isRight.predDst pred isDst, isLeft.predSource pred isSource⟩⟩
  · rw [rightMemory.2]
    exact Set.empty_disjoint _
  · intro reg isDst isDst'
    exact absurd ⟨reg, .inl ⟨isLeft.gprDst reg isDst, .inl (isRight.gprDst reg isDst')⟩⟩ noGpr
  · intro pred isDst isDst'
    exact noPred ⟨pred, .inl ⟨isLeft.predDst pred isDst, .inl (isRight.predDst pred isDst')⟩⟩
  · rw [leftMemory.2]
    exact Set.empty_disjoint _

/-- Without hazards, the syllables can be executed in any order. -/
theorem orderIndependent_of_hazardFree {processor : Processor} {bundle : Bundle}
    (free : HazardFree processor bundle) : OrderIndependent processor bundle := by
  intro isa actions state denote
  have independent : actions.Pairwise (Action.Independent state) := by
    refine pairwise_of_forall₂ (mapM_eq_some_iff.mp denote) ?_
      (List.Pairwise.and_mem.mp (free.filter _))
    rintro first left second right isLeft isRight ⟨firstMem, secondMem, noGpr, noPred⟩
    have firstPure : accessesMemory first = false := by
      simpa using (List.mem_filter.mp firstMem).2
    have secondPure : accessesMemory second = false := by
      simpa using (List.mem_filter.mp secondMem).2
    exact independent_of_covered (covered_of_registerAction isLeft)
      (covered_of_registerAction isRight) noGpr noPred
      (memory_of_registerAction isLeft firstPure state)
      (memory_of_registerAction isRight secondPure state)
  exact ⟨fun order perm => Action.execAll_perm isa independent perm,
    fun front action back perm => Action.reads_of_independent isa independent perm⟩

/-- Among the syllables of an accepted bundle there are no hazards, and those
that do not access memory can be executed in any order, exactly when no two of
them meet in a predicate register or in the link register of a call or
return. -/
theorem verifyBundle_sound_iff {processor : Processor} {bundle : Bundle}
    (accepted : verifyBundle bundle processor = .ok ()) :
    (HazardFree processor bundle ∧ OrderIndependent processor bundle) ↔
      (issued processor bundle).Pairwise fun first second =>
        ¬PredHazard first second ∧ ¬LinkHazard first second ∧ ¬LinkHazard second first := by
  have free_iff : HazardFree processor bundle ↔
      (issued processor bundle).Pairwise fun first second =>
        ¬PredHazard first second ∧ ¬LinkHazard first second ∧ ¬LinkHazard second first := by
    have registers := gprHazard_iff accepted
    constructor
    · intro free
      refine free.imp₂ ?_ registers
      rintro first second ⟨noGpr, noPred⟩ isLink
      exact ⟨noPred, not_or.mp (mt isLink.mpr noGpr)⟩
    · intro unmet
      refine unmet.imp₂ ?_ registers
      rintro first second ⟨noPred, noLink⟩ isLink
      exact ⟨mt isLink.mp (not_or.mpr noLink), noPred⟩
  rw [← free_iff]
  exact ⟨fun both => both.1, fun free => ⟨free, orderIndependent_of_hazardFree free⟩⟩

/-- An addition, a comparison and a return. -/
def compareAndReturn : Bundle where
  slots := [some ⟨"add", [.reg 2, .reg 3, .reg 4]⟩, some ⟨"cmplt", [.pred 1, .reg 3, .reg 4]⟩, none,
    some ⟨"ret", []⟩]

theorem verifyBundle_sound_iff_compareAndReturn :
    verifyBundle compareAndReturn .default = .ok () ∧
      HazardFree .default compareAndReturn ∧ OrderIndependent .default compareAndReturn := by
  have accepted : verifyBundle compareAndReturn .default = .ok () := by decide +kernel
  refine ⟨accepted, (verifyBundle_sound_iff accepted).mpr ?_⟩
  simp [issued, compareAndReturn, Processor.default, PredHazard, LinkHazard, predWriteOf,
    predReadsOf, opcodeOf, Opcode.fromMnemonic, Opcode.writesPred, predReads, gprWriteOf,
    Asm.gprWrite, Opcode.writesGpr, Option.filter, linkReg]

/-- A comparison and the negation of its result. -/
def compareAndNegate : Bundle where
  slots := [some ⟨"cmplt", [.pred 1, .reg 2, .reg 3]⟩, none, none, some ⟨"pnot", [.pred 2, .pred 1]⟩]

/-- The verifier accepts a negation next to the comparison that writes its
operand.  Executed after the comparison, it computes another predicate than when
the two are issued together. -/
theorem predicateHazard_accepted :
    verifyBundle compareAndNegate .default = .ok () ∧ ¬HazardFree .default compareAndNegate ∧
      ¬OrderIndependent .default compareAndNegate := by
  refine ⟨by decide +kernel, ?_, ?_⟩
  · intro free
    have apart := (List.pairwise_cons.mp free).1 ⟨"pnot", [.pred 2, .pred 1]⟩
      (List.mem_singleton_self _)
    exact apart.2 ⟨1, .inl ⟨rfl, .inr List.mem_cons_self⟩⟩
  · intro independent
    let isa : Isa Opcode :=
      { (default : Isa Opcode) with flag := fun _ values => values.all fun
        | .flag value => !value
        | .word _ => true }
    have denote : ((issued .default compareAndNegate).filter (!accessesMemory ·)).mapM
        registerAction = some [.test .cmpLt (some 1) [.gpr 2, .gpr 3],
          .test .pNot (some 2) [.pred 1]] := rfl
    have same := (independent isa _ default denote).1 _ (List.Perm.refl _)
    have flags := congrArg (fun state : State UInt8 => state.pred 2) same
    revert flags
    decide

end VliwCompiler.Pack
