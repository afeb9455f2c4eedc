import VliwCompiler.Pack.Packer
import VliwCompiler.Asm.Blocks
import VliwCompiler.Machine.Commute

/-!
# Merging one syllable into a bundle

What the bundle verifier guarantees about the registers of co-issued syllables,
and when issuing a syllable together with the bundle before it is the same as
issuing it afterwards.  The verifier looks at general-purpose registers only;
predicates and memory are the subject of `Hazard`.
-/

namespace VliwCompiler.Pack

open Asm (Opcode Operand Bundle Processor gprWrite gprReads visitSlot findWaw findRaw Accesses
  verifyBundle)
open Machine

/-! ### What the verifier checks -/

/-- Register accesses of a syllable as the verifier sees them. -/
def gprWriteOf (syllable : Asm.Syllable) : Option UInt8 :=
  (Opcode.fromMnemonic syllable.opcode).bind fun opcode =>
    if opcode = .nop then none else gprWrite opcode syllable.operands

@[inherit_doc gprWriteOf]
def gprReadsOf (syllable : Asm.Syllable) : List UInt8 :=
  match Opcode.fromMnemonic syllable.opcode with
  | none => []
  | some opcode =>
      if opcode = .nop then [] else gprReads opcode.writesGpr syllable.operands

/-- The accesses recorded for a syllable in a slot. -/
structure Recorded (accesses : Accesses) (slot : Nat) (syllable : Asm.Syllable) : Prop where
  writes : ∀ reg, gprWriteOf syllable = some reg → (reg, slot) ∈ accesses.writes
  reads : ∀ reg ∈ gprReadsOf syllable, (reg, slot) ∈ accesses.reads

theorem visitSlot_eq_ok {bundle : Bundle} {processor : Processor} {before after : Accesses}
    {slot : Nat} (visited : visitSlot bundle processor before slot = .ok after) :
    (∃ writes, after.writes = before.writes ++ writes ∧ ∀ write ∈ writes, write.2 = slot) ∧
      (∃ reads, after.reads = before.reads ++ reads) ∧
      ∀ syllable, bundle.slots[slot]? = some (some syllable) → Recorded after slot syllable := by
  unfold visitSlot at visited
  cases present : bundle.slots[slot]?.join with
  | none =>
      rw [present] at visited
      cases visited
      refine ⟨⟨[], by simp⟩, ⟨[], by simp⟩, ?_⟩
      intro syllable found
      simp [found] at present
  | some syllable =>
      have only : ∀ other, bundle.slots[slot]? = some (some other) → other = syllable := by
        intro other found
        simpa [found] using present
      rw [present] at visited
      simp only at visited
      cases known : Opcode.fromMnemonic syllable.opcode with
      | none => simp [known] at visited
      | some opcode =>
          rw [known] at visited
          simp only at visited
          by_cases nop : opcode = .nop
          · rw [if_pos nop] at visited
            cases visited
            refine ⟨⟨[], by simp⟩, ⟨[], by simp⟩, ?_⟩
            intro other found
            rw [only other found]
            exact ⟨fun reg written => by simp [gprWriteOf, known, nop] at written,
              fun reg read => by simp [gprReadsOf, known, nop] at read⟩
          · rw [if_neg nop] at visited
            split at visited
            · cases visited
              refine ⟨⟨_, rfl, ?_⟩, ⟨_, rfl⟩, ?_⟩
              · intro write writeMem
                obtain ⟨reg, -, rfl⟩ := List.mem_map.mp writeMem
                rfl
              · intro other found
                rw [only other found]
                constructor
                · intro reg written
                  simp only [gprWriteOf, known, Option.bind_some, if_neg nop] at written
                  simp [written]
                · intro reg read
                  simp only [gprReadsOf, known, if_neg nop] at read
                  exact List.mem_append_right _ (List.mem_map.mpr ⟨reg, read, rfl⟩)
            · cases visited

theorem Recorded.mono {before after : Accesses} {slot : Nat} {syllable : Asm.Syllable}
    (recorded : Recorded before slot syllable)
    (writes : ∀ write ∈ before.writes, write ∈ after.writes)
    (reads : ∀ read ∈ before.reads, read ∈ after.reads) : Recorded after slot syllable :=
  ⟨fun reg written => writes _ (recorded.writes reg written),
    fun reg read => reads _ (recorded.reads reg read)⟩

/-- The verifier records the accesses of all slots. -/
theorem recorded_of_visitSlots {bundle : Bundle} {processor : Processor} {slots : List Nat}
    {before after : Accesses}
    (visited : slots.foldlM (visitSlot bundle processor) before = .ok after) :
    (∀ write ∈ before.writes, write ∈ after.writes) ∧
      (∀ read ∈ before.reads, read ∈ after.reads) ∧
      ∀ slot ∈ slots, ∀ syllable, bundle.slots[slot]? = some (some syllable) →
        Recorded after slot syllable := by
  induction slots generalizing before with
  | nil =>
      cases visited
      simp
  | cons slot slots ih =>
      rw [List.foldlM_cons] at visited
      obtain ⟨middle, first, others⟩ := bind_eq_ok.mp visited
      obtain ⟨⟨writes, writesEq, -⟩, ⟨reads, readsEq⟩, recorded⟩ := visitSlot_eq_ok first
      obtain ⟨keepWrites, keepReads, rest⟩ := ih others
      refine ⟨?_, ?_, ?_⟩
      · intro write writeMem
        exact keepWrites write (writesEq ▸ List.mem_append_left _ writeMem)
      · intro read readMem
        exact keepReads read (readsEq ▸ List.mem_append_left _ readMem)
      · intro other otherMem syllable found
        rcases List.mem_cons.mp otherMem with rfl | tailMem
        · exact (recorded syllable found).mono keepWrites keepReads
        · exact rest other tailMem syllable found

theorem pairwise_of_findWaw {writes : List (UInt8 × Nat)} (none? : findWaw writes = none) :
    writes.Pairwise fun first second => first.1 ≠ second.1 := by
  induction writes with
  | nil => exact .nil
  | cons write rest ih =>
      obtain ⟨reg, slot⟩ := write
      unfold findWaw at none?
      cases found : rest.find? (·.1 = reg) with
      | some other => simp [found] at none?
      | none =>
          rw [found] at none?
          refine .cons ?_ (ih none?)
          intro other otherMem same
          have refused := List.find?_eq_none.mp found other otherMem
          simp [← same] at refused

theorem no_raw_of_findRaw {accesses : Accesses} (none? : findRaw accesses = none)
    {reg : UInt8} {reader writer : Nat} (read : (reg, reader) ∈ accesses.reads)
    (write : (reg, writer) ∈ accesses.writes) : reader = writer := by
  unfold findRaw at none?
  rw [List.findSome?_eq_none_iff] at none?
  have refused := none? _ read
  simp only [Option.map_eq_none_iff, List.find?_eq_none] at refused
  by_contra different
  exact refused _ write (by simp [different])

/-- Syllables in different slots of a verified bundle do not write the same
register, and none reads a register written by another one. -/
structure Verified (bundle : Bundle) (width : Nat) : Prop where
  waw : ∀ {i j first second reg}, i < width → j < width → i ≠ j →
    bundle.slots[i]? = some (some first) → bundle.slots[j]? = some (some second) →
    gprWriteOf first = some reg → gprWriteOf second ≠ some reg
  raw : ∀ {i j first second reg}, i < width → j < width → i ≠ j →
    bundle.slots[i]? = some (some first) → bundle.slots[j]? = some (some second) →
    gprWriteOf first = some reg → reg ∉ gprReadsOf second

theorem verified_of_verifyBundle {bundle : Bundle} {processor : Processor}
    (accepted : verifyBundle bundle processor = .ok ()) : Verified bundle processor.width := by
  unfold verifyBundle at accepted
  obtain ⟨accesses, visited, clean⟩ := bind_eq_ok.mp accepted
  obtain ⟨-, -, recorded⟩ := recorded_of_visitSlots visited
  cases hazard : (findWaw accesses.writes).or (findRaw accesses) with
  | some error => simp [hazard] at clean
  | none =>
      obtain ⟨noWaw, noRaw⟩ := Option.or_eq_none_iff.mp hazard
      have distinct := pairwise_of_findWaw noWaw
      have symmetric : Std.Symm fun first second : UInt8 × Nat => first.1 ≠ second.1 :=
        ⟨fun _ _ different => different.symm⟩
      constructor
      · intro i j first second reg iLt jLt different atFirst atSecond writesFirst writesSecond
        have firstMem := (recorded i (List.mem_range.mpr iLt) first atFirst).writes reg writesFirst
        have secondMem :=
          (recorded j (List.mem_range.mpr jLt) second atSecond).writes reg writesSecond
        exact distinct.forall firstMem secondMem
          (fun same => different (congrArg Prod.snd same)) rfl
      · intro i j first second reg iLt jLt different atFirst atSecond writesFirst readsSecond
        have firstMem := (recorded i (List.mem_range.mpr iLt) first atFirst).writes reg writesFirst
        have secondMem := (recorded j (List.mem_range.mpr jLt) second atSecond).reads reg readsSecond
        exact different (no_raw_of_findRaw noRaw secondMem firstMem).symm

/-! ### Actions -/

theorem mem_gprReads_of_sources {operands : List Operand} {sources : List (Source UInt8)}
    (denote : operands.mapM Operand.source = some sources) {reg : UInt8}
    (sourceMem : Source.gpr reg ∈ sources) : reg ∈ gprReads false operands := by
  have related := mapM_eq_some_iff.mp denote
  clear denote
  induction related with
  | nil => simp at sourceMem
  | @cons operand source operands sources isSource _ ih =>
      rcases List.mem_cons.mp sourceMem with rfl | tailMem
      · cases operand <;> simp_all [Operand.source, gprReads]
      · have inTail := ih tailMem
        cases operand <;> simp [gprReads, inTail]

/-- Registers written and read by the action of a syllable are those the
verifier sees. -/
theorem gpr_of_action {syllable : Asm.Syllable} {action : Action Opcode UInt8}
    (denotes : syllable.action = some action) :
    (∀ reg, action.gprDst = some reg → gprWriteOf syllable = some reg) ∧
      ∀ reg, Source.gpr reg ∈ action.sources → reg ∈ gprReadsOf syllable := by
  obtain ⟨opcode, known, operands⟩ := Option.bind_eq_some_iff.mp denotes
  have writes := Opcode.writes_of_behavior opcode
  have writeOf : opcode ≠ .nop → gprWriteOf syllable = gprWrite opcode syllable.operands := by
    intro proper
    simp [gprWriteOf, known, proper]
  have readsOf : opcode ≠ .nop →
      gprReadsOf syllable = gprReads opcode.writesGpr syllable.operands := by
    intro proper
    simp [gprReadsOf, known, proper]
  unfold Asm.operandsAction at operands
  split at operands
  · rename_i dst srcs behavior shape
    have proper := Opcode.ne_nop_of_behavior (behavior.trans_ne (by simp))
    rw [behavior] at writes
    obtain ⟨sources, denote, rfl⟩ := Option.map_eq_some_iff.mp operands
    rw [writeOf proper, readsOf proper, shape, writes.1]
    refine ⟨fun reg dstEq => ?_, fun reg sourceMem => mem_gprReads_of_sources denote sourceMem⟩
    simpa [gprWrite, writes.1, Action.gprDst] using dstEq
  · rename_i dst srcs behavior shape
    have proper := Opcode.ne_nop_of_behavior (behavior.trans_ne (by simp))
    rw [behavior] at writes
    obtain ⟨sources, denote, rfl⟩ := Option.map_eq_some_iff.mp operands
    rw [readsOf proper, shape, writes.1]
    exact ⟨fun reg dstEq => (by cases dstEq),
      fun reg sourceMem => mem_gprReads_of_sources denote sourceMem⟩
  · rename_i width dst base offset behavior shape
    have proper := Opcode.ne_nop_of_behavior (behavior.trans_ne (by simp))
    rw [behavior] at writes
    cases operands
    rw [writeOf proper, readsOf proper, shape, writes.1]
    exact ⟨fun reg dstEq => by simpa [gprWrite, writes.1, Action.gprDst] using dstEq,
      fun reg sourceMem => by simpa [gprReads, Action.sources] using sourceMem⟩
  · rename_i width base offset data behavior shape
    have proper := Opcode.ne_nop_of_behavior (behavior.trans_ne (by simp))
    rw [behavior] at writes
    obtain ⟨source, denote, rfl⟩ := Option.map_eq_some_iff.mp operands
    rw [readsOf proper, shape, writes.1]
    refine ⟨fun reg dstEq => (by cases dstEq), fun reg sourceMem => ?_⟩
    simp only [Action.sources, List.mem_cons, Source.gpr.injEq, List.not_mem_nil,
      or_false] at sourceMem
    rcases sourceMem with rfl | rfl
    · simp [gprReads]
    · cases data <;> simp_all [Operand.source, gprReads]
  · rename_i dst srcs behavior shape
    have proper := Opcode.ne_nop_of_behavior (behavior.trans_ne (by simp))
    rw [behavior] at writes
    obtain ⟨sources, denote, rfl⟩ := Option.map_eq_some_iff.mp operands
    rw [writeOf proper, readsOf proper, shape, writes.1]
    refine ⟨fun reg dstEq => ?_, fun reg sourceMem => mem_gprReads_of_sources denote sourceMem⟩
    simpa [gprWrite, writes.1, Action.gprDst] using dstEq
  · rename_i behavior
    have proper := Opcode.ne_nop_of_behavior (behavior.trans_ne (by simp))
    rw [behavior] at writes
    obtain ⟨sources, denote, rfl⟩ := Option.map_eq_some_iff.mp operands
    rw [readsOf proper, writes.1]
    exact ⟨fun reg dstEq => (by cases dstEq),
      fun reg sourceMem => mem_gprReads_of_sources denote sourceMem⟩
  · obtain ⟨sources, -, rfl⟩ := Option.map_eq_some_iff.mp operands
    exact ⟨fun reg dstEq => (by cases dstEq), fun reg sourceMem => (by cases sourceMem)⟩
  · cases operands

/-! ### Issuing a syllable with the bundle before it -/

/-- Issuing `second` together with the earlier `first` is wrong: it reads or
writes a predicate that `first` writes, or may access memory that `first`
writes. -/
def ActionHazard (first second : Action Opcode UInt8) : Prop :=
  (∃ pred, first.predDst = some pred ∧
    (Source.pred pred ∈ second.sources ∨ second.predDst = some pred)) ∨
  ∃ state, ¬Disjoint (first.memWrites state) (second.memReads state ∪ second.memWrites state)

/-- Some syllable of the later bundle may not be issued together with some
syllable of the earlier one. -/
def Hazard (earlier later : Bundle) : Prop :=
  ∃ first ∈ earlier.syllables, ∃ second ∈ later.syllables, ∃ left right,
    first.action = some left ∧ second.action = some right ∧ ActionHazard left right

/-- Slots of a bundle around one of them. -/
theorem syllables_set {slots : List (Option Asm.Syllable)} {slot : Nat} (syllable : Asm.Syllable)
    (isOpen : slots[slot]? = some none) :
    ∃ front back, (Bundle.mk slots).syllables = front ++ back ∧
      (Bundle.mk (slots.set slot (some syllable))).syllables = front ++ syllable :: back ∧
      ∀ other ∈ front ++ back, ∃ i, i ≠ slot ∧ slots[i]? = some (some other) := by
  obtain ⟨bound, isNone⟩ := List.getElem?_eq_some_iff.mp isOpen
  have split : slots = slots.take slot ++ none :: slots.drop (slot + 1) := by
    rw [← isNone, ← List.drop_eq_getElem_cons bound, List.take_append_drop]
  refine ⟨(slots.take slot).filterMap id, (slots.drop (slot + 1)).filterMap id, ?_, ?_, ?_⟩
  · unfold Bundle.syllables
    conv_lhs => rw [split]
    simp [List.filterMap_append]
  · unfold Bundle.syllables
    rw [List.set_eq_take_append_cons_drop, if_pos bound]
    simp [List.filterMap_append]
  · intro other otherMem
    rcases List.mem_append.mp otherMem with inFront | inBack
    · obtain ⟨slotted, slottedMem, isOther⟩ := List.mem_filterMap.mp inFront
      obtain ⟨i, found⟩ := List.mem_iff_getElem?.mp slottedMem
      rw [List.getElem?_take] at found
      split_ifs at found with less
      · exact ⟨i, Nat.ne_of_lt less, by rw [found]; exact congrArg some isOther⟩
    · obtain ⟨slotted, slottedMem, isOther⟩ := List.mem_filterMap.mp inBack
      obtain ⟨i, found⟩ := List.mem_iff_getElem?.mp slottedMem
      rw [List.getElem?_drop] at found
      exact ⟨slot + 1 + i, by omega, by rw [found]; exact congrArg some isOther⟩

theorem length_normalizeSlots (slots : List (Option Asm.Syllable)) (width : Nat) :
    (normalizeSlots slots width).length = width := by
  simp [normalizeSlots]
  omega

theorem syllables_normalizeSlots {slots : List (Option Asm.Syllable)} {width : Nat}
    (fits : slots.length ≤ width) :
    (Bundle.mk (normalizeSlots slots width)).syllables = (Bundle.mk slots).syllables := by
  simp [Bundle.syllables, normalizeSlots, List.take_of_length_le fits]

/-- A merged bundle holds the syllable in a slot that was open. -/
theorem mergeBundles_eq_some {processor : Processor} {last bundle candidate : Bundle}
    {asm : Asm.Syllable} (only : bundle.syllables = [asm])
    (merged : mergeBundles processor last bundle = some candidate) :
    ∃ slot, slot < processor.width ∧
      (normalizeSlots last.slots processor.width)[slot]? = some none ∧
      candidate = ⟨(normalizeSlots last.slots processor.width).set slot (some asm)⟩ := by
  unfold mergeBundles at merged
  rw [only, List.foldlM_cons] at merged
  obtain ⟨placed, isPlaced, same⟩ := Option.bind_eq_some_iff.mp merged
  cases same
  obtain ⟨opcode, -, isSlot⟩ := Option.bind_eq_some_iff.mp isPlaced
  obtain ⟨slot, found, rfl⟩ := Option.map_eq_some_iff.mp isSlot
  have accepted := List.find?_some found
  have inside := List.mem_range.mp (List.mem_of_find?_eq_some found)
  refine ⟨slot, inside, ?_, rfl⟩
  have isOpen := (Bool.and_eq_true_iff.mp accepted).1
  cases slotted : (normalizeSlots last.slots processor.width)[slot]? with
  | none => simp [slotted] at isOpen
  | some content =>
      cases content with
      | none => rfl
      | some other => simp [slotted] at isOpen

/-- A merged bundle holds the syllables of both. -/
theorem perm_of_mergeBundles {processor : Processor} {last bundle candidate : Bundle}
    {asm : Asm.Syllable} (fits : last.slots.length ≤ processor.width)
    (only : bundle.syllables = [asm])
    (merged : mergeBundles processor last bundle = some candidate) :
    (last.syllables ++ [asm]).Perm candidate.syllables := by
  obtain ⟨slot, -, isOpen, rfl⟩ := mergeBundles_eq_some only merged
  obtain ⟨front, back, before, after, -⟩ := syllables_set asm isOpen
  rw [syllables_normalizeSlots fits] at before
  change last.syllables = front ++ back at before
  rw [before, after, List.append_assoc]
  exact (List.perm_append_singleton asm back).append_left front

/-- The meaning of the syllables of a bundle without hazards. -/
theorem exec_merged (isa : Isa Opcode) {processor : Processor} {last bundle candidate : Bundle}
    {asm : Asm.Syllable} {action : Action Opcode UInt8}
    (fits : last.slots.length ≤ processor.width) (only : bundle.syllables = [asm])
    (denotes : asm.action = some action)
    (merged : mergeBundles processor last bundle = some candidate)
    (accepted : verifyBundle candidate processor = .ok ()) (safe : ¬Hazard last bundle)
    {actions : List (Action Opcode UInt8)}
    (lastDenotes : last.syllables.mapM Asm.Syllable.action = some actions)
    (state : State UInt8) :
    candidate.exec isa state = some (action.exec isa (Action.issue isa actions state)) := by
  obtain ⟨slot, inside, isOpen, rfl⟩ := mergeBundles_eq_some only merged
  have verified := verified_of_verifyBundle accepted
  obtain ⟨front, back, before, after, located⟩ := syllables_set asm isOpen
  rw [syllables_normalizeSlots fits] at before
  change last.syllables = front ++ back at before
  rw [before] at lastDenotes
  obtain ⟨frontActions, backActions, frontDenotes, backDenotes, rfl⟩ :=
    mapM_append_eq_some lastDenotes
  have candidateDenotes : (front ++ asm :: back).mapM Asm.Syllable.action =
      some (frontActions ++ action :: backActions) := by
    apply mapM_eq_some_iff.mpr
    exact List.rel_append (mapM_eq_some_iff.mp frontDenotes)
      (.cons denotes (mapM_eq_some_iff.mp backDenotes))
  have independent : ∀ other ∈ frontActions ++ backActions,
      other.Unread action state ∧ other.Apart action state := by
    intro other otherMem
    obtain ⟨syllable, syllableMem, otherDenotes⟩ :=
      exists_mem_of_forall₂ (mapM_eq_some_iff.mp lastDenotes) otherMem
    obtain ⟨i, different, atSlot⟩ := located syllable syllableMem
    have iLt : i < processor.width := by
      have bound := (List.getElem?_eq_some_iff.mp atSlot).1
      rwa [length_normalizeSlots] at bound
    have atOther : ((normalizeSlots last.slots processor.width).set slot (some asm))[i]? =
        some (some syllable) := by
      rw [List.getElem?_set_ne different.symm]
      exact atSlot
    have atAsm : ((normalizeSlots last.slots processor.width).set slot (some asm))[slot]? =
        some (some asm) := by
      rw [List.getElem?_set_self (by rw [length_normalizeSlots]; exact inside)]
    obtain ⟨otherWrites, otherReads⟩ := gpr_of_action otherDenotes
    obtain ⟨asmWrites, asmReads⟩ := gpr_of_action denotes
    have harmless : ¬ActionHazard other action := fun hazard => safe
      ⟨syllable, before ▸ syllableMem, asm, by simp [only], other, action, otherDenotes, denotes,
        hazard⟩
    have disjoint : Disjoint (other.memWrites state)
        (action.memReads state ∪ action.memWrites state) := by
      by_contra overlap
      exact harmless (.inr ⟨state, overlap⟩)
    constructor
    · exact
        { gpr := fun reg dst _ sourceMem => verified.raw iLt inside different atOther atAsm
            (otherWrites reg dst) (asmReads reg sourceMem)
          pred := fun reg dst sourceMem => harmless (.inl ⟨reg, dst, .inl sourceMem⟩)
          mem := disjoint.mono_right Set.subset_union_left }
    · exact
        { gpr := fun reg otherDst asmDst => absurd (asmWrites reg asmDst)
            (verified.waw iLt inside different atOther atAsm (otherWrites reg otherDst))
          pred := fun reg otherDst asmDst => harmless (.inl ⟨reg, otherDst, .inr asmDst⟩)
          mem := disjoint.mono_right Set.subset_union_right }
  unfold Bundle.exec
  rw [after, candidateDenotes, Option.map_some,
    Action.issue_insert isa (fun other otherMem => (independent other otherMem).1)
      (fun other otherMem => (independent other otherMem).2)]

end VliwCompiler.Pack
