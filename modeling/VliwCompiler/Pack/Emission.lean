import VliwCompiler.Codegen.Requests
import VliwCompiler.Pack.Verified

/-!
# Emission on arbitrary layouts

Emission fails only where a syllable or a terminator cannot be placed.  Ordinary
syllables fall back to any slot that can execute them; control transfers use
the slot with the alias `X`, and an alias may point beyond the width.
-/

namespace VliwCompiler.Pack

open Asm (Opcode Processor Program Operand)
open Mir (Function Syllable Terminator Block Reg Value)
open Codegen

/-! ### Outcomes of emission -/

theorem exists_listScheduleFunctions (functions : List Function) :
    ∃ scheduled, functions.mapM Schedule.listScheduleFunction = .ok scheduled := by
  refine exists_mapM_ok fun function _ => ?_
  obtain ⟨blocks, isScheduled⟩ : ∃ blocks, function.blocks.mapM Schedule.listScheduleBlock =
      .ok blocks := by
    refine exists_mapM_ok fun block _ => ?_
    obtain ⟨order, -, isOrder⟩ := Schedule.exists_validOrder block.syllables
    exact ⟨_, map_eq_ok.mpr ⟨_, isOrder, rfl⟩⟩
  exact ⟨_, map_eq_ok.mpr ⟨blocks, isScheduled, rfl⟩⟩

/-- Packed emission emits the scheduled functions. -/
theorem scheduledProgram_eq {functions scheduled : List Function} (processor : Processor)
    (isScheduled : functions.mapM Schedule.listScheduleFunction = .ok scheduled) :
    scheduledProgram functions processor = scalarProgram scheduled processor := by
  have general : ∀ program : Program, functions.foldlM emitScheduledFunction program =
      scheduled.foldlM emitFunction program := by
    have related := mapM_eq_ok_iff.mp isScheduled
    clear isScheduled
    induction related with
    | nil => exact fun program => rfl
    | cons first _ ih =>
        intro program
        rw [List.foldlM_cons, List.foldlM_cons, emitScheduledFunction, first]
        exact bind_congr ih
  exact general ⟨processor, []⟩

theorem emitScalarVliwModule_eq_error_iff {functions : List Function} {processor : Processor}
    {failure : Failure} :
    emitScalarVliwModule functions processor = .error failure ↔
      scalarProgram functions processor = .error failure := by
  cases emitted : scalarProgram functions processor with
  | error other =>
      have failed : emitScalarVliwModule functions processor = .error other := by
        rw [emitScalarVliwModule, emitted]
        rfl
      rw [failed, Except.error.injEq, Except.error.injEq]
  | ok program =>
      have accepted := verifyProgram_of_placed (allPlaced_of_scalarProgram emitted).1
      have returned : emitScalarVliwModule functions processor = .ok (Asm.emit program) := by
        refine bind_eq_ok.mpr ⟨program, emitted, ?_⟩
        rw [accepted]
        rfl
      rw [returned]
      exact iff_of_false (by simp) (by simp)

theorem emitPackedVliwModule_eq_error_iff {functions scheduled : List Function}
    {processor : Processor} {failure : Failure}
    (isScheduled : functions.mapM Schedule.listScheduleFunction = .ok scheduled) :
    emitPackedVliwModule functions processor = .error failure ↔
      scalarProgram scheduled processor = .error failure := by
  have same := scheduledProgram_eq processor isScheduled
  rw [scheduledProgram] at same
  cases emitted : scalarProgram scheduled processor with
  | error other =>
      have failed : emitPackedVliwModule functions processor = .error other := by
        rw [emitPackedVliwModule, packedProgram, same, emitted]
        rfl
      rw [failed, Except.error.injEq, Except.error.injEq]
  | ok program =>
      have placed := (allPlaced_of_scalarProgram emitted).1
      obtain ⟨packed, done⟩ := exists_packed_of_placed placed
      have accepted := verifyProgram_of_packed placed done
      have returned : emitPackedVliwModule functions processor = .ok (Asm.emit packed) := by
        rw [emitPackedVliwModule, packedProgram, same, emitted]
        simp only [bind, Except.bind, pure, Except.pure, done, accepted]
      rw [returned]
      exact iff_of_false (by simp) (by simp)

/-! ### Slot selection -/

/-- The errors of slot selection. -/
def slotSelectionErrors : List Failure :=
  [.error (.notImplemented "no compatible slot for opcode in processor layout"),
    .error (.notImplemented "processor layout has no X slot"),
    .error (.notImplemented "requested slot is not compatible with opcode")]

/-- The outcome is no error of slot selection. -/
def SelectsSlots {α : Type} (outcome : Outcome α) : Prop :=
  ∀ failure ∈ slotSelectionErrors, outcome ≠ .error failure

/-- Every opcode used has a slot below the width that can execute it. -/
def Capable (processor : Processor) (functions : List Function) : Prop :=
  ∀ request ∈ requests functions, ∃ slot < processor.width,
    slotSupportsOpcode slot request.opcode processor = true

/-- The slot with the alias `X` can execute control transfers. -/
def HasControlSlot (processor : Processor) : Prop :=
  ∃ slot, slotByAlias processor "X" = some slot ∧ slotSupportsOpcode slot .ret processor = true

/-- The operands are not supported, or the slot chosen is beyond the width. -/
def Unplaceable (processor : Processor) (syllable : Syllable) : Prop :=
  (∀ asm, lowerSyllable syllable ≠ .ok asm) ∨
    ∃ slot, scalarSlot syllable.opcode processor = .ok slot ∧ processor.width ≤ slot

section SelectsSlots

variable {α β : Type}

theorem selectsSlots_ok (value : α) : SelectsSlots (.ok value : Outcome α) :=
  fun _ _ same => nomatch same

theorem selectsSlots_panic (message : String) :
    SelectsSlots (.error (.panic message) : Outcome α) := by
  intro failure isSelection same
  cases same
  simp [slotSelectionErrors] at isSelection

theorem selectsSlots_bind {first : Outcome α} {next : α → Outcome β}
    (isFirst : SelectsSlots first) (isNext : ∀ value, SelectsSlots (next value)) :
    SelectsSlots (first >>= next) := by
  intro failure isSelection failed
  rcases bind_eq_error.mp failed with failed | ⟨value, -, failed⟩
  · exact isFirst failure isSelection failed
  · exact isNext value failure isSelection failed

theorem selectsSlots_map {first : Outcome α} {f : α → β} (isFirst : SelectsSlots first) :
    SelectsSlots (first.map f) := by
  have isBind : first.map f = first >>= fun value => .ok (f value) := by cases first <;> rfl
  rw [isBind]
  exact selectsSlots_bind isFirst fun value => selectsSlots_ok (f value)

theorem selectsSlots_mapM {f : α → Outcome β} (isStep : ∀ item, SelectsSlots (f item))
    (items : List α) : SelectsSlots (items.mapM f) := by
  intro failure isSelection failed
  obtain ⟨-, item, -, -, -, failed⟩ := exists_item_of_mapM_error failed
  exact isStep item failure isSelection failed

end SelectsSlots

theorem selectsSlots_gprForReg (reg : Reg) : SelectsSlots (gprForReg reg) := by
  cases reg with
  | preg n => exact selectsSlots_ok n
  | vreg index => exact selectsSlots_panic _

theorem selectsSlots_predForReg (reg : Reg) : SelectsSlots (predForReg reg) := by
  cases reg with
  | preg n => exact selectsSlots_ok n
  | vreg index => exact selectsSlots_panic _

theorem selectsSlots_expect {α : Type} (message : String) (value? : Option α) :
    SelectsSlots (expect message value?) := by
  cases value? with
  | none => exact selectsSlots_panic message
  | some value => exact selectsSlots_ok value

theorem selectsSlots_predOrGprOperand (value : Value) (predSrc : Bool) :
    SelectsSlots (predOrGprOperand value predSrc) := by
  cases value with
  | imm imm => exact selectsSlots_ok _
  | stack address =>
      intro failure isSelection same
      cases same
      simp [slotSelectionErrors] at isSelection
  | reg reg =>
      cases predSrc with
      | true => exact selectsSlots_map (selectsSlots_predForReg reg)
      | false => exact selectsSlots_map (selectsSlots_gprForReg reg)

theorem selectsSlots_gprOrImmOperand (value : Value) : SelectsSlots (gprOrImmOperand value) := by
  rw [gprOrImmOperand_eq]
  exact selectsSlots_predOrGprOperand value false

theorem selectsSlots_addressOperand (base : Value) (offset : Asm.I64) :
    SelectsSlots (addressOperand base offset) := by
  have isSum : ∀ address : Asm.I64, SelectsSlots (checkedAdd address offset) := by
    intro address
    unfold checkedAdd
    split
    · exact selectsSlots_panic _
    · exact selectsSlots_ok _
  cases base with
  | imm address => exact selectsSlots_map (isSum address)
  | stack address => exact selectsSlots_map (isSum address)
  | reg reg => exact selectsSlots_map (selectsSlots_gprForReg reg)

theorem selectsSlots_loadAddress (srcs : List Value) : SelectsSlots (loadAddress srcs) := by
  unfold loadAddress
  split
  · exact selectsSlots_addressOperand _ _
  · exact selectsSlots_addressOperand _ _
  · intro failure isSelection same
    cases same
    simp [slotSelectionErrors] at isSelection

theorem selectsSlots_storeOperands (srcs : List Value) : SelectsSlots (storeOperands srcs) := by
  have isAddressed : ∀ (base data : Value) (offset : Asm.I64), SelectsSlots (do
      let addr ← addressOperand base offset
      let data ← gprOrImmOperand data
      return (addr, data) : Outcome (Operand × Operand)) := by
    intro base data offset
    exact selectsSlots_bind (selectsSlots_addressOperand base offset) fun _ =>
      selectsSlots_bind (selectsSlots_gprOrImmOperand data) fun _ => selectsSlots_ok _
  unfold storeOperands
  split
  · exact isAddressed _ _ _
  · exact isAddressed _ _ _
  · intro failure isSelection same
    cases same
    simp [slotSelectionErrors] at isSelection

/-- Lowering reports no error of slot selection. -/
theorem selectsSlots_lowerSyllable (syllable : Syllable) :
    SelectsSlots (lowerSyllable syllable) := by
  have isGeneral : SelectsSlots (do
      let dst ← (syllable.dst.toList).mapM fun reg => (gprForReg reg).map Operand.reg
      let srcs ← syllable.srcs.mapM gprOrImmOperand
      return ⟨syllable.opcode.mnemonic, dst ++ srcs⟩ : Outcome Asm.Syllable) :=
    selectsSlots_bind (selectsSlots_mapM (fun reg => selectsSlots_map (selectsSlots_gprForReg reg)) _)
      fun _ => selectsSlots_bind (selectsSlots_mapM selectsSlots_gprOrImmOperand _)
        fun _ => selectsSlots_ok _
  rw [lowerSyllable_eq]
  cases syllable.opcode.behavior with
  | store width =>
      exact selectsSlots_bind (selectsSlots_storeOperands _) fun _ => selectsSlots_ok _
  | load width =>
      exact selectsSlots_bind (selectsSlots_expect _ _) fun reg =>
        selectsSlots_bind (selectsSlots_gprForReg reg) fun _ =>
          selectsSlots_bind (selectsSlots_loadAddress _) fun _ => selectsSlots_ok _
  | test =>
      exact selectsSlots_bind (selectsSlots_expect _ _) fun reg =>
        selectsSlots_bind (selectsSlots_predForReg reg) fun _ =>
          selectsSlots_bind
            (selectsSlots_mapM (fun value => selectsSlots_predOrGprOperand value _) _)
            fun _ => selectsSlots_ok _
  | compute => exact isGeneral
  | acquire => exact isGeneral
  | release => exact isGeneral
  | inert => exact isGeneral
  | control => exact isGeneral

/-! ### Any capable layout -/

section

variable {processor : Processor}

theorem selectsSlots_place {opcode : Opcode} {slot : Nat}
    (supported : slotSupportsOpcode slot opcode processor = true) :
    SelectsSlots (Request.place processor opcode slot) := by
  unfold Request.place
  rw [if_pos supported]
  split
  · exact selectsSlots_ok _
  · exact selectsSlots_panic _

/-- An opcode that some slot can execute gets a slot that can. -/
theorem exists_scalarSlot {opcode : Opcode}
    (capable : ∃ slot < processor.width, slotSupportsOpcode slot opcode processor = true) :
    ∃ slot, scalarSlot opcode processor = .ok slot ∧
      slotSupportsOpcode slot opcode processor = true := by
  have isFirst : ∃ slot, firstCompatibleSlot opcode processor = .ok slot ∧
      slotSupportsOpcode slot opcode processor = true := by
    obtain ⟨slot, inside, supported⟩ := capable
    by_cases proper : opcode = .nop
    · subst proper
      refine ⟨0, rfl, ?_⟩
      simp only [slotSupportsOpcode, if_true, decide_eq_true_eq]
      omega
    · rw [slotSupportsOpcode, if_neg proper] at supported
      cases found : (List.range processor.width).find? fun slot =>
          slotSupportsOpcodeWithUnits slot opcode processor (Asm.unitKindMap processor) with
      | none =>
          rw [List.find?_eq_none] at found
          exact absurd supported (found slot (List.mem_range.mpr inside))
      | some first =>
          have isFirst : firstCompatibleSlot opcode processor = .ok first := by
            rw [firstCompatibleSlot, if_neg proper, found]
          exact ⟨first, isFirst, (supported_of_firstCompatibleSlot proper isFirst).2⟩
  unfold scalarSlot
  split
  · rename_i slot _
    split
    · rename_i supported
      exact ⟨slot, rfl, supported⟩
    · exact isFirst
  · exact isFirst

theorem selectsSlots_syllable {syllable : Syllable}
    (capable : ∃ slot < processor.width,
      slotSupportsOpcode slot syllable.opcode processor = true) :
    SelectsSlots (Request.outcome processor (.syllable syllable)) := by
  obtain ⟨slot, isSlot, supported⟩ := exists_scalarSlot capable
  refine selectsSlots_bind (selectsSlots_lowerSyllable syllable) fun _ => ?_
  rw [isSlot]
  exact selectsSlots_place supported

/-- All control transfers run on the same units. -/
theorem supports_terminatorOpcode (slot : Nat) (terminator : Terminator) :
    slotSupportsOpcode slot (terminatorOpcode terminator) processor =
      slotSupportsOpcode slot .ret processor := by
  cases terminator <;> rfl

theorem outcome_terminator {terminator : Terminator} (allocated : terminator.condVreg = none) :
    Request.outcome processor (.terminator terminator) = (do
      let slot ← xSlot processor
      Request.place processor (terminatorOpcode terminator) slot) := by
  cases terminator with
  | ret => rfl
  | jump label => rfl
  | directCall target cont => rfl
  | branch cond label =>
      cases cond with
      | vreg index => cases allocated
      | preg n => rfl

theorem xSlot_eq_ok {slot : Nat} :
    xSlot processor = .ok slot ↔ slotByAlias processor "X" = some slot := by
  unfold xSlot
  split
  · rename_i found
    simp [found]
  · rename_i found
    simp [found, notImplemented]

theorem selectsSlots_terminator_iff {terminator : Terminator}
    (allocated : terminator.condVreg = none) :
    SelectsSlots (Request.outcome processor (.terminator terminator)) ↔
      HasControlSlot processor := by
  rw [outcome_terminator allocated]
  cases isSlot : xSlot processor with
  | error failure =>
      refine iff_of_false (fun selects => ?_) ?_
      · have isFailure : failure = .error (.notImplemented "processor layout has no X slot") := by
          unfold xSlot at isSlot
          split at isSlot
          · cases isSlot
          · cases isSlot
            rfl
        subst isFailure
        exact selects _ (by simp [slotSelectionErrors]) rfl
      · rintro ⟨slot, isAlias, -⟩
        rw [xSlot_eq_ok.mpr isAlias] at isSlot
        cases isSlot
  | ok slot =>
      have isAlias := xSlot_eq_ok.mp isSlot
      cases supported : slotSupportsOpcode slot .ret processor with
      | true =>
          refine iff_of_true (selectsSlots_place ?_) ⟨slot, isAlias, supported⟩
          rw [supports_terminatorOpcode, supported]
      | false =>
          refine iff_of_false (fun selects => ?_) ?_
          · refine selects (.error (.notImplemented "requested slot is not compatible with opcode"))
              (by simp [slotSelectionErrors]) ?_
            change Request.place processor (terminatorOpcode terminator) slot = _
            rw [Request.place, supports_terminatorOpcode, supported, if_neg (by decide)]
            rfl
          · rintro ⟨other, isOther, isSupported⟩
            rw [isAlias] at isOther
            cases isOther
            rw [supported] at isSupported
            cases isSupported

theorem outcome_syllable_eq_ok_iff {syllable : Syllable}
    (capable : ∃ slot < processor.width,
      slotSupportsOpcode slot syllable.opcode processor = true) :
    Request.outcome processor (.syllable syllable) = .ok () ↔ ¬Unplaceable processor syllable := by
  obtain ⟨slot, isSlot, supported⟩ := exists_scalarSlot capable
  rw [Request.outcome, isSlot]
  cases lowered : lowerSyllable syllable with
  | error failure =>
      refine iff_of_false (by rintro ⟨⟩) (not_not_intro (.inl fun asm isAsm => ?_))
      rw [lowered] at isAsm
      cases isAsm
  | ok asm =>
      change Request.place processor syllable.opcode slot = .ok () ↔ _
      rw [Request.place, if_pos supported]
      by_cases inside : slot < processor.width
      · rw [if_pos inside]
        refine iff_of_true rfl ?_
        rintro (noAsm | ⟨other, isOther, beyond⟩)
        · exact noAsm asm lowered
        · rw [isSlot] at isOther
          cases isOther
          omega
      · rw [if_neg inside]
        refine iff_of_false (by rintro ⟨⟩) (not_not_intro (.inr ⟨slot, isSlot, ?_⟩))
        omega

end

/-- The blocks of a module in layout order. -/
def moduleBlocks (functions : List Function) : List Block := functions.flatMap (·.blocks)

theorem requests_eq (functions : List Function) :
    requests functions = (moduleBlocks functions).flatMap blockRequests := by
  rw [requests, moduleBlocks, List.flatMap_assoc]
  rfl

/-- The first block ends before its terminator, if there is a block. -/
def StopsEarly (processor : Processor) (blocks : List Block) : Prop :=
  ∀ block ∈ blocks.head?, ∃ syllable ∈ block.syllables, Unplaceable processor syllable

theorem selectsSlots_scalarProgram_iff {functions : List Function} {processor : Processor}
    (allocated : ∀ request ∈ requests functions, request.IsAllocated)
    (capable : Capable processor functions) :
    SelectsSlots (scalarProgram functions processor) ↔
      HasControlSlot processor ∨ StopsEarly processor (moduleBlocks functions) := by
  have isRequests := requests_eq functions
  refine ⟨fun selects => ?_, ?_⟩
  · by_contra neither
    obtain ⟨noControl, noStop⟩ := not_or.mp neither
    simp only [StopsEarly, not_forall, not_exists, not_and] at noStop
    obtain ⟨block, isFirst, placeable⟩ := noStop
    obtain ⟨rest, isBlocks⟩ := List.head?_eq_some_iff.mp isFirst
    rw [isBlocks, List.flatMap_cons, blockRequests, List.append_assoc, List.singleton_append]
      at isRequests
    have isTerminator : Request.terminator block.terminator ∈ requests functions := by
      rw [isRequests]
      simp
    have fails : ¬SelectsSlots (Request.outcome processor (.terminator block.terminator)) :=
      fun selects => noControl ((selectsSlots_terminator_iff (allocated _ isTerminator)).mp selects)
    simp only [SelectsSlots, not_forall, not_not] at fails
    obtain ⟨failure, isSelection, failed⟩ := fails
    refine selects failure isSelection (scalarProgram_eq_error_iff.mpr ⟨_, _, _, isRequests, ?_, failed⟩)
    intro request requestMem
    obtain ⟨syllable, syllableMem, rfl⟩ := List.mem_map.mp requestMem
    refine (outcome_syllable_eq_ok_iff (capable (.syllable syllable) ?_)).mpr
      (placeable syllable syllableMem)
    rw [isRequests]
    exact List.mem_append_left _ requestMem
  · intro either failure isSelection failed
    obtain ⟨front, request, back, isSplit, issued, failed⟩ := scalarProgram_eq_error_iff.mp failed
    have requestMem : request ∈ requests functions := by
      rw [isSplit]
      simp
    cases request with
    | syllable syllable =>
        exact selectsSlots_syllable (capable _ requestMem) failure isSelection failed
    | terminator terminator =>
        have noControl : ¬HasControlSlot processor := fun control =>
          (selectsSlots_terminator_iff (allocated _ requestMem)).mpr control failure isSelection
            failed
        have stops := either.resolve_left noControl
        cases isBlocks : moduleBlocks functions with
        | nil =>
            rw [isRequests, isBlocks] at isSplit
            simp at isSplit
        | cons block rest =>
            obtain ⟨syllable, syllableMem, unplaceable⟩ := stops block (by rw [isBlocks]; rfl)
            rw [isBlocks, List.flatMap_cons, blockRequests, List.append_assoc] at isRequests
            have isPart : Request.syllable syllable ∈ front := by
              rw [isRequests] at isSplit
              rcases List.append_eq_append_iff.mp isSplit with
                ⟨middle, rfl, -⟩ | ⟨middle, isFront, isRest⟩
              · exact List.mem_append_left _ (List.mem_map_of_mem syllableMem)
              · cases middle with
                | nil =>
                    rw [List.append_nil] at isFront
                    rw [← isFront]
                    exact List.mem_map_of_mem syllableMem
                | cons head middle =>
                    cases isRest
                    have isSyllable : Request.terminator terminator ∈
                        block.syllables.map Request.syllable := by
                      rw [isFront]
                      simp
                    obtain ⟨other, -, same⟩ := List.mem_map.mp isSyllable
                    cases same
            have notIssued := (outcome_syllable_eq_ok_iff (capable (.syllable syllable) (by
              rw [isSplit]
              exact List.mem_append_left _ isPart))).mp (issued _ isPart)
            exact notIssued unplaceable

/-! ### Scheduled functions -/

theorem moduleBlocks_scheduled {functions scheduled : List Function}
    (related : List.Forall₂ ScheduledFunction functions scheduled) :
    List.Forall₂ ScheduledBlock (moduleBlocks functions) (moduleBlocks scheduled) := by
  induction related with
  | nil => exact .nil
  | cons first _ ih =>
      rw [moduleBlocks, moduleBlocks, List.flatMap_cons, List.flatMap_cons]
      exact List.rel_append first.blocks ih

theorem ScheduledBlock.perm {block scheduled : Block} (isScheduled : ScheduledBlock block scheduled) :
    scheduled.syllables.Perm block.syllables := by
  obtain ⟨order, valid, isOrder⟩ := isScheduled.syllables
  rw [isOrder]
  exact Schedule.perm_of_validOrder valid

theorem ScheduledBlock.mem_blockRequests {block scheduled : Block}
    (isScheduled : ScheduledBlock block scheduled) (request : Request) :
    request ∈ blockRequests scheduled ↔ request ∈ blockRequests block := by
  unfold blockRequests
  rw [isScheduled.terminator, List.mem_append, List.mem_append,
    (isScheduled.perm.map Request.syllable).mem_iff]

theorem mem_requests_scheduled {functions scheduled : List Function}
    (related : List.Forall₂ ScheduledFunction functions scheduled) (request : Request) :
    request ∈ requests scheduled ↔ request ∈ requests functions := by
  have blocks := moduleBlocks_scheduled related
  rw [requests_eq, requests_eq, List.mem_flatMap, List.mem_flatMap]
  refine ⟨?_, ?_⟩
  · rintro ⟨block, blockMem, requestMem⟩
    obtain ⟨source, sourceMem, isScheduled⟩ := exists_mem_of_forall₂ blocks blockMem
    exact ⟨source, sourceMem, (isScheduled.mem_blockRequests request).mp requestMem⟩
  · rintro ⟨block, blockMem, requestMem⟩
    obtain ⟨image, imageMem, isScheduled⟩ := exists_image_of_forall₂ blocks blockMem
    exact ⟨image, imageMem, (isScheduled.mem_blockRequests request).mpr requestMem⟩

theorem stopsEarly_scheduled {functions scheduled : List Function} {processor : Processor}
    (related : List.Forall₂ ScheduledFunction functions scheduled) :
    StopsEarly processor (moduleBlocks scheduled) ↔
      StopsEarly processor (moduleBlocks functions) := by
  have blocks := moduleBlocks_scheduled related
  generalize moduleBlocks functions = before at blocks ⊢
  generalize moduleBlocks scheduled = after at blocks ⊢
  cases blocks with
  | nil => exact Iff.rfl
  | cons first _ =>
      simp only [StopsEarly, List.head?_cons, Option.mem_def, Option.some.injEq, forall_eq']
      simp only [first.perm.mem_iff]

/-- On a layout that can execute every opcode used, emission selects a slot for
all of them exactly when the slot with the alias `X` has a control unit or
emission ends before the first terminator. -/
theorem selectsSlots_iff {functions : List Function} {processor : Processor}
    (allocated : ∀ request ∈ requests functions, request.IsAllocated)
    (capable : Capable processor functions) :
    (SelectsSlots (emitScalarVliwModule functions processor) ∧
        SelectsSlots (emitPackedVliwModule functions processor)) ↔
      HasControlSlot processor ∨ StopsEarly processor (moduleBlocks functions) := by
  obtain ⟨scheduled, isScheduled⟩ := exists_listScheduleFunctions functions
  have related := scheduled_of_mapM isScheduled
  have isScalar : SelectsSlots (emitScalarVliwModule functions processor) ↔
      SelectsSlots (scalarProgram functions processor) := by
    simp only [SelectsSlots, ne_eq, emitScalarVliwModule_eq_error_iff]
  have isPacked : SelectsSlots (emitPackedVliwModule functions processor) ↔
      SelectsSlots (scalarProgram scheduled processor) := by
    simp only [SelectsSlots, ne_eq, emitPackedVliwModule_eq_error_iff isScheduled]
  have scheduledAllocated : ∀ request ∈ requests scheduled, request.IsAllocated :=
    fun request requestMem => allocated request ((mem_requests_scheduled related request).mp requestMem)
  have scheduledCapable : Capable processor scheduled :=
    fun request requestMem => capable request ((mem_requests_scheduled related request).mp requestMem)
  rw [isScalar, isPacked, selectsSlots_scalarProgram_iff allocated capable,
    selectsSlots_scalarProgram_iff scheduledAllocated scheduledCapable,
    stopsEarly_scheduled related, and_self_iff]

/-- The canonical layout without aliases. -/
def unnamedSlots : Processor := { Processor.default with slotAliases := [] }

/-- A function that returns a constant. -/
def returnsConstant : List Function :=
  [⟨"main", [⟨"entry", [⟨.movImm, some (.preg 1), [.imm 7]⟩], .ret⟩]⟩]

theorem capable_returnsConstant (processor : Processor)
    (alu : ∃ slot < processor.width, slotSupportsOpcode slot .movImm processor = true)
    (control : ∃ slot < processor.width, slotSupportsOpcode slot .ret processor = true) :
    Capable processor returnsConstant := by
  intro request requestMem
  rcases List.mem_pair.mp requestMem with rfl | rfl
  · exact alu
  · exact control

theorem allocated_returnsConstant :
    ∀ request ∈ requests returnsConstant, request.IsAllocated := by
  intro request requestMem
  rcases List.mem_pair.mp requestMem with rfl | rfl
  · exact ⟨rfl, rfl⟩
  · rfl

/-- The canonical layout with the alias `X` only. -/
def controlAliasOnly : Processor := { Processor.default with slotAliases := [⟨"X", 3⟩] }

theorem selectsSlots_iff_controlAliasOnly :
    SelectsSlots (emitScalarVliwModule returnsConstant controlAliasOnly) ∧
      SelectsSlots (emitPackedVliwModule returnsConstant controlAliasOnly) :=
  (selectsSlots_iff allocated_returnsConstant (capable_returnsConstant controlAliasOnly
    ⟨0, by decide, by decide +kernel⟩ ⟨3, by decide, by decide +kernel⟩)).mpr
    (.inl ⟨3, by decide, by decide +kernel⟩)

/-- Without the alias `X` the return has no slot although slot 3 can execute it. -/
theorem unnamedSlots_rejected :
    Capable unnamedSlots returnsConstant ∧
      emitScalarVliwModule returnsConstant unnamedSlots =
        .error (.error (.notImplemented "processor layout has no X slot")) ∧
      emitPackedVliwModule returnsConstant unnamedSlots =
        .error (.error (.notImplemented "processor layout has no X slot")) :=
  ⟨capable_returnsConstant unnamedSlots ⟨0, by decide, by decide +kernel⟩
    ⟨3, by decide, by decide +kernel⟩, by decide +kernel, by decide +kernel⟩

end VliwCompiler.Pack
