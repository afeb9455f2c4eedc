import VliwCompiler.Pack.MemoryOrder

/-!
# Memory slots

On a processor with a single memory slot no bundle holds two memory operations, and
every module keeps its memory order.  On every other one a store and a load of the
same address are issued together.
-/

namespace VliwCompiler.Pack

open Asm (Opcode Bundle Item Processor Program BlockCode blockItems programBundles verifyBundle)
open Codegen (Placed AllPlaced ScalarBody ScalarCode lowerSyllable slotSupportsOpcode scalarSlot
  xSlot scalarProgram)
open Mir (Function Block blockAt blockIds)
open Schedule (ReadyState)

/-- A slot with a memory unit. -/
def MemorySlot (processor : Processor) (slot : Nat) : Prop :=
  slot < processor.width ∧ slotSupportsOpcode slot .storeD processor = true

/-- No two slots have a memory unit. -/
def OneMemorySlot (processor : Processor) : Prop :=
  ∀ first second, MemorySlot processor first → MemorySlot processor second → first = second

/-- Memory operations and control transfers can be emitted. -/
structure IssuesMemory (processor : Processor) : Prop where
  control : ∃ slot, xSlot processor = .ok slot ∧ slot < processor.width ∧
    slotSupportsOpcode slot .ret processor = true
  memory : ∃ slot, scalarSlot .storeD processor = .ok slot ∧ slot < processor.width

/-! ### One memory slot -/

theorem slotSupportsOpcode_congr {first second : Opcode} (sameUnits : first.units = second.units)
    (firstProper : first ≠ .nop) (secondProper : second ≠ .nop) (slot : Nat)
    (processor : Processor) :
    slotSupportsOpcode slot first processor = slotSupportsOpcode slot second processor := by
  unfold slotSupportsOpcode Codegen.slotSupportsOpcodeWithUnits
  rw [if_neg firstProper, if_neg secondProper, sameUnits]

theorem memory_ne_nop {opcode : Opcode} (memory : isMemoryOpcode opcode = true) :
    opcode ≠ .nop := by
  rintro rfl
  cases memory

theorem units_of_memory {opcode : Opcode} (memory : isMemoryOpcode opcode = true) :
    opcode.units = Opcode.storeD.units := of_decide_eq_true memory

/-- The syllable is a memory operation. -/
def IsMemory (syllable : Asm.Syllable) : Prop :=
  ∃ opcode, Opcode.fromMnemonic syllable.opcode = some opcode ∧ isMemoryOpcode opcode = true

theorem isMemory_of_lowered {syllable : Mir.Syllable} {asm : Asm.Syllable}
    (lowered : lowerSyllable syllable = .ok asm)
    (memory : isMemoryOpcode syllable.opcode = true) : IsMemory asm := by
  refine ⟨syllable.opcode, ?_, memory⟩
  rw [Codegen.mnemonic_of_lowerSyllable lowered, Opcode.fromMnemonic_mnemonic]

/-- With one memory slot a bundle holds at most one memory operation. -/
theorem pairwise_memory {processor : Processor} (single : OneMemorySlot processor)
    {bundle : Bundle} (fits : bundle.slots.length ≤ processor.width)
    (accepted : verifyBundle bundle processor = .ok ()) :
    bundle.syllables.Pairwise fun first second => ¬(IsMemory first ∧ IsMemory second) := by
  have whole : issued processor bundle = bundle.syllables := by
    unfold issued
    rw [List.take_of_length_le fits]
    rfl
  obtain ⟨legal, -⟩ := verifyBundle_eq_ok_iff.mp accepted
  have memorySlot : ∀ {slot : Nat} {syllable : Asm.Syllable}, slot < processor.width →
      bundle.slots[slot]? = some (some syllable) → IsMemory syllable →
      MemorySlot processor slot := by
    rintro slot syllable inside found ⟨opcode, known, memory⟩
    obtain ⟨other, otherKnown, supported⟩ := legal slot inside syllable found
    obtain rfl : opcode = other := Option.some.inj (known.symm.trans otherKnown)
    rw [slotSupportsOpcode_congr (units_of_memory memory) (memory_ne_nop memory)
      (by decide)] at supported
    exact ⟨inside, supported⟩
  rw [← whole]
  refine pairwise_issued fun i j first second iInside jInside less isFirst isSecond => ?_
  rintro ⟨firstMemory, secondMemory⟩
  exact Nat.ne_of_lt less (single i j (memorySlot iInside isFirst firstMemory)
    (memorySlot jInside isSecond secondMemory))

/-- With one memory slot no merge joins two memory syllables. -/
theorem apartMerges_of_one {processor : Processor} {startCycle : Nat} {ready : ReadyState}
    {syllables : List Mir.Syllable} {segment : List Bundle}
    (scalar : ∀ bundle ∈ segment,
      Single processor.width bundle ∧ bundleIsTerminator bundle = false)
    (lowered : List.Forall₂ (fun syllable asm => lowerSyllable syllable = .ok asm) syllables
      (segment.flatMap Bundle.syllables))
    (single : ∀ syllable ∈ syllables, isMemoryOpcode syllable.opcode = true →
      OneMemorySlot processor) :
    ApartMerges processor startCycle ready syllables segment := by
  intro earlier later first second joins isFirst isSecond conflict
  obtain ⟨front, bundle, back, out, last, rfl, done, isLast, full, merges, rfl, less, close⟩ := joins
  obtain ⟨merged, isMerged⟩ := Option.isSome_iff_exists.mp merges
  obtain ⟨start, other, candidate, rfl, sameLast, -, -, -, -, placed, accepted, -⟩ :=
    tryMerge_eq_some isMerged
  cases isLast.symm.trans sameLast
  have frontScalar := fun bundle inFront => scalar bundle (List.mem_append_left _ inFront)
  have grouped := grouped_of_segment frontScalar done
  obtain ⟨bundleSingle, -⟩ := scalar bundle (by simp)
  obtain ⟨asm, only⟩ := bundleSingle.single.resolve_left full
  have perm := perm_of_mergeBundles (grouped.fits last (by simp)) only placed
  have fits : candidate.slots.length ≤ processor.width := by
    obtain ⟨slot, -, -, isCandidate⟩ := mergeBundles_eq_some only placed
    rw [isCandidate]
    simp [length_normalizeSlots]
  have one := single first (List.mem_of_getElem? isFirst) conflict.firstMemory
  have symmetric : Std.Symm fun left right : Asm.Syllable => ¬(IsMemory left ∧ IsMemory right) :=
    ⟨fun _ _ apart both => apart both.symm⟩
  have apart := (perm.pairwise_iff fun {_ _} => symmetric.symm _ _).mpr
    (pairwise_memory one fits accepted)
  obtain ⟨-, -, apart⟩ := List.pairwise_append.mp apart
  obtain ⟨firstAsm, isFirstAsm, firstLowered⟩ := getElem?_of_forall₂ lowered.flip isFirst
  obtain ⟨secondAsm, isSecondAsm, secondLowered⟩ := getElem?_of_forall₂ lowered.flip isSecond
  rw [List.flatMap_append] at isFirstAsm isSecondAsm
  rw [List.getElem?_append_left less] at isFirstAsm
  rw [List.getElem?_append_right (Nat.le_refl _), Nat.sub_self, List.flatMap_cons, only] at isSecondAsm
  cases isSecondAsm
  have firstMem : firstAsm ∈ last.syllables := by
    obtain ⟨groups, flat, related⟩ := grouped.groups
    obtain ⟨firstGroups, lastGroups, rfl, -, lastRelated⟩ := exists_append_of_forall₂ related
    rw [List.forall₂_cons_right_iff] at lastRelated
    obtain ⟨group, rest, groupPerm, restRelated, rfl⟩ := lastRelated
    rw [List.forall₂_nil_right_iff] at restRelated
    subst restRelated
    rw [← flat, List.flatten_append, List.flatten_singleton] at isFirstAsm less close
    rw [List.length_append, groupPerm.length_eq] at close
    rw [List.getElem?_append_right (by omega)] at isFirstAsm
    exact groupPerm.mem_iff.mp (List.mem_of_getElem? isFirstAsm)
  exact apart firstAsm firstMem asm (List.mem_singleton_self _)
    ⟨isMemory_of_lowered firstLowered conflict.firstMemory,
      isMemory_of_lowered secondLowered conflict.secondMemory⟩

/-! ### Emitted memory operations -/

theorem scalarSlot_of_memory {opcode : Opcode} (memory : isMemoryOpcode opcode = true)
    (processor : Processor) : scalarSlot opcode processor = scalarSlot .storeD processor := by
  have sameUnits := units_of_memory memory
  have proper := memory_ne_nop memory
  have sameAlias : Codegen.canonicalAlias opcode = Codegen.canonicalAlias .storeD := by
    unfold Codegen.canonicalAlias
    rw [if_pos memory, if_pos (by decide)]
  have sameFirst : Codegen.firstCompatibleSlot opcode processor =
      Codegen.firstCompatibleSlot .storeD processor := by
    unfold Codegen.firstCompatibleSlot Codegen.slotSupportsOpcodeWithUnits
    rw [if_neg proper, if_neg (by decide), sameUnits]
  unfold scalarSlot
  rw [sameAlias, sameFirst]
  simp only [slotSupportsOpcode_congr sameUnits proper (by decide)]

theorem inside_of_emitted {ctx ctx' : Codegen.CodegenCtx} {program program' : Program}
    {opcode : Opcode} {asm : Asm.Syllable} {slot : Nat}
    (emitted : ctx.emitAsmSyllableInSlot program opcode asm slot = .ok (ctx', program')) :
    slot < program.processor.width ∧ slotSupportsOpcode slot opcode program.processor = true := by
  unfold Codegen.CodegenCtx.emitAsmSyllableInSlot at emitted
  split at emitted
  · rename_i supported
    obtain ⟨bundle, built, -⟩ := bind_eq_ok.mp emitted
    unfold Codegen.bundleWith at built
    split at built
    · rename_i inside
      exact ⟨inside, supported⟩
    · cases built
  · cases emitted

theorem control_of_emitted {ctx ctx' : Codegen.CodegenCtx} {program program' : Program}
    {terminator : Mir.Terminator}
    (emitted : ctx.emitTerminator program terminator = .ok (ctx', program')) :
    ∃ slot, xSlot program.processor = .ok slot ∧ slot < program.processor.width ∧
      slotSupportsOpcode slot .ret program.processor = true := by
  have general : ∀ {opcode : Opcode} {asm : Asm.Syllable}, opcode.units = Opcode.ret.units →
      opcode ≠ .nop → ctx.emitControlSyllable program opcode asm = .ok (ctx', program') →
      ∃ slot, xSlot program.processor = .ok slot ∧ slot < program.processor.width ∧
        slotSupportsOpcode slot .ret program.processor = true := by
    intro opcode asm sameUnits proper isEmitted
    obtain ⟨slot, isSlot, inSlot⟩ := bind_eq_ok.mp isEmitted
    obtain ⟨inside, supported⟩ := inside_of_emitted inSlot
    rw [slotSupportsOpcode_congr sameUnits proper (by decide)] at supported
    exact ⟨slot, isSlot, inside, supported⟩
  cases terminator with
  | ret => exact general rfl (by decide) emitted
  | jump label => exact general rfl (by decide) emitted
  | branch cond label =>
      obtain ⟨pred, -, rest⟩ := bind_eq_ok.mp emitted
      exact general rfl (by decide) rest
  | directCall target cont => exact general rfl (by decide) emitted

/-- A processor for which a module with a memory operation is emitted. -/
theorem issuesMemory_of_emitted {functions : List Function} {processor : Processor}
    {program : Program} (emitted : scalarProgram functions processor = .ok program)
    {function : Function} (functionMem : function ∈ functions) {block : Block}
    (blockMem : block ∈ function.blocks) {syllable : Mir.Syllable}
    (syllableMem : syllable ∈ block.syllables)
    (memory : isMemoryOpcode syllable.opcode = true) : IssuesMemory processor := by
  have start : Codegen.AllSlotted ⟨processor, []⟩ := by
    intro bundle bundleMem
    cases bundleMem
  obtain ⟨program₁, program₂, ⟨slotted₁, same₁⟩, functionEmitted⟩ := exists_step_of_foldlM_ok
    (motive := fun current : Program => Codegen.AllSlotted current ∧ current.processor = processor)
    (fun current function next before step =>
      have after := before.1.emitFunction step
      ⟨after.1, after.2.trans before.2⟩) ⟨start, rfl⟩ emitted functionMem
  obtain ⟨⟨ctx, final⟩, blocks, -⟩ := bind_eq_ok.mp functionEmitted
  obtain ⟨index, isBlock⟩ := List.mem_iff_getElem?.mp blockMem
  have entryMem : (block, index) ∈ function.blocks.zipIdx :=
    List.mem_zipIdx_iff_getElem?.mpr isBlock
  obtain ⟨⟨ctx₁, program₃⟩, ⟨ctx₂, program₄⟩, ⟨slotted₃, same₃⟩, blockEmitted⟩ :=
    exists_step_of_foldlM_ok
      (motive := fun current : Codegen.CodegenCtx × Program =>
        Codegen.AllSlotted current.2 ∧ current.2.processor = processor)
      (fun current entry next before step =>
        have after := before.1.emitBlock step
        ⟨after.1, after.2.trans before.2⟩) ⟨slotted₁, same₁⟩ blocks entryMem
  obtain ⟨⟨ctx₃, program₅⟩, body, last⟩ := bind_eq_ok.mp blockEmitted
  obtain ⟨entered, isLabelled⟩ : ∃ labelled : Program, labelled = { program₃ with
      items := program₃.items ++ ((if index = 0 then [Item.label function.name] else []) ++
        [.label block.label]) } := ⟨_, rfl⟩
  have labelled : Codegen.AllSlotted entered := isLabelled ▸ slotted₃.labels
  have sameLabelled : entered.processor = processor := isLabelled ▸ same₃
  have folded : block.syllables.foldlM (fun (current : Codegen.CodegenCtx × Program) syllable =>
      current.1.emitSyllable current.2 syllable) (ctx₁, entered) = .ok (ctx₃, program₅) :=
    isLabelled ▸ body
  obtain ⟨⟨ctx₄, program₆⟩, ⟨ctx₅, program₇⟩, ⟨-, same₆⟩, syllableEmitted⟩ :=
    exists_step_of_foldlM_ok
      (motive := fun current : Codegen.CodegenCtx × Program =>
        Codegen.AllSlotted current.2 ∧ current.2.processor = processor)
      (fun current entry next before step =>
        have after := before.1.emitSyllable step
        ⟨after.1, after.2.trans before.2⟩) ⟨labelled, sameLabelled⟩ folded syllableMem
  constructor
  · obtain ⟨-, same₅⟩ := labelled.emitSyllables folded
    have found := control_of_emitted last
    rwa [same₅.trans sameLabelled] at found
  · obtain ⟨asm, -, rest⟩ := bind_eq_ok.mp syllableEmitted
    obtain ⟨slot, isSlot, inSlot⟩ := bind_eq_ok.mp rest
    obtain ⟨inside, -⟩ := inside_of_emitted inSlot
    change program₆.processor = processor at same₆
    rw [scalarSlot_of_memory memory] at isSlot
    rw [same₆] at isSlot inside
    exact ⟨slot, isSlot, inside⟩

/-! ### Processors with one memory slot -/

/-- The processor of a scheduled module with a memory operation. -/
theorem issuesMemory_of_scheduled {functions : List Function} {processor : Processor}
    {program : Program} (scheduled : scheduledProgram functions processor = .ok program)
    {id : Mir.BlockId} {block : Block} (found : blockAt functions id = some block)
    {syllable : Mir.Syllable} (syllableMem : syllable ∈ block.syllables)
    (memory : isMemoryOpcode syllable.opcode = true) : IssuesMemory processor := by
  obtain ⟨scheduledFunctions, related, emitted⟩ := exists_scheduled scheduled
  obtain ⟨function, isFunction, isBlock⟩ := Option.bind_eq_some_iff.mp found
  obtain ⟨image, isImage, functionScheduled⟩ := getElem?_of_forall₂ related.flip isFunction
  obtain ⟨scheduledBlock, isScheduledBlock, blockScheduled⟩ :=
    getElem?_of_forall₂ functionScheduled.blocks.flip isBlock
  obtain ⟨order, valid, same⟩ := blockScheduled.syllables
  refine issuesMemory_of_emitted emitted (List.mem_of_getElem? isImage)
    (List.mem_of_getElem? isScheduledBlock) ?_ memory
  rw [same]
  exact (Schedule.perm_of_validOrder valid).mem_iff.mpr syllableMem

theorem keepsMemoryOrder_of_one {functions : List Function} {processor : Processor}
    {packed : Program} (single : IssuesMemory processor → OneMemorySlot processor)
    (atEnd : ControlAtEnd functions)
    (emitted : packedProgram functions processor = .ok packed) :
    KeepsMemoryOrder functions packed := by
  refine keepsMemoryOrder_of_mergesApart atEnd emitted ?_
  intro program scalar index id block code start scheduled isItems isId isBlock isFound _
  obtain ⟨codes, rfl, realized⟩ := exists_scalarCodes scheduled
  obtain rfl := Asm.blockItems_injective isItems
  obtain ⟨other, isOther, original, scheduledBlock, isOriginal, isScheduled, isCode⟩ :=
    getElem?_of_forall₂ realized isFound
  cases isId.symm.trans isOther
  cases isBlock.symm.trans isOriginal
  have straight := straight_of_body isCode.body (isScheduled.straight (atEnd.block isBlock))
  rw [← isScheduled.issued]
  refine apartMerges_of_one (fun bundle bundleMem =>
    ⟨single_of_body isCode.body bundle bundleMem, straight bundle bundleMem⟩)
    (syllables_of_body isCode.body) fun syllable syllableMem memory => ?_
  obtain ⟨order, valid, same⟩ := isScheduled.syllables
  rw [same] at syllableMem
  exact single (issuesMemory_of_scheduled scheduled isBlock
    ((Schedule.perm_of_validOrder valid).mem_iff.mp syllableMem) memory)

/-! ### Processors with several memory slots -/

/-- A store and a load of the same address. -/
def storeThenLoad : Function :=
  ⟨"main", [⟨"entry",
    [⟨.storeD, none, [.imm 64, .imm 1]⟩, ⟨.loadD, some (.preg 2), [.imm 64]⟩], .ret⟩]⟩

/-- The store of `storeThenLoad`. -/
def storeAsm : Asm.Syllable := ⟨"std", [.memAddr 0 64, .imm 1]⟩

/-- The load of `storeThenLoad`. -/
def loadAsm : Asm.Syllable := ⟨"ldd", [.reg 2, .memAddr 0 64]⟩

section StoreThenLoad

variable {processor : Processor} {memory control : Nat}

variable (processor) in
/-- A bundle with one syllable. -/
def alone (slot : Nat) (asm : Asm.Syllable) : Bundle :=
  ⟨(List.replicate processor.width none).set slot (some asm)⟩

variable (processor memory control) in
/-- The program handed to the packer. -/
def scalarStoreThenLoad : Program where
  processor := processor
  items := [.label "main", .label "entry", .bundle (alone processor memory storeAsm),
    .bundle (alone processor memory loadAsm), .bundle (alone processor control ⟨"ret", []⟩)]

theorem syllables_alone {slot : Nat} (inside : slot < processor.width) (asm : Asm.Syllable) :
    (alone processor slot asm).syllables = [asm] := by
  have built : Codegen.bundleWith processor.width slot asm = .ok (alone processor slot asm) :=
    if_pos inside
  exact (Codegen.syllables_bundleWith built).1

theorem scheduledProgram_storeThenLoad (isMemory : scalarSlot .storeD processor = .ok memory)
    (memoryInside : memory < processor.width) (isControl : xSlot processor = .ok control)
    (controlInside : control < processor.width)
    (controlSupported : slotSupportsOpcode control .ret processor = true) :
    scheduledProgram [storeThenLoad] processor =
      .ok (scalarStoreThenLoad processor memory control) := by
  have isLoad : scalarSlot .loadD processor = .ok memory :=
    (scalarSlot_of_memory rfl processor).trans isMemory
  have storeSupported := Codegen.supported_of_scalarSlot (by decide) isMemory
  have loadSupported := Codegen.supported_of_scalarSlot (by decide) isLoad
  have scheduled : Schedule.listScheduleFunction storeThenLoad = .ok storeThenLoad := by
    decide +kernel
  have emitted : emitScheduledFunction ⟨processor, []⟩ storeThenLoad =
      .ok (scalarStoreThenLoad processor memory control) := by
    have isSum : checkedAdd 64#64 0#64 = .ok 64#64 := rfl
    unfold emitScheduledFunction
    rw [scheduled]
    change Codegen.emitFunction _ _ = _
    simp [Codegen.emitFunction, storeThenLoad, isSum, Codegen.emitBlock, Codegen.CodegenCtx.emitSyllable,
      lowerSyllable, Codegen.storeOperands, Codegen.loadAddress, Codegen.addressOperand,
      Codegen.gprOrImmOperand, Codegen.gprForReg, expect, Codegen.CodegenCtx.emitAsmSyllable,
      isMemory, isLoad, Codegen.CodegenCtx.emitAsmSyllableInSlot, storeSupported, loadSupported,
      Codegen.bundleWith, memoryInside, controlInside, Codegen.CodegenCtx.emitTerminator,
      Codegen.CodegenCtx.emitControlSyllable, isControl, controlSupported,
      Codegen.CodegenCtx.waitUntil, Codegen.CodegenCtx.requiredCycleForSources,
      Codegen.CodegenCtx.readyCycles, Codegen.CodegenCtx.recordResult, scalarStoreThenLoad, alone,
      storeAsm, loadAsm, Opcode.mnemonic, Opcode.writesGpr, Opcode.writesPred, zeroReg, bind,
      Except.bind, Except.map, pure, Except.pure]
  unfold scheduledProgram
  rw [List.foldlM_cons, emitted]
  rfl

/-- A syllable is merged when some slot for it is open. -/
theorem exists_mergeBundles {last bundle : Bundle} {asm : Asm.Syllable} {opcode : Opcode}
    {slot : Nat} (only : bundle.syllables = [asm])
    (known : Opcode.fromMnemonic asm.opcode = some opcode) (inside : slot < processor.width)
    (isOpen : (normalizeSlots last.slots processor.width)[slot]? = some none)
    (supported : slotSupportsOpcode slot opcode processor = true) :
    ∃ other, other < processor.width ∧ slotSupportsOpcode other opcode processor = true ∧
      (normalizeSlots last.slots processor.width)[other]? = some none ∧
      mergeBundles processor last bundle =
        some ⟨(normalizeSlots last.slots processor.width).set other (some asm)⟩ := by
  have someOpen : (firstOpenCompatibleSlot ⟨normalizeSlots last.slots processor.width⟩ opcode
      processor).isSome := by
    unfold firstOpenCompatibleSlot
    rw [List.find?_isSome]
    refine ⟨slot, List.mem_range.mpr inside, ?_⟩
    simp [isOpen, supported]
  obtain ⟨other, found⟩ := Option.isSome_iff_exists.mp someOpen
  have accepted := List.find?_some found
  have otherInside := List.mem_range.mp (List.mem_of_find?_eq_some found)
  obtain ⟨otherOpen, otherSupported⟩ := Bool.and_eq_true_iff.mp accepted
  refine ⟨other, otherInside, otherSupported, ?_, ?_⟩
  · cases content : (normalizeSlots last.slots processor.width)[other]? with
    | none => simp [content] at otherOpen
    | some syllable? =>
        cases syllable? with
        | none => rfl
        | some syllable => simp [content] at otherOpen
  · unfold mergeBundles
    rw [only, List.foldlM_cons]
    unfold placeSyllable
    rw [known, Option.bind_some, found]
    rfl

theorem normalizeSlots_alone (slot : Nat) (asm : Asm.Syllable) :
    normalizeSlots (alone processor slot asm).slots processor.width =
      (alone processor slot asm).slots := by
  simp [normalizeSlots, alone]

/-- The slots of a bundle with the store and the load. -/
theorem slots_together {other position : Nat} {syllable : Asm.Syllable}
    (found : ((alone processor memory storeAsm).slots.set other (some loadAsm))[position]? =
      some (some syllable)) :
    position = other ∧ syllable = loadAsm ∨ position = memory ∧ syllable = storeAsm := by
  rw [List.getElem?_set] at found
  split at found
  · rename_i same
    split at found
    · exact .inl ⟨same.symm, (Option.some.inj (Option.some.inj found)).symm⟩
    · cases found
  · unfold alone at found
    rw [List.getElem?_set] at found
    split at found
    · rename_i same
      split at found
      · exact .inr ⟨same.symm, (Option.some.inj (Option.some.inj found)).symm⟩
      · cases found
    · simp [List.getElem?_replicate] at found

theorem verifyBundle_together {other : Nat}
    (storeSupported : slotSupportsOpcode memory .storeD processor = true)
    (loadSupported : slotSupportsOpcode other .loadD processor = true) :
    verifyBundle ⟨(alone processor memory storeAsm).slots.set other (some loadAsm)⟩ processor =
      .ok () := by
  have storeWrites : gprWriteOf storeAsm = none := by decide
  have loadWrites : gprWriteOf loadAsm = some 2 := by decide
  have storeReads : (2 : UInt8) ∉ gprReadsOf storeAsm := by decide
  refine verifyBundle_eq_ok_iff.mpr ⟨?_, ?_, ?_⟩
  · intro position _ syllable found
    rcases slots_together found with ⟨rfl, rfl⟩ | ⟨rfl, rfl⟩
    · exact ⟨.loadD, rfl, loadSupported⟩
    · exact ⟨.storeD, rfl, storeSupported⟩
  · intro i j first second reg _ _ different isFirst isSecond written
    rcases slots_together isFirst with ⟨rfl, rfl⟩ | ⟨rfl, rfl⟩
    · rcases slots_together isSecond with ⟨rfl, rfl⟩ | ⟨rfl, rfl⟩
      · exact absurd rfl different
      · rw [storeWrites]
        exact nofun
    · rw [storeWrites] at written
      cases written
  · intro i j first second reg _ _ different isFirst isSecond written
    rcases slots_together isFirst with ⟨rfl, rfl⟩ | ⟨rfl, rfl⟩
    · rcases slots_together isSecond with ⟨rfl, rfl⟩ | ⟨rfl, rfl⟩
      · exact absurd rfl different
      · rw [loadWrites] at written
        cases written
        exact storeReads
    · rw [storeWrites] at written
      cases written

/-- Both memory operations are packed into one bundle. -/
theorem packBundleSegment_storeThenLoad {other : Nat} (memorySlot : MemorySlot processor memory)
    (otherSlot : MemorySlot processor other) (different : other ≠ memory) :
    ∃ candidate, packBundleSegment processor
      [alone processor memory storeAsm, alone processor memory loadAsm] 0 {} =
        some [candidate] := by
  have storeOnly := syllables_alone memorySlot.1 storeAsm
  have loadOnly := syllables_alone memorySlot.1 loadAsm
  have full : ∀ {asm : Asm.Syllable}, bundleIsEmpty (alone processor memory asm) = false := by
    intro asm
    rw [← Bool.not_eq_true, bundleIsEmpty_iff, syllables_alone memorySlot.1]
    exact nofun
  have storeReady : bundleSourcesReadyAt (alone processor memory storeAsm) 0 {} = true := by
    unfold bundleSourcesReadyAt
    rw [storeOnly]
    decide
  have loadReady : bundleSourcesReadyAt (alone processor memory loadAsm) 0 {} = true := by
    unfold bundleSourcesReadyAt
    rw [loadOnly]
    decide
  have storeStraight : bundleIsTerminator (alone processor memory storeAsm) = false := by
    unfold bundleIsTerminator
    rw [storeOnly]
    decide
  have afterStore : readyAfterBundles {} 0 [alone processor memory storeAsm] = {} := by
    change updateReadyAfterBundle (alone processor memory storeAsm) 0 {} = {}
    unfold updateReadyAfterBundle
    rw [storeOnly]
    rfl
  have first : packBundle processor 0 {} [] (alone processor memory storeAsm) =
      some [alone processor memory storeAsm] := by
    unfold packBundle
    rw [full]
    simp [tryMergeIntoPrevious, padUntilReady, readyAfterBundles, updateReadyAfterPackedBundles,
      storeReady]
  have isOpen : (normalizeSlots (alone processor memory storeAsm).slots
      processor.width)[other]? = some none := by
    rw [normalizeSlots_alone]
    unfold alone
    rw [List.getElem?_set_ne different.symm, List.getElem?_replicate, if_pos otherSlot.1]
  have loadSupported := fun slot => slotSupportsOpcode_congr
    (show Opcode.loadD.units = Opcode.storeD.units from rfl) (by decide) (by decide) slot processor
  obtain ⟨slot, -, slotSupported, -, merged⟩ := exists_mergeBundles loadOnly
    (show Opcode.fromMnemonic loadAsm.opcode = some .loadD from rfl) otherSlot.1 isOpen
    ((loadSupported other).trans otherSlot.2)
  rw [normalizeSlots_alone] at merged
  have accepted := verifyBundle_together memorySlot.2 slotSupported
  refine ⟨⟨(alone processor memory storeAsm).slots.set slot (some loadAsm)⟩, ?_⟩
  unfold packBundleSegment
  rw [List.foldlM_cons, first]
  change (packBundle processor 0 {} [alone processor memory storeAsm]
    (alone processor memory loadAsm)).bind _ = _
  have second : packBundle processor 0 {} [alone processor memory storeAsm]
      (alone processor memory loadAsm) =
        some [⟨(alone processor memory storeAsm).slots.set slot (some loadAsm)⟩] := by
    have tried : tryMergeIntoPrevious processor [alone processor memory storeAsm]
        (alone processor memory loadAsm) 0 {} =
          some [⟨(alone processor memory storeAsm).slots.set slot (some loadAsm)⟩] := by
      unfold tryMergeIntoPrevious
      simp only [List.getLast?_singleton, full, storeStraight, Bool.or_false, Bool.false_eq_true,
        if_false, afterStore, merged, accepted]
      rw [if_neg (by exact Bool.false_ne_true)]
      have before : readyAfterBundles {} 0 [alone processor memory storeAsm].dropLast = {} := rfl
      rw [before]
      simp [loadReady]
    unfold packBundle
    rw [full, tried]
    rfl
  rw [second]
  rfl

/-- The packed program has one bundle besides the return. -/
theorem packScalarProgram_storeThenLoad {candidate : Bundle}
    (memoryInside : memory < processor.width) (controlInside : control < processor.width)
    (packedSegment : packBundleSegment processor
      [alone processor memory storeAsm, alone processor memory loadAsm] 0 {} = some [candidate]) :
    packScalarProgram (scalarStoreThenLoad processor memory control) =
      some ⟨processor, [.label "main", .label "entry", .bundle candidate,
        .bundle (alone processor control ⟨"ret", []⟩)]⟩ := by
  have straight : Straight [alone processor memory storeAsm, alone processor memory loadAsm] := by
    intro bundle bundleMem
    simp only [List.mem_cons, List.not_mem_nil, or_false] at bundleMem
    rcases bundleMem with rfl | rfl
    · unfold bundleIsTerminator
      rw [syllables_alone memoryInside]
      decide
    · unfold bundleIsTerminator
      rw [syllables_alone memoryInside]
      decide
  have transfers : bundleIsTerminator (alone processor control ⟨"ret", []⟩) = true := by
    unfold bundleIsTerminator
    rw [syllables_alone controlInside]
    decide
  have split : (scalarStoreThenLoad processor memory control).items =
      ["main", "entry"].map Item.label ++
        ([alone processor memory storeAsm, alone processor memory loadAsm].map Item.bundle ++
          [.bundle (alone processor control ⟨"ret", []⟩)]) := rfl
  have sameProcessor : (scalarStoreThenLoad processor memory control).processor = processor := rfl
  unfold packScalarProgram
  rw [split, List.foldlM_append, foldlM_labels _ _ rfl]
  simp only [Option.bind_eq_bind, Option.bind_some]
  rw [List.foldlM_append, foldlM_body straight]
  simp only [Option.bind_eq_bind, Option.bind_some, List.foldlM_cons, List.foldlM_nil, packItem,
    transfers, if_true, flushSegment, List.nil_append]
  rw [sameProcessor, packedSegment]
  simp [packBundleSegment]

end StoreThenLoad

/-- One bundle does not keep the order of two conflicting syllables. -/
theorem not_memoryOrdered_single {block : Block} {bundle : Bundle} {i j : Nat}
    {first second : Mir.Syllable} (less : i < j) (isFirst : block.syllables[i]? = some first)
    (isSecond : block.syllables[j]? = some second) (conflict : MemoryConflict first second) :
    ¬MemoryOrdered block [bundle] := by
  rintro ⟨groups, -, grouped, keeps⟩
  obtain ⟨a, b, left, right, before, isLeft, isRight, -⟩ :=
    keeps i j first second less isFirst isSecond conflict
  have short : groups.length = 1 := grouped.length_eq
  have leftInside := (List.getElem?_eq_some_iff.mp isLeft).1
  have rightInside := (List.getElem?_eq_some_iff.mp isRight).1
  omega

/-- The body of the only block of a program. -/
theorem body_of_blockItems {code : BlockCode} {items : List Item} {bundle last : Bundle}
    (same : items = blockItems [code]) (bundles : programBundles items = [bundle, last]) :
    code.body = [bundle] := by
  have whole : programBundles (blockItems [code]) = code.body ++ [code.last] := by
    unfold blockItems BlockCode.items
    rw [List.flatMap_cons, List.flatMap_nil, List.append_nil, Asm.programBundles_append,
      Asm.programBundles_map_bundle]
    simp [programBundles, Asm.Item.bundle?]
  rw [same, whole] at bundles
  have split : code.body ++ [code.last] = [bundle] ++ [last] := bundles
  exact (List.append_inj' split rfl).1

/-- On a processor with two memory slots the store and the load are issued
together. -/
theorem not_keepsMemoryOrder {processor : Processor} (issues : IssuesMemory processor)
    (several : ¬OneMemorySlot processor) :
    ∃ packed, packedProgram [storeThenLoad] processor = .ok packed ∧
      ¬KeepsMemoryOrder [storeThenLoad] packed := by
  obtain ⟨control, isControl, controlInside, controlSupported⟩ := issues.control
  obtain ⟨memory, isMemory, memoryInside⟩ := issues.memory
  have memorySlot : MemorySlot processor memory :=
    ⟨memoryInside, Codegen.supported_of_scalarSlot (by decide) isMemory⟩
  obtain ⟨other, otherSlot, different⟩ : ∃ other, MemorySlot processor other ∧ other ≠ memory := by
    by_contra none
    push Not at none
    exact several fun first second isFirst isSecond =>
      (none first isFirst).trans (none second isSecond).symm
  obtain ⟨candidate, packedSegment⟩ :=
    packBundleSegment_storeThenLoad memorySlot otherSlot different
  have scheduled := scheduledProgram_storeThenLoad isMemory memoryInside isControl controlInside
    controlSupported
  have done := packScalarProgram_storeThenLoad memoryInside controlInside packedSegment
  refine ⟨_, packedProgram_eq_ok.mpr ⟨_, scheduled, done⟩, ?_⟩
  rintro ⟨codes, same, related⟩
  have ids : blockIds [storeThenLoad] = [⟨0, 0⟩] := by decide
  rw [ids, List.forall₂_cons_left_iff] at related
  obtain ⟨code, rest, ⟨block, found, -, ordered⟩, restRelated, rfl⟩ := related
  rw [List.forall₂_nil_left_iff] at restRelated
  subst restRelated
  rw [body_of_blockItems same rfl] at ordered
  cases found
  exact not_memoryOrdered_single (by decide : 0 < 1) rfl rfl ⟨rfl, rfl, .inl rfl, rfl⟩ ordered

/-- Packing keeps the order of conflicting memory syllables in every module
exactly on the processors where at most one slot has a memory unit, or where
memory operations or control transfers cannot be emitted at all. -/
theorem keepsEveryOrder_iff (processor : Processor) :
    (∀ functions packed, ControlAtEnd functions →
      packedProgram functions processor = .ok packed → KeepsMemoryOrder functions packed) ↔
      (IssuesMemory processor → OneMemorySlot processor) := by
  constructor
  · intro keeps issues
    by_contra several
    obtain ⟨packed, emitted, fails⟩ := not_keepsMemoryOrder issues several
    have atEnd : ControlAtEnd [storeThenLoad] := by
      unfold ControlAtEnd
      decide
    exact fails (keeps [storeThenLoad] packed atEnd emitted)
  · intro single functions packed atEnd emitted
    exact keepsMemoryOrder_of_one single atEnd emitted

/-- The store and the load share a bundle. -/
theorem storeThenLoad_together :
    ControlAtEnd [storeThenLoad] ∧
      ∃ packed, packedProgram [storeThenLoad] twoMemorySlots = .ok packed ∧
        ¬KeepsMemoryOrder [storeThenLoad] packed := by
  have issues : IssuesMemory twoMemorySlots :=
    ⟨⟨2, by decide +kernel, by decide, by decide +kernel⟩, ⟨0, by decide +kernel, by decide⟩⟩
  have several : ¬OneMemorySlot twoMemorySlots := by
    intro single
    have same := single 0 1 ⟨by decide, by decide +kernel⟩ ⟨by decide, by decide +kernel⟩
    cases same
  refine ⟨?_, not_keepsMemoryOrder issues several⟩
  unfold ControlAtEnd
  decide

end VliwCompiler.Pack
