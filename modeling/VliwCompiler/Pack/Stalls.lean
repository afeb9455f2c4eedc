import VliwCompiler.Pack.Leading

/-!
# Stalls of emitted programs

Scalar programs are free of stalls on every path exactly when no branch or jump leads
from a block with a pending result to a block that begins with a use of it, and packed
programs are under the same condition on the functions as they were scheduled.
-/

namespace VliwCompiler.Pack

open Asm (Opcode Operand Bundle BlockCode Item Processor Program blockItems firstBundle gprReads
  programBundles)
open Codegen (Op Placed ScalarBody ScalarRealizes Slotted emitFunction functionOps lowerSyllable
  operandKeys scalarProgram)
open Mir (Block BlockId Function blockIds)
open Schedule (ReadyState RegKey)

/-- The bundles of a block hold its lowered syllables. -/
def BodyOf (block : Block) (code : BlockCode) : Prop :=
  ∃ asms, List.Forall₂ (fun syllable asm => lowerSyllable syllable = .ok asm)
    block.syllables asms ∧ (code.body.flatMap Bundle.syllables).Perm asms

/-- The items of a function: its blocks in layout order, each one with its labels, its
syllables and its control transfer. -/
def FunctionItems (function : Function) (part : List Item) : Prop :=
  ∃ codes, part = blockItems codes ∧ FunctionCode function codes ∧
    List.Forall₂ BodyOf function.blocks codes

/-! ### Scalar programs -/

theorem control_of_straight {bundle : Bundle} (straight : bundleIsTerminator bundle = false) :
    ∀ asm ∈ bundle.syllables, asm.control = none := by
  intro asm asmMem
  by_contra transfers
  obtain ⟨control, isControl⟩ := Option.ne_none_iff_exists'.mp transfers
  have only := bundleIsTerminator_of_control (show (Bundle.mk [some asm]).syllables = [asm] from rfl)
    isControl
  have isTerminator : syllableIsTerminator asm = true := by
    simpa [bundleIsTerminator, Asm.Bundle.syllables] using only
  rw [← Bool.not_eq_true] at straight
  exact straight (List.any_eq_true.mpr ⟨asm, asmMem, isTerminator⟩)

theorem PlainCode.straight {function : Function} (plain : PlainCode function) {block : Block}
    (blockMem : block ∈ function.blocks) :
    ∀ syllable ∈ block.syllables, syllable.opcode.behavior ≠ .control :=
  fun syllable syllableMem => (plain block blockMem syllable syllableMem).straight

theorem exists_scalarFunction {function : Function} {program program' : Program}
    (plain : PlainCode function) (emitted : emitFunction program function = .ok program') :
    ∃ codes, ScalarFunction program.processor.width function codes ∧
      program' = { program with items := program.items ++ blockItems codes } := by
  obtain ⟨codes, realized, rfl⟩ :=
    Codegen.emitFunction_items (show [function][0]? = some function from rfl) emitted
  rw [← blockIds_singleton] at realized
  obtain ⟨cycles, bundles, inOrder, whole⟩ :=
    Codegen.inOrderBundles_of_emitFunction plain.fits emitted
  rw [Asm.programBundles_append] at whole
  have body : ∀ {index : Nat} {block : Block} {code : BlockCode},
      function.blocks[index]? = some block → codes[index]? = some code →
      ScalarBody program.processor.width block.syllables code.body := by
    intro index block code isBlock found
    obtain ⟨id, isId, -, other, isOther, isCode⟩ := Codegen.exists_id realized found
    obtain ⟨-, rfl⟩ := getElem?_blockIds_singleton.mp isId
    rw [blockAt_singleton, isBlock, Option.some.injEq] at isOther
    exact isOther ▸ isCode.body
  refine ⟨codes, ⟨⟨?_, ?_⟩, body, cycles, List.append_cancel_left whole ▸ inOrder⟩, rfl⟩
  · refine realized.imp ?_
    rintro id code ⟨named, block, found, isCode⟩
    obtain ⟨syllable, control, only, isControl, isTerminator⟩ := isCode.last
    exact ⟨⟨named, block, found, isCode.label⟩, block, syllable, control, found, only, isControl,
      isTerminator⟩
  · intro code codeMem bundle bundleMem
    obtain ⟨index, found⟩ := List.getElem?_of_mem codeMem
    obtain ⟨id, isId, -⟩ := Codegen.exists_id realized found
    obtain ⟨bound, -⟩ := getElem?_blockIds_singleton.mp isId
    have isBlock := List.getElem?_eq_getElem bound
    exact control_of_straight (straight_of_body (body isBlock found)
      (plain.straight (List.getElem_mem bound)) bundle bundleMem)

theorem exists_scalarFunctions {functions : List Function} {program program' : Program}
    (plain : ∀ function ∈ functions, PlainCode function)
    (emitted : functions.foldlM emitFunction program = .ok program') :
    ∃ parts : List (List BlockCode),
      program' = { program with items := program.items ++ blockItems parts.flatten } ∧
        List.Forall₂ (ScalarFunction program.processor.width) functions parts := by
  induction functions generalizing program with
  | nil =>
      cases emitted
      exact ⟨[], by simp [blockItems], .nil⟩
  | cons function functions ih =>
      obtain ⟨plainFirst, plainOthers⟩ := List.forall_mem_cons.mp plain
      rw [List.foldlM_cons] at emitted
      obtain ⟨program₁, first, others⟩ := bind_eq_ok.mp emitted
      obtain ⟨codes, scalar, rfl⟩ := exists_scalarFunction plainFirst first
      obtain ⟨parts, rfl, related⟩ := ih plainOthers others
      refine ⟨codes :: parts, ?_, .cons scalar related⟩
      simp [blockItems]

theorem flatten_blockItems (parts : List (List BlockCode)) :
    blockItems parts.flatten = (parts.map blockItems).flatten := by
  induction parts with
  | nil => rfl
  | cons codes parts ih =>
      rw [List.flatten_cons, List.map_cons, List.flatten_cons, ← ih]
      unfold blockItems
      rw [List.flatMap_append]

theorem ScalarFunction.items {width : Nat} {function : Function} {codes : List BlockCode}
    (scalar : ScalarFunction width function codes) : FunctionItems function (blockItems codes) := by
  refine ⟨codes, rfl, scalar.isCode, List.forall₂_iff_get.mpr ⟨?_, ?_⟩⟩
  · have sameLength := scalar.isCode.emitted.length_eq
    rwa [blockIds_singleton, List.length_map, List.length_range] at sameLength
  · intro index inBlocks inCodes
    have body := scalar.body (List.getElem?_eq_getElem inBlocks) (List.getElem?_eq_getElem inCodes)
    exact ⟨_, syllables_of_body body, .refl _⟩

/-! ### Packed programs in layout order -/

theorem mem_gprReads_of_mem_operandKeys {skipGprDest skipPredDest : Bool} {operands : List Operand}
    {n : UInt8} (keyMem : ⟨.gpr, .preg n⟩ ∈ operandKeys skipGprDest skipPredDest operands) :
    n ∈ gprReads skipGprDest operands := by
  induction operands generalizing skipGprDest skipPredDest with
  | nil => cases keyMem
  | cons operand operands ih =>
      cases operand with
      | reg m =>
          cases skipGprDest with
          | true => exact ih keyMem
          | false =>
              rcases List.mem_cons.mp keyMem with same | later
              · cases same
                exact List.mem_cons_self
              · exact List.mem_cons_of_mem _ (ih later)
      | pred m =>
          cases skipPredDest with
          | true => exact ih keyMem
          | false =>
              rcases List.mem_cons.mp keyMem with same | later
              · cases same
              · exact ih later
      | memAddr base displacement =>
          rcases List.mem_cons.mp keyMem with same | later
          · cases same
            exact List.mem_cons_self
          · exact List.mem_cons_of_mem _ (ih later)
      | imm value => exact ih keyMem
      | label name => exact ih keyMem

theorem asmDest_of_gprWriteOf {asm : Asm.Syllable} {n : UInt8} (written : gprWriteOf asm = some n)
    (proper : n ≠ zeroReg) : asmDest asm = some ⟨.gpr, .preg n⟩ := by
  obtain ⟨opcode, known, isWrite⟩ := Option.bind_eq_some_iff.mp written
  unfold asmDest
  rw [known, Option.bind_some]
  split at isWrite
  · cases isWrite
  · unfold Asm.gprWrite at isWrite
    split at isWrite
    · rename_i other rest isGpr isOperands
      cases isWrite
      rw [isOperands]
      unfold Codegen.operandDest
      rw [isGpr]
      exact if_pos proper
    · cases isWrite

/-- The bundles of a packed program are spaced. -/
theorem spaced_of_kept {processor : Processor} {bundles : List Bundle}
    (kept : Kept processor bundles)
    (proper : ∀ bundle ∈ bundles, ∀ asm ∈ bundle.syllables,
      Opcode.fromMnemonic asm.opcode ≠ some .nop) : Spaced bundles := by
  intro written position writer reader key less issued writes readerIssued reads last
  obtain ⟨earlier, isEarlier, writerMem⟩ := issued
  obtain ⟨bundle, found, readerMem⟩ := readerIssued
  obtain ⟨inside, -⟩ := List.getElem?_eq_some_iff.mp found
  obtain ⟨opcode, known, isLatency, ⟨n, rfl, isProper, isWrite⟩ | ⟨n, rfl, isPred⟩⟩ :=
    asmDest_eq_some writes
  · have isRead : n ∈ gprReadsOf reader := by
      have notNop := proper bundle (List.mem_of_getElem? found) reader readerMem
      unfold asmKeys at reads
      unfold gprReadsOf
      cases isOpcode : Opcode.fromMnemonic reader.opcode with
      | none =>
          rw [isOpcode] at reads
          cases reads
      | some readerOpcode =>
          rw [isOpcode] at reads notNop
          simp only
          rw [if_neg fun same => notNop (congrArg some same)]
          exact mem_gprReads_of_mem_operandKeys reads
    have isReady := kept.timely position bundle found reader readerMem n isRead
    rw [lookup_readyAfter kept.sound less (Nat.le_of_lt inside) isEarlier writerMem known isProper
      isWrite fun between middle other after before isMiddle otherMem written' =>
        last between other after before ⟨middle, isMiddle, otherMem⟩
          (asmDest_of_gprWriteOf written' isProper)] at isReady
    rw [← isLatency]
    exact isReady
  · rw [asmLatency_of_pred writes]
    exact less

theorem Spaced.part {before part after : List Bundle} (spaced : Spaced (before ++ (part ++ after))) :
    Spaced part := by
  have shift : ∀ {position : Nat} {asm : Asm.Syllable}, Issued part position asm →
      Issued (before ++ (part ++ after)) (before.length + position) asm := by
    intro position asm issued
    refine issued_append.mpr (.inr ⟨Nat.le_add_right _ _, ?_⟩)
    rw [Nat.add_sub_cancel_left]
    exact issued_append.mpr (.inl issued)
  intro written position writer reader key less issued writes readerIssued reads last
  have bound := (List.getElem?_eq_some_iff.mp readerIssued.choose_spec.1).1
  have late := spaced (before.length + written) (before.length + position) writer reader key
    (by omega) (shift issued) writes (shift readerIssued) reads
    fun between other isAfter isBefore otherIssued => by
      rcases issued_append.mp otherIssued with inBefore | ⟨_, inRest⟩
      · have short := (List.getElem?_eq_some_iff.mp inBefore.choose_spec.1).1
        omega
      · rcases issued_append.mp inRest with inPart | ⟨beyond, -⟩
        · exact last (between - before.length) other (by omega) (by omega) inPart
        · omega
  omega

/-! ### Packed functions -/

/-- The scalar code of a block and its packed form. -/
structure PackedCode (processor : Processor) (code packed : BlockCode) : Prop where
  name : packed.name = code.name
  label : packed.label = code.label
  last : packed.last = code.last
  segment : ∃ startCycle ready,
    packBundleSegment processor code.body startCycle ready = some packed.body

/-- The scalar code of a function and its packed form. -/
structure PackedFunction (processor : Processor) (function : Function)
    (codes packed : List BlockCode) : Prop where
  scalar : ScalarFunction processor.width function codes
  slotted : ∀ code ∈ codes, ∀ bundle ∈ code.body, Slotted processor bundle
  blocks : List.Forall₂ (PackedCode processor) codes packed

theorem perm_of_grouped {width : Nat} {segment out : List Bundle}
    (grouped : Grouped width segment out) :
    (out.flatMap Bundle.syllables).Perm (segment.flatMap Bundle.syllables) := by
  obtain ⟨groups, flat, related⟩ := grouped.groups
  rw [← flat]
  clear flat grouped
  induction related with
  | nil => exact .refl _
  | cons perm _ ih =>
      rw [List.flatMap_cons, List.flatten_cons]
      exact perm.symm.append ih

namespace PackedFunction

variable {processor : Processor} {function : Function} {codes packed : List BlockCode}
  (isPacked : PackedFunction processor function codes packed) (plain : PlainCode function)
include isPacked plain

/-- A packed block, its scalar code and what was packed. -/
theorem exists_block {index : Nat} {packedCode : BlockCode}
    (found : packed[index]? = some packedCode) :
    ∃ block code, function.blocks[index]? = some block ∧ codes[index]? = some code ∧
      PackedCode processor code packedCode ∧ Straight code.body ∧
      Segmented processor block.syllables code.body packedCode.body ∧
      Grouped processor.width code.body packedCode.body := by
  obtain ⟨code, isFound, isCode⟩ := getElem?_of_forall₂ isPacked.blocks found
  obtain ⟨block, isBlock, -⟩ := isPacked.scalar.isCode.exists_block isFound
  have blockMem := List.mem_of_getElem? isBlock
  have body := isPacked.scalar.body isBlock isFound
  have straight := straight_of_body body (plain.straight blockMem)
  have slotted := isPacked.slotted code (List.mem_of_getElem? isFound)
  obtain ⟨startCycle, ready, done⟩ := isCode.segment
  refine ⟨block, code, isBlock, isFound, isCode, straight, ?_, ?_⟩
  · exact segmented_of_packed body (plain block blockMem) slotted straight done
  · refine grouped_of_segment ?_ done
    intro bundle bundleMem
    exact ⟨single_of_placed (Codegen.placed_of_slotted (slotted bundle bundleMem)),
      straight bundle bundleMem⟩

theorem isCode : FunctionCode function packed := by
  constructor
  · refine List.forall₂_iff_get.mpr ⟨?_, ?_⟩
    · rw [isPacked.scalar.isCode.emitted.length_eq, isPacked.blocks.length_eq]
    · intro index inIds inPacked
      have inCodes : index < codes.length := by
        rw [isPacked.blocks.length_eq]
        exact inPacked
      have emitted := isPacked.scalar.isCode.emitted.get inIds inCodes
      have block := isPacked.blocks.get inCodes inPacked
      obtain ⟨labelled, other, syllable, control, isOther, only, isControl, isTerminator⟩ := emitted
      refine ⟨⟨?_, ?_⟩, other, syllable, control, isOther, ?_, isControl, isTerminator⟩
      · rw [block.name, labelled.name]
      · obtain ⟨labelledBlock, isLabelled, sameLabel⟩ := labelled.block
        exact ⟨labelledBlock, isLabelled, by rw [block.label, sameLabel]⟩
      · rw [block.last]
        exact only
  · intro code codeMem bundle bundleMem
    obtain ⟨index, found⟩ := List.getElem?_of_mem codeMem
    obtain ⟨_, _, -, -, -, -, -, grouped⟩ := isPacked.exists_block plain found
    exact control_of_straight (grouped.straight bundle bundleMem)

/-- What a packed body issues is a lowered syllable. -/
theorem exists_lowered {index : Nat} {packedCode : BlockCode}
    (found : packed[index]? = some packedCode) {bundle : Bundle}
    (bundleMem : bundle ∈ packedCode.body) {asm : Asm.Syllable} (asmMem : asm ∈ bundle.syllables) :
    ∃ syllable, PlainSyllable syllable ∧ lowerSyllable syllable = .ok asm := by
  obtain ⟨block, code, isBlock, isFound, -, -, -, grouped⟩ := isPacked.exists_block plain found
  have isSyllable : asm ∈ code.body.flatMap Bundle.syllables :=
    (perm_of_grouped grouped).mem_iff.mp (List.mem_flatMap.mpr ⟨bundle, bundleMem, asmMem⟩)
  obtain ⟨syllable, syllableMem, lowered⟩ := exists_mem_of_forall₂
    (syllables_of_body (isPacked.scalar.body isBlock isFound)) isSyllable
  exact ⟨syllable, plain block (List.mem_of_getElem? isBlock) syllable syllableMem, lowered⟩

/-- Packed code has no `nop`. -/
theorem proper : ∀ bundle ∈ programBundles (blockItems packed), ∀ asm ∈ bundle.syllables,
    Opcode.fromMnemonic asm.opcode ≠ some .nop := by
  intro bundle bundleMem asm asmMem
  obtain ⟨position, isBundle⟩ := List.getElem?_of_mem bundleMem
  have issued : Issued (programBundles (blockItems packed)) position asm :=
    ⟨bundle, isBundle, asmMem⟩
  obtain ⟨index, code, offset, found, inside, -, rfl⟩ := Asm.exists_block_of_bundle isBundle
  by_cases body : offset < code.body.length
  · obtain ⟨other, isOther, inOther⟩ := (issued_body found body).mp issued
    obtain ⟨syllable, plainSyllable, lowered⟩ :=
      isPacked.exists_lowered plain found (List.mem_of_getElem? isOther) inOther
    rw [(plainSyllable.names lowered).mnemonic]
    exact fun same => plainSyllable.proper (Option.some.inj same)
  · obtain rfl : offset = code.body.length := by omega
    have transfers :=
      (isPacked.isCode plain).control_of_last found ((issued_last found).mp issued)
    have one := (control_effects transfers).2.1
    intro isNop
    unfold asmLatency at one
    rw [isNop] at one
    cases one

theorem regular (spaced : Spaced (programBundles (blockItems packed))) :
    Regular (programBundles (blockItems packed)) := by
  have isCode := isPacked.isCode plain
  refine ⟨spaced, ?_, ?_⟩
  · intro position asm other issued isControl otherIssued
    obtain ⟨index, code, found, only, rfl⟩ := isCode.last_of_control issued isControl
    rw [issued_last found, only, List.mem_singleton] at otherIssued
    exact otherIssued
  · intro position asm issued
    obtain ⟨index, code, offset, found, inside, -, rfl⟩ :=
      Asm.exists_block_of_bundle issued.choose_spec.1
    by_cases body : offset < code.body.length
    · obtain ⟨bundle, isBundle, asmMem⟩ := (issued_body found body).mp issued
      obtain ⟨syllable, plainSyllable, lowered⟩ :=
        isPacked.exists_lowered plain found (List.mem_of_getElem? isBundle) asmMem
      rw [asmLatency_of_names (plainSyllable.names lowered)]
      exact plainSyllable.quick
    · obtain rfl : offset = code.body.length := by omega
      have transfers := isCode.control_of_last found ((issued_last found).mp issued)
      rw [(control_effects transfers).2.1]
      omega

theorem items : FunctionItems function (blockItems packed) := by
  refine ⟨packed, rfl, isPacked.isCode plain, List.forall₂_iff_get.mpr ⟨?_, ?_⟩⟩
  · have sameLength := (isPacked.isCode plain).emitted.length_eq
    rwa [blockIds_singleton, List.length_map, List.length_range] at sameLength
  · intro index inBlocks inCodes
    obtain ⟨block, code, isBlock, isFound, -, -, -, grouped⟩ :=
      isPacked.exists_block plain (List.getElem?_eq_getElem inCodes)
    rw [List.getElem?_eq_getElem inBlocks, Option.some.injEq] at isBlock
    have body := isPacked.scalar.body (List.getElem?_eq_getElem inBlocks) isFound
    exact ⟨_, syllables_of_body body, perm_of_grouped grouped⟩

/-- Packed code is free of stalls when its transfers are settled. -/
theorem stallFree (spaced : Spaced (programBundles (blockItems packed)))
    (settled : Settled (BeginsPacked processor) function) : StallFree (blockItems packed) := by
  have isCode := isPacked.isCode plain
  have regular := isPacked.regular plain spaced
  rw [stallFree_iff_not_tooEarly regular]
  rintro ⟨written, target, writer, reader, key, isTaken, issued, slow, writes, readerIssued, reads⟩
  obtain ⟨index, block, code, label, goal, isBlock, found, isLabel, named, isWritten, rfl⟩ :=
    isCode.taken_iff.mp isTaken
  have straight := straight_of_slow regular issued slow issued
  obtain ⟨last, isLast, writerMem⟩ := isCode.issued_before_last found isWritten issued straight
  obtain ⟨other, scalarCode, isOther, isScalar, -, -, segmented, -⟩ :=
    isPacked.exists_block plain found
  rw [isBlock, Option.some.injEq] at isOther
  subst isOther
  obtain ⟨original, isOriginal, inOriginal⟩ :=
    segmented.last isLast writerMem slow (by rw [writes]; rfl)
  have pending :=
    isPacked.scalar.pending_of_last plain isBlock isScalar isOriginal inOriginal slow writes
  obtain ⟨lastSyllable, -, -, isDest⟩ := pendingKey_eq_some.mp pending
  obtain ⟨goalCode, goalFound⟩ := isCode.exists_target named
  obtain ⟨bundle, isFirst, readerMem⟩ := isCode.issued_first goalFound readerIssued
    (not_control_of_slow slow writes reads)
  obtain ⟨goalBlock, goalScalar, isGoal, isGoalScalar, -, -, goalSegmented, -⟩ :=
    isPacked.exists_block plain goalFound
  obtain ⟨rest, isBody⟩ := List.head?_eq_some_iff.mp isFirst
  obtain ⟨⟨first, isHead, full⟩, front, asms, leads, isFront, lowered, perm, -⟩ :=
    goalSegmented.first isBody (List.ne_nil_of_mem readerMem)
  obtain ⟨syllable, syllableMem, isLowered⟩ :=
    exists_mem_of_forall₂ lowered (perm.mem_iff.mpr readerMem)
  have plainSyllable := plain goalBlock (List.mem_of_getElem? isGoal) syllable
    (isFront.subset syllableMem)
  obtain ⟨before, rfl, padded⟩ := settled block (List.mem_of_getElem? isBlock) label goal goalBlock
    key syllable isLabel named isGoal pending ⟨front, bundle, leads, isFront, syllableMem⟩
    ((mem_asmKeys_iff plainSyllable isLowered isDest).mp reads)
  exact full (isPacked.scalar.empty_of_padded plain padded isGoalScalar isHead)

end PackedFunction

/-! ### Emitted programs -/

theorem exists_packedParts {processor : Processor} {parts : List (List BlockCode)}
    {packedCodes : List BlockCode}
    (related : List.Forall₂ (PackedCode processor) parts.flatten packedCodes) :
    ∃ packedParts : List (List BlockCode), packedCodes = packedParts.flatten ∧
      List.Forall₂ (List.Forall₂ (PackedCode processor)) parts packedParts := by
  induction parts generalizing packedCodes with
  | nil =>
      cases related
      exact ⟨[], rfl, .nil⟩
  | cons codes parts ih =>
      rw [List.flatten_cons] at related
      obtain ⟨left, right, rfl, first, others⟩ := exists_append_of_forall₂ related.flip
      obtain ⟨packedParts, rfl, isRest⟩ := ih others.flip
      exact ⟨left :: packedParts, rfl, .cons first.flip isRest⟩

theorem PlainCode.scheduled {functions scheduled : List Function}
    (plain : ∀ function ∈ functions, PlainCode function)
    (related : List.Forall₂ ScheduledFunction functions scheduled) :
    ∀ function ∈ scheduled, PlainCode function := by
  intro function functionMem block blockMem syllable syllableMem
  obtain ⟨original, originalMem, isScheduled⟩ := exists_mem_of_forall₂ related functionMem
  obtain ⟨originalBlock, originalBlockMem, blockScheduled⟩ :=
    exists_mem_of_forall₂ isScheduled.blocks blockMem
  obtain ⟨order, valid, same⟩ := blockScheduled.syllables
  rw [same] at syllableMem
  exact plain original originalMem originalBlock originalBlockMem syllable
    ((Schedule.perm_of_validOrder valid).mem_iff.mp syllableMem)

/-- The functions of a packed program. -/
theorem exists_packedFunctions {functions : List Function} {processor : Processor}
    {program packed : Program} (plain : ∀ function ∈ functions, PlainCode function)
    (emitted : scalarProgram functions processor = .ok program)
    (done : packScalarProgram program = some packed) :
    ∃ packedParts : List (List BlockCode), packed.items = blockItems packedParts.flatten ∧
      List.Forall₂ (fun function part => ∃ codes, PackedFunction processor function codes part)
        functions packedParts := by
  obtain ⟨slotted, -⟩ := Codegen.allSlotted_of_scalarProgram emitted
  obtain ⟨parts, rfl, scalar⟩ := exists_scalarFunctions plain emitted
  have inParts : ∀ {codes : List BlockCode}, codes ∈ parts →
      ∃ function ∈ functions, ScalarFunction processor.width function codes :=
    fun codesMem => exists_mem_of_forall₂ scalar codesMem
  have ended : ∀ code ∈ parts.flatten, bundleIsTerminator code.last = true := by
    intro code codeMem
    obtain ⟨codes, codesMem, inCodes⟩ := List.mem_flatten.mp codeMem
    obtain ⟨function, -, isScalar⟩ := inParts codesMem
    obtain ⟨index, found⟩ := List.getElem?_of_mem inCodes
    obtain ⟨asm, only, isControl⟩ := isScalar.isCode.exists_last found
    obtain ⟨control, isControl⟩ := Option.isSome_iff_exists.mp isControl
    exact bundleIsTerminator_of_control only isControl
  have straight : ∀ codes ∈ parts, ∀ code ∈ codes, Straight code.body := by
    intro codes codesMem code codeMem bundle bundleMem
    obtain ⟨function, functionMem, isScalar⟩ := inParts codesMem
    obtain ⟨index, found⟩ := List.getElem?_of_mem codeMem
    obtain ⟨block, isBlock, -⟩ := isScalar.isCode.exists_block found
    exact straight_of_body (isScalar.body isBlock found)
      ((plain function functionMem).straight (List.mem_of_getElem? isBlock)) bundle bundleMem
  obtain ⟨packedCodes, rfl, related⟩ := packScalarProgram_items ended done
  have relatedCodes : List.Forall₂ (PackedCode processor) parts.flatten packedCodes := by
    refine ((List.forall₂_and_left _ _).mpr ⟨?_, related⟩).imp
      fun code packedCode => fun (both : Straight code.body ∧ _) =>
        ⟨both.2.name, both.2.label, both.2.last, both.2.segment both.1⟩
    intro code codeMem
    obtain ⟨codes, codesMem, inCodes⟩ := List.mem_flatten.mp codeMem
    exact straight codes codesMem code inCodes
  have inSlots : ∀ codes ∈ parts, ∀ code ∈ codes, ∀ bundle ∈ code.body,
      Slotted processor bundle := by
    intro codes codesMem code codeMem bundle bundleMem
    refine slotted bundle (List.mem_flatMap.mpr ⟨code, List.mem_flatten.mpr ⟨codes, codesMem,
      codeMem⟩, ?_⟩)
    simp [BlockCode.items, bundleMem]
  obtain ⟨packedParts, rfl, isParts⟩ := exists_packedParts relatedCodes
  refine ⟨packedParts, rfl, forall₂_comp scalar
    ((List.forall₂_and_left _ _).mpr ⟨inSlots, isParts⟩) ?_⟩
  rintro function codes part isScalar ⟨isSlotted, isPacked⟩
  exact ⟨codes, isScalar, isSlotted, isPacked⟩

/-- The packed code of a function, and when it is free of stalls. -/
structure PackedPart (processor : Processor) (function : Function) (part : List Item) :
    Prop where
  items : FunctionItems function part
  stalls : Settled (BeginsPacked processor) function → StallFree part

theorem packedParts {functions : List Function} {processor : Processor} {program packed : Program}
    (plain : ∀ function ∈ functions, PlainCode function)
    (emitted : scalarProgram functions processor = .ok program)
    (done : packScalarProgram program = some packed) :
    ∃ parts, packed.items = parts.flatten ∧
      List.Forall₂ (PackedPart processor) functions parts := by
  obtain ⟨placed, -⟩ := Codegen.allPlaced_of_scalarProgram emitted
  have atEnd : ControlAtEnd functions := fun function functionMem block blockMem =>
    (plain function functionMem).straight blockMem
  have kept := kept_of_packed placed
    (fun bundle bundleMem => transfer_reads emitted atEnd bundleMem) done
  obtain ⟨parts, isItems, related⟩ := exists_packedFunctions plain emitted done
  have proper : ∀ bundle ∈ programBundles packed.items, ∀ asm ∈ bundle.syllables,
      Opcode.fromMnemonic asm.opcode ≠ some .nop := by
    intro bundle bundleMem
    rw [isItems, Asm.mem_programBundles] at bundleMem
    obtain ⟨code, codeMem, inCode⟩ := List.mem_flatMap.mp bundleMem
    obtain ⟨codes, codesMem, inCodes⟩ := List.mem_flatten.mp codeMem
    obtain ⟨function, functionMem, scalarCodes, isPacked⟩ := exists_mem_of_forall₂ related codesMem
    refine isPacked.proper (plain function functionMem) bundle (Asm.mem_programBundles.mpr ?_)
    exact List.mem_flatMap.mpr ⟨code, inCodes, inCode⟩
  have spaced : ∀ codes ∈ parts, Spaced (programBundles (blockItems codes)) := by
    intro codes codesMem
    obtain ⟨front, back, rfl⟩ := List.append_of_mem codesMem
    have whole := spaced_of_kept kept proper
    rw [isItems, List.flatten_append, List.flatten_cons] at whole
    unfold blockItems at whole
    rw [List.flatMap_append, List.flatMap_append, Asm.programBundles_append,
      Asm.programBundles_append] at whole
    exact whole.part
  refine ⟨parts.map blockItems, by rw [isItems, flatten_blockItems],
    List.forall₂_map_right_iff.mpr ?_⟩
  have all := (List.forall₂_and_left _ _).mpr ⟨spaced, related.flip⟩
  refine ((List.forall₂_and_left _ _).mpr ⟨plain, all.flip⟩).imp ?_
  rintro function codes ⟨plainFunction, isSpaced, scalarCodes, isPacked⟩
  exact ⟨isPacked.items plainFunction, isPacked.stallFree plainFunction isSpaced⟩

end VliwCompiler.Pack
