import VliwCompiler.Codegen.Scalar

/-!
# Slots of scalar code

Scalar emission puts every syllable alone into a bundle, in a slot with a unit
for its opcode.
-/

namespace VliwCompiler.Codegen

open Asm (Opcode Item Program Processor)

/-- A bundle of a scalar program: it is empty, or its only syllable is in a slot
that can execute it. -/
inductive Placed (processor : Processor) : Asm.Bundle → Prop where
  | wait : Placed processor ⟨[]⟩
  | issue {opcode : Opcode} {asm : Asm.Syllable} {slot : Nat} (inside : slot < processor.width)
      (known : Opcode.fromMnemonic asm.opcode = some opcode)
      (supported : slotSupportsOpcode slot opcode processor = true) :
      Placed processor ⟨(List.replicate processor.width none).set slot (some asm)⟩

/-- A bundle of a scalar program with the slot that was chosen for its syllable. -/
inductive Slotted (processor : Processor) : Asm.Bundle → Prop where
  | wait : Slotted processor ⟨[]⟩
  | syllable {syllable : Mir.Syllable} {asm : Asm.Syllable} {slot : Nat}
      (lowered : lowerSyllable syllable = .ok asm)
      (isSlot : scalarSlot syllable.opcode processor = .ok slot) (inside : slot < processor.width)
      (supported : slotSupportsOpcode slot syllable.opcode processor = true) :
      Slotted processor ⟨(List.replicate processor.width none).set slot (some asm)⟩
  | transfer {opcode : Opcode} {asm : Asm.Syllable} {slot : Nat} (isControl : asm.control.isSome)
      (known : Opcode.fromMnemonic asm.opcode = some opcode) (inside : slot < processor.width)
      (supported : slotSupportsOpcode slot opcode processor = true) :
      Slotted processor ⟨(List.replicate processor.width none).set slot (some asm)⟩

/-- Every bundle of the program is placed by scalar emission. -/
def AllPlaced (program : Program) : Prop :=
  ∀ bundle, Item.bundle bundle ∈ program.items → Placed program.processor bundle

/-- Every bundle of the program is placed in the slot chosen by scalar emission. -/
def AllSlotted (program : Program) : Prop :=
  ∀ bundle, Item.bundle bundle ∈ program.items → Slotted program.processor bundle

/-! ### Emission -/

theorem mnemonic_of_lowerSyllable {syllable : Mir.Syllable} {asm : Asm.Syllable}
    (lowered : lowerSyllable syllable = .ok asm) : asm.opcode = syllable.opcode.mnemonic := by
  rw [lowerSyllable_eq] at lowered
  split at lowered
  · obtain ⟨operands, -, same⟩ := bind_eq_ok.mp lowered
    cases same
    rfl
  · obtain ⟨reg, -, rest⟩ := bind_eq_ok.mp lowered
    obtain ⟨dst, -, rest⟩ := bind_eq_ok.mp rest
    obtain ⟨addr, -, same⟩ := bind_eq_ok.mp rest
    cases same
    rfl
  · obtain ⟨reg, -, rest⟩ := bind_eq_ok.mp lowered
    obtain ⟨dst, -, rest⟩ := bind_eq_ok.mp rest
    obtain ⟨srcs, -, same⟩ := bind_eq_ok.mp rest
    cases same
    rfl
  · obtain ⟨dst, -, rest⟩ := bind_eq_ok.mp lowered
    obtain ⟨srcs, -, same⟩ := bind_eq_ok.mp rest
    cases same
    rfl

theorem placed_of_slotted {processor : Processor} {bundle : Asm.Bundle}
    (slotted : Slotted processor bundle) : Placed processor bundle := by
  cases slotted with
  | wait => exact .wait
  | syllable lowered isSlot inside supported =>
      refine .issue inside ?_ supported
      rw [mnemonic_of_lowerSyllable lowered, Opcode.fromMnemonic_mnemonic]
  | transfer isControl known inside supported => exact .issue inside known supported

section Emission

variable {ctx ctx' : CodegenCtx} {program program' : Program}

theorem AllSlotted.emitAsmSyllableInSlot {opcode : Opcode} {asm : Asm.Syllable} {slot : Nat}
    (slotted : AllSlotted program)
    (issue : slot < program.processor.width →
      slotSupportsOpcode slot opcode program.processor = true →
      Slotted program.processor
        ⟨(List.replicate program.processor.width none).set slot (some asm)⟩)
    (emitted : ctx.emitAsmSyllableInSlot program opcode asm slot = .ok (ctx', program')) :
    AllSlotted program' ∧ program'.processor = program.processor := by
  unfold CodegenCtx.emitAsmSyllableInSlot at emitted
  split at emitted
  · rename_i supported
    obtain ⟨bundle, built, same⟩ := bind_eq_ok.mp emitted
    cases same
    refine ⟨?_, rfl⟩
    intro other otherMem
    simp only [List.mem_append, List.mem_replicate, List.mem_singleton,
      Item.bundle.injEq] at otherMem
    rcases otherMem with (before | ⟨-, rfl⟩) | rfl
    · exact slotted other before
    · exact .wait
    · unfold bundleWith at built
      split at built
      · rename_i inside
        cases built
        exact issue inside supported
      · cases built
  · cases emitted

theorem AllSlotted.emitSyllable {syllable : Mir.Syllable} (slotted : AllSlotted program)
    (emitted : ctx.emitSyllable program syllable = .ok (ctx', program')) :
    AllSlotted program' ∧ program'.processor = program.processor := by
  obtain ⟨asm, lowered, rest⟩ := bind_eq_ok.mp emitted
  obtain ⟨slot, isSlot, inSlot⟩ := bind_eq_ok.mp rest
  exact slotted.emitAsmSyllableInSlot (.syllable lowered isSlot) inSlot

theorem AllSlotted.emitSyllables {syllables : List Mir.Syllable} (slotted : AllSlotted program)
    (emitted : syllables.foldlM (fun (current : CodegenCtx × Program) syllable =>
      current.1.emitSyllable current.2 syllable) (ctx, program) = .ok (ctx', program')) :
    AllSlotted program' ∧ program'.processor = program.processor := by
  refine invariant_of_foldlM_ok
    (motive := fun current : CodegenCtx × Program =>
      AllSlotted current.2 ∧ current.2.processor = program.processor) ?_ ⟨slotted, rfl⟩ emitted
  rintro ⟨ctx₁, program₁⟩ syllable ⟨ctx₂, program₂⟩ ⟨slottedBefore, sameBefore⟩ first
  obtain ⟨slottedAfter, sameAfter⟩ := slottedBefore.emitSyllable first
  exact ⟨slottedAfter, sameAfter.trans sameBefore⟩

theorem AllSlotted.emitTerminator {terminator : Mir.Terminator} (slotted : AllSlotted program)
    (emitted : ctx.emitTerminator program terminator = .ok (ctx', program')) :
    AllSlotted program' ∧ program'.processor = program.processor := by
  cases terminator with
  | ret =>
      obtain ⟨slot, -, inSlot⟩ := bind_eq_ok.mp emitted
      exact slotted.emitAsmSyllableInSlot (.transfer rfl rfl) inSlot
  | jump label =>
      obtain ⟨slot, -, inSlot⟩ := bind_eq_ok.mp emitted
      exact slotted.emitAsmSyllableInSlot (.transfer rfl rfl) inSlot
  | branch cond label =>
      obtain ⟨pred, -, rest⟩ := bind_eq_ok.mp emitted
      obtain ⟨slot, -, inSlot⟩ := bind_eq_ok.mp rest
      exact slotted.emitAsmSyllableInSlot (.transfer rfl rfl) inSlot
  | directCall target cont =>
      obtain ⟨slot, -, inSlot⟩ := bind_eq_ok.mp emitted
      exact slotted.emitAsmSyllableInSlot (.transfer rfl rfl) inSlot

theorem AllSlotted.labels {name label : String} {index : Nat} (slotted : AllSlotted program) :
    AllSlotted { program with items := program.items ++
      ((if index = 0 then [Item.label name] else []) ++ [.label label]) } := by
  intro bundle bundleMem
  rcases List.mem_append.mp bundleMem with before | isLabel
  · exact slotted bundle before
  · split at isLabel <;> simp at isLabel

theorem AllSlotted.emitBlock {name : String} {entry : Mir.Block × Nat}
    (slotted : AllSlotted program)
    (emitted : emitBlock name (ctx, program) entry = .ok (ctx', program')) :
    AllSlotted program' ∧ program'.processor = program.processor := by
  obtain ⟨⟨ctx₁, program₁⟩, first, last⟩ := bind_eq_ok.mp emitted
  obtain ⟨slottedBody, sameBody⟩ := slotted.labels.emitSyllables first
  obtain ⟨slottedLast, sameLast⟩ := slottedBody.emitTerminator last
  exact ⟨slottedLast, sameLast.trans sameBody⟩

theorem AllSlotted.emitFunction {function : Mir.Function} (slotted : AllSlotted program)
    (emitted : emitFunction program function = .ok program') :
    AllSlotted program' ∧ program'.processor = program.processor := by
  obtain ⟨⟨ctx, final⟩, blocks, same⟩ := bind_eq_ok.mp emitted
  cases same
  refine invariant_of_foldlM_ok
    (motive := fun current : CodegenCtx × Program =>
      AllSlotted current.2 ∧ current.2.processor = program.processor) ?_ ⟨slotted, rfl⟩ blocks
  rintro ⟨ctx₁, program₁⟩ entry ⟨ctx₂, program₂⟩ ⟨slottedBefore, sameBefore⟩ first
  obtain ⟨slottedAfter, sameAfter⟩ := slottedBefore.emitBlock first
  exact ⟨slottedAfter, sameAfter.trans sameBefore⟩

end Emission

/-- Scalar emission puts every syllable into the slot chosen for it. -/
theorem allSlotted_of_scalarProgram {functions : List Mir.Function} {processor : Processor}
    {program : Program} (emitted : scalarProgram functions processor = .ok program) :
    AllSlotted program ∧ program.processor = processor := by
  have start : AllSlotted ⟨processor, []⟩ := by
    intro bundle bundleMem
    cases bundleMem
  refine invariant_of_foldlM_ok
    (motive := fun current : Program => AllSlotted current ∧ current.processor = processor)
    ?_ ⟨start, rfl⟩ emitted
  rintro program₁ function program₂ ⟨slottedBefore, sameBefore⟩ first
  obtain ⟨slottedAfter, sameAfter⟩ := slottedBefore.emitFunction first
  exact ⟨slottedAfter, sameAfter.trans sameBefore⟩

/-- Scalar emission places every syllable. -/
theorem allPlaced_of_scalarProgram {functions : List Mir.Function} {processor : Processor}
    {program : Program} (emitted : scalarProgram functions processor = .ok program) :
    AllPlaced program ∧ program.processor = processor := by
  obtain ⟨slotted, same⟩ := allSlotted_of_scalarProgram emitted
  exact ⟨fun bundle bundleMem => placed_of_slotted (slotted bundle bundleMem), same⟩

end VliwCompiler.Codegen
