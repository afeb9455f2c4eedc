import VliwCompiler.Pack.Emission
import VliwCompiler.Asm.Parse

/-!
# Slots beyond the width

The parser relates neither the aliases nor the slot units of a layout to its
width.  Emission aborts when an alias chooses a slot beyond the width, and when
an absolute address and its displacement overflow.
-/

namespace VliwCompiler.Pack

open Asm (Opcode Processor Program Operand I64)
open Mir (Function Syllable Terminator Block Reg Value)
open Codegen

/-- The outcome is a value or a reported error. -/
def Returned {α : Type} (outcome : Outcome α) : Prop :=
  (∃ value, outcome = .ok value) ∨ ∃ error, outcome = .error (.error error)

/-- The address of a load or store is an absolute one that overflows when its
displacement is added. -/
def AddressOverflows (syllable : Syllable) : Prop :=
  ∃ (address offset : I64) (rest : List Value), address.saddOverflow offset = true ∧
    (syllable.srcs = .imm address :: .imm offset :: rest ∨
      syllable.srcs = .stack address :: .imm offset :: rest) ∧
    ((∃ width, syllable.opcode.behavior = .load width) ∧ rest = [] ∨
      (∃ width, syllable.opcode.behavior = .store width) ∧ ∃ data, rest = [data])

/-- The alias names a slot beyond the width that can execute the opcode. -/
def AliasBeyond (processor : Processor) (opcode : Opcode) (name : String) : Prop :=
  ∃ slot, slotByAlias processor name = some slot ∧ processor.width ≤ slot ∧
    slotSupportsOpcode slot opcode processor = true

/-- The request makes the emitter abort. -/
def Overruns (processor : Processor) : Request → Prop
  | .syllable syllable => AddressOverflows syllable ∨
      ∃ name, canonicalAlias syllable.opcode = some name ∧
        AliasBeyond processor syllable.opcode name
  | .terminator terminator => AliasBeyond processor (terminatorOpcode terminator) "X"

/-- No request aborts before another one is refused. -/
def NoneOverruns (processor : Processor) (items : List Request) : Prop :=
  ∀ front request back, items = front ++ request :: back →
    (∀ other ∈ front, other.outcome processor = .ok ()) → ¬Overruns processor request

/-- Operand shapes fit the opcode. -/
def IsShaped : Request → Prop
  | .syllable syllable => syllable.WellFormed
  | .terminator _ => True

/-! ### Lowering -/

theorem saddOverflow_zero (address : I64) : address.saddOverflow 0 = false := by
  have lower := BitVec.le_toInt address
  have upper := BitVec.toInt_lt (x := address)
  rw [BitVec.saddOverflow, Bool.or_eq_false_iff, decide_eq_false_iff_not, decide_eq_false_iff_not]
  have isZero : (0 : I64).toInt = 0 := rfl
  omega

/-- An address is lowered unless it overflows. -/
theorem addressOperand_cases (base : Value) (offset : I64) (physical : base.vreg? = none) :
    (∃ operand, addressOperand base offset = .ok operand ∧
      ∀ address, base = .imm address ∨ base = .stack address →
        address.saddOverflow offset = false) ∨
    ∃ message address, addressOperand base offset = .error (.panic message) ∧
      (base = .imm address ∨ base = .stack address) ∧ address.saddOverflow offset = true := by
  cases base with
  | reg reg =>
      cases reg with
      | vreg index => cases physical
      | preg n =>
          refine .inl ⟨.memAddr n offset, rfl, ?_⟩
          rintro address (same | same)
          · cases same
          · cases same
  | imm address =>
      cases overflows : address.saddOverflow offset with
      | true =>
          refine .inr ⟨"attempt to add with overflow", address, ?_, .inl rfl, overflows⟩
          rw [addressOperand, checkedAdd, overflows]
          rfl
      | false =>
          refine .inl ⟨.memAddr zeroReg (address + offset), ?_, ?_⟩
          · rw [addressOperand, checkedAdd, overflows]
            rfl
          · rintro other (same | same)
            · cases same
              exact overflows
            · cases same
  | stack address =>
      cases overflows : address.saddOverflow offset with
      | true =>
          refine .inr ⟨"attempt to add with overflow", address, ?_, .inr rfl, overflows⟩
          rw [addressOperand, checkedAdd, overflows]
          rfl
      | false =>
          refine .inl ⟨.memAddr zeroReg (address + offset), ?_, ?_⟩
          · rw [addressOperand, checkedAdd, overflows]
            rfl
          · rintro other (same | same)
            · cases same
            · cases same
              exact overflows

theorem exists_predOrGprOperand {value : Value} {predSrc : Bool}
    (isScalar : (value.source predSrc).isSome) (physical : value.vreg? = none) :
    ∃ operand, predOrGprOperand value predSrc = .ok operand := by
  cases value with
  | imm imm => exact ⟨_, rfl⟩
  | stack address => cases isScalar
  | reg reg =>
      cases reg with
      | vreg index => cases physical
      | preg n =>
          cases predSrc with
          | true => exact ⟨.pred n, rfl⟩
          | false => exact ⟨.reg n, rfl⟩

theorem exists_gprOrImmOperand {value : Value} (isScalar : (value.source false).isSome)
    (physical : value.vreg? = none) : ∃ operand, gprOrImmOperand value = .ok operand := by
  rw [gprOrImmOperand_eq]
  exact exists_predOrGprOperand isScalar physical

theorem physical_of_mem {syllable : Syllable} (allocated : syllable.sourceVregs = [])
    {value : Value} (valueMem : value ∈ syllable.srcs) : value.vreg? = none := by
  cases isVreg : value.vreg? with
  | none => rfl
  | some index =>
      have indexMem : index ∈ syllable.sourceVregs :=
        List.mem_filterMap.mpr ⟨value, valueMem, isVreg⟩
      rw [allocated] at indexMem
      cases indexMem

theorem exists_dst {syllable : Syllable} (allocated : syllable.dstVreg = none)
    (hasDst : syllable.dst.isSome) : ∃ n, syllable.dst = some (.preg n) := by
  obtain ⟨reg, isDst⟩ := Option.isSome_iff_exists.mp hasDst
  cases reg with
  | preg n => exact ⟨n, isDst⟩
  | vreg index =>
      rw [Mir.Syllable.dstVreg, isDst] at allocated
      cases allocated

/-- Lowering returns a syllable unless the address overflows. -/
def LowersOrOverflows (syllable : Syllable) : Prop :=
  (∃ asm, lowerSyllable syllable = .ok asm) ∧ ¬AddressOverflows syllable ∨
    (∃ message, lowerSyllable syllable = .error (.panic message)) ∧ AddressOverflows syllable

theorem lowers_of_load {syllable : Syllable} {width : Nat}
    (isLoad : syllable.opcode.behavior = .load width) (wellFormed : syllable.WellFormed)
    (allocated : syllable.dstVreg = none ∧ syllable.sourceVregs = []) :
    LowersOrOverflows syllable := by
  obtain ⟨hasAction, hasDst⟩ := wellFormed
  have writes := Opcode.writes_of_behavior syllable.opcode
  rw [isLoad] at writes
  obtain ⟨n, isDst⟩ := exists_dst allocated.1 (hasDst.mpr (.inl writes.1))
  have isLowered : lowerSyllable syllable = (do
      let addr ← loadAddress syllable.srcs
      return ⟨syllable.opcode.mnemonic, [.reg n, addr]⟩) := by
    rw [lowerSyllable_eq, isLoad, isDst]
    rfl
  have isShape : (Mir.loadAddress syllable.srcs).isSome := by
    simpa [Mir.Syllable.action, isLoad] using hasAction
  obtain ⟨address, isAddress⟩ := Option.isSome_iff_exists.mp isShape
  rcases Mir.loadAddress_shape isAddress with ⟨base, isSrcs, -⟩ | ⟨base, offset, isSrcs, -⟩
  · have physical : base.vreg? = none := physical_of_mem allocated.2 (by simp [isSrcs])
    rcases addressOperand_cases base 0 physical with
      ⟨operand, isAddr, -⟩ | ⟨message, address, -, -, overflows⟩
    · refine .inl ⟨⟨⟨syllable.opcode.mnemonic, [.reg n, operand]⟩, ?_⟩, ?_⟩
      · rw [isLowered, isSrcs, loadAddress, isAddr]
        rfl
      · rintro ⟨address, offset, rest, -, same | same, -⟩
        · rw [isSrcs] at same
          cases same
        · rw [isSrcs] at same
          cases same
    · rw [saddOverflow_zero] at overflows
      cases overflows
  · have physical : base.vreg? = none := physical_of_mem allocated.2 (by simp [isSrcs])
    rcases addressOperand_cases base offset physical with
      ⟨operand, isAddr, fits⟩ | ⟨message, address, isAddr, isBase, overflows⟩
    · refine .inl ⟨⟨⟨syllable.opcode.mnemonic, [.reg n, operand]⟩, ?_⟩, ?_⟩
      · rw [isLowered, isSrcs, loadAddress, isAddr]
        rfl
      · rintro ⟨address, offset', rest, overflows, same | same, -⟩
        · rw [isSrcs] at same
          cases same
          rw [fits address (.inl rfl)] at overflows
          cases overflows
        · rw [isSrcs] at same
          cases same
          rw [fits address (.inr rfl)] at overflows
          cases overflows
    · refine .inr ⟨⟨message, ?_⟩, address, offset, [], overflows, ?_, .inl ⟨⟨width, isLoad⟩, rfl⟩⟩
      · rw [isLowered, isSrcs, loadAddress, isAddr]
        rfl
      · rw [isSrcs]
        exact isBase.imp (fun same => by rw [same]) (fun same => by rw [same])

theorem lowers_of_store {syllable : Syllable} {width : Nat}
    (isStore : syllable.opcode.behavior = .store width) (wellFormed : syllable.WellFormed)
    (allocated : syllable.dstVreg = none ∧ syllable.sourceVregs = []) :
    LowersOrOverflows syllable := by
  have isLowered : lowerSyllable syllable = (do
      let operands ← storeOperands syllable.srcs
      return ⟨syllable.opcode.mnemonic, [operands.1, operands.2]⟩) := by
    rw [lowerSyllable_eq, isStore]
  have hasAction : ((Mir.storeOperands syllable.srcs).bind fun operands =>
      (operands.2.source false).map
        (@Machine.Action.store Opcode _ width operands.1.1 operands.1.2)).isSome := by
    simpa [Mir.Syllable.action, isStore] using wellFormed.1
  obtain ⟨action, isAction⟩ := Option.isSome_iff_exists.mp hasAction
  obtain ⟨operands, isShape, isData⟩ := Option.bind_eq_some_iff.mp isAction
  have isScalar : (operands.2.source false).isSome := by
    obtain ⟨source, isSource, -⟩ := Option.map_eq_some_iff.mp isData
    rw [isSource]
    rfl
  rcases Mir.storeOperands_shape isShape with
    ⟨base, data, isSrcs, rfl⟩ | ⟨base, offset, data, isSrcs, rfl⟩
  · have physical : base.vreg? = none := physical_of_mem allocated.2 (by simp [isSrcs])
    obtain ⟨operand, isOperand⟩ := exists_gprOrImmOperand isScalar
      (physical_of_mem allocated.2 (by simp [isSrcs]))
    rcases addressOperand_cases base 0 physical with
      ⟨address, isAddr, -⟩ | ⟨message, address, -, -, overflows⟩
    · refine .inl ⟨⟨⟨syllable.opcode.mnemonic, [address, operand]⟩, ?_⟩, ?_⟩
      · rw [isLowered, isSrcs, storeOperands]
        change ((addressOperand base 0 >>= _) >>= _ : Outcome _) = _
        rw [isAddr]
        change ((gprOrImmOperand data >>= _) >>= _ : Outcome _) = _
        rw [isOperand]
        rfl
      · rintro ⟨address, offset, rest, -, same, ⟨⟨_, isLoad⟩, -⟩ | ⟨-, other, rfl⟩⟩
        · rw [isStore] at isLoad
          cases isLoad
        · rw [isSrcs] at same
          rcases same with same | same
          · cases same
          · cases same
    · rw [saddOverflow_zero] at overflows
      cases overflows
  · have physical : base.vreg? = none := physical_of_mem allocated.2 (by simp [isSrcs])
    obtain ⟨operand, isOperand⟩ := exists_gprOrImmOperand isScalar
      (physical_of_mem allocated.2 (by simp [isSrcs]))
    rcases addressOperand_cases base offset physical with
      ⟨address, isAddr, fits⟩ | ⟨message, address, isAddr, isBase, overflows⟩
    · refine .inl ⟨⟨⟨syllable.opcode.mnemonic, [address, operand]⟩, ?_⟩, ?_⟩
      · rw [isLowered, isSrcs, storeOperands]
        change ((addressOperand base offset >>= _) >>= _ : Outcome _) = _
        rw [isAddr]
        change ((gprOrImmOperand data >>= _) >>= _ : Outcome _) = _
        rw [isOperand]
        rfl
      · rintro ⟨address, offset', rest, overflows, same | same, -⟩
        · rw [isSrcs] at same
          cases same
          rw [fits address (.inl rfl)] at overflows
          cases overflows
        · rw [isSrcs] at same
          cases same
          rw [fits address (.inr rfl)] at overflows
          cases overflows
    · refine .inr ⟨⟨message, ?_⟩, address, offset, [data], overflows, ?_,
        .inr ⟨⟨width, isStore⟩, data, rfl⟩⟩
      · rw [isLowered, isSrcs, storeOperands]
        change ((addressOperand base offset >>= _) >>= _ : Outcome _) = _
        rw [isAddr]
        rfl
      · rw [isSrcs]
        exact isBase.imp (fun same => by rw [same]) (fun same => by rw [same])

/-- A register operation has no address. -/
theorem not_addressOverflows {syllable : Syllable}
    (noLoad : ∀ width, syllable.opcode.behavior ≠ .load width)
    (noStore : ∀ width, syllable.opcode.behavior ≠ .store width) :
    ¬AddressOverflows syllable := by
  rintro ⟨address, offset, rest, -, -, ⟨⟨width, isLoad⟩, -⟩ | ⟨⟨width, isStore⟩, -⟩⟩
  · exact noLoad width isLoad
  · exact noStore width isStore

theorem exists_scalars {syllable : Syllable} {predSrc : Bool}
    (isScalars : (syllable.srcs.mapM (Value.source predSrc)).isSome)
    (allocated : syllable.sourceVregs = []) :
    ∃ operands, syllable.srcs.mapM (predOrGprOperand · predSrc) = .ok operands :=
  exists_mapM_ok fun value valueMem =>
    exists_predOrGprOperand (mapM_isSome_iff.mp isScalars value valueMem)
      (physical_of_mem allocated valueMem)

theorem exists_general {syllable : Syllable}
    (isScalars : (syllable.srcs.mapM (Value.source (Mir.predicateSources syllable.opcode))).isSome)
    (gprSources : Mir.predicateSources syllable.opcode = false)
    (allocated : syllable.dstVreg = none ∧ syllable.sourceVregs = []) :
    ∃ asm, (do
      let dst ← (syllable.dst.toList).mapM fun reg => (gprForReg reg).map Operand.reg
      let srcs ← syllable.srcs.mapM gprOrImmOperand
      return ⟨syllable.opcode.mnemonic, dst ++ srcs⟩ : Outcome Asm.Syllable) = .ok asm := by
  rw [gprSources] at isScalars
  obtain ⟨operands, isOperands⟩ := exists_scalars isScalars allocated.2
  have sameOperands : syllable.srcs.mapM gprOrImmOperand = .ok operands := by
    rw [← isOperands]
    exact congrArg (syllable.srcs.mapM ·) (funext gprOrImmOperand_eq)
  obtain ⟨dst, isDst⟩ : ∃ dst, (syllable.dst.toList).mapM
      (fun reg => (gprForReg reg).map Operand.reg) = .ok dst := by
    refine exists_mapM_ok fun reg regMem => ?_
    obtain ⟨n, isReg⟩ := exists_dst allocated.1
      (Option.isSome_iff_exists.mpr ⟨reg, Option.mem_toList.mp regMem⟩)
    have isSame : reg = .preg n := by
      have isDst := Option.mem_toList.mp regMem
      rw [isReg] at isDst
      exact (Option.some.inj isDst).symm
    rw [isSame]
    exact ⟨.reg n, rfl⟩
  rw [isDst]
  change ∃ asm, (syllable.srcs.mapM gprOrImmOperand >>= _ : Outcome _) = .ok asm
  rw [sameOperands]
  exact ⟨_, rfl⟩

theorem lowersOrOverflows {syllable : Syllable} (wellFormed : syllable.WellFormed)
    (allocated : syllable.dstVreg = none ∧ syllable.sourceVregs = []) :
    LowersOrOverflows syllable := by
  have isAction := wellFormed.1
  have writes := Opcode.writes_of_behavior syllable.opcode
  unfold Mir.Syllable.action at isAction
  cases behavior : syllable.opcode.behavior with
  | load width => exact lowers_of_load behavior wellFormed allocated
  | store width => exact lowers_of_store behavior wellFormed allocated
  | control => simp [behavior] at isAction
  | test =>
      refine .inl ⟨?_, not_addressOverflows (by simp [behavior]) (by simp [behavior])⟩
      rw [behavior] at writes
      obtain ⟨n, isDst⟩ := exists_dst allocated.1 (wellFormed.2.mpr (.inr writes.2))
      obtain ⟨operands, isOperands⟩ := exists_scalars (by simpa [behavior] using isAction) allocated.2
      rw [lowerSyllable_eq, behavior, isDst]
      change ∃ asm, (syllable.srcs.mapM _ >>= _ : Outcome _) = .ok asm
      rw [isOperands]
      exact ⟨_, rfl⟩
  | compute =>
      refine .inl ⟨?_, not_addressOverflows (by simp [behavior]) (by simp [behavior])⟩
      have gprSources := Mir.predicateSources_of_behavior (behavior.trans_ne (by simp))
      rw [lowerSyllable_eq, behavior]
      exact exists_general (by simpa [behavior] using isAction) gprSources allocated
  | acquire =>
      refine .inl ⟨?_, not_addressOverflows (by simp [behavior]) (by simp [behavior])⟩
      have gprSources := Mir.predicateSources_of_behavior (behavior.trans_ne (by simp))
      rw [lowerSyllable_eq, behavior]
      exact exists_general (by simpa [behavior] using isAction) gprSources allocated
  | release =>
      refine .inl ⟨?_, not_addressOverflows (by simp [behavior]) (by simp [behavior])⟩
      have gprSources := Mir.predicateSources_of_behavior (behavior.trans_ne (by simp))
      rw [lowerSyllable_eq, behavior]
      exact exists_general (by simpa [behavior] using isAction) gprSources allocated
  | inert =>
      refine .inl ⟨?_, not_addressOverflows (by simp [behavior]) (by simp [behavior])⟩
      have gprSources := Mir.predicateSources_of_behavior (behavior.trans_ne (by simp))
      rw [lowerSyllable_eq, behavior]
      exact exists_general (by simpa [behavior] using isAction) gprSources allocated

/-! ### Requests -/

theorem returned_ok {α : Type} (value : α) : Returned (.ok value : Outcome α) := .inl ⟨value, rfl⟩

theorem returned_notImplemented {α : Type} (message : String) :
    Returned (notImplemented message : Outcome α) := .inr ⟨_, rfl⟩

theorem not_returned_panic {α : Type} (message : String) :
    ¬Returned (.error (.panic message) : Outcome α) := by
  rintro (⟨value, isValue⟩ | ⟨error, isError⟩)
  · cases isValue
  · cases isError

section

variable {processor : Processor}

/-- A slot that can execute the opcode must be below the width. -/
theorem returned_place_iff {opcode : Opcode} {slot : Nat} :
    Returned (Request.place processor opcode slot) ↔
      ¬(processor.width ≤ slot ∧ slotSupportsOpcode slot opcode processor = true) := by
  unfold Request.place
  by_cases supported : slotSupportsOpcode slot opcode processor = true
  · rw [if_pos supported, and_iff_left supported, Nat.not_le]
    by_cases inside : slot < processor.width
    · rw [if_pos inside]
      exact iff_of_true (returned_ok ()) inside
    · rw [if_neg inside]
      exact iff_of_false (not_returned_panic _) inside
  · rw [if_neg supported]
    exact iff_of_true (returned_notImplemented _) fun both => supported both.2

theorem reported_of_firstCompatibleSlot {opcode : Opcode} {failure : Failure}
    (failed : firstCompatibleSlot opcode processor = .error failure) :
    ∃ error, failure = .error error := by
  unfold firstCompatibleSlot at failed
  split at failed
  · cases failed
  · split at failed
    · cases failed
    · cases failed
      exact ⟨_, rfl⟩

/-- Slot selection aborts in no case. -/
theorem reported_of_scalarSlot {opcode : Opcode} {failure : Failure}
    (failed : scalarSlot opcode processor = .error failure) : ∃ error, failure = .error error := by
  unfold scalarSlot at failed
  split at failed
  · split at failed
    · cases failed
    · exact reported_of_firstCompatibleSlot failed
  · exact reported_of_firstCompatibleSlot failed

theorem returned_syllable_iff {syllable : Syllable} (wellFormed : syllable.WellFormed)
    (allocated : syllable.dstVreg = none ∧ syllable.sourceVregs = []) :
    Returned (Request.outcome processor (.syllable syllable)) ↔
      ¬Overruns processor (.syllable syllable) := by
  rw [Request.outcome, Overruns]
  rcases lowersOrOverflows wellFormed allocated with
    ⟨⟨asm, lowered⟩, fits⟩ | ⟨⟨message, lowered⟩, overflows⟩
  · rw [lowered, or_iff_right fits]
    change Returned (scalarSlot syllable.opcode processor >>= _) ↔ _
    cases isSlot : scalarSlot syllable.opcode processor with
    | error failure =>
        refine iff_of_true ?_ ?_
        · obtain ⟨error, rfl⟩ := reported_of_scalarSlot isSlot
          exact .inr ⟨error, rfl⟩
        · rintro ⟨name, isName, slot, isAlias, -, supported⟩
          rw [scalarSlot, isName, Option.bind_some, isAlias] at isSlot
          simp [supported] at isSlot
    | ok slot =>
        change Returned (Request.place processor syllable.opcode slot) ↔ _
        rw [returned_place_iff]
        refine not_congr ⟨?_, ?_⟩
        · rintro ⟨beyond, supported⟩
          rcases scalarSlot_cases isSlot with ⟨name, isName, isAlias, -⟩ | isFirst
          · exact ⟨name, isName, slot, isAlias, beyond, supported⟩
          · by_cases proper : syllable.opcode = .nop
            · rw [proper, firstCompatibleSlot, if_pos rfl] at isFirst
              cases isFirst
              rw [proper] at supported
              simp only [slotSupportsOpcode, if_true, decide_eq_true_eq] at supported
              omega
            · have inside := (supported_of_firstCompatibleSlot proper isFirst).1
              omega
        · rintro ⟨name, isName, other, isAlias, beyond, supported⟩
          rw [scalarSlot, isName, Option.bind_some, isAlias] at isSlot
          dsimp only at isSlot
          rw [if_pos supported] at isSlot
          cases isSlot
          exact ⟨beyond, supported⟩
  · rw [lowered]
    exact iff_of_false (not_returned_panic message) (not_not_intro (.inl overflows))

theorem returned_terminator_iff {terminator : Terminator}
    (allocated : terminator.condVreg = none) :
    Returned (Request.outcome processor (.terminator terminator)) ↔
      ¬Overruns processor (.terminator terminator) := by
  rw [outcome_terminator allocated, Overruns]
  cases isSlot : xSlot processor with
  | error failure =>
      refine iff_of_true ?_ ?_
      · unfold xSlot at isSlot
        split at isSlot
        · cases isSlot
        · cases isSlot
          exact returned_notImplemented _
      · rintro ⟨slot, isAlias, -⟩
        rw [xSlot_eq_ok.mpr isAlias] at isSlot
        cases isSlot
  | ok slot =>
      change Returned (Request.place processor (terminatorOpcode terminator) slot) ↔ _
      have isAlias := xSlot_eq_ok.mp isSlot
      rw [returned_place_iff]
      refine not_congr ⟨fun both => ⟨slot, isAlias, both⟩, ?_⟩
      rintro ⟨other, isOther, both⟩
      rw [isAlias] at isOther
      cases isOther
      exact both

theorem returned_outcome_iff {request : Request} (shaped : IsShaped request)
    (allocated : request.IsAllocated) :
    Returned (request.outcome processor) ↔ ¬Overruns processor request := by
  cases request with
  | syllable syllable => exact returned_syllable_iff shaped allocated
  | terminator terminator => exact returned_terminator_iff allocated

end

theorem returned_scalarProgram_iff {functions : List Function} {processor : Processor}
    (shaped : ∀ request ∈ requests functions, IsShaped request)
    (allocated : ∀ request ∈ requests functions, request.IsAllocated) :
    Returned (scalarProgram functions processor) ↔
      NoneOverruns processor (requests functions) := by
  have returns : ∀ {front request back}, requests functions = front ++ request :: back →
      (Returned (request.outcome processor) ↔ ¬Overruns processor request) := by
    intro front request back isSplit
    have requestMem : request ∈ requests functions := by
      rw [isSplit]
      simp
    exact returned_outcome_iff (shaped request requestMem) (allocated request requestMem)
  refine ⟨?_, fun harmless => ?_⟩
  · intro returned front request back isSplit issued overruns
    have notReturned := mt (returns isSplit).mp (not_not_intro overruns)
    cases failed : request.outcome processor with
    | ok done => exact notReturned (failed ▸ returned_ok done)
    | error failure =>
        have isFailed := scalarProgram_eq_error_iff.mpr ⟨front, request, back, isSplit, issued, failed⟩
        rw [failed] at notReturned
        rw [isFailed] at returned
        rcases returned with ⟨value, isValue⟩ | ⟨error, isError⟩
        · cases isValue
        · cases isError
          exact notReturned (.inr ⟨error, rfl⟩)
  · cases failed : scalarProgram functions processor with
    | ok program => exact returned_ok program
    | error failure =>
        obtain ⟨front, request, back, isSplit, issued, isFailed⟩ :=
          scalarProgram_eq_error_iff.mp failed
        have returned := (returns isSplit).mpr (harmless front request back isSplit issued)
        rw [isFailed] at returned
        rcases returned with ⟨value, isValue⟩ | ⟨error, isError⟩
        · cases isValue
        · cases isError
          exact .inr ⟨error, rfl⟩

/-- An outcome is returned when every failure of it is a reported error. -/
theorem returned_iff {α : Type} {outcome : Outcome α} :
    Returned outcome ↔ ∀ failure, outcome = .error failure → ∃ error, failure = .error error := by
  cases outcome with
  | ok value => exact iff_of_true (returned_ok value) (fun failure same => nomatch same)
  | error failure =>
      refine ⟨?_, fun reported => ?_⟩
      · rintro (⟨value, isValue⟩ | ⟨error, isError⟩) other same
        · cases isValue
        · cases isError
          cases same
          exact ⟨error, rfl⟩
      · obtain ⟨error, rfl⟩ := reported failure rfl
        exact .inr ⟨error, rfl⟩

/-- Both emitters return a text or an error exactly when neither, in the order in
which it emits, comes to a request that aborts. -/
theorem emission_returns_iff {functions : List Function} {processor : Processor}
    (shaped : ∀ request ∈ requests functions, IsShaped request)
    (allocated : ∀ request ∈ requests functions, request.IsAllocated) :
    (Returned (emitScalarVliwModule functions processor) ∧
        Returned (emitPackedVliwModule functions processor)) ↔
      NoneOverruns processor (requests functions) ∧
        ∀ scheduled, functions.mapM Schedule.listScheduleFunction = .ok scheduled →
          NoneOverruns processor (requests scheduled) := by
  obtain ⟨scheduled, isScheduled⟩ := exists_listScheduleFunctions functions
  have related := scheduled_of_mapM isScheduled
  have isScalar : Returned (emitScalarVliwModule functions processor) ↔
      Returned (scalarProgram functions processor) := by
    simp only [returned_iff, emitScalarVliwModule_eq_error_iff]
  have isPacked : Returned (emitPackedVliwModule functions processor) ↔
      Returned (scalarProgram scheduled processor) := by
    simp only [returned_iff, emitPackedVliwModule_eq_error_iff isScheduled]
  have inFunctions : ∀ request ∈ requests scheduled, request ∈ requests functions :=
    fun request => (mem_requests_scheduled related request).mp
  rw [isScalar, isPacked, returned_scalarProgram_iff shaped allocated,
    returned_scalarProgram_iff (fun request requestMem => shaped request (inFunctions request requestMem))
      (fun request requestMem => allocated request (inFunctions request requestMem))]
  refine and_congr_right fun _ => ⟨fun harmless other isOther => ?_, fun all => all scheduled isScheduled⟩
  rw [isScheduled] at isOther
  cases isOther
  exact harmless

/-- The canonical layout with an alias for a slot beyond the width, which has no
units. -/
def farMemoryAlias : Processor :=
  { Processor.default with slotAliases := [⟨"M", 7⟩, ⟨"X", 3⟩] }

/-- A function that returns a word of memory. -/
def returnsWord : List Function :=
  [⟨"main", [⟨"entry", [⟨.loadD, some (.preg 1), [.imm 64]⟩], .ret⟩]⟩]

theorem emission_returns_iff_farMemoryAlias :
    Returned (emitScalarVliwModule returnsWord farMemoryAlias) ∧
      Returned (emitPackedVliwModule returnsWord farMemoryAlias) := by
  have isRequest : ∀ request ∈ requests returnsWord,
      request = .syllable ⟨.loadD, some (.preg 1), [.imm 64]⟩ ∨ request = .terminator .ret :=
    fun request requestMem => List.mem_pair.mp requestMem
  have shaped : ∀ request ∈ requests returnsWord, IsShaped request := by
    intro request requestMem
    rcases isRequest request requestMem with rfl | rfl
    · change Mir.Syllable.WellFormed _
      decide
    · trivial
  have allocated : ∀ request ∈ requests returnsWord, request.IsAllocated := by
    intro request requestMem
    rcases isRequest request requestMem with rfl | rfl
    · exact ⟨rfl, rfl⟩
    · rfl
  have harmless : NoneOverruns farMemoryAlias (requests returnsWord) := by
    intro front request back isSplit _
    have requestMem : request ∈ requests returnsWord := by
      rw [isSplit]
      simp
    rcases isRequest request requestMem with rfl | rfl
    · rintro (⟨address, offset, rest, -, isImm | isStack, -⟩ |
        ⟨name, isName, slot, isAlias, -, supported⟩)
      · cases isImm
      · cases isStack
      · cases isName
        cases isAlias
        exact absurd supported (by decide +kernel)
    · rintro ⟨slot, isAlias, beyond, -⟩
      cases isAlias
      exact absurd beyond (by decide)
  refine (emission_returns_iff shaped allocated).mpr ⟨harmless, fun scheduled isScheduled => ?_⟩
  have same : returnsWord.mapM Schedule.listScheduleFunction = .ok returnsWord := by
    decide +kernel
  cases same.symm.trans isScheduled
  exact harmless

/-- A text whose alias `I0` is the slot 5 of a layout of width 4. -/
def wideAliasText : String :=
  ".processor \x7b\nwidth 4\nhardware \x7b\nunit alu = integer_alu\n\x7d\n" ++
    "layout slots \x7b\nalias I0 = 5\n5 = \x7b alu \x7d\n\x7d\n\x7d\n"

/-- The parser accepts the layout; the move is placed in slot 5 of 4. -/
theorem wideAlias_panics :
    ∃ program, Asm.parse wideAliasText = .ok program ∧
      emitScalarVliwModule returnsConstant program.processor =
        .error (.panic "index out of bounds") ∧
      emitPackedVliwModule returnsConstant program.processor =
        .error (.panic "index out of bounds") := by
  refine ⟨⟨{ Asm.Parser.initialProcessor with
    units := [⟨"alu", "integer_alu"⟩], slotAliases := [⟨"I0", 5⟩]
    slotUnits := [[], [], [], [], [], ["alu"]] }, []⟩, ?_, ?_, ?_⟩
  · decide +kernel
  · decide +kernel
  · decide +kernel

end VliwCompiler.Pack
