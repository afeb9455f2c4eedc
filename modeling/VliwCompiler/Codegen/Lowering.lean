import VliwCompiler.Codegen.Context
import VliwCompiler.Mir.Semantics
import VliwCompiler.Machine.Rename
import VliwCompiler.Data.MapM

/-!
# Lowered syllables keep their meaning

The assembly syllable of a well-formed MIR syllable denotes the same action, up
to the name of the registers.
-/

namespace VliwCompiler.Codegen

open Asm (Opcode Operand)
open Mir (Reg Value)
open Machine

theorem preg_injective : Function.Injective Reg.preg := fun _ _ same => Reg.preg.inj same

theorem preg_zero : Reg.preg 0 = 0 := rfl

theorem gprForReg_eq_ok {reg : Reg} {n : UInt8} : gprForReg reg = .ok n ↔ reg = .preg n := by
  cases reg <;> simp [gprForReg]

theorem predForReg_eq_ok {reg : Reg} {n : UInt8} : predForReg reg = .ok n ↔ reg = .preg n := by
  cases reg <;> simp [predForReg]

theorem gprOrImmOperand_eq (value : Value) :
    gprOrImmOperand value = predOrGprOperand value false := by
  cases value <;> rfl

/-! ### Operands -/

/-- A lowered scalar operand reads what the MIR operand reads. -/
theorem source_of_predOrGprOperand {value : Value} {predSrc : Bool} {operand : Operand}
    (lowered : predOrGprOperand value predSrc = .ok operand) :
    ∃ source, operand.source = some source ∧
      value.source predSrc = some (source.map Reg.preg) := by
  cases value with
  | imm imm =>
      cases lowered
      exact ⟨.imm imm, rfl, rfl⟩
  | stack address => cases lowered
  | reg register =>
      cases predSrc with
      | true =>
          obtain ⟨n, physical, rfl⟩ := map_eq_ok.mp lowered
          rw [predForReg_eq_ok.mp physical]
          exact ⟨.pred n, rfl, rfl⟩
      | false =>
          obtain ⟨n, physical, rfl⟩ := map_eq_ok.mp lowered
          rw [gprForReg_eq_ok.mp physical]
          exact ⟨.gpr n, rfl, rfl⟩

theorem sources_of_predOrGprOperands {values : List Value} {predSrc : Bool}
    {operands : List Operand}
    (lowered : values.mapM (predOrGprOperand · predSrc) = .ok operands) :
    ∃ sources, operands.mapM Operand.source = some sources ∧
      values.mapM (Value.source predSrc) = some (sources.map (·.map Reg.preg)) := by
  have related := mapM_eq_ok_iff.mp lowered
  clear lowered
  induction related with
  | nil => exact ⟨[], rfl, rfl⟩
  | cons first _ ih =>
      obtain ⟨source, asmSource, mirSource⟩ := source_of_predOrGprOperand first
      obtain ⟨sources, asmSources, mirSources⟩ := ih
      refine ⟨source :: sources, ?_, ?_⟩
      · rw [List.mapM_cons, asmSource, asmSources]
        rfl
      · rw [List.mapM_cons, mirSource, mirSources]
        rfl

/-- A lowered address denotes the address of the MIR base value. -/
theorem memAddr_of_addressOperand {base : Value} {offset : Word} {operand : Operand}
    (lowered : addressOperand base offset = .ok operand) :
    ∃ reg displacement, operand = .memAddr reg displacement ∧
      base.address offset = (.preg reg, displacement) := by
  cases base with
  | imm addr =>
      obtain ⟨sum, isSum, rfl⟩ := map_eq_ok.mp lowered
      obtain ⟨-, rfl⟩ := checkedAdd_eq_ok.mp isSum
      exact ⟨zeroReg, addr + offset, rfl, rfl⟩
  | stack addr =>
      obtain ⟨sum, isSum, rfl⟩ := map_eq_ok.mp lowered
      obtain ⟨-, rfl⟩ := checkedAdd_eq_ok.mp isSum
      exact ⟨zeroReg, addr + offset, rfl, rfl⟩
  | reg register =>
      obtain ⟨n, physical, rfl⟩ := map_eq_ok.mp lowered
      rw [gprForReg_eq_ok.mp physical]
      exact ⟨n, offset, rfl, rfl⟩

theorem memAddr_of_loadAddress {srcs : List Value} {operand : Operand}
    (lowered : loadAddress srcs = .ok operand) :
    ∃ reg displacement, operand = .memAddr reg displacement ∧
      Mir.loadAddress srcs = some (.preg reg, displacement) := by
  match srcs, lowered with
  | [base], lowered =>
      obtain ⟨reg, displacement, rfl, same⟩ := memAddr_of_addressOperand lowered
      exact ⟨reg, displacement, rfl, congrArg some same⟩
  | [base, .imm offset], lowered =>
      obtain ⟨reg, displacement, rfl, same⟩ := memAddr_of_addressOperand lowered
      exact ⟨reg, displacement, rfl, congrArg some same⟩

/-- The address and data of a lowered store. -/
theorem operands_of_addressed {base value : Value} {offset : Word} {operands : Operand × Operand}
    (lowered : (do
      let addr ← addressOperand base offset
      let data ← gprOrImmOperand value
      return (addr, data) : Outcome (Operand × Operand)) = .ok operands) :
    ∃ reg displacement data source, operands = (.memAddr reg displacement, data) ∧
      data.source = some source ∧ base.address offset = (.preg reg, displacement) ∧
        value.source false = some (source.map Reg.preg) := by
  obtain ⟨addr, isAddr, rest⟩ := bind_eq_ok.mp lowered
  obtain ⟨data, isData, same⟩ := bind_eq_ok.mp rest
  obtain ⟨reg, displacement, rfl, addressEq⟩ := memAddr_of_addressOperand isAddr
  rw [gprOrImmOperand_eq] at isData
  obtain ⟨source, asmSource, mirSource⟩ := source_of_predOrGprOperand isData
  exact ⟨reg, displacement, data, source, (Except.ok.inj same).symm, asmSource, addressEq,
    mirSource⟩

theorem operands_of_storeOperands {srcs : List Value} {operands : Operand × Operand}
    (lowered : storeOperands srcs = .ok operands) :
    ∃ reg displacement data source value, operands = (.memAddr reg displacement, data) ∧
      data.source = some source ∧
      Mir.storeOperands srcs = some ((.preg reg, displacement), value) ∧
      value.source false = some (source.map Reg.preg) := by
  match srcs, lowered with
  | [base, value], lowered =>
      obtain ⟨reg, displacement, data, source, same, asmSource, addressEq, mirSource⟩ :=
        operands_of_addressed lowered
      exact ⟨reg, displacement, data, source, value, same, asmSource,
        congrArg (fun address => some (address, value)) addressEq, mirSource⟩
  | [base, .imm offset, value], lowered =>
      obtain ⟨reg, displacement, data, source, same, asmSource, addressEq, mirSource⟩ :=
        operands_of_addressed lowered
      exact ⟨reg, displacement, data, source, value, same, asmSource,
        congrArg (fun address => some (address, value)) addressEq, mirSource⟩

/-! ### Syllables -/

/-- Lowering follows the behavior class of the opcode. -/
theorem lowerSyllable_eq (syllable : Mir.Syllable) :
    lowerSyllable syllable =
      match syllable.opcode.behavior with
      | .store _ => do
          let (addr, data) ← storeOperands syllable.srcs
          return ⟨syllable.opcode.mnemonic, [addr, data]⟩
      | .load _ => do
          let dst ← gprForReg (← expect "load dst" syllable.dst)
          let addr ← loadAddress syllable.srcs
          return ⟨syllable.opcode.mnemonic, [.reg dst, addr]⟩
      | .test => do
          let dst ← predForReg (← expect "predicate dst" syllable.dst)
          let srcs ← syllable.srcs.mapM
            (predOrGprOperand · (Mir.predicateSources syllable.opcode))
          return ⟨syllable.opcode.mnemonic, .pred dst :: srcs⟩
      | _ => do
          let dst ← (syllable.dst.toList).mapM fun reg => (gprForReg reg).map Operand.reg
          let srcs ← syllable.srcs.mapM gprOrImmOperand
          return ⟨syllable.opcode.mnemonic, dst ++ srcs⟩ := by
  unfold lowerSyllable
  cases syllable.opcode <;> rfl

/-- What a lowered syllable is and what it denotes. -/
structure Denotes (syllable : Mir.Syllable) (asm : Asm.Syllable)
    (action : Action Opcode UInt8) : Prop where
  mnemonic : asm.opcode = syllable.opcode.mnemonic
  asmAction : Asm.operandsAction syllable.opcode asm.operands = some action
  mirAction : syllable.action = some (action.map Reg.preg)

/-- The destination and sources of a register operation. -/
theorem operands_of_general {syllable : Mir.Syllable} {asm : Asm.Syllable}
    (lowered : (do
      let dst ← (syllable.dst.toList).mapM fun reg => (gprForReg reg).map Operand.reg
      let srcs ← syllable.srcs.mapM gprOrImmOperand
      return ⟨syllable.opcode.mnemonic, dst ++ srcs⟩ : Outcome Asm.Syllable) = .ok asm)
    (gprSources : Mir.predicateSources syllable.opcode = false) :
    ∃ (dst : Option UInt8) (operands : List Operand) (sources : List (Source UInt8)),
      asm = ⟨syllable.opcode.mnemonic, dst.toList.map .reg ++ operands⟩ ∧
      syllable.dst = dst.map Reg.preg ∧
      operands.mapM Operand.source = some sources ∧
      syllable.srcs.mapM (Value.source (Mir.predicateSources syllable.opcode)) =
        some (sources.map (·.map Reg.preg)) := by
  obtain ⟨dstOperands, isDst, rest⟩ := bind_eq_ok.mp lowered
  obtain ⟨operands, isSrcs, same⟩ := bind_eq_ok.mp rest
  cases same
  have scalars : syllable.srcs.mapM (predOrGprOperand · false) = .ok operands := by
    rw [← isSrcs]
    exact congrArg (syllable.srcs.mapM ·) (funext fun value => (gprOrImmOperand_eq value).symm)
  obtain ⟨sources, asmSources, mirSources⟩ := sources_of_predOrGprOperands scalars
  rw [gprSources]
  cases isNone : syllable.dst with
  | none =>
      rw [isNone] at isDst
      cases isDst
      exact ⟨none, operands, sources, rfl, rfl, asmSources, mirSources⟩
  | some reg =>
      rw [isNone, Option.toList_some, mapM_eq_ok_iff, List.forall₂_cons_left_iff] at isDst
      obtain ⟨operand, others, isReg, isNil, rfl⟩ := isDst
      rw [List.forall₂_nil_left_iff] at isNil
      obtain ⟨n, physical, rfl⟩ := map_eq_ok.mp isReg
      rw [gprForReg_eq_ok.mp physical, isNil]
      exact ⟨some n, operands, sources, rfl, rfl, asmSources, mirSources⟩

/-- A lowered well-formed syllable denotes the action of the MIR syllable. -/
theorem exists_denotes {syllable : Mir.Syllable} {asm : Asm.Syllable}
    (lowered : lowerSyllable syllable = .ok asm) (wellFormed : syllable.WellFormed) :
    ∃ action, Denotes syllable asm action := by
  obtain ⟨hasAction, hasDst⟩ := wellFormed
  rw [lowerSyllable_eq] at lowered
  have writes := Opcode.writes_of_behavior syllable.opcode
  cases behavior : syllable.opcode.behavior with
  | store width =>
      rw [behavior] at lowered
      obtain ⟨operands, isStore, same⟩ := bind_eq_ok.mp lowered
      obtain ⟨reg, displacement, data, source, value, rfl, asmSource, shape, mirSource⟩ :=
        operands_of_storeOperands isStore
      cases same
      refine ⟨.store width reg displacement source, rfl, ?_, ?_⟩
      · simp [Asm.operandsAction, behavior, asmSource]
      · simp [Mir.Syllable.action, behavior, shape, mirSource, Action.map]
  | load width =>
      rw [behavior] at lowered
      obtain ⟨reg, isReg, rest⟩ := bind_eq_ok.mp lowered
      obtain ⟨dst, isDst, rest⟩ := bind_eq_ok.mp rest
      obtain ⟨addr, isAddr, same⟩ := bind_eq_ok.mp rest
      obtain ⟨base, displacement, rfl, shape⟩ := memAddr_of_loadAddress isAddr
      cases same
      rw [gprForReg_eq_ok.mp isDst, expect_eq_ok] at isReg
      refine ⟨.load syllable.opcode width (some dst) base displacement, rfl, ?_, ?_⟩
      · simp [Asm.operandsAction, behavior]
      · simp [Mir.Syllable.action, behavior, shape, isReg, Action.map]
  | test =>
      rw [behavior] at lowered
      obtain ⟨reg, isReg, rest⟩ := bind_eq_ok.mp lowered
      obtain ⟨dst, isDst, rest⟩ := bind_eq_ok.mp rest
      obtain ⟨operands, isSrcs, same⟩ := bind_eq_ok.mp rest
      obtain ⟨sources, asmSources, mirSources⟩ := sources_of_predOrGprOperands isSrcs
      cases same
      rw [predForReg_eq_ok.mp isDst, expect_eq_ok] at isReg
      refine ⟨.test syllable.opcode (some dst) sources, rfl, ?_, ?_⟩
      · simp [Asm.operandsAction, behavior, asmSources]
      · simp [Mir.Syllable.action, behavior, mirSources, isReg, Action.map]
  | compute =>
      rw [behavior] at lowered writes
      obtain ⟨dst, operands, sources, rfl, dstEq, asmSources, mirSources⟩ :=
        operands_of_general lowered (Mir.predicateSources_of_behavior (by simp [behavior]))
      have present : syllable.dst.isSome := hasDst.mpr (.inl writes.1)
      cases dst with
      | none => simp [dstEq] at present
      | some n =>
          refine ⟨.compute syllable.opcode (some n) sources, rfl, ?_, ?_⟩
          · simp [Asm.operandsAction, behavior, asmSources]
          · simp [Mir.Syllable.action, behavior, mirSources, dstEq, Action.map]
  | acquire =>
      rw [behavior] at lowered writes
      obtain ⟨dst, operands, sources, rfl, dstEq, asmSources, mirSources⟩ :=
        operands_of_general lowered (Mir.predicateSources_of_behavior (by simp [behavior]))
      have present : syllable.dst.isSome := hasDst.mpr (.inl writes.1)
      cases dst with
      | none => simp [dstEq] at present
      | some n =>
          refine ⟨.acquire syllable.opcode (some n) sources, rfl, ?_, ?_⟩
          · simp [Asm.operandsAction, behavior, asmSources]
          · simp [Mir.Syllable.action, behavior, mirSources, dstEq, Action.map]
  | release =>
      rw [behavior] at lowered writes
      obtain ⟨dst, operands, sources, rfl, dstEq, asmSources, mirSources⟩ :=
        operands_of_general lowered (Mir.predicateSources_of_behavior (by simp [behavior]))
      cases dst with
      | some n => simp [dstEq, writes] at hasDst
      | none =>
          refine ⟨.release syllable.opcode sources, rfl, ?_, ?_⟩
          · simp [Asm.operandsAction, behavior, asmSources]
          · simp [Mir.Syllable.action, behavior, mirSources, Action.map]
  | inert =>
      rw [behavior] at lowered writes
      obtain ⟨dst, operands, sources, rfl, dstEq, asmSources, mirSources⟩ :=
        operands_of_general lowered (Mir.predicateSources_of_behavior (by simp [behavior]))
      cases dst with
      | some n => simp [dstEq, writes] at hasDst
      | none =>
          refine ⟨.skip, rfl, ?_, ?_⟩
          · simp [Asm.operandsAction, behavior, asmSources]
          · simp [Mir.Syllable.action, behavior, mirSources, Action.map]
  | control => simp [Mir.Syllable.action, behavior] at hasAction

end VliwCompiler.Codegen
