import VliwCompiler.Codegen.Placed
import VliwCompiler.Schedule.Ready
import VliwCompiler.Data.InOrder

/-!
# The schedule of scalar code

Scalar emission issues the operations of a function, its syllables and
terminators in layout order, as an in-order machine would: each one as soon as
the operation before it has been issued and its sources are ready.  The bundles in
between are empty.
-/

namespace VliwCompiler.Codegen

open Asm (Opcode Operand Bundle Item Program Processor programBundles programBundles_append)
open InOrder (Issue IsSchedule readyAt nextCycle issueCycle nextCycle_append)
open Mir (Reg Value Block Function Terminator)
open Schedule (RegKey RegClass sourceRegKeys destRegKey)

/-! ### Operations -/

/-- An operation of a function. -/
inductive Op where
  | syllable (syllable : Mir.Syllable)
  | terminator (terminator : Terminator)

/-- The operations of a block. -/
def blockOps (block : Block) : List Op :=
  block.syllables.map .syllable ++ [.terminator block.terminator]

/-- The operations of a function in layout order. -/
def functionOps (function : Function) : List Op := function.blocks.flatMap blockOps

/-- The zero register. -/
def zeroKey : RegKey := ⟨.gpr, .preg zeroReg⟩

/-- The assembly syllable of an operation. -/
def Op.lower : Op → Outcome Asm.Syllable
  | .syllable body => lowerSyllable body
  | .terminator .ret => .ok ⟨"ret", []⟩
  | .terminator (.jump label) => .ok ⟨"jmp", [.label label]⟩
  | .terminator (.branch cond label) =>
      (predForReg cond).map fun pred => ⟨"br", [.pred pred, .label label]⟩
  | .terminator (.directCall target _) => .ok ⟨"call", [.label target]⟩

/-- The opcode of an operation. -/
def Op.opcode : Op → Opcode
  | .syllable body => body.opcode
  | .terminator .ret => .ret
  | .terminator (.jump _) => .jump
  | .terminator (.branch _ _) => .branch
  | .terminator (.directCall _ _) => .call

/-- The registers an operation names as sources. -/
def Op.sources : Op → List RegKey
  | .syllable body => sourceRegKeys body
  | .terminator (.branch cond _) => [⟨.pred, cond⟩]
  | .terminator _ => []

/-- The register an operation names as destination; `r0` is never written. -/
def Op.dest : Op → Option RegKey
  | .syllable body => (destRegKey body).filter (· ≠ zeroKey)
  | .terminator _ => none

/-- An operation as the in-order machine sees it. -/
def Op.issue (op : Op) : Issue RegKey := ⟨op.sources, op.dest, op.opcode.latency⟩

/-- A syllable has a destination exactly when its opcode writes one. -/
def Op.Fits : Op → Prop
  | .syllable body =>
      body.dst.isSome ↔ (body.opcode.writesGpr = true ∨ body.opcode.writesPred = true)
  | .terminator _ => True

instance (op : Op) : Decidable op.Fits :=
  match op with
  | .syllable _ => inferInstanceAs (Decidable (_ ↔ _))
  | .terminator _ => inferInstanceAs (Decidable True)

/-- Destinations fit the opcodes of a function. -/
def DestinationsFit (function : Function) : Prop := ∀ op ∈ functionOps function, op.Fits

/-- The operations `ops` are issued at the cycles `cycles`, one to a bundle and in
order, and all other bundles are empty. -/
structure InOrderBundles (ops : List Op) (cycles : List Nat) (bundles : List Bundle) : Prop where
  schedule : IsSchedule (ops.map Op.issue) cycles
  length : bundles.length = nextCycle cycles
  issued : ∀ (count cycle : Nat) (op : Op), cycles[count]? = some cycle → ops[count]? = some op →
    ∃ (asm : Asm.Syllable) (bundle : Bundle), op.lower = .ok asm ∧
      bundles[cycle]? = some bundle ∧ bundle.syllables = [asm]
  waits : ∀ (cycle : Nat) (bundle : Bundle), bundles[cycle]? = some bundle → cycle ∉ cycles →
    bundle.syllables = []
  single : ∀ bundle ∈ bundles, bundle.syllables.length ≤ 1
  inOrder : List.Forall₂ (fun op asm => Op.lower op = .ok asm) ops (bundles.flatMap (·.syllables))

/-! ### Operands -/

/-- The registers read by an operand list; the first register and the first
predicate are skipped when they are destinations. -/
def operandKeys (skipGprDest skipPredDest : Bool) : List Operand → List RegKey
  | [] => []
  | .reg n :: rest =>
      if skipGprDest then operandKeys false skipPredDest rest
      else ⟨.gpr, .preg n⟩ :: operandKeys skipGprDest skipPredDest rest
  | .pred n :: rest =>
      if skipPredDest then operandKeys skipGprDest false rest
      else ⟨.pred, .preg n⟩ :: operandKeys skipGprDest skipPredDest rest
  | .memAddr base _ :: rest => ⟨.gpr, .preg base⟩ :: operandKeys skipGprDest skipPredDest rest
  | .imm _ :: rest => operandKeys skipGprDest skipPredDest rest
  | .label _ :: rest => operandKeys skipGprDest skipPredDest rest

/-- The register written by an assembly syllable. -/
def operandDest (opcode : Opcode) (operand : Option Operand) : Option RegKey :=
  match opcode.writesGpr, opcode.writesPred, operand with
  | true, _, some (.reg n) => if n ≠ zeroReg then some ⟨.gpr, .preg n⟩ else none
  | _, true, some (.pred n) => some ⟨.pred, .preg n⟩
  | _, _, _ => none

/-- The operands of a lowered operation name its sources and its destination. -/
structure Names (op : Op) (asm : Asm.Syllable) : Prop where
  mnemonic : Opcode.fromMnemonic asm.opcode = some op.opcode
  read : ∀ key ∈ operandKeys op.opcode.writesGpr op.opcode.writesPred asm.operands,
    key = zeroKey ∨ key ∈ op.sources
  source : ∀ key ∈ op.sources,
    key ∈ operandKeys op.opcode.writesGpr op.opcode.writesPred asm.operands
  dest : operandDest op.opcode asm.operands.head? = op.dest

theorem Names.of_eq {op : Op} {asm : Asm.Syllable}
    (mnemonic : Opcode.fromMnemonic asm.opcode = some op.opcode)
    (keys : operandKeys op.opcode.writesGpr op.opcode.writesPred asm.operands = op.sources)
    (dest : operandDest op.opcode asm.operands.head? = op.dest) : Names op asm :=
  ⟨mnemonic, fun _ keyMem => .inr (keys ▸ keyMem), fun _ keyMem => keys.symm ▸ keyMem, dest⟩

/-- The key of a scalar operand. -/
def valueKey (predSrc : Bool) : Value → Option RegKey
  | .reg reg => some ⟨if predSrc then .pred else .gpr, reg⟩
  | .imm _ => none
  | .stack _ => none

theorem sourceRegKeys_eq (syllable : Mir.Syllable) :
    sourceRegKeys syllable =
      syllable.srcs.filterMap (valueKey (Mir.predicateSources syllable.opcode)) := by
  unfold sourceRegKeys
  refine List.filterMap_congr fun value _ => ?_
  cases value <;> rfl

/-- Lowered scalar operands name the registers of the values. -/
theorem operandKeys_of_scalars {predSrc : Bool} {values : List Value} {operands : List Operand}
    (lowered : values.mapM (predOrGprOperand · predSrc) = .ok operands) :
    operandKeys false false operands = values.filterMap (valueKey predSrc) := by
  have related := mapM_eq_ok_iff.mp lowered
  clear lowered
  induction related with
  | nil => rfl
  | @cons value operand values operands first _ ih =>
      cases value with
      | imm value =>
          cases first
          exact ih
      | stack address => cases first
      | reg reg =>
          cases predSrc with
          | true =>
              obtain ⟨n, physical, rfl⟩ := map_eq_ok.mp first
              rw [predForReg_eq_ok.mp physical]
              exact congrArg (List.cons (⟨.pred, .preg n⟩ : RegKey)) ih
          | false =>
              obtain ⟨n, physical, rfl⟩ := map_eq_ok.mp first
              rw [gprForReg_eq_ok.mp physical]
              exact congrArg (List.cons (⟨.gpr, .preg n⟩ : RegKey)) ih

/-- The base register of a lowered address. -/
theorem key_of_addressOperand {base : Value} {offset : Asm.I64} {operand : Operand}
    (lowered : addressOperand base offset = .ok operand) :
    ∃ n displacement, operand = .memAddr n displacement ∧
      (n = zeroReg ∧ valueKey false base = none ∨ valueKey false base = some ⟨.gpr, .preg n⟩) := by
  cases base with
  | imm address =>
      obtain ⟨sum, -, rfl⟩ := map_eq_ok.mp lowered
      exact ⟨_, _, rfl, .inl ⟨rfl, rfl⟩⟩
  | stack address =>
      obtain ⟨sum, -, rfl⟩ := map_eq_ok.mp lowered
      exact ⟨_, _, rfl, .inl ⟨rfl, rfl⟩⟩
  | reg reg =>
      obtain ⟨n, physical, rfl⟩ := map_eq_ok.mp lowered
      rw [gprForReg_eq_ok.mp physical]
      exact ⟨_, _, rfl, .inr rfl⟩

theorem keys_of_loadAddress {srcs : List Value} {operand : Operand}
    (lowered : loadAddress srcs = .ok operand) :
    ∃ n displacement, operand = .memAddr n displacement ∧
      (n = zeroReg ∧ srcs.filterMap (valueKey false) = [] ∨
        srcs.filterMap (valueKey false) = [⟨.gpr, .preg n⟩]) := by
  match srcs, lowered with
  | [base], lowered =>
      obtain ⟨n, displacement, rfl, ⟨isZero, none⟩ | some⟩ := key_of_addressOperand lowered
      · exact ⟨n, displacement, rfl, .inl ⟨isZero, by simp [none]⟩⟩
      · exact ⟨n, displacement, rfl, .inr (by simp [some])⟩
  | [base, .imm offset], lowered =>
      obtain ⟨n, displacement, rfl, ⟨isZero, none⟩ | some⟩ := key_of_addressOperand lowered
      · exact ⟨n, displacement, rfl, .inl ⟨isZero, by rw [List.filterMap_cons_none none]; rfl⟩⟩
      · exact ⟨n, displacement, rfl, .inr (by rw [List.filterMap_cons_some some]; rfl)⟩

theorem keys_of_addressed {base data : Value} {offset : Asm.I64} {operands : Operand × Operand}
    (lowered : (do
      let addr ← addressOperand base offset
      let data ← gprOrImmOperand data
      return (addr, data) : Outcome (Operand × Operand)) = .ok operands) :
    ∃ n displacement value, operands = (.memAddr n displacement, value) ∧
      operandKeys false false [value] = [data].filterMap (valueKey false) ∧
      (n = zeroReg ∧ valueKey false base = none ∨ valueKey false base = some ⟨.gpr, .preg n⟩) := by
  obtain ⟨addr, isAddr, rest⟩ := bind_eq_ok.mp lowered
  obtain ⟨value, isData, same⟩ := bind_eq_ok.mp rest
  obtain ⟨n, displacement, rfl, key⟩ := key_of_addressOperand isAddr
  rw [gprOrImmOperand_eq] at isData
  refine ⟨n, displacement, value, (Except.ok.inj same).symm, operandKeys_of_scalars ?_, key⟩
  exact mapM_eq_ok_iff.mpr (.cons isData .nil)

theorem keys_of_storeOperands {srcs : List Value} {operands : Operand × Operand}
    (lowered : storeOperands srcs = .ok operands) :
    ∃ n displacement value, operands = (.memAddr n displacement, value) ∧
      (n = zeroReg ∧ srcs.filterMap (valueKey false) = operandKeys false false [value] ∨
        srcs.filterMap (valueKey false) =
          ⟨.gpr, .preg n⟩ :: operandKeys false false [value]) := by
  match srcs, lowered with
  | [base, data], lowered =>
      obtain ⟨n, displacement, value, same, keys, ⟨isZero, none⟩ | some⟩ :=
        keys_of_addressed lowered
      · exact ⟨n, displacement, value, same, .inl ⟨isZero, by
          rw [keys, List.filterMap_cons_none none]⟩⟩
      · exact ⟨n, displacement, value, same, .inr (by rw [keys, List.filterMap_cons_some some])⟩
  | [base, .imm offset, data], lowered =>
      obtain ⟨n, displacement, value, same, keys, ⟨isZero, none⟩ | some⟩ :=
        keys_of_addressed lowered
      · exact ⟨n, displacement, value, same, .inl ⟨isZero, by
          rw [keys, List.filterMap_cons_none none, List.filterMap_cons_none rfl]⟩⟩
      · exact ⟨n, displacement, value, same, .inr (by
          rw [keys, List.filterMap_cons_some some, List.filterMap_cons_none rfl])⟩

theorem operandDest_reg {opcode : Opcode} (isGpr : opcode.writesGpr = true) (n : UInt8) :
    operandDest opcode (some (.reg n)) =
      (some (⟨.gpr, .preg n⟩ : RegKey)).filter (· ≠ zeroKey) := by
  unfold operandDest
  rw [isGpr, Option.filter_some]
  by_cases isZero : n = zeroReg
  · subst isZero
    rfl
  · have proper : (⟨.gpr, .preg n⟩ : RegKey) ≠ zeroKey := fun same =>
      isZero (Reg.preg.inj (RegKey.mk.inj same).2)
    simp [isZero, proper]

/-- The operands of an operation on general-purpose registers. -/
theorem names_of_general {syllable : Mir.Syllable} {asm : Asm.Syllable}
    (lowered : (do
      let dst ← (syllable.dst.toList).mapM fun reg => (gprForReg reg).map Operand.reg
      let srcs ← syllable.srcs.mapM gprOrImmOperand
      return ⟨syllable.opcode.mnemonic, dst ++ srcs⟩ : Outcome Asm.Syllable) = .ok asm)
    (noPred : syllable.opcode.writesPred = false)
    (gprSources : Mir.predicateSources syllable.opcode = false)
    (fits : (Op.syllable syllable).Fits) : Names (.syllable syllable) asm := by
  obtain ⟨dstOperands, isDst, rest⟩ := bind_eq_ok.mp lowered
  obtain ⟨operands, isSrcs, same⟩ := bind_eq_ok.mp rest
  cases same
  have scalars : syllable.srcs.mapM (predOrGprOperand · false) = .ok operands := by
    rw [← isSrcs]
    exact congrArg (syllable.srcs.mapM ·) (funext fun value => (gprOrImmOperand_eq value).symm)
  have keys : operandKeys false false operands = sourceRegKeys syllable := by
    rw [operandKeys_of_scalars scalars, sourceRegKeys_eq, gprSources]
  have mnemonic := Opcode.fromMnemonic_mnemonic syllable.opcode
  have fits : syllable.dst.isSome ↔ (syllable.opcode.writesGpr = true ∨
    syllable.opcode.writesPred = true) := fits
  rw [noPred] at fits
  cases isGpr : syllable.opcode.writesGpr with
  | true =>
      obtain ⟨reg, isReg⟩ := Option.isSome_iff_exists.mp (fits.mpr (.inl isGpr))
      rw [isReg, Option.toList_some, mapM_eq_ok_iff, List.forall₂_cons_left_iff] at isDst
      obtain ⟨operand, others, isOperand, isNil, rfl⟩ := isDst
      rw [List.forall₂_nil_left_iff] at isNil
      obtain ⟨n, physical, rfl⟩ := map_eq_ok.mp isOperand
      rw [gprForReg_eq_ok.mp physical] at isReg
      subst isNil
      have whole : operandKeys syllable.opcode.writesGpr syllable.opcode.writesPred
          (.reg n :: operands) = sourceRegKeys syllable := by
        rw [isGpr, noPred, ← keys]
        rfl
      refine .of_eq mnemonic whole ?_
      simp only [Op.opcode, Op.dest, destRegKey, isGpr, isReg]
      exact operandDest_reg isGpr n
  | false =>
      have noDst : syllable.dst = none := by
        rw [← Option.not_isSome_iff_eq_none, fits, isGpr]
        simp
      rw [noDst] at isDst
      cases isDst
      have whole : operandKeys syllable.opcode.writesGpr syllable.opcode.writesPred operands =
          sourceRegKeys syllable := by
        rw [isGpr, noPred, ← keys]
      refine .of_eq mnemonic whole ?_
      simp [operandDest, Op.opcode, Op.dest, destRegKey, isGpr, noPred]

theorem names_of_lowerSyllable {syllable : Mir.Syllable} {asm : Asm.Syllable}
    (lowered : lowerSyllable syllable = .ok asm) (fits : (Op.syllable syllable).Fits) :
    Names (.syllable syllable) asm := by
  have mnemonic : Opcode.fromMnemonic asm.opcode = some syllable.opcode := by
    rw [mnemonic_of_lowerSyllable lowered, Opcode.fromMnemonic_mnemonic]
  have writes := Opcode.writes_of_behavior syllable.opcode
  rw [lowerSyllable_eq] at lowered
  cases behavior : syllable.opcode.behavior with
  | store width =>
      have gprSources := Mir.predicateSources_of_behavior (behavior.trans_ne (by simp))
      rw [behavior] at lowered writes
      obtain ⟨noGpr, noPred⟩ := writes
      obtain ⟨operands, isStore, same⟩ := bind_eq_ok.mp lowered
      obtain ⟨n, displacement, value, rfl, keys⟩ := keys_of_storeOperands isStore
      cases same
      refine ⟨mnemonic, ?_, ?_, ?_⟩
      · simp only [Op.opcode, Op.sources, sourceRegKeys_eq, noGpr, noPred, gprSources]
        rcases keys with ⟨isZero, keys⟩ | keys
        · rw [keys, isZero]
          exact List.forall_mem_cons.mpr ⟨.inl rfl, fun key keyMem => .inr keyMem⟩
        · rw [keys]
          exact fun key keyMem => .inr keyMem
      · simp only [Op.opcode, Op.sources, sourceRegKeys_eq, noGpr, noPred, gprSources]
        rcases keys with ⟨isZero, keys⟩ | keys
        · rw [keys]
          exact fun key keyMem => List.mem_cons_of_mem _ keyMem
        · rw [keys]
          exact fun key keyMem => keyMem
      · simp [operandDest, Op.opcode, Op.dest, destRegKey, noGpr, noPred]
  | load width =>
      have gprSources := Mir.predicateSources_of_behavior (behavior.trans_ne (by simp))
      rw [behavior] at lowered writes
      obtain ⟨isGpr, noPred⟩ := writes
      obtain ⟨reg, isReg, rest⟩ := bind_eq_ok.mp lowered
      obtain ⟨dst, isDst, rest⟩ := bind_eq_ok.mp rest
      obtain ⟨addr, isAddr, same⟩ := bind_eq_ok.mp rest
      obtain ⟨n, displacement, rfl, keys⟩ := keys_of_loadAddress isAddr
      cases same
      rw [gprForReg_eq_ok.mp isDst, expect_eq_ok] at isReg
      refine ⟨mnemonic, ?_, ?_, ?_⟩
      · simp only [Op.opcode, Op.sources, sourceRegKeys_eq, isGpr, noPred, gprSources]
        rcases keys with ⟨isZero, keys⟩ | keys
        · rw [keys, isZero]
          exact List.forall_mem_cons.mpr ⟨.inl rfl, fun key keyMem => (nomatch keyMem)⟩
        · rw [keys]
          exact fun key keyMem => .inr keyMem
      · simp only [Op.opcode, Op.sources, sourceRegKeys_eq, isGpr, noPred, gprSources]
        rcases keys with ⟨isZero, keys⟩ | keys
        · rw [keys]
          exact fun key keyMem => (nomatch keyMem)
        · rw [keys]
          exact fun key keyMem => keyMem
      · simp only [Op.opcode, Op.dest, destRegKey, isGpr, isReg]
        exact operandDest_reg isGpr dst
  | test =>
      rw [behavior] at lowered writes
      obtain ⟨noGpr, isPred⟩ := writes
      obtain ⟨reg, isReg, rest⟩ := bind_eq_ok.mp lowered
      obtain ⟨dst, isDst, rest⟩ := bind_eq_ok.mp rest
      obtain ⟨operands, isSrcs, same⟩ := bind_eq_ok.mp rest
      have keys := operandKeys_of_scalars isSrcs
      cases same
      rw [predForReg_eq_ok.mp isDst, expect_eq_ok] at isReg
      have whole : operandKeys syllable.opcode.writesGpr syllable.opcode.writesPred
          (.pred dst :: operands) = sourceRegKeys syllable := by
        rw [noGpr, isPred, sourceRegKeys_eq, ← keys]
        rfl
      refine .of_eq mnemonic whole ?_
      have proper : (⟨.pred, .preg dst⟩ : RegKey) ≠ zeroKey := fun same =>
        RegClass.noConfusion (RegKey.mk.inj same).1
      simp only [operandDest, Op.opcode, Op.dest, destRegKey, noGpr, isPred, isReg,
        List.head?_cons]
      rw [if_neg Bool.false_ne_true, if_pos trivial, Option.map_some, Option.filter_some,
        if_pos (by simpa using proper)]
  | compute | acquire | release | inert =>
      have gprSources := Mir.predicateSources_of_behavior (behavior.trans_ne (by simp))
      rw [behavior] at lowered writes
      exact names_of_general lowered writes.2 gprSources fits
  | control =>
      have gprSources := Mir.predicateSources_of_behavior (behavior.trans_ne (by simp))
      rw [behavior] at lowered writes
      exact names_of_general lowered writes gprSources fits

/-- Lowered operations name their sources and their destination. -/
theorem names_of_lower {op : Op} {asm : Asm.Syllable} (lowered : op.lower = .ok asm)
    (fits : op.Fits) : Names op asm := by
  cases op with
  | syllable syllable => exact names_of_lowerSyllable lowered fits
  | terminator terminator =>
      cases terminator with
      | ret =>
          cases lowered
          exact ⟨rfl, fun key keyMem => (nomatch keyMem), fun key keyMem => (nomatch keyMem), rfl⟩
      | jump label =>
          cases lowered
          exact ⟨rfl, fun key keyMem => (nomatch keyMem), fun key keyMem => (nomatch keyMem), rfl⟩
      | branch cond label =>
          obtain ⟨pred, isPred, rfl⟩ := map_eq_ok.mp lowered
          rw [predForReg_eq_ok.mp isPred]
          exact ⟨rfl, fun key keyMem => .inr keyMem, fun key keyMem => keyMem, rfl⟩
      | directCall target cont =>
          cases lowered
          exact ⟨rfl, fun key keyMem => (nomatch keyMem), fun key keyMem => (nomatch keyMem), rfl⟩

/-! ### Ready cycles -/

/-- The ready cycle the context has for a register. -/
def CodegenCtx.ready (ctx : CodegenCtx) : RegKey → Nat
  | ⟨.gpr, .preg n⟩ => (ctx.readyGpr.lookup n).getD 0
  | ⟨.pred, .preg n⟩ => (ctx.readyPred.lookup n).getD 0
  | ⟨_, .vreg _⟩ => 0

theorem readyCycles_le {ctx : CodegenCtx} {skipGprDest skipPredDest : Bool}
    {operands : List Operand} {bound : Nat} :
    (∀ cycle ∈ ctx.readyCycles skipGprDest skipPredDest operands, cycle ≤ bound) ↔
      ∀ key ∈ operandKeys skipGprDest skipPredDest operands, ctx.ready key ≤ bound := by
  induction operands generalizing skipGprDest skipPredDest with
  | nil => simp [CodegenCtx.readyCycles, operandKeys]
  | cons operand operands ih =>
      cases operand with
      | reg n =>
          cases skipGprDest <;>
            simp [CodegenCtx.readyCycles, operandKeys, ih, CodegenCtx.ready]
      | pred n =>
          cases skipPredDest <;>
            simp [CodegenCtx.readyCycles, operandKeys, ih, CodegenCtx.ready]
      | memAddr base displacement =>
          simp [CodegenCtx.readyCycles, operandKeys, ih, CodegenCtx.ready]
      | imm value => simp [CodegenCtx.readyCycles, operandKeys, ih]
      | label label => simp [CodegenCtx.readyCycles, operandKeys, ih]

/-- Lowered operations wait for their sources and for nothing else. -/
theorem requiredCycle_eq {op : Op} {asm : Asm.Syllable} {ctx : CodegenCtx} (names : Names op asm)
    (zero : ctx.ready zeroKey = 0) :
    ctx.requiredCycleForSources op.opcode asm = (op.sources.map ctx.ready).foldl max 0 := by
  refine eq_of_forall_ge_iff fun bound => ?_
  unfold CodegenCtx.requiredCycleForSources
  rw [InOrder.foldl_max_le, InOrder.foldl_max_le, readyCycles_le, List.forall_mem_map]
  refine and_congr_right fun _ => ⟨fun all key keyMem => all key (names.source key keyMem),
    fun all key keyMem => ?_⟩
  rcases names.read key keyMem with rfl | isSource
  · rw [zero]
    exact Nat.zero_le bound
  · exact all key isSource

theorem ready_insert_gpr (ctx : CodegenCtx) (n : UInt8) (cycle : Nat) (key : RegKey) :
    ({ ctx with readyGpr := ctx.readyGpr.insert n cycle } : CodegenCtx).ready key =
      if some (⟨.gpr, .preg n⟩ : RegKey) = some key then cycle else ctx.ready key := by
  match key with
  | ⟨.gpr, .preg m⟩ =>
      by_cases same : m = n
      · subst same
        simp [CodegenCtx.ready]
      · simp [CodegenCtx.ready, AList.lookup_insert_ne same, Ne.symm same]
  | ⟨.pred, .preg m⟩ => simp [CodegenCtx.ready]
  | ⟨cls, .vreg m⟩ => simp [CodegenCtx.ready]

theorem ready_insert_pred (ctx : CodegenCtx) (n : UInt8) (cycle : Nat) (key : RegKey) :
    ({ ctx with readyPred := ctx.readyPred.insert n cycle } : CodegenCtx).ready key =
      if some (⟨.pred, .preg n⟩ : RegKey) = some key then cycle else ctx.ready key := by
  match key with
  | ⟨.gpr, .preg m⟩ => simp [CodegenCtx.ready]
  | ⟨.pred, .preg m⟩ =>
      by_cases same : m = n
      · subst same
        simp [CodegenCtx.ready]
      · simp [CodegenCtx.ready, AList.lookup_insert_ne same, Ne.symm same]
  | ⟨cls, .vreg m⟩ => simp [CodegenCtx.ready]

/-- The ready cycles after a result. -/
theorem ready_recordResult (ctx : CodegenCtx) (opcode : Opcode) (operand : Option Operand)
    (key : RegKey) :
    (ctx.recordResult opcode operand).ready key =
      if operandDest opcode operand = some key then ctx.cycle + opcode.latency
      else ctx.ready key := by
  unfold CodegenCtx.recordResult operandDest
  cases opcode.writesGpr <;> cases opcode.writesPred <;> rcases operand with _ | operand <;>
    try rfl
  all_goals cases operand <;> try rfl
  · exact ready_insert_pred ctx _ _ key
  · rename_i n
    dsimp only
    by_cases proper : n ≠ zeroReg
    · simp only [if_pos proper]
      exact ready_insert_gpr ctx n _ key
    · simp only [if_neg proper]
      rfl
  · rename_i n
    dsimp only
    by_cases proper : n ≠ zeroReg
    · simp only [if_pos proper]
      exact ready_insert_gpr ctx n _ key
    · simp only [if_neg proper]
      rfl
  · exact ready_insert_pred ctx _ _ key

theorem cycle_recordResult (ctx : CodegenCtx) (opcode : Opcode) (operand : Option Operand) :
    (ctx.recordResult opcode operand).cycle = ctx.cycle := by
  unfold CodegenCtx.recordResult
  dsimp only
  repeat' split
  all_goals rfl

/-! ### Emission of one operation -/

theorem Op.dest_ne_zero (op : Op) : op.dest ≠ some zeroKey := by
  cases op with
  | syllable body =>
      intro isZero
      have proper := (Option.filter_eq_some_iff.mp isZero).2
      simp at proper
  | terminator terminator => exact fun isZero => nomatch isZero

/-- Emit an operation. -/
def CodegenCtx.emitOp (ctx : CodegenCtx) (program : Program) : Op → Outcome (CodegenCtx × Program)
  | .syllable body => ctx.emitSyllable program body
  | .terminator terminator => ctx.emitTerminator program terminator

/-- The context has seen the operations `ops`, issued at the cycles `cycles`. -/
structure Tracks (ops : List Op) (cycles : List Nat) (ctx : CodegenCtx) : Prop where
  cycle : ctx.cycle = nextCycle cycles
  ready : ∀ key, ctx.ready key = readyAt (ops.map Op.issue) cycles ops.length key
  zero : ctx.ready zeroKey = 0

theorem tracks_start : Tracks [] [] {} where
  cycle := rfl
  ready key := by
    match key with
    | ⟨.gpr, .preg _⟩ => rfl
    | ⟨.pred, .preg _⟩ => rfl
    | ⟨.gpr, .vreg _⟩ => rfl
    | ⟨.pred, .vreg _⟩ => rfl
  zero := rfl

theorem emitAsmSyllableInSlot_eq {ctx ctx' : CodegenCtx} {program program' : Program}
    {opcode : Opcode} {asm : Asm.Syllable} {slot : Nat}
    (emitted : ctx.emitAsmSyllableInSlot program opcode asm slot = .ok (ctx', program')) :
    ∃ bundle : Bundle, bundle.syllables = [asm] ∧
      program' = appendBundles program (List.replicate
        (ctx.requiredCycleForSources opcode asm - ctx.cycle) ⟨[]⟩ ++ [bundle]) ∧
      ctx'.cycle = max ctx.cycle (ctx.requiredCycleForSources opcode asm) + 1 ∧
      ∀ key, ctx'.ready key = if operandDest opcode asm.operands.head? = some key
        then max ctx.cycle (ctx.requiredCycleForSources opcode asm) + opcode.latency
        else ctx.ready key := by
  unfold CodegenCtx.emitAsmSyllableInSlot at emitted
  split at emitted
  · obtain ⟨bundle, built, same⟩ := bind_eq_ok.mp emitted
    obtain ⟨only, -⟩ := syllables_bundleWith built
    cases same
    refine ⟨bundle, only, by simp [appendBundles], ?_, fun key => ?_⟩
    · simp only [cycle_recordResult]
    · exact ready_recordResult _ opcode asm.operands.head? key
  · cases emitted

theorem emitOp_eq {ctx ctx' : CodegenCtx} {program program' : Program} {op : Op}
    (emitted : ctx.emitOp program op = .ok (ctx', program')) :
    ∃ (asm : Asm.Syllable) (slot : Nat), op.lower = .ok asm ∧
      ctx.emitAsmSyllableInSlot program op.opcode asm slot = .ok (ctx', program') := by
  cases op with
  | syllable syllable =>
      obtain ⟨asm, lowered, rest⟩ := bind_eq_ok.mp emitted
      obtain ⟨slot, -, placed⟩ := bind_eq_ok.mp rest
      exact ⟨asm, slot, lowered, placed⟩
  | terminator terminator =>
      cases terminator with
      | ret =>
          obtain ⟨slot, -, placed⟩ := bind_eq_ok.mp emitted
          exact ⟨_, slot, rfl, placed⟩
      | jump label =>
          obtain ⟨slot, -, placed⟩ := bind_eq_ok.mp emitted
          exact ⟨_, slot, rfl, placed⟩
      | branch cond label =>
          obtain ⟨pred, isPred, rest⟩ := bind_eq_ok.mp emitted
          obtain ⟨slot, -, placed⟩ := bind_eq_ok.mp rest
          exact ⟨_, slot, map_eq_ok.mpr ⟨pred, isPred, rfl⟩, placed⟩
      | directCall target cont =>
          obtain ⟨slot, -, placed⟩ := bind_eq_ok.mp emitted
          exact ⟨_, slot, rfl, placed⟩

/-- Inside a function, the bundles since its start are those of its operations so
far. -/
def Emitting (start : List Bundle) (ops : List Op) (ctx : CodegenCtx) (program : Program) : Prop :=
  ∃ cycles bundles, InOrderBundles ops cycles bundles ∧ Tracks ops cycles ctx ∧
    programBundles program.items = start ++ bundles

/-- One more operation is issued at the next cycle at which its sources are ready. -/
theorem InOrderBundles.append {ops : List Op} {cycles : List Nat} {bundles : List Bundle} {op : Op}
    {asm : Asm.Syllable} {bundle : Bundle} {required : Nat}
    (before : InOrderBundles ops cycles bundles) (lowered : op.lower = .ok asm)
    (only : bundle.syllables = [asm])
    (isCycle : max bundles.length required =
      issueCycle (ops.map Op.issue) cycles ops.length op.sources) :
    InOrderBundles (ops ++ [op]) (cycles ++ [max bundles.length required])
      (bundles ++ (List.replicate (required - bundles.length) ⟨[]⟩ ++ [bundle])) where
  schedule := by
    have schedule := before.schedule.append op.issue
    rw [List.length_map] at schedule
    rw [List.map_append, isCycle]
    exact schedule
  length := by
    simp only [List.length_append, List.length_replicate, List.length_singleton, nextCycle_append]
    omega
  issued := by
    have sameLength : cycles.length = ops.length := by simpa using before.schedule.length
    intro count cycle other isCycle isOp
    by_cases inside : count < ops.length
    · rw [List.getElem?_append_left (by omega)] at isCycle isOp
      obtain ⟨asm, found, lowered, isFound, only⟩ := before.issued count cycle other isCycle isOp
      have bound := (List.getElem?_eq_some_iff.mp isFound).1
      exact ⟨asm, found, lowered, by rw [List.getElem?_append_left bound, isFound], only⟩
    · have isLast : count = ops.length := by
        have bound := (List.getElem?_eq_some_iff.mp isOp).1
        rw [List.length_append, List.length_singleton] at bound
        omega
      rw [isLast, List.getElem?_concat_length] at isOp
      rw [isLast, ← sameLength, List.getElem?_concat_length] at isCycle
      cases isOp
      cases isCycle
      refine ⟨asm, bundle, lowered, ?_, only⟩
      rw [List.getElem?_append_right (by omega), List.getElem?_append_right (by simp)]
      simp only [List.length_replicate]
      rw [show max bundles.length required - bundles.length - (required - bundles.length) = 0 by
        omega]
      rfl
  waits := by
    intro cycle other isOther notIssued
    rw [List.mem_append, List.mem_singleton, not_or] at notIssued
    by_cases inside : cycle < bundles.length
    · rw [List.getElem?_append_left inside] at isOther
      exact before.waits cycle other isOther notIssued.1
    · have bound := (List.getElem?_eq_some_iff.mp isOther).1
      simp only [List.length_append, List.length_replicate, List.length_singleton] at bound
      rw [List.getElem?_append_right (by omega), List.getElem?_append_left (by
        rw [List.length_replicate]
        omega), List.getElem?_replicate] at isOther
      split at isOther
      · cases isOther
        rfl
      · cases isOther
  single := by
    intro other otherMem
    simp only [List.mem_append, List.mem_replicate, List.mem_singleton] at otherMem
    rcases otherMem with before' | ⟨-, rfl⟩ | rfl
    · exact before.single other before'
    · exact Nat.zero_le 1
    · rw [only]
      exact Nat.le_refl 1
  inOrder := by
    have none : (List.replicate (required - bundles.length) (⟨[]⟩ : Bundle)).flatMap
        (·.syllables) = [] := by
      rw [List.flatMap_eq_nil_iff]
      intro other otherMem
      rw [List.eq_of_mem_replicate otherMem]
      rfl
    rw [List.flatMap_append, List.flatMap_append, none, List.nil_append, List.flatMap_singleton,
      only]
    exact List.rel_append before.inOrder (.cons lowered .nil)

theorem programBundles_appendBundles (program : Program) (bundles : List Bundle) :
    programBundles (appendBundles program bundles).items =
      programBundles program.items ++ bundles := by
  unfold appendBundles
  rw [programBundles_append, Asm.programBundles_map_bundle]

theorem Emitting.emitOp {start : List Bundle} {ops : List Op} {ctx ctx' : CodegenCtx}
    {program program' : Program} {op : Op} (before : Emitting start ops ctx program)
    (fits : op.Fits) (emitted : ctx.emitOp program op = .ok (ctx', program')) :
    Emitting start (ops ++ [op]) ctx' program' := by
  obtain ⟨cycles, bundles, inOrder, tracks, whole⟩ := before
  obtain ⟨asm, slot, lowered, placed⟩ := emitOp_eq emitted
  obtain ⟨bundle, only, rfl, isCycle, isReady⟩ := emitAsmSyllableInSlot_eq placed
  have names := names_of_lower lowered fits
  have sameLength : cycles.length = ops.length := by simpa using inOrder.schedule.length
  have required := requiredCycle_eq names tracks.zero
  have isLength : ctx.cycle = bundles.length := by rw [tracks.cycle, inOrder.length]
  have isIssue : max bundles.length (ctx.requiredCycleForSources op.opcode asm) =
      issueCycle (ops.map Op.issue) cycles ops.length op.sources := by
    rw [required, inOrder.length]
    unfold issueCycle
    rw [← sameLength, List.take_length, sameLength]
    congr 2
    exact List.map_congr_left fun key _ => tracks.ready key
  rw [isLength] at isCycle isReady ⊢
  refine ⟨_, _, inOrder.append lowered only isIssue, ⟨?_, ?_, ?_⟩, ?_⟩
  · rw [isCycle, nextCycle_append]
  · intro key
    have later := InOrder.readyAt_succ inOrder.schedule.length op.issue
      (max bundles.length (ctx.requiredCycleForSources op.opcode asm)) key
    rw [List.length_map] at later
    rw [isReady, names.dest, tracks.ready, List.map_append, List.length_append]
    exact later.symm
  · rw [isReady, names.dest, if_neg op.dest_ne_zero, tracks.zero]
  · rw [programBundles_appendBundles, whole, List.append_assoc]

/-! ### Emission of a function -/

theorem Emitting.emitSyllables {start : List Bundle} {syllables : List Mir.Syllable}
    {ops : List Op} {ctx ctx' : CodegenCtx} {program program' : Program}
    (before : Emitting start ops ctx program)
    (fits : ∀ syllable ∈ syllables, (Op.syllable syllable).Fits)
    (emitted : syllables.foldlM (fun (current : CodegenCtx × Program) syllable =>
      current.1.emitSyllable current.2 syllable) (ctx, program) = .ok (ctx', program')) :
    Emitting start (ops ++ syllables.map .syllable) ctx' program' := by
  induction syllables generalizing ops ctx program with
  | nil =>
      cases emitted
      rwa [List.map_nil, List.append_nil]
  | cons syllable syllables ih =>
      obtain ⟨fitsFirst, fitsOthers⟩ := List.forall_mem_cons.mp fits
      rw [List.foldlM_cons] at emitted
      obtain ⟨⟨ctx₁, program₁⟩, first, others⟩ := bind_eq_ok.mp emitted
      have after := ih (before.emitOp fitsFirst first) fitsOthers others
      rwa [List.append_assoc] at after

theorem Emitting.labels {start : List Bundle} {ops : List Op} {ctx : CodegenCtx}
    {program : Program} {name label : String} {index : Nat}
    (before : Emitting start ops ctx program) :
    Emitting start ops ctx { program with items := program.items ++
      ((if index = 0 then [Item.label name] else []) ++ [.label label]) } := by
  obtain ⟨cycles, bundles, inOrder, tracks, whole⟩ := before
  refine ⟨cycles, bundles, inOrder, tracks, ?_⟩
  rw [programBundles_append, whole]
  split <;> exact List.append_nil _

theorem Emitting.emitBlock {start : List Bundle} {ops : List Op} {ctx ctx' : CodegenCtx}
    {program program' : Program} {name : String} {block : Block} {index : Nat}
    (before : Emitting start ops ctx program) (fits : ∀ op ∈ blockOps block, op.Fits)
    (emitted : Codegen.emitBlock name (ctx, program) (block, index) = .ok (ctx', program')) :
    Emitting start (ops ++ blockOps block) ctx' program' := by
  obtain ⟨⟨ctx₁, program₁⟩, first, last⟩ := bind_eq_ok.mp emitted
  have body := before.labels.emitSyllables
    (fun syllable syllableMem => fits _ (List.mem_append_left _ (List.mem_map_of_mem syllableMem)))
    first
  have fitsLast : (Op.terminator block.terminator).Fits := trivial
  have after := body.emitOp fitsLast last
  rwa [List.append_assoc] at after

theorem Emitting.emitBlocks {start : List Bundle} {blocks : List Block} {offset : Nat}
    {ops : List Op} {ctx ctx' : CodegenCtx} {program program' : Program} {name : String}
    (before : Emitting start ops ctx program)
    (fits : ∀ op ∈ blocks.flatMap blockOps, op.Fits)
    (emitted : (blocks.zipIdx offset).foldlM (Codegen.emitBlock name) (ctx, program) =
      .ok (ctx', program')) :
    Emitting start (ops ++ blocks.flatMap blockOps) ctx' program' := by
  induction blocks generalizing offset ops ctx program with
  | nil =>
      cases emitted
      rwa [List.flatMap_nil, List.append_nil]
  | cons block blocks ih =>
      rw [List.flatMap_cons, List.forall_mem_append] at fits
      rw [List.zipIdx_cons, List.foldlM_cons] at emitted
      obtain ⟨⟨ctx₁, program₁⟩, first, others⟩ := bind_eq_ok.mp emitted
      have after := ih (before.emitBlock fits.1 first) fits.2 others
      rwa [List.append_assoc, ← List.flatMap_cons] at after

theorem inOrderBundles_nil : InOrderBundles [] [] [] where
  schedule := InOrder.isSchedule_nil
  length := rfl
  issued _ _ _ isCycle _ := nomatch isCycle
  waits _ _ isBundle _ := nomatch isBundle
  single _ bundleMem := nomatch bundleMem
  inOrder := .nil

theorem inOrderBundles_of_emitFunction {program program' : Program} {function : Function}
    (fits : DestinationsFit function) (emitted : emitFunction program function = .ok program') :
    ∃ cycles bundles, InOrderBundles (functionOps function) cycles bundles ∧
      programBundles program'.items = programBundles program.items ++ bundles := by
  obtain ⟨⟨ctx, other⟩, blocks, same⟩ := bind_eq_ok.mp emitted
  cases same
  have before : Emitting (programBundles program.items) [] {} program :=
    ⟨[], [], inOrderBundles_nil, tracks_start, (List.append_nil _).symm⟩
  obtain ⟨cycles, bundles, inOrder, -, whole⟩ := before.emitBlocks fits blocks
  exact ⟨cycles, bundles, inOrder, whole⟩

/-! ### Emission of a module -/

/-- The bundles of a module are those of its functions, each issued in order and as
early as its sources allow. -/
def InOrderModule (functions : List Function) (bundles : List Bundle) : Prop :=
  ∃ parts : List (List Bundle), bundles = parts.flatten ∧
    List.Forall₂ (fun function part => ∃ cycles, InOrderBundles (functionOps function) cycles part)
      functions parts

theorem InOrderModule.append {functions : List Function} {bundles part : List Bundle}
    {function : Function} {cycles : List Nat} (before : InOrderModule functions bundles)
    (inOrder : InOrderBundles (functionOps function) cycles part) :
    InOrderModule (functions ++ [function]) (bundles ++ part) := by
  obtain ⟨parts, rfl, related⟩ := before
  refine ⟨parts ++ [part], by simp, List.rel_append related (.cons ⟨cycles, inOrder⟩ .nil)⟩

theorem inOrderModule_of_emitFunctions {done functions : List Function} {program program' : Program}
    (before : InOrderModule done (programBundles program.items))
    (fits : ∀ function ∈ functions, DestinationsFit function)
    (emitted : functions.foldlM emitFunction program = .ok program') :
    InOrderModule (done ++ functions) (programBundles program'.items) := by
  induction functions generalizing done program with
  | nil =>
      cases emitted
      rwa [List.append_nil]
  | cons function functions ih =>
      obtain ⟨fitsFirst, fitsOthers⟩ := List.forall_mem_cons.mp fits
      rw [List.foldlM_cons] at emitted
      obtain ⟨program₁, first, others⟩ := bind_eq_ok.mp emitted
      obtain ⟨cycles, bundles, inOrder, whole⟩ := inOrderBundles_of_emitFunction fitsFirst first
      have next := before.append inOrder
      rw [← whole] at next
      have after := ih next fitsOthers others
      rwa [List.append_assoc] at after

theorem inOrderModule_of_scalarProgram {functions : List Function} {processor : Processor}
    {program : Program} (fits : ∀ function ∈ functions, DestinationsFit function)
    (emitted : scalarProgram functions processor = .ok program) :
    InOrderModule functions (programBundles program.items) :=
  inOrderModule_of_emitFunctions ⟨[], rfl, .nil⟩ fits emitted

/-- Scalar emission issues the operations of every function in order, each one as
soon as its sources are ready, and pads with empty bundles in between. -/
theorem scalarProgram_inOrder {functions : List Function} {processor : Processor}
    {program : Program} (fits : ∀ function ∈ functions, DestinationsFit function)
    (emitted : scalarProgram functions processor = .ok program) :
    InOrderModule functions (programBundles program.items) :=
  inOrderModule_of_scalarProgram fits emitted

theorem scalarProgram_inOrder_branchingModule :
    ∃ program, scalarProgram branchingModule Processor.default = .ok program ∧
      InOrderModule branchingModule (programBundles program.items) := by
  obtain ⟨program, emitted⟩ : ∃ program,
      scalarProgram branchingModule Processor.default = .ok program :=
    exists_of_isOk (by decide +kernel)
  refine ⟨program, emitted, scalarProgram_inOrder ?_ emitted⟩
  unfold DestinationsFit
  decide

end VliwCompiler.Codegen
