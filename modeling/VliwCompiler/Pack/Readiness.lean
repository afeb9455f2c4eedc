import VliwCompiler.Pack.Places

/-!
# The three readiness models

The scheduler computes ready cycles from MIR syllables, scalar emission from
lowered syllables, and the packer checks bundles.  On lowered syllables the three
see the same sources and the same destination.
-/

namespace VliwCompiler.Pack

open Asm (Opcode Operand Bundle Program)
open Codegen (CodegenCtx Op Names operandKeys operandDest zeroKey lowerSyllable)
open Schedule (ReadyState RegKey syllableRequiredCycle updateReadyAfterMirSyllable sourceRegKeys
  destRegKey)

/-! ### The models -/

/-- The scheduler, scalar emission and the packer treat a MIR syllable and its
lowered form alike: they wait for the same cycle and record the same result. -/
structure ReadinessAgrees (syllable : Mir.Syllable) (asm : Asm.Syllable) (ready : ReadyState) :
    Prop where
  required : ∀ ctx, tableOf ctx = ready →
    ctx.requiredCycleForSources syllable.opcode asm = syllableRequiredCycle syllable ready
  sourcesReady : ∀ cycle, sourcesReadyAt syllable.opcode asm cycle ready = true ↔
    syllableRequiredCycle syllable ready ≤ cycle
  bundle : ∀ (bundle : Bundle) cycle, bundle.syllables = [asm] →
    updateReadyAfterBundle bundle cycle ready = updateReadyAfterMirSyllable syllable cycle ready
  emission : ∀ ctx ctx' program program' slot, tableOf ctx = ready →
    ctx.emitAsmSyllableInSlot program syllable.opcode asm slot = .ok (ctx', program') →
      tableOf ctx' = updateReadyAfterMirSyllable syllable
        (max ctx.cycle (syllableRequiredCycle syllable ready)) ready

/-! ### Waiting -/

theorem syllableRequiredCycle_eq (syllable : Mir.Syllable) (ready : ReadyState) :
    syllableRequiredCycle syllable ready =
      ((Op.syllable syllable).sources.map (readyKey ready)).foldl max 0 := by
  unfold syllableRequiredCycle Op.sources
  congr 1
  refine List.map_congr_left fun key _ => ?_
  rcases key with ⟨_ | _, _ | _⟩
  all_goals rfl

/-- The packer lets a syllable issue exactly when its sources are ready. -/
theorem sourcesReadyAt_iff {syllable : Mir.Syllable} {asm : Asm.Syllable} {ready : ReadyState}
    (names : Names (.syllable syllable) asm) (zero : readyKey ready zeroKey = 0) (cycle : Nat) :
    sourcesReadyAt syllable.opcode asm cycle ready = true ↔
      syllableRequiredCycle syllable ready ≤ cycle := by
  unfold sourcesReadyAt
  rw [operandsReadyAt_iff, syllableRequiredCycle_eq, InOrder.foldl_max_le, List.forall_mem_map]
  constructor
  · exact fun all => ⟨Nat.zero_le cycle, fun key isSource => all key (names.source key isSource)⟩
  · rintro ⟨-, all⟩ key isRead
    rcases names.read key isRead with rfl | isSource
    · rw [zero]
      exact Nat.zero_le cycle
    · exact all key isSource

/-! ### Recording results -/

/-- The table after a result of the given register. -/
def recordKey (ready : ReadyState) (cycle : Nat) : Option RegKey → ReadyState
  | some ⟨.gpr, .preg n⟩ => { ready with gpr := ready.gpr.insert n cycle }
  | some ⟨.pred, .preg n⟩ => { ready with pred := ready.pred.insert n cycle }
  | _ => ready

theorem updateReadyAfterMirSyllable_eq (syllable : Mir.Syllable) (cycle : Nat)
    (ready : ReadyState) :
    updateReadyAfterMirSyllable syllable cycle ready =
      recordKey ready (cycle + syllable.opcode.latency) (Op.syllable syllable).dest := by
  unfold updateReadyAfterMirSyllable
  rw [Op.dest]
  rcases destRegKey syllable with _ | ⟨_ | _, reg | reg⟩
  · rfl
  · rfl
  · by_cases isZero : reg = zeroReg
    · subst isZero
      rfl
    · have proper : (⟨.gpr, .preg reg⟩ : RegKey) ≠ zeroKey := by
        intro same
        exact isZero (Mir.Reg.preg.inj (RegKey.mk.inj same).2)
      rw [Option.filter_some, if_pos (decide_eq_true proper)]
      exact if_pos isZero
  · rfl
  · rfl

theorem tableOf_recordResult (ctx : CodegenCtx) (opcode : Opcode) (operand : Option Operand) :
    tableOf (ctx.recordResult opcode operand) =
      recordKey (tableOf ctx) (ctx.cycle + opcode.latency) (operandDest opcode operand) := by
  unfold CodegenCtx.recordResult operandDest
  cases opcode.writesGpr <;> cases opcode.writesPred <;> rcases operand with _ | operand <;>
    try rfl
  all_goals cases operand <;> try rfl
  all_goals
    dsimp only
    split <;> rfl

/-! ### Agreement -/

/-- On every lowered syllable the three readiness models agree. -/
theorem readiness_models_agree {syllable : Mir.Syllable} {asm : Asm.Syllable}
    (lowered : lowerSyllable syllable = .ok asm)
    (fits : syllable.dst.isSome ↔
      (syllable.opcode.writesGpr = true ∨ syllable.opcode.writesPred = true))
    {ready : ReadyState} (noZero : ready.gpr.lookup zeroReg = none) :
    ReadinessAgrees syllable asm ready := by
  have names : Names (.syllable syllable) asm := Codegen.names_of_lowerSyllable lowered fits
  have zero : readyKey ready zeroKey = 0 := by
    change (ready.gpr.lookup zeroReg).getD 0 = 0
    rw [noZero]
    rfl
  have required : ∀ ctx, tableOf ctx = ready →
      ctx.requiredCycleForSources syllable.opcode asm = syllableRequiredCycle syllable ready := by
    rintro ctx rfl
    have keys : ∀ key, readyKey (tableOf ctx) key = ctx.ready key := readyKey_eq _ ctx.cycle
    rw [syllableRequiredCycle_eq, List.map_congr_left fun key _ => keys key]
    exact Codegen.requiredCycle_eq names (by rw [← keys, zero])
  exact
    { required := required
      sourcesReady := sourcesReadyAt_iff names zero
      bundle := by
        intro bundle cycle only
        unfold updateReadyAfterBundle
        rw [only, List.foldl_cons, List.foldl_nil,
          updateReadyAfterSyllable_eq cycle ready names.mnemonic, tableOf_recordResult,
          updateReadyAfterMirSyllable_eq, ← names.dest]
        rfl
      emission := by
        rintro ctx ctx' program program' slot isTable emitted
        unfold CodegenCtx.emitAsmSyllableInSlot at emitted
        split at emitted
        · obtain ⟨bundle, built, same⟩ := bind_eq_ok.mp emitted
          cases same
          rw [updateReadyAfterMirSyllable_eq, ← names.dest, ← required ctx isTable, ← isTable]
          exact tableOf_recordResult _ syllable.opcode asm.operands.head?
        · cases emitted }

/-- A load from the stack, whose lowered address has `r0` as base. -/
theorem readiness_models_agree_load :
    let syllable : Mir.Syllable := ⟨.loadD, some (.preg 5), [.stack 64, .imm 8]⟩
    lowerSyllable syllable = .ok ⟨"ldd", [.reg 5, .memAddr 0 72]⟩ ∧
      ReadinessAgrees syllable ⟨"ldd", [.reg 5, .memAddr 0 72]⟩
        ⟨(∅ : HashMap UInt8 Nat).insert 5 9, ∅⟩ := by
  have lowered : lowerSyllable ⟨.loadD, some (.preg 5), [.stack 64, .imm 8]⟩ =
      .ok ⟨"ldd", [.reg 5, .memAddr 0 72]⟩ := by
    decide +kernel
  exact ⟨lowered, readiness_models_agree lowered (by decide) rfl⟩

end VliwCompiler.Pack
