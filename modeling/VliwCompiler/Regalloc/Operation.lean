import VliwCompiler.Regalloc.Rewrite
import VliwCompiler.Machine.Rebind
import VliwCompiler.Schedule.Meaning

/-!
# Operations on physical registers

The operation left of a rewritten syllable computes what the syllable computes,
and it disturbs no other value.
-/

namespace VliwCompiler.Regalloc

open Asm (Opcode I64)
open Mir (Reg Value Syllable Terminator execSyllables predicateSources)
open Allocator (allocatable)
open Machine

/-- A register with its virtual index replaced. -/
def renameReg (rename : Nat → UInt8) : Reg → Reg
  | .vreg v => .preg (rename v)
  | .preg preg => .preg preg

theorem source_renameValue (rename : Nat → UInt8) (predSrc : Bool) (value : Value) :
    (renameValue rename value).source predSrc =
      (value.source predSrc).map (Source.map (renameReg rename)) := by
  cases value with
  | reg reg => cases reg <;> cases predSrc <;> rfl
  | imm value => rfl
  | stack address => rfl

theorem address_renameValue (rename : Nat → UInt8) (base : Value) (offset : Word) :
    (renameValue rename base).address offset =
      (renameReg rename (base.address offset).1, (base.address offset).2) := by
  cases base with
  | reg reg => cases reg <;> rfl
  | imm value => rfl
  | stack address => rfl

theorem loadAddress_renamed (rename : Nat → UInt8) (srcs : List Value) :
    Mir.loadAddress (srcs.map (renameValue rename)) =
      (Mir.loadAddress srcs).map fun address => (renameReg rename address.1, address.2) := by
  match srcs with
  | [] => rfl
  | [base] => exact congrArg some (address_renameValue rename base 0)
  | [base, .imm offset] => exact congrArg some (address_renameValue rename base offset)
  | [_, .reg (.vreg _)] | [_, .reg (.preg _)] | [_, .stack _] => rfl
  | _ :: _ :: _ :: _ => simp [Mir.loadAddress]

theorem storeOperands_renamed (rename : Nat → UInt8) (srcs : List Value) :
    Mir.storeOperands (srcs.map (renameValue rename)) =
      (Mir.storeOperands srcs).map fun operands =>
        ((renameReg rename operands.1.1, operands.1.2), renameValue rename operands.2) := by
  match srcs with
  | [] | [_] => rfl
  | [base, data] =>
      simp only [Mir.storeOperands, List.map_cons, List.map_nil, Option.map_some,
        address_renameValue]
  | [base, .imm offset, data] =>
      exact congrArg (fun address => some (address, renameValue rename data))
        (address_renameValue rename base offset)
  | [_, .reg (.vreg _), _] | [_, .reg (.preg _), _] | [_, .stack _, _] => rfl
  | _ :: _ :: _ :: _ :: _ => simp [Mir.storeOperands]

theorem scalars_renamed (rename : Nat → UInt8) (predSrc : Bool) (srcs : List Value) :
    (srcs.map (renameValue rename)).mapM (Value.source predSrc) =
      (srcs.mapM (Value.source predSrc)).map (·.map (Source.map (renameReg rename))) := by
  induction srcs with
  | nil => rfl
  | cons value srcs ih =>
      rw [List.map_cons, List.mapM_cons, List.mapM_cons, ih, source_renameValue]
      cases value.source predSrc with
      | none => rfl
      | some source =>
          cases srcs.mapM (Value.source predSrc) with
          | none => rfl
          | some sources => rfl

/-- The action of a syllable on other registers. -/
theorem action_renamed (rename : Nat → UInt8) (dst : Reg → Reg) (syllable : Syllable) :
    Syllable.action ⟨syllable.opcode, syllable.dst.map dst,
        syllable.srcs.map (renameValue rename)⟩ =
      syllable.action.map (Action.rebind (renameReg rename) dst) := by
  unfold Syllable.action
  simp only [scalars_renamed, loadAddress_renamed, storeOperands_renamed]
  cases syllable.opcode.behavior with
  | compute => simp [Option.map_map, Function.comp_def, Action.rebind]
  | test => simp [Option.map_map, Function.comp_def, Action.rebind]
  | load width => simp [Option.map_map, Function.comp_def, Action.rebind]
  | store width =>
      cases Mir.storeOperands syllable.srcs with
      | none => rfl
      | some operands =>
          simp [source_renameValue, Option.map_map, Function.comp_def, Action.rebind]
  | acquire => simp [Option.map_map, Function.comp_def, Action.rebind]
  | release => simp [Option.map_map, Function.comp_def, Action.rebind]
  | inert => simp [Option.map_map, Function.comp_def, Action.rebind]
  | control => rfl

/-! ### Operands and destinations -/

/-- Every operand of an action is a register operand of the syllable, the zero
register or an immediate. -/
theorem source_cases {syllable : Syllable} {action : Action Opcode Reg}
    (denotes : syllable.action = some action) {operand : Source Reg}
    (isSource : operand ∈ action.sources) :
    (∃ value, operand = .imm value) ∨ operand = .gpr 0 ∨
      ∃ reg, .reg reg ∈ syllable.srcs ∧
        operand = if predicateSources syllable.opcode then .pred reg else .gpr reg := by
  have covers := Schedule.covers_action denotes
  have registers : ∀ (cls : Schedule.RegClass) reg,
      ⟨cls, reg⟩ ∈ Schedule.sourceRegKeys syllable → .reg reg ∈ syllable.srcs ∧
        cls = if predicateSources syllable.opcode then .pred else .gpr := by
    intro cls reg keyMem
    obtain ⟨value, valueMem, isKey⟩ := List.mem_filterMap.mp keyMem
    cases value with
    | reg other =>
        simp only [Option.some.injEq, Schedule.RegKey.mk.injEq] at isKey
        exact ⟨isKey.2 ▸ valueMem, isKey.1.symm⟩
    | imm value => cases isKey
    | stack address => cases isKey
  cases operand with
  | imm value => exact .inl ⟨value, rfl⟩
  | gpr reg =>
      by_cases isZero : reg = 0
      · exact .inr (.inl (by rw [isZero]))
      · obtain ⟨regMem, isClass⟩ := registers _ reg (covers.gprSource reg isSource isZero)
        refine .inr (.inr ⟨reg, regMem, ?_⟩)
        split at isClass
        · cases isClass
        · rename_i notPred
          rw [if_neg notPred]
  | pred reg =>
      obtain ⟨regMem, isClass⟩ := registers _ reg (covers.predSource reg isSource)
      refine .inr (.inr ⟨reg, regMem, ?_⟩)
      split at isClass
      · rename_i isPred
        rw [if_pos isPred]
      · cases isClass

/-- The destination of an action is that of the syllable. -/
theorem dst_action {syllable : Syllable} {action : Action Opcode Reg}
    (denotes : syllable.action = some action) :
    (syllable.opcode.writesGpr = true → action.gprDst = syllable.dst ∧ action.predDst = none) ∧
      (syllable.opcode.writesPred = true → action.predDst = syllable.dst ∧
        action.gprDst = none) := by
  have here := Opcode.writes_of_behavior syllable.opcode
  unfold Syllable.action at denotes
  simp only at denotes
  cases behavior : syllable.opcode.behavior with
  | control => simp [behavior] at denotes
  | store width =>
      rw [behavior] at here
      simp [here]
  | release =>
      rw [behavior] at here
      simp [here]
  | inert =>
      rw [behavior] at here
      simp [here]
  | compute =>
      rw [behavior] at here denotes
      obtain ⟨sources, -, rfl⟩ := Option.map_eq_some_iff.mp denotes
      exact ⟨fun _ => ⟨rfl, rfl⟩, fun writes => absurd (writes.symm.trans here.2) (by decide)⟩
  | load width =>
      rw [behavior] at here denotes
      obtain ⟨sources, -, rfl⟩ := Option.map_eq_some_iff.mp denotes
      exact ⟨fun _ => ⟨rfl, rfl⟩, fun writes => absurd (writes.symm.trans here.2) (by decide)⟩
  | acquire =>
      rw [behavior] at here denotes
      obtain ⟨sources, -, rfl⟩ := Option.map_eq_some_iff.mp denotes
      exact ⟨fun _ => ⟨rfl, rfl⟩, fun writes => absurd (writes.symm.trans here.2) (by decide)⟩
  | test =>
      rw [behavior] at here denotes
      obtain ⟨sources, -, rfl⟩ := Option.map_eq_some_iff.mp denotes
      exact ⟨fun writes => absurd (writes.symm.trans here.1) (by decide), fun _ => ⟨rfl, rfl⟩⟩

/-- Only the destination of the syllable is written. -/
theorem dst_of_action {syllable : Syllable} {action : Action Opcode Reg}
    (denotes : syllable.action = some action) {reg : Reg}
    (written : action.gprDst = some reg ∨ action.predDst = some reg) :
    syllable.dst = some reg := by
  have covers := Schedule.covers_action denotes
  have ofKey : ∀ cls, Schedule.destRegKey syllable = some ⟨cls, reg⟩ → syllable.dst = some reg := by
    intro cls isKey
    unfold Schedule.destRegKey at isKey
    split at isKey
    · obtain ⟨other, isDst, same⟩ := Option.map_eq_some_iff.mp isKey
      cases same
      exact isDst
    · split at isKey
      · obtain ⟨other, isDst, same⟩ := Option.map_eq_some_iff.mp isKey
        cases same
        exact isDst
      · cases isKey
  rcases written with gpr | pred
  · exact ofKey _ (covers.gprDst reg gpr)
  · exact ofKey _ (covers.predDst reg pred)

/-! ### Values kept by an operation -/

/-- An operation keeps a value whose register it does not write, if it does not
write to the spill area. -/
theorem word?_exec {limit : Nat} {alloc : Allocator} (pool : Pool limit alloc) (isa : Isa Opcode)
    (action : Action Opcode Reg) (state : State Reg) {v : Nat}
    (otherReg : ∀ preg, alloc.assigned.lookup v = some preg → action.gprDst ≠ some (.preg preg))
    (otherMem : ∀ cell ∈ spillArea alloc.spillBase limit, cell ∉ action.memWrites state) :
    alloc.word? (action.exec isa state) v = alloc.word? state v := by
  unfold Allocator.word?
  cases bound : alloc.assigned.lookup v with
  | some preg => simp only [Action.exec_gpr_of_ne isa action state (otherReg preg bound)]
  | none =>
      cases isSlot : alloc.spillSlots.lookup v with
      | none => simp only [Option.map_none]
      | some slot =>
          obtain ⟨k, less, rfl⟩ := pool.slots isSlot
          have inside : k < limit := Nat.lt_of_lt_of_le less pool.nextSpillSlot_le
          simp only [Option.map_some, Option.some.injEq]
          refine Memory.read_congr fun cell cellMem => ?_
          exact Action.exec_mem_of_notMem isa action state (otherMem cell ⟨k, inside, cellMem⟩)

/-- The renaming of destinations: virtual registers become `preg`. -/
theorem Rewritten.dst_eq {keeps : Prop} {limit : Nat} {alloc alloc' : Allocator} {syllable : Syllable}
    {blockIdx pos : Nat} {code : List Syllable} {rename : Nat → UInt8} {dst : Option Reg}
    (rewritten : Rewritten keeps limit alloc syllable blockIdx pos code rename dst alloc') :
    ∃ preg, dst = syllable.dst.map (renameReg fun _ => preg) ∧
      ∀ d, syllable.dstVreg = some d → preg ∈ allocatable ∧
        (∀ v, v ≠ d → alloc'.assigned.lookup v ≠ some preg) ∧
        alloc'.assigned.lookup d =
          if alloc.needsAfter d blockIdx pos then some preg else none := by
  cases isDst : syllable.dstVreg with
  | none =>
      refine ⟨0, ?_, fun d same => by cases same⟩
      rw [rewritten.fixedDst isDst]
      cases found : syllable.dst with
      | none => rfl
      | some reg =>
          cases reg with
          | vreg v =>
              rw [Mir.Syllable.dstVreg_eq_some.mpr found] at isDst
              cases isDst
          | preg p => rfl
  | some d =>
      obtain ⟨preg, inside, isPreg, apart, bound, -⟩ := rewritten.vregDst d isDst
      refine ⟨preg, ?_, ?_⟩
      · rw [isPreg, Mir.Syllable.dstVreg_eq_some.mp isDst]
        rfl
      · rintro other ⟨⟩
        exact ⟨inside, apart, bound⟩

/-! ### Simulation of one syllable -/

/-- The fixed registers of a syllable are not available to the allocator. -/
structure FixedOutside (syllable : Syllable) : Prop where
  sources : ∀ preg, .reg (.preg preg) ∈ syllable.srcs → preg ∉ allocatable
  dst : ∀ preg, syllable.dst = some (.preg preg) → preg ∉ allocatable

/-- A register the allocator does not hand out. -/
def regOutside : Reg → Bool
  | .vreg _ => true
  | .preg preg => preg ∉ allocatable

/-- An operand without a register the allocator hands out. -/
def valueOutside : Value → Bool
  | .reg reg => regOutside reg
  | _ => true

instance (syllable : Syllable) : Decidable (FixedOutside syllable) :=
  decidable_of_iff ((∀ value ∈ syllable.srcs, valueOutside value) ∧
      ∀ reg ∈ syllable.dst, regOutside reg) <| by
    constructor
    · rintro ⟨sources, dst⟩
      exact ⟨fun preg isSource => of_decide_eq_true (sources _ isSource),
        fun preg isDst => of_decide_eq_true (dst _ isDst)⟩
    · intro fixed
      refine ⟨fun value isSource => ?_, fun reg isDst => ?_⟩
      · match value with
        | .reg (.preg preg) => exact decide_eq_true (fixed.sources preg isSource)
        | .reg (.vreg _) | .imm _ | .stack _ => rfl
      · match reg with
        | .preg preg => exact decide_eq_true (fixed.dst preg isDst)
        | .vreg _ => rfl

/-- Virtual registers are used in the class `isPred` gives them. -/
structure Typed (isPred : Nat → Prop) (syllable : Syllable) : Prop where
  sources : ∀ v ∈ syllable.sourceVregs, isPred v ↔ predicateSources syllable.opcode = true
  dst : ∀ d, syllable.dstVreg = some d → (isPred d ↔ syllable.opcode.writesPred = true)

instance (isPred : Nat → Prop) [DecidablePred isPred] (syllable : Syllable) :
    Decidable (Typed isPred syllable) :=
  decidable_of_iff ((∀ v ∈ syllable.sourceVregs,
      isPred v ↔ predicateSources syllable.opcode = true) ∧
      ∀ d, syllable.dstVreg = some d → (isPred d ↔ syllable.opcode.writesPred = true))
    ⟨fun both => ⟨both.1, both.2⟩, fun typed => ⟨typed.sources, typed.dst⟩⟩

/-- The allocated code holds the needed values of the original code, and
everything that does not belong to the allocator is the same. -/
structure Represents (limit : Nat) (isPred needed : Nat → Prop) (alloc : Allocator)
    (state state' : State Reg) : Prop where
  words : ∀ v, needed v → ¬isPred v → alloc.word? state' v = some (state.gpr (.vreg v))
  flags : ∀ v, needed v → isPred v → ∃ preg, alloc.assigned.lookup v = some preg ∧
    state'.pred (.preg preg) = state.pred (.vreg v)
  gpr : ∀ preg ∉ allocatable, state'.gpr (.preg preg) = state.gpr (.preg preg)
  pred : ∀ preg ∉ allocatable, state'.pred (.preg preg) = state.pred (.preg preg)
  mem : ∀ cell ∉ spillArea alloc.spillBase limit, state'.mem cell = state.mem cell

theorem zero_notMem_allocatable : (0 : UInt8) ∉ allocatable := by decide

section Step

variable {keeps : Prop} {limit : Nat} {isPred before after : Nat → Prop} {alloc alloc' : Allocator}
  {syllable : Syllable} {blockIdx pos : Nat} {code : List Syllable} {rename : Nat → UInt8}
  {dst : Option Reg} {state state' : State Reg}

/-- The operands of the operation hold the values of the original ones. -/
theorem operands_agree {mid : State Reg} {action : Action Opcode Reg}
    (rewritten : Rewritten keeps limit alloc syllable blockIdx pos code rename dst alloc')
    (represents : Represents limit isPred before alloc state state')
    (typed : Typed isPred syllable) (fixed : FixedOutside syllable)
    (reads : ∀ v ∈ syllable.sourceVregs, before v)
    (denotes : syllable.action = some action)
    (outside : ∀ preg ∉ allocatable, mid.gpr (.preg preg) = state'.gpr (.preg preg))
    (samePred : mid.pred = state'.pred)
    (values : predicateSources syllable.opcode = false → ∀ v ∈ syllable.sourceVregs, ∀ word,
      alloc.word? state' v = some word → mid.gpr (.preg (rename v)) = word) :
    ∀ operand ∈ action.sources,
      (operand.map (renameReg rename)).read mid = operand.read state := by
  have fixedGpr : ∀ preg ∉ allocatable,
      mid.readGpr (.preg preg) = state.readGpr (.preg preg) := by
    intro preg notMem
    unfold State.readGpr
    split
    · rfl
    · rw [outside preg notMem, represents.gpr preg notMem]
  intro operand isSource
  rcases source_cases denotes isSource with ⟨value, rfl⟩ | rfl | ⟨reg, regMem, rfl⟩
  · rfl
  · exact congrArg Datum.word (fixedGpr 0 zero_notMem_allocatable)
  · cases reg with
    | preg preg =>
        have notMem := fixed.sources preg regMem
        split
        · change Datum.flag _ = Datum.flag _
          rw [renameReg, samePred, represents.pred preg notMem]
        · exact congrArg Datum.word (fixedGpr preg notMem)
    | vreg v =>
        have isVreg : v ∈ syllable.sourceVregs := Mir.Syllable.mem_sourceVregs.mpr regMem
        obtain ⟨inside, kept⟩ := rewritten.sources v isVreg
        have isClass := typed.sources v isVreg
        split
        · rename_i predicate
          obtain ⟨preg, bound, sameFlag⟩ :=
            represents.flags v (reads v isVreg) (isClass.mpr predicate)
          change Datum.flag _ = Datum.flag _
          rw [renameReg, samePred, kept preg bound, sameFlag]
        · rename_i notPredicate
          have isWord := represents.words v (reads v isVreg) fun flag =>
            notPredicate (isClass.mp flag)
          have sameWord := values (Bool.eq_false_iff.mpr notPredicate) v isVreg _ isWord
          change Datum.word _ = Datum.word _
          rw [renameReg, State.readGpr, if_neg (preg_ne_zero inside), sameWord, State.readGpr,
            if_neg (by simp [show (0 : Reg) = .preg 0 from rfl])]

/-- How the needed registers change at a syllable. -/
structure Demand (isPred before after : Nat → Prop) (alloc alloc' : Allocator)
    (syllable : Syllable) (blockIdx pos : Nat) : Prop where
  reads : ∀ v ∈ syllable.sourceVregs, before v
  through : ∀ v, after v → syllable.dstVreg ≠ some v → before v
  alive : ∀ v, after v → ¬LastRead alloc syllable blockIdx pos v
  dst : ∀ d, syllable.dstVreg = some d → after d → alloc.needsAfter d blockIdx pos = true
  flags : ∀ v, after v → isPred v → syllable.dstVreg ≠ some v →
    alloc'.assigned.lookup v ≠ none

/-- The memory accesses of an action stay clear of an area. -/
def Action.Avoids (area : Set Word) (action : Action Opcode Reg) (state : State Reg) : Prop :=
  ∀ cell ∈ area, cell ∉ action.memReads state ∧ cell ∉ action.memWrites state

/-- The operation writes the word that the syllable writes. -/
theorem written_word {action : Action Opcode Reg} {rebound : Action Opcode Reg} {isa : Isa Opcode}
    {mid : State Reg} {rd : Reg → Reg}
    (sameEffect : rebound.effect isa mid = (action.effect isa state).map rd) {reg : Reg}
    (isDst : action.gprDst = some reg) (nonzero : reg ≠ 0) (nonzero' : rd reg ≠ 0) :
    (rebound.exec isa mid).gpr (rd reg) = (action.exec isa state).gpr reg := by
  obtain ⟨value, written⟩ := Action.exists_gpr_write isa action state isDst
  rw [Action.exec_gpr_of_eq isa action state written nonzero]
  refine Action.exec_gpr_of_eq isa rebound mid ?_ nonzero'
  rw [sameEffect, Effect.map, written]
  rfl

/-- The operation writes the predicate that the syllable writes. -/
theorem written_flag {action : Action Opcode Reg} {rebound : Action Opcode Reg} {isa : Isa Opcode}
    {mid : State Reg} {rd : Reg → Reg}
    (sameEffect : rebound.effect isa mid = (action.effect isa state).map rd) {reg : Reg}
    (isDst : action.predDst = some reg) :
    (rebound.exec isa mid).pred (rd reg) = (action.exec isa state).pred reg := by
  obtain ⟨value, written⟩ := Action.exists_pred_write isa action state isDst
  rw [Action.exec_pred_of_eq isa action state written]
  refine Action.exec_pred_of_eq isa rebound mid ?_
  rw [sameEffect, Effect.map, written]
  rfl

/-- The class of a destination decides what the action writes. -/
theorem dst_class {action : Action Opcode Reg} (typed : Typed isPred syllable)
    (wellFormed : syllable.WellFormed) (denotes : syllable.action = some action) {d : Nat}
    (isDst : syllable.dstVreg = some d) :
    (isPred d → action.predDst = some (.vreg d)) ∧
      (¬isPred d → action.gprDst = some (.vreg d)) := by
  have found := Mir.Syllable.dstVreg_eq_some.mp isDst
  have isClass := typed.dst d isDst
  constructor
  · intro flag
    rw [((dst_action denotes).2 (isClass.mp flag)).1, found]
  · intro word
    have writes := wellFormed.2.mp (by rw [found]; rfl)
    have writesGpr := writes.resolve_right fun writesPred => word (isClass.mpr writesPred)
    rw [((dst_action denotes).1 writesGpr).1, found]

/-- The operation left of a syllable reads the operands of the original one and
keeps representing it. -/
theorem simulates_step {action : Action Opcode Reg} (isa : Isa Opcode)
    (rewritten : Rewritten keeps limit alloc syllable blockIdx pos code rename dst alloc')
    (represents : Represents limit isPred before alloc state state')
    (isKept : predicateSources syllable.opcode = false → keeps) (typed : Typed isPred syllable)
    (fixed : FixedOutside syllable)
    (wellFormed : syllable.WellFormed) (denotes : syllable.action = some action)
    (demand : Demand isPred before after alloc alloc' syllable blockIdx pos) :
    ∃ mid action', execSyllables isa code state' = some mid ∧
      Syllable.action ⟨syllable.opcode, dst, syllable.srcs.map (renameValue rename)⟩ =
        some action' ∧
      action'.sources.map (·.read mid) = action.sources.map (·.read state) ∧
      (Action.Avoids (spillArea alloc.spillBase limit) action state →
        Represents limit isPred after alloc' (action.exec isa state) (action'.exec isa mid)) := by
  obtain ⟨mid, executed, -, outside, samePred, sameMem, values, words⟩ :=
    rewritten.exec isa state'
  obtain ⟨preg, rfl, dstFacts⟩ := rewritten.dst_eq
  have fixedMid : ∀ p ∉ allocatable, mid.gpr (.preg p) = state'.gpr (.preg p) := by
    intro p notMem
    refine outside _ fun q inside same => notMem ?_
    cases same
    exact inside
  have reads := operands_agree rewritten represents typed fixed demand.reads denotes fixedMid
    samePred (fun words => values (isKept words))
  have sameWrites := Action.memWrites_rebind reads (renameReg fun _ => preg)
  have dstOf : ∀ reg, action.gprDst = some reg ∨ action.predDst = some reg →
      syllable.dst = some reg := fun reg => dst_of_action denotes
  have otherDst : ∀ {v q}, syllable.dstVreg ≠ some v → alloc'.assigned.lookup v = some q →
      ∀ reg, syllable.dst = some reg → renameReg (fun _ => preg) reg ≠ .preg q := by
    intro v q isOther bound reg isReg same
    cases reg with
    | vreg d =>
        obtain ⟨-, apart, -⟩ := dstFacts d (Mir.Syllable.dstVreg_eq_some.mpr isReg)
        cases same
        refine apart v (fun equal => isOther ?_) bound
        rw [equal]
        exact Mir.Syllable.dstVreg_eq_some.mpr isReg
    | preg p =>
        cases same
        exact fixed.dst q isReg (rewritten.pool.range bound)
  refine ⟨mid, action.rebind (renameReg rename) (renameReg fun _ => preg), executed, ?_, ?_, ?_⟩
  · rw [action_renamed, denotes]
    rfl
  · rw [Action.sources_rebind, List.map_map]
    exact List.map_congr_left reads
  · intro avoids
    have memReads : ∀ cell ∈ action.memReads state, mid.mem cell = state.mem cell := by
      intro cell isRead
      have notMem : cell ∉ spillArea alloc.spillBase limit := fun inArea =>
        (avoids cell inArea).1 isRead
      rw [sameMem cell notMem, represents.mem cell notMem]
    have sameEffect := Action.effect_rebind reads (renameReg fun _ => preg) isa memReads
    constructor
    · intro v isAfter isWord
      by_cases isDst : syllable.dstVreg = some v
      · obtain ⟨inside, -, bound⟩ := dstFacts v isDst
        rw [demand.dst v isDst isAfter, if_pos rfl] at bound
        rw [word?_of_assigned _ bound]
        have writes := (dst_class typed wellFormed denotes isDst).2 isWord
        exact congrArg some (written_word sameEffect writes (Reg.vreg_ne_zero v) (preg_ne_zero inside))
      · have isBefore := demand.through v isAfter isDst
        have kept := words v _ isDst (demand.alive v isAfter) (represents.words v isBefore isWord)
        rw [word?_exec rewritten.pool, kept, Action.exec_gpr_of_ne]
        · exact fun same => isDst (Mir.Syllable.dstVreg_eq_some.mpr (dstOf _ (.inl same)))
        · intro q bound
          rw [Action.gprDst_rebind]
          intro same
          obtain ⟨reg, isReg, renamed⟩ := Option.map_eq_some_iff.mp same
          exact otherDst isDst bound reg (dstOf reg (.inl isReg)) renamed
        · intro cell inArea
          rw [sameWrites]
          rw [rewritten.tables.spillBase] at inArea
          exact (avoids cell inArea).2
    · intro v isAfter isFlag
      by_cases isDst : syllable.dstVreg = some v
      · obtain ⟨inside, -, bound⟩ := dstFacts v isDst
        rw [demand.dst v isDst isAfter, if_pos rfl] at bound
        have writes := (dst_class typed wellFormed denotes isDst).1 isFlag
        exact ⟨preg, bound, written_flag sameEffect writes⟩
      · obtain ⟨p, boundBefore, sameFlag⟩ :=
          represents.flags v (demand.through v isAfter isDst) isFlag
        obtain ⟨q, bound⟩ := Option.ne_none_iff_exists'.mp (demand.flags v isAfter isFlag isDst)
        obtain rfl := rewritten.stays isDst boundBefore bound
        refine ⟨q, bound, ?_⟩
        rw [Action.exec_pred_of_ne, Action.exec_pred_of_ne, samePred, sameFlag]
        · exact fun same => isDst (Mir.Syllable.dstVreg_eq_some.mpr (dstOf _ (.inr same)))
        · rw [Action.predDst_rebind]
          intro same
          obtain ⟨reg, isReg, renamed⟩ := Option.map_eq_some_iff.mp same
          exact otherDst isDst bound reg (dstOf reg (.inr isReg)) renamed
    · intro p notMem
      by_cases isDst : action.gprDst = some (.preg p)
      · by_cases isZero : p = 0
        · subst isZero
          have sameZero := fixedMid 0 notMem
          rw [represents.gpr 0 notMem] at sameZero
          exact (Action.exec_gpr_zero isa _ mid).trans
            (sameZero.trans (Action.exec_gpr_zero isa action state).symm)
        · have nonzero : (Reg.preg p) ≠ 0 := fun same => isZero (Reg.preg.inj same)
          exact written_word sameEffect isDst nonzero nonzero
      · rw [Action.exec_gpr_of_ne isa action state isDst, Action.exec_gpr_of_ne, fixedMid p notMem,
          represents.gpr p notMem]
        rw [Action.gprDst_rebind]
        intro same
        obtain ⟨reg, isReg, renamed⟩ := Option.map_eq_some_iff.mp same
        cases reg with
        | vreg d =>
            cases renamed
            exact notMem (dstFacts d (Mir.Syllable.dstVreg_eq_some.mpr (dstOf _ (.inl isReg)))).1
        | preg other =>
            cases renamed
            exact isDst isReg
    · intro p notMem
      by_cases isDst : action.predDst = some (.preg p)
      · exact written_flag sameEffect isDst
      · rw [Action.exec_pred_of_ne isa action state isDst, Action.exec_pred_of_ne, samePred,
          represents.pred p notMem]
        rw [Action.predDst_rebind]
        intro same
        obtain ⟨reg, isReg, renamed⟩ := Option.map_eq_some_iff.mp same
        cases reg with
        | vreg d =>
            cases renamed
            exact notMem (dstFacts d (Mir.Syllable.dstVreg_eq_some.mpr (dstOf _ (.inr isReg)))).1
        | preg other =>
            cases renamed
            exact isDst isReg
    · intro cell notMem
      rw [rewritten.tables.spillBase] at notMem
      have sameCell : mid.mem cell = state.mem cell := by
        rw [sameMem cell notMem, represents.mem cell notMem]
      have sameList : ((action.rebind (renameReg rename) (renameReg fun _ => preg)).effect isa
          mid).mem = (action.effect isa state).mem := by
        rw [sameEffect]
        rfl
      change Memory.write _ _ cell = Memory.write _ _ cell
      rw [sameList]
      by_cases written : cell ∈ (action.effect isa state).mem.map Prod.fst
      · exact Memory.write_apply_of_mem _ _ written
      · rw [Memory.write_apply_of_notMem _ written, Memory.write_apply_of_notMem _ written,
          sameCell]

/-- Rewritten code keeps representing the original code. -/
theorem represents_step {action : Action Opcode Reg} (isa : Isa Opcode)
    (rewritten : Rewritten keeps limit alloc syllable blockIdx pos code rename dst alloc')
    (represents : Represents limit isPred before alloc state state')
    (isKept : keeps) (typed : Typed isPred syllable) (fixed : FixedOutside syllable)
    (wellFormed : syllable.WellFormed) (denotes : syllable.action = some action)
    (demand : Demand isPred before after alloc alloc' syllable blockIdx pos)
    (avoids : Action.Avoids (spillArea alloc.spillBase limit) action state) :
    ∃ final, execSyllables isa (code ++
        [⟨syllable.opcode, dst, syllable.srcs.map (renameValue rename)⟩]) state' = some final ∧
      Represents limit isPred after alloc' (action.exec isa state) final := by
  obtain ⟨mid, action', executed, isAction, -, kept⟩ := simulates_step isa rewritten represents
    (fun _ => isKept) typed fixed wellFormed denotes demand
  refine ⟨action'.exec isa mid, ?_, kept avoids⟩
  rw [Mir.execSyllables_append, executed, Option.bind_some, Mir.execSyllables_singleton, isAction,
    Option.map_some]

end Step

end VliwCompiler.Regalloc
