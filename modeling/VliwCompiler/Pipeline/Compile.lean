import VliwCompiler.Llvm.Check
import VliwCompiler.Isel.Shapes
import VliwCompiler.Pack.Explicit
import VliwCompiler.Regalloc.Kept

/-!
# The pipeline

A module is checked, optimized, selected, allocated, scheduled and emitted.  The
optimizer is not part of the compiler; it is a function on modules that may fail.
On a layout with a unit of every kind that selected code uses, nothing after
selection reports an error: the compiler returns a text exactly when all virtual
registers are below 64 and no address overflows, whatever the schedule and the
iteration orders of its hash tables.
-/

namespace VliwCompiler.Pipeline

open Asm (Opcode Processor UnitKind)
open Mir (Syllable Terminator Block)
open Isel (CopyOrder lowerFunction lowerAllFunctions Shape ShapedBlock shaped_lowered)
open Regalloc (HashOrder allocateRegisters RenamedFunction RenamedBlock FewSources Allocatable)
open Codegen (Request requests notImplemented slotSupportsOpcode slotByAlias)
open Pack (AddressOverflows HasKind)
open Liveness (SmallIndices)

/-! ### Stages -/

/-- How emitted code is scheduled. -/
inductive Schedule where
  | scalar
  | pack
  deriving DecidableEq, Repr

section Stages

variable (optimize : Llvm.Module → Outcome Llvm.Module) (orders : Nat → CopyOrder)
  (hashOrders : Nat → HashOrder)

/-- The checked, optimized and selected functions of a module. -/
def selectModule (module : Llvm.Module) (memorySize : Nat) : Outcome (List Mir.Function) := do
  Llvm.checkModule module
  let optimized ← optimize module
  lowerAllFunctions orders optimized memorySize

def allocateAll (functions : List Mir.Function) (memorySize : Nat) :
    Outcome (List Mir.Function) :=
  functions.zipIdx.mapM fun (function, k) => allocateRegisters (hashOrders k) function memorySize

def emitModule (schedule : Schedule) (functions : List Mir.Function) (processor : Processor) :
    Outcome String :=
  match schedule with
  | .scalar => Codegen.emitScalarVliwModule functions processor
  | .pack => Pack.emitPackedVliwModule functions processor

def compileForProcessor (module : Llvm.Module) (schedule : Schedule) (processor : Processor) :
    Outcome String := do
  let functions ← selectModule optimize orders module processor.memorySize
  let allocated ← allocateAll hashOrders functions processor.memorySize
  emitModule schedule allocated processor

end Stages

/-! ### Layouts with the units needed -/

/-- The kinds of units that selected code runs on. -/
def usedKinds : List UnitKind := [.integerAlu, .memory, .control, .multiplier]

/-- The layout has a unit of every kind used, its slot `X` executes control
transfers, and its aliases are below its width. -/
structure Equipped (processor : Processor) : Prop where
  units : ∀ kind ∈ usedKinds, ∃ slot < processor.width, HasKind processor slot kind
  control : ∃ slot, slotByAlias processor "X" = some slot ∧
    slotSupportsOpcode slot .ret processor = true
  aliases : ∀ entry ∈ processor.slotAliases, entry.slot < processor.width

/-- The opcode runs on one of the kinds used. -/
def RunsOnUsed (opcode : Opcode) : Prop := opcode ≠ .nop ∧ ∃ kind ∈ opcode.units, kind ∈ usedKinds

instance (opcode : Opcode) : Decidable (RunsOnUsed opcode) :=
  inferInstanceAs (Decidable (_ ∧ _))

/-- A request of allocated code. -/
structure Emittable (request : Request) : Prop where
  allocated : request.IsAllocated
  shaped : Pack.IsShaped request
  opcode : RunsOnUsed request.opcode

/-- The request is a syllable whose constant address overflows. -/
def RequestOverflows : Request → Prop
  | .syllable syllable => AddressOverflows syllable
  | .terminator _ => False

theorem exists_ok_of_no_error {α : Type} {outcome : Outcome α}
    (noError : ∀ failure, outcome ≠ .error failure) : ∃ value, outcome = .ok value := by
  cases outcome with
  | ok value => exact ⟨value, rfl⟩
  | error failure => exact absurd rfl (noError failure)

section Equipped

variable {processor : Processor} {opcode : Opcode}

theorem slotSupportsOpcode_iff {slot : Nat} (proper : opcode ≠ .nop) :
    slotSupportsOpcode slot opcode processor = true ↔
      ∃ kind ∈ opcode.units, HasKind processor slot kind := by
  unfold slotSupportsOpcode Codegen.slotSupportsOpcodeWithUnits
  rw [if_neg proper]
  unfold HasKind
  cases isUnits : processor.slotUnits[slot]? with
  | none => simp
  | some names =>
      simp only [List.any_eq_true, List.mem_filterMap, Pack.lookup_unitKindMap,
        decide_eq_true_eq, Option.some.injEq, exists_eq_left']
      constructor
      · rintro ⟨kind, named, isUnit⟩
        exact ⟨kind, isUnit, named⟩
      · rintro ⟨kind, isUnit, named⟩
        exact ⟨kind, named, isUnit⟩

theorem Equipped.slot_lt (equipped : Equipped processor) {name : String} {slot : Nat}
    (isAlias : slotByAlias processor name = some slot) : slot < processor.width := by
  rcases Option.map_eq_some_iff.mp isAlias with ⟨entry, found, rfl⟩
  exact equipped.aliases entry (List.mem_of_find?_eq_some found)

/-- Every opcode used gets a slot below the width that can execute it. -/
theorem Equipped.exists_scalarSlot (equipped : Equipped processor) (runs : RunsOnUsed opcode) :
    ∃ slot, Codegen.scalarSlot opcode processor = .ok slot ∧ slot < processor.width ∧
      slotSupportsOpcode slot opcode processor = true := by
  rcases runs with ⟨proper, kind, isUnit, isUsed⟩
  rcases equipped.units kind isUsed with ⟨capable, inside, hasKind⟩
  have supported := (slotSupportsOpcode_iff proper).mpr ⟨kind, isUnit, hasKind⟩
  rcases Pack.exists_scalarSlot ⟨capable, inside, supported⟩ with ⟨slot, isSlot, fits⟩
  refine ⟨slot, isSlot, ?_, fits⟩
  rcases Codegen.scalarSlot_cases isSlot with ⟨name, -, isAlias, -⟩ | isFirst
  · exact equipped.slot_lt isAlias
  · exact (Codegen.supported_of_firstCompatibleSlot proper isFirst).1

/-- A request is emitted unless its address overflows, which aborts. -/
theorem Equipped.outcome_cases (equipped : Equipped processor) {request : Request}
    (emittable : Emittable request) :
    request.outcome processor = .ok () ∧ ¬RequestOverflows request ∨
      (∃ message, request.outcome processor = .error (.panic message)) ∧
        RequestOverflows request := by
  cases request with
  | syllable syllable =>
      rcases equipped.exists_scalarSlot emittable.opcode with ⟨slot, isSlot, inside, fits⟩
      rw [Request.outcome]
      rcases Pack.lowersOrOverflows emittable.shaped emittable.allocated with
        ⟨⟨asm, lowered⟩, noOverflow⟩ | ⟨⟨message, lowered⟩, overflows⟩
      · left
        refine ⟨?_, noOverflow⟩
        rw [lowered]
        refine bind_eq_ok.mpr ⟨asm, rfl, bind_eq_ok.mpr ⟨slot, isSlot, ?_⟩⟩
        exact (if_pos fits).trans (if_pos inside)
      · right
        rw [lowered]
        exact ⟨⟨message, rfl⟩, overflows⟩
  | terminator terminator =>
      left
      rcases equipped.control with ⟨slot, isAlias, fits⟩
      refine ⟨?_, id⟩
      rw [Pack.outcome_terminator emittable.allocated]
      refine bind_eq_ok.mpr ⟨slot, Pack.xSlot_eq_ok.mpr isAlias, ?_⟩
      unfold Request.place
      rw [Pack.supports_terminatorOpcode, if_pos fits, if_pos (equipped.slot_lt isAlias)]

theorem outcome_of_forM {items : List Request}
    (done : forM items (Request.outcome processor) = .ok ()) :
    ∀ request ∈ items, request.outcome processor = .ok () := by
  induction items with
  | nil => simp
  | cons first items ih =>
      rw [List.forM_cons] at done
      rcases bind_eq_ok.mp done with ⟨_, isFirst, rest⟩
      exact List.forall_mem_cons.mpr ⟨isFirst, ih rest⟩

/-- Emission succeeds when no address overflows, and otherwise aborts. -/
theorem Equipped.scalarProgram_cases (equipped : Equipped processor)
    {functions : List Mir.Function}
    (emittable : ∀ request ∈ requests functions, Emittable request) :
    (∃ program, Codegen.scalarProgram functions processor = .ok program) ∧
        (∀ request ∈ requests functions, ¬RequestOverflows request) ∨
      (∃ message, Codegen.scalarProgram functions processor = .error (.panic message)) ∧
        ¬∀ request ∈ requests functions, ¬RequestOverflows request := by
  cases emitted : Codegen.scalarProgram functions processor with
  | ok program =>
      left
      refine ⟨⟨program, rfl⟩, fun request requestMem => ?_⟩
      have done := Codegen.scalarProgram_outcome functions processor
      rw [emitted] at done
      have succeeds := outcome_of_forM done.symm request requestMem
      rcases equipped.outcome_cases (emittable request requestMem) with
        ⟨-, fits⟩ | ⟨⟨message, aborts⟩, -⟩
      · exact fits
      · rw [aborts] at succeeds
        cases succeeds
  | error failure =>
      right
      rcases Codegen.scalarProgram_eq_error_iff.mp emitted with
        ⟨front, request, back, isSplit, -, failed⟩
      have requestMem : request ∈ requests functions := by simp [isSplit]
      rcases equipped.outcome_cases (emittable request requestMem) with
        ⟨succeeds, -⟩ | ⟨⟨message, aborts⟩, overflows⟩
      · rw [succeeds] at failed
        cases failed
      · rw [aborts] at failed
        cases failed
        exact ⟨⟨message, rfl⟩, fun fits => fits request requestMem overflows⟩

/-- Both schedules succeed when no address overflows, and otherwise abort. -/
theorem Equipped.emitModule_cases (equipped : Equipped processor)
    {functions : List Mir.Function} (schedule : Schedule)
    (emittable : ∀ request ∈ requests functions, Emittable request) :
    (∃ text, emitModule schedule functions processor = .ok text) ∧
        (∀ request ∈ requests functions, ¬RequestOverflows request) ∨
      (∃ message, emitModule schedule functions processor = .error (.panic message)) ∧
        ¬∀ request ∈ requests functions, ¬RequestOverflows request := by
  cases schedule with
  | scalar =>
      rcases equipped.scalarProgram_cases emittable with
        ⟨⟨program, emitted⟩, fits⟩ | ⟨⟨message, aborts⟩, overflows⟩
      · left
        refine ⟨exists_ok_of_no_error fun failure failed => ?_, fits⟩
        rw [emitModule, Pack.emitScalarVliwModule_eq_error_iff, emitted] at failed
        cases failed
      · right
        refine ⟨⟨message, ?_⟩, overflows⟩
        rw [emitModule, Pack.emitScalarVliwModule_eq_error_iff, aborts]
  | pack =>
      rcases Pack.exists_listScheduleFunctions functions with ⟨scheduled, isScheduled⟩
      have same := Pack.mem_requests_scheduled (Pack.scheduled_of_mapM isScheduled)
      simp only [← same] at emittable ⊢
      rcases equipped.scalarProgram_cases emittable with
        ⟨⟨program, emitted⟩, fits⟩ | ⟨⟨message, aborts⟩, overflows⟩
      · left
        refine ⟨exists_ok_of_no_error fun failure failed => ?_, fits⟩
        rw [emitModule, Pack.emitPackedVliwModule_eq_error_iff isScheduled, emitted] at failed
        cases failed
      · right
        refine ⟨⟨message, ?_⟩, overflows⟩
        rw [emitModule, Pack.emitPackedVliwModule_eq_error_iff isScheduled, aborts]

end Equipped

/-! ### Selected and allocated code -/

theorem runsOnUsed_binaryOpcode (op : Llvm.BinaryOp) : RunsOnUsed (Isel.binaryOpcode op) := by
  cases op <;> decide

theorem runsOnUsed_terminatorOpcode (terminator : Terminator) :
    RunsOnUsed (Codegen.terminatorOpcode terminator) := by
  cases terminator with
  | ret => exact (by decide : RunsOnUsed .ret)
  | jump => exact (by decide : RunsOnUsed .jump)
  | branch => exact (by decide : RunsOnUsed .branch)
  | directCall => exact (by decide : RunsOnUsed .call)

theorem runsOnUsed_of_shape {fixed : UInt8 → Prop} {syllable : Syllable}
    (shape : Shape fixed syllable) : RunsOnUsed syllable.opcode := by
  cases shape with
  | constant => exact (by decide : RunsOnUsed .movImm)
  | move => exact (by decide : RunsOnUsed .mov)
  | binary op => exact runsOnUsed_binaryOpcode op
  | compare opcode isComparison =>
      exact (by decide : ∀ opcode ∈ [Opcode.cmpEq, .cmpLt, .cmpUlt], RunsOnUsed opcode) _ isComparison
  | negate => exact (by decide : RunsOnUsed .pNot)
  | load opcode isLoad =>
      exact (by decide : ∀ opcode ∈ [Opcode.loadB, .loadW, .loadD], RunsOnUsed opcode) _ isLoad
  | store opcode isStore =>
      exact (by decide : ∀ opcode ∈ [Opcode.storeB, .storeW, .storeD], RunsOnUsed opcode) _ isStore

/-- Every block of a selected function has the known shapes. -/
def IsSelected (function : Mir.Function) : Prop :=
  ∀ block ∈ function.blocks, ShapedBlock Isel.CallRegister block

/-- Neither allocation nor a constant address overflows. -/
def Emits (memorySize : Nat) (function : Mir.Function) : Prop :=
  Allocatable memorySize function ∧
    ∀ block ∈ function.blocks, ∀ syllable ∈ block.syllables, ¬AddressOverflows syllable

theorem isSelected_of_selectModule {optimize : Llvm.Module → Outcome Llvm.Module}
    {orders : Nat → CopyOrder} {module : Llvm.Module} {memorySize : Nat}
    {functions : List Mir.Function}
    (selected : selectModule optimize orders module memorySize = .ok functions) :
    ∀ function ∈ functions, IsSelected function := by
  rcases bind_eq_ok.mp selected with ⟨-, -, selected⟩
  rcases bind_eq_ok.mp selected with ⟨optimized, -, lowered⟩
  intro function functionMem
  rcases exists_mem_of_forall₂ (mapM_eq_ok_iff.mp lowered) functionMem with ⟨source, -, isLowered⟩
  exact shaped_lowered isLowered

section Allocated

variable {function allocated : Mir.Function} {functions all : List Mir.Function}

theorem fewSources_of_isSelected (isSelected : IsSelected function)
    (small : ∀ block ∈ function.blocks, SmallIndices block) :
    ∀ block ∈ function.blocks, FewSources 64 block := by
  intro block blockMem
  rcases small block blockMem with ⟨each, cond⟩
  refine ⟨fun syllable syllableMem => ⟨?_, each syllable syllableMem⟩, cond⟩
  have few := ((isSelected block blockMem).code syllable syllableMem).length_sourceVregs
  exact (List.dedup_sublist _).length_le.trans (few.trans (by decide))

/-- Allocation succeeds for all functions when they are allocatable, and otherwise
aborts. -/
theorem allocateAll_cases (hashOrders : Nat → HashOrder) (memorySize : Nat)
    (areSelected : ∀ function ∈ functions, IsSelected function) :
    (∃ all, allocateAll hashOrders functions memorySize = .ok all ∧
        List.Forall₂ RenamedFunction functions all) ∧
        (∀ function ∈ functions, Allocatable memorySize function) ∨
      (∃ message, allocateAll hashOrders functions memorySize = .error (.panic message)) ∧
        ¬∀ function ∈ functions, Allocatable memorySize function := by
  unfold allocateAll
  generalize 0 = start
  induction functions generalizing start with
  | nil => exact .inl ⟨⟨[], rfl, .nil⟩, by simp⟩
  | cons function functions ih =>
      rcases List.forall_mem_cons.mp areSelected with ⟨isFirst, areOthers⟩
      rw [List.zipIdx_cons, List.mapM_cons, List.forall_mem_cons]
      dsimp only
      rcases Regalloc.allocateRegisters_cases (hashOrders start) memorySize
        (fewSources_of_isSelected isFirst) with
        ⟨⟨allocated, done, renamed⟩, small⟩ | ⟨⟨message, panics⟩, large⟩
      · rw [done]
        rcases ih areOthers (start + 1) with
          ⟨⟨all, allDone, allRenamed⟩, allSmall⟩ | ⟨⟨message, panics⟩, large⟩
        · left
          refine ⟨⟨allocated :: all, ?_, .cons renamed allRenamed⟩, small, allSmall⟩
          exact bind_eq_ok.mpr ⟨allocated, rfl, bind_eq_ok.mpr ⟨all, allDone, rfl⟩⟩
        · right
          refine ⟨⟨message, ?_⟩, fun both => large both.2⟩
          exact bind_eq_error.mpr (.inr ⟨allocated, rfl, bind_eq_error.mpr (.inl panics)⟩)
      · right
        rw [panics]
        exact ⟨⟨message, rfl⟩, fun both => large both.1⟩

theorem mem_requests {request : Request} : request ∈ requests functions ↔
    ∃ function ∈ functions, ∃ block ∈ function.blocks, request ∈ Codegen.blockRequests block := by
  simp only [requests, Codegen.functionRequests, List.mem_flatMap]

/-- The requests of an allocated function are emitted unless an address overflows. -/
theorem emittable_of_renamed (isSelected : IsSelected function)
    (renamed : RenamedFunction function allocated) {block : Block}
    (blockMem : block ∈ allocated.blocks) :
    ∀ request ∈ Codegen.blockRequests block, Emittable request := by
  rcases exists_mem_of_forall₂ renamed.blocks blockMem with ⟨source, sourceMem, isRenamed⟩
  rcases renamed.allocated block blockMem with ⟨physical, physicalCond⟩
  have shaped := (isSelected source sourceMem).code
  intro request requestMem
  rcases List.mem_append.mp requestMem with inCode | isLast
  · rcases List.mem_map.mp inCode with ⟨syllable, syllableMem, rfl⟩
    refine ⟨(physical syllable syllableMem).symm, ?_, ?_⟩
    · exact isRenamed.wellFormed (fun syllable syllableMem => (shaped syllable syllableMem).wellFormed)
        syllable syllableMem
    · refine isRenamed.syllables.forall_mem (fun syllable => RunsOnUsed syllable.opcode)
        ?_ ?_ (fun syllable syllableMem => runsOnUsed_of_shape (shaped syllable syllableMem))
        syllable syllableMem
      · intro syllable inserted
        rcases inserted.opcode with same | same
        · rw [same]
          decide
        · rw [same]
          decide
      · intro syllable syllable' isRenamed runs
        rwa [isRenamed.opcode]
  · rw [List.mem_singleton.mp isLast]
    exact ⟨physicalCond, trivial, runsOnUsed_terminatorOpcode block.terminator⟩

theorem overflows_iff_of_renamed (renamed : List.Forall₂ RenamedFunction functions all) :
    (∀ request ∈ requests all, ¬RequestOverflows request) ↔ ∀ function ∈ functions,
      ∀ block ∈ function.blocks, ∀ syllable ∈ block.syllables, ¬AddressOverflows syllable := by
  have onBlock : ∀ (block : Block),
      (∀ request ∈ Codegen.blockRequests block, ¬RequestOverflows request) ↔
      ∀ syllable ∈ block.syllables, ¬AddressOverflows syllable := by
    intro block
    simp [Codegen.blockRequests, RequestOverflows, or_imp, forall_and]
  have onAll : (∀ request ∈ requests all, ¬RequestOverflows request) ↔ ∀ function ∈ all,
      ∀ block ∈ function.blocks, ∀ syllable ∈ block.syllables, ¬AddressOverflows syllable := by
    simp only [← onBlock, mem_requests]
    grind
  rw [onAll]
  constructor
  · intro fits function functionMem block blockMem
    rcases exists_image_of_forall₂ renamed functionMem with ⟨allocated, mem, isRenamed⟩
    rcases exists_image_of_forall₂ isRenamed.blocks blockMem with ⟨block', mem', isBlock⟩
    exact isBlock.addressOverflows_iff.mp (fits allocated mem block' mem')
  · intro fits allocated allocatedMem block' blockMem'
    rcases exists_mem_of_forall₂ renamed allocatedMem with ⟨function, mem, isRenamed⟩
    rcases exists_mem_of_forall₂ isRenamed.blocks blockMem' with ⟨block, mem', isBlock⟩
    exact isBlock.addressOverflows_iff.mpr (fits function mem block mem')

end Allocated

/-! ### The outcome of a compilation -/

section Outcome

variable {optimize : Llvm.Module → Outcome Llvm.Module} {orders : Nat → CopyOrder}
  {hashOrders : Nat → HashOrder} {module : Llvm.Module} {processor : Processor}

/-- Past selection, compilation succeeds when the functions emit and otherwise aborts. -/
theorem compileForProcessor_cases (equipped : Equipped processor) (schedule : Schedule)
    {functions : List Mir.Function}
    (selected : selectModule optimize orders module processor.memorySize = .ok functions) :
    (∃ text, compileForProcessor optimize orders hashOrders module schedule processor = .ok text) ∧
        (∀ function ∈ functions, Emits processor.memorySize function) ∨
      (∃ message, compileForProcessor optimize orders hashOrders module schedule processor =
          .error (.panic message)) ∧ ¬∀ function ∈ functions, Emits processor.memorySize function := by
  have areSelected := isSelected_of_selectModule selected
  unfold compileForProcessor Emits
  rw [selected, forall₂_and]
  rcases allocateAll_cases hashOrders processor.memorySize areSelected with
    ⟨⟨all, allocated, renamed⟩, small⟩ | ⟨⟨message, panics⟩, large⟩
  · have emittable : ∀ request ∈ requests all, Emittable request := by
      intro request requestMem
      rcases mem_requests.mp requestMem with ⟨function', functionMem', block, blockMem, isRequest⟩
      rcases exists_mem_of_forall₂ renamed functionMem' with ⟨function, functionMem, isRenamed⟩
      exact emittable_of_renamed (areSelected function functionMem) isRenamed blockMem request
        isRequest
    rcases equipped.emitModule_cases schedule emittable with
      ⟨⟨text, emitted⟩, fits⟩ | ⟨⟨message, panics⟩, overflows⟩
    · left
      refine ⟨⟨text, ?_⟩, small, (overflows_iff_of_renamed renamed).mp fits⟩
      exact bind_eq_ok.mpr ⟨functions, rfl, bind_eq_ok.mpr ⟨all, allocated, emitted⟩⟩
    · right
      refine ⟨⟨message, ?_⟩, fun both => overflows ((overflows_iff_of_renamed renamed).mpr both.2)⟩
      exact bind_eq_error.mpr (.inr ⟨functions, rfl, bind_eq_error.mpr (.inr ⟨all, allocated, panics⟩)⟩)
  · right
    refine ⟨⟨message, ?_⟩, fun both => large both.1⟩
    exact bind_eq_error.mpr (.inr ⟨functions, rfl, bind_eq_error.mpr (.inl panics)⟩)

/-- On an equipped layout compilation returns a text exactly when the module is
selected and, for every function, the virtual registers are below 64 and neither
the spill area nor a constant address overflows; and it reports an error exactly when
checking, optimizing or selecting does. -/
theorem compileForProcessor_outcome (equipped : Equipped processor) (schedule : Schedule) :
    ((∃ text, compileForProcessor optimize orders hashOrders module schedule processor = .ok text) ↔
        ∃ functions, selectModule optimize orders module processor.memorySize = .ok functions ∧
          ∀ function ∈ functions, Emits processor.memorySize function) ∧
      ∀ error, compileForProcessor optimize orders hashOrders module schedule processor =
          .error (.error error) ↔
        selectModule optimize orders module processor.memorySize = .error (.error error) := by
  cases selected : selectModule optimize orders module processor.memorySize with
  | error failure =>
      have failed : compileForProcessor optimize orders hashOrders module schedule processor =
          .error failure := bind_eq_error.mpr (.inl selected)
      rw [failed]
      simp
  | ok functions =>
      rcases compileForProcessor_cases equipped schedule selected with
        ⟨⟨text, done⟩, emits⟩ | ⟨⟨message, panics⟩, fails⟩
      · rw [done]
        simpa using emits
      · rw [panics]
        simpa using fails

end Outcome

theorem equipped_default : Equipped .default where
  units := by
    intro kind isUsed
    simp only [usedKinds, List.mem_cons, List.not_mem_nil, or_false] at isUsed
    rcases isUsed with rfl | rfl | rfl | rfl
    · exact ⟨0, by decide, ["alu"], rfl, "alu", by decide, by decide +kernel⟩
    · exact ⟨2, by decide, ["mem"], rfl, "mem", by decide, by decide +kernel⟩
    · exact ⟨3, by decide, ["ctrl", "mul"], rfl, "ctrl", by decide, by decide +kernel⟩
    · exact ⟨3, by decide, ["ctrl", "mul"], rfl, "mul", by decide, by decide +kernel⟩
  control := ⟨3, by decide +kernel, by decide +kernel⟩
  aliases := by decide

instance (block : Block) : Decidable (SmallIndices block) :=
  inferInstanceAs (Decidable
    ((∀ syllable ∈ block.syllables, (∀ v ∈ syllable.sourceVregs, v < 64) ∧
      ∀ v ∈ syllable.dstVreg, v < 64) ∧ ∀ v ∈ block.terminator.condVreg, v < 64))

/-- No syllable accesses memory. -/
def RegistersOnly (function : Mir.Function) : Prop :=
  ∀ block ∈ function.blocks, ∀ syllable ∈ block.syllables,
    syllable.opcode.behavior = .compute ∨ syllable.opcode.behavior = .test

instance (function : Mir.Function) : Decidable (RegistersOnly function) :=
  inferInstanceAs (Decidable (∀ block ∈ function.blocks, ∀ syllable ∈ block.syllables,
    syllable.opcode.behavior = .compute ∨ syllable.opcode.behavior = .test))

theorem emits_of_registersOnly {memorySize : Nat} {function : Mir.Function}
    (addressable : Addressable memorySize) (small : ∀ block ∈ function.blocks, SmallIndices block)
    (registersOnly : RegistersOnly function) : Emits memorySize function := by
  refine ⟨⟨addressable, small⟩, fun block blockMem syllable syllableMem => ?_⟩
  rcases registersOnly block blockMem syllable syllableMem with isOther | isOther
  · exact Pack.not_addressOverflows (by simp [isOther]) (by simp [isOther])
  · exact Pack.not_addressOverflows (by simp [isOther]) (by simp [isOther])

theorem compileForProcessor_outcome_countdown :
    ∃ text, compileForProcessor .ok (fun _ => Isel.insertionOrder)
      (fun _ => Regalloc.insertionOrder) [Isel.countdown] .pack .default = .ok text := by
  have selects : (selectModule .ok (fun _ => Isel.insertionOrder) [Isel.countdown] 65536).map
      (fun functions => decide (∀ function ∈ functions,
        (∀ block ∈ function.blocks, SmallIndices block) ∧ RegistersOnly function)) = .ok true := by
    decide +kernel
  rcases map_eq_ok.mp selects with ⟨functions, selected, emits⟩
  apply (compileForProcessor_outcome equipped_default .pack).1.mpr
  refine ⟨functions, selected, fun function functionMem => ?_⟩
  rcases of_decide_eq_true emits function functionMem with ⟨small, registersOnly⟩
  exact emits_of_registersOnly (by decide) small registersOnly

end VliwCompiler.Pipeline
