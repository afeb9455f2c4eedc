import VliwCompiler.Codegen.Context
import VliwCompiler.Data.MapM

/-!
# What emission returns

Emission goes through the syllables and terminators of a module in layout
order.  Whether one of them can be emitted depends on itself and the processor
only, so the first that cannot decides how emission fails.
-/

namespace VliwCompiler.Codegen

open Asm (Opcode Processor Program)
open Mir (Terminator)

/-- Something to be emitted. -/
inductive Request where
  | syllable (syllable : Mir.Syllable)
  | terminator (terminator : Terminator)

/-- The syllables of a block and its terminator. -/
def blockRequests (block : Mir.Block) : List Request :=
  block.syllables.map .syllable ++ [.terminator block.terminator]

def functionRequests (function : Mir.Function) : List Request :=
  function.blocks.flatMap blockRequests

def requests (functions : List Mir.Function) : List Request := functions.flatMap functionRequests

/-- The opcode of a terminator. -/
def terminatorOpcode : Terminator → Opcode
  | .ret => .ret
  | .jump _ => .jump
  | .branch _ _ => .branch
  | .directCall _ _ => .call

namespace Request

/-- The opcode to be placed. -/
def opcode : Request → Opcode
  | .syllable operation => operation.opcode
  | .terminator transfer => terminatorOpcode transfer

/-- Only physical registers occur. -/
def IsAllocated : Request → Prop
  | .syllable operation => operation.dstVreg = none ∧ operation.sourceVregs = []
  | .terminator transfer => transfer.condVreg = none

/-- Put a syllable into a slot of a bundle. -/
def place (processor : Processor) (opcode : Opcode) (slot : Nat) : Outcome Unit :=
  if slotSupportsOpcode slot opcode processor then
    if slot < processor.width then .ok () else .error (.panic "index out of bounds")
  else notImplemented "requested slot is not compatible with opcode"

/-- How the emission of a request ends. -/
def outcome (processor : Processor) : Request → Outcome Unit
  | .syllable operation => do
      let _ ← lowerSyllable operation
      let slot ← scalarSlot operation.opcode processor
      place processor operation.opcode slot
  | .terminator (.branch cond _) => do
      let _ ← predForReg cond
      let slot ← xSlot processor
      place processor .branch slot
  | .terminator transfer => do
      let slot ← xSlot processor
      place processor (terminatorOpcode transfer) slot

end Request

/-- An emission ends as the requests do, one after the other, and keeps the
processor. -/
structure Follows (processor : Processor) (emitted : Outcome (CodegenCtx × Program))
    (requests : List Request) : Prop where
  outcome : emitted.map (fun _ => ()) = forM requests (Request.outcome processor)
  processor : ∀ result, emitted = .ok result → result.2.processor = processor

theorem forM_singleton (processor : Processor) (request : Request) :
    forM [request] (Request.outcome processor) = request.outcome processor := by
  rw [List.forM_cons, List.forM_nil]
  cases request.outcome processor <;> rfl

namespace Follows

variable {processor : Processor} {ctx : CodegenCtx} {program : Program}

theorem pure (same : program.processor = processor) :
    Follows processor (.ok (ctx, program)) [] where
  outcome := rfl
  processor result isResult := by
    cases isResult
    exact same

theorem bind {first : Outcome (CodegenCtx × Program)}
    {next : CodegenCtx × Program → Outcome (CodegenCtx × Program)} {left right : List Request}
    (isFirst : Follows processor first left)
    (isNext : ∀ result, result.2.processor = processor → Follows processor (next result) right) :
    Follows processor (first >>= next) (left ++ right) := by
  cases first with
  | error failure =>
      refine ⟨?_, fun result isResult => nomatch isResult⟩
      rw [List.forM_append, ← isFirst.outcome]
      rfl
  | ok result =>
      have kept := isNext result (isFirst.processor result rfl)
      refine ⟨?_, kept.processor⟩
      rw [List.forM_append, ← isFirst.outcome]
      exact kept.outcome

/-- Emission of a list, item by item. -/
theorem foldlM {α : Type} {step : CodegenCtx × Program → α → Outcome (CodegenCtx × Program)}
    {f : α → List Request} {items : List α}
    (isStep : ∀ current, current.2.processor = processor → ∀ item ∈ items,
      Follows processor (step current item) (f item))
    (same : program.processor = processor) :
    Follows processor (items.foldlM step (ctx, program)) (items.flatMap f) := by
  induction items generalizing ctx program with
  | nil => exact .pure same
  | cons item items ih =>
      rw [List.foldlM_cons, List.flatMap_cons]
      refine .bind (isStep (ctx, program) same item List.mem_cons_self) fun result kept => ?_
      exact ih (fun current kept other otherMem =>
        isStep current kept other (List.mem_cons_of_mem _ otherMem)) kept

theorem emitAsmSyllableInSlot (same : program.processor = processor) (opcode : Opcode)
    (asm : Asm.Syllable) (slot : Nat) :
    (ctx.emitAsmSyllableInSlot program opcode asm slot).map (fun _ => ()) =
        Request.place processor opcode slot ∧
      ∀ result, ctx.emitAsmSyllableInSlot program opcode asm slot = .ok result →
        result.2.processor = processor := by
  subst same
  unfold CodegenCtx.emitAsmSyllableInSlot Request.place bundleWith
  by_cases supported : slotSupportsOpcode slot opcode program.processor = true
  · rw [if_pos supported, if_pos supported]
    dsimp only [CodegenCtx.waitUntil]
    by_cases inside : slot < program.processor.width
    · rw [if_pos inside, if_pos inside]
      refine ⟨rfl, fun result isResult => ?_⟩
      cases isResult
      rfl
    · rw [if_neg inside, if_neg inside]
      exact ⟨rfl, fun result isResult => nomatch isResult⟩
  · rw [if_neg supported, if_neg supported]
    exact ⟨rfl, fun result isResult => nomatch isResult⟩

theorem emitSyllable (same : program.processor = processor) (syllable : Mir.Syllable) :
    Follows processor (ctx.emitSyllable program syllable) [.syllable syllable] := by
  unfold CodegenCtx.emitSyllable CodegenCtx.emitAsmSyllable
  rw [same]
  have only := forM_singleton processor (.syllable syllable)
  cases lowered : lowerSyllable syllable with
  | error failure =>
      refine ⟨?_, fun result isResult => nomatch isResult⟩
      rw [only, Request.outcome, lowered]
      rfl
  | ok asm =>
      cases isSlot : scalarSlot syllable.opcode processor with
      | error failure =>
          refine ⟨?_, fun result isResult => nomatch isResult⟩
          rw [only, Request.outcome, lowered, isSlot]
          rfl
      | ok slot =>
          obtain ⟨isPlaced, kept⟩ := emitAsmSyllableInSlot same syllable.opcode asm slot
          refine ⟨?_, kept⟩
          rw [only, Request.outcome, lowered, isSlot]
          exact isPlaced

theorem emitControlSyllable (same : program.processor = processor) (opcode : Opcode)
    (asm : Asm.Syllable) {request : Request}
    (isRequest : request.outcome processor = (do
      let slot ← xSlot processor
      Request.place processor opcode slot)) :
    Follows processor (ctx.emitControlSyllable program opcode asm) [request] := by
  unfold CodegenCtx.emitControlSyllable
  rw [same]
  have only := forM_singleton processor request
  cases isSlot : xSlot processor with
  | error failure =>
      refine ⟨?_, fun result isResult => nomatch isResult⟩
      rw [only, isRequest, isSlot]
      rfl
  | ok slot =>
      obtain ⟨isPlaced, kept⟩ := emitAsmSyllableInSlot same opcode asm slot
      refine ⟨?_, kept⟩
      rw [only, isRequest, isSlot]
      exact isPlaced

theorem emitTerminator (same : program.processor = processor) (terminator : Terminator) :
    Follows processor (ctx.emitTerminator program terminator) [.terminator terminator] := by
  cases terminator with
  | ret => exact emitControlSyllable same .ret _ rfl
  | jump label => exact emitControlSyllable same .jump _ rfl
  | directCall target cont => exact emitControlSyllable same .call _ rfl
  | branch cond label =>
      cases isPred : predForReg cond with
      | error failure =>
          rw [CodegenCtx.emitTerminator, isPred]
          refine ⟨?_, fun result isResult => nomatch isResult⟩
          rw [forM_singleton, Request.outcome, isPred]
          rfl
      | ok pred =>
          rw [CodegenCtx.emitTerminator, isPred]
          refine emitControlSyllable same .branch _ ?_
          rw [Request.outcome, isPred]
          rfl

theorem emitBlock (same : program.processor = processor) (name : String)
    (entry : Mir.Block × Nat) :
    Follows processor (emitBlock name (ctx, program) entry) (blockRequests entry.1) := by
  obtain ⟨block, idx⟩ := entry
  have isMap : block.syllables.map Request.syllable =
      block.syllables.flatMap fun syllable => [.syllable syllable] := List.map_eq_flatMap
  rw [blockRequests, isMap]
  refine .bind (.foldlM (fun current kept syllable _ => ?_) same) fun result kept => ?_
  · exact emitSyllable kept syllable
  · exact emitTerminator kept block.terminator

end Follows

/-- A function ends as its requests do. -/
theorem emitFunction_outcome {processor : Processor} {program : Program}
    (same : program.processor = processor) (function : Mir.Function) :
    (emitFunction program function).map (fun _ => ()) =
        forM (functionRequests function) (Request.outcome processor) ∧
      ∀ result, emitFunction program function = .ok result → result.processor = processor := by
  have isFold : Follows processor
      (function.blocks.zipIdx.foldlM (emitBlock function.name) ({}, program))
      (function.blocks.zipIdx.flatMap fun entry => blockRequests entry.1) :=
    .foldlM (fun current kept entry _ => .emitBlock kept function.name entry) same
  have isRequests : function.blocks.zipIdx.flatMap (fun entry => blockRequests entry.1) =
      functionRequests function := by
    rw [functionRequests, ← List.flatMap_map, List.zipIdx_map_fst]
  rw [isRequests] at isFold
  unfold emitFunction
  cases emitted : function.blocks.zipIdx.foldlM (emitBlock function.name) ({}, program) with
  | error failure =>
      rw [emitted] at isFold
      exact ⟨isFold.outcome, fun result isResult => nomatch isResult⟩
  | ok result =>
      rw [emitted] at isFold
      refine ⟨isFold.outcome, fun other isOther => ?_⟩
      cases isOther
      exact isFold.processor result rfl

/-- A module ends as its requests do. -/
theorem scalarProgram_outcome (functions : List Mir.Function) (processor : Processor) :
    (scalarProgram functions processor).map (fun _ => ()) =
      forM (requests functions) (Request.outcome processor) := by
  have general : ∀ program : Program, program.processor = processor →
      (functions.foldlM emitFunction program).map (fun _ => ()) =
        forM (requests functions) (Request.outcome processor) := by
    induction functions with
    | nil => exact fun program same => rfl
    | cons function functions ih =>
        intro program same
        obtain ⟨isFirst, kept⟩ := emitFunction_outcome same function
        rw [List.foldlM_cons, requests, List.flatMap_cons, List.forM_append, ← isFirst]
        cases emitted : emitFunction program function with
        | error failure => rfl
        | ok result => exact ih result (kept result emitted)
  exact general ⟨processor, []⟩ rfl

/-- Where a list of requests fails. -/
theorem forM_outcome_eq_error_iff {processor : Processor} {items : List Request}
    {failure : Failure} :
    forM items (Request.outcome processor) = .error failure ↔
      ∃ front request back, items = front ++ request :: back ∧
        (∀ other ∈ front, other.outcome processor = .ok ()) ∧
        request.outcome processor = .error failure := by
  induction items with
  | nil => simp [pure, Except.pure]
  | cons item items ih =>
      rw [List.forM_cons]
      cases first : item.outcome processor with
      | error other =>
          refine ⟨fun failed => ?_, ?_⟩
          · cases failed
            exact ⟨[], item, items, rfl, by simp, first⟩
          · rintro ⟨front, request, back, isSplit, issued, fails⟩
            cases front with
            | nil =>
                cases isSplit
                rw [first] at fails
                exact fails
            | cons head front =>
                cases isSplit
                rw [issued item List.mem_cons_self] at first
                cases first
      | ok done =>
          refine ih.trans ⟨?_, ?_⟩
          · rintro ⟨front, request, back, rfl, issued, fails⟩
            exact ⟨item :: front, request, back, rfl, List.forall_mem_cons.mpr ⟨first, issued⟩, fails⟩
          · rintro ⟨front, request, back, isSplit, issued, fails⟩
            cases front with
            | nil =>
                cases isSplit
                rw [first] at fails
                cases fails
            | cons head front =>
                cases isSplit
                exact ⟨front, request, back, rfl,
                  fun other otherMem => issued other (List.mem_cons_of_mem _ otherMem), fails⟩

theorem scalarProgram_eq_error_iff {functions : List Mir.Function} {processor : Processor}
    {failure : Failure} :
    scalarProgram functions processor = .error failure ↔
      ∃ front request back, requests functions = front ++ request :: back ∧
        (∀ other ∈ front, other.outcome processor = .ok ()) ∧
        request.outcome processor = .error failure := by
  rw [← forM_outcome_eq_error_iff, ← scalarProgram_outcome]
  cases scalarProgram functions processor with
  | error other => simp [Except.map]
  | ok program => simp [Except.map]

end VliwCompiler.Codegen
