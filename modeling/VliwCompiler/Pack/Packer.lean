import VliwCompiler.Codegen.Context
import VliwCompiler.Schedule.ListSchedule

/-!
# Bundle packing

The packer merges a bundle into the one before it when the slots, the ready
cycles and the bundle verifier allow it, and otherwise pads with empty bundles
until the sources of the bundle are ready.  Labels and control transfers end a
segment; nothing is merged across them.
-/

namespace VliwCompiler.Pack

open Asm (Opcode Operand Bundle Item Processor Program)
open Codegen (slotSupportsOpcode)
open Schedule (ReadyState)

/-! ### Bundles -/

def bundleIsEmpty (bundle : Bundle) : Bool := bundle.slots.all Option.isNone

/-- Whether a syllable is `ret`, `jmp`, `br` or `call`. -/
def syllableIsTerminator (syllable : Asm.Syllable) : Bool :=
  match Opcode.fromMnemonic syllable.opcode with
  | some .ret | some .jump | some .branch | some .call => true
  | _ => false

def bundleIsTerminator (bundle : Bundle) : Bool := bundle.syllables.any syllableIsTerminator

/-- `Vec::resize_with` to the processor width. -/
def normalizeSlots (slots : List (Option Asm.Syllable)) (width : Nat) :
    List (Option Asm.Syllable) :=
  slots.take width ++ List.replicate (width - slots.length) none

def firstOpenCompatibleSlot (bundle : Bundle) (opcode : Opcode) (processor : Processor) :
    Option Nat :=
  (List.range processor.width).find? fun slot =>
    (bundle.slots[slot]?).any Option.isNone && slotSupportsOpcode slot opcode processor

/-- Put one more syllable into a bundle. -/
def placeSyllable (processor : Processor) (merged : Bundle) (syllable : Asm.Syllable) :
    Option Bundle :=
  (Opcode.fromMnemonic syllable.opcode).bind fun opcode =>
    (firstOpenCompatibleSlot merged opcode processor).map fun slot =>
      ⟨merged.slots.set slot (some syllable)⟩

def mergeBundles (processor : Processor) (a b : Bundle) : Option Bundle :=
  b.syllables.foldlM (placeSyllable processor) ⟨normalizeSlots a.slots processor.width⟩

/-! ### Ready cycles -/

/-- Whether the operands read are ready; the first register operand and the
first predicate operand are skipped when they are destinations. -/
def operandsReadyAt (skipGprDest skipPredDest : Bool) (cycle : Nat) (ready : ReadyState) :
    List Operand → Bool
  | [] => true
  | .reg reg :: rest =>
      if skipGprDest then operandsReadyAt false skipPredDest cycle ready rest
      else (ready.gpr.lookup reg).getD 0 ≤ cycle &&
        operandsReadyAt skipGprDest skipPredDest cycle ready rest
  | .pred pred :: rest =>
      if skipPredDest then operandsReadyAt skipGprDest false cycle ready rest
      else (ready.pred.lookup pred).getD 0 ≤ cycle &&
        operandsReadyAt skipGprDest skipPredDest cycle ready rest
  | .memAddr base _ :: rest =>
      (ready.gpr.lookup base).getD 0 ≤ cycle &&
        operandsReadyAt skipGprDest skipPredDest cycle ready rest
  | .imm _ :: rest => operandsReadyAt skipGprDest skipPredDest cycle ready rest
  | .label _ :: rest => operandsReadyAt skipGprDest skipPredDest cycle ready rest

def sourcesReadyAt (opcode : Opcode) (syllable : Asm.Syllable) (cycle : Nat)
    (ready : ReadyState) : Bool :=
  operandsReadyAt opcode.writesGpr opcode.writesPred cycle ready syllable.operands

def bundleSourcesReadyAt (bundle : Bundle) (cycle : Nat) (ready : ReadyState) : Bool :=
  bundle.syllables.all fun syllable =>
    match Opcode.fromMnemonic syllable.opcode with
    | some opcode => sourcesReadyAt opcode syllable cycle ready
    | none => false

/-- Record the result of a syllable issued at `cycle`. -/
def updateReadyAfterSyllable (cycle : Nat) (ready : ReadyState) (syllable : Asm.Syllable) :
    ReadyState :=
  match Opcode.fromMnemonic syllable.opcode with
  | none => ready
  | some opcode =>
      let resultReady := cycle + opcode.latency
      let ready :=
        match opcode.writesGpr, syllable.operands.head? with
        | true, some (.reg reg) =>
            if reg ≠ zeroReg then { ready with gpr := ready.gpr.insert reg resultReady } else ready
        | _, _ => ready
      match opcode.writesPred, syllable.operands.head? with
      | true, some (.pred pred) => { ready with pred := ready.pred.insert pred resultReady }
      | _, _ => ready

def updateReadyAfterBundle (bundle : Bundle) (cycle : Nat) (ready : ReadyState) : ReadyState :=
  bundle.syllables.foldl (updateReadyAfterSyllable cycle) ready

def updateReadyAfterPackedBundles (bundles : List Bundle) (startCycle : Nat)
    (ready : ReadyState) : ReadyState :=
  (bundles.zipIdx startCycle).foldl (fun ready (bundle, cycle) =>
    updateReadyAfterBundle bundle cycle ready) ready

def readyAfterBundles (initial : ReadyState) (startCycle : Nat) (bundles : List Bundle) :
    ReadyState :=
  updateReadyAfterPackedBundles bundles startCycle initial

/-- The values of a hash map. -/
def values (map : HashMap UInt8 Nat) : List Nat := map.entries.map (·.2)

def hasPendingResultAt (ready : ReadyState) (cycle : Nat) : Bool :=
  (values ready.gpr ++ values ready.pred).any (cycle < ·)

/-! ### Segments -/

/-- The packed bundles with `bundle` merged into the last one, if it can be. -/
def tryMergeIntoPrevious (processor : Processor) (out : List Bundle) (bundle : Bundle)
    (startCycle : Nat) (initialReady : ReadyState) : Option (List Bundle) :=
  match out.getLast? with
  | none => none
  | some last =>
      if bundleIsEmpty last || bundleIsTerminator last then none
      else if hasPendingResultAt (readyAfterBundles initialReady startCycle out)
          (startCycle + out.length) then none
      else if !bundleSourcesReadyAt bundle (startCycle + (out.length - 1))
          (readyAfterBundles initialReady startCycle out.dropLast) then none
      else
        match mergeBundles processor last bundle with
        | none => none
        | some candidate =>
            match Asm.verifyBundle candidate processor with
            | .error _ => none
            | .ok () => some (out.dropLast ++ [candidate])

/-- Pad with empty bundles until the sources of a bundle are ready.  The loop
runs for ever when an opcode is unknown; there is no result when the given
number of iterations is not enough. -/
def padUntilReady (bundle : Bundle) (startCycle : Nat) (initialReady : ReadyState) :
    Nat → List Bundle → Option (List Bundle)
  | 0, _ => none
  | fuel + 1, out =>
      if bundleSourcesReadyAt bundle (startCycle + out.length)
          (readyAfterBundles initialReady startCycle out) then some out
      else padUntilReady bundle startCycle initialReady fuel (out ++ [{}])

/-- The last cycle at which a result becomes available. -/
def latestReady (ready : ReadyState) : Nat :=
  (values ready.gpr ++ values ready.pred).foldl max 0

/-- Pack one more bundle. -/
def packBundle (processor : Processor) (startCycle : Nat) (initialReady : ReadyState)
    (out : List Bundle) (bundle : Bundle) : Option (List Bundle) :=
  if bundleIsEmpty bundle then some (out ++ [bundle])
  else
    match tryMergeIntoPrevious processor out bundle startCycle initialReady with
    | some merged => some merged
    | none =>
        (padUntilReady bundle startCycle initialReady
          (latestReady (readyAfterBundles initialReady startCycle out) + 1) out).map (· ++ [bundle])

def packBundleSegment (processor : Processor) (segment : List Bundle) (startCycle : Nat)
    (initialReady : ReadyState) : Option (List Bundle) :=
  segment.foldlM (packBundle processor startCycle initialReady) []

/-! ### Programs -/

/-- The state of the packing loop. -/
structure PackState where
  packed : List Item := []
  segment : List Bundle := []
  ready : ReadyState := {}
  cycle : Nat := 0

/-- Pack the pending segment. -/
def flushSegment (processor : Processor) (state : PackState) : Option PackState :=
  (packBundleSegment processor state.segment state.cycle state.ready).map fun bundles =>
    { packed := state.packed ++ bundles.map .bundle
      segment := []
      ready := updateReadyAfterPackedBundles bundles state.cycle state.ready
      cycle := state.cycle + bundles.length }

/-- Pack one more item. -/
def packItem (processor : Processor) (state : PackState) : Item → Option PackState
  | .label name =>
      (flushSegment processor state).map fun flushed =>
        { flushed with packed := flushed.packed ++ [.label name] }
  | .bundle bundle =>
      if bundleIsTerminator bundle then
        (flushSegment processor state).map fun flushed =>
          { flushed with
            packed := flushed.packed ++ [.bundle bundle]
            ready := updateReadyAfterBundle bundle flushed.cycle flushed.ready
            cycle := flushed.cycle + 1 }
      else some { state with segment := state.segment ++ [bundle] }

/-- Pack a scalar program; there is no result when the packer does not stop. -/
def packScalarProgram (program : Program) : Option Program :=
  (program.items.foldlM (packItem program.processor) {}).bind fun state =>
    (flushSegment program.processor state).map fun flushed =>
      { program with items := flushed.packed }

/-- Schedule and emit a function. -/
def emitScheduledFunction (program : Program) (function : Mir.Function) : Outcome Program := do
  let scheduled ← Schedule.listScheduleFunction function
  Codegen.emitFunction program scheduled

/-- The packed bundle stream of a list of functions. -/
def packedProgram (functions : List Mir.Function) (processor : Processor) : Outcome Program := do
  let program ← functions.foldlM emitScheduledFunction ⟨processor, []⟩
  match packScalarProgram program with
  | some packed => return packed
  | none => .error .diverges

/-- Emit a packed program as text. -/
def emitPackedVliwModule (functions : List Mir.Function) (processor : Processor) :
    Outcome String := do
  let program ← packedProgram functions processor
  match Asm.verifyProgram program with
  | .error _ => Codegen.notImplemented "generated packed VLIW failed verifier"
  | .ok () => return Asm.emit program

end VliwCompiler.Pack
