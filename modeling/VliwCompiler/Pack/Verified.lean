import VliwCompiler.Pack.Legality
import VliwCompiler.Pack.Refinement

/-!
# Generated programs pass the verifier

The verifier is run once more on the finished program.  Scalar bundles are
placed in slots it accepts, and a merged bundle is written only after it has
been accepted, so that this last check never fails.
-/

namespace VliwCompiler.Pack

open Asm (Opcode Bundle Item Processor Program programBundles verifyBundle verifyProgram)
open Codegen (Placed AllPlaced scalarProgram emitScalarVliwModule slotSupportsOpcode)
open Mir (Function)

/-! ### Placed bundles -/

theorem placed_syllables {processor : Processor} {bundle : Bundle}
    (placed : Placed processor bundle) : bundle.syllables = [] ∨
      ∃ asm opcode, bundle.syllables = [asm] ∧ Opcode.fromMnemonic asm.opcode = some opcode := by
  cases placed with
  | wait => exact .inl rfl
  | @issue opcode asm slot inside known supported =>
      refine .inr ⟨asm, opcode, ?_, known⟩
      have built : Codegen.bundleWith processor.width slot asm =
          .ok ⟨(List.replicate processor.width none).set slot (some asm)⟩ := if_pos inside
      exact (Codegen.syllables_bundleWith built).1

theorem known_of_placed {processor : Processor} {bundle : Bundle}
    (placed : Placed processor bundle) : Known bundle := by
  intro syllable syllableMem
  rcases placed_syllables placed with empty | ⟨asm, opcode, only, known⟩
  · rw [empty] at syllableMem
    cases syllableMem
  · rw [only, List.mem_singleton] at syllableMem
    rw [syllableMem, known]
    rfl

theorem AllPlaced.bundles {program : Program} (placed : AllPlaced program) :
    ∀ bundle ∈ programBundles program.items, Placed program.processor bundle :=
  fun bundle bundleMem => placed bundle (Asm.mem_programBundles.mp bundleMem)

/-- Scheduling and scalar emission place every syllable. -/
theorem allPlaced_of_scheduledProgram {functions : List Function} {processor : Processor}
    {program : Program} (emitted : scheduledProgram functions processor = .ok program) :
    AllPlaced program ∧ program.processor = processor := by
  obtain ⟨scheduled, -, scalar⟩ := exists_scheduled emitted
  exact Codegen.allPlaced_of_scalarProgram scalar

theorem processor_of_packScalarProgram {program packed : Program}
    (done : packScalarProgram program = some packed) : packed.processor = program.processor := by
  obtain ⟨state, -, isFlushed⟩ := Option.bind_eq_some_iff.mp done
  obtain ⟨final, -, rfl⟩ := Option.map_eq_some_iff.mp isFlushed
  rfl

/-- The packer stops on every placed program. -/
theorem exists_packed_of_placed {program : Program} (placed : AllPlaced program) :
    ∃ packed, packScalarProgram program = some packed :=
  exists_packScalarProgram fun bundle bundleMem =>
    known_of_placed (AllPlaced.bundles placed bundle bundleMem)

/-! ### Packed bundles -/

/-- Every bundle is accepted by the verifier. -/
def AllVerified (processor : Processor) (bundles : List Bundle) : Prop :=
  ∀ bundle ∈ bundles, verifyBundle bundle processor = .ok ()

theorem AllVerified.append {processor : Processor} {first second : List Bundle}
    (left : AllVerified processor first) (right : AllVerified processor second) :
    AllVerified processor (first ++ second) :=
  List.forall_mem_append.mpr ⟨left, right⟩

theorem allVerified_singleton {processor : Processor} {bundle : Bundle}
    (accepted : verifyBundle bundle processor = .ok ()) : AllVerified processor [bundle] :=
  List.forall_mem_singleton.mpr accepted

theorem allVerified_replicate (processor : Processor) (count : Nat) :
    AllVerified processor (List.replicate count ⟨[]⟩) := by
  intro bundle bundleMem
  rw [(List.mem_replicate.mp bundleMem).2]
  exact verified_of_placed .wait

/-- A step of the packer writes verified bundles. -/
theorem PackStep.allVerified {processor : Processor} {out out' : List Bundle} {bundle : Bundle}
    (step : PackStep processor out bundle out') (placed : Placed processor bundle)
    (verified : AllVerified processor out) : AllVerified processor out' := by
  cases step with
  | keep empty => exact verified.append (allVerified_singleton (verified_of_placed placed))
  | merge full isOut lastFull straight settled sourcesReady merged accepted =>
      have front := (List.forall_mem_append.mp (isOut ▸ verified)).1
      exact AllVerified.append front (allVerified_singleton accepted)
  | issue count full sourcesReady tight =>
      exact (verified.append (allVerified_replicate processor count)).append
        (allVerified_singleton (verified_of_placed placed))

theorem allVerified_of_packed {program packed : Program} (placed : AllPlaced program)
    (done : packScalarProgram program = some packed) :
    AllVerified program.processor (programBundles packed.items) := by
  refine packed_induction (motive := AllVerified program.processor) ?_ ?_ ?_ done
  · intro bundle bundleMem
    cases bundleMem
  · intro out bundle out' bundleMem _ step
    exact step.allVerified (AllPlaced.bundles placed bundle bundleMem)
  · intro out bundle bundleMem _ verified
    exact verified.append (allVerified_singleton
      (verified_of_placed (AllPlaced.bundles placed bundle bundleMem)))

/-! ### Generated programs -/

theorem verifyProgram_of_placed {program : Program} (placed : AllPlaced program) :
    verifyProgram program = .ok () :=
  verifyProgram_eq_ok_iff.mpr fun bundle bundleMem => verified_of_placed (placed bundle bundleMem)

theorem verifyProgram_of_packed {program packed : Program} (placed : AllPlaced program)
    (done : packScalarProgram program = some packed) : verifyProgram packed = .ok () := by
  rw [verifyProgram_eq_ok_iff, processor_of_packScalarProgram done]
  intro bundle bundleMem
  exact allVerified_of_packed placed done bundle (Asm.mem_programBundles.mpr bundleMem)

/-- Whenever all syllables can be emitted, the verifier accepts the scalar
program and the packed one, and both are returned. -/
theorem emitted_verified (functions : List Function) (processor : Processor) :
    (∀ program, scalarProgram functions processor = .ok program →
      verifyProgram program = .ok () ∧
        emitScalarVliwModule functions processor = .ok (Asm.emit program)) ∧
    ∀ program, scheduledProgram functions processor = .ok program →
      ∃ packed, packScalarProgram program = some packed ∧ verifyProgram packed = .ok () ∧
        emitPackedVliwModule functions processor = .ok (Asm.emit packed) := by
  constructor
  · intro program emitted
    have accepted := verifyProgram_of_placed (Codegen.allPlaced_of_scalarProgram emitted).1
    refine ⟨accepted, bind_eq_ok.mpr ⟨program, emitted, ?_⟩⟩
    rw [accepted]
    rfl
  · intro program emitted
    obtain ⟨placed, -⟩ := allPlaced_of_scheduledProgram emitted
    obtain ⟨packed, done⟩ := exists_packed_of_placed placed
    have accepted := verifyProgram_of_packed placed done
    refine ⟨packed, done, accepted, bind_eq_ok.mpr ⟨packed, ?_, ?_⟩⟩
    · refine bind_eq_ok.mpr ⟨program, emitted, ?_⟩
      rw [done]
      rfl
    · rw [accepted]
      rfl

/-- Two units share a name and the last declaration counts. -/
def renamedUnits : Processor where
  width := 2
  units := [⟨"u", "memory"⟩, ⟨"u", "integer_alu"⟩, ⟨"c", "control"⟩]
  slotAliases := [⟨"X", 1⟩, ⟨"I0", 7⟩]
  slotUnits := [["u"], ["c", "u"]]

theorem emitted_verified_renamedUnits :
    ∃ program packed, scheduledProgram twoConstants renamedUnits = .ok program ∧
      packScalarProgram program = some packed ∧ verifyProgram packed = .ok () := by
  obtain ⟨program, emitted⟩ : ∃ program, scheduledProgram twoConstants renamedUnits = .ok program :=
    exists_of_isOk (by decide +kernel)
  obtain ⟨packed, done, accepted, -⟩ :=
    (emitted_verified twoConstants renamedUnits).2 program emitted
  exact ⟨program, packed, emitted, done, accepted⟩

end VliwCompiler.Pack
