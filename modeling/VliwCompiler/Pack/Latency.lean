import VliwCompiler.Pack.Boundaries
import VliwCompiler.Pack.Hazards

/-!
# Latencies of packed programs

The table of ready cycles after a number of bundles holds, for every register,
the cycle at which the result of its last writer is available.  The packer looks
the sources of every bundle up in this table before it issues the bundle, merged
or not, and so no explicit source is read too early.
-/

namespace VliwCompiler.Pack

open Asm (Opcode Operand Bundle Item Processor Program gprReads programBundles verifyBundle
  blockItems)
open Codegen (Placed AllPlaced ScalarBody ScalarCode scalarProgram)
open Mir (Function)
open Schedule (ReadyState)

/-- Bodies of blocks do not transfer control. -/
def ControlAtEnd (functions : List Function) : Prop :=
  ∀ function ∈ functions, ∀ block ∈ function.blocks, ∀ syllable ∈ block.syllables,
    syllable.opcode.behavior ≠ .control

/-- Bundles are issued one in each cycle.  No syllable reads a register written
by another one of the same bundle, and registers are read only when the result
of their last writer is available. -/
structure LatencyKept (bundles : List Bundle) : Prop where
  together : ∀ {cycle : Nat} {bundle : Bundle} {i j : Nat} {reader writer : Asm.Syllable}
    {reg : UInt8}, bundles[cycle]? = some bundle → i ≠ j →
    bundle.slots[i]? = some (some reader) → bundle.slots[j]? = some (some writer) →
    reg ∈ gprReadsOf reader → reg ∉ gprWrites writer
  apart : ∀ {issued cycle : Nat} {earlier bundle : Bundle} {reader writer : Asm.Syllable}
    {opcode : Opcode} {reg : UInt8}, bundles[cycle]? = some bundle →
    reader ∈ bundle.syllables → reg ∈ gprReadsOf reader → reg ≠ zeroReg →
    issued < cycle → bundles[issued]? = some earlier → writer ∈ earlier.syllables →
    reg ∈ gprWrites writer → Opcode.fromMnemonic writer.opcode = some opcode →
    (∀ between middle other, issued < between → between < cycle →
      bundles[between]? = some middle → other ∈ middle.syllables → reg ∉ gprWrites other) →
    issued + opcode.latency ≤ cycle

/-! ### The table of ready cycles -/

theorem lookup_updateReadyAfterSyllable {cycle : Nat} {ready : ReadyState}
    {syllable : Asm.Syllable} {reg : UInt8} (unwritten : gprWriteOf syllable ≠ some reg) :
    (updateReadyAfterSyllable cycle ready syllable).gpr.lookup reg = ready.gpr.lookup reg := by
  unfold updateReadyAfterSyllable
  split
  · rfl
  · rename_i opcode known
    have unchanged : ∀ {other : UInt8} {value : Nat}, gprWriteOf syllable = some other →
        (ready.gpr.insert other value).lookup reg = ready.gpr.lookup reg := by
      intro other value written
      exact AList.lookup_insert_ne fun same => unwritten (same ▸ written)
    dsimp only
    have kept : ∀ {after middle : ReadyState}, after.gpr = middle.gpr →
        middle.gpr.lookup reg = ready.gpr.lookup reg →
          after.gpr.lookup reg = ready.gpr.lookup reg := by
      intro after middle same isMiddle
      rw [same, isMiddle]
    refine kept (by split <;> rfl) ?_
    split
    · rename_i other writes first
      split
      · refine unchanged ?_
        obtain ⟨rest, isOperands⟩ := List.head?_eq_some_iff.mp first
        have proper : opcode ≠ .nop := by
          rintro rfl
          cases writes
        simp [gprWriteOf, known, proper, Asm.gprWrite, writes, isOperands]
      · rfl
    · rfl

theorem lookup_updateReadyAfterSyllable_self {cycle : Nat} {ready : ReadyState}
    {syllable : Asm.Syllable} {opcode : Opcode} {reg : UInt8}
    (known : Opcode.fromMnemonic syllable.opcode = some opcode) (proper : reg ≠ zeroReg)
    (written : gprWriteOf syllable = some reg) :
    (updateReadyAfterSyllable cycle ready syllable).gpr.lookup reg =
      some (cycle + opcode.latency) := by
  have writes : opcode.writesGpr = true ∧ ∃ rest, syllable.operands = .reg reg :: rest := by
    simp only [gprWriteOf, known, Option.bind_some] at written
    split at written
    · cases written
    · unfold Asm.gprWrite at written
      split at written
      · rename_i other rest isWriter isOperands
        cases written
        exact ⟨isWriter, rest, isOperands⟩
      · cases written
  obtain ⟨isWriter, rest, isOperands⟩ := writes
  unfold updateReadyAfterSyllable
  rw [known]
  simp only [isWriter, isOperands, List.head?_cons]
  rw [if_pos proper]
  split <;> exact AList.lookup_insert _

theorem lookup_updateReadyAfterBundle {cycle : Nat} {reg : UInt8} {syllables : List Asm.Syllable}
    (unwritten : ∀ syllable ∈ syllables, gprWriteOf syllable ≠ some reg) (ready : ReadyState) :
    (syllables.foldl (updateReadyAfterSyllable cycle) ready).gpr.lookup reg =
      ready.gpr.lookup reg := by
  induction syllables generalizing ready with
  | nil => rfl
  | cons syllable syllables ih =>
      obtain ⟨first, others⟩ := List.forall_mem_cons.mp unwritten
      rw [List.foldl_cons, ih others, lookup_updateReadyAfterSyllable first]

/-! ### Bundles of packed programs -/

/-- What holds of every bundle of a packed program. -/
structure Sound (processor : Processor) (bundle : Bundle) : Prop where
  fits : bundle.slots.length ≤ processor.width
  accepted : verifyBundle bundle processor = .ok ()
  alone : bundleIsTerminator bundle = true → ∃ asm, bundle.syllables = [asm]

theorem sound_of_placed {processor : Processor} {bundle : Bundle}
    (placed : Placed processor bundle) : Sound processor bundle where
  fits := (single_of_placed placed).fits
  accepted := verified_of_placed placed
  alone := by
    intro transfers
    rcases placed_syllables placed with empty | ⟨asm, opcode, only, -⟩
    · unfold bundleIsTerminator at transfers
      rw [empty] at transfers
      cases transfers
    · exact ⟨asm, only⟩

namespace Sound

variable {processor : Processor} {bundle : Bundle}

theorem unwritten (sound : Sound processor bundle) {front back : List Asm.Syllable}
    {writer : Asm.Syllable} {reg : UInt8} (split : bundle.syllables = front ++ writer :: back)
    (written : gprWriteOf writer = some reg) :
    ∀ other ∈ back, gprWriteOf other ≠ some reg := by
  have verified := verified_of_verifyBundle sound.accepted
  have pairwise : (issued processor bundle).Pairwise fun first second =>
      ∀ reg, gprWriteOf first = some reg → gprWriteOf second ≠ some reg :=
    pairwise_issued fun i j first second iInside jInside less isFirst isSecond reg =>
      verified.waw iInside jInside (Nat.ne_of_lt less) isFirst isSecond
  have whole : issued processor bundle = bundle.syllables := by
    unfold issued
    rw [List.take_of_length_le sound.fits]
    rfl
  rw [whole, split] at pairwise
  intro other otherMem
  exact (List.pairwise_cons.mp (List.pairwise_append.mp pairwise).2.1).1 other otherMem reg written

/-- The table after a bundle that writes a register. -/
theorem lookup_ready (sound : Sound processor bundle) {writer : Asm.Syllable} {opcode : Opcode}
    {reg : UInt8} (writerMem : writer ∈ bundle.syllables)
    (known : Opcode.fromMnemonic writer.opcode = some opcode) (proper : reg ≠ zeroReg)
    (written : gprWriteOf writer = some reg) (cycle : Nat) (ready : ReadyState) :
    (updateReadyAfterBundle bundle cycle ready).gpr.lookup reg = some (cycle + opcode.latency) := by
  obtain ⟨front, back, split⟩ := List.append_of_mem writerMem
  unfold updateReadyAfterBundle
  rw [split, List.foldl_append, List.foldl_cons,
    lookup_updateReadyAfterBundle (sound.unwritten split written),
    lookup_updateReadyAfterSyllable_self known proper written]

end Sound

/-- The table holds the ready cycle of the last writer. -/
theorem lookup_readyAfter {processor : Processor} {bundles : List Bundle}
    (sound : ∀ bundle ∈ bundles, Sound processor bundle) {issued cycle : Nat} {earlier : Bundle}
    {writer : Asm.Syllable} {opcode : Opcode} {reg : UInt8} (less : issued < cycle)
    (inside : cycle ≤ bundles.length) (isEarlier : bundles[issued]? = some earlier)
    (writerMem : writer ∈ earlier.syllables)
    (known : Opcode.fromMnemonic writer.opcode = some opcode) (proper : reg ≠ zeroReg)
    (written : gprWriteOf writer = some reg)
    (last : ∀ between middle other, issued < between → between < cycle →
      bundles[between]? = some middle → other ∈ middle.syllables →
      gprWriteOf other ≠ some reg) :
    (readyAfter (bundles.take cycle)).gpr.lookup reg = some (issued + opcode.latency) := by
  induction cycle, less using Nat.le_induction with
  | base =>
      have whole : bundles.take (issued + 1) = bundles.take issued ++ [earlier] := by
        rw [List.take_add_one, isEarlier]
        rfl
      have length : (bundles.take issued).length = issued := by
        rw [List.length_take]
        omega
      rw [whole, readyAfter_singleton, length]
      exact (sound earlier (List.mem_of_getElem? isEarlier)).lookup_ready writerMem known proper
        written issued _
  | succ cycle more ih =>
      obtain ⟨middle, isMiddle⟩ : ∃ middle, bundles[cycle]? = some middle :=
        ⟨_, List.getElem?_eq_getElem (by omega)⟩
      have whole : bundles.take (cycle + 1) = bundles.take cycle ++ [middle] := by
        rw [List.take_add_one, isMiddle]
        rfl
      rw [whole, readyAfter_singleton]
      unfold updateReadyAfterBundle
      rw [lookup_updateReadyAfterBundle fun other otherMem =>
        last cycle middle other more (Nat.lt_succ_self _) isMiddle otherMem]
      exact ih (by omega) fun between middle other after before =>
        last between middle other after (by omega)

/-! ### Sources are ready -/

theorem ready_of_operandsReadyAt {ready : ReadyState} {cycle : Nat}
    {skipGprDest skipPredDest : Bool} {operands : List Operand}
    (isReady : operandsReadyAt skipGprDest skipPredDest cycle ready operands = true) :
    ∀ reg ∈ gprReads skipGprDest operands, (ready.gpr.lookup reg).getD 0 ≤ cycle := by
  induction operands generalizing skipGprDest skipPredDest with
  | nil => simp [gprReads]
  | cons operand operands ih =>
      cases operand with
      | reg reg =>
          cases skipGprDest with
          | true => exact ih isReady
          | false =>
              simp only [operandsReadyAt, Bool.false_eq_true, if_false, Bool.and_eq_true,
                decide_eq_true_eq] at isReady
              exact List.forall_mem_cons.mpr ⟨isReady.1, ih isReady.2⟩
      | pred pred =>
          cases skipPredDest with
          | true => exact ih isReady
          | false =>
              simp only [operandsReadyAt, Bool.false_eq_true, if_false, Bool.and_eq_true] at isReady
              exact ih isReady.2
      | imm value => exact ih isReady
      | memAddr base offset =>
          simp only [operandsReadyAt, Bool.and_eq_true, decide_eq_true_eq] at isReady
          exact List.forall_mem_cons.mpr ⟨isReady.1, ih isReady.2⟩
      | label name => exact ih isReady

/-- The registers read by the bundle are ready. -/
def ReadsReady (bundle : Bundle) (cycle : Nat) (ready : ReadyState) : Prop :=
  ∀ syllable ∈ bundle.syllables, ∀ reg ∈ gprReadsOf syllable,
    (ready.gpr.lookup reg).getD 0 ≤ cycle

theorem readsReady_of_sourcesReady {bundle : Bundle} {cycle : Nat} {ready : ReadyState}
    (isReady : bundleSourcesReadyAt bundle cycle ready = true) :
    ReadsReady bundle cycle ready := by
  intro syllable syllableMem reg regMem
  have syllableReady := List.all_eq_true.mp isReady syllable syllableMem
  unfold gprReadsOf at regMem
  split at regMem
  · cases regMem
  · rename_i opcode known
    rw [known] at syllableReady
    split at regMem
    · cases regMem
    · exact ready_of_operandsReadyAt syllableReady reg regMem

/-- Every bundle is issued when the registers it reads are ready. -/
def Timely (bundles : List Bundle) : Prop :=
  ∀ cycle bundle, bundles[cycle]? = some bundle →
    ReadsReady bundle cycle (readyAfter (bundles.take cycle))

theorem Timely.append {bundles : List Bundle} {bundle : Bundle} (timely : Timely bundles)
    (isReady : ReadsReady bundle bundles.length (readyAfter bundles)) :
    Timely (bundles ++ [bundle]) := by
  intro cycle other found
  by_cases inside : cycle < bundles.length
  · rw [List.getElem?_append_left inside] at found
    rw [List.take_append_of_le_length (Nat.le_of_lt inside)]
    exact timely cycle other found
  · rw [List.getElem?_append_right (Nat.le_of_not_lt inside)] at found
    obtain ⟨atZero, rfl⟩ : cycle - bundles.length = 0 ∧ bundle = other := by
      cases position : cycle - bundles.length with
      | zero =>
          rw [position] at found
          exact ⟨rfl, Option.some.inj found⟩
      | succ more =>
          rw [position] at found
          cases found
    have isCycle : cycle = bundles.length := by omega
    rw [isCycle, List.take_append_of_le_length (Nat.le_refl _), List.take_length]
    exact isReady

theorem Timely.front {front back : List Bundle} (timely : Timely (front ++ back)) :
    Timely front := by
  intro cycle bundle found
  obtain ⟨inside, -⟩ := List.getElem?_eq_some_iff.mp found
  have whole := timely cycle bundle (by rw [List.getElem?_append_left inside]; exact found)
  rwa [List.take_append_of_le_length (Nat.le_of_lt inside)] at whole

theorem Timely.replicate {bundles : List Bundle} (timely : Timely bundles) (count : Nat) :
    Timely (bundles ++ List.replicate count ⟨[]⟩) := by
  induction count with
  | zero => rwa [List.replicate_zero, List.append_nil]
  | succ count ih =>
      rw [List.replicate_succ', ← List.append_assoc]
      refine ih.append ?_
      intro syllable syllableMem
      cases syllableMem

theorem Timely.last {front : List Bundle} {last : Bundle} (timely : Timely (front ++ [last])) :
    ReadsReady last front.length (readyAfter front) := by
  have found := timely front.length last (by simp)
  rwa [List.take_append_of_le_length (Nat.le_refl _), List.take_length] at found

/-! ### Steps of the packer -/

theorem exists_single_of_placed {processor : Processor} {bundle : Bundle}
    (placed : Placed processor bundle) (full : bundle.syllables ≠ []) :
    ∃ asm, bundle.syllables = [asm] := by
  rcases placed_syllables placed with empty | ⟨asm, opcode, only, -⟩
  · exact absurd empty full
  · exact ⟨asm, only⟩

/-- The syllables of a merged bundle. -/
theorem mem_of_merged {processor : Processor} {last bundle candidate : Bundle}
    (fits : last.slots.length ≤ processor.width) (placed : Placed processor bundle)
    (full : bundle.syllables ≠ []) (merged : mergeBundles processor last bundle = some candidate)
    {syllable : Asm.Syllable} :
    syllable ∈ candidate.syllables ↔ syllable ∈ last.syllables ∨ syllable ∈ bundle.syllables := by
  obtain ⟨asm, only⟩ := exists_single_of_placed placed full
  rw [← (perm_of_mergeBundles fits only merged).mem_iff, only, List.mem_append]

/-- What the packer keeps. -/
structure Kept (processor : Processor) (bundles : List Bundle) : Prop where
  sound : ∀ bundle ∈ bundles, Sound processor bundle
  timely : Timely bundles

/-- A merged bundle that the verifier accepts is sound. -/
theorem Sound.merge {processor : Processor} {last bundle candidate : Bundle}
    (lastSound : Sound processor last) (placed : Placed processor bundle)
    (full : bundle.syllables ≠ []) (straight : bundleIsTerminator bundle = false)
    (lastStraight : bundleIsTerminator last = false)
    (merged : mergeBundles processor last bundle = some candidate)
    (accepted : verifyBundle candidate processor = .ok ()) : Sound processor candidate := by
  refine ⟨?_, accepted, ?_⟩
  · obtain ⟨asm, only⟩ := exists_single_of_placed placed full
    obtain ⟨slot, -, -, rfl⟩ := mergeBundles_eq_some only merged
    simp [length_normalizeSlots]
  · intro transfers
    obtain ⟨syllable, syllableMem, isTerminator⟩ := List.any_eq_true.mp transfers
    rcases (mem_of_merged lastSound.fits placed full merged).mp syllableMem with inLast | inBundle
    · rw [← Bool.not_eq_true] at lastStraight
      exact absurd (List.any_eq_true.mpr ⟨syllable, inLast, isTerminator⟩) lastStraight
    · rw [← Bool.not_eq_true] at straight
      exact absurd (List.any_eq_true.mpr ⟨syllable, inBundle, isTerminator⟩) straight

theorem PackStep.sound {processor : Processor} {out out' : List Bundle} {bundle : Bundle}
    (step : PackStep processor out bundle out') (placed : Placed processor bundle)
    (straight : bundleIsTerminator bundle = false)
    (sound : ∀ bundle ∈ out, Sound processor bundle) : ∀ bundle ∈ out', Sound processor bundle := by
  cases step with
  | keep empty =>
      refine List.forall_mem_append.mpr ⟨sound, ?_⟩
      exact List.forall_mem_singleton.mpr (sound_of_placed placed)
  | @merge front last candidate full isOut lastFull lastStraight settled sourcesReady merged
      accepted =>
      subst isOut
      obtain ⟨frontSound, lastSound⟩ := List.forall_mem_append.mp sound
      refine List.forall_mem_append.mpr ⟨frontSound, List.forall_mem_singleton.mpr ?_⟩
      exact (List.forall_mem_singleton.mp lastSound).merge placed full straight lastStraight merged
        accepted
  | issue count full sourcesReady tight =>
      refine List.forall_mem_append.mpr ⟨List.forall_mem_append.mpr ⟨sound, ?_⟩,
        List.forall_mem_singleton.mpr (sound_of_placed placed)⟩
      intro other otherMem
      rw [(List.mem_replicate.mp otherMem).2]
      exact sound_of_placed .wait

theorem PackStep.timely {processor : Processor} {out out' : List Bundle} {bundle : Bundle}
    (step : PackStep processor out bundle out') (placed : Placed processor bundle)
    (sound : ∀ bundle ∈ out, Sound processor bundle) (timely : Timely out) : Timely out' := by
  cases step with
  | keep empty =>
      refine timely.append ?_
      intro syllable syllableMem
      rw [empty] at syllableMem
      cases syllableMem
  | @merge front last candidate full isOut lastFull lastStraight settled sourcesReady merged
      accepted =>
      subst isOut
      have fits := (sound last (List.mem_append_right _ List.mem_cons_self)).fits
      refine timely.front.append ?_
      intro syllable syllableMem
      rcases (mem_of_merged fits placed full merged).mp syllableMem with inLast | inBundle
      · exact timely.last syllable inLast
      · exact readsReady_of_sourcesReady sourcesReady syllable inBundle
  | issue count full sourcesReady tight =>
      refine (timely.replicate count).append ?_
      rw [readyAfter_replicate, List.length_append, List.length_replicate]
      exact readsReady_of_sourcesReady sourcesReady

/-! ### Control transfers -/

theorem reads_of_control {asm : Asm.Syllable} {control : Asm.Control}
    (isControl : asm.control = some control) : gprReadsOf asm = [] := by
  unfold Asm.Syllable.control at isControl
  unfold gprReadsOf
  split at isControl <;> simp_all [gprReads, Opcode.writesGpr]

theorem ControlAtEnd.block {functions : List Function} (atEnd : ControlAtEnd functions)
    {id : Mir.BlockId} {block : Mir.Block} (found : Mir.blockAt functions id = some block) :
    ∀ syllable ∈ block.syllables, syllable.opcode.behavior ≠ .control := by
  obtain ⟨function, isFunction, isBlock⟩ := Option.bind_eq_some_iff.mp found
  exact atEnd function (List.mem_of_getElem? isFunction) block (List.mem_of_getElem? isBlock)

/-- Bodies of scalar code do not transfer control. -/
theorem straight_of_body {width : Nat} {syllables : List Mir.Syllable} {bundles : List Bundle}
    (body : ScalarBody width syllables bundles)
    (straight : ∀ syllable ∈ syllables, syllable.opcode.behavior ≠ .control) :
    ∀ bundle ∈ bundles, bundleIsTerminator bundle = false := by
  induction body with
  | nil => simp
  | wait _ ih => exact List.forall_mem_cons.mpr ⟨rfl, ih straight⟩
  | issue lowered only fits _ ih =>
      obtain ⟨first, others⟩ := List.forall_mem_cons.mp straight
      refine List.forall_mem_cons.mpr ⟨?_, ih others⟩
      unfold bundleIsTerminator
      rw [only, List.any_cons, List.any_nil, Bool.or_false]
      refine syllableIsTerminator_eq_false ?_ first
      rw [Codegen.mnemonic_of_lowerSyllable lowered, Opcode.fromMnemonic_mnemonic]

/-- Control transfers read no general-purpose register. -/
theorem transfer_reads {functions : List Function} {processor : Processor} {program : Program}
    (emitted : scalarProgram functions processor = .ok program)
    (atEnd : ControlAtEnd functions) {bundle : Bundle}
    (bundleMem : bundle ∈ programBundles program.items)
    (transfers : bundleIsTerminator bundle = true) :
    ∀ syllable ∈ bundle.syllables, gprReadsOf syllable = [] := by
  obtain ⟨codes, realized, rfl⟩ := Codegen.scalarProgram_items emitted
  obtain ⟨code, codeMem, inCode⟩ := List.mem_flatMap.mp (Asm.mem_programBundles.mp bundleMem)
  obtain ⟨id, -, -, block, found, isCode⟩ := exists_mem_of_forall₂ realized codeMem
  simp only [Asm.BlockCode.items, List.mem_append, List.mem_map, reduceCtorEq, and_false,
    exists_false, false_or, Item.bundle.injEq, exists_eq_right, List.mem_singleton] at inCode
  rcases inCode with inBody | rfl
  · rw [straight_of_body isCode.body (atEnd.block found) bundle inBody] at transfers
    cases transfers
  · obtain ⟨asm, control, only, isControl, -⟩ := isCode.last
    intro syllable syllableMem
    rw [only, List.mem_singleton] at syllableMem
    rw [syllableMem]
    exact reads_of_control isControl

/-! ### Packed programs -/

theorem kept_of_packed {program packed : Program} (placed : AllPlaced program)
    (reads : ∀ bundle ∈ programBundles program.items, bundleIsTerminator bundle = true →
      ∀ syllable ∈ bundle.syllables, gprReadsOf syllable = [])
    (done : packScalarProgram program = some packed) :
    Kept program.processor (programBundles packed.items) := by
  refine packed_induction (motive := Kept program.processor) ⟨by simp, ?_⟩ ?_ ?_ done
  · intro cycle bundle found
    cases found
  · intro out bundle out' bundleMem straight step
    have isPlaced := AllPlaced.bundles placed bundle bundleMem
    exact fun kept => ⟨step.sound isPlaced straight kept.sound,
      step.timely isPlaced kept.sound kept.timely⟩
  · intro out bundle bundleMem transfers kept
    refine ⟨List.forall_mem_append.mpr ⟨kept.sound, List.forall_mem_singleton.mpr
      (sound_of_placed (AllPlaced.bundles placed bundle bundleMem))⟩, kept.timely.append ?_⟩
    intro syllable syllableMem reg regMem
    rw [reads bundle bundleMem transfers syllable syllableMem] at regMem
    cases regMem

/-- A call is issued alone. -/
theorem Sound.alone_of_call {processor : Processor} {bundle : Bundle}
    (sound : Sound processor bundle) {writer : Asm.Syllable} (writerMem : writer ∈ bundle.syllables)
    (isCall : opcodeOf writer = some .call) : bundle.syllables = [writer] := by
  have transfers : bundleIsTerminator bundle = true := by
    refine List.any_eq_true.mpr ⟨writer, writerMem, ?_⟩
    unfold syllableIsTerminator
    rw [(opcodeOf_eq_some.mp isCall).1]
  obtain ⟨asm, only⟩ := sound.alone transfers
  rw [only, List.mem_singleton] at writerMem
  rw [only, writerMem]

theorem slot_unique {slots : List (Option Asm.Syllable)} {asm first second : Asm.Syllable}
    {i j : Nat} (only : slots.filterMap id = [asm]) (isFirst : slots[i]? = some (some first))
    (isSecond : slots[j]? = some (some second)) : i = j := by
  induction slots generalizing i j with
  | nil => cases only
  | cons slot slots ih =>
      cases slot with
      | none =>
          cases i with
          | zero => cases isFirst
          | succ i =>
              cases j with
              | zero => cases isSecond
              | succ j => exact congrArg Nat.succ (ih only isFirst isSecond)
      | some head =>
          have none : ∀ {k : Nat} {other : Asm.Syllable}, slots[k]? ≠ some (some other) := by
            intro k other found
            have nothing : slots.filterMap id = [] := (List.cons.inj only).2
            have otherMem : other ∈ slots.filterMap id :=
              List.mem_filterMap.mpr ⟨_, List.mem_of_getElem? found, rfl⟩
            rw [nothing] at otherMem
            cases otherMem
          cases i with
          | zero =>
              cases j with
              | zero => rfl
              | succ j => exact absurd isSecond none
          | succ i => exact absurd isFirst none

theorem Kept.latencyKept {processor : Processor} {bundles : List Bundle}
    (kept : Kept processor bundles) : LatencyKept bundles where
  together := by
    intro cycle bundle i j reader writer reg found different isReader isWriter reads writes
    have sound := kept.sound bundle (List.mem_of_getElem? found)
    have verified := verified_of_verifyBundle sound.accepted
    have inside : ∀ {slot : Nat} {syllable : Asm.Syllable},
        bundle.slots[slot]? = some (some syllable) → slot < processor.width := fun atSlot =>
      Nat.lt_of_lt_of_le (List.getElem?_eq_some_iff.mp atSlot).1 sound.fits
    rcases mem_gprWrites.mp writes with written | ⟨rfl, isCall⟩
    · exact verified.raw (inside isWriter) (inside isReader) different.symm isWriter isReader
        written reads
    · have writerMem : writer ∈ bundle.syllables :=
        List.mem_filterMap.mpr ⟨_, List.mem_of_getElem? isWriter, rfl⟩
      exact different (slot_unique (sound.alone_of_call writerMem isCall) isReader isWriter)
  apart := by
    intro issued cycle earlier bundle reader writer opcode reg found readerMem reads proper less
      isEarlier writerMem writes known last
    obtain ⟨inside, -⟩ := List.getElem?_eq_some_iff.mp found
    rcases mem_gprWrites.mp writes with written | ⟨rfl, isCall⟩
    · have isReady := kept.timely cycle bundle found reader readerMem reg reads
      rw [lookup_readyAfter kept.sound less (Nat.le_of_lt inside) isEarlier writerMem known proper
        written fun between middle other after before isMiddle otherMem written' =>
          last between middle other after before isMiddle otherMem
            (mem_gprWrites.mpr (.inl written'))] at isReady
      exact isReady
    · obtain rfl : opcode = .call :=
        Option.some.inj (known.symm.trans (opcodeOf_eq_some.mp isCall).1)
      exact less

/-- The packer stops on every scalar program, and no syllable of the packed one
reads a register before the result of its last writer is available. -/
theorem packScalarProgram_latencyKept {functions : List Function} {processor : Processor}
    {program : Program} (emitted : scalarProgram functions processor = .ok program)
    (atEnd : ControlAtEnd functions) :
    ∃ packed, packScalarProgram program = some packed ∧
      LatencyKept (programBundles packed.items) := by
  obtain ⟨placed, -⟩ := Codegen.allPlaced_of_scalarProgram emitted
  obtain ⟨packed, done⟩ := exists_packed_of_placed placed
  refine ⟨packed, done, (kept_of_packed placed ?_ done).latencyKept⟩
  intro bundle bundleMem
  exact transfer_reads emitted atEnd bundleMem

/-- A product, two constants and a use of the product. -/
def latencyWindow : List Function :=
  [⟨"main", [⟨"entry",
    [⟨.mul, some (.preg 2), [.reg (.preg 3), .reg (.preg 4)]⟩,
      ⟨.movImm, some (.preg 5), [.imm 1]⟩, ⟨.movImm, some (.preg 6), [.imm 2]⟩,
      ⟨.add, some (.preg 7), [.reg (.preg 2), .reg (.preg 6)]⟩], .ret⟩]⟩]

theorem packScalarProgram_latencyKept_latencyWindow :
    ∃ program packed, scalarProgram latencyWindow .default = .ok program ∧
      packScalarProgram program = some packed ∧ LatencyKept (programBundles packed.items) := by
  obtain ⟨program, emitted⟩ : ∃ program, scalarProgram latencyWindow .default = .ok program :=
    exists_of_isOk (by decide +kernel)
  have atEnd : ControlAtEnd latencyWindow := by
    unfold ControlAtEnd
    decide
  obtain ⟨packed, done, kept⟩ := packScalarProgram_latencyKept emitted atEnd
  exact ⟨program, packed, emitted, done, kept⟩

end VliwCompiler.Pack
