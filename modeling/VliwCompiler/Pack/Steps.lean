import VliwCompiler.Pack.Packer
import VliwCompiler.Asm.Blocks
import VliwCompiler.Data.InOrder

/-!
# What the packer does

Ready cycles are carried from segment to segment, so that the bundles written
so far determine every decision of the packer.  A bundle is kept when it is
empty, merged into the last bundle, or issued after as many empty bundles as its
sources have to wait for.
-/

namespace VliwCompiler.Pack

open Asm (Opcode Bundle Item Processor Program programBundles programBundles_append)
open Schedule (ReadyState)

/-! ### Ready cycles -/

/-- Ready cycles after bundles issued from cycle zero on. -/
def readyAfter (bundles : List Bundle) : ReadyState := readyAfterBundles {} 0 bundles

theorem readyAfterBundles_append (initial : ReadyState) (startCycle : Nat)
    (first second : List Bundle) :
    readyAfterBundles initial startCycle (first ++ second) =
      readyAfterBundles (readyAfterBundles initial startCycle first) (startCycle + first.length)
        second := by
  unfold readyAfterBundles updateReadyAfterPackedBundles
  rw [List.zipIdx_append, List.foldl_append]

theorem readyAfterBundles_readyAfter (done bundles : List Bundle) :
    readyAfterBundles (readyAfter done) done.length bundles = readyAfter (done ++ bundles) := by
  unfold readyAfter
  rw [readyAfterBundles_append, Nat.zero_add]

theorem readyAfter_singleton (done : List Bundle) (bundle : Bundle) :
    readyAfter (done ++ [bundle]) =
      updateReadyAfterBundle bundle done.length (readyAfter done) := by
  rw [← readyAfterBundles_readyAfter]
  rfl

theorem readyAfter_replicate (done : List Bundle) (count : Nat) :
    readyAfter (done ++ List.replicate count ⟨[]⟩) = readyAfter done := by
  induction count with
  | zero => rw [List.replicate_zero, List.append_nil]
  | succ count ih =>
      rw [List.replicate_succ', ← List.append_assoc, readyAfter_singleton, ih]
      rfl

theorem bundleIsEmpty_iff {bundle : Bundle} :
    bundleIsEmpty bundle = true ↔ bundle.syllables = [] := by
  unfold bundleIsEmpty Bundle.syllables
  rw [List.all_eq_true, List.filterMap_eq_nil_iff]
  exact forall₂_congr fun slot _ => Option.isNone_iff_eq_none

/-! ### One bundle -/

/-- Packing `bundle` after the bundles `out` of the module gives the bundles
`out'`. -/
inductive PackStep (processor : Processor) (out : List Bundle) (bundle : Bundle) :
    List Bundle → Prop where
  | keep (empty : bundle.syllables = []) : PackStep processor out bundle (out ++ [bundle])
  | merge {front : List Bundle} {last candidate : Bundle} (full : bundle.syllables ≠ [])
      (isOut : out = front ++ [last]) (lastFull : last.syllables ≠ [])
      (straight : bundleIsTerminator last = false)
      (settled : hasPendingResultAt (readyAfter out) out.length = false)
      (sourcesReady : bundleSourcesReadyAt bundle front.length (readyAfter front) = true)
      (merged : mergeBundles processor last bundle = some candidate)
      (accepted : Asm.verifyBundle candidate processor = .ok ()) :
      PackStep processor out bundle (front ++ [candidate])
  | issue (count : Nat) (full : bundle.syllables ≠ [])
      (sourcesReady : bundleSourcesReadyAt bundle (out.length + count) (readyAfter out) = true)
      (tight : ∀ earlier < count,
        bundleSourcesReadyAt bundle (out.length + earlier) (readyAfter out) = false) :
      PackStep processor out bundle (out ++ List.replicate count ⟨[]⟩ ++ [bundle])

theorem padUntilReady_eq_some {bundle : Bundle} {startCycle fuel : Nat} {ready : ReadyState}
    {out padded : List Bundle}
    (done : padUntilReady bundle startCycle ready fuel out = some padded) :
    ∃ count, padded = out ++ List.replicate count ⟨[]⟩ ∧
      bundleSourcesReadyAt bundle (startCycle + padded.length)
        (readyAfterBundles ready startCycle padded) = true ∧
      ∀ earlier < count, bundleSourcesReadyAt bundle (startCycle + (out.length + earlier))
        (readyAfterBundles ready startCycle (out ++ List.replicate earlier ⟨[]⟩)) = false := by
  induction fuel generalizing out with
  | zero => cases done
  | succ fuel ih =>
      unfold padUntilReady at done
      split at done
      · rename_i isReady
        cases done
        exact ⟨0, by simp, isReady, fun earlier less => absurd less (Nat.not_lt_zero _)⟩
      · rename_i notReady
        obtain ⟨count, rfl, isReady, tight⟩ := ih done
        have padded : ∀ more, out ++ [({} : Bundle)] ++ List.replicate more ⟨[]⟩ =
            out ++ List.replicate (more + 1) ⟨[]⟩ := by
          intro more
          rw [List.append_assoc, List.replicate_succ]
          rfl
        refine ⟨count + 1, padded count, isReady, ?_⟩
        intro earlier less
        cases earlier with
        | zero => simpa using notReady
        | succ earlier =>
            have before := tight earlier (by omega)
            rw [padded, List.length_append] at before
            rw [← before]
            congr 1
            simp only [List.length_singleton]
            omega

theorem tryMerge_eq_some {processor : Processor} {out merged : List Bundle} {bundle : Bundle}
    {startCycle : Nat} {ready : ReadyState}
    (done : tryMergeIntoPrevious processor out bundle startCycle ready = some merged) :
    ∃ front last candidate, out = front ++ [last] ∧ out.getLast? = some last ∧
      last.syllables ≠ [] ∧ bundleIsTerminator last = false ∧
      hasPendingResultAt (readyAfterBundles ready startCycle out) (startCycle + out.length) =
        false ∧
      bundleSourcesReadyAt bundle (startCycle + front.length)
        (readyAfterBundles ready startCycle front) = true ∧
      mergeBundles processor last bundle = some candidate ∧
      Asm.verifyBundle candidate processor = .ok () ∧ merged = front ++ [candidate] := by
  unfold tryMergeIntoPrevious at done
  cases isLast : out.getLast? with
  | none => simp [isLast] at done
  | some last =>
      rw [isLast] at done
      simp only at done
      split_ifs at done with blocked pending unready
      cases isMerged : mergeBundles processor last bundle with
      | none => simp [isMerged] at done
      | some candidate =>
          rw [isMerged] at done
          simp only at done
          split at done
          · cases done
          · rename_i accepted
            cases done
            rw [Bool.or_eq_true, not_or, bundleIsEmpty_iff] at blocked
            refine ⟨out.dropLast, last, candidate,
              (List.dropLast_append_getLast? last isLast).symm, rfl, blocked.1,
              by simpa using blocked.2, by simpa using pending, ?_, isMerged, accepted, rfl⟩
            simpa using unready

/-- The branches of `packBundle`. -/
theorem packBundle_cases {processor : Processor} {startCycle : Nat} {ready : ReadyState}
    {out out' : List Bundle} {bundle : Bundle}
    (packed : packBundle processor startCycle ready out bundle = some out') :
    bundle.syllables = [] ∧ out' = out ++ [bundle] ∨
      bundle.syllables ≠ [] ∧
        (tryMergeIntoPrevious processor out bundle startCycle ready = some out' ∨
          tryMergeIntoPrevious processor out bundle startCycle ready = none ∧
          ∃ fuel padded, padUntilReady bundle startCycle ready fuel out = some padded ∧
            out' = padded ++ [bundle]) := by
  unfold packBundle at packed
  by_cases empty : bundleIsEmpty bundle = true
  · rw [if_pos empty] at packed
    cases packed
    exact .inl ⟨bundleIsEmpty_iff.mp empty, rfl⟩
  · refine .inr ⟨fun isEmpty => empty (bundleIsEmpty_iff.mpr isEmpty), ?_⟩
    rw [if_neg empty] at packed
    cases tried : tryMergeIntoPrevious processor out bundle startCycle ready with
    | some merged =>
        rw [tried] at packed
        exact .inl packed
    | none =>
        rw [tried] at packed
        obtain ⟨padded, isPadded, rfl⟩ := Option.map_eq_some_iff.mp packed
        exact .inr ⟨rfl, _, padded, isPadded, rfl⟩

/-- What packing one more bundle does. -/
theorem packBundle_step {processor : Processor} {done out out' : List Bundle} {bundle : Bundle}
    (packed : packBundle processor done.length (readyAfter done) out bundle = some out') :
    PackStep processor (done ++ out) bundle (done ++ out') := by
  rcases packBundle_cases packed with
    ⟨empty, rfl⟩ | ⟨full, merged | ⟨-, fuel, padded, isPadded, rfl⟩⟩
  · rw [← List.append_assoc]
    exact .keep empty
  · obtain ⟨front, last, candidate, rfl, -, lastFull, straight, settled, sourcesReady, isMerged,
      accepted, rfl⟩ := tryMerge_eq_some merged
    rw [readyAfterBundles_readyAfter, ← List.length_append] at settled sourcesReady
    rw [← List.append_assoc, ← List.append_assoc]
    rw [← List.append_assoc] at settled
    exact .merge full rfl lastFull straight settled sourcesReady isMerged accepted
  · obtain ⟨count, rfl, sourcesReady, tight⟩ := padUntilReady_eq_some isPadded
    rw [readyAfterBundles_readyAfter, ← List.append_assoc, readyAfter_replicate] at sourcesReady
    rw [← List.append_assoc, ← List.append_assoc]
    refine .issue count full ?_ ?_
    · rw [← sourcesReady]
      congr 1
      simp only [List.length_append, List.length_replicate]
      omega
    · intro earlier less
      have before := tight earlier less
      rw [readyAfterBundles_readyAfter, ← List.append_assoc, readyAfter_replicate] at before
      rw [← before]
      congr 1
      simp only [List.length_append]
      omega

/-! ### Whole programs -/

/-- The table of the packing loop belongs to the bundles written so far. -/
structure InStep (state : PackState) : Prop where
  cycle : state.cycle = (programBundles state.packed).length
  ready : state.ready = readyAfter (programBundles state.packed)

/-- Packing the bundles of a list one after another, behind the bundles `base`,
gives the second list. -/
inductive Packs (processor : Processor) (base : List Bundle) :
    List Bundle → List Bundle → Prop where
  | nil : Packs processor base [] []
  | step {done out out' : List Bundle} {bundle : Bundle} (before : Packs processor base done out)
      (straight : bundleIsTerminator bundle = false)
      (step : PackStep processor (base ++ out) bundle (base ++ out')) :
      Packs processor base (done ++ [bundle]) out'
  | transfer {done out : List Bundle} {bundle : Bundle} (before : Packs processor base done out)
      (transfers : bundleIsTerminator bundle = true) :
      Packs processor base (done ++ [bundle]) (out ++ [bundle])

theorem Packs.segment {processor : Processor} {segment : List Bundle}
    (straight : ∀ bundle ∈ segment, bundleIsTerminator bundle = false)
    {done start out final : List Bundle} (before : Packs processor [] done (start ++ out))
    (packed : segment.foldlM (packBundle processor start.length (readyAfter start)) out =
      some final) :
    Packs processor [] (done ++ segment) (start ++ final) := by
  induction segment generalizing done out with
  | nil =>
      cases packed
      rwa [List.append_nil]
  | cons bundle segment ih =>
      obtain ⟨firstStraight, othersStraight⟩ := List.forall_mem_cons.mp straight
      rw [List.foldlM_cons] at packed
      obtain ⟨out', first, others⟩ := Option.bind_eq_some_iff.mp packed
      have step : PackStep processor (start ++ out) bundle (start ++ out') :=
        packBundle_step first
      have next : Packs processor [] (done ++ [bundle]) (start ++ out') :=
        before.step firstStraight step
      have after := ih othersStraight next others
      rwa [List.append_assoc] at after

/-- What holds in a state of the packing loop after the items `items`. -/
structure Holds (processor : Processor) (items : List Item) (state : PackState) : Prop where
  inStep : InStep state
  packs : ∃ done, programBundles items = done ++ state.segment ∧
    Packs processor [] done (programBundles state.packed)
  segment : ∀ bundle ∈ state.segment, bundleIsTerminator bundle = false

section Program

variable {processor : Processor} {items : List Item} {state flushed next : PackState}

theorem Holds.flushSegment (holds : Holds processor items state)
    (done : flushSegment processor state = some flushed) :
    Holds processor items flushed ∧ flushed.segment = [] := by
  obtain ⟨bundles, packed, rfl⟩ := Option.map_eq_some_iff.mp done
  obtain ⟨done, whole, packs⟩ := holds.packs
  rw [holds.inStep.cycle, holds.inStep.ready] at packed
  refine ⟨⟨⟨?_, ?_⟩, ⟨_, (List.append_nil _).symm, ?_⟩, by simp⟩, rfl⟩
  · simp [programBundles_append, holds.inStep.cycle]
  · change readyAfterBundles state.ready state.cycle bundles = _
    rw [holds.inStep.cycle, holds.inStep.ready, readyAfterBundles_readyAfter,
      programBundles_append, Asm.programBundles_map_bundle]
  · rw [programBundles_append, Asm.programBundles_map_bundle, whole]
    refine Packs.segment holds.segment ?_ packed
    rwa [List.append_nil]

theorem Holds.packItem {item : Item} (holds : Holds processor items state)
    (done : packItem processor state item = some next) :
    Holds processor (items ++ [item]) next := by
  cases item with
  | label name =>
      obtain ⟨flushed, isFlushed, rfl⟩ := Option.map_eq_some_iff.mp done
      obtain ⟨after, -⟩ := holds.flushSegment isFlushed
      have same : ∀ others, programBundles (others ++ [Item.label name]) =
          programBundles others := by
        intro others
        rw [programBundles_append]
        exact List.append_nil _
      exact ⟨⟨by rw [same]; exact after.inStep.cycle, by rw [same]; exact after.inStep.ready⟩,
        by rw [same, same]; exact after.packs, after.segment⟩
  | bundle bundle =>
      have whole : ∀ others, programBundles (others ++ [Item.bundle bundle]) =
          programBundles others ++ [bundle] := by
        intro others
        rw [programBundles_append]
        rfl
      simp only [Pack.packItem] at done
      cases isLast : bundleIsTerminator bundle with
      | true =>
          rw [isLast, if_pos rfl] at done
          obtain ⟨flushed, isFlushed, rfl⟩ := Option.map_eq_some_iff.mp done
          obtain ⟨after, empty⟩ := holds.flushSegment isFlushed
          obtain ⟨before, isBefore, packs⟩ := after.packs
          rw [empty, List.append_nil] at isBefore
          refine ⟨⟨?_, ?_⟩, ⟨before ++ [bundle], ?_, ?_⟩, after.segment⟩
          · rw [whole, List.length_append, ← after.inStep.cycle]
            rfl
          · rw [whole, readyAfter_singleton, ← after.inStep.cycle, ← after.inStep.ready]
          · rw [whole, isBefore, empty, List.append_nil]
          · rw [whole]
            exact packs.transfer isLast
      | false =>
          rw [isLast, if_neg Bool.false_ne_true] at done
          cases done
          obtain ⟨before, isBefore, packs⟩ := holds.packs
          refine ⟨⟨holds.inStep.cycle, holds.inStep.ready⟩, ⟨before, ?_, packs⟩, ?_⟩
          · rw [whole, isBefore, List.append_assoc]
          · exact List.forall_mem_append.mpr
              ⟨holds.segment, List.forall_mem_singleton.mpr isLast⟩

theorem Holds.packItems {rest : List Item} (holds : Holds processor items state)
    (done : rest.foldlM (Pack.packItem processor) state = some next) :
    Holds processor (items ++ rest) next := by
  induction rest generalizing items state with
  | nil =>
      cases done
      rwa [List.append_nil]
  | cons item rest ih =>
      rw [List.foldlM_cons] at done
      obtain ⟨middle, first, others⟩ := Option.bind_eq_some_iff.mp done
      have after := ih (holds.packItem first) others
      rwa [List.append_assoc] at after

end Program

/-- The packer packs the bundles of the program one after another. -/
theorem packs_of_packScalarProgram {program packed : Program}
    (done : packScalarProgram program = some packed) :
    Packs program.processor [] (programBundles program.items) (programBundles packed.items) := by
  obtain ⟨state, folded, isFlushed⟩ := Option.bind_eq_some_iff.mp done
  obtain ⟨final, flushed, rfl⟩ := Option.map_eq_some_iff.mp isFlushed
  have start : Holds program.processor [] {} := ⟨⟨rfl, rfl⟩, ⟨[], rfl, .nil⟩, by simp⟩
  obtain ⟨after, empty⟩ := (start.packItems folded).flushSegment flushed
  obtain ⟨bundles, whole, packs⟩ := after.packs
  rw [empty, List.append_nil, List.nil_append] at whole
  rwa [whole]

/-- What every step of the packer keeps holds of the packed program. -/
theorem packed_induction {program packed : Program} {motive : List Bundle → Prop}
    (nil : motive [])
    (step : ∀ {out bundle out'}, bundle ∈ programBundles program.items →
      bundleIsTerminator bundle = false → PackStep program.processor out bundle out' →
      motive out → motive out')
    (transfer : ∀ {out bundle}, bundle ∈ programBundles program.items →
      bundleIsTerminator bundle = true → motive out → motive (out ++ [bundle]))
    (done : packScalarProgram program = some packed) : motive (programBundles packed.items) := by
  have run : ∀ {bundles out : List Bundle}, Packs program.processor [] bundles out →
      (∀ bundle ∈ bundles, bundle ∈ programBundles program.items) → motive out := by
    intro bundles out packs
    induction packs with
    | nil => exact fun _ => nil
    | step _ straight isStep ih =>
        intro inside
        obtain ⟨before, last⟩ := List.forall_mem_append.mp inside
        exact step (last _ List.mem_cons_self) straight isStep (ih before)
    | transfer _ transfers ih =>
        intro inside
        obtain ⟨before, last⟩ := List.forall_mem_append.mp inside
        exact transfer (last _ List.mem_cons_self) transfers (ih before)
  exact run (packs_of_packScalarProgram done) fun _ bundleMem => bundleMem

/-! ### Termination -/

/-- Every syllable of the bundle has an opcode. -/
def Known (bundle : Bundle) : Prop :=
  ∀ syllable ∈ bundle.syllables, (Opcode.fromMnemonic syllable.opcode).isSome

theorem mem_values_of_lookup {map : HashMap UInt8 Nat} {reg : UInt8} {cycle : Nat}
    (found : map.lookup reg = some cycle) : cycle ∈ values map := by
  unfold values
  exact List.mem_map.mpr ⟨⟨reg, cycle⟩, AList.mem_lookup_iff.mp found, rfl⟩

theorem gpr_le_latestReady (ready : ReadyState) (reg : UInt8) :
    (ready.gpr.lookup reg).getD 0 ≤ latestReady ready := by
  cases found : ready.gpr.lookup reg with
  | none => exact Nat.zero_le _
  | some cycle => exact InOrder.le_foldl_max (List.mem_append_left _ (mem_values_of_lookup found))

theorem pred_le_latestReady (ready : ReadyState) (reg : UInt8) :
    (ready.pred.lookup reg).getD 0 ≤ latestReady ready := by
  cases found : ready.pred.lookup reg with
  | none => exact Nat.zero_le _
  | some cycle => exact InOrder.le_foldl_max (List.mem_append_right _ (mem_values_of_lookup found))

theorem operandsReadyAt_of_late {ready : ReadyState} {cycle : Nat}
    (late : latestReady ready ≤ cycle) (skipGprDest skipPredDest : Bool)
    (operands : List Asm.Operand) :
    operandsReadyAt skipGprDest skipPredDest cycle ready operands = true := by
  have gprReady := fun reg => (gpr_le_latestReady ready reg).trans late
  have predReady := fun reg => (pred_le_latestReady ready reg).trans late
  induction operands generalizing skipGprDest skipPredDest with
  | nil => rfl
  | cons operand operands ih =>
      cases operand with
      | reg reg => cases skipGprDest <;> simp [operandsReadyAt, ih, gprReady]
      | pred pred => cases skipPredDest <;> simp [operandsReadyAt, ih, predReady]
      | imm value => exact ih _ _
      | memAddr base offset => simp [operandsReadyAt, ih, gprReady]
      | label name => exact ih _ _

/-- All sources are ready once every pending result is. -/
theorem bundleSourcesReadyAt_of_late {bundle : Bundle} (known : Known bundle) {ready : ReadyState}
    {cycle : Nat} (late : latestReady ready ≤ cycle) :
    bundleSourcesReadyAt bundle cycle ready = true := by
  refine List.all_eq_true.mpr fun syllable syllableMem => ?_
  obtain ⟨opcode, isOpcode⟩ := Option.isSome_iff_exists.mp (known syllable syllableMem)
  simp only [isOpcode]
  exact operandsReadyAt_of_late late ..

theorem exists_padUntilReady {bundle : Bundle} (known : Known bundle) {startCycle : Nat}
    {ready : ReadyState} (fuel : Nat) {out : List Bundle}
    (enough : latestReady (readyAfterBundles ready startCycle out) ≤
      startCycle + out.length + fuel) :
    ∃ padded, padUntilReady bundle startCycle ready (fuel + 1) out = some padded := by
  induction fuel generalizing out with
  | zero =>
      refine ⟨out, ?_⟩
      unfold padUntilReady
      have late : latestReady (readyAfterBundles ready startCycle out) ≤
          startCycle + out.length := enough
      rw [if_pos (bundleSourcesReadyAt_of_late known late)]
  | succ fuel ih =>
      unfold padUntilReady
      split
      · exact ⟨out, rfl⟩
      · refine ih ?_
        rw [readyAfterBundles_append, List.length_append, List.length_singleton]
        exact enough.trans (by omega)

theorem exists_packBundleSegment (processor : Processor) {segment : List Bundle}
    (known : ∀ bundle ∈ segment, Known bundle) (startCycle : Nat) (ready : ReadyState) :
    ∃ bundles, packBundleSegment processor segment startCycle ready = some bundles := by
  have step : ∀ out, ∀ bundle ∈ segment, True →
      ∃ next, packBundle processor startCycle ready out bundle = some next ∧ True := by
    intro out bundle bundleMem _
    unfold packBundle
    split
    · exact ⟨_, rfl, trivial⟩
    · split
      · exact ⟨_, rfl, trivial⟩
      · obtain ⟨padded, isPadded⟩ := exists_padUntilReady (known bundle bundleMem)
          (latestReady (readyAfterBundles ready startCycle out)) (Nat.le_add_left _ _)
        rw [isPadded]
        exact ⟨_, rfl, trivial⟩
  have total : ∃ bundles, packBundleSegment processor segment startCycle ready = some bundles ∧
      True := exists_foldlM_some (motive := fun _ => True) step trivial
  obtain ⟨bundles, packed, -⟩ := total
  exact ⟨bundles, packed⟩

/-- The packer stops on programs whose syllables have opcodes. -/
theorem exists_packScalarProgram {program : Program}
    (known : ∀ bundle ∈ programBundles program.items, Known bundle) :
    ∃ packed, packScalarProgram program = some packed := by
  have flushes : ∀ state : PackState, (∀ bundle ∈ state.segment, Known bundle) →
      ∃ flushed, flushSegment program.processor state = some flushed ∧ flushed.segment = [] := by
    intro state segmentKnown
    obtain ⟨bundles, packed⟩ :=
      exists_packBundleSegment program.processor segmentKnown state.cycle state.ready
    unfold flushSegment
    rw [packed]
    exact ⟨_, rfl, rfl⟩
  have step : ∀ state, ∀ item ∈ program.items, (∀ bundle ∈ state.segment, Known bundle) →
      ∃ next, packItem program.processor state item = some next ∧
        ∀ bundle ∈ next.segment, Known bundle := by
    intro state item itemMem segmentKnown
    obtain ⟨flushed, isFlushed, empty⟩ := flushes state segmentKnown
    cases item with
    | label name =>
        refine ⟨_, by simp only [packItem, isFlushed]; rfl, ?_⟩
        simp [empty]
    | bundle bundle =>
        simp only [packItem, isFlushed]
        split
        · exact ⟨_, rfl, by simp [empty]⟩
        · refine ⟨_, rfl, ?_⟩
          intro other otherMem
          rcases List.mem_append.mp otherMem with before | isNew
          · exact segmentKnown other before
          · rw [List.mem_singleton.mp isNew]
            exact known bundle (Asm.mem_programBundles.mpr itemMem)
  have start : ∀ bundle ∈ ({} : PackState).segment, Known bundle := by simp
  obtain ⟨state, folded, stateKnown⟩ := exists_foldlM_some step start
  obtain ⟨flushed, isFlushed, -⟩ := flushes state stateKnown
  unfold packScalarProgram
  rw [folded, Option.bind_some, isFlushed]
  exact ⟨_, rfl⟩

end VliwCompiler.Pack
