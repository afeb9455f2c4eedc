import VliwCompiler.Pack.Merge
import VliwCompiler.Pack.Steps
import VliwCompiler.Codegen.Scalar

/-!
# Packed segments and programs

The packer keeps labels and control transfers and rewrites only the bundles in
between.  A packed segment computes the state of the scalar one when no
accepted merge joins syllables that must not be issued together.
-/

namespace VliwCompiler.Pack

open Asm (Opcode Bundle Item Processor Program BlockCode blockItems execBundles)
open Schedule (ReadyState)
open Machine

/-! ### Safe merges -/

/-- Whenever a bundle of the segment is merged into the one before it, the two
may be issued together. -/
def SafeSegment (processor : Processor) (startCycle : Nat) (ready : ReadyState)
    (segment : List Bundle) : Prop :=
  ∀ front bundle back out last, segment = front ++ bundle :: back →
    packBundleSegment processor front startCycle ready = some out → out.getLast? = some last →
    bundleIsEmpty bundle = false →
    (tryMergeIntoPrevious processor out bundle startCycle ready).isSome → ¬Hazard last bundle

/-- Every merge made while packing the program is of bundles that may be issued
together. -/
def SafePacking (program : Program) : Prop :=
  ∀ front back state, program.items = front ++ back →
    front.foldlM (packItem program.processor) {} = some state →
    SafeSegment program.processor state.cycle state.ready state.segment

/-- A bundle of a scalar segment. -/
structure ScalarBundle (width : Nat) (bundle : Bundle) : Prop where
  fits : bundle.slots.length ≤ width
  single : bundle.syllables = [] ∨
    ∃ asm action, bundle.syllables = [asm] ∧ asm.action = some action

theorem execBundles_append (isa : Isa Opcode) (first second : List Bundle)
    (state : State UInt8) :
    execBundles isa (first ++ second) state =
      (execBundles isa first state).bind (execBundles isa second) :=
  List.foldlM_append ..

theorem execBundles_replicate (isa : Isa Opcode) (count : Nat) (state : State UInt8) :
    execBundles isa (List.replicate count ⟨[]⟩) state = some state := by
  induction count with
  | zero => rfl
  | succ count ih => exact ih

/-- What packing has produced for the bundles seen so far. -/
structure PackedAs (width : Nat) (segment out : List Bundle) : Prop where
  same : ∀ isa state, execBundles isa out state = execBundles isa segment state
  fits : ∀ bundle ∈ out, bundle.slots.length ≤ width
  denotes : ∀ bundle ∈ out, ∀ syllable ∈ bundle.syllables, syllable.action.isSome

theorem PackedAs.append {width : Nat} {segment out : List Bundle} {bundle : Bundle}
    (packed : PackedAs width segment out) (scalar : ScalarBundle width bundle) (count : Nat) :
    PackedAs width (segment ++ [bundle]) (out ++ List.replicate count ⟨[]⟩ ++ [bundle]) where
  same := by
    intro isa state
    rw [execBundles_append, execBundles_append, execBundles_append, packed.same]
    cases execBundles isa segment state with
    | none => rfl
    | some final => rw [Option.bind_some, execBundles_replicate, Option.bind_some]
  fits := by
    intro other otherMem
    simp only [List.mem_append, List.mem_replicate, List.mem_singleton] at otherMem
    rcases otherMem with (inOut | ⟨-, rfl⟩) | rfl
    · exact packed.fits other inOut
    · exact Nat.zero_le _
    · exact scalar.fits
  denotes := by
    intro other otherMem syllable syllableMem
    simp only [List.mem_append, List.mem_replicate, List.mem_singleton] at otherMem
    rcases otherMem with (inOut | ⟨-, rfl⟩) | rfl
    · exact packed.denotes other inOut syllable syllableMem
    · cases syllableMem
    · rcases scalar.single with empty | ⟨asm, action, only, denotes⟩
      · rw [empty] at syllableMem
        cases syllableMem
      · rw [only, List.mem_singleton] at syllableMem
        rw [syllableMem, denotes]
        rfl

/-- Merging a bundle that may be issued with the last one. -/
theorem PackedAs.merge {processor : Processor} {segment front : List Bundle}
    {last bundle candidate : Bundle}
    (packed : PackedAs processor.width segment (front ++ [last]))
    (scalar : ScalarBundle processor.width bundle) (nonempty : bundleIsEmpty bundle = false)
    (merged : mergeBundles processor last bundle = some candidate)
    (accepted : Asm.verifyBundle candidate processor = .ok ()) (safe : ¬Hazard last bundle) :
    PackedAs processor.width (segment ++ [bundle]) (front ++ [candidate]) := by
  rcases scalar.single with empty | ⟨asm, action, only, denotes⟩
  · rw [bundleIsEmpty_iff.mpr empty] at nonempty
    cases nonempty
  · have lastMem : last ∈ front ++ [last] := by simp
    have lastFits := packed.fits last lastMem
    obtain ⟨actions, lastDenotes⟩ := Option.isSome_iff_exists.mp
      (mapM_isSome_iff.mpr (packed.denotes last lastMem))
    obtain ⟨slot, -, isOpen, isCandidate⟩ := mergeBundles_eq_some only merged
    constructor
    · intro isa state
      rw [execBundles_append, execBundles_append isa segment, ← packed.same,
        execBundles_append]
      cases execBundles isa front state with
      | none => rfl
      | some middle =>
          rw [Option.bind_some, Option.bind_some]
          have lastExec : last.exec isa middle = some (Action.issue isa actions middle) := by
            unfold Bundle.exec
            rw [lastDenotes]
            rfl
          have bundleExec := Codegen.exec_singleton isa only denotes
            (Action.issue isa actions middle)
          have both := exec_merged isa lastFits only denotes merged accepted safe lastDenotes middle
          calc execBundles isa [candidate] middle
              = candidate.exec isa middle := by simp [execBundles]
            _ = bundle.exec isa (Action.issue isa actions middle) := by rw [both, bundleExec]
            _ = (execBundles isa [last] middle).bind (execBundles isa [bundle]) := by
                simp [execBundles, lastExec]
    · intro other otherMem
      rcases List.mem_append.mp otherMem with inFront | isLast
      · exact packed.fits other (List.mem_append_left _ inFront)
      · rw [List.mem_singleton.mp isLast, isCandidate]
        simp [length_normalizeSlots]
    · intro other otherMem syllable syllableMem
      rcases List.mem_append.mp otherMem with inFront | isLast
      · exact packed.denotes other (List.mem_append_left _ inFront) syllable syllableMem
      · rw [List.mem_singleton.mp isLast, isCandidate] at syllableMem
        obtain ⟨front', back', before, after, -⟩ := syllables_set asm isOpen
        rw [after] at syllableMem
        rw [syllables_normalizeSlots lastFits] at before
        rcases List.mem_append.mp syllableMem with inFront | inBack
        · exact packed.denotes last lastMem syllable
            (by rw [show last.syllables = front' ++ back' from before]
                exact List.mem_append_left _ inFront)
        · rcases List.mem_cons.mp inBack with rfl | inBack
          · rw [denotes]
            rfl
          · exact packed.denotes last lastMem syllable
              (by rw [show last.syllables = front' ++ back' from before]
                  exact List.mem_append_right _ inBack)

theorem SafeSegment.front {processor : Processor} {startCycle : Nat} {ready : ReadyState}
    {front back : List Bundle} (safe : SafeSegment processor startCycle ready (front ++ back)) :
    SafeSegment processor startCycle ready front := by
  intro start bundle rest out last split
  exact safe start bundle (rest ++ back) out last (by rw [split]; simp)

/-- A safely packed segment computes the state of the scalar one. -/
theorem packedAs_of_safe {processor : Processor} {segment out : List Bundle} {startCycle : Nat}
    {ready : ReadyState} (scalar : ∀ bundle ∈ segment, ScalarBundle processor.width bundle)
    (safe : SafeSegment processor startCycle ready segment)
    (done : packBundleSegment processor segment startCycle ready = some out) :
    PackedAs processor.width segment out := by
  induction segment using List.reverseRecOn generalizing out with
  | nil =>
      cases done
      exact ⟨fun _ _ => rfl, by simp, by simp⟩
  | append_singleton front bundle ih =>
      have frontScalar : ∀ other ∈ front, ScalarBundle processor.width other := fun other inFront =>
        scalar other (List.mem_append_left _ inFront)
      have bundleScalar := scalar bundle (by simp)
      unfold packBundleSegment at done
      rw [List.foldlM_append] at done
      obtain ⟨middle, frontDone, bundleDone⟩ := Option.bind_eq_some_iff.mp done
      have packed := ih frontScalar safe.front frontDone
      have single : packBundle processor startCycle ready middle bundle = some out := by
        simpa using bundleDone
      rcases packBundle_cases single with
        ⟨empty, rfl⟩ | ⟨full, merged | ⟨-, fuel, padded, isPadded, rfl⟩⟩
      · simpa using packed.append bundleScalar 0
      · have nonempty : bundleIsEmpty bundle = false := by
          rw [← Bool.not_eq_true, bundleIsEmpty_iff]
          exact full
        have harmless := safe front bundle [] middle
        obtain ⟨start, last, candidate, rfl, isLast, -, -, -, -, isMerged, accepted, rfl⟩ :=
          tryMerge_eq_some merged
        exact packed.merge bundleScalar nonempty isMerged accepted
          (harmless last rfl frontDone isLast nonempty (by simp [merged]))
      · obtain ⟨count, rfl, -⟩ := padUntilReady_eq_some isPadded
        exact packed.append bundleScalar count

/-! ### Packed programs -/

/-- Bundles without control transfers. -/
def Straight (bundles : List Bundle) : Prop :=
  ∀ bundle ∈ bundles, bundleIsTerminator bundle = false

section Items

variable {processor : Processor}

theorem flushSegment_nil (state : PackState) (empty : state.segment = []) :
    flushSegment processor state = some state := by
  obtain ⟨packed, segment, ready, cycle⟩ := state
  cases empty
  simp [flushSegment, packBundleSegment, updateReadyAfterPackedBundles]

theorem foldlM_labels (names : List String) (state : PackState) (empty : state.segment = []) :
    (names.map Item.label).foldlM (packItem processor) state =
      some { state with packed := state.packed ++ names.map .label } := by
  induction names generalizing state with
  | nil => simp
  | cons name names ih =>
      rw [List.map_cons, List.foldlM_cons, packItem, flushSegment_nil state empty]
      simp only [Option.map_some, Option.bind_eq_bind, Option.bind_some]
      rw [ih { state with packed := state.packed ++ [.label name] } empty]
      simp

theorem foldlM_body {bundles : List Bundle} (straight : Straight bundles) (state : PackState) :
    (bundles.map Item.bundle).foldlM (packItem processor) state =
      some { state with segment := state.segment ++ bundles } := by
  induction bundles generalizing state with
  | nil => simp
  | cons bundle bundles ih =>
      obtain ⟨first, others⟩ := List.forall_mem_cons.mp straight
      rw [List.map_cons, List.foldlM_cons, packItem, first]
      change ((bundles.map Item.bundle).foldlM (packItem processor) _) = _
      rw [ih others]
      simp

/-- Packing a control transfer ends the segment before it. -/
theorem packItem_terminator {bundle : Bundle} (isLast : bundleIsTerminator bundle = true)
    {state state' : PackState} (done : packItem processor state (.bundle bundle) = some state') :
    ∃ bundles, packBundleSegment processor state.segment state.cycle state.ready = some bundles ∧
      state'.segment = [] ∧ state'.packed = state.packed ++ (bundles ++ [bundle]).map .bundle := by
  simp only [packItem, isLast, if_true] at done
  obtain ⟨middle, isMiddle, rfl⟩ := Option.map_eq_some_iff.mp done
  obtain ⟨bundles, packed, rfl⟩ := Option.map_eq_some_iff.mp isMiddle
  exact ⟨bundles, packed, rfl, by simp⟩

/-- Packing bundles writes nothing but bundles. -/
theorem foldlM_bundles {bundles : List Bundle} {state state' : PackState}
    (done : (bundles.map Item.bundle).foldlM (packItem processor) state = some state') :
    ∃ out : List Bundle, state'.packed = state.packed ++ out.map .bundle := by
  induction bundles generalizing state with
  | nil =>
      cases done
      exact ⟨[], by simp⟩
  | cons bundle bundles ih =>
      rw [List.map_cons, List.foldlM_cons] at done
      obtain ⟨middle, first, others⟩ := Option.bind_eq_some_iff.mp done
      obtain ⟨rest, isRest⟩ := ih others
      cases isLast : bundleIsTerminator bundle with
      | true =>
          obtain ⟨front, -, -, isFront⟩ := packItem_terminator isLast first
          refine ⟨front ++ [bundle] ++ rest, ?_⟩
          rw [isRest, isFront]
          simp
      | false =>
          simp only [packItem, isLast, Bool.false_eq_true, if_false, Option.some.injEq] at first
          subst first
          exact ⟨rest, isRest⟩

/-- Packing the items of one block. -/
theorem foldlM_code {code : BlockCode} (isLast : bundleIsTerminator code.last = true)
    {state state' : PackState} (empty : state.segment = [])
    (done : code.items.foldlM (packItem processor) state = some state') :
    ∃ bundles, state'.segment = [] ∧
      state'.packed = state.packed ++ ({ code with body := bundles } : BlockCode).items ∧
      (Straight code.body →
        packBundleSegment processor code.body state.cycle state.ready = some bundles) := by
  unfold BlockCode.items at done
  rw [List.foldlM_append, foldlM_labels _ _ empty] at done
  simp only [Option.bind_eq_bind, Option.bind_some, List.map_append, List.map_cons,
    List.map_nil] at done
  rw [List.foldlM_append] at done
  obtain ⟨middle, body, last⟩ := Option.bind_eq_some_iff.mp done
  rw [List.foldlM_cons] at last
  obtain ⟨final, transferred, same⟩ := Option.bind_eq_some_iff.mp last
  cases same
  obtain ⟨out, segment, finalEmpty, finalPacked⟩ := packItem_terminator isLast transferred
  by_cases straight : Straight code.body
  · rw [foldlM_body straight] at body
    cases body
    refine ⟨out, finalEmpty, ?_, fun _ => by simpa [empty] using segment⟩
    rw [finalPacked]
    simp [BlockCode.items, BlockCode.labels]
  · obtain ⟨front, middlePacked⟩ := foldlM_bundles body
    refine ⟨front ++ out, finalEmpty, ?_, fun isStraight => absurd isStraight straight⟩
    rw [finalPacked, middlePacked]
    simp [BlockCode.items, BlockCode.labels]

variable (processor) in
/-- The state in which the segment of a block is complete. -/
theorem foldlM_front {code : BlockCode} (straight : Straight code.body) {state : PackState}
    (empty : state.segment = []) :
    ∃ before, (code.labels.map Item.label ++ code.body.map Item.bundle).foldlM
        (packItem processor) state = some before ∧
      before.cycle = state.cycle ∧ before.ready = state.ready ∧ before.segment = code.body := by
  rw [List.foldlM_append, foldlM_labels _ _ empty]
  simp only [Option.bind_eq_bind, Option.bind_some]
  rw [foldlM_body straight]
  exact ⟨_, rfl, rfl, rfl, by simp [empty]⟩

end Items

/-- A block and its packed form: labels and control transfer are kept, and the
body computes the same state when the program is packed safely. -/
structure PackedBlock (program : Program) (code packed : BlockCode) : Prop where
  name : packed.name = code.name
  label : packed.label = code.label
  last : packed.last = code.last
  segment : Straight code.body → ∃ startCycle ready,
    packBundleSegment program.processor code.body startCycle ready = some packed.body
  body : SafePacking program → Straight code.body →
    (∀ bundle ∈ code.body, ScalarBundle program.processor.width bundle) →
    PackedAs program.processor.width code.body packed.body

theorem foldlM_blockItems (program : Program) {codes : List BlockCode}
    (ended : ∀ code ∈ codes, bundleIsTerminator code.last = true) (front back : List Item)
    (split : program.items = front ++ (blockItems codes ++ back)) {state state' : PackState}
    (reached : front.foldlM (packItem program.processor) {} = some state)
    (empty : state.segment = [])
    (done : (blockItems codes).foldlM (packItem program.processor) state = some state') :
    ∃ packed, List.Forall₂ (PackedBlock program) codes packed ∧ state'.segment = [] ∧
      state'.packed = state.packed ++ blockItems packed := by
  induction codes generalizing front state with
  | nil =>
      cases done
      exact ⟨[], .nil, empty, by simp [blockItems]⟩
  | cons code codes ih =>
      obtain ⟨first, others⟩ := List.forall_mem_cons.mp ended
      have unfolded : blockItems (code :: codes) = code.items ++ blockItems codes := rfl
      rw [unfolded, List.foldlM_append] at done
      obtain ⟨middle, codeDone, restDone⟩ := Option.bind_eq_some_iff.mp done
      obtain ⟨bundles, middleEmpty, middlePacked, packed⟩ := foldlM_code first empty codeDone
      have reachedMiddle : (front ++ code.items).foldlM (packItem program.processor) {} =
          some middle := by
        rw [List.foldlM_append, reached]
        exact codeDone
      obtain ⟨rest, related, finalEmpty, finalPacked⟩ :=
        ih others _ (by rw [split, unfolded]; simp) reachedMiddle middleEmpty restDone
      refine ⟨{ code with body := bundles } :: rest,
        .cons ⟨rfl, rfl, rfl, fun straight => ⟨_, _, packed straight⟩, ?_⟩ related, finalEmpty, ?_⟩
      · intro safe straight scalar
        obtain ⟨before, isBefore, sameCycle, sameReady, isSegment⟩ :=
          foldlM_front program.processor straight empty
        have safeHere := safe (front ++ (code.labels.map Item.label ++ code.body.map Item.bundle))
          (Item.bundle code.last :: (blockItems codes ++ back)) before
          (by rw [split, unfolded]; simp [BlockCode.items])
          (by rw [List.foldlM_append, reached]; exact isBefore)
        rw [sameCycle, sameReady, isSegment] at safeHere
        exact packedAs_of_safe scalar safeHere (packed straight)
      · rw [finalPacked, middlePacked]
        simp [blockItems]

/-- Packing keeps the blocks of a program. -/
theorem packScalarProgram_items {processor : Processor} {codes : List BlockCode}
    {packed : Program} (ended : ∀ code ∈ codes, bundleIsTerminator code.last = true)
    (done : packScalarProgram ⟨processor, blockItems codes⟩ = some packed) :
    ∃ packedCodes, packed = ⟨processor, blockItems packedCodes⟩ ∧
      List.Forall₂ (PackedBlock ⟨processor, blockItems codes⟩) codes packedCodes := by
  obtain ⟨state, folded, isFlushed⟩ := Option.bind_eq_some_iff.mp done
  obtain ⟨final, flushed, rfl⟩ := Option.map_eq_some_iff.mp isFlushed
  obtain ⟨packedCodes, related, empty, packedEq⟩ :=
    foldlM_blockItems ⟨processor, blockItems codes⟩ ended [] [] (by simp) rfl rfl folded
  rw [flushSegment_nil state empty] at flushed
  cases flushed
  exact ⟨packedCodes, by rw [packedEq]; rfl, related⟩

end VliwCompiler.Pack
