import VliwCompiler.Pack.Verified

/-!
# Boundaries and segments

Labels and control transfers are the boundaries of a program; the bundles
between two of them form a segment.  Packing keeps the boundaries and distributes
the syllables of each segment, in their order, over the bundles of the packed
one.
-/

namespace VliwCompiler.Pack

open Asm (Opcode Bundle Item Processor Program)
open Codegen (Placed AllPlaced scalarProgram)
open Mir (Function)
open Schedule (ReadyState)

/-- A label or a control transfer. -/
def isBoundary : Item → Bool
  | .label _ => true
  | .bundle bundle => bundleIsTerminator bundle

/-- The syllables of an item. -/
def itemSyllables : Item → List Asm.Syllable
  | .label _ => []
  | .bundle bundle => bundle.syllables

/-- The items `packed` hold the syllables of the items `scalar`, each once: they
are cut into groups, one for each packed item, without changing their order. -/
def HoldsSyllables (scalar packed : List Item) : Prop :=
  ∃ groups : List (List Asm.Syllable), groups.flatten = scalar.flatMap itemSyllables ∧
    List.Forall₂ (fun group item => group.Perm (itemSyllables item)) groups packed

/-- Packing keeps the boundaries of a program, and the syllables between them. -/
structure KeepsBoundaries (scalar packed : List Item) : Prop where
  boundaries : packed.filter isBoundary = scalar.filter isBoundary
  segments : List.Forall₂ HoldsSyllables (scalar.splitOnP isBoundary)
    (packed.splitOnP isBoundary)

/-! ### Segments -/

/-- The bundles `out` hold the syllables of the bundles `segment` and transfer
no control. -/
structure Grouped (width : Nat) (segment out : List Bundle) : Prop where
  groups : ∃ groups : List (List Asm.Syllable), groups.flatten = segment.flatMap Bundle.syllables ∧
    List.Forall₂ (fun group bundle => group.Perm bundle.syllables) groups out
  fits : ∀ bundle ∈ out, bundle.slots.length ≤ width
  straight : ∀ bundle ∈ out, bundleIsTerminator bundle = false

/-- A bundle that fits and holds at most one syllable. -/
structure Single (width : Nat) (bundle : Bundle) : Prop where
  fits : bundle.slots.length ≤ width
  single : bundle.syllables = [] ∨ ∃ asm, bundle.syllables = [asm]

theorem single_of_placed {processor : Processor} {bundle : Bundle}
    (placed : Placed processor bundle) : Single processor.width bundle where
  fits := by
    cases placed with
    | wait => exact Nat.zero_le _
    | issue inside known supported => simp
  single := (placed_syllables placed).imp_right fun ⟨asm, _, only, _⟩ => ⟨asm, only⟩

theorem bundleIsTerminator_of_perm {bundle : Bundle} {syllables : List Asm.Syllable}
    (perm : syllables.Perm bundle.syllables) :
    bundleIsTerminator bundle = syllables.any syllableIsTerminator :=
  (List.Perm.any_eq perm).symm

theorem Grouped.append {processor : Processor} {segment out : List Bundle} {bundle : Bundle}
    (grouped : Grouped processor.width segment out) (single : Single processor.width bundle)
    (straight : bundleIsTerminator bundle = false) (count : Nat) :
    Grouped processor.width (segment ++ [bundle]) (out ++ List.replicate count ⟨[]⟩ ++ [bundle])
    where
  groups := by
    obtain ⟨groups, flat, related⟩ := grouped.groups
    refine ⟨groups ++ List.replicate count [] ++ [bundle.syllables], ?_, ?_⟩
    · simp [flat]
    · refine List.rel_append (List.rel_append related ?_) (.cons (List.Perm.refl _) .nil)
      induction count with
      | zero => exact .nil
      | succ count ih => exact .cons (List.Perm.refl _) ih
  fits := by
    intro other otherMem
    simp only [List.mem_append, List.mem_replicate, List.mem_singleton] at otherMem
    rcases otherMem with (inOut | ⟨-, rfl⟩) | rfl
    · exact grouped.fits other inOut
    · exact Nat.zero_le _
    · exact single.fits
  straight := by
    intro other otherMem
    simp only [List.mem_append, List.mem_replicate, List.mem_singleton] at otherMem
    rcases otherMem with (inOut | ⟨-, rfl⟩) | rfl
    · exact grouped.straight other inOut
    · rfl
    · exact straight

theorem Grouped.merge {processor : Processor} {segment front : List Bundle}
    {last bundle candidate : Bundle} {asm : Asm.Syllable}
    (grouped : Grouped processor.width segment (front ++ [last]))
    (only : bundle.syllables = [asm]) (straight : bundleIsTerminator bundle = false)
    (merged : mergeBundles processor last bundle = some candidate) :
    Grouped processor.width (segment ++ [bundle]) (front ++ [candidate]) := by
  obtain ⟨groups, flat, related⟩ := grouped.groups
  have perm := perm_of_mergeBundles (grouped.fits last (by simp)) only merged
  have lastStraight := grouped.straight last (by simp)
  obtain ⟨start, final, rfl, frontRelated, lastRelated⟩ := exists_append_of_forall₂ related
  rw [List.forall₂_cons_right_iff] at lastRelated
  obtain ⟨group, rest, groupPerm, restRelated, rfl⟩ := lastRelated
  rw [List.forall₂_nil_right_iff] at restRelated
  subst restRelated
  refine ⟨⟨start ++ [group ++ [asm]], ?_, ?_⟩, ?_, ?_⟩
  · simp only [List.flatten_append, List.flatten_cons, List.flatten_nil, List.append_nil] at flat
    simp [← flat, only]
  · exact List.rel_append frontRelated (.cons ((groupPerm.append_right [asm]).trans perm) .nil)
  · intro other otherMem
    rcases List.mem_append.mp otherMem with inFront | isLast
    · exact grouped.fits other (List.mem_append_left _ inFront)
    · obtain ⟨slot, -, -, isCandidate⟩ := mergeBundles_eq_some only merged
      rw [List.mem_singleton.mp isLast, isCandidate]
      simp [length_normalizeSlots]
  · intro other otherMem
    rcases List.mem_append.mp otherMem with inFront | isLast
    · exact grouped.straight other (List.mem_append_left _ inFront)
    · rw [List.mem_singleton.mp isLast, bundleIsTerminator_of_perm perm, List.any_append]
      unfold bundleIsTerminator at lastStraight straight
      rw [lastStraight, ← only, straight]
      rfl

/-- A packed segment holds the syllables of the scalar one. -/
theorem grouped_of_segment {processor : Processor} {segment out : List Bundle} {startCycle : Nat}
    {ready : ReadyState}
    (scalar : ∀ bundle ∈ segment, Single processor.width bundle ∧
      bundleIsTerminator bundle = false)
    (done : packBundleSegment processor segment startCycle ready = some out) :
    Grouped processor.width segment out := by
  induction segment using List.reverseRecOn generalizing out with
  | nil =>
      cases done
      exact ⟨⟨[], rfl, .nil⟩, by simp, by simp⟩
  | append_singleton front bundle ih =>
      obtain ⟨single, straight⟩ := scalar bundle (by simp)
      unfold packBundleSegment at done
      rw [List.foldlM_append] at done
      obtain ⟨middle, frontDone, bundleDone⟩ := Option.bind_eq_some_iff.mp done
      have grouped := ih (fun other inFront => scalar other (List.mem_append_left _ inFront))
        frontDone
      have lastDone : packBundle processor startCycle ready middle bundle = some out := by
        simpa using bundleDone
      rcases packBundle_cases lastDone with
        ⟨empty, rfl⟩ | ⟨full, merged | ⟨-, fuel, padded, isPadded, rfl⟩⟩
      · simpa using grouped.append single straight 0
      · obtain ⟨start, last, candidate, rfl, -, -, -, -, -, isMerged, -, rfl⟩ :=
          tryMerge_eq_some merged
        rcases single.single with empty | ⟨asm, only⟩
        · exact absurd empty full
        · exact grouped.merge only straight isMerged
      · obtain ⟨count, rfl, -⟩ := padUntilReady_eq_some isPadded
        exact grouped.append single straight count

/-! ### Programs -/

theorem Grouped.holdsSyllables {width : Nat} {segment out : List Bundle}
    (grouped : Grouped width segment out) :
    HoldsSyllables (segment.map .bundle) (out.map .bundle) := by
  obtain ⟨groups, flat, related⟩ := grouped.groups
  refine ⟨groups, ?_, List.forall₂_map_right_iff.mpr related⟩
  rw [flat, List.flatMap_map]
  rfl

theorem not_isBoundary_map {bundles : List Bundle}
    (straight : ∀ bundle ∈ bundles, bundleIsTerminator bundle = false) :
    ∀ item ∈ bundles.map Item.bundle, isBoundary item = false := by
  intro item itemMem
  obtain ⟨bundle, bundleMem, rfl⟩ := List.mem_map.mp itemMem
  exact straight bundle bundleMem

theorem filter_isBoundary_map {bundles : List Bundle}
    (straight : ∀ bundle ∈ bundles, bundleIsTerminator bundle = false) :
    (bundles.map Item.bundle).filter isBoundary = [] := by
  rw [List.filter_eq_nil_iff]
  intro item itemMem
  simp [not_isBoundary_map straight item itemMem]

/-- A segment up to the end of the program. -/
theorem KeepsBoundaries.last {width : Nat} {segment out : List Bundle}
    (scalar : ∀ bundle ∈ segment, bundleIsTerminator bundle = false)
    (grouped : Grouped width segment out) :
    KeepsBoundaries (segment.map .bundle) (out.map .bundle) where
  boundaries := by rw [filter_isBoundary_map scalar, filter_isBoundary_map grouped.straight]
  segments := by
    rw [List.splitOnP_eq_singleton (not_isBoundary_map scalar),
      List.splitOnP_eq_singleton (not_isBoundary_map grouped.straight)]
    exact .cons grouped.holdsSyllables .nil

/-- A segment up to a boundary. -/
theorem KeepsBoundaries.cons {width : Nat} {segment out : List Bundle} {item : Item}
    {scalar packed : List Item}
    (straight : ∀ bundle ∈ segment, bundleIsTerminator bundle = false)
    (grouped : Grouped width segment out) (ends : isBoundary item = true)
    (rest : KeepsBoundaries scalar packed) :
    KeepsBoundaries (segment.map .bundle ++ item :: scalar) (out.map .bundle ++ item :: packed)
    where
  boundaries := by
    rw [List.filter_append, List.filter_append, filter_isBoundary_map straight,
      filter_isBoundary_map grouped.straight, List.filter_cons_of_pos ends,
      List.filter_cons_of_pos ends, rest.boundaries]
  segments := by
    rw [List.splitOnP_append_cons_of_forall_mem (not_isBoundary_map straight) item ends,
      List.splitOnP_append_cons_of_forall_mem (not_isBoundary_map grouped.straight) item ends]
    exact .cons grouped.holdsSyllables rest.segments

section Program

variable {processor : Processor}

theorem flushSegment_eq_some {state flushed : PackState}
    (done : flushSegment processor state = some flushed) :
    ∃ bundles, packBundleSegment processor state.segment state.cycle state.ready = some bundles ∧
      flushed.packed = state.packed ++ bundles.map .bundle ∧ flushed.segment = [] := by
  obtain ⟨bundles, packed, rfl⟩ := Option.map_eq_some_iff.mp done
  exact ⟨bundles, packed, rfl, rfl⟩

/-- Packing the rest of a program. -/
theorem keepsBoundaries_of_rest {items : List Item} {state final : PackState}
    (single : ∀ bundle, Item.bundle bundle ∈ items → Single processor.width bundle)
    (scalar : ∀ bundle ∈ state.segment,
      Single processor.width bundle ∧ bundleIsTerminator bundle = false)
    (done : (items.foldlM (packItem processor) state).bind (flushSegment processor) =
      some final) :
    ∃ rest, final.packed = state.packed ++ rest ∧
      KeepsBoundaries (state.segment.map .bundle ++ items) rest := by
  have straight := fun bundle bundleMem => (scalar bundle bundleMem).2
  induction items generalizing state with
  | nil =>
      obtain ⟨bundles, packed, same, -⟩ := flushSegment_eq_some done
      refine ⟨bundles.map .bundle, same, ?_⟩
      rw [List.append_nil]
      exact .last straight (grouped_of_segment scalar packed)
  | cons item items ih =>
      obtain ⟨itemSingle, restSingle⟩ :
          (∀ bundle, item = .bundle bundle → Single processor.width bundle) ∧
            ∀ bundle, Item.bundle bundle ∈ items → Single processor.width bundle :=
        ⟨fun bundle same => single bundle (same ▸ List.mem_cons_self),
          fun bundle bundleMem => single bundle (List.mem_cons_of_mem _ bundleMem)⟩
      obtain ⟨last, folded, flushed⟩ := Option.bind_eq_some_iff.mp done
      rw [List.foldlM_cons] at folded
      obtain ⟨next, first, others⟩ := Option.bind_eq_some_iff.mp folded
      have remaining : (items.foldlM (packItem processor) next).bind (flushSegment processor) =
          some final := by
        rw [others]
        exact flushed
      have boundary : ∀ {middle : PackState}, flushSegment processor state = some middle →
          next.packed = middle.packed ++ [item] → next.segment = middle.segment →
          isBoundary item = true →
          ∃ rest, final.packed = state.packed ++ rest ∧
            KeepsBoundaries (state.segment.map .bundle ++ item :: items) rest := by
        intro middle isFlushed nextPacked nextSegment ends
        obtain ⟨bundles, packed, same, empty⟩ := flushSegment_eq_some isFlushed
        have nextEmpty : next.segment = [] := nextSegment.trans empty
        obtain ⟨rest, finalPacked, kept⟩ := ih restSingle
          (by simp [nextEmpty]) remaining (by simp [nextEmpty])
        rw [nextEmpty, List.map_nil, List.nil_append] at kept
        refine ⟨bundles.map .bundle ++ item :: rest, ?_,
          kept.cons straight (grouped_of_segment scalar packed) ends⟩
        rw [finalPacked, nextPacked, same]
        simp
      cases item with
      | label name =>
          obtain ⟨middle, isFlushed, rfl⟩ := Option.map_eq_some_iff.mp first
          exact boundary isFlushed rfl rfl rfl
      | bundle bundle =>
          simp only [packItem] at first
          cases isLast : bundleIsTerminator bundle with
          | true =>
              rw [isLast, if_pos rfl] at first
              obtain ⟨middle, isFlushed, rfl⟩ := Option.map_eq_some_iff.mp first
              exact boundary isFlushed rfl rfl isLast
          | false =>
              rw [isLast, if_neg Bool.false_ne_true] at first
              cases first
              have nextScalar : ∀ other ∈ state.segment ++ [bundle],
                  Single processor.width other ∧ bundleIsTerminator other = false := by
                intro other otherMem
                rcases List.mem_append.mp otherMem with before | isNew
                · exact scalar other before
                · rw [List.mem_singleton.mp isNew]
                  exact ⟨itemSingle bundle rfl, isLast⟩
              obtain ⟨rest, finalPacked, kept⟩ := ih restSingle nextScalar remaining
                fun other otherMem => (nextScalar other otherMem).2
              refine ⟨rest, finalPacked, ?_⟩
              simpa using kept

end Program

/-- Packing any scalar program keeps its labels and control transfers, and
between two of them its syllables: each is issued once, and none before one that
precedes it in the scalar program.  Control transfers are issued alone. -/
theorem packScalarProgram_keepsBoundaries {functions : List Function} {processor : Processor}
    {program : Program} (emitted : scalarProgram functions processor = .ok program) :
    ∃ packed, packScalarProgram program = some packed ∧
      KeepsBoundaries program.items packed.items ∧
      ∀ bundle, Item.bundle bundle ∈ packed.items → bundleIsTerminator bundle = true →
        ∃ asm, bundle.syllables = [asm] := by
  obtain ⟨placed, -⟩ := Codegen.allPlaced_of_scalarProgram emitted
  obtain ⟨packed, done⟩ := exists_packed_of_placed placed
  have kept : KeepsBoundaries program.items packed.items := by
    obtain ⟨state, folded, isFlushed⟩ := Option.bind_eq_some_iff.mp done
    obtain ⟨final, flushed, rfl⟩ := Option.map_eq_some_iff.mp isFlushed
    have whole : (program.items.foldlM (packItem program.processor) {}).bind
        (flushSegment program.processor) = some final := by
      rw [folded]
      exact flushed
    obtain ⟨rest, finalPacked, kept⟩ := keepsBoundaries_of_rest
      (fun bundle bundleMem => single_of_placed (placed bundle bundleMem)) (by simp) whole
    rw [finalPacked]
    exact kept
  refine ⟨packed, done, kept, ?_⟩
  intro bundle bundleMem transfers
  have inScalar : Item.bundle bundle ∈ program.items := by
    have inBoundaries : Item.bundle bundle ∈ packed.items.filter isBoundary :=
      List.mem_filter.mpr ⟨bundleMem, transfers⟩
    rw [kept.boundaries] at inBoundaries
    exact (List.mem_filter.mp inBoundaries).1
  rcases placed_syllables (placed bundle inScalar) with empty | ⟨asm, opcode, only, -⟩
  · unfold bundleIsTerminator at transfers
    rw [empty] at transfers
    cases transfers
  · exact ⟨asm, only⟩

theorem packScalarProgram_keepsBoundaries_branchingModule :
    ∃ program packed, scalarProgram Codegen.branchingModule .default = .ok program ∧
      packScalarProgram program = some packed ∧
      KeepsBoundaries program.items packed.items := by
  obtain ⟨program, emitted⟩ : ∃ program,
      scalarProgram Codegen.branchingModule .default = .ok program :=
    exists_of_isOk (by decide +kernel)
  obtain ⟨packed, done, kept, -⟩ := packScalarProgram_keepsBoundaries emitted
  exact ⟨program, packed, emitted, done, kept⟩

end VliwCompiler.Pack
