import VliwCompiler.Pack.Transfers

/-!
# The ends of packed blocks

The packer goes through the bundles of a block in order and merges each one into the
last bundle it has written, or not at all.  The first bundle of a packed block thus
holds syllables from the start of the block, as many as fit together, and an operation
of three cycles can be in the last bundle only if it is the last one of the block.
-/

namespace VliwCompiler.Pack

open Asm (Opcode Bundle Processor verifyBundle)
open Codegen (Op Placed ScalarBody Slotted lowerSyllable scalarSlot bundleWith)
open Mir (Block)
open Schedule (ReadyState)

/-- The syllables can be issued in one bundle: the first one in the slot chosen for
it, and every other one merged into the bundle, when no result of the ones before it
takes more than a cycle, there is an open slot for it and the verifier accepts the
merged bundle. -/
inductive Leads (processor : Processor) : List Mir.Syllable → Bundle → Prop where
  | one {syllable : Mir.Syllable} {asm : Asm.Syllable} {slot : Nat} {bundle : Bundle}
      (lowered : lowerSyllable syllable = .ok asm)
      (isSlot : scalarSlot syllable.opcode processor = .ok slot)
      (placed : bundleWith processor.width slot asm = .ok bundle) :
      Leads processor [syllable] bundle
  | more {front : List Mir.Syllable} {syllable : Mir.Syllable} {asm : Asm.Syllable}
      {last candidate : Bundle} (before : Leads processor front last)
      (settled : ∀ earlier ∈ front, (Op.syllable earlier).dest.isSome →
        earlier.opcode.latency ≤ 1)
      (lowered : lowerSyllable syllable = .ok asm)
      (merged : placeSyllable processor ⟨normalizeSlots last.slots processor.width⟩ asm =
        some candidate)
      (accepted : verifyBundle candidate processor = .ok ()) :
      Leads processor (front ++ [syllable]) candidate

/-- In packed code a block begins with the syllables that can be issued together. -/
def BeginsPacked (processor : Processor) (block : Block) (syllable : Mir.Syllable) : Prop :=
  ∃ front bundle, Leads processor front bundle ∧ front <+: block.syllables ∧ syllable ∈ front

/-! ### Scalar bodies -/

theorem split_of_body {width : Nat} {syllables : List Mir.Syllable} {front back : List Bundle}
    (body : ScalarBody width syllables (front ++ back)) :
    ∃ left right, syllables = left ++ right ∧ ScalarBody width left front ∧
      ScalarBody width right back := by
  induction front generalizing syllables with
  | nil => exact ⟨[], syllables, rfl, .nil, body⟩
  | cons bundle front ih =>
      cases body with
      | wait rest =>
          obtain ⟨left, right, rfl, isLeft, isRight⟩ := ih rest
          exact ⟨left, right, rfl, .wait isLeft, isRight⟩
      | @issue syllable _ _ _ _ lowered only fits rest =>
          obtain ⟨left, right, rfl, isLeft, isRight⟩ := ih rest
          exact ⟨syllable :: left, right, rfl, .issue lowered only fits isLeft, isRight⟩

/-- A body of one bundle. -/
theorem body_singleton {width : Nat} {syllables : List Mir.Syllable} {bundle : Bundle}
    (body : ScalarBody width syllables [bundle]) :
    syllables = [] ∧ bundle.syllables = [] ∨
      ∃ syllable asm, syllables = [syllable] ∧ bundle.syllables = [asm] ∧
        lowerSyllable syllable = .ok asm := by
  cases body with
  | wait rest => exact .inl ⟨syllables_nil_of_body rest, rfl⟩
  | @issue syllable syllables asm _ _ lowered only fits rest =>
      rw [syllables_nil_of_body rest]
      exact .inr ⟨syllable, asm, rfl, only, lowered⟩

/-- The bundle of a syllable is in the slot chosen for it. -/
theorem leads_of_slotted {processor : Processor} {bundle : Bundle} {syllable : Mir.Syllable}
    {asm : Asm.Syllable} (slotted : Slotted processor bundle) (only : bundle.syllables = [asm])
    (lowered : lowerSyllable syllable = .ok asm) (straight : bundleIsTerminator bundle = false) :
    Leads processor [syllable] bundle := by
  have isOnly : ∀ {slot : Nat} {other : Asm.Syllable}, slot < processor.width →
      bundle = ⟨(List.replicate processor.width none).set slot (some other)⟩ →
      bundleWith processor.width slot other = .ok bundle ∧ other = asm := by
    intro slot other inside isBundle
    have built : bundleWith processor.width slot other = .ok bundle := by
      rw [isBundle]
      exact if_pos inside
    refine ⟨built, ?_⟩
    have same := (Codegen.syllables_bundleWith built).1
    rw [only, List.singleton_inj] at same
    exact same.symm
  generalize isBundle : bundle = other at slotted
  cases slotted with
  | wait =>
      rw [isBundle] at only
      cases only
  | @syllable original _ slot isLowered isSlot inside supported =>
      obtain ⟨built, rfl⟩ := isOnly inside isBundle
      have sameOpcode : original.opcode = syllable.opcode := by
        apply Opcode.mnemonic_injective
        rw [← Codegen.mnemonic_of_lowerSyllable isLowered,
          Codegen.mnemonic_of_lowerSyllable lowered]
      rw [isBundle] at built
      exact .one lowered (sameOpcode ▸ isSlot) built
  | @transfer _ _ slot isControl known inside supported =>
      obtain ⟨built, rfl⟩ := isOnly inside isBundle
      obtain ⟨control, isControl⟩ := Option.isSome_iff_exists.mp isControl
      rw [bundleIsTerminator_of_control only isControl] at straight
      cases straight

/-! ### Packed segments -/

/-- The first bundle issues the syllables `front`, and these are all of `syllables`
while there is no other bundle. -/
def Opened (processor : Processor) (syllables : List Mir.Syllable) (head : Bundle)
    (rest : List Bundle) : Prop :=
  ∃ front asms, Leads processor front head ∧ front <+: syllables ∧
    List.Forall₂ (fun syllable asm => lowerSyllable syllable = .ok asm) front asms ∧
    asms.Perm head.syllables ∧ (rest = [] → front = syllables)

/-- The bundles `out` of a packed segment. -/
structure Segmented (processor : Processor) (syllables : List Mir.Syllable)
    (segment out : List Bundle) : Prop where
  sound : ∀ bundle ∈ out, Sound processor bundle
  empty : out = [] → segment = []
  last : ∀ {bundle : Bundle} {writer : Asm.Syllable}, out.getLast? = some bundle →
    writer ∈ bundle.syllables → asmLatency writer = 3 → (asmDest writer).isSome →
    ∃ original, segment.getLast? = some original ∧ writer ∈ original.syllables
  first : ∀ {head : Bundle} {rest : List Bundle}, out = head :: rest → head.syllables ≠ [] →
    (∃ original, segment.head? = some original ∧ original.syllables ≠ []) ∧
      Opened processor syllables head rest

/-- Before a bundle is merged, no result of the last one is pending. -/
theorem quick_of_settled {processor : Processor} {front : List Bundle} {last : Bundle}
    {startCycle : Nat} {ready : ReadyState} (sound : Sound processor last)
    (settled : hasPendingResultAt (readyAfterBundles ready startCycle (front ++ [last]))
      (startCycle + (front ++ [last]).length) = false) {asm : Asm.Syllable}
    (asmMem : asm ∈ last.syllables) (writes : (asmDest asm).isSome) : asmLatency asm ≤ 1 := by
  obtain ⟨key, isDest⟩ := Option.isSome_iff_exists.mp writes
  have bound := le_of_settled settled key
  rw [readyAfterBundles_append] at bound
  change readyKey (updateReadyAfterBundle last (startCycle + front.length) _) key ≤ _ at bound
  rw [sound.readyKey asmMem isDest, List.length_append, List.length_singleton] at bound
  omega

theorem Opened.later {processor : Processor} {syllables more : List Mir.Syllable} {head : Bundle}
    {rest last : List Bundle} (opened : Opened processor syllables head rest)
    (full : last ≠ []) : Opened processor (syllables ++ more) head (rest ++ last) := by
  obtain ⟨front, asms, leads, isFront, lowered, perm, -⟩ := opened
  refine ⟨front, asms, leads, isFront.trans (List.prefix_append _ _), lowered, perm, ?_⟩
  intro nothing
  exact absurd (List.append_eq_nil_iff.mp nothing).2 full

section Segment

variable {processor : Processor} {syllables : List Mir.Syllable} {segment out : List Bundle}
  {bundle : Bundle}

/-- A bundle behind the others. -/
theorem Segmented.append (segmented : Segmented processor syllables segment out)
    {more : List Mir.Syllable} {added : List Bundle}
    (sound : ∀ other ∈ added, Sound processor other)
    (last : added.getLast? = some bundle)
    (first : out = [] → ∀ {head : Bundle} {rest : List Bundle}, added = head :: rest →
      head.syllables ≠ [] → bundle.syllables ≠ [] ∧ Opened processor (syllables ++ more) head rest) :
    Segmented processor (syllables ++ more) (segment ++ [bundle]) (out ++ added) where
  sound := List.forall_mem_append.mpr ⟨segmented.sound, sound⟩
  empty := by
    intro nothing
    rw [(List.append_eq_nil_iff.mp nothing).2] at last
    cases last
  last := by
    intro other writer isLast writerMem _ _
    rw [List.getLast?_append, last, Option.some_or, Option.some.injEq] at isLast
    exact ⟨bundle, List.getLast?_concat, isLast ▸ writerMem⟩
  first := by
    intro head rest isOut full
    have addedFull : added ≠ [] := by
      rintro rfl
      cases last
    cases out with
    | nil =>
        obtain ⟨bundleFull, opened⟩ := first rfl isOut full
        rw [segmented.empty rfl]
        exact ⟨⟨bundle, rfl, bundleFull⟩, opened⟩
    | cons other others =>
        rw [List.cons_append, List.cons.injEq] at isOut
        obtain ⟨rfl, rfl⟩ := isOut
        obtain ⟨⟨original, isFirst, originalFull⟩, opened⟩ := segmented.first rfl full
        refine ⟨⟨original, ?_, originalFull⟩, opened.later addedFull⟩
        rw [List.head?_append, isFirst]
        rfl

end Segment

theorem segmented_of_packed {processor : Processor} {syllables : List Mir.Syllable}
    {segment out : List Bundle} {startCycle : Nat} {ready : ReadyState}
    (body : ScalarBody processor.width syllables segment)
    (plain : ∀ syllable ∈ syllables, PlainSyllable syllable)
    (slotted : ∀ bundle ∈ segment, Slotted processor bundle)
    (straight : ∀ bundle ∈ segment, bundleIsTerminator bundle = false)
    (done : packBundleSegment processor segment startCycle ready = some out) :
    Segmented processor syllables segment out := by
  induction segment using List.reverseRecOn generalizing syllables out with
  | nil =>
      cases done
      refine ⟨fun bundle bundleMem => (by cases bundleMem), fun _ => rfl, ?_, ?_⟩
      · intro bundle writer isLast
        cases isLast
      · intro head rest isOut
        cases isOut
  | append_singleton segment bundle ih =>
      obtain ⟨left, right, rfl, leftBody, rightBody⟩ := split_of_body body
      obtain ⟨slottedFront, slottedLast⟩ := List.forall_mem_append.mp slotted
      obtain ⟨straightFront, straightLast⟩ := List.forall_mem_append.mp straight
      obtain ⟨plainLeft, plainRight⟩ := List.forall_mem_append.mp plain
      have isSlotted := List.forall_mem_singleton.mp slottedLast
      have isStraight := List.forall_mem_singleton.mp straightLast
      have placed := Codegen.placed_of_slotted isSlotted
      unfold packBundleSegment at done
      rw [List.foldlM_append] at done
      obtain ⟨middle, frontDone, bundleDone⟩ := Option.bind_eq_some_iff.mp done
      have lastDone : packBundle processor startCycle ready middle bundle = some out := by
        simpa using bundleDone
      have segmented := ih leftBody plainLeft slottedFront straightFront frontDone
      have isSound := sound_of_placed placed
      rcases packBundle_cases lastDone with
        ⟨empty, rfl⟩ | ⟨full, merged | ⟨-, fuel, padded, isPadded, rfl⟩⟩
      · refine segmented.append (List.forall_mem_singleton.mpr isSound) rfl ?_
        intro _ head rest isHead headFull
        rw [List.cons.injEq] at isHead
        rw [← isHead.1] at headFull
        exact absurd empty headFull
      · obtain ⟨front, last, candidate, rfl, -, lastFull, lastStraight, settled, -, isMerged,
          accepted, rfl⟩ := tryMerge_eq_some merged
        obtain ⟨frontSound, lastSound⟩ := List.forall_mem_append.mp segmented.sound
        have isLastSound := List.forall_mem_singleton.mp lastSound
        rcases body_singleton rightBody with ⟨-, empty⟩ | ⟨syllable, asm, rfl, only, lowered⟩
        · exact absurd empty full
        refine ⟨?_, ?_, ?_, ?_⟩
        · refine List.forall_mem_append.mpr ⟨frontSound, List.forall_mem_singleton.mpr ?_⟩
          exact isLastSound.merge placed full isStraight lastStraight isMerged accepted
        · intro nothing
          cases (List.append_eq_nil_iff.mp nothing).2
        · intro other writer isLast writerMem slow writes
          rw [List.getLast?_concat, Option.some.injEq] at isLast
          rw [← isLast, mem_of_merged isLastSound.fits placed full isMerged] at writerMem
          rcases writerMem with inLast | inBundle
          · have quick := quick_of_settled isLastSound settled inLast writes
            omega
          · exact ⟨bundle, List.getLast?_concat, inBundle⟩
        · intro head rest isOut headFull
          cases front with
          | nil =>
              rw [List.nil_append, List.cons.injEq] at isOut
              obtain ⟨rfl, rfl⟩ := isOut
              obtain ⟨⟨original, isFirst, originalFull⟩, leading, asms, leads, -, asmsLowered,
                perm, all⟩ := segmented.first rfl lastFull
              obtain rfl := all rfl
              refine ⟨⟨original, by rw [List.head?_append, isFirst]; rfl, originalFull⟩,
                leading ++ [syllable], asms ++ [asm], ?_, List.prefix_rfl,
                List.rel_append asmsLowered (.cons lowered .nil), ?_, fun _ => rfl⟩
              · refine .more leads ?_ lowered ?_ accepted
                · intro earlier earlierMem writes
                  obtain ⟨earlierAsm, asmMem, isLowered⟩ :=
                    exists_image_of_forall₂ asmsLowered earlierMem
                  have names := (plainLeft earlier earlierMem).names isLowered
                  rw [← asmDest_of_names names] at writes
                  have quick := quick_of_settled isLastSound settled (perm.mem_iff.mp asmMem) writes
                  rwa [asmLatency_of_names names] at quick
                · unfold mergeBundles at isMerged
                  rw [only, List.foldlM_cons] at isMerged
                  obtain ⟨placedBundle, isPlaced, same⟩ := Option.bind_eq_some_iff.mp isMerged
                  cases same
                  exact isPlaced
              · exact (perm.append_right [asm]).trans
                  (perm_of_mergeBundles isLastSound.fits only isMerged)
          | cons other others =>
              rw [List.cons_append, List.cons.injEq] at isOut
              obtain ⟨rfl, rfl⟩ := isOut
              obtain ⟨⟨original, isFirst, originalFull⟩, leading, asms, leads, isFront, asmsLowered,
                perm, -⟩ := segmented.first rfl headFull
              refine ⟨⟨original, by rw [List.head?_append, isFirst]; rfl, originalFull⟩, leading,
                asms, leads, isFront.trans (List.prefix_append _ _), asmsLowered, perm, ?_⟩
              intro nothing
              cases (List.append_eq_nil_iff.mp nothing).2
      · obtain ⟨count, rfl, -⟩ := padUntilReady_eq_some isPadded
        rcases body_singleton rightBody with ⟨-, empty⟩ | ⟨syllable, asm, rfl, only, lowered⟩
        · exact absurd empty full
        rw [List.append_assoc]
        refine segmented.append ?_ List.getLast?_concat ?_
        · refine List.forall_mem_append.mpr ⟨?_, List.forall_mem_singleton.mpr isSound⟩
          intro other otherMem
          rw [List.eq_of_mem_replicate otherMem]
          exact sound_of_placed .wait
        · rintro rfl head rest isHead headFull
          refine ⟨full, ?_⟩
          cases count with
          | zero =>
              rw [List.replicate_zero, List.nil_append, List.cons.injEq] at isHead
              obtain ⟨rfl, rfl⟩ := isHead
              obtain rfl : left = [] := by
                rw [segmented.empty rfl] at leftBody
                exact syllables_nil_of_body leftBody
              refine ⟨[syllable], [asm], leads_of_slotted isSlotted only lowered isStraight,
                List.prefix_rfl, .cons lowered .nil, by rw [only], fun _ => rfl⟩
          | succ count =>
              rw [List.replicate_succ, List.cons_append, List.cons.injEq] at isHead
              rw [← isHead.1] at headFull
              exact absurd rfl headFull

end VliwCompiler.Pack
