import VliwCompiler.Pack.Boundaries
import VliwCompiler.Pack.Latency

/-!
# Memory order of packed programs

The scheduler keeps the order of memory operations that may alias.  The packer
merges bundles by their registers alone, so the order survives exactly when no merge
puts a memory operation next to an earlier one it conflicts with.
-/

namespace VliwCompiler.Pack

open Asm (Opcode Bundle Item Processor Program BlockCode blockItems programBundles verifyBundle)
open Codegen (Placed AllPlaced ScalarBody ScalarCode lowerSyllable slotSupportsOpcode scalarSlot
  xSlot scalarProgram)
open Mir (Function Block blockAt blockIds)
open Schedule (ReadyState issueOrder memoryBucket memoryBucketsMayAlias ValidOrder)

/-- Stores and release stores. -/
def isStoreOpcode (opcode : Opcode) : Bool :=
  match opcode.behavior with
  | .store _ | .release => true
  | _ => false

/-- Memory syllables, one of them a store, whose buckets may alias. -/
structure MemoryConflict (first second : Mir.Syllable) : Prop where
  firstMemory : isMemoryOpcode first.opcode = true
  secondMemory : isMemoryOpcode second.opcode = true
  store : isStoreOpcode first.opcode = true ∨ isStoreOpcode second.opcode = true
  mayAlias : memoryBucketsMayAlias (memoryBucket first) (memoryBucket second) = true

/-- The syllable at a position of a block is lowered to `asm`. -/
def LowersAt (block : Block) (position : Nat) (asm : Asm.Syllable) : Prop :=
  ∃ syllable, block.syllables[position]? = some syllable ∧ lowerSyllable syllable = .ok asm

/-- The bundles issue every syllable of the block once, in the order of the scheduler,
and conflicting memory syllables in different bundles and in their original order. -/
def MemoryOrdered (block : Block) (body : List Bundle) : Prop :=
  ∃ groups : List (List Nat), groups.flatten = issueOrder block.syllables ∧
    List.Forall₂ (fun group bundle => ∃ asms, List.Forall₂ (LowersAt block) group asms ∧
      asms.Perm bundle.syllables) groups body ∧
    ∀ i j first second, i < j → block.syllables[i]? = some first →
      block.syllables[j]? = some second → MemoryConflict first second →
      ∃ (a b : Nat) (left right : List Nat), a < b ∧ groups[a]? = some left ∧
        groups[b]? = some right ∧ i ∈ left ∧ j ∈ right

/-- Every block of the packed program keeps the order of its memory syllables. -/
def KeepsMemoryOrder (functions : List Function) (packed : Program) : Prop :=
  ∃ codes, packed.items = blockItems codes ∧
    List.Forall₂ (fun id code => ∃ block, blockAt functions id = some block ∧
      code.label = block.label ∧ MemoryOrdered block code.body) (blockIds functions) codes

/-- While a segment is packed, its syllable `later` is merged into the last packed
bundle, which holds the syllable `earlier`. -/
def Joins (processor : Processor) (startCycle : Nat) (ready : ReadyState)
    (segment : List Bundle) (earlier later : Nat) : Prop :=
  ∃ front bundle back out last, segment = front ++ bundle :: back ∧
    packBundleSegment processor front startCycle ready = some out ∧ out.getLast? = some last ∧
    bundle.syllables ≠ [] ∧
    (tryMergeIntoPrevious processor out bundle startCycle ready).isSome ∧
    later = (front.flatMap Bundle.syllables).length ∧ earlier < later ∧
    later ≤ earlier + last.syllables.length

/-- No merge made while the code of the syllables is packed joins two that conflict in
memory. -/
def ApartMerges (processor : Processor) (startCycle : Nat) (ready : ReadyState)
    (syllables : List Mir.Syllable) (segment : List Bundle) : Prop :=
  ∀ earlier later first second, Joins processor startCycle ready segment earlier later →
    syllables[earlier]? = some first → syllables[later]? = some second →
    ¬MemoryConflict first second

/-- No merge made while the module is packed joins memory syllables of a block that
conflict.  The code of a block is packed from the state in which the code before it
leaves the packer. -/
def MergesApart (functions : List Function) (processor : Processor) : Prop :=
  ∀ program scalar index id block code start,
    scheduledProgram functions processor = .ok program → program.items = blockItems scalar →
    (blockIds functions)[index]? = some id → blockAt functions id = some block →
    scalar[index]? = some code →
    (blockItems (scalar.take index)).foldlM (packItem processor) {} = some start →
    ApartMerges processor start.cycle start.ready
      ((issueOrder block.syllables).filterMap (block.syllables[·]?)) code.body

/-! ### Groups of positions -/

/-- Grouping the images of a list groups the list. -/
theorem exists_groups {α β : Type} {relation : α → β → Prop} {items : List α}
    {images : List (List β)} (related : List.Forall₂ relation items images.flatten) :
    ∃ groups : List (List α), groups.flatten = items ∧
      List.Forall₂ (List.Forall₂ relation) groups images := by
  induction images generalizing items with
  | nil =>
      rw [List.flatten_nil, List.forall₂_nil_right_iff] at related
      exact ⟨[], related.symm, .nil⟩
  | cons image images ih =>
      rw [List.flatten_cons] at related
      obtain ⟨left, right, rfl, first, others⟩ := exists_append_of_forall₂ related
      obtain ⟨groups, rfl, grouped⟩ := ih others
      exact ⟨left :: groups, rfl, .cons first grouped⟩

/-- Two members of grouped lists are in one group, or in two in the order of the
members. -/
theorem group_cases {groups : List (List Nat)} {i j : Nat}
    (firstMem : i ∈ groups.flatten) (secondMem : j ∈ groups.flatten)
    (before : groups.flatten.idxOf i < groups.flatten.idxOf j) :
    (∃ group ∈ groups, i ∈ group ∧ j ∈ group) ∨
      ∃ (a b : Nat) (left right : List Nat), a < b ∧ groups[a]? = some left ∧
        groups[b]? = some right ∧ i ∈ left ∧ j ∈ right := by
  induction groups with
  | nil => cases firstMem
  | cons group groups ih =>
      rw [List.flatten_cons] at firstMem secondMem before
      by_cases firstHere : i ∈ group
      · by_cases secondHere : j ∈ group
        · exact .inl ⟨group, List.mem_cons_self, firstHere, secondHere⟩
        · have inRest : j ∈ groups.flatten :=
            (List.mem_append.mp secondMem).resolve_left secondHere
          obtain ⟨other, otherMem, inOther⟩ := List.mem_flatten.mp inRest
          obtain ⟨b, isOther⟩ := List.mem_iff_getElem?.mp otherMem
          exact .inr ⟨0, b + 1, group, other, Nat.succ_pos b, rfl, isOther, firstHere, inOther⟩
      · have firstRest := (List.mem_append.mp firstMem).resolve_left firstHere
        rw [List.idxOf_append_of_notMem firstHere] at before
        have secondHere : j ∉ group := by
          intro secondHere
          rw [List.idxOf_append_of_mem secondHere] at before
          have := List.idxOf_lt_length_of_mem secondHere
          omega
        have secondRest := (List.mem_append.mp secondMem).resolve_left secondHere
        rw [List.idxOf_append_of_notMem secondHere] at before
        rcases ih firstRest secondRest (by omega) with
          ⟨other, otherMem, firstIn, secondIn⟩ | ⟨a, b, left, right, less, isLeft, isRight, rest⟩
        · exact .inl ⟨other, List.mem_cons_of_mem _ otherMem, firstIn, secondIn⟩
        · exact .inr ⟨a + 1, b + 1, left, right, by omega, isLeft, isRight, rest⟩

/-! ### The syllables of scalar and scheduled code -/

/-- Scalar bodies hold the lowered syllables in order. -/
theorem syllables_of_body {width : Nat} {syllables : List Mir.Syllable} {bundles : List Bundle}
    (body : ScalarBody width syllables bundles) :
    List.Forall₂ (fun syllable asm => lowerSyllable syllable = .ok asm) syllables
      (bundles.flatMap Bundle.syllables) := by
  induction body with
  | nil => exact .nil
  | wait _ ih => exact ih
  | issue lowered only fits _ ih =>
      rw [List.flatMap_cons, only]
      exact .cons lowered ih

theorem forall₂_filterMap_getElem? {α : Type} {items : List α} {order : List Nat}
    (inside : ∀ i ∈ order, i < items.length) :
    List.Forall₂ (fun i item => items[i]? = some item) order (order.filterMap (items[·]?)) := by
  induction order with
  | nil => exact .nil
  | cons i order ih =>
      obtain ⟨first, others⟩ := List.forall_mem_cons.mp inside
      rw [List.filterMap_cons_some (List.getElem?_eq_getElem first)]
      exact .cons (List.getElem?_eq_getElem first) (ih others)

/-! ### Merged syllables -/

/-- The groups in which the syllables of a segment are issued. -/
structure Together (processor : Processor) (startCycle : Nat) (ready : ReadyState)
    (segment out : List Bundle) (groups : List (List Nat)) : Prop where
  flat : groups.flatten = List.range (segment.flatMap Bundle.syllables).length
  sizes : groups.map List.length = out.map fun bundle => bundle.syllables.length
  joined : ∀ earlier later, earlier < later →
    ((∃ group ∈ groups, earlier ∈ group ∧ later ∈ group) ↔
      Joins processor startCycle ready segment earlier later)

section Together

variable {processor : Processor} {startCycle : Nat} {ready : ReadyState}
  {segment out : List Bundle} {bundle : Bundle}

/-- Merges made while a longer segment is packed are those of the shorter one and the
one of its last bundle. -/
theorem joins_append {earlier later : Nat}
    (done : packBundleSegment processor segment startCycle ready = some out) :
    Joins processor startCycle ready (segment ++ [bundle]) earlier later ↔
      Joins processor startCycle ready segment earlier later ∨
        ∃ last, out.getLast? = some last ∧ bundle.syllables ≠ [] ∧
          (tryMergeIntoPrevious processor out bundle startCycle ready).isSome ∧
          later = (segment.flatMap Bundle.syllables).length ∧ earlier < later ∧
          later ≤ earlier + last.syllables.length := by
  constructor
  · rintro ⟨front, other, back, packed, last, split, isPacked, isLast, merges⟩
    rcases List.eq_nil_or_concat back with rfl | ⟨init, final, rfl⟩
    · obtain ⟨rfl, same⟩ := List.append_inj' split rfl
      cases same
      cases done.symm.trans isPacked
      exact .inr ⟨last, isLast, merges⟩
    · rw [List.concat_eq_append, ← List.cons_append, ← List.append_assoc] at split
      obtain ⟨rfl, -⟩ := List.append_inj' split rfl
      exact .inl ⟨front, other, init, packed, last, rfl, isPacked, isLast, merges⟩
  · rintro (⟨front, other, back, packed, last, rfl, merges⟩ | ⟨last, isLast, merges⟩)
    · exact ⟨front, other, back ++ [bundle], packed, last, by simp, merges⟩
    · exact ⟨segment, bundle, [], out, last, rfl, done, isLast, merges⟩

theorem Joins.later_lt {earlier later : Nat}
    (joins : Joins processor startCycle ready segment earlier later) :
    later < (segment.flatMap Bundle.syllables).length := by
  obtain ⟨front, other, back, -, -, rfl, -, -, full, -, rfl, -⟩ := joins
  have positive := List.length_pos_iff.mpr full
  rw [List.flatMap_append, List.length_append, List.flatMap_cons, List.length_append]
  omega

theorem Joins.earlier_lt {earlier later : Nat}
    (joins : Joins processor startCycle ready segment earlier later) : earlier < later := by
  obtain ⟨front, other, back, out, last, -, -, -, -, -, -, less, -⟩ := joins
  exact less

/-- The last group of positions. -/
theorem mem_last_group {start : List (List Nat)} {group : List Nat} {count position : Nat}
    (flat : (start ++ [group]).flatten = List.range count) :
    position ∈ group ↔ count ≤ position + group.length ∧ position < count := by
  rw [List.flatten_append, List.flatten_singleton] at flat
  have lengths := congrArg List.length flat
  rw [List.length_append, List.length_range] at lengths
  have isGroup : group = List.range' (start.flatten.length) group.length := by
    have dropped := congrArg (List.drop start.flatten.length) flat
    rw [List.drop_left, List.range_eq_range', List.drop_range'] at dropped
    rw [dropped]
    simp
  rw [isGroup, List.mem_range'_1, List.length_range']
  omega

/-- A bundle that is appended joins nothing. -/
theorem Together.append {groups : List (List Nat)}
    (together : Together processor startCycle ready segment out groups)
    (done : packBundleSegment processor segment startCycle ready = some out)
    (apart : bundle.syllables = [] ∨
      tryMergeIntoPrevious processor out bundle startCycle ready = none)
    (small : bundle.syllables.length ≤ 1) (count : Nat) :
    ∃ groups, Together processor startCycle ready (segment ++ [bundle])
      (out ++ List.replicate count ⟨[]⟩ ++ [bundle]) groups := by
  obtain ⟨size, isSize⟩ : ∃ size, (segment.flatMap Bundle.syllables).length = size := ⟨_, rfl⟩
  have flat := together.flat
  rw [isSize] at flat
  refine ⟨groups ++ List.replicate count [] ++ [List.range' size bundle.syllables.length],
    ?_, ?_, ?_⟩
  · rw [List.flatten_append, List.flatten_append, List.flatten_replicate_nil, List.append_nil,
      List.flatten_singleton, flat, List.flatMap_append, List.length_append, isSize,
      List.flatMap_singleton, List.range_eq_range', List.range_eq_range',
      ← List.range'_append_1, Nat.zero_add]
  · have none : ([] : List Nat).length = (⟨[]⟩ : Bundle).syllables.length := rfl
    rw [List.map_append, List.map_append, List.map_append, List.map_append, together.sizes,
      List.map_replicate, List.map_replicate, none, List.map_singleton, List.map_singleton,
      List.length_range']
  · intro earlier later less
    rw [joins_append done, ← together.joined earlier later less]
    have none : ¬∃ last, out.getLast? = some last ∧ bundle.syllables ≠ [] ∧
        (tryMergeIntoPrevious processor out bundle startCycle ready).isSome ∧
        later = (segment.flatMap Bundle.syllables).length ∧ earlier < later ∧
        later ≤ earlier + last.syllables.length := by
      rintro ⟨last, -, full, merges, -⟩
      rcases apart with empty | fails
      · exact full empty
      · rw [fails] at merges
        cases merges
    rw [or_iff_left none]
    constructor
    · rintro ⟨group, groupMem, firstMem, secondMem⟩
      rcases List.mem_append.mp groupMem with inFront | isNew
      · rcases List.mem_append.mp inFront with inGroups | isEmpty
        · exact ⟨group, inGroups, firstMem, secondMem⟩
        · rw [(List.mem_replicate.mp isEmpty).2] at firstMem
          cases firstMem
      · rw [List.mem_singleton.mp isNew, List.mem_range'_1] at firstMem secondMem
        omega
    · rintro ⟨group, groupMem, bothMem⟩
      exact ⟨group, List.mem_append_left _ (List.mem_append_left _ groupMem), bothMem⟩

/-- The next position is in a group with the positions of the last group. -/
theorem exists_group_snoc_iff {start : List (List Nat)} {group : List Nat}
    {count earlier later : Nat} (flat : (start ++ [group]).flatten = List.range count)
    (less : earlier < later) :
    (∃ other ∈ start ++ [group ++ [count]], earlier ∈ other ∧ later ∈ other) ↔
      (∃ other ∈ start ++ [group], earlier ∈ other ∧ later ∈ other) ∨
        earlier ∈ group ∧ later = count := by
  have below : ∀ position ∈ group, position < count :=
    fun position isMem => ((mem_last_group flat).mp isMem).2
  constructor
  · rintro ⟨other, otherMem, firstMem, secondMem⟩
    rcases List.mem_append.mp otherMem with inStart | isNew
    · exact .inl ⟨other, List.mem_append_left _ inStart, firstMem, secondMem⟩
    · rw [List.mem_singleton.mp isNew, List.mem_append, List.mem_singleton] at firstMem secondMem
      rcases firstMem with firstOld | rfl
      · exact secondMem.imp (fun secondOld => ⟨group, by simp, firstOld, secondOld⟩)
          fun isCount => ⟨firstOld, isCount⟩
      · rcases secondMem with secondOld | rfl
        · exact absurd (below later secondOld) (Nat.lt_asymm less)
        · exact absurd less (Nat.lt_irrefl _)
  · rintro (⟨other, otherMem, firstMem, secondMem⟩ | ⟨isMem, rfl⟩)
    · rcases List.mem_append.mp otherMem with inStart | isLast
      · exact ⟨other, List.mem_append_left _ inStart, firstMem, secondMem⟩
      · rw [List.mem_singleton.mp isLast] at firstMem secondMem
        exact ⟨group ++ [count], by simp, List.mem_append_left _ firstMem,
          List.mem_append_left _ secondMem⟩
    · exact ⟨group ++ [later], by simp, List.mem_append_left _ isMem, by simp⟩

/-- A merged bundle joins the last group. -/
theorem Together.merge {front : List Bundle} {last candidate : Bundle} {asm : Asm.Syllable}
    {groups : List (List Nat)}
    (together : Together processor startCycle ready segment (front ++ [last]) groups)
    (done : packBundleSegment processor segment startCycle ready = some (front ++ [last]))
    (only : bundle.syllables = [asm])
    (merges : (tryMergeIntoPrevious processor (front ++ [last]) bundle startCycle ready).isSome)
    (grown : candidate.syllables.length = last.syllables.length + 1) :
    ∃ groups, Together processor startCycle ready (segment ++ [bundle]) (front ++ [candidate])
      groups := by
  obtain ⟨size, isSize⟩ : ∃ size, (segment.flatMap Bundle.syllables).length = size := ⟨_, rfl⟩
  have flat := together.flat
  have sizes := together.sizes
  rw [isSize] at flat
  obtain ⟨start, group, rfl⟩ : ∃ start group, groups = start ++ [group] := by
    rcases List.eq_nil_or_concat groups with rfl | ⟨start, group, isGroups⟩
    · simp at sizes
    · exact ⟨start, group, isGroups.trans (List.concat_eq_append ..)⟩
  rw [List.map_append, List.map_append] at sizes
  obtain ⟨startSizes, lastSize⟩ := List.append_inj' sizes rfl
  have groupSize : group.length = last.syllables.length := List.head_eq_of_cons_eq lastSize
  refine ⟨start ++ [group ++ [size]], ?_, ?_, ?_⟩
  · rw [List.flatten_append, List.flatten_singleton] at flat ⊢
    rw [← List.append_assoc, flat, List.flatMap_append, List.length_append, isSize,
      List.flatMap_singleton, only, List.length_singleton, List.range_succ]
  · rw [List.map_append, List.map_append, startSizes]
    simp [groupSize, grown]
  · intro earlier later less
    rw [joins_append done, ← together.joined earlier later less, exists_group_snoc_iff flat less]
    refine or_congr_right ⟨?_, ?_⟩
    · rintro ⟨isMem, rfl⟩
      have full : bundle.syllables ≠ [] := by simp [only]
      exact ⟨last, by simp, full, merges, isSize.symm, less,
        groupSize ▸ ((mem_last_group flat).mp isMem).1⟩
    · rintro ⟨other, isLast, -, -, isLater, -, close⟩
      rw [List.getLast?_concat] at isLast
      cases isLast
      rw [isSize] at isLater
      subst isLater
      exact ⟨(mem_last_group flat).mpr ⟨groupSize.symm ▸ close, less⟩, rfl⟩

end Together

/-- The syllables of a bundle of packed code are those of scalar bundles that were
joined. -/
theorem exists_together {processor : Processor} {segment out : List Bundle} {startCycle : Nat}
    {ready : ReadyState} (scalar : ∀ bundle ∈ segment,
      Single processor.width bundle ∧ bundleIsTerminator bundle = false)
    (done : packBundleSegment processor segment startCycle ready = some out) :
    ∃ groups, Together processor startCycle ready segment out groups := by
  induction segment using List.reverseRecOn generalizing out with
  | nil =>
      cases done
      refine ⟨[], rfl, rfl, fun earlier later less => ⟨?_, fun joins => ?_⟩⟩
      · rintro ⟨group, groupMem, -⟩
        cases groupMem
      · exact absurd joins.later_lt (Nat.not_lt_zero _)
  | append_singleton front bundle ih =>
      obtain ⟨single, straight⟩ := scalar bundle (by simp)
      have frontScalar := fun other inFront => scalar other (List.mem_append_left _ inFront)
      unfold packBundleSegment at done
      rw [List.foldlM_append] at done
      obtain ⟨middle, frontDone, bundleDone⟩ := Option.bind_eq_some_iff.mp done
      obtain ⟨groups, together⟩ := ih frontScalar frontDone
      have fits := (grouped_of_segment frontScalar frontDone).fits
      have lastDone : packBundle processor startCycle ready middle bundle = some out := by
        simpa using bundleDone
      have small : bundle.syllables.length ≤ 1 := by
        rcases single.single with empty | ⟨asm, only⟩
        · simp [empty]
        · simp [only]
      rcases packBundle_cases lastDone with
        ⟨empty, rfl⟩ | ⟨full, merged | ⟨fails, fuel, padded, isPadded, rfl⟩⟩
      · simpa using together.append frontDone (.inl empty) small 0
      · have merges : (tryMergeIntoPrevious processor middle bundle startCycle ready).isSome := by
          rw [merged]
          rfl
        obtain ⟨start, last, candidate, rfl, -, -, -, -, -, isMerged, -, rfl⟩ :=
          tryMerge_eq_some merged
        rcases single.single with empty | ⟨asm, only⟩
        · exact absurd empty full
        · have perm := perm_of_mergeBundles (fits last (by simp)) only isMerged
          refine together.merge frontDone only merges ?_
          rw [← perm.length_eq, List.length_append, List.length_singleton]
      · obtain ⟨count, rfl, -⟩ := padUntilReady_eq_some isPadded
        exact together.append frontDone (.inr fails) small count

/-! ### Packed blocks -/

theorem single_of_body {width : Nat} {syllables : List Mir.Syllable} {bundles : List Bundle}
    (body : ScalarBody width syllables bundles) : ∀ bundle ∈ bundles, Single width bundle := by
  induction body with
  | nil => simp
  | wait _ ih => exact List.forall_mem_cons.mpr ⟨⟨Nat.zero_le _, .inl rfl⟩, ih⟩
  | issue lowered only fits _ ih =>
      exact List.forall_mem_cons.mpr ⟨⟨fits.le, .inr ⟨_, only⟩⟩, ih⟩

theorem ScheduledBlock.straight {block scheduled : Block}
    (isScheduled : ScheduledBlock block scheduled)
    (straight : ∀ syllable ∈ block.syllables, syllable.opcode.behavior ≠ .control) :
    ∀ syllable ∈ scheduled.syllables, syllable.opcode.behavior ≠ .control := by
  obtain ⟨order, valid, same⟩ := isScheduled.syllables
  intro syllable syllableMem
  rw [same] at syllableMem
  exact straight syllable ((Schedule.perm_of_validOrder valid).mem_iff.mp syllableMem)

theorem MemoryConflict.symm {first second : Mir.Syllable}
    (conflict : MemoryConflict first second) : MemoryConflict second first where
  firstMemory := conflict.secondMemory
  secondMemory := conflict.firstMemory
  store := conflict.store.symm
  mayAlias := by
    have either := conflict.mayAlias
    simp only [memoryBucketsMayAlias, Bool.or_eq_true, decide_eq_true_eq] at either ⊢
    rcases either with (firstUnknown | secondUnknown) | same
    · exact .inl (.inr firstUnknown)
    · exact .inl (.inl secondUnknown)
    · exact .inr same.symm

/-- A member of grouped lists without duplicates is in one group only. -/
theorem group_unique {groups : List (List Nat)} (distinct : groups.flatten.Nodup) {a b item : Nat}
    {left right : List Nat} (isLeft : groups[a]? = some left) (isRight : groups[b]? = some right)
    (leftMem : item ∈ left) (rightMem : item ∈ right) : a = b := by
  obtain ⟨-, apart⟩ := List.nodup_flatten.mp distinct
  obtain ⟨leftBound, rfl⟩ := List.getElem?_eq_some_iff.mp isLeft
  obtain ⟨rightBound, rfl⟩ := List.getElem?_eq_some_iff.mp isRight
  rw [List.pairwise_iff_getElem] at apart
  rcases Nat.lt_trichotomy a b with less | same | greater
  · exact absurd rightMem (apart a b leftBound rightBound less leftMem)
  · exact same
  · exact absurd leftMem (apart b a rightBound leftBound greater rightMem)

/-- Members of two groups are not in one. -/
theorem group_apart {groups : List (List Nat)} (distinct : groups.flatten.Nodup) {i j : Nat}
    (separate : ∃ (a b : Nat) (left right : List Nat), a < b ∧ groups[a]? = some left ∧
      groups[b]? = some right ∧ i ∈ left ∧ j ∈ right) :
    ¬∃ group ∈ groups, i ∈ group ∧ j ∈ group := by
  rintro ⟨group, groupMem, firstMem, secondMem⟩
  obtain ⟨a, b, left, right, less, isLeft, isRight, inLeft, inRight⟩ := separate
  obtain ⟨c, isGroup⟩ := List.mem_iff_getElem?.mp groupMem
  have sameLeft := group_unique distinct isLeft isGroup inLeft firstMem
  have sameRight := group_unique distinct isRight isGroup inRight secondMem
  omega

/-- The syllables of a scheduled block by their positions in the block. -/
theorem getElem?_filterMap_order {α : Type} {items : List α} {order : List Nat}
    (inside : ∀ i ∈ order, i < items.length) (position : Nat) :
    (order.filterMap (items[·]?))[position]? = order[position]?.bind (items[·]?) := by
  have related := forall₂_filterMap_getElem? inside
  cases found : order[position]? with
  | none =>
      rw [List.getElem?_eq_none_iff, related.length_eq] at found
      exact List.getElem?_eq_none found
  | some i =>
      obtain ⟨item, isItem, isAt⟩ := getElem?_of_forall₂ related.flip found
      rw [isItem, Option.bind_some, isAt]

/-- Bundles determine the sizes of the groups they issue. -/
theorem sizes_of_groups {block : Block} {groups : List (List Nat)} {out : List Bundle}
    (contents : List.Forall₂ (fun group bundle => ∃ asms,
      List.Forall₂ (LowersAt block) group asms ∧ asms.Perm bundle.syllables) groups out) :
    groups.map List.length = out.map fun bundle => bundle.syllables.length := by
  rw [← List.forall₂_eq_eq_eq, List.forall₂_map_left_iff, List.forall₂_map_right_iff]
  refine contents.imp fun group bundle => ?_
  rintro ⟨asms, isLowered, perm⟩
  exact isLowered.length_eq.trans perm.length_eq

theorem mem_map_order {order group : List Nat} (distinct : order.Nodup)
    (inside : ∀ position ∈ group, position < order.length) {position item : Nat}
    (found : order[position]? = some item) :
    item ∈ group.map (order.getD · 0) ↔ position ∈ group := by
  obtain ⟨bound, rfl⟩ := List.getElem?_eq_some_iff.mp found
  rw [List.mem_map]
  constructor
  · rintro ⟨other, otherMem, same⟩
    have otherBound := inside other otherMem
    rw [List.getD_eq_getElem?_getD, List.getElem?_eq_getElem otherBound, Option.getD_some,
      distinct.getElem_inj_iff] at same
    exact same ▸ otherMem
  · intro positionMem
    exact ⟨position, positionMem, by
      rw [List.getD_eq_getElem?_getD, List.getElem?_eq_getElem bound, Option.getD_some]⟩

theorem map_getD_range (order : List Nat) :
    (List.range order.length).map (order.getD · 0) = order := by
  refine List.ext_getElem (by simp) fun i _ bound => ?_
  simp [List.getD_eq_getElem?_getD, List.getElem?_eq_getElem bound]

/-! ### Blocks -/

theorem lt_of_mem_issueOrder (block : Block) :
    ∀ i ∈ issueOrder block.syllables, i < block.syllables.length := fun _ iMem =>
  List.mem_range.mp ((Schedule.issueOrder_correct block.syllables).1.perm.mem_iff.mp iMem)

theorem nodup_issueOrder (block : Block) : (issueOrder block.syllables).Nodup :=
  (Schedule.issueOrder_correct block.syllables).1.perm.nodup_iff.mpr List.nodup_range

theorem mem_issueOrder {block : Block} {i : Nat} {syllable : Mir.Syllable}
    (found : block.syllables[i]? = some syllable) : i ∈ issueOrder block.syllables := by
  rw [(Schedule.issueOrder_correct block.syllables).1.perm.mem_iff]
  exact List.mem_range.mpr (List.getElem?_eq_some_iff.mp found).1

section Block

variable {processor : Processor} {startCycle : Nat} {ready : ReadyState} {block scheduled : Block}
  {code : BlockCode} {out : List Bundle}

/-- The groups of a block are the groups of joined syllables of its code. -/
theorem exists_block_groups (isScheduled : ScheduledBlock block scheduled)
    (isCode : ScalarCode processor.width scheduled code)
    (straight : ∀ syllable ∈ block.syllables, syllable.opcode.behavior ≠ .control)
    (done : packBundleSegment processor code.body startCycle ready = some out) :
    ∃ groups : List (List Nat), groups.flatten = issueOrder block.syllables ∧
      List.Forall₂ (fun group bundle => ∃ asms, List.Forall₂ (LowersAt block) group asms ∧
        asms.Perm bundle.syllables) groups out ∧
      ∀ earlier later i j, earlier < later → (issueOrder block.syllables)[earlier]? = some i →
        (issueOrder block.syllables)[later]? = some j →
        ((∃ group ∈ groups, i ∈ group ∧ j ∈ group) ↔
          Joins processor startCycle ready code.body earlier later) := by
  have bodyStraight := straight_of_body isCode.body (isScheduled.straight straight)
  have scalar := fun bundle bundleMem =>
    And.intro (single_of_body isCode.body bundle bundleMem) (bodyStraight bundle bundleMem)
  obtain ⟨asmGroups, flat, related⟩ := (grouped_of_segment scalar done).groups
  obtain ⟨positions, together⟩ := exists_together scalar done
  have lowered : List.Forall₂ (LowersAt block) (issueOrder block.syllables)
      (code.body.flatMap Bundle.syllables) := by
    have atPositions := forall₂_filterMap_getElem? (lt_of_mem_issueOrder block)
    rw [← isScheduled.issued] at atPositions
    exact forall₂_comp atPositions (syllables_of_body isCode.body)
      fun i syllable asm found isLowered => ⟨syllable, found, isLowered⟩
  obtain ⟨groups, isFlat, isGrouped⟩ := exists_groups (flat.symm ▸ lowered)
  have contents : List.Forall₂ (fun group bundle => ∃ asms,
      List.Forall₂ (LowersAt block) group asms ∧ asms.Perm bundle.syllables) groups out :=
    forall₂_comp isGrouped related fun group asms bundle isLowered perm => ⟨asms, isLowered, perm⟩
  have isGroups : groups = positions.map (List.map ((issueOrder block.syllables).getD · 0)) := by
    rw [List.eq_iff_flatten_eq]
    constructor
    · rw [isFlat, ← List.map_flatten, together.flat, ← lowered.length_eq, map_getD_range]
    · rw [sizes_of_groups contents, List.map_map]
      simpa [Function.comp_def] using together.sizes.symm
  have inside : ∀ group ∈ positions, ∀ position ∈ group,
      position < (issueOrder block.syllables).length := by
    intro group groupMem position positionMem
    have inRange := together.flat ▸ List.mem_flatten.mpr ⟨group, groupMem, positionMem⟩
    rw [lowered.length_eq]
    exact List.mem_range.mp inRange
  refine ⟨groups, isFlat, contents, fun earlier later i j less isI isJ => ?_⟩
  rw [← together.joined earlier later less, isGroups]
  have isMember : ∀ group ∈ positions,
      (i ∈ group.map ((issueOrder block.syllables).getD · 0) ∧
        j ∈ group.map ((issueOrder block.syllables).getD · 0) ↔ earlier ∈ group ∧ later ∈ group) :=
    fun group groupMem => and_congr
      (mem_map_order (nodup_issueOrder block) (inside group groupMem) isI)
      (mem_map_order (nodup_issueOrder block) (inside group groupMem) isJ)
  constructor
  · rintro ⟨_, isImage, both⟩
    obtain ⟨group, groupMem, rfl⟩ := List.mem_map.mp isImage
    exact ⟨group, groupMem, (isMember group groupMem).mp both⟩
  · rintro ⟨group, groupMem, both⟩
    exact ⟨_, List.mem_map_of_mem groupMem, (isMember group groupMem).mpr both⟩

/-- Code that keeps the order of a block was packed without a merge that joins two
conflicting syllables. -/
theorem apartMerges_of_memoryOrdered (isScheduled : ScheduledBlock block scheduled)
    (isCode : ScalarCode processor.width scheduled code)
    (straight : ∀ syllable ∈ block.syllables, syllable.opcode.behavior ≠ .control)
    (done : packBundleSegment processor code.body startCycle ready = some out)
    (ordered : MemoryOrdered block out) :
    ApartMerges processor startCycle ready scheduled.syllables code.body := by
  obtain ⟨groups, isFlat, contents, joined⟩ :=
    exists_block_groups isScheduled isCode straight done
  obtain ⟨others, otherFlat, otherContents, keeps⟩ := ordered
  have same : others = groups := List.eq_iff_flatten_eq.mpr ⟨otherFlat.trans isFlat.symm,
    (sizes_of_groups otherContents).trans (sizes_of_groups contents).symm⟩
  subst same
  have distinct : others.flatten.Nodup := isFlat ▸ nodup_issueOrder block
  intro earlier later first second joins isFirst isSecond conflict
  rw [isScheduled.issued, getElem?_filterMap_order (lt_of_mem_issueOrder block)]
    at isFirst isSecond
  obtain ⟨i, isI, isFirst⟩ := Option.bind_eq_some_iff.mp isFirst
  obtain ⟨j, isJ, isSecond⟩ := Option.bind_eq_some_iff.mp isSecond
  obtain ⟨group, groupMem, iMem, jMem⟩ :=
    (joined earlier later i j joins.earlier_lt isI isJ).mpr joins
  rcases Nat.lt_trichotomy i j with before | rfl | after
  · exact group_apart distinct (keeps i j first second before isFirst isSecond conflict)
      ⟨group, groupMem, iMem, jMem⟩
  · have sameAt := (List.getElem?_inj (List.getElem?_eq_some_iff.mp isI).1
      (nodup_issueOrder block)).mp (isI.trans isJ.symm)
    exact absurd sameAt (Nat.ne_of_lt joins.earlier_lt)
  · exact group_apart distinct (keeps j i second first after isSecond isFirst conflict.symm)
      ⟨group, groupMem, jMem, iMem⟩

/-- Code packed without a merge that joins two conflicting syllables keeps their
order, since the scheduler does. -/
theorem memoryOrdered_of_apartMerges (isScheduled : ScheduledBlock block scheduled)
    (isCode : ScalarCode processor.width scheduled code)
    (straight : ∀ syllable ∈ block.syllables, syllable.opcode.behavior ≠ .control)
    (done : packBundleSegment processor code.body startCycle ready = some out)
    (apart : ApartMerges processor startCycle ready scheduled.syllables code.body) :
    MemoryOrdered block out := by
  obtain ⟨groups, isFlat, contents, joined⟩ :=
    exists_block_groups isScheduled isCode straight done
  refine ⟨groups, isFlat, contents, ?_⟩
  intro i j first second before isFirst isSecond conflict
  have iMem := mem_issueOrder isFirst
  have jMem := mem_issueOrder isSecond
  have ordered := (Schedule.issueOrder_correct block.syllables).1.ordered i j first second before
    isFirst isSecond (.memory conflict.firstMemory conflict.secondMemory conflict.mayAlias)
  refine (group_cases (isFlat ▸ iMem) (isFlat ▸ jMem) (isFlat.symm ▸ ordered)).resolve_left ?_
  intro together
  have isI := List.getElem?_idxOf iMem
  have isJ := List.getElem?_idxOf jMem
  have atPosition := getElem?_filterMap_order (lt_of_mem_issueOrder block)
  rw [← isScheduled.issued] at atPosition
  refine apart _ _ first second ((joined _ _ i j ordered isI isJ).mp together) ?_ ?_ conflict
  · rw [atPosition, isI, Option.bind_some, isFirst]
  · rw [atPosition, isJ, Option.bind_some, isSecond]

end Block

/-! ### Packed programs -/

theorem packedProgram_eq_ok {functions : List Function} {processor : Processor} {packed : Program} :
    packedProgram functions processor = .ok packed ↔
      ∃ program, scheduledProgram functions processor = .ok program ∧
        packScalarProgram program = some packed := by
  unfold packedProgram
  rw [bind_eq_ok]
  refine exists_congr fun program => and_congr_right fun _ => ?_
  cases packScalarProgram program with
  | none => exact ⟨fun failed => (nomatch failed), fun failed => (nomatch failed)⟩
  | some other => exact ⟨fun same => congrArg some (Except.ok.inj same),
      fun same => congrArg Except.ok (Option.some.inj same)⟩

/-- The packer arrives at the code of a block without a pending segment, and packs the
code from there. -/
theorem exists_start {processor : Processor} {codes packedCodes : List BlockCode}
    {packed : Program} (ended : ∀ code ∈ codes, bundleIsTerminator code.last = true)
    (done : packScalarProgram ⟨processor, blockItems codes⟩ = some packed)
    (isPacked : packed.items = blockItems packedCodes) {index : Nat} {code : BlockCode}
    (found : codes[index]? = some code) :
    ∃ start bundles,
      (blockItems (codes.take index)).foldlM (packItem processor) {} = some start ∧
      packedCodes[index]? = some { code with body := bundles } ∧
      (Straight code.body →
        packBundleSegment processor code.body start.cycle start.ready = some bundles) := by
  have split := Asm.blockItems_split found
  obtain ⟨final, folded, isFlushed⟩ := Option.bind_eq_some_iff.mp done
  obtain ⟨flushed, isFinal, rfl⟩ := Option.map_eq_some_iff.mp isFlushed
  change (blockItems codes).foldlM (packItem processor) {} = some final at folded
  rw [split, List.foldlM_append] at folded
  obtain ⟨start, reached, rest⟩ := Option.bind_eq_some_iff.mp folded
  rw [List.foldlM_append] at rest
  obtain ⟨middle, codeDone, restDone⟩ := Option.bind_eq_some_iff.mp rest
  obtain ⟨before, beforePacked, startEmpty, startItems⟩ := foldlM_blockItems
    ⟨processor, blockItems codes⟩ (fun code codeMem => ended code (List.mem_of_mem_take codeMem))
    [] _ split rfl rfl reached
  obtain ⟨bundles, middleEmpty, middleItems, packs⟩ :=
    foldlM_code (ended code (List.mem_of_getElem? found)) startEmpty codeDone
  obtain ⟨after, -, finalEmpty, finalItems⟩ := foldlM_blockItems ⟨processor, blockItems codes⟩
    (fun code codeMem => ended code (List.mem_of_mem_drop codeMem))
    (blockItems (codes.take index) ++ code.items) [] (by rw [List.append_nil, split]; simp)
    (by rw [List.foldlM_append, reached]; exact codeDone) middleEmpty restDone
  rw [flushSegment_nil final finalEmpty] at isFinal
  cases isFinal
  have items : blockItems packedCodes =
      blockItems (before ++ ({ code with body := bundles } : BlockCode) :: after) := by
    rw [← isPacked, finalItems, middleItems, startItems]
    simp [blockItems]
  refine ⟨start, bundles, reached, ?_, packs⟩
  have bound := (List.getElem?_eq_some_iff.mp found).1
  have length : before.length = index := by
    rw [← beforePacked.length_eq, List.length_take, Nat.min_eq_left (Nat.le_of_lt bound)]
  rw [Asm.blockItems_injective items, List.getElem?_append_right (Nat.le_of_eq length), length,
    Nat.sub_self]
  rfl

/-- The program handed to the packer consists of the scalar code of the scheduled
blocks. -/
theorem exists_scalarCodes {functions : List Function} {processor : Processor}
    {program : Program} (scheduled : scheduledProgram functions processor = .ok program) :
    ∃ codes, program = ⟨processor, blockItems codes⟩ ∧
      List.Forall₂ (fun id code => ∃ original block, blockAt functions id = some original ∧
        ScheduledBlock original block ∧ ScalarCode processor.width block code)
        (blockIds functions) codes := by
  obtain ⟨scheduledFunctions, related, emitted⟩ := exists_scheduled scheduled
  obtain ⟨codes, realized, rfl⟩ := Codegen.scalarProgram_items emitted
  rw [blockIds_scheduled related] at realized
  refine ⟨codes, rfl, realized.imp fun id code => ?_⟩
  rintro ⟨-, block, found, isCode⟩
  obtain ⟨original, isOriginal, isScheduled⟩ := blockAt_scheduled related found
  exact ⟨original, block, isOriginal, isScheduled, isCode⟩

/-- Where the packer starts with the code of a block and what it makes of it. -/
theorem exists_packedBlock {functions : List Function} {processor : Processor}
    {codes packedCodes : List BlockCode} {packed : Program} (atEnd : ControlAtEnd functions)
    (realized : List.Forall₂ (fun id code => ∃ original block,
      blockAt functions id = some original ∧ ScheduledBlock original block ∧
      ScalarCode processor.width block code) (blockIds functions) codes)
    (done : packScalarProgram ⟨processor, blockItems codes⟩ = some packed)
    (isPacked : packed.items = blockItems packedCodes) {index : Nat} {id : Mir.BlockId}
    {block : Block} {code : BlockCode} (isId : (blockIds functions)[index]? = some id)
    (isBlock : blockAt functions id = some block) (isFound : codes[index]? = some code) :
    ∃ start packedCode,
      (blockItems (codes.take index)).foldlM (packItem processor) {} = some start ∧
      packedCodes[index]? = some packedCode ∧ packedCode.label = block.label ∧
      (MemoryOrdered block packedCode.body ↔
        ApartMerges processor start.cycle start.ready
          ((issueOrder block.syllables).filterMap (block.syllables[·]?)) code.body) := by
  have ended : ∀ code ∈ codes, bundleIsTerminator code.last = true := by
    intro code codeMem
    obtain ⟨id, -, -, block, -, -, isCode⟩ := exists_mem_of_forall₂ realized codeMem
    exact bundleIsTerminator_last isCode
  obtain ⟨other, isOther, original, scheduledBlock, isOriginal, isScheduled, isCode⟩ :=
    getElem?_of_forall₂ realized isFound
  cases isId.symm.trans isOther
  cases isBlock.symm.trans isOriginal
  obtain ⟨start, bundles, isStart, isBundles, packs⟩ := exists_start ended done isPacked isFound
  have straight := atEnd.block isBlock
  have packedBody := packs (straight_of_body isCode.body (isScheduled.straight straight))
  refine ⟨start, _, isStart, isBundles, isCode.label.trans isScheduled.label, ?_⟩
  rw [← isScheduled.issued]
  exact ⟨apartMerges_of_memoryOrdered isScheduled isCode straight packedBody,
    memoryOrdered_of_apartMerges isScheduled isCode straight packedBody⟩

section Module

variable {functions : List Function} {processor : Processor} {packed : Program}

theorem mergesApart_of_keepsMemoryOrder (atEnd : ControlAtEnd functions)
    (emitted : packedProgram functions processor = .ok packed)
    (keeps : KeepsMemoryOrder functions packed) : MergesApart functions processor := by
  obtain ⟨program, scheduled, done⟩ := packedProgram_eq_ok.mp emitted
  obtain ⟨codes, rfl, realized⟩ := exists_scalarCodes scheduled
  obtain ⟨packedCodes, isPacked, related⟩ := keeps
  intro program scalar index id block code start scheduled' isItems isId isBlock isFound isStart
  cases scheduled.symm.trans scheduled'
  obtain rfl := Asm.blockItems_injective isItems
  obtain ⟨start', packedCode, isStart', isPackedCode, -, ordered⟩ :=
    exists_packedBlock atEnd realized done isPacked isId isBlock isFound
  cases isStart.symm.trans isStart'
  obtain ⟨other, isOther, block', isBlock', -, blockOrdered⟩ :=
    getElem?_of_forall₂ related isPackedCode
  cases isId.symm.trans isOther
  cases isBlock.symm.trans isBlock'
  exact ordered.mp blockOrdered

theorem keepsMemoryOrder_of_mergesApart (atEnd : ControlAtEnd functions)
    (emitted : packedProgram functions processor = .ok packed)
    (apart : MergesApart functions processor) : KeepsMemoryOrder functions packed := by
  obtain ⟨program, scheduled, done⟩ := packedProgram_eq_ok.mp emitted
  obtain ⟨codes, rfl, realized⟩ := exists_scalarCodes scheduled
  obtain ⟨packedCodes, rfl, blocks⟩ := packedProgram_items scheduled done
  refine ⟨packedCodes, rfl, List.forall₂_iff_get.mpr ⟨blocks.length_eq, ?_⟩⟩
  intro index inIds inCodes
  have isId := List.getElem?_eq_getElem inIds
  obtain ⟨code, isFound, block, -, isBlock, -⟩ := getElem?_of_forall₂ realized.flip isId
  obtain ⟨start, packedCode, isStart, isPackedCode, sameLabel, ordered⟩ :=
    exists_packedBlock atEnd realized done rfl isId isBlock isFound
  cases (List.getElem?_eq_getElem inCodes).symm.trans isPackedCode
  exact ⟨block, isBlock, sameLabel, ordered.mpr
    (apart _ codes index _ block code start scheduled rfl isId isBlock isFound isStart)⟩

end Module

/-- Packing keeps the order of the memory syllables of a module exactly when no merge
joins two that conflict. -/
theorem keepsMemoryOrder_iff {functions : List Function} {processor : Processor}
    {packed : Program} (atEnd : ControlAtEnd functions)
    (emitted : packedProgram functions processor = .ok packed) :
    KeepsMemoryOrder functions packed ↔ MergesApart functions processor :=
  ⟨mergesApart_of_keepsMemoryOrder atEnd emitted, keepsMemoryOrder_of_mergesApart atEnd emitted⟩

/-- A layout with two memory slots. -/
def twoMemorySlots : Processor where
  width := 3
  units := [⟨"mem", "memory"⟩, ⟨"ctrl", "control"⟩]
  slotAliases := [⟨"M", 0⟩, ⟨"X", 2⟩]
  slotUnits := [["mem"], ["mem"], ["ctrl"]]

/-- Two loads, and a store in the next block. -/
def loadsThenStore : Function :=
  ⟨"main", [
    ⟨"entry", [⟨.loadD, some (.preg 2), [.imm 64]⟩, ⟨.loadD, some (.preg 3), [.imm 72]⟩],
      .jump "done"⟩,
    ⟨"done", [⟨.storeD, none, [.imm 64, .reg (.preg 3)]⟩], .ret⟩]⟩

theorem keepsMemoryOrder_iff_loadsThenStore :
    ∃ packed, packedProgram [loadsThenStore] twoMemorySlots = .ok packed ∧
      KeepsMemoryOrder [loadsThenStore] packed := by
  obtain ⟨packed, emitted⟩ : ∃ packed,
      packedProgram [loadsThenStore] twoMemorySlots = .ok packed :=
    exists_of_isOk (by decide +kernel)
  have atEnd : ControlAtEnd [loadsThenStore] := by
    unfold ControlAtEnd
    decide
  refine ⟨packed, emitted, (keepsMemoryOrder_iff atEnd emitted).mpr ?_⟩
  intro program scalar index id block code start _ _ isId isBlock _ _ earlier later first second
    joins isFirst isSecond conflict
  have less := joins.earlier_lt
  have ids : blockIds [loadsThenStore] = [⟨0, 0⟩, ⟨0, 1⟩] := by decide
  rw [ids] at isId
  rcases List.mem_pair.mp (List.mem_of_getElem? isId) with rfl | rfl
  · cases isBlock
    have loads : ∀ syllable ∈ (issueOrder
        [(⟨.loadD, some (.preg 2), [.imm 64]⟩ : Mir.Syllable),
          ⟨.loadD, some (.preg 3), [.imm 72]⟩]).filterMap
        ([(⟨.loadD, some (.preg 2), [.imm 64]⟩ : Mir.Syllable),
          ⟨.loadD, some (.preg 3), [.imm 72]⟩][·]?), isStoreOpcode syllable.opcode = false := by
      decide +kernel
    rcases conflict.store with isStore | isStore
    · rw [loads first (List.mem_of_getElem? isFirst)] at isStore
      cases isStore
    · rw [loads second (List.mem_of_getElem? isSecond)] at isStore
      cases isStore
  · cases isBlock
    have bound := (List.getElem?_eq_some_iff.mp isSecond).1
    have single : ((issueOrder [(⟨.storeD, none, [.imm 64, .reg (.preg 3)]⟩ :
        Mir.Syllable)]).filterMap ([(⟨.storeD, none, [.imm 64, .reg (.preg 3)]⟩ :
          Mir.Syllable)][·]?)).length = 1 := by
      decide +kernel
    rw [single] at bound
    omega

end VliwCompiler.Pack
