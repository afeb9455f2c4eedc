import VliwCompiler.Schedule.Dag

/-!
# Every conflict is a path

The scan keeps only the most recent accesses, so an edge of the dependence
graph does not exist for every conflicting pair of syllables.  This file shows
that a path does: whatever the scan forgets is already ordered before what it
still remembers.
-/

namespace VliwCompiler.Schedule

open Mir (Syllable)
open Relation (ReflTransGen TransGen)

/-- `target` is a recorded successor of `source`. -/
def Edge (sets : SuccSets) (source target : Nat) : Prop :=
  ∃ succs, sets[source]? = some succs ∧ target ∈ succs

/-- The two syllables may not be exchanged: they share a register one of them
writes, they are memory operations that may alias, or one of them is a memory
operation at an unknown address. -/
inductive Conflicts (first second : Syllable) : Prop where
  | writeRead (key : RegKey) (writes : destRegKey first = some key)
      (reads : key ∈ sourceRegKeys second)
  | writeWrite (key : RegKey) (firstWrites : destRegKey first = some key)
      (secondWrites : destRegKey second = some key)
  | readWrite (key : RegKey) (reads : key ∈ sourceRegKeys first)
      (writes : destRegKey second = some key)
  | memory (firstMemory : isMemoryOpcode first.opcode) (secondMemory : isMemoryOpcode second.opcode)
      (mayAlias : memoryBucketsMayAlias (memoryBucket first) (memoryBucket second))
  | unknownFirst (memory : isMemoryOpcode first.opcode) (unknown : memoryBucket first = .unknown)
  | unknownSecond (memory : isMemoryOpcode second.opcode)
      (unknown : memoryBucket second = .unknown)

/-! ### Adding edges -/

@[simp]
theorem mem_btreeInsert {value other : Nat} {set : List Nat} :
    other ∈ btreeInsert value set ↔ other = value ∨ other ∈ set := by
  unfold btreeInsert
  by_cases present : value ∈ set
  · rw [if_pos present]
    constructor
    · exact Or.inr
    · rintro (rfl | otherMem)
      · exact present
      · exact otherMem
  · rw [if_neg present, List.mem_orderedInsert]

@[simp]
theorem length_addEdge (sets : SuccSets) (source target : Nat) :
    (addEdge sets source target).length = sets.length := by
  simp [addEdge]

theorem edge_addEdge {sets : SuccSets} {source target i j : Nat} :
    Edge (addEdge sets source target) i j ↔
      Edge sets i j ∨ (j = target ∧ i < sets.length ∧ i = source) := by
  unfold Edge addEdge
  rw [List.getElem?_modify]
  by_cases here : source = i
  · subst here
    by_cases bound : source < sets.length
    · simp only [List.getElem?_eq_getElem bound, if_true, Option.map_eq_map, Option.map_some,
        Option.some.injEq, exists_eq_left', mem_btreeInsert]
      tauto
    · simp [bound]
  · have other : i ≠ source := fun same => here same.symm
    simp [here, other]

@[simp]
theorem length_foldl_addEdge {α : Type} (origin : α → Nat) (sources : List α) (sets : SuccSets)
    (target : Nat) :
    (sources.foldl (fun current source => addEdge current (origin source) target) sets).length =
      sets.length := by
  induction sources generalizing sets with
  | nil => rfl
  | cons head tail ih => rw [List.foldl_cons, ih, length_addEdge]

theorem edge_foldl_addEdge {α : Type} (origin : α → Nat) {sources : List α} {sets : SuccSets}
    {target i j : Nat} :
    Edge (sources.foldl (fun current source => addEdge current (origin source) target) sets) i j ↔
      Edge sets i j ∨ (j = target ∧ i < sets.length ∧ ∃ source ∈ sources, i = origin source) := by
  induction sources generalizing sets with
  | nil => simp
  | cons head tail ih =>
      rw [List.foldl_cons, ih, edge_addEdge, length_addEdge]
      simp only [List.mem_cons, exists_eq_or_imp]
      tauto

/-! ### What one visit does -/

namespace DagState

/-- Readers recorded for a key. -/
def readers (state : DagState) (key : RegKey) : List Nat :=
  (state.lastReaders.lookup key).getD []

/-- The syllables that get an edge to the visited one. -/
inductive NewPred (state : DagState) (idx : Nat) (syllable : Syllable) (pred : Nat) : Prop where
  | barrier (last : state.lastUnknownMemoryBarrier = some pred)
  | source (key : RegKey) (reads : key ∈ sourceRegKeys syllable)
      (writer : state.lastWriter.lookup key = some pred)
  | output (key : RegKey) (writes : destRegKey syllable = some key)
      (writer : state.lastWriter.lookup key = some pred)
  | anti (key : RegKey) (writes : destRegKey syllable = some key)
      (reader : pred ∈ state.readers key) (other : pred ≠ idx)
  | unknown (memory : isMemoryOpcode syllable.opcode)
      (bucket : memoryBucket syllable = .unknown) (before : pred < idx)
  | aliased (memory : isMemoryOpcode syllable.opcode) (known : memoryBucket syllable ≠ .unknown)
      (bucket : MemoryBucket) (prior : (pred, bucket) ∈ state.priorMemory)
      (mayAlias : memoryBucketsMayAlias bucket (memoryBucket syllable))

/-- The state after the sources of the visited syllable. -/
def afterSources (state : DagState) (idx : Nat) (syllable : Syllable) : DagState :=
  (sourceRegKeys syllable).foldl (visitSource idx) (state.visitBarrier idx)

/-- The state after the destination of the visited syllable. -/
def afterDest (state : DagState) (idx : Nat) (syllable : Syllable) : DagState :=
  match destRegKey syllable with
  | some dst => visitDest idx (state.afterSources idx syllable) dst
  | none => state.afterSources idx syllable

theorem visit_eq (state : DagState) (idx : Nat) (syllable : Syllable) :
    state.visit idx syllable = visitMemory idx syllable (state.afterDest idx syllable) := by
  unfold visit afterDest afterSources
  cases destRegKey syllable <;> rfl

theorem edge_visitBarrier {state : DagState} {idx i j : Nat} :
    Edge (state.visitBarrier idx).succSets i j ↔
      Edge state.succSets i j ∨
        (j = idx ∧ i < state.succSets.length ∧ state.lastUnknownMemoryBarrier = some i) := by
  unfold visitBarrier
  cases last : state.lastUnknownMemoryBarrier with
  | none => simp
  | some barrier =>
      simp only [edge_addEdge, Option.some.injEq]
      tauto

/-- The fields of the scan state that visiting sources leaves alone, and the
edges and readers it adds. -/
theorem foldl_visitSource (idx : Nat) (keys : List RegKey) (state : DagState) :
    let result := keys.foldl (visitSource idx) state
    result.lastWriter = state.lastWriter ∧
      result.lastUnknownMemoryBarrier = state.lastUnknownMemoryBarrier ∧
      result.priorMemory = state.priorMemory ∧
      result.succSets.length = state.succSets.length ∧
      (∀ i j, Edge result.succSets i j ↔ Edge state.succSets i j ∨
        (j = idx ∧ i < state.succSets.length ∧
          ∃ key ∈ keys, state.lastWriter.lookup key = some i)) ∧
      (∀ key i, i ∈ result.readers key ↔
        i ∈ state.readers key ∨ (i = idx ∧ key ∈ keys)) := by
  induction keys generalizing state with
  | nil => simp
  | cons head tail ih =>
      obtain ⟨writer, barrier, prior, length, edges, readers⟩ := ih (visitSource idx state head)
      have headLength : (visitSource idx state head).succSets.length = state.succSets.length := by
        unfold visitSource
        cases state.lastWriter.lookup head <;> simp
      have headEdges : ∀ i j, Edge (visitSource idx state head).succSets i j ↔
          Edge state.succSets i j ∨ (j = idx ∧ i < state.succSets.length ∧
            state.lastWriter.lookup head = some i) := by
        intro i j
        unfold visitSource
        cases written : state.lastWriter.lookup head with
        | none => simp
        | some writer =>
            simp only [edge_addEdge, Option.some.injEq]
            tauto
      have headReaders : ∀ key i, i ∈ (visitSource idx state head).readers key ↔
          i ∈ state.readers key ∨ (i = idx ∧ key = head) := by
        intro key i
        unfold visitSource DagState.readers
        by_cases same : key = head
        · subst same
          simp [AList.lookup_insert]
        · simp [AList.lookup_insert_ne same, same]
      refine ⟨writer, barrier, prior, length.trans headLength, ?_, ?_⟩
      · intro i j
        rw [List.foldl_cons, edges, headEdges, headLength]
        change _ ∨ (_ ∧ _ ∧ ∃ key ∈ tail, state.lastWriter.lookup key = some i) ↔ _
        simp only [List.mem_cons, exists_eq_or_imp]
        tauto
      · intro key i
        rw [List.foldl_cons, readers, headReaders]
        simp only [List.mem_cons]
        tauto

theorem length_visitBarrier (state : DagState) (idx : Nat) :
    (state.visitBarrier idx).succSets.length = state.succSets.length := by
  unfold visitBarrier
  cases state.lastUnknownMemoryBarrier <;> simp

theorem lastWriter_visitBarrier (state : DagState) (idx : Nat) :
    (state.visitBarrier idx).lastWriter = state.lastWriter := by
  unfold visitBarrier
  cases state.lastUnknownMemoryBarrier <;> rfl

theorem lastReaders_visitBarrier (state : DagState) (idx : Nat) :
    (state.visitBarrier idx).lastReaders = state.lastReaders := by
  unfold visitBarrier
  cases state.lastUnknownMemoryBarrier <;> rfl

theorem barrier_visitBarrier (state : DagState) (idx : Nat) :
    (state.visitBarrier idx).lastUnknownMemoryBarrier = state.lastUnknownMemoryBarrier := by
  unfold visitBarrier
  cases last : state.lastUnknownMemoryBarrier <;> simp [last]

theorem priorMemory_visitBarrier (state : DagState) (idx : Nat) :
    (state.visitBarrier idx).priorMemory = state.priorMemory := by
  unfold visitBarrier
  cases state.lastUnknownMemoryBarrier <;> rfl

/-- The memory fields and table sizes of the state are not touched by register
dependences. -/
theorem afterSources_fields (state : DagState) (idx : Nat) (syllable : Syllable) :
    let result := state.afterSources idx syllable
    result.lastWriter = state.lastWriter ∧
      result.lastUnknownMemoryBarrier = state.lastUnknownMemoryBarrier ∧
      result.priorMemory = state.priorMemory ∧
      result.succSets.length = state.succSets.length := by
  obtain ⟨writer, barrier, prior, length, -, -⟩ :=
    foldl_visitSource idx (sourceRegKeys syllable) (state.visitBarrier idx)
  exact ⟨writer.trans (state.lastWriter_visitBarrier idx),
    barrier.trans (state.barrier_visitBarrier idx),
    prior.trans (state.priorMemory_visitBarrier idx),
    length.trans (state.length_visitBarrier idx)⟩

theorem edge_afterSources {state : DagState} {idx i j : Nat} {syllable : Syllable} :
    Edge (state.afterSources idx syllable).succSets i j ↔
      Edge state.succSets i j ∨ (j = idx ∧ i < state.succSets.length ∧
        (state.lastUnknownMemoryBarrier = some i ∨
          ∃ key ∈ sourceRegKeys syllable, state.lastWriter.lookup key = some i)) := by
  obtain ⟨-, -, -, -, edges, -⟩ :=
    foldl_visitSource idx (sourceRegKeys syllable) (state.visitBarrier idx)
  unfold afterSources
  rw [edges, edge_visitBarrier, length_visitBarrier, lastWriter_visitBarrier]
  tauto

theorem mem_readers_afterSources {state : DagState} {idx i : Nat} {syllable : Syllable}
    {key : RegKey} :
    i ∈ (state.afterSources idx syllable).readers key ↔
      i ∈ state.readers key ∨ (i = idx ∧ key ∈ sourceRegKeys syllable) := by
  obtain ⟨-, -, -, -, -, readers⟩ :=
    foldl_visitSource idx (sourceRegKeys syllable) (state.visitBarrier idx)
  unfold afterSources
  rw [readers]
  simp only [DagState.readers, lastReaders_visitBarrier]

theorem afterDest_fields (state : DagState) (idx : Nat) (syllable : Syllable) :
    let result := state.afterDest idx syllable
    result.lastUnknownMemoryBarrier = state.lastUnknownMemoryBarrier ∧
      result.priorMemory = state.priorMemory ∧
      result.succSets.length = state.succSets.length := by
  obtain ⟨-, barrier, prior, length⟩ := state.afterSources_fields idx syllable
  unfold afterDest
  cases destRegKey syllable with
  | none => exact ⟨barrier, prior, length⟩
  | some dst =>
      refine ⟨barrier, prior, ?_⟩
      unfold visitDest
      rw [length_foldl_addEdge]
      cases (state.afterSources idx syllable).lastWriter.lookup dst <;> simp [length]

theorem lastWriter_afterDest (state : DagState) (idx : Nat) (syllable : Syllable)
    (key : RegKey) :
    (state.afterDest idx syllable).lastWriter.lookup key =
      if destRegKey syllable = some key then some idx else state.lastWriter.lookup key := by
  obtain ⟨writer, -, -, -⟩ := state.afterSources_fields idx syllable
  unfold afterDest
  cases destination : destRegKey syllable with
  | none => simp [writer]
  | some dst =>
      simp only [visitDest, writer, Option.some.injEq]
      by_cases same : dst = key
      · subst same
        simp
      · rw [AList.lookup_insert_ne (fun h => same h.symm), if_neg same]

theorem mem_readers_afterDest {state : DagState} {idx i : Nat} {syllable : Syllable}
    {key : RegKey} :
    i ∈ (state.afterDest idx syllable).readers key ↔
      destRegKey syllable ≠ some key ∧
        (i ∈ state.readers key ∨ (i = idx ∧ key ∈ sourceRegKeys syllable)) := by
  rw [← mem_readers_afterSources]
  unfold afterDest
  cases destination : destRegKey syllable with
  | none => simp
  | some dst =>
      simp only [visitDest, DagState.readers, ne_eq, Option.some.injEq]
      by_cases same : dst = key
      · subst same
        simp
      · rw [AList.lookup_erase_ne (fun h => same h.symm)]
        simp [same]

theorem edge_afterDest {state : DagState} {idx i j : Nat} {syllable : Syllable} :
    Edge (state.afterDest idx syllable).succSets i j ↔
      Edge (state.afterSources idx syllable).succSets i j ∨
        (j = idx ∧ i < state.succSets.length ∧ ∃ key, destRegKey syllable = some key ∧
          (state.lastWriter.lookup key = some i ∨ (i ∈ state.readers key ∧ i ≠ idx))) := by
  obtain ⟨writer, -, -, length⟩ := state.afterSources_fields idx syllable
  unfold afterDest
  cases destination : destRegKey syllable with
  | none => simp
  | some dst =>
      have readerIff : ∀ reader, (reader ∈ (state.afterSources idx syllable).readers dst ∧
          reader ≠ idx) ↔ (reader ∈ state.readers dst ∧ reader ≠ idx) := by
        intro reader
        rw [mem_readers_afterSources]
        tauto
      simp only [visitDest, writer]
      rw [edge_foldl_addEdge (fun reader => reader)]
      simp only [List.mem_filter, decide_eq_true_eq, Option.some.injEq, exists_eq_left',
        exists_eq_right']
      change _ ∨ _ ∧ _ ∧ (i ∈ (state.afterSources idx syllable).readers dst ∧ i ≠ idx) ↔ _
      rw [readerIff]
      cases written : state.lastWriter.lookup dst with
      | none => simp [length]
      | some last =>
          rw [edge_addEdge, length_addEdge, length]
          simp only [Option.some.injEq]
          tauto

/-- A visit adds an edge from each of the syllables in `NewPred`. -/
theorem edge_visit {state : DagState} {idx i j : Nat} {syllable : Syllable} :
    Edge (state.visit idx syllable).succSets i j ↔
      Edge state.succSets i j ∨
        (j = idx ∧ i < state.succSets.length ∧ state.NewPred idx syllable i) := by
  obtain ⟨-, prior, length⟩ := state.afterDest_fields idx syllable
  have registers : Edge (state.afterDest idx syllable).succSets i j ↔
      Edge state.succSets i j ∨ (j = idx ∧ i < state.succSets.length ∧
        (state.lastUnknownMemoryBarrier = some i ∨
          (∃ key ∈ sourceRegKeys syllable, state.lastWriter.lookup key = some i) ∨
          ∃ key, destRegKey syllable = some key ∧
            (state.lastWriter.lookup key = some i ∨ (i ∈ state.readers key ∧ i ≠ idx)))) := by
    rw [edge_afterDest, edge_afterSources]
    simp only [and_or_left, or_assoc]
  have memory : Edge (state.visit idx syllable).succSets i j ↔
      Edge (state.afterDest idx syllable).succSets i j ∨
        (j = idx ∧ i < state.succSets.length ∧ isMemoryOpcode syllable.opcode ∧
          ((memoryBucket syllable = .unknown ∧ i < idx) ∨ (memoryBucket syllable ≠ .unknown ∧
            ∃ bucket, (i, bucket) ∈ state.priorMemory ∧
              memoryBucketsMayAlias bucket (memoryBucket syllable)))) := by
    rw [visit_eq]
    unfold visitMemory
    by_cases isMemory : isMemoryOpcode syllable.opcode = true
    · by_cases unknown : memoryBucket syllable = .unknown
      · simp only [isMemory, unknown, if_true]
        rw [edge_foldl_addEdge (fun prior => prior), length]
        simp
      · simp only [isMemory, unknown, if_true, if_false]
        rw [edge_foldl_addEdge Prod.fst, length, prior]
        simp only [List.mem_filter, Prod.exists]
        constructor
        · rintro (old | ⟨rfl, bound, origin, bucket, ⟨present, mayAlias⟩, rfl⟩)
          · exact Or.inl old
          · exact Or.inr ⟨rfl, bound, trivial, Or.inr ⟨unknown, bucket, present, mayAlias⟩⟩
        · rintro (old | ⟨rfl, bound, -, ⟨impossible, -⟩ | ⟨-, bucket, present, mayAlias⟩⟩)
          · exact Or.inl old
          · exact impossible.elim
          · exact Or.inr ⟨rfl, bound, i, bucket, ⟨present, mayAlias⟩, rfl⟩
    · simp [isMemory]
  rw [memory, registers]
  constructor
  · rintro ((old | ⟨target, bound, last | ⟨key, reads, writer⟩ | ⟨key, writes, writer | reader⟩⟩) |
      ⟨target, bound, isMemory, ⟨unknown, before⟩ | ⟨known, bucket, present, mayAlias⟩⟩)
    · exact Or.inl old
    · exact Or.inr ⟨target, bound, .barrier last⟩
    · exact Or.inr ⟨target, bound, .source key reads writer⟩
    · exact Or.inr ⟨target, bound, .output key writes writer⟩
    · exact Or.inr ⟨target, bound, .anti key writes reader.1 reader.2⟩
    · exact Or.inr ⟨target, bound, .unknown isMemory unknown before⟩
    · exact Or.inr ⟨target, bound, .aliased isMemory known bucket present mayAlias⟩
  · rintro (old | ⟨target, bound, new⟩)
    · exact Or.inl (Or.inl old)
    · cases new with
      | barrier last => exact Or.inl (Or.inr ⟨target, bound, Or.inl last⟩)
      | source key reads writer =>
          exact Or.inl (Or.inr ⟨target, bound, Or.inr (Or.inl ⟨key, reads, writer⟩)⟩)
      | output key writes writer =>
          exact Or.inl (Or.inr ⟨target, bound, Or.inr (Or.inr ⟨key, writes, Or.inl writer⟩)⟩)
      | anti key writes reader other =>
          exact Or.inl (Or.inr
            ⟨target, bound, Or.inr (Or.inr ⟨key, writes, Or.inr ⟨reader, other⟩⟩)⟩)
      | unknown isMemory unknown before =>
          exact Or.inr ⟨target, bound, isMemory, Or.inl ⟨unknown, before⟩⟩
      | aliased isMemory known bucket present mayAlias =>
          exact Or.inr ⟨target, bound, isMemory, Or.inr ⟨known, bucket, present, mayAlias⟩⟩

theorem length_visit (state : DagState) (idx : Nat) (syllable : Syllable) :
    (state.visit idx syllable).succSets.length = state.succSets.length := by
  obtain ⟨-, -, length⟩ := state.afterDest_fields idx syllable
  rw [visit_eq]
  unfold visitMemory
  split
  · simp only
    split <;> simp [length]
  · exact length

theorem lastWriter_visit (state : DagState) (idx : Nat) (syllable : Syllable) (key : RegKey) :
    (state.visit idx syllable).lastWriter.lookup key =
      if destRegKey syllable = some key then some idx else state.lastWriter.lookup key := by
  rw [← lastWriter_afterDest, visit_eq]
  unfold visitMemory
  split
  · simp only
    split <;> rfl
  · rfl

theorem mem_readers_visit {state : DagState} {idx i : Nat} {syllable : Syllable}
    {key : RegKey} :
    i ∈ (state.visit idx syllable).readers key ↔
      destRegKey syllable ≠ some key ∧
        (i ∈ state.readers key ∨ (i = idx ∧ key ∈ sourceRegKeys syllable)) := by
  rw [← mem_readers_afterDest, visit_eq]
  unfold visitMemory DagState.readers
  split
  · simp only
    split <;> rfl
  · rfl

theorem barrier_visit (state : DagState) (idx : Nat) (syllable : Syllable) :
    (state.visit idx syllable).lastUnknownMemoryBarrier =
      if isMemoryOpcode syllable.opcode ∧ memoryBucket syllable = .unknown then some idx
      else state.lastUnknownMemoryBarrier := by
  obtain ⟨barrier, -, -⟩ := state.afterDest_fields idx syllable
  rw [visit_eq]
  unfold visitMemory
  by_cases memory : isMemoryOpcode syllable.opcode = true
  · by_cases unknown : memoryBucket syllable = .unknown
    · simp [memory, unknown]
    · simp [memory, unknown, barrier]
  · simp [memory, barrier]

theorem mem_priorMemory_visit {state : DagState} {idx : Nat} {syllable : Syllable}
    {entry : Nat × MemoryBucket} :
    entry ∈ (state.visit idx syllable).priorMemory ↔
      entry ∈ state.priorMemory ∨
        (isMemoryOpcode syllable.opcode ∧ entry = (idx, memoryBucket syllable)) := by
  obtain ⟨-, prior, -⟩ := state.afterDest_fields idx syllable
  rw [visit_eq]
  unfold visitMemory
  by_cases memory : isMemoryOpcode syllable.opcode = true
  · by_cases unknown : memoryBucket syllable = .unknown
    · simp [memory, unknown, prior]
    · simp [memory, unknown, prior]
  · simp [memory, prior]

end DagState

/-! ### The scan invariant -/

/-- What holds after the first `visited` syllables: everything the scan has
forgotten reaches something it still remembers. -/
structure Scanned (syllables : List Syllable) (visited : Nat) (state : DagState) : Prop where
  length : state.succSets.length = syllables.length
  edgeLt : ∀ i j, Edge state.succSets i j → i < j ∧ j < visited
  writerLt : ∀ key writer, state.lastWriter.lookup key = some writer → writer < visited
  readerLt : ∀ key reader, reader ∈ state.readers key → reader < visited
  barrierLt : ∀ barrier, state.lastUnknownMemoryBarrier = some barrier → barrier < visited
  memoryLt : ∀ entry ∈ state.priorMemory, entry.1 < visited
  written : ∀ i syllable key, i < visited → syllables[i]? = some syllable →
    destRegKey syllable = some key →
    ∃ writer, state.lastWriter.lookup key = some writer ∧
      ReflTransGen (Edge state.succSets) i writer
  read : ∀ i syllable key, i < visited → syllables[i]? = some syllable →
    key ∈ sourceRegKeys syllable → i ∈ state.readers key ∨
    ∃ writer, state.lastWriter.lookup key = some writer ∧
      ReflTransGen (Edge state.succSets) i writer
  barriered : ∀ i syllable, i < visited → syllables[i]? = some syllable →
    isMemoryOpcode syllable.opcode → memoryBucket syllable = .unknown →
    ∃ barrier, state.lastUnknownMemoryBarrier = some barrier ∧
      ReflTransGen (Edge state.succSets) i barrier
  remembered : ∀ i syllable, i < visited → syllables[i]? = some syllable →
    isMemoryOpcode syllable.opcode → (i, memoryBucket syllable) ∈ state.priorMemory
  ordered : ∀ i j first second, i < j → j < visited → syllables[i]? = some first →
    syllables[j]? = some second → Conflicts first second →
    TransGen (Edge state.succSets) i j

namespace Scanned

variable {syllables : List Syllable} {visited : Nat} {state : DagState}

theorem initial (syllables : List Syllable) :
    Scanned syllables 0 { succSets := List.replicate syllables.length [] } where
  length := by simp
  edgeLt := by
    rintro i j ⟨succs, present, member⟩
    rw [List.getElem?_replicate] at present
    split at present
    · cases present
      simp at member
    · cases present
  writerLt := by simp
  readerLt := by simp [DagState.readers]
  barrierLt := by simp
  memoryLt := by simp
  written := by omega
  read := by omega
  barriered := by omega
  remembered := by omega
  ordered := by omega

/-- A new predecessor of the visited syllable precedes it. -/
theorem newPred_lt (scanned : Scanned syllables visited state) {syllable : Syllable}
    {pred : Nat} (new : state.NewPred visited syllable pred) : pred < visited := by
  cases new with
  | barrier last => exact scanned.barrierLt pred last
  | source key reads writer => exact scanned.writerLt key pred writer
  | output key writes writer => exact scanned.writerLt key pred writer
  | anti key writes reader other => exact scanned.readerLt key pred reader
  | unknown isMemory bucket before => exact before
  | aliased isMemory known bucket prior mayAlias => exact scanned.memoryLt _ prior

theorem edge_mono {idx : Nat} {syllable : Syllable} {i j : Nat}
    (path : ReflTransGen (Edge state.succSets) i j) :
    ReflTransGen (Edge (state.visit idx syllable).succSets) i j :=
  ReflTransGen.mono (fun _ _ edge => DagState.edge_visit.mpr (Or.inl edge)) i j path

/-- The visited syllable is reachable from every earlier syllable it conflicts
with. -/
theorem visit_ordered (scanned : Scanned syllables visited state) {first second : Syllable}
    {i : Nat} (before : i < visited) (firstAt : syllables[i]? = some first)
    (secondAt : syllables[visited]? = some second) (conflict : Conflicts first second) :
    TransGen (Edge (state.visit visited second).succSets) i visited := by
  have inBounds : ∀ k, k < visited → k < state.succSets.length := by
    intro k lt
    have := (List.getElem?_eq_some_iff.mp secondAt).1
    rw [scanned.length]
    omega
  have last : ∀ pred, state.NewPred visited second pred →
      Edge (state.visit visited second).succSets pred visited := fun pred new =>
    DagState.edge_visit.mpr (Or.inr ⟨rfl, inBounds pred (scanned.newPred_lt new), new⟩)
  have through : ∀ pred, ReflTransGen (Edge state.succSets) i pred →
      state.NewPred visited second pred →
      TransGen (Edge (state.visit visited second).succSets) i visited := fun pred path new =>
    TransGen.tail' (edge_mono path) (last pred new)
  cases conflict with
  | writeRead key writes reads =>
      obtain ⟨writer, recorded, path⟩ := scanned.written i first key before firstAt writes
      exact through writer path (.source key reads recorded)
  | writeWrite key firstWrites secondWrites =>
      obtain ⟨writer, recorded, path⟩ := scanned.written i first key before firstAt firstWrites
      exact through writer path (.output key secondWrites recorded)
  | readWrite key reads writes =>
      rcases scanned.read i first key before firstAt reads with reader | ⟨writer, recorded, path⟩
      · exact through i .refl (.anti key writes reader (by omega))
      · exact through writer path (.output key writes recorded)
  | memory firstMemory secondMemory mayAlias =>
      by_cases secondUnknown : memoryBucket second = .unknown
      · exact through i .refl (.unknown secondMemory secondUnknown before)
      · exact through i .refl (.aliased secondMemory secondUnknown (memoryBucket first)
          (scanned.remembered i first before firstAt firstMemory) mayAlias)
  | unknownFirst memory unknown =>
      obtain ⟨barrier, recorded, path⟩ := scanned.barriered i first before firstAt memory unknown
      exact through barrier path (.barrier recorded)
  | unknownSecond memory unknown => exact through i .refl (.unknown memory unknown before)

/-- The syllable that writes a key after the visit, seen from an older access
that reached the previous writer. -/
theorem reach_writer (scanned : Scanned syllables visited state) {syllable : Syllable}
    (visitedAt : syllables[visited]? = some syllable) {i writer : Nat} {key : RegKey}
    (recorded : state.lastWriter.lookup key = some writer)
    (path : ReflTransGen (Edge state.succSets) i writer) :
    ∃ next, (state.visit visited syllable).lastWriter.lookup key = some next ∧
      ReflTransGen (Edge (state.visit visited syllable).succSets) i next := by
  rw [DagState.lastWriter_visit]
  by_cases writes : destRegKey syllable = some key
  · rw [if_pos writes]
    have bound := (List.getElem?_eq_some_iff.mp visitedAt).1
    have before := scanned.writerLt key writer recorded
    have edge : Edge (state.visit visited syllable).succSets writer visited :=
      DagState.edge_visit.mpr
        (Or.inr ⟨rfl, by rw [scanned.length]; omega, .output key writes recorded⟩)
    exact ⟨visited, rfl, (edge_mono path).tail edge⟩
  · rw [if_neg writes]
    exact ⟨writer, recorded, edge_mono path⟩

/-- One visit preserves the scan invariant. -/
theorem visit (scanned : Scanned syllables visited state) {syllable : Syllable}
    (visitedAt : syllables[visited]? = some syllable) :
    Scanned syllables (visited + 1) (state.visit visited syllable) where
  length := by rw [DagState.length_visit, scanned.length]
  edgeLt := by
    intro i j edge
    rcases DagState.edge_visit.mp edge with old | ⟨rfl, -, new⟩
    · have := scanned.edgeLt i j old
      omega
    · have := scanned.newPred_lt new
      omega
  writerLt := by
    intro key writer recorded
    rw [DagState.lastWriter_visit] at recorded
    split at recorded
    · cases recorded
      omega
    · have := scanned.writerLt key writer recorded
      omega
  readerLt := by
    intro key reader recorded
    rcases (DagState.mem_readers_visit.mp recorded).2 with old | ⟨rfl, -⟩
    · have := scanned.readerLt key reader old
      omega
    · omega
  barrierLt := by
    intro barrier recorded
    rw [DagState.barrier_visit] at recorded
    split at recorded
    · cases recorded
      omega
    · have := scanned.barrierLt barrier recorded
      omega
  memoryLt := by
    intro entry recorded
    rcases DagState.mem_priorMemory_visit.mp recorded with old | ⟨-, rfl⟩
    · have := scanned.memoryLt entry old
      omega
    · exact Nat.lt_succ_self visited
  written := by
    intro i earlier key before earlierAt writes
    rcases Nat.lt_succ_iff_lt_or_eq.mp before with older | rfl
    · obtain ⟨writer, recorded, path⟩ := scanned.written i earlier key older earlierAt writes
      exact scanned.reach_writer visitedAt recorded path
    · rw [visitedAt] at earlierAt
      cases earlierAt
      rw [DagState.lastWriter_visit, if_pos writes]
      exact ⟨i, rfl, .refl⟩
  read := by
    intro i earlier key before earlierAt reads
    by_cases writes : destRegKey syllable = some key
    · right
      rcases Nat.lt_succ_iff_lt_or_eq.mp before with older | rfl
      · rcases scanned.read i earlier key older earlierAt reads with
          reader | ⟨writer, recorded, path⟩
        · have bound := (List.getElem?_eq_some_iff.mp visitedAt).1
          have edge : Edge (state.visit visited syllable).succSets i visited :=
            DagState.edge_visit.mpr (Or.inr ⟨rfl, by rw [scanned.length]; omega,
              .anti key writes reader (by omega)⟩)
          rw [DagState.lastWriter_visit, if_pos writes]
          exact ⟨visited, rfl, .single edge⟩
        · exact scanned.reach_writer visitedAt recorded path
      · rw [DagState.lastWriter_visit, if_pos writes]
        exact ⟨i, rfl, .refl⟩
    · rw [DagState.mem_readers_visit]
      rcases Nat.lt_succ_iff_lt_or_eq.mp before with older | rfl
      · rcases scanned.read i earlier key older earlierAt reads with
          reader | ⟨writer, recorded, path⟩
        · exact Or.inl ⟨writes, Or.inl reader⟩
        · exact Or.inr (scanned.reach_writer visitedAt recorded path)
      · rw [visitedAt] at earlierAt
        cases earlierAt
        exact Or.inl ⟨writes, Or.inr ⟨rfl, reads⟩⟩
  barriered := by
    intro i earlier before earlierAt memory unknown
    rw [DagState.barrier_visit]
    by_cases barrierHere : isMemoryOpcode syllable.opcode ∧ memoryBucket syllable = .unknown
    · rw [if_pos barrierHere]
      refine ⟨visited, rfl, ?_⟩
      rcases Nat.lt_succ_iff_lt_or_eq.mp before with older | rfl
      · have bound := (List.getElem?_eq_some_iff.mp visitedAt).1
        exact .single (DagState.edge_visit.mpr (Or.inr ⟨rfl, by rw [scanned.length]; omega,
          .unknown barrierHere.1 barrierHere.2 older⟩))
      · exact .refl
    · rw [if_neg barrierHere]
      rcases Nat.lt_succ_iff_lt_or_eq.mp before with older | rfl
      · obtain ⟨barrier, recorded, path⟩ :=
          scanned.barriered i earlier older earlierAt memory unknown
        exact ⟨barrier, recorded, edge_mono path⟩
      · rw [visitedAt] at earlierAt
        cases earlierAt
        exact absurd ⟨memory, unknown⟩ barrierHere
  remembered := by
    intro i earlier before earlierAt memory
    rw [DagState.mem_priorMemory_visit]
    rcases Nat.lt_succ_iff_lt_or_eq.mp before with older | rfl
    · exact Or.inl (scanned.remembered i earlier older earlierAt memory)
    · rw [visitedAt] at earlierAt
      cases earlierAt
      exact Or.inr ⟨memory, rfl⟩
  ordered := by
    intro i j first second before bound firstAt secondAt conflict
    rcases Nat.lt_succ_iff_lt_or_eq.mp bound with older | rfl
    · exact TransGen.mono (fun _ _ edge => DagState.edge_visit.mpr (Or.inl edge)) i j
        (scanned.ordered i j first second before older firstAt secondAt conflict)
    · rw [visitedAt] at secondAt
      cases secondAt
      exact scanned.visit_ordered before firstAt visitedAt conflict

end Scanned

/-- The finished scan satisfies the invariant for the whole block. -/
theorem scanned_scanBlock (syllables : List Syllable) :
    Scanned syllables syllables.length (scanBlock syllables) := by
  have general : ∀ visited, visited ≤ syllables.length →
      Scanned syllables visited ((syllables.take visited).zipIdx.foldl
        (fun state entry => state.visit entry.2 entry.1)
        { succSets := List.replicate syllables.length [] }) := by
    intro visited
    induction visited with
    | zero => exact fun _ => Scanned.initial syllables
    | succ visited ih =>
        intro bound
        have scanned := ih (by omega)
        rw [List.take_add_one, List.getElem?_eq_getElem (by omega), Option.toList_some,
          List.zipIdx_append, List.foldl_append]
        simp only [List.length_take, Nat.zero_add, List.zipIdx_singleton, List.foldl_cons,
          List.foldl_nil]
        rw [Nat.min_eq_left (by omega)]
        exact scanned.visit (List.getElem?_eq_getElem (by omega))
  have whole := general syllables.length le_rfl
  rwa [List.take_length] at whole

end VliwCompiler.Schedule
