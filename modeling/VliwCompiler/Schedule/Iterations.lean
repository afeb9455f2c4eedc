import VliwCompiler.Schedule.Progress
import Mathlib.Algebra.BigOperators.Group.Finset.Piecewise

/-!
# Every iteration of the scheduler

The dependence graph has only forward edges, each of them once, and counts the
predecessors of every node.  Therefore the loop of the scheduler finds a ready
node as long as syllables remain, and no counter is decremented below zero.
-/

namespace VliwCompiler.Schedule

open Mir (Syllable)

/-! ### The graph -/

/-- An edge of the graph. -/
def IsEdge (nodes : List SchedNode) (source target : Nat) : Prop :=
  ∃ node, nodes[source]? = some node ∧ target ∈ node.succs

open Classical in
/-- The number of nodes with an edge to the given one. -/
noncomputable def inDegree (nodes : List SchedNode) (target : Nat) : Nat :=
  ((Finset.range nodes.length).filter fun source => IsEdge nodes source target).card

/-- A graph whose edges lead to later nodes and are listed once, with counters
that agree with them. -/
structure Layered (nodes : List SchedNode) : Prop where
  forward : ∀ source target, IsEdge nodes source target → source < target ∧ target < nodes.length
  nodup : ∀ node ∈ nodes, node.succs.Nodup
  counted : ∀ target node, nodes[target]? = some node →
    node.unscheduledPreds = inDegree nodes target

theorem nodup_btreeInsert {value : Nat} {set : List Nat} (distinct : set.Nodup) :
    (btreeInsert value set).Nodup := by
  unfold btreeInsert
  split
  · exact distinct
  · rename_i absent
    exact (List.perm_orderedInsert _ value set).nodup_iff.mpr
      (List.nodup_cons.mpr ⟨absent, distinct⟩)

/-- The successor sets have no duplicates. -/
def Deduplicated (sets : SuccSets) : Prop := ∀ set ∈ sets, set.Nodup

theorem Deduplicated.addEdge {sets : SuccSets} (distinct : Deduplicated sets)
    (source target : Nat) : Deduplicated (addEdge sets source target) := by
  intro set isSet
  obtain ⟨position, found⟩ := List.mem_iff_getElem?.mp isSet
  rw [Schedule.addEdge, List.getElem?_modify] at found
  obtain ⟨old, isOld, rfl⟩ := Option.map_eq_some_iff.mp found
  have oldNodup := distinct old (List.mem_of_getElem? isOld)
  split
  · exact nodup_btreeInsert oldNodup
  · exact oldNodup

theorem Deduplicated.foldl_addEdge {α : Type} {sets : SuccSets} (distinct : Deduplicated sets)
    (origin : α → Nat) (sources : List α) (target : Nat) :
    Deduplicated (sources.foldl (fun sets source => Schedule.addEdge sets (origin source) target)
      sets) := by
  induction sources generalizing sets with
  | nil => exact distinct
  | cons source sources ih => exact ih (distinct.addEdge (origin source) target)

namespace DagState

variable {state : DagState} {idx : Nat}

theorem deduplicated_visitSource (distinct : Deduplicated state.succSets) (key : RegKey) :
    Deduplicated (visitSource idx state key).succSets := by
  unfold visitSource
  cases state.lastWriter.lookup key with
  | none => exact distinct
  | some writer => exact distinct.addEdge writer idx

theorem deduplicated_afterSources (distinct : Deduplicated state.succSets) (syllable : Syllable) :
    Deduplicated (state.afterSources idx syllable).succSets := by
  have barrier : Deduplicated (state.visitBarrier idx).succSets := by
    unfold visitBarrier
    cases state.lastUnknownMemoryBarrier with
    | none => exact distinct
    | some barrier => exact distinct.addEdge barrier idx
  unfold afterSources
  generalize state.visitBarrier idx = current at barrier
  induction sourceRegKeys syllable generalizing current with
  | nil => exact barrier
  | cons key keys ih => exact ih _ (deduplicated_visitSource barrier key)

theorem deduplicated_visitDest (distinct : Deduplicated state.succSets) (dst : RegKey) :
    Deduplicated (visitDest idx state dst).succSets := by
  unfold visitDest
  cases state.lastWriter.lookup dst with
  | none => exact distinct.foldl_addEdge id _ idx
  | some writer => exact (distinct.addEdge writer idx).foldl_addEdge id _ idx

theorem deduplicated_visitMemory (distinct : Deduplicated state.succSets) (syllable : Syllable) :
    Deduplicated (visitMemory idx syllable state).succSets := by
  unfold visitMemory
  split
  · dsimp only
    split
    · exact distinct.foldl_addEdge id _ idx
    · exact distinct.foldl_addEdge Prod.fst _ idx
  · exact distinct

theorem deduplicated_visit (distinct : Deduplicated state.succSets) (syllable : Syllable) :
    Deduplicated (state.visit idx syllable).succSets := by
  rw [visit_eq]
  refine deduplicated_visitMemory ?_ syllable
  have afterSources : Deduplicated (state.afterSources idx syllable).succSets :=
    deduplicated_afterSources distinct syllable
  unfold afterDest
  cases destRegKey syllable with
  | none => exact afterSources
  | some dst => exact deduplicated_visitDest afterSources dst

end DagState

theorem deduplicated_scanBlock (syllables : List Syllable) :
    Deduplicated (scanBlock syllables).succSets := by
  have initial : Deduplicated (List.replicate syllables.length []) := by
    intro set isSet
    rw [List.eq_of_mem_replicate isSet]
    exact List.nodup_nil
  unfold scanBlock
  have general : ∀ (entries : List (Syllable × Nat)) (state : DagState),
      Deduplicated state.succSets →
        Deduplicated (entries.foldl (fun state entry => state.visit entry.2 entry.1)
          state).succSets := by
    intro entries
    induction entries with
    | nil => exact fun state distinct => distinct
    | cons entry entries ih =>
        exact fun state distinct => ih _ (DagState.deduplicated_visit distinct entry.1)
  exact general _ _ initial

theorem getElem?_buildSchedDag (syllables : List Syllable) (idx : Nat) :
    (buildSchedDag syllables)[idx]? = ((scanBlock syllables).succSets[idx]?).map fun succs =>
      { succs := succs, unscheduledPreds := predCount (scanBlock syllables).succSets idx,
        height := 0 } := by
  unfold buildSchedDag
  rw [List.getElem?_map, List.getElem?_zipIdx, Option.map_map]
  cases (scanBlock syllables).succSets[idx]? with
  | none => rfl
  | some succs => simp

theorem length_buildSchedDag (syllables : List Syllable) :
    (buildSchedDag syllables).length = syllables.length := by
  rw [← (scanned_scanBlock syllables).length]
  simp [buildSchedDag]

theorem isEdge_buildSchedDag {syllables : List Syllable} {source target : Nat} :
    IsEdge (buildSchedDag syllables) source target ↔
      Edge (scanBlock syllables).succSets source target := by
  unfold IsEdge Edge
  rw [getElem?_buildSchedDag]
  cases (scanBlock syllables).succSets[source]? with
  | none => simp
  | some succs => simp

/-- A node without duplicate edges counts each of its predecessors once. -/
theorem predCount_eq_inDegree (syllables : List Syllable) (target : Nat) :
    predCount (scanBlock syllables).succSets target =
      inDegree (buildSchedDag syllables) target := by
  classical
  rw [predCount_eq_pendingCount, pendingCount, inDegree, Finset.card_filter, length_buildSchedDag,
    ← (scanned_scanBlock syllables).length]
  simp only [List.not_mem_nil, not_false_eq_true, Finset.filter_true]
  refine Finset.sum_congr rfl ?_
  intro source inside
  have sourceLt := Finset.mem_range.mp inside
  have distinct : ((scanBlock syllables).succSets.getD source []).Nodup := by
    rw [List.getD_eq_getElem?_getD, List.getElem?_eq_getElem sourceLt, Option.getD_some]
    exact deduplicated_scanBlock syllables _ (List.getElem_mem sourceLt)
  rw [List.Nodup.count distinct]
  refine if_congr ?_ rfl rfl
  rw [isEdge_buildSchedDag, edge_iff_count_pos, List.count_pos_iff]

/-- The dependence graph of a block is layered. -/
theorem layered_buildSchedDag (syllables : List Syllable) : Layered (buildSchedDag syllables) where
  forward := by
    intro source target edge
    have inside := scan_forward syllables source target (isEdge_buildSchedDag.mp edge)
    rwa [(scanned_scanBlock syllables).length, ← length_buildSchedDag] at inside
  nodup := by
    intro node isNode
    obtain ⟨idx, found⟩ := List.mem_iff_getElem?.mp isNode
    rw [getElem?_buildSchedDag] at found
    obtain ⟨succs, isSet, rfl⟩ := Option.map_eq_some_iff.mp found
    exact deduplicated_scanBlock syllables succs (List.mem_of_getElem? isSet)
  counted := by
    intro target node found
    rw [getElem?_buildSchedDag] at found
    obtain ⟨succs, -, rfl⟩ := Option.map_eq_some_iff.mp found
    exact predCount_eq_inDegree syllables target

/-! ### The loop -/

section Loop

variable (syllables : List Syllable)

/-- The states of the loop after some iterations; an iteration starts only
while syllables remain. -/
inductive Iterated : Nat → LoopState → Prop where
  | start : Iterated 0 (initialLoopState syllables)
  | iteration {count : Nat} {state next : LoopState} :
      Iterated count state → state.out.length < syllables.length →
        scheduleStep syllables state = some next → Iterated (count + 1) next

/-- Releasing the successors of the node selected next decrements only positive
counters: before each successor its counter is not zero. -/
def Releases (state : LoopState) : Prop :=
  ∃ pos idx node, selectPosition syllables state = some pos ∧ state.ready[pos]? = some idx ∧
    state.nodes[idx]? = some node ∧ ∀ earlier succ later, node.succs = earlier ++ succ :: later →
      ∃ target, (earlier.foldl (releaseSucc (state.scheduled.set idx true))
          (state.nodes, swapRemove state.ready pos)).1[succ]? = some target ∧
        0 < target.unscheduledPreds

/-- The state after `count` iterations: one syllable was issued by each of
them, the ready list has no duplicates and nothing already issued, and while
syllables remain a further iteration succeeds. -/
structure Advanced (count : Nat) (state : LoopState) : Prop where
  issued : state.out.length = count
  bounded : count ≤ syllables.length
  outNodup : state.out.Nodup
  readyNodup : state.ready.Nodup
  unissued : ∀ idx ∈ state.ready, idx < syllables.length ∧ idx ∉ state.out
  nonempty : count < syllables.length → state.ready ≠ []
  steps : count < syllables.length → ∃ next, scheduleStep syllables state = some next
  releases : count < syllables.length → Releases syllables state

/-- The scheduler ends after exactly one iteration per syllable. -/
structure Progresses : Prop where
  graph : Layered (buildSchedDag syllables)
  length : (buildSchedDag syllables).length = syllables.length
  every : ∀ count state, Iterated syllables count state → Advanced syllables count state
  last : ∃ final, Iterated syllables syllables.length final ∧
    listScheduleSyllables syllables = .ok (final.out.filterMap (syllables[·]?))

end Loop

section Runs

variable {syllables : List Syllable}

theorem Progress.releases {state : LoopState}
    (progress : Progress (scanBlock syllables).succSets state)
    (remaining : state.out.length < syllables.length) : Releases syllables state := by
  have setsLength := (scanned_scanBlock syllables).length
  have nonempty := progress.ready_ne_nil (scan_forward syllables) (by omega)
  obtain ⟨pos, selected, posLt⟩ := exists_selectPosition syllables nonempty
  obtain ⟨idx, readyAt⟩ : ∃ idx, state.ready[pos]? = some idx :=
    ⟨_, List.getElem?_eq_getElem posLt⟩
  have idxLt := ((progress.readyIff _).mp (List.mem_of_getElem? readyAt)).1
  have nodeAt := List.getElem?_eq_getElem (by rw [progress.length]; exact idxLt)
  have taken := progress.taken (scan_forward syllables) readyAt nodeAt
  refine ⟨pos, _, _, selected, readyAt, nodeAt, ?_⟩
  intro earlier succ later split
  have succLt := (taken.waiting succ (by rw [split]; simp)).1
  obtain ⟨-, preds, -, -⟩ := foldl_releaseSucc (scanBlock syllables).succSets.length
    (state.scheduled.set idx true)
    (fun i => pendingCount (scanBlock syllables).succSets (state.out ++ [idx]) i +
      (succ :: later).count i) earlier (state.nodes, swapRemove state.ready pos)
    (fun other isOther => taken.waiting other (by rw [split]; simp [isOther]))
    (by
      intro i iLt
      rw [taken.counters i iLt, split, List.count_append]
      congr 1
      omega)
    taken.nodup
    (by
      intro i
      rw [taken.ready i, split, List.count_append]
      refine and_congr_right fun _ => and_congr_right fun _ => ?_
      omega)
  obtain ⟨target, found, count⟩ := Option.map_eq_some_iff.mp (preds succ succLt)
  refine ⟨target, found, ?_⟩
  rw [count, List.count_cons_self]
  omega

theorem Iterated.progress {count : Nat} {state : LoopState}
    (iterated : Iterated syllables count state) :
    Progress (scanBlock syllables).succSets state ∧ state.out.length = count := by
  induction iterated with
  | start => exact ⟨Progress.initial syllables, rfl⟩
  | iteration _ remaining stepped ih =>
      obtain ⟨progress, length⟩ := ih
      obtain ⟨next, sameStep, nextProgress, nextLength⟩ := exists_scheduleStep progress remaining
      rw [stepped] at sameStep
      cases sameStep
      exact ⟨nextProgress, by rw [nextLength, length]⟩

theorem Iterated.le_length {count : Nat} {state : LoopState}
    (iterated : Iterated syllables count state) : count ≤ syllables.length := by
  cases iterated with
  | start => exact Nat.zero_le _
  | iteration before remaining stepped =>
      rw [before.progress.2] at remaining
      exact remaining

theorem Iterated.advanced {count : Nat} {state : LoopState}
    (iterated : Iterated syllables count state) : Advanced syllables count state := by
  obtain ⟨progress, length⟩ := iterated.progress
  have setsLength := (scanned_scanBlock syllables).length
  exact
    { issued := length
      bounded := iterated.le_length
      outNodup := progress.outNodup
      readyNodup := progress.readyNodup
      unissued := by
        intro idx isReady
        obtain ⟨idxLt, fresh, -⟩ := (progress.readyIff idx).mp isReady
        exact ⟨by omega, fresh⟩
      nonempty := by
        intro remaining
        exact progress.ready_ne_nil (scan_forward syllables) (by omega)
      steps := by
        intro remaining
        obtain ⟨next, stepped, -⟩ := exists_scheduleStep progress (by omega)
        exact ⟨next, stepped⟩
      releases := fun remaining => progress.releases (by omega) }

theorem exists_iterated {count : Nat} (bounded : count ≤ syllables.length) :
    ∃ state, Iterated syllables count state := by
  induction count with
  | zero => exact ⟨_, .start⟩
  | succ count ih =>
      obtain ⟨state, iterated⟩ := ih (by omega)
      have advanced := iterated.advanced
      obtain ⟨next, stepped⟩ := advanced.steps bounded
      exact ⟨next, .iteration iterated (by rw [advanced.issued]; exact bounded) stepped⟩

/-- The last iteration of the loop can be run on its own. -/
theorem scheduleLoop_succ (count : Nat) (state : LoopState) :
    scheduleLoop syllables (count + 1) state =
      (scheduleLoop syllables count state).bind (scheduleStep syllables) := by
  induction count generalizing state with
  | zero =>
      rw [scheduleLoop, scheduleLoop, Option.bind_some]
      cases scheduleStep syllables state with
      | none => rfl
      | some next => rfl
  | succ count ih =>
      rw [scheduleLoop, scheduleLoop]
      cases scheduleStep syllables state with
      | none => rfl
      | some next => exact ih next

/-- The loop with its counter of iterations runs through the same states. -/
theorem scheduleLoop_of_iterated {count : Nat} {state : LoopState}
    (iterated : Iterated syllables count state) :
    scheduleLoop syllables count (initialLoopState syllables) = some state := by
  induction iterated with
  | start => rfl
  | iteration _ _ stepped ih => rw [scheduleLoop_succ, ih, Option.bind_some, stepped]

/-- A block of at most one syllable is issued as it is. -/
theorem issued_of_short (short : syllables.length ≤ 1) {state : LoopState}
    (iterated : Iterated syllables syllables.length state) :
    state.out.filterMap (syllables[·]?) = syllables := by
  obtain ⟨progress, length⟩ := iterated.progress
  have setsLength := (scanned_scanBlock syllables).length
  cases syllables with
  | nil =>
      rw [List.length_eq_zero_iff.mp length]
      rfl
  | cons only rest =>
      obtain rfl : rest = [] := List.length_eq_zero_iff.mp (by simpa using short)
      obtain ⟨idx, isOut⟩ := List.length_eq_one_iff.mp length
      have idxLt := progress.outLt idx (by simp [isOut])
      rw [setsLength, List.length_singleton] at idxLt
      obtain rfl : idx = 0 := by omega
      rw [isOut]
      rfl

end Runs

/-- The list scheduler always progresses. -/
theorem list_scheduler_progresses (syllables : List Syllable) : Progresses syllables := by
  obtain ⟨final, iterated⟩ := exists_iterated (le_refl syllables.length)
  refine ⟨layered_buildSchedDag syllables, length_buildSchedDag syllables,
    fun _ _ iterated => iterated.advanced, final, iterated, ?_⟩
  unfold listScheduleSyllables
  split
  · rename_i short
    rw [issued_of_short short iterated]
  · rw [scheduleLoop_of_iterated iterated]
    rfl

end VliwCompiler.Schedule
