import VliwCompiler.Schedule.ListSchedule
import VliwCompiler.Schedule.Dependence
import Mathlib.Algebra.BigOperators.Group.Finset.Basic
import Mathlib.Algebra.Order.BigOperators.Group.Finset

/-!
# The scheduling loop issues every syllable once

The loop invariant ties the predecessor counters to the edges from syllables
that have not been issued, and the ready list to the syllables whose counter is
zero.  Since every edge leads to a later position, the first syllable not yet
issued is always ready, so the loop never runs out of nodes; and a syllable is
only issued after all its predecessors.
-/

namespace VliwCompiler.Schedule

open Mir (Syllable)
open Relation (ReflTransGen TransGen)

/-! ### Selecting from the ready list -/

/-- The element held so far or the next one. -/
def better {α : Type} (keep : α → α → Bool) : Option α → α → Option α
  | none, item => some item
  | some held, item => if keep held item then some held else some item

theorem selectBy_eq_foldl {α : Type} (keep : α → α → Bool) (items : List α) :
    selectBy keep items = items.foldl (better keep) none := by
  rw [selectBy]
  congr 1
  funext best item
  cases best with
  | none => rfl
  | some held => rfl

theorem mem_of_selectBy {α : Type} {keep : α → α → Bool} {items : List α} {best : α}
    (found : selectBy keep items = some best) : best ∈ items := by
  have general : ∀ (rest : List α) (held : Option α),
      rest.foldl (better keep) held = some best → best ∈ rest ∨ held = some best := by
    intro rest
    induction rest with
    | nil => exact fun held result => Or.inr result
    | cons head tail ih =>
        intro held result
        rcases ih _ result with inTail | kept
        · exact Or.inl (List.mem_cons_of_mem _ inTail)
        · cases held with
          | none =>
              cases kept
              exact Or.inl List.mem_cons_self
          | some current =>
              rw [better] at kept
              split at kept
              · exact Or.inr kept
              · cases kept
                exact Or.inl List.mem_cons_self
  rw [selectBy_eq_foldl] at found
  simpa using general items none found

theorem selectBy_isSome {α : Type} (keep : α → α → Bool) {items : List α}
    (nonempty : items ≠ []) : (selectBy keep items).isSome := by
  have general : ∀ (rest : List α) (held : α),
      (rest.foldl (better keep) (some held)).isSome := by
    intro rest
    induction rest with
    | nil => exact fun held => rfl
    | cons head tail ih =>
        intro held
        rw [List.foldl_cons, better]
        split
        · exact ih held
        · exact ih head
  rw [selectBy_eq_foldl]
  cases items with
  | nil => exact absurd rfl nonempty
  | cons head tail => exact general tail head

theorem lt_length_of_mem_zipIdx {α : Type} {items : List α} {entry : α × Nat}
    (member : entry ∈ items.zipIdx) : entry.2 < items.length := by
  have bound := (List.mem_zipIdx member).2.1
  omega

/-- A position is selected whenever some node is ready. -/
theorem exists_selectPosition (syllables : List Syllable) {state : LoopState}
    (nonempty : state.ready ≠ []) :
    ∃ pos, selectPosition syllables state = some pos ∧ pos < state.ready.length := by
  unfold selectPosition
  cases picked : pickReadyNode syllables state.nodes state.ready state.issueReady state.cycle with
  | some pos =>
      refine ⟨pos, rfl, ?_⟩
      unfold pickReadyNode at picked
      obtain ⟨entry, best, rfl⟩ := Option.map_eq_some_iff.mp picked
      exact lt_length_of_mem_zipIdx (List.mem_of_mem_filter (mem_of_selectBy best))
  | none =>
      have found : (earliestReadyNode syllables state.nodes state.ready state.issueReady).isSome := by
        unfold earliestReadyNode minByKey
        rw [Option.isSome_map]
        exact selectBy_isSome _ (by simpa using nonempty)
      obtain ⟨pos, earliest⟩ := Option.isSome_iff_exists.mp found
      refine ⟨pos, by rw [Option.none_or, earliest], ?_⟩
      unfold earliestReadyNode at earliest
      obtain ⟨entry, best, rfl⟩ := Option.map_eq_some_iff.mp earliest
      exact lt_length_of_mem_zipIdx (mem_of_selectBy best)

/-- Removing the element at a position leaves the other elements. -/
theorem perm_swapRemove {α : Type} {items : List α} {pos : Nat} {item : α}
    (present : items[pos]? = some item) : items.Perm (item :: swapRemove items pos) := by
  obtain ⟨bound, rfl⟩ := List.getElem?_eq_some_iff.mp present
  have nonempty : items ≠ [] := by
    rintro rfl
    simp at bound
  obtain ⟨front, last, rfl⟩ : ∃ front last, items = front ++ [last] :=
    ⟨_, _, (List.dropLast_append_getLast nonempty).symm⟩
  have removed : swapRemove (front ++ [last]) pos = ((front ++ [last]).set pos last).dropLast := by
    simp [swapRemove]
  rw [removed]
  by_cases inFront : pos < front.length
  · have frontSplit : front = front.take pos ++ front[pos] :: front.drop (pos + 1) := by
      rw [List.getElem_cons_drop, List.take_append_drop]
    rw [List.set_append_left _ _ inFront, List.dropLast_concat, List.getElem_append_left inFront,
      List.set_eq_take_append_cons_drop, if_pos inFront]
    have whole : front ++ [last] =
        front.take pos ++ front[pos] :: (front.drop (pos + 1) ++ [last]) := by
      rw [← List.cons_append, ← List.append_assoc]
      exact congrArg (· ++ [last]) frontSplit
    rw [whole]
    exact List.perm_middle.trans
      (((List.perm_append_singleton last _).append_left _).cons _)
  · have atEnd : pos = front.length := by
      simp only [List.length_append, List.length_singleton] at bound
      omega
    subst atEnd
    rw [List.set_append_right _ _ le_rfl]
    simp

/-! ### Predecessor counters -/

/-- Number of edges into `target` from nodes that have not been issued. -/
def pendingCount (sets : SuccSets) (out : List Nat) (target : Nat) : Nat :=
  ∑ i ∈ (Finset.range sets.length).filter (· ∉ out), (sets.getD i []).count target

theorem predCount_eq_pendingCount (sets : SuccSets) (target : Nat) :
    predCount sets target = pendingCount sets [] target := by
  unfold predCount pendingCount
  simp only [List.not_mem_nil, not_false_eq_true, Finset.filter_true]
  induction sets with
  | nil => rfl
  | cons head tail ih =>
      rw [List.map_cons, List.sum_cons, ih, List.length_cons, Finset.sum_range_succ', add_comm]
      rfl

/-- Issuing a node removes its edges from the counters. -/
theorem pendingCount_append (sets : SuccSets) {out : List Nat} {issued : Nat}
    (bound : issued < sets.length) (fresh : issued ∉ out) (target : Nat) :
    pendingCount sets out target =
      pendingCount sets (out ++ [issued]) target + (sets.getD issued []).count target := by
  have member : issued ∈ (Finset.range sets.length).filter (· ∉ out) := by
    simp [bound, fresh]
  have erased : (Finset.range sets.length).filter (· ∉ out ++ [issued]) =
      ((Finset.range sets.length).filter (· ∉ out)).erase issued := by
    ext i
    simp only [Finset.mem_filter, Finset.mem_range, List.mem_append, List.mem_singleton,
      Finset.mem_erase]
    tauto
  unfold pendingCount
  rw [erased, Finset.sum_erase_add _ _ member]

theorem edge_iff_count_pos {sets : SuccSets} {i j : Nat} :
    Edge sets i j ↔ 0 < (sets.getD i []).count j := by
  rw [List.count_pos_iff, List.getD_eq_getElem?_getD]
  unfold Edge
  cases sets[i]? with
  | none => simp
  | some succs => simp

/-- A counter is zero exactly when all predecessors have been issued. -/
theorem pendingCount_eq_zero {sets : SuccSets} {out : List Nat} {target : Nat} :
    pendingCount sets out target = 0 ↔ ∀ i, Edge sets i target → i ∈ out := by
  unfold pendingCount
  rw [Finset.sum_eq_zero_iff]
  simp only [Finset.mem_filter, Finset.mem_range]
  constructor
  · intro zero i edge
    by_contra unissued
    have bound : i < sets.length := by
      obtain ⟨succs, present, -⟩ := edge
      exact (List.getElem?_eq_some_iff.mp present).1
    have positive := edge_iff_count_pos.mp edge
    have := zero i ⟨bound, unissued⟩
    omega
  · rintro issued i ⟨-, unissued⟩
    by_contra positive
    exact unissued (issued i (edge_iff_count_pos.mpr (Nat.pos_of_ne_zero positive)))

/-! ### The loop invariant -/

/-- The remaining predecessor count stored in a node. -/
def predsAt (nodes : List SchedNode) (idx : Nat) : Option Nat :=
  (nodes[idx]?).map (·.unscheduledPreds)

/-- The successors stored in a node. -/
def succsAt (nodes : List SchedNode) (idx : Nat) : Option (List Nat) :=
  (nodes[idx]?).map (·.succs)

/-- The state of the scheduling loop after some nodes have been issued. -/
structure Progress (sets : SuccSets) (state : LoopState) : Prop where
  length : state.nodes.length = sets.length
  succs : ∀ i, succsAt state.nodes i = sets[i]?
  scheduled : state.scheduled.length = sets.length
  scheduledIff : ∀ i, state.scheduled.getD i false = true ↔ i ∈ state.out
  outNodup : state.out.Nodup
  outLt : ∀ i ∈ state.out, i < sets.length
  preds : ∀ i < sets.length, predsAt state.nodes i = some (pendingCount sets state.out i)
  readyNodup : state.ready.Nodup
  readyIff : ∀ i, i ∈ state.ready ↔
    i < sets.length ∧ i ∉ state.out ∧ pendingCount sets state.out i = 0
  ordered : ∀ i j, Edge sets i j → j ∈ state.out →
    i ∈ state.out ∧ state.out.idxOf i < state.out.idxOf j

theorem nodes_releaseSucc (scheduled : List Bool) (current : List SchedNode × List Nat)
    (succ : Nat) :
    (releaseSucc scheduled current succ).1 = current.1.modify succ fun node =>
      { node with unscheduledPreds := node.unscheduledPreds - 1 } := by
  unfold releaseSucc
  simp only
  split <;> rfl

theorem succsAt_releaseSucc (scheduled : List Bool) (current : List SchedNode × List Nat)
    (succ idx : Nat) :
    succsAt (releaseSucc scheduled current succ).1 idx = succsAt current.1 idx := by
  rw [nodes_releaseSucc, succsAt, succsAt, List.getElem?_modify]
  cases current.1[idx]? with
  | none => simp
  | some node => by_cases here : succ = idx <;> simp [here]

theorem predsAt_releaseSucc (scheduled : List Bool) (current : List SchedNode × List Nat)
    (succ idx : Nat) :
    predsAt (releaseSucc scheduled current succ).1 idx =
      (predsAt current.1 idx).map fun count => if succ = idx then count - 1 else count := by
  rw [nodes_releaseSucc, predsAt, predsAt, List.getElem?_modify]
  cases current.1[idx]? with
  | none => simp
  | some node => by_cases here : succ = idx <;> simp [here]

theorem ready_releaseSucc (scheduled : List Bool) (current : List SchedNode × List Nat)
    (succ : Nat) :
    (releaseSucc scheduled current succ).2 =
      if predsAt (releaseSucc scheduled current succ).1 succ = some 0 ∧
          scheduled.getD succ false = false then current.2 ++ [succ]
      else current.2 := by
  rw [nodes_releaseSucc]
  unfold releaseSucc predsAt
  simp only
  generalize current.1.modify succ _ = nodes
  cases nodes[succ]? with
  | none => simp
  | some node =>
      by_cases zero : node.unscheduledPreds = 0 <;> cases scheduled.getD succ false <;>
        simp [zero]

theorem length_foldl_releaseSucc (scheduled : List Bool) (remaining : List Nat)
    (current : List SchedNode × List Nat) :
    (remaining.foldl (releaseSucc scheduled) current).1.length = current.1.length := by
  induction remaining generalizing current with
  | nil => rfl
  | cons succ rest ih => rw [List.foldl_cons, ih, nodes_releaseSucc, List.length_modify]

/-- Releasing the successors of an issued node: the counters drop to their new
values and exactly the nodes that become ready are appended. -/
theorem foldl_releaseSucc (n : Nat) (scheduled : List Bool) (target : Nat → Nat)
    (remaining : List Nat) (current : List SchedNode × List Nat)
    (unscheduled : ∀ succ ∈ remaining, succ < n ∧ scheduled.getD succ false = false)
    (preds : ∀ i < n, predsAt current.1 i = some (target i + remaining.count i))
    (nodup : current.2.Nodup)
    (ready : ∀ i, i ∈ current.2 ↔ i < n ∧ scheduled.getD i false = false ∧
      target i + remaining.count i = 0) :
    let final := remaining.foldl (releaseSucc scheduled) current
    (∀ i, succsAt final.1 i = succsAt current.1 i) ∧
      (∀ i < n, predsAt final.1 i = some (target i)) ∧ final.2.Nodup ∧
      (∀ i, i ∈ final.2 ↔ i < n ∧ scheduled.getD i false = false ∧ target i = 0) := by
  induction remaining generalizing current with
  | nil => exact ⟨fun _ => rfl, by simpa using preds, nodup, by simpa using ready⟩
  | cons succ rest ih =>
      obtain ⟨succLt, succOpen⟩ := unscheduled succ List.mem_cons_self
      have restPreds : ∀ i < n, predsAt (releaseSucc scheduled current succ).1 i =
          some (target i + rest.count i) := by
        intro i iLt
        rw [predsAt_releaseSucc, preds i iLt, Option.map_some, List.count_cons]
        by_cases here : succ = i
        · simp [here]
        · simp [here]
      have grown : (releaseSucc scheduled current succ).2 =
          if target succ + rest.count succ = 0 then current.2 ++ [succ] else current.2 := by
        rw [ready_releaseSucc, restPreds succ succLt]
        simp only [Option.some.injEq, succOpen, and_true]
      have succWaiting : succ ∉ current.2 := by
        rw [ready]
        rintro ⟨-, -, zero⟩
        simp at zero
      have restNodup : (releaseSucc scheduled current succ).2.Nodup := by
        rw [grown]
        split
        · exact List.nodup_append.mpr ⟨nodup, List.nodup_singleton succ, by
            intro i iMem j jMem same
            rw [List.mem_singleton] at jMem
            subst jMem
            exact succWaiting (same ▸ iMem)⟩
        · exact nodup
      have restReady : ∀ i, i ∈ (releaseSucc scheduled current succ).2 ↔
          i < n ∧ scheduled.getD i false = false ∧ target i + rest.count i = 0 := by
        intro i
        rw [grown]
        by_cases here : i = succ
        · subst here
          by_cases zero : target i + rest.count i = 0
          · rw [if_pos zero]
            exact iff_of_true (List.mem_append_right _ List.mem_cons_self)
              ⟨succLt, succOpen, zero⟩
          · rw [if_neg zero]
            exact iff_of_false succWaiting fun h => zero h.2.2
        · have countEq : (succ :: rest).count i = rest.count i :=
            List.count_cons_of_ne (fun h => here h.symm)
          rw [← countEq, ← ready i]
          split
          · simp [here]
          · rfl
      obtain ⟨succs, finalPreds, finalNodup, finalReady⟩ :=
        ih _ (fun other otherMem => unscheduled other (List.mem_cons_of_mem _ otherMem))
          restPreds restNodup restReady
      refine ⟨?_, finalPreds, finalNodup, finalReady⟩
      intro i
      rw [List.foldl_cons, succs, succsAt_releaseSucc]

/-- Heights do not influence the graph or its counters. -/
theorem computeHeights_fields (nodes : List SchedNode) (syllables : List Syllable) :
    (computeHeights nodes syllables).length = nodes.length ∧
      (∀ i, succsAt (computeHeights nodes syllables) i = succsAt nodes i) ∧
      ∀ i, predsAt (computeHeights nodes syllables) i = predsAt nodes i := by
  unfold computeHeights
  generalize (List.range nodes.length).reverse = order
  induction order generalizing nodes with
  | nil => exact ⟨rfl, fun _ => rfl, fun _ => rfl⟩
  | cons idx rest ih =>
      rw [List.foldl_cons]
      cases nodeAt : nodes[idx]? with
      | none => exact ih nodes
      | some node =>
          cases syllables[idx]? with
          | none => exact ih nodes
          | some syllable =>
              simp only
              obtain ⟨length, succs, preds⟩ := ih (nodes.set idx { node with
                height := syllable.opcode.latency +
                  (node.succs.filterMap fun succ => (nodes[succ]?).map (·.height)).foldl max 0 })
              obtain ⟨bound, rfl⟩ := List.getElem?_eq_some_iff.mp nodeAt
              refine ⟨by rw [length, List.length_set], ?_, ?_⟩
              · intro i
                rw [succs, succsAt, succsAt, List.getElem?_set]
                by_cases here : idx = i
                · subst here
                  simp [bound]
                · simp [here]
              · intro i
                rw [preds, predsAt, predsAt, List.getElem?_set]
                by_cases here : idx = i
                · subst here
                  simp [bound]
                · simp [here]

theorem Progress.initial (syllables : List Syllable) :
    Progress (scanBlock syllables).succSets (initialLoopState syllables) := by
  obtain ⟨length, succs, preds⟩ :=
    computeHeights_fields (buildSchedDag syllables) syllables
  have setsLength := (scanned_scanBlock syllables).length
  have dagLength : (buildSchedDag syllables).length = (scanBlock syllables).succSets.length := by
    simp [buildSchedDag]
  have dagPreds : ∀ i < (scanBlock syllables).succSets.length,
      predsAt (buildSchedDag syllables) i =
        some (pendingCount (scanBlock syllables).succSets [] i) := by
    intro i iLt
    rw [← predCount_eq_pendingCount]
    simp [predsAt, buildSchedDag, iLt]
  exact
    { length := length.trans dagLength
      succs := by
        intro i
        refine (succs i).trans ?_
        unfold succsAt buildSchedDag
        simp only [List.getElem?_map, List.getElem?_zipIdx, Option.map_map]
        cases (scanBlock syllables).succSets[i]? <;> rfl
      scheduled := by simp [initialLoopState, setsLength]
      scheduledIff := by
        intro i
        simp only [initialLoopState, List.getD_eq_getElem?_getD, List.getElem?_replicate]
        split <;> simp
      outNodup := List.nodup_nil
      outLt := by simp [initialLoopState]
      preds := by
        intro i iLt
        exact (preds i).trans (dagPreds i iLt)
      readyNodup := (List.nodup_range).filter _
      readyIff := by
        intro i
        simp only [initialLoopState, List.mem_filter, List.mem_range, length, dagLength,
          List.not_mem_nil, not_false_eq_true, true_and]
        apply and_congr_right
        intro iLt
        have counter := (preds i).trans (dagPreds i iLt)
        unfold predsAt at counter
        obtain ⟨node, nodeAt, count⟩ := Option.map_eq_some_iff.mp counter
        rw [nodeAt, Option.any_some, decide_eq_true_eq, count]
      ordered := by simp [initialLoopState] }

/-- While syllables remain, some node is ready: the first one not issued has
only issued predecessors. -/
theorem Progress.ready_ne_nil {sets : SuccSets} {state : LoopState}
    (progress : Progress sets state) (forward : ∀ i j, Edge sets i j → i < j ∧ j < sets.length)
    (remaining : state.out.length < sets.length) : state.ready ≠ [] := by
  classical
  have unissued : ∃ i, i < sets.length ∧ i ∉ state.out := by
    by_contra none
    push Not at none
    have subset : List.range sets.length ⊆ state.out := by
      intro i iMem
      exact none i (List.mem_range.mp iMem)
    have := (List.nodup_range.subperm subset).length_le
    rw [List.length_range] at this
    omega
  have first := Nat.find_spec unissued
  have least := fun i => Nat.find_min unissued (m := i)
  have firstReady : Nat.find unissued ∈ state.ready := by
    rw [progress.readyIff]
    refine ⟨first.1, first.2, pendingCount_eq_zero.mpr ?_⟩
    intro i edge
    have before := (forward i _ edge).1
    by_contra missing
    exact least i before ⟨by omega, missing⟩
  intro empty
  rw [empty] at firstReady
  simp at firstReady

/-- A ready node was taken from the list, and its successors are still to be
released. -/
structure Taken (sets : SuccSets) (state : LoopState) (pos idx : Nat) (node : SchedNode) :
    Prop where
  bound : idx < sets.length
  fresh : idx ∉ state.out
  zero : pendingCount sets state.out idx = 0
  scheduledIff : ∀ i, (state.scheduled.set idx true).getD i false = true ↔ i ∈ state.out ++ [idx]
  waiting : ∀ succ ∈ node.succs, succ < sets.length ∧
    (state.scheduled.set idx true).getD succ false = false
  counters : ∀ i < sets.length, predsAt state.nodes i =
    some (pendingCount sets (state.out ++ [idx]) i + node.succs.count i)
  nodup : (swapRemove state.ready pos).Nodup
  ready : ∀ i, i ∈ swapRemove state.ready pos ↔ i < sets.length ∧
    (state.scheduled.set idx true).getD i false = false ∧
    pendingCount sets (state.out ++ [idx]) i + node.succs.count i = 0

theorem Progress.taken {sets : SuccSets} {state : LoopState}
    (progress : Progress sets state) (forward : ∀ i j, Edge sets i j → i < j ∧ j < sets.length)
    {pos idx : Nat} {node : SchedNode} (readyAt : state.ready[pos]? = some idx)
    (nodeAt : state.nodes[idx]? = some node) : Taken sets state pos idx node := by
  have idxReady : idx ∈ state.ready := List.mem_of_getElem? readyAt
  obtain ⟨idxLt, idxFresh, idxZero⟩ := (progress.readyIff idx).mp idxReady
  have nodeSuccs : sets[idx]? = some node.succs := by
    rw [← progress.succs idx, succsAt, nodeAt]
    rfl
  have succsD : sets.getD idx [] = node.succs := by
    rw [List.getD_eq_getElem?_getD, nodeSuccs]
    rfl
  have edgeOf : ∀ succ ∈ node.succs, Edge sets idx succ := fun succ succMem =>
    ⟨node.succs, nodeSuccs, succMem⟩
  have removed := perm_swapRemove readyAt
  have removedNodup : (idx :: swapRemove state.ready pos).Nodup :=
    removed.nodup_iff.mp progress.readyNodup
  have memRemoved : ∀ i, i ∈ swapRemove state.ready pos ↔ i ∈ state.ready ∧ i ≠ idx := by
    intro i
    rw [removed.mem_iff, List.mem_cons]
    constructor
    · intro member
      exact ⟨Or.inr member, fun same => (List.nodup_cons.mp removedNodup).1 (same ▸ member)⟩
    · rintro ⟨rfl | member, other⟩
      · exact absurd rfl other
      · exact member
  have scheduledIff : ∀ i, (state.scheduled.set idx true).getD i false = true ↔
      i ∈ state.out ++ [idx] := by
    intro i
    have old := progress.scheduledIff i
    rw [List.getD_eq_getElem?_getD] at old ⊢
    rw [List.getElem?_set]
    by_cases here : idx = i
    · subst here
      simp [progress.scheduled, idxLt]
    · rw [if_neg here, old]
      have other : i ≠ idx := fun same => here same.symm
      simp [other]
  have scheduledFalse : ∀ i, (state.scheduled.set idx true).getD i false = false ↔
      i ∉ state.out ++ [idx] := by
    intro i
    rw [← scheduledIff i, Bool.not_eq_true]
  have unissuedSucc : ∀ succ ∈ node.succs, succ ∉ state.out ++ [idx] := by
    intro succ succMem issued
    rcases List.mem_append.mp issued with older | same
    · exact idxFresh (progress.ordered idx succ (edgeOf succ succMem) older).1
    · rw [List.mem_singleton] at same
      have := forward idx succ (edgeOf succ succMem)
      omega
  exact
    { bound := idxLt
      fresh := idxFresh
      zero := idxZero
      scheduledIff := scheduledIff
      waiting := by
        intro succ succMem
        exact ⟨(forward idx succ (edgeOf succ succMem)).2,
          (scheduledFalse succ).mpr (unissuedSucc succ succMem)⟩
      counters := by
        intro i iLt
        rw [← succsD, ← pendingCount_append sets idxLt idxFresh]
        exact progress.preds i iLt
      nodup := (List.nodup_cons.mp removedNodup).2
      ready := by
        intro i
        rw [memRemoved, progress.readyIff, scheduledFalse, ← succsD,
          ← pendingCount_append sets idxLt idxFresh]
        simp only [List.mem_append, List.mem_singleton]
        tauto }

/-- Issuing a ready node keeps the invariant. -/
theorem Progress.issueNode {sets : SuccSets} {state : LoopState}
    (progress : Progress sets state) (forward : ∀ i j, Edge sets i j → i < j ∧ j < sets.length)
    {pos idx : Nat} {syllable : Syllable} {node : SchedNode}
    (readyAt : state.ready[pos]? = some idx) (nodeAt : state.nodes[idx]? = some node) :
    Progress sets (issueNode state pos idx syllable node) := by
  have taken := progress.taken forward readyAt nodeAt
  obtain ⟨succs, preds, nodup, ready⟩ := foldl_releaseSucc sets.length
    (state.scheduled.set idx true) (pendingCount sets (state.out ++ [idx])) node.succs
    (state.nodes, swapRemove state.ready pos) taken.waiting taken.counters taken.nodup taken.ready
  exact
    { length := (length_foldl_releaseSucc ..).trans progress.length
      succs := fun i => (succs i).trans (progress.succs i)
      scheduled := by
        rw [← progress.scheduled]
        exact List.length_set ..
      scheduledIff := taken.scheduledIff
      outNodup := by
        refine List.nodup_append.mpr ⟨progress.outNodup, List.nodup_singleton idx, ?_⟩
        intro i iMem j jMem same
        rw [List.mem_singleton] at jMem
        subst jMem
        exact taken.fresh (same ▸ iMem)
      outLt := by
        intro i iMem
        rcases List.mem_append.mp iMem with older | same
        · exact progress.outLt i older
        · rw [List.mem_singleton] at same
          rw [same]
          exact taken.bound
      preds := preds
      readyNodup := nodup
      readyIff := by
        intro i
        refine (ready i).trans ?_
        rw [← Bool.not_eq_true, taken.scheduledIff i]
        rfl
      ordered := by
        intro i j edge issued
        change j ∈ state.out ++ [idx] at issued
        change i ∈ state.out ++ [idx] ∧
          (state.out ++ [idx]).idxOf i < (state.out ++ [idx]).idxOf j
        by_cases older : j ∈ state.out
        · obtain ⟨iMem, before⟩ := progress.ordered i j edge older
          rw [List.idxOf_append_of_mem iMem, List.idxOf_append_of_mem older]
          exact ⟨List.mem_append_left _ iMem, before⟩
        · have atEnd : j = idx := by simpa [older] using issued
          subst atEnd
          have iMem := pendingCount_eq_zero.mp taken.zero i edge
          refine ⟨List.mem_append_left _ iMem, ?_⟩
          rw [List.idxOf_append_of_mem iMem, List.idxOf_append_of_notMem older]
          have := List.idxOf_lt_length_of_mem iMem
          omega }

/-! ### Whole runs of the loop -/

theorem scan_forward (syllables : List Syllable) (i j : Nat)
    (edge : Edge (scanBlock syllables).succSets i j) :
    i < j ∧ j < (scanBlock syllables).succSets.length := by
  have scanned := scanned_scanBlock syllables
  have := scanned.edgeLt i j edge
  have := scanned.length
  omega

/-- While syllables remain, an iteration issues one of them. -/
theorem exists_scheduleStep {syllables : List Syllable} {state : LoopState}
    (progress : Progress (scanBlock syllables).succSets state)
    (remaining : state.out.length < syllables.length) :
    ∃ next, scheduleStep syllables state = some next ∧
      Progress (scanBlock syllables).succSets next ∧
      next.out.length = state.out.length + 1 := by
  have setsLength := (scanned_scanBlock syllables).length
  have nonempty := progress.ready_ne_nil (scan_forward syllables) (by omega)
  obtain ⟨pos, selected, posLt⟩ := exists_selectPosition syllables nonempty
  obtain ⟨idx, readyAt⟩ : ∃ idx, state.ready[pos]? = some idx :=
    ⟨_, List.getElem?_eq_getElem posLt⟩
  have idxLt := ((progress.readyIff _).mp (List.mem_of_getElem? readyAt)).1
  obtain ⟨syllable, syllableAt⟩ : ∃ syllable, syllables[idx]? = some syllable :=
    ⟨_, List.getElem?_eq_getElem (by omega)⟩
  obtain ⟨node, nodeAt⟩ : ∃ node, state.nodes[idx]? = some node :=
    ⟨_, List.getElem?_eq_getElem (by rw [progress.length]; exact idxLt)⟩
  refine ⟨issueNode state pos idx syllable node, ?_, ?_, ?_⟩
  · unfold scheduleStep
    rw [selected, Option.bind_some, readyAt, Option.bind_some, syllableAt, Option.bind_some, nodeAt,
      Option.map_some]
  · exact progress.issueNode (scan_forward syllables) readyAt nodeAt
  · simp [issueNode]

/-- The loop finishes after one iteration per syllable. -/
theorem exists_scheduleLoop {syllables : List Syllable} (remaining : Nat) {state : LoopState}
    (progress : Progress (scanBlock syllables).succSets state)
    (count : state.out.length + remaining = syllables.length) :
    ∃ final, scheduleLoop syllables remaining state = some final ∧
      Progress (scanBlock syllables).succSets final ∧ final.out.length = syllables.length := by
  induction remaining generalizing state with
  | zero => exact ⟨state, rfl, progress, by omega⟩
  | succ remaining ih =>
      obtain ⟨next, stepped, nextProgress, nextLength⟩ :=
        exists_scheduleStep progress (by omega)
      obtain ⟨final, looped, finalProgress, finalLength⟩ := ih nextProgress (by omega)
      refine ⟨final, ?_, finalProgress, finalLength⟩
      rw [scheduleLoop, stepped, Option.bind_some, looped]

/-- A path of the dependence graph leads forward in the output order. -/
theorem Progress.path_ordered {sets : SuccSets} {state : LoopState}
    (progress : Progress sets state) {i j : Nat} (path : TransGen (Edge sets) i j)
    (issued : j ∈ state.out) : i ∈ state.out ∧ state.out.idxOf i < state.out.idxOf j := by
  induction path using TransGen.head_induction_on with
  | single edge => exact progress.ordered _ _ edge issued
  | head edge path ih =>
      obtain ⟨middle, later⟩ := ih
      obtain ⟨first, earlier⟩ := progress.ordered _ _ edge middle
      exact ⟨first, by omega⟩

/-- An order of the positions of a block that keeps conflicting syllables in
their original order. -/
structure ValidOrder (syllables : List Syllable) (order : List Nat) : Prop where
  perm : order.Perm (List.range syllables.length)
  ordered : ∀ i j first second, i < j → syllables[i]? = some first →
    syllables[j]? = some second → Conflicts first second → order.idxOf i < order.idxOf j

/-- The positions of a block in the order in which the scheduler issues them. -/
def issueOrder (syllables : List Syllable) : List Nat :=
  if syllables.length ≤ 1 then List.range syllables.length
  else
    ((scheduleLoop syllables syllables.length (initialLoopState syllables)).map (·.out)).getD []

/-- The scheduler returns the syllables of the block in a valid order. -/
theorem issueOrder_correct (syllables : List Syllable) :
    ValidOrder syllables (issueOrder syllables) ∧
      listScheduleSyllables syllables =
        .ok ((issueOrder syllables).filterMap (syllables[·]?)) := by
  by_cases short : syllables.length ≤ 1
  · rw [issueOrder, if_pos short]
    refine ⟨⟨List.Perm.refl _, ?_⟩, ?_⟩
    · intro i j first second before firstAt secondAt _
      have := (List.getElem?_eq_some_iff.mp secondAt).1
      omega
    · rw [listScheduleSyllables, if_pos short]
      match syllables, short with
      | [], _ => rfl
      | [only], _ => rfl
  · obtain ⟨final, looped, progress, length⟩ := exists_scheduleLoop syllables.length
      (Progress.initial syllables) (by simp [initialLoopState])
    have scanned := scanned_scanBlock syllables
    have perm : final.out.Perm (List.range syllables.length) := by
      apply (List.subperm_of_subset progress.outNodup ?_).perm_of_length_le (by simp [length])
      intro i iMem
      rw [List.mem_range, ← scanned.length]
      exact progress.outLt i iMem
    have isOrder : issueOrder syllables = final.out := by
      rw [issueOrder, if_neg short, looped]
      rfl
    rw [isOrder]
    refine ⟨⟨perm, ?_⟩, ?_⟩
    · intro i j first second before firstAt secondAt conflict
      have bound := (List.getElem?_eq_some_iff.mp secondAt).1
      have path := scanned.ordered i j first second before bound firstAt secondAt conflict
      exact (progress.path_ordered path (perm.mem_iff.mpr (List.mem_range.mpr bound))).2
    · rw [listScheduleSyllables, if_neg short, looped]
      rfl

theorem exists_validOrder (syllables : List Syllable) :
    ∃ order, ValidOrder syllables order ∧
      listScheduleSyllables syllables = .ok (order.filterMap (syllables[·]?)) :=
  ⟨_, issueOrder_correct syllables⟩

end VliwCompiler.Schedule
