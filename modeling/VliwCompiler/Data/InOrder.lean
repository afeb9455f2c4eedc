import Mathlib.Data.List.Basic
import Mathlib.Data.Nat.Init

/-!
# In-order issue

A machine issues operations one after another, at most one in each cycle.  An
operation waits until the results it reads are available; the result of an
operation is available a fixed number of cycles after its issue, and a later
result replaces an earlier one.
-/

namespace VliwCompiler.InOrder

/-- What in-order issue needs to know of an operation. -/
structure Issue (K : Type) where
  sources : List K
  dest : Option K
  latency : Nat

variable {K : Type} [DecidableEq K]

/-- The last of the first `count` operations that writes `key`. -/
def lastWriter (issues : List (Issue K)) (count : Nat) (key : K) : Option Nat :=
  (List.range count).reverse.find? fun index => (issues[index]?.bind (·.dest)) = some key

/-- The cycle from which the operation with number `count` can read `key`. -/
def readyAt (issues : List (Issue K)) (cycles : List Nat) (count : Nat) (key : K) : Nat :=
  match lastWriter issues count key with
  | none => 0
  | some writer => cycles.getD writer 0 + (issues[writer]?.map (·.latency)).getD 0

/-- The first cycle after the last issue. -/
def nextCycle (cycles : List Nat) : Nat := (cycles.getLast?.map (· + 1)).getD 0

/-- The cycle of the operation with number `count`: the one after the last issue,
unless a source is ready only later. -/
def issueCycle (issues : List (Issue K)) (cycles : List Nat) (count : Nat) (sources : List K) :
    Nat :=
  max (nextCycle (cycles.take count)) ((sources.map (readyAt issues cycles count)).foldl max 0)

/-- The operations are issued in order and as early as possible. -/
structure IsSchedule (issues : List (Issue K)) (cycles : List Nat) : Prop where
  length : cycles.length = issues.length
  cycle : ∀ count issue, issues[count]? = some issue →
    cycles[count]? = some (issueCycle issues cycles count issue.sources)

/-- The operation with number `index` writes `key`. -/
def Writes (issues : List (Issue K)) (index : Nat) (key : K) : Prop :=
  issues[index]?.bind (·.dest) = some key

theorem lastWriter_zero (issues : List (Issue K)) (key : K) : lastWriter issues 0 key = none := rfl

theorem lastWriter_step (issues : List (Issue K)) (count : Nat) (key : K)
    [Decidable (Writes issues count key)] :
    lastWriter issues (count + 1) key =
      if Writes issues count key then some count else lastWriter issues count key := by
  unfold lastWriter
  rw [List.range_succ, List.reverse_append, List.reverse_singleton, List.singleton_append,
    List.find?_cons]
  by_cases writes : Writes issues count key
  · rw [if_pos writes, decide_eq_true (show issues[count]?.bind (·.dest) = some key from writes)]
  · rw [if_neg writes, decide_eq_false (show ¬issues[count]?.bind (·.dest) = some key from writes)]

theorem lastWriter_eq_some {issues : List (Issue K)} {count writer : Nat} {key : K} :
    lastWriter issues count key = some writer ↔ writer < count ∧ Writes issues writer key ∧
      ∀ between, writer < between → between < count → ¬Writes issues between key := by
  induction count with
  | zero => simp [lastWriter_zero]
  | succ count ih =>
      have : Decidable (Writes issues count key) := Classical.propDecidable _
      rw [lastWriter_step]
      by_cases writes : Writes issues count key
      · rw [if_pos writes]
        constructor
        · intro same
          cases same
          exact ⟨Nat.lt_succ_self _, writes, fun between after before => by omega⟩
        · rintro ⟨inside, isWriter, last⟩
          by_cases same : writer = count
          · rw [same]
          · exact absurd writes (last count (by omega) (Nat.lt_succ_self _))
      · rw [if_neg writes, ih]
        constructor
        · rintro ⟨inside, isWriter, last⟩
          refine ⟨by omega, isWriter, fun between after before => ?_⟩
          by_cases same : between = count
          · rwa [same]
          · exact last between after (by omega)
        · rintro ⟨inside, isWriter, last⟩
          have different : writer ≠ count := fun same => writes (same ▸ isWriter)
          exact ⟨by omega, isWriter, fun between after before => last between after (by omega)⟩

/-- The ready cycle of a register with a last writer. -/
theorem readyAt_of_lastWriter {issues : List (Issue K)} {cycles : List Nat}
    {count writer cycle : Nat} {key : K} {issue : Issue K} (inside : writer < count)
    (isIssue : issues[writer]? = some issue) (isCycle : cycles[writer]? = some cycle)
    (writes : issue.dest = some key)
    (last : ∀ between, writer < between → between < count → ¬Writes issues between key) :
    readyAt issues cycles count key = cycle + issue.latency := by
  have isWriter : Writes issues writer key := by
    unfold Writes
    rw [isIssue]
    exact writes
  unfold readyAt
  rw [lastWriter_eq_some.mpr ⟨inside, isWriter, last⟩]
  simp only
  rw [List.getD_eq_getElem?_getD, isCycle, isIssue]
  rfl

/-- A ready cycle is zero or the one of a last writer. -/
theorem readyAt_cases (issues : List (Issue K)) {cycles : List Nat}
    (sameLength : cycles.length = issues.length) (count : Nat) (key : K) :
    readyAt issues cycles count key = 0 ∨ ∃ writer cycle issue, writer < count ∧
      issues[writer]? = some issue ∧ cycles[writer]? = some cycle ∧ issue.dest = some key ∧
      (∀ between, writer < between → between < count → ¬Writes issues between key) ∧
      readyAt issues cycles count key = cycle + issue.latency := by
  cases found : lastWriter issues count key with
  | none =>
      left
      unfold readyAt
      rw [found]
  | some writer =>
      right
      obtain ⟨inside, writes, last⟩ := lastWriter_eq_some.mp found
      obtain ⟨issue, isIssue, isDest⟩ := Option.bind_eq_some_iff.mp writes
      have bound := (List.getElem?_eq_some_iff.mp isIssue).1
      have isCycle : cycles[writer]? = some (cycles[writer]) :=
        List.getElem?_eq_getElem (by omega)
      exact ⟨writer, _, issue, inside, isIssue, isCycle, isDest, last,
        readyAt_of_lastWriter inside isIssue isCycle isDest last⟩

/-! ### Largest ready cycles -/

theorem foldl_max_le {values : List Nat} {start bound : Nat} :
    values.foldl max start ≤ bound ↔ start ≤ bound ∧ ∀ value ∈ values, value ≤ bound := by
  induction values generalizing start with
  | nil => simp
  | cons value values ih =>
      rw [List.foldl_cons, ih, List.forall_mem_cons, Nat.max_le, and_assoc]

theorem le_foldl_max {values : List Nat} {value : Nat} (valueMem : value ∈ values) :
    value ≤ values.foldl max 0 :=
  (foldl_max_le.mp (Nat.le_refl _)).2 value valueMem

theorem lt_foldl_max {values : List Nat} {bound : Nat} :
    bound < values.foldl max 0 ↔ ∃ value ∈ values, bound < value := by
  rw [← Nat.not_le, foldl_max_le]
  push Not
  simp

/-! ### Adding an operation -/

theorem find?_congr {α : Type} {items : List α} {first second : α → Bool}
    (same : ∀ item ∈ items, first item = second item) : items.find? first = items.find? second := by
  induction items with
  | nil => rfl
  | cons item items ih =>
      obtain ⟨head, tail⟩ := List.forall_mem_cons.mp same
      rw [List.find?_cons, List.find?_cons, head, ih tail]

theorem lastWriter_append {issues : List (Issue K)} {count : Nat} (inside : count ≤ issues.length)
    (more : List (Issue K)) (key : K) :
    lastWriter (issues ++ more) count key = lastWriter issues count key := by
  refine find?_congr fun index indexMem => ?_
  have less : index < count := by simpa using indexMem
  rw [List.getElem?_append_left (by omega)]

theorem lt_of_lastWriter {issues : List (Issue K)} {count writer : Nat} {key : K}
    (found : lastWriter issues count key = some writer) : writer < count := by
  simpa using List.mem_of_find?_eq_some found

theorem readyAt_append {issues : List (Issue K)} {cycles : List Nat} {count : Nat}
    (inside : count ≤ issues.length) (sameLength : cycles.length = issues.length)
    (more : List (Issue K)) (later : List Nat) (key : K) :
    readyAt (issues ++ more) (cycles ++ later) count key = readyAt issues cycles count key := by
  unfold readyAt
  rw [lastWriter_append inside]
  cases found : lastWriter issues count key with
  | none => rfl
  | some writer =>
      have less := lt_of_lastWriter found
      simp only [List.getD_eq_getElem?_getD]
      rw [List.getElem?_append_left (by omega), List.getElem?_append_left (by omega)]

theorem issueCycle_append {issues : List (Issue K)} {cycles : List Nat} {count : Nat}
    (inside : count ≤ issues.length) (sameLength : cycles.length = issues.length)
    (more : List (Issue K)) (later : List Nat) (sources : List K) :
    issueCycle (issues ++ more) (cycles ++ later) count sources =
      issueCycle issues cycles count sources := by
  unfold issueCycle
  rw [List.take_append_of_le_length (by omega)]
  congr 2
  exact List.map_congr_left fun key _ => readyAt_append inside sameLength more later key

theorem lastWriter_succ (issues : List (Issue K)) (issue : Issue K) (key : K) :
    lastWriter (issues ++ [issue]) (issues.length + 1) key =
      if issue.dest = some key then some issues.length else lastWriter issues issues.length key := by
  have rest := lastWriter_append (Nat.le_refl issues.length) [issue] key
  unfold lastWriter at rest ⊢
  rw [List.range_succ, List.reverse_append, List.reverse_singleton, List.singleton_append,
    List.find?_cons, List.getElem?_append_right (Nat.le_refl _), Nat.sub_self, rest]
  simp only [List.getElem?_cons_zero, Option.bind_some]
  split <;> simp_all

/-- The ready cycles after one more operation. -/
theorem readyAt_succ {issues : List (Issue K)} {cycles : List Nat}
    (sameLength : cycles.length = issues.length) (issue : Issue K) (cycle : Nat) (key : K) :
    readyAt (issues ++ [issue]) (cycles ++ [cycle]) (issues.length + 1) key =
      if issue.dest = some key then cycle + issue.latency
      else readyAt issues cycles issues.length key := by
  have kept := readyAt_append (Nat.le_refl issues.length) sameLength [issue] [cycle] key
  unfold readyAt at kept ⊢
  rw [lastWriter_succ]
  by_cases writes : issue.dest = some key
  · rw [if_pos writes, if_pos writes]
    simp [List.getD_eq_getElem?_getD, ← sameLength]
  · rw [if_neg writes, if_neg writes]
    rw [lastWriter_append (Nat.le_refl _)] at kept
    exact kept

@[simp]
theorem nextCycle_append (cycles : List Nat) (cycle : Nat) :
    nextCycle (cycles ++ [cycle]) = cycle + 1 := by
  simp [nextCycle]

theorem isSchedule_nil : IsSchedule ([] : List (Issue K)) [] where
  length := rfl
  cycle _ _ found := nomatch found

theorem IsSchedule.append {issues : List (Issue K)} {cycles : List Nat}
    (schedule : IsSchedule issues cycles) (issue : Issue K) :
    IsSchedule (issues ++ [issue])
      (cycles ++ [issueCycle issues cycles issues.length issue.sources]) where
  length := by simp [schedule.length]
  cycle := by
    intro count other found
    by_cases inside : count < issues.length
    · rw [List.getElem?_append_left inside] at found
      rw [List.getElem?_append_left (by rw [schedule.length]; exact inside),
        schedule.cycle count other found, issueCycle_append (by omega) schedule.length]
    · have isLast : count = issues.length := by
        have bound := (List.getElem?_eq_some_iff.mp found).1
        rw [List.length_append, List.length_singleton] at bound
        omega
      subst isLast
      rw [List.getElem?_append_right (Nat.le_refl _), Nat.sub_self] at found
      cases found
      rw [issueCycle_append (Nat.le_refl _) schedule.length]
      simp [← schedule.length]

/-! ### Cycles of a schedule -/

theorem nextCycle_take {cycles : List Nat} {index cycle : Nat}
    (isCycle : cycles[index]? = some cycle) : nextCycle (cycles.take (index + 1)) = cycle + 1 := by
  rw [List.take_add_one, isCycle]
  exact nextCycle_append _ cycle

namespace IsSchedule

variable {issues : List (Issue K)} {cycles : List Nat} {index cycle next : Nat} {issue : Issue K}

/-- The cycle of an operation is the one after the last issue, or the one at which
its last source is ready. -/
theorem cycle_succ (schedule : IsSchedule issues cycles) (isCycle : cycles[index]? = some cycle)
    (isIssue : issues[index + 1]? = some issue) (isNext : cycles[index + 1]? = some next) :
    next = max (cycle + 1)
      ((issue.sources.map (readyAt issues cycles (index + 1))).foldl max 0) := by
  have found := schedule.cycle (index + 1) issue isIssue
  rw [isNext, Option.some.injEq] at found
  rw [found]
  unfold issueCycle
  rw [nextCycle_take isCycle]

theorem exists_cycle (schedule : IsSchedule issues cycles) (isIssue : issues[index]? = some issue) :
    ∃ cycle, cycles[index]? = some cycle := ⟨_, schedule.cycle index issue isIssue⟩

theorem exists_issue (schedule : IsSchedule issues cycles) (isCycle : cycles[index]? = some cycle) :
    ∃ issue, issues[index]? = some issue := by
  have bound := (List.getElem?_eq_some_iff.mp isCycle).1
  rw [schedule.length] at bound
  exact ⟨_, List.getElem?_eq_getElem bound⟩

/-- Every operation takes a cycle of its own. -/
theorem apart (schedule : IsSchedule issues cycles) {later : Nat} (notBefore : index ≤ later)
    (isCycle : cycles[index]? = some cycle) (isNext : cycles[later]? = some next) :
    cycle + (later - index) ≤ next := by
  induction later, notBefore using Nat.le_induction generalizing next with
  | base =>
      rw [Nat.sub_self, Nat.add_zero]
      exact Nat.le_of_eq (Option.some.inj (isCycle.symm.trans isNext))
  | succ later more ih =>
      have bound := (List.getElem?_eq_some_iff.mp isNext).1
      have isBefore : cycles[later]? = some cycles[later] := List.getElem?_eq_getElem (by omega)
      obtain ⟨issue, isIssue⟩ := schedule.exists_issue isNext
      have step := schedule.cycle_succ isBefore isIssue isNext
      have before := ih isBefore
      omega

theorem lt_iff (schedule : IsSchedule issues cycles) {later : Nat}
    (isCycle : cycles[index]? = some cycle) (isNext : cycles[later]? = some next) :
    cycle < next ↔ index < later := by
  constructor
  · intro less
    by_contra notBefore
    have bound := schedule.apart (Nat.le_of_not_lt notBefore) isNext isCycle
    omega
  · intro less
    have bound := schedule.apart (Nat.le_of_lt less) isCycle isNext
    omega

/-- No operation is issued before its sources are ready. -/
theorem ready_le (schedule : IsSchedule issues cycles) {key : K}
    (isIssue : issues[index]? = some issue) (isCycle : cycles[index]? = some cycle)
    (keyMem : key ∈ issue.sources) : readyAt issues cycles index key ≤ cycle := by
  have found := schedule.cycle index issue isIssue
  rw [isCycle, Option.some.injEq] at found
  rw [found]
  refine Nat.le_trans ?_ (Nat.le_max_right _ _)
  exact le_foldl_max (List.mem_map_of_mem keyMem)

end IsSchedule

end VliwCompiler.InOrder
