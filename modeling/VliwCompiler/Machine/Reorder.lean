import Mathlib.Data.List.Sort
import Mathlib.Data.List.Perm.Basic

/-!
# Reordering commuting steps

Steps are numbered by their position in a reference order.  A list of step
numbers in which every inverted pair commutes computes the same state as the
sorted list: insertion sort only ever exchanges an inverted pair.
-/

namespace VliwCompiler.Machine

variable {S : Type} (run : Nat → S → S)

/-- Run numbered steps from left to right. -/
def runOrder (order : List Nat) (state : S) : S :=
  order.foldl (fun current index => run index current) state

/-- The two steps can be exchanged in every state. -/
def StepsCommute (left right : Nat) : Prop :=
  ∀ state, run right (run left state) = run left (run right state)

variable {run}

theorem runOrder_cons (index : Nat) (order : List Nat) (state : S) :
    runOrder run (index :: order) state = runOrder run order (run index state) := rfl

/-- A step moves behind the smaller steps it commutes with. -/
theorem runOrder_orderedInsert {index : Nat} {order : List Nat}
    (commute : ∀ other ∈ order, index ≤ other ∨ StepsCommute run index other) (state : S) :
    runOrder run (order.orderedInsert (· ≤ ·) index) state =
      runOrder run (index :: order) state := by
  induction order generalizing state with
  | nil => rfl
  | cons head tail ih =>
      rw [List.orderedInsert_cons]
      by_cases below : index ≤ head
      · rw [if_pos below]
      · have exchange := (commute head List.mem_cons_self).resolve_left below
        rw [if_neg below, runOrder_cons,
          ih (fun other otherMem => commute other (List.mem_cons_of_mem _ otherMem)),
          runOrder_cons, runOrder_cons, runOrder_cons, exchange]

/-- A list in which every inverted pair commutes runs like its sorted form. -/
theorem runOrder_insertionSort {order : List Nat}
    (pairwise : order.Pairwise fun left right => left ≤ right ∨ StepsCommute run left right)
    (state : S) :
    runOrder run (order.insertionSort (· ≤ ·)) state = runOrder run order state := by
  induction order generalizing state with
  | nil => rfl
  | cons head tail ih =>
      rw [List.pairwise_cons] at pairwise
      have headCommutes : ∀ other ∈ tail.insertionSort (· ≤ ·),
          head ≤ other ∨ StepsCommute run head other := by
        intro other otherMem
        exact pairwise.1 other ((List.perm_insertionSort (· ≤ ·) tail).mem_iff.mp otherMem)
      rw [List.insertionSort_cons, runOrder_orderedInsert headCommutes, runOrder_cons,
        ih pairwise.2, runOrder_cons]

/-- A permutation of `0, …, n - 1` in which every inverted pair commutes runs
like the reference order. -/
theorem runOrder_eq_range {order : List Nat} {n : Nat} (perm : order.Perm (List.range n))
    (pairwise : order.Pairwise fun left right => left ≤ right ∨ StepsCommute run left right)
    (state : S) : runOrder run order state = runOrder run (List.range n) state := by
  have sorted : order.insertionSort (· ≤ ·) = List.range n := by
    have sameElements := (List.perm_insertionSort (· ≤ ·) order).trans perm
    refine sameElements.eq_of_pairwise ?_ (List.pairwise_insertionSort (· ≤ ·) order)
      List.pairwise_le_range
    intro left right _ _ forward backward
    exact Nat.le_antisymm forward backward
  rw [← runOrder_insertionSort pairwise, sorted]

end VliwCompiler.Machine
