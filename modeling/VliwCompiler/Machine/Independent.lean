import VliwCompiler.Machine.Commute
import Mathlib.Data.List.Perm.Basic
import Mathlib.Data.List.Pairwise

/-!
# Issuing independent actions

Actions that write nothing another one reads or writes can be issued together
or executed one after another in any order: the final state is the same, and
every action reads the same operand values.
-/

namespace VliwCompiler.Machine.Action

variable {Op R : Type} [DecidableEq R] [Zero R]

/-- Neither action writes what the other one reads or writes. -/
structure Independent (state : State R) (left right : Action Op R) : Prop where
  leftUnread : left.Unread right state
  rightUnread : right.Unread left state
  apart : left.Apart right state

theorem Apart.symm {left right : Action Op R} {state : State R} (apart : left.Apart right state) :
    right.Apart left state where
  gpr := fun reg first second => apart.gpr reg second first
  pred := fun reg first second => apart.pred reg second first
  mem := apart.mem.symm

theorem Independent.symm {state : State R} {left right : Action Op R}
    (independent : Independent state left right) : Independent state right left :=
  ⟨independent.rightUnread, independent.leftUnread, independent.apart.symm⟩

section

variable (isa : Isa Op) {state : State R} {actions : List (Action Op R)}
  (independent : actions.Pairwise (Independent state))

include independent

/-- Independent actions executed in order have the effect of issuing them. -/
theorem execAll_eq_issue : execAll isa actions state = issue isa actions state := by
  induction actions using List.reverseRecOn with
  | nil => rfl
  | append_singleton actions action ih =>
      obtain ⟨front, -, last⟩ := List.pairwise_append.mp independent
      have before : ∀ other ∈ actions ++ [], Independent state other action := fun other otherMem =>
        last other (by simpa using otherMem) action (List.mem_singleton_self action)
      rw [execAll_append, ih front,
        issue_insert isa (fun other otherMem => (before other otherMem).leftUnread)
          (fun other otherMem => (before other otherMem).apart), List.append_nil]
      rfl

/-- The order in which writes of independent actions are performed does not
matter. -/
theorem issue_perm {order : List (Action Op R)} (perm : order.Perm actions) :
    issue isa order state = issue isa actions state := by
  have symmetric : Std.Symm (α := Action Op R) (Independent state) :=
    ⟨fun _ _ => Independent.symm⟩
  refine perm.foldl_eq' (fun first firstMem second secondMem current => ?_) state
  by_cases same : first = second
  · rw [same]
  · have apart := (independent.forall (perm.mem_iff.mp firstMem) (perm.mem_iff.mp secondMem)
      same).apart
    exact (effect_apply_comm isa apart current).symm

theorem execAll_perm {order : List (Action Op R)} (perm : order.Perm actions) :
    execAll isa order state = issue isa actions state := by
  rw [execAll_eq_issue isa ((perm.pairwise_iff Independent.symm).mpr independent),
    issue_perm isa independent perm]

/-- Every action reads the values of the state before the first one. -/
theorem reads_of_independent {front back : List (Action Op R)} {action : Action Op R}
    (perm : (front ++ action :: back).Perm actions) :
    action.sources.map (·.read (execAll isa front state)) = action.sources.map (·.read state) := by
  have inOrder := (perm.pairwise_iff Independent.symm).mpr independent
  obtain ⟨isFront, -, across⟩ := List.pairwise_append.mp inOrder
  rw [execAll_eq_issue isa isFront]
  have agree := agree_issue isa fun writer writerMem =>
    (across writer writerMem action List.mem_cons_self).leftUnread
  exact List.map_congr_left fun source sourceMem => (agree.sources source sourceMem).symm

end

end VliwCompiler.Machine.Action
