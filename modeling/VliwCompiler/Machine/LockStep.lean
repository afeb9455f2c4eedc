import Mathlib.Logic.Function.Basic
import Mathlib.Data.Option.Basic

/-!
# Lock-step simulation

Two deterministic systems are compared through what they show along their
runs.  The abstract system shows a label in every state; the concrete system
shows one only in some of its states and may take any number of silent steps in
between.  When every abstract step is matched by a silent path to a related
state, and every abstract halt by a silent path to a halt, both systems show
the same labels in the same order.
-/

namespace VliwCompiler.Machine

variable {A C O : Type}

/-- What the given number of states of a run show, as far as the run goes. -/
def visits (step : C → Option C) (observe : C → Option O) : Nat → C → List O
  | 0, _ => []
  | fuel + 1, config =>
      (observe config).toList ++
        match step config with
        | none => []
        | some next => visits step observe fuel next

/-- Two systems show the same labels: every finite run of either one is matched
by a finite run of the other one. -/
def SameVisits (step : C → Option C) (observe : C → Option O) (config : C)
    (step' : A → Option A) (observe' : A → Option O) (config' : A) : Prop :=
  (∀ fuel, ∃ fuel', visits step observe fuel config = visits step' observe' fuel' config') ∧
    ∀ fuel', ∃ fuel, visits step' observe' fuel' config' = visits step observe fuel config

/-- Systems that show what a third one shows, show the same. -/
theorem SameVisits.trans_symm {B : Type} {step : C → Option C} {observe : C → Option O} {config : C}
    {step' : A → Option A} {observe' : A → Option O} {config' : A} {other : B → Option B}
    {observeOther : B → Option O} {configOther : B}
    (left : SameVisits step observe config step' observe' config')
    (right : SameVisits other observeOther configOther step' observe' config') :
    SameVisits step observe config other observeOther configOther := by
  constructor
  · intro fuel
    obtain ⟨middle, shown⟩ := left.1 fuel
    obtain ⟨last, shownLast⟩ := right.2 middle
    exact ⟨last, shown.trans shownLast⟩
  · intro fuel
    obtain ⟨middle, shown⟩ := right.1 fuel
    obtain ⟨last, shownLast⟩ := left.2 middle
    exact ⟨last, shown.trans shownLast⟩

section Quiet

variable (step : C → Option C) (observe : C → Option O)

/-- At least one step, with nothing shown strictly in between. -/
inductive Quiet : C → C → Prop where
  | single {config next : C} (taken : step config = some next) : Quiet config next
  | head {config middle last : C} (taken : step config = some middle)
      (hidden : observe middle = none) (rest : Quiet middle last) : Quiet config last

/-- The run halts without showing anything more. -/
inductive QuietHalt : C → Prop where
  | now {config : C} (halted : step config = none) : QuietHalt config
  | later {config next : C} (taken : step config = some next) (hidden : observe next = none)
      (rest : QuietHalt next) : QuietHalt config

variable {step observe}

theorem Quiet.trans {first middle last : C} (left : Quiet step observe first middle)
    (hidden : observe middle = none) (right : Quiet step observe middle last) :
    Quiet step observe first last := by
  induction left with
  | single taken => exact .head taken hidden right
  | head taken hiddenNext _ ih => exact .head taken hiddenNext (ih hidden right)

theorem Quiet.halt {first middle : C} (left : Quiet step observe first middle)
    (hidden : observe middle = none) (right : QuietHalt step observe middle) :
    QuietHalt step observe first := by
  induction left with
  | single taken => exact .later taken hidden right
  | head taken hiddenNext _ ih => exact .later taken hiddenNext (ih hidden right)

/-- A run either stays on a silent path or passes its end. -/
theorem Quiet.visits_cases {first last : C} (path : Quiet step observe first last) (fuel : Nat) :
    visits step observe (fuel + 1) first = (observe first).toList ∨
      ∃ rest ≤ fuel, visits step observe (fuel + 1) first =
        (observe first).toList ++ visits step observe rest last := by
  induction path generalizing fuel with
  | single taken => exact .inr ⟨fuel, Nat.le_refl fuel, by simp [visits, taken]⟩
  | head taken hidden _ ih =>
      cases fuel with
      | zero =>
          left
          simp [visits, taken]
      | succ fuel =>
          rcases ih fuel with stays | ⟨rest, less, passes⟩
          · left
            rw [visits, taken]
            simp only [stays, hidden, Option.toList_none, List.append_nil]
          · right
            refine ⟨rest, Nat.le_succ_of_le less, ?_⟩
            rw [visits, taken]
            simp only [passes, hidden, Option.toList_none, List.nil_append]

/-- Every run from the end of a silent path extends to one from its start. -/
theorem Quiet.exists_visits {first last : C} (path : Quiet step observe first last)
    (fuel : Nat) :
    ∃ total, visits step observe (total + 1) first =
      (observe first).toList ++ visits step observe fuel last := by
  induction path with
  | single taken => exact ⟨fuel, by simp [visits, taken]⟩
  | head taken hidden _ ih =>
      obtain ⟨total, shown⟩ := ih
      refine ⟨total + 1, ?_⟩
      rw [visits, taken]
      simp only [shown, hidden, Option.toList_none, List.nil_append]

theorem QuietHalt.visits_eq {config : C} (halts : QuietHalt step observe config) (fuel : Nat) :
    visits step observe (fuel + 1) config = (observe config).toList := by
  induction halts generalizing fuel with
  | now halted => simp [visits, halted]
  | later taken hidden _ ih =>
      cases fuel with
      | zero => simp [visits, taken]
      | succ fuel =>
          rw [visits, taken]
          simp only [ih fuel, hidden, Option.toList_none, List.append_nil]

/-- A silent path from a state that shows nothing can be left out. -/
theorem SameVisits.of_quiet {step' : A → Option A} {observe' : A → Option O} {config' : A}
    {first last : C} (same : SameVisits step observe last step' observe' config')
    (path : Quiet step observe first last) (hidden : observe first = none) :
    SameVisits step observe first step' observe' config' := by
  constructor
  · intro fuel
    cases fuel with
    | zero => exact ⟨0, rfl⟩
    | succ fuel =>
        rcases path.visits_cases fuel with stays | ⟨rest, -, passes⟩
        · exact ⟨0, by rw [stays, hidden]; rfl⟩
        · obtain ⟨fuel', shown⟩ := same.1 rest
          exact ⟨fuel', by rw [passes, hidden, ← shown]; rfl⟩
  · intro fuel'
    obtain ⟨fuel, shown⟩ := same.2 fuel'
    obtain ⟨total, passes⟩ := path.exists_visits fuel
    exact ⟨total + 1, by rw [passes, hidden, shown]; rfl⟩

end Quiet

/-- A relation under which the concrete system follows the abstract one. -/
structure LockStep (step : C → Option C) (observe : C → Option O) (abstractStep : A → Option A)
    (label : A → O) (related : A → C → Prop) : Prop where
  shown : ∀ {a c}, related a c → observe c = some (label a)
  follows : ∀ {a c a'}, related a c → abstractStep a = some a' →
    ∃ c', Quiet step observe c c' ∧ related a' c'
  halts : ∀ {a c}, related a c → abstractStep a = none → QuietHalt step observe c

namespace LockStep

variable {step : C → Option C} {observe : C → Option O} {abstractStep : A → Option A}
  {label : A → O} {related : A → C → Prop}

theorem exists_abstract_visits
    (simulation : LockStep step observe abstractStep label related) {a : A} {c : C}
    (start : related a c) (fuel : Nat) :
    ∃ fuel', visits step observe fuel c = visits abstractStep (some ∘ label) fuel' a := by
  induction fuel using Nat.strongRecOn generalizing a c with
  | ind fuel ih =>
      cases fuel with
      | zero => exact ⟨0, rfl⟩
      | succ fuel =>
          have shown := simulation.shown start
          cases next : abstractStep a with
          | none =>
              refine ⟨1, ?_⟩
              rw [(simulation.halts start next).visits_eq, shown]
              simp [visits, next]
          | some a' =>
              obtain ⟨c', path, relatedNext⟩ := simulation.follows start next
              rcases path.visits_cases fuel with stays | ⟨rest, less, passes⟩
              · refine ⟨1, ?_⟩
                rw [stays, shown]
                simp [visits, next]
              · obtain ⟨fuel', same⟩ := ih rest (Nat.lt_succ_of_le less) relatedNext
                refine ⟨fuel' + 1, ?_⟩
                rw [passes, same, shown]
                simp [visits, next]

theorem exists_concrete_visits
    (simulation : LockStep step observe abstractStep label related) {a : A} {c : C}
    (start : related a c) (fuel : Nat) :
    ∃ fuel', visits abstractStep (some ∘ label) fuel a = visits step observe fuel' c := by
  induction fuel generalizing a c with
  | zero => exact ⟨0, rfl⟩
  | succ fuel ih =>
      have shown := simulation.shown start
      cases next : abstractStep a with
      | none =>
          refine ⟨1, ?_⟩
          rw [(simulation.halts start next).visits_eq, shown]
          simp [visits, next]
      | some a' =>
          obtain ⟨c', path, relatedNext⟩ := simulation.follows start next
          obtain ⟨rest, same⟩ := ih relatedNext
          obtain ⟨total, passes⟩ := path.exists_visits rest
          exact ⟨total + 1, by rw [passes, ← same, shown]; simp [visits, next]⟩

/-- Related states show the same labels in the same order. -/
theorem sameVisits (simulation : LockStep step observe abstractStep label related) {a : A} {c : C}
    (start : related a c) : SameVisits step observe c abstractStep (some ∘ label) a :=
  ⟨fun fuel => simulation.exists_abstract_visits start fuel,
    fun fuel => simulation.exists_concrete_visits start fuel⟩

end LockStep

end VliwCompiler.Machine
