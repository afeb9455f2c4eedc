import VliwCompiler.Machine.LockStep
import Mathlib.Logic.Relation

/-!
# Forward simulation

A system follows another one when every step of the other is matched by steps to
a related state.  Whole runs are followed then, and simulations compose, so that
the stages of a compiler can be proved right one by one.
-/

namespace VliwCompiler.Machine

variable {A B C O : Type}

/-- Steps lead from one state to another. -/
def Reaches (step : C → Option C) : C → C → Prop :=
  Relation.ReflTransGen fun config next => step config = some next

namespace Reaches

variable {step : C → Option C} {first middle last : C}

theorem refl (config : C) : Reaches step config config := Relation.ReflTransGen.refl

theorem trans (left : Reaches step first middle) (right : Reaches step middle last) :
    Reaches step first last := Relation.ReflTransGen.trans left right

theorem single (taken : step first = some last) : Reaches step first last :=
  Relation.ReflTransGen.single taken

theorem head (taken : step first = some middle) (rest : Reaches step middle last) :
    Reaches step first last := Relation.ReflTransGen.head taken rest

/-- A silent path leads somewhere. -/
theorem of_quiet {observe : C → Option O} (path : Quiet step observe first last) :
    Reaches step first last := by
  induction path with
  | single taken => exact .single taken
  | head taken _ _ ih => exact ih.head taken

end Reaches

/-- Steps of the first system are followed by the second one. -/
def Forward (step : A → Option A) (step' : B → Option B) (related : A → B → Prop) : Prop :=
  ∀ config config' next, related config config' → step config = some next →
    ∃ next', Reaches step' config' next' ∧ related next next'

namespace Forward

variable {step : A → Option A} {step' : B → Option B} {step'' : C → Option C}
  {related : A → B → Prop} {related' : B → C → Prop}

/-- Whole runs are followed. -/
theorem reaches (forward : Forward step step' related) {start last : A} {start' : B}
    (atStart : related start start') (run : Reaches step start last) :
    ∃ last', Reaches step' start' last' ∧ related last last' := by
  induction run with
  | refl => exact ⟨start', .refl start', atStart⟩
  | tail _ taken ih =>
      obtain ⟨middle', front, isRelated⟩ := ih
      obtain ⟨last', rest, isRelated⟩ := forward _ _ _ isRelated taken
      exact ⟨last', front.trans rest, isRelated⟩

/-- Stages compose. -/
theorem comp (left : Forward step step' related) (right : Forward step' step'' related') :
    Forward step step'' (Relation.Comp related related') := by
  rintro config config'' next ⟨config', isLeft, isRight⟩ taken
  obtain ⟨next', run, isLeft⟩ := left _ _ _ isLeft taken
  obtain ⟨next'', run, isRight⟩ := right.reaches isRight run
  exact ⟨next'', run, next', isLeft, isRight⟩

end Forward

/-- Lock-step simulation is forward simulation. -/
theorem LockStep.forward {step : C → Option C} {observe : C → Option O}
    {abstractStep : A → Option A} {label : A → O} {related : A → C → Prop}
    (simulation : LockStep step observe abstractStep label related) :
    Forward abstractStep step related := by
  intro config config' next isRelated taken
  obtain ⟨next', path, isRelated⟩ := simulation.follows isRelated taken
  exact ⟨next', .of_quiet path, isRelated⟩

end VliwCompiler.Machine
