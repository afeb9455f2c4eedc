import Mathlib.Logic.Function.Basic

/-!
# Failures

Compilation either reports a `CompileError` or aborts: an unmet expectation,
an out-of-bounds index or an arithmetic overflow ends the compiler with a
panic.  A loop that never ends is a failure of its own.
-/

namespace VliwCompiler

/-- Errors reported by the backend. -/
inductive CompileError where
  | notImplemented (message : String)
  | parse (message : String)
  | unsupportedFeature (message : String)
  | optError (message : String)
  | outOfRegisters (vreg : Nat)
  deriving DecidableEq, Repr

/-- How a computation of the backend can fail: with an error, by aborting, or
by not ending. -/
inductive Failure where
  | error (error : CompileError)
  | panic (message : String)
  | diverges
  deriving DecidableEq, Repr

/-- The outcome of a fallible computation. -/
abbrev Outcome (α : Type) := Except Failure α

/-- `Option::expect`. -/
def expect {α : Type} (message : String) : Option α → Outcome α
  | some value => .ok value
  | none => .error (.panic message)

@[simp]
theorem expect_eq_ok {α : Type} {message : String} {value? : Option α} {value : α} :
    expect message value? = .ok value ↔ value? = some value := by
  cases value? <;> simp [expect]

theorem exists_of_isOk {α ε : Type} {result : Except ε α} (succeeds : result.isOk) :
    ∃ value, result = .ok value := by
  cases result with
  | error failure => cases succeeds
  | ok value => exact ⟨value, rfl⟩

theorem bind_eq_ok {α β ε : Type} {first : Except ε α} {next : α → Except ε β} {result : β} :
    first >>= next = .ok result ↔ ∃ value, first = .ok value ∧ next value = .ok result := by
  cases first with
  | error failure => simp [bind, Except.bind]
  | ok value => simp [bind, Except.bind]

theorem bind_eq_error {α β ε : Type} {first : Except ε α} {next : α → Except ε β} {failure : ε} :
    first >>= next = .error failure ↔
      first = .error failure ∨ ∃ value, first = .ok value ∧ next value = .error failure := by
  cases first with
  | error other => simp [bind, Except.bind]
  | ok value => simp [bind, Except.bind]

theorem map_eq_ok {α β ε : Type} {first : Except ε α} {f : α → β} {result : β} :
    first.map f = .ok result ↔ ∃ value, first = .ok value ∧ f value = result := by
  cases first with
  | error failure => simp [Except.map]
  | ok value => simp [Except.map]

end VliwCompiler
