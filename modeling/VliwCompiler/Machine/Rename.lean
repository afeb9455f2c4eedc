import VliwCompiler.Machine.Commute

/-!
# Renaming registers

An injective renaming that fixes the zero register embeds one machine in
another.  Executing a renamed action and then looking at the renamed registers
is the same as executing the action on them.
-/

namespace VliwCompiler.Machine

variable {Op R S : Type}

/-- Rename the register of an operand. -/
def Source.map (rename : S → R) : Source S → Source R
  | .gpr reg => .gpr (rename reg)
  | .pred reg => .pred (rename reg)
  | .imm value => .imm value

/-- Rename the registers of an action. -/
def Action.map (rename : S → R) : Action Op S → Action Op R
  | .compute op dst srcs => .compute op (dst.map rename) (srcs.map (·.map rename))
  | .test op dst srcs => .test op (dst.map rename) (srcs.map (·.map rename))
  | .load op width dst base offset => .load op width (dst.map rename) (rename base) offset
  | .store width base offset data => .store width (rename base) offset (data.map rename)
  | .acquire op dst srcs => .acquire op (dst.map rename) (srcs.map (·.map rename))
  | .release op srcs => .release op (srcs.map (·.map rename))
  | .skip => .skip

/-- The registers seen through a renaming. -/
def State.comap (rename : S → R) (state : State R) : State S where
  gpr := state.gpr ∘ rename
  pred := state.pred ∘ rename
  mem := state.mem

/-- Rename the registers written by an effect. -/
def Effect.map (rename : S → R) (effect : Effect S) : Effect R where
  gpr := effect.gpr.map fun write => (rename write.1, write.2)
  pred := effect.pred.map fun write => (rename write.1, write.2)
  mem := effect.mem

section

variable [DecidableEq R] [Zero R] [DecidableEq S] [Zero S] {rename : S → R}

theorem State.readGpr_comap (injective : Function.Injective rename) (zero : rename 0 = 0)
    (state : State R) (reg : S) :
    (state.comap rename).readGpr reg = state.readGpr (rename reg) := by
  unfold State.readGpr
  by_cases isZero : reg = 0
  · rw [if_pos isZero, isZero, zero, if_pos rfl]
  · have renamed : rename reg ≠ 0 := fun same => isZero (injective (same.trans zero.symm))
    rw [if_neg isZero, if_neg renamed]
    rfl

theorem Source.read_map (injective : Function.Injective rename) (zero : rename 0 = 0)
    (state : State R) (source : Source S) :
    (source.map rename).read state = source.read (state.comap rename) := by
  cases source with
  | gpr reg => exact congrArg Datum.word (State.readGpr_comap injective zero state reg).symm
  | pred reg => rfl
  | imm value => rfl

theorem Effect.apply_map (injective : Function.Injective rename) (zero : rename 0 = 0)
    (effect : Effect S) (state : State R) :
    ((effect.map rename).apply state).comap rename = effect.apply (state.comap rename) := by
  have gprEq : ((effect.map rename).apply state).gpr ∘ rename =
      (effect.apply (state.comap rename)).gpr := by
    unfold Effect.apply Effect.map
    cases effect.gpr with
    | none => rfl
    | some write =>
        by_cases isZero : write.1 = 0
        · simp only [Option.map_some, isZero, zero, if_true]
          rfl
        · have renamed : rename write.1 ≠ 0 := fun same =>
            isZero (injective (same.trans zero.symm))
          simp only [Option.map_some, if_neg renamed, if_neg isZero]
          exact Function.update_comp_eq_of_injective _ injective _ _
  have predEq : ((effect.map rename).apply state).pred ∘ rename =
      (effect.apply (state.comap rename)).pred := by
    unfold Effect.apply Effect.map
    cases effect.pred with
    | none => rfl
    | some write => exact Function.update_comp_eq_of_injective _ injective _ _
  exact State.ext gprEq predEq rfl

theorem Action.effect_map (isa : Isa Op) (injective : Function.Injective rename)
    (zero : rename 0 = 0) (action : Action Op S) (state : State R) :
    (action.map rename).effect isa state = (action.effect isa (state.comap rename)).map rename := by
  have readAll : ∀ srcs : List (Source S),
      (srcs.map (·.map rename)).map (·.read state) = srcs.map (·.read (state.comap rename)) := by
    intro srcs
    rw [List.map_map]
    exact List.map_congr_left fun source _ => Source.read_map injective zero state source
  cases action with
  | compute op dst srcs =>
      simp only [Action.map, Action.effect, Effect.map, readAll]
      cases dst <;> rfl
  | test op dst srcs =>
      simp only [Action.map, Action.effect, Effect.map, readAll]
      cases dst <;> rfl
  | load op width dst base offset =>
      simp only [Action.map, Action.effect, Effect.map, State.readGpr_comap injective zero]
      cases dst <;> rfl
  | store width base offset data =>
      simp only [Action.map, Action.effect, Effect.map, State.readGpr_comap injective zero,
        Source.read_map injective zero]
      rfl
  | acquire op dst srcs =>
      simp only [Action.map, Action.effect, Effect.map, readAll]
      cases dst <;> rfl
  | release op srcs =>
      simp only [Action.map, Action.effect, Effect.map, readAll]
      rfl
  | skip => rfl

/-- Executing a renamed action, seen through the renaming. -/
theorem Action.exec_map (isa : Isa Op) (injective : Function.Injective rename)
    (zero : rename 0 = 0) (action : Action Op S) (state : State R) :
    ((action.map rename).exec isa state).comap rename =
      action.exec isa (state.comap rename) := by
  unfold Action.exec
  rw [Action.effect_map isa injective zero, Effect.apply_map injective zero]

theorem Action.execAll_map (isa : Isa Op) (injective : Function.Injective rename)
    (zero : rename 0 = 0) (actions : List (Action Op S)) (state : State R) :
    (Action.execAll isa (actions.map (·.map rename)) state).comap rename =
      Action.execAll isa actions (state.comap rename) := by
  induction actions generalizing state with
  | nil => rfl
  | cons action rest ih =>
      have first := Action.exec_map isa injective zero action state
      have others := ih ((action.map rename).exec isa state)
      rw [first] at others
      exact others

theorem State.writeGpr_comap (injective : Function.Injective rename) (zero : rename 0 = 0)
    (state : State R) (reg : S) (value : Word) :
    (state.writeGpr (rename reg) value).comap rename =
      (state.comap rename).writeGpr reg value := by
  unfold State.writeGpr
  by_cases isZero : reg = 0
  · rw [if_pos isZero, isZero, zero, if_pos rfl]
  · have renamed : rename reg ≠ 0 := fun same => isZero (injective (same.trans zero.symm))
    rw [if_neg isZero, if_neg renamed]
    exact State.ext (Function.update_comp_eq_of_injective _ injective _ _) rfl rfl

end

end VliwCompiler.Machine
