import VliwCompiler.Mir.Layout

/-!
# Activations

A run of a module together with its pending calls.  Every call begins an
activation of the called function, and the activation is to return to the block
after the call.
-/

namespace VliwCompiler.Mir

open Asm (Opcode)
open Machine

/-- The block after a block in the layout of its function. -/
def BlockId.next (id : BlockId) : BlockId := ⟨id.func, id.block + 1⟩

/-- A module in execution, and the blocks to be resumed after its pending calls,
innermost first. -/
structure Execution where
  config : Config
  pending : List BlockId

/-- The pending calls after a terminator.  A return without a pending call ends
the run. -/
def pendingAfter (id : BlockId) (pending : List BlockId) : Terminator → Option (List BlockId)
  | .directCall _ _ => some (id.next :: pending)
  | .ret => pending.tail?
  | .branch _ _ | .jump _ => some pending

/-- The return address of the innermost activation; the outermost one was entered
with the return address `outer`. -/
def returnAddress (link : BlockId → Word) (outer : Word) : List BlockId → Word
  | [] => outer
  | cont :: _ => link cont

namespace Execution

variable (functions : List Function) (isa : Isa Opcode) (link : BlockId → Word)

/-- Execute one block. -/
def advance (execution : Execution) : Option Execution :=
  execution.config.block.bind fun id =>
    (blockAt functions id).bind fun block =>
      (step functions isa link execution.config).bind fun config =>
        (pendingAfter id execution.pending block.terminator).map (⟨config, ·⟩)

/-- Execute a number of blocks. -/
def run : Nat → Execution → Option Execution
  | 0, execution => some execution
  | steps + 1, execution => (run steps execution).bind (advance functions isa link)

/-- The function `name` entered in a state. -/
def enter (name : String) (state : State Reg) : Option Execution :=
  (entryBlock functions name).map fun id => ⟨⟨some id, state⟩, []⟩

variable {functions isa link}

theorem advance_eq_some {execution after : Execution} :
    advance functions isa link execution = some after ↔ ∃ id block state,
      execution.config.block = some id ∧ blockAt functions id = some block ∧
      execSyllables isa block.syllables execution.config.state = some state ∧
      follow functions link id state block.terminator = some after.config ∧
      pendingAfter id execution.pending block.terminator = some after.pending := by
  unfold advance step
  constructor
  · intro advanced
    obtain ⟨id, isId, advanced⟩ := Option.bind_eq_some_iff.mp advanced
    obtain ⟨block, isBlock, advanced⟩ := Option.bind_eq_some_iff.mp advanced
    obtain ⟨config, stepped, advanced⟩ := Option.bind_eq_some_iff.mp advanced
    obtain ⟨pending, isPending, rfl⟩ := Option.map_eq_some_iff.mp advanced
    rw [isId, Option.bind_some, isBlock, Option.bind_some] at stepped
    obtain ⟨state, executed, followed⟩ := Option.bind_eq_some_iff.mp stepped
    exact ⟨id, block, state, isId, isBlock, executed, followed, isPending⟩
  · rintro ⟨id, block, state, isId, isBlock, executed, followed, isPending⟩
    simp [isId, isBlock, executed, followed, isPending]

/-- What holds at the start and is kept by every step that meets a condition holds
after every run whose steps meet the condition. -/
theorem run_induct {motive condition : Execution → Prop} {start : Execution}
    (begins : motive start)
    (keeps : ∀ execution after, motive execution → condition execution →
      advance functions isa link execution = some after → motive after)
    {steps : Nat} {final : Execution} (ran : run functions isa link steps start = some final)
    (meets : ∀ k < steps, ∀ execution, run functions isa link k start = some execution →
      condition execution) : motive final := by
  induction steps generalizing final with
  | zero =>
      obtain rfl := Option.some.inj ran
      exact begins
  | succ steps ih =>
      obtain ⟨before, reached, advanced⟩ := Option.bind_eq_some_iff.mp ran
      exact keeps before final
        (ih reached fun k less => meets k (Nat.lt_succ_of_lt less))
        (meets steps (Nat.lt_succ_self steps) before reached) advanced

end Execution

/-- After the syllables of the block about to be executed the link register holds
the return address of the activation, and a return resumes the block after the
call that began it. -/
structure ReturnsHome (functions : List Function) (isa : Isa Opcode) (link : BlockId → Word)
    (outer : Word) (execution : Execution) : Prop where
  address : ∀ id block state, execution.config.block = some id →
    blockAt functions id = some block →
      execSyllables isa block.syllables execution.config.state = some state →
        state.readGpr (.preg linkReg) = returnAddress link outer execution.pending
  ret : ∀ id block after cont rest, execution.config.block = some id →
    blockAt functions id = some block → block.terminator = .ret →
      step functions isa link execution.config = some after →
        execution.pending = cont :: rest → after.block = some cont

/-- Two blocks of a module never share a return address. -/
def LinksDistinct (functions : List Function) (link : BlockId → Word) : Prop :=
  ∀ first ∈ blockIds functions, ∀ second ∈ blockIds functions, link first = link second →
    first = second

instance (functions : List Function) (link : BlockId → Word) :
    Decidable (LinksDistinct functions link) :=
  inferInstanceAs (Decidable (∀ first ∈ blockIds functions, ∀ second ∈ blockIds functions,
    link first = link second → first = second))

theorem returnBlock_link {functions : List Function} {link : BlockId → Word}
    (distinct : LinksDistinct functions link) {id : BlockId} (idMem : id ∈ blockIds functions) :
    returnBlock functions link (link id) = some id := by
  have found : (returnBlock functions link (link id)).isSome := by
    unfold returnBlock
    rw [List.find?_isSome]
    exact ⟨id, idMem, by simp⟩
  obtain ⟨other, isOther⟩ := Option.isSome_iff_exists.mp found
  have sameLink : link other = link id := by simpa using List.find?_some isOther
  rw [isOther, distinct other (List.mem_of_find?_eq_some isOther) id idMem sameLink]

end VliwCompiler.Mir
