import VliwCompiler.Mir.Syntax
import VliwCompiler.Asm.Semantics
import VliwCompiler.Regs

/-!
# Meaning of MIR

A syllable denotes a machine action over MIR registers.  A module of functions
is run block by block: executing a block performs its syllables in order and
then follows its terminator.  Return addresses are words; `link` gives the
return address of every block, `call` stores that of the continuation in `r31`
and `ret` resumes at the block whose address `r31` holds, leaving the module
when there is none.  Labels are resolved in the function they are used in
first.
-/

namespace VliwCompiler.Mir

open Asm (Opcode)
open Machine

namespace Value

/-- A value read as an operand of the given register class. -/
def source (predSrc : Bool) : Value → Option (Source Reg)
  | .reg register => some (if predSrc then .pred register else .gpr register)
  | .imm value => some (.imm value)
  | .stack _ => none

/-- The base register and displacement addressed by a base value.  Absolute
addresses are based on the zero register. -/
def address (base : Value) (offset : Word) : Reg × Word :=
  match base with
  | .reg register => (register, offset)
  | .imm value => (0, value + offset)
  | .stack value => (0, value + offset)

end Value

/-- The address of a load: a base with an optional immediate displacement. -/
def loadAddress : List Value → Option (Reg × Word)
  | [base] => some (base.address 0)
  | [base, .imm offset] => some (base.address offset)
  | _ => none

/-- The address and data of a store. -/
def storeOperands : List Value → Option ((Reg × Word) × Value)
  | [base, data] => some (base.address 0, data)
  | [base, .imm offset, data] => some (base.address offset, data)
  | _ => none

theorem loadAddress_shape : ∀ {srcs : List Value} {address : Reg × Word},
    loadAddress srcs = some address → (∃ base, srcs = [base] ∧ address = base.address 0) ∨
      ∃ base offset, srcs = [base, .imm offset] ∧ address = base.address offset
  | [base], _, found => .inl ⟨base, rfl, (Option.some.inj found).symm⟩
  | [base, .imm offset], _, found => .inr ⟨base, offset, rfl, (Option.some.inj found).symm⟩

theorem storeOperands_shape : ∀ {srcs : List Value} {operands : (Reg × Word) × Value},
    storeOperands srcs = some operands →
      (∃ base data, srcs = [base, data] ∧ operands = (base.address 0, data)) ∨
        ∃ base offset data, srcs = [base, .imm offset, data] ∧
          operands = (base.address offset, data)
  | [base, data], _, found => .inl ⟨base, data, rfl, (Option.some.inj found).symm⟩
  | [base, .imm offset, data], _, found =>
      .inr ⟨base, offset, data, rfl, (Option.some.inj found).symm⟩

/-- Only comparisons and predicate operations read predicate registers. -/
theorem predicateSources_of_behavior {opcode : Opcode} (isOther : opcode.behavior ≠ .test) :
    predicateSources opcode = false := by
  revert isOther
  cases opcode <;> simp [Opcode.behavior, predicateSources]

/-- The machine action of a MIR syllable. -/
def Syllable.action (syllable : Syllable) : Option (Action Opcode Reg) :=
  let scalars := syllable.srcs.mapM (Value.source (predicateSources syllable.opcode))
  match syllable.opcode.behavior with
  | .compute => scalars.map (.compute syllable.opcode syllable.dst)
  | .test => scalars.map (.test syllable.opcode syllable.dst)
  | .load width =>
      (loadAddress syllable.srcs).map fun address =>
        .load syllable.opcode width syllable.dst address.1 address.2
  | .store width =>
      (storeOperands syllable.srcs).bind fun operands =>
        (operands.2.source false).map (.store width operands.1.1 operands.1.2)
  | .acquire => scalars.map (.acquire syllable.opcode syllable.dst)
  | .release => scalars.map (.release syllable.opcode)
  | .inert => scalars.map fun _ => .skip
  | .control => none

/-- The operands fit the opcode, and there is a destination exactly when the
opcode has one. -/
def Syllable.WellFormed (syllable : Syllable) : Prop :=
  syllable.action.isSome ∧
    (syllable.dst.isSome ↔ syllable.opcode.writesGpr ∨ syllable.opcode.writesPred)

instance (syllable : Syllable) : Decidable syllable.WellFormed :=
  inferInstanceAs (Decidable (syllable.action.isSome ∧
    (syllable.dst.isSome ↔ syllable.opcode.writesGpr ∨ syllable.opcode.writesPred)))

/-- Execute syllables in order; there is no result when one has no meaning. -/
def execSyllables (isa : Isa Opcode) (syllables : List Syllable) (state : State Reg) :
    Option (State Reg) :=
  (syllables.mapM Syllable.action).map fun actions => Action.execAll isa actions state

theorem execSyllables_append (isa : Isa Opcode) (first second : List Syllable)
    (state : State Reg) :
    execSyllables isa (first ++ second) state =
      (execSyllables isa first state).bind (execSyllables isa second) := by
  unfold execSyllables
  rw [List.mapM_append]
  cases first.mapM Syllable.action with
  | none => rfl
  | some left =>
      cases second.mapM Syllable.action with
      | none => rfl
      | some right => simp [Action.execAll, List.foldl_append]

theorem execSyllables_singleton (isa : Isa Opcode) (syllable : Syllable) (state : State Reg) :
    execSyllables isa [syllable] state = syllable.action.map (·.exec isa state) := by
  unfold execSyllables
  cases denotes : syllable.action with
  | none => simp [denotes]
  | some action => simp [denotes, Action.execAll]

/-- A block of a module: function index and block index. -/
structure BlockId where
  func : Nat
  block : Nat
  deriving DecidableEq, Repr

/-- A module about to execute a block, or one whose execution has left it. -/
@[ext]
structure Config where
  block : Option BlockId
  state : State Reg

section Control

variable (functions : List Function)

/-- The block with the given identifier. -/
def blockAt (id : BlockId) : Option Block :=
  functions[id.func]?.bind fun function => function.blocks[id.block]?

/-- All blocks of a module in layout order. -/
def blockIds : List BlockId :=
  functions.zipIdx.flatMap fun (function, func) =>
    (List.range function.blocks.length).map (⟨func, ·⟩)

/-- The labels of a block: its own and, for an entry block, the function's
name. -/
def blockLabels (id : BlockId) : List String :=
  ((if id.block = 0 then functions[id.func]?.map (·.name) else none).toList) ++
    ((blockAt functions id).map (·.label)).toList

/-- The first block of the module with the given label. -/
def namedBlock (name : String) : Option BlockId :=
  (blockIds functions).find? fun id => name ∈ blockLabels functions id

/-- The block of a function with the given label. -/
def labelledBlock (func : Nat) (label : String) : Option BlockId :=
  functions[func]?.bind fun function =>
    (function.blocks.findIdx? (·.label = label)).map (⟨func, ·⟩)

/-- The entry block of the function with the given name. -/
def entryBlock (name : String) : Option BlockId :=
  (functions.findIdx? fun function => function.name = name ∧ function.blocks ≠ []).map (⟨·, 0⟩)

/-- The target of a branch or jump: a block of the same function, or else
whatever the label names in the module. -/
def jumpTarget (func : Nat) (label : String) : Option BlockId :=
  (labelledBlock functions func label).or (namedBlock functions label)

/-- The target of a call: a function, or else whatever the label names in the
module. -/
def callTarget (name : String) : Option BlockId :=
  (entryBlock functions name).or (namedBlock functions name)

/-- The block resumed by a return to `address`. -/
def returnBlock (link : BlockId → Word) (address : Word) : Option BlockId :=
  (blockIds functions).find? fun id => link id = address

/-- The next block of the layout within the same function. -/
def fallThrough (id : BlockId) : Option BlockId :=
  let next : BlockId := ⟨id.func, id.block + 1⟩
  (blockAt functions next).map fun _ => next

/-- Follow a terminator after the syllables of block `id`. -/
def follow (link : BlockId → Word) (id : BlockId) (state : State Reg) :
    Terminator → Option Config
  | .branch cond label =>
      if state.pred cond then (jumpTarget functions id.func label).map (⟨some ·, state⟩)
      else (fallThrough functions id).map (⟨some ·, state⟩)
  | .jump label => (jumpTarget functions id.func label).map (⟨some ·, state⟩)
  | .ret => some ⟨returnBlock functions link (state.readGpr (.preg linkReg)), state⟩
  | .directCall target cont =>
      (labelledBlock functions id.func cont).bind fun continuation =>
        (callTarget functions target).map
          (⟨some ·, state.writeGpr (.preg linkReg) (link continuation)⟩)

/-- Execute one block. -/
def step (isa : Isa Opcode) (link : BlockId → Word) (config : Config) : Option Config :=
  config.block.bind fun id =>
    (blockAt functions id).bind fun block =>
      (execSyllables isa block.syllables config.state).bind fun state =>
        follow functions link id state block.terminator

end Control

end VliwCompiler.Mir
