import VliwCompiler.Asm.Semantics
import VliwCompiler.Regs

/-!
# Running assembly programs

A program is run item by item.  Labels do nothing; all syllables of a bundle
are issued together, and at most one of them transfers control.  A branch that
is not taken goes on with the next item.  Code addresses are words: `link`
gives the address of the bundle with a given number, `call` stores the address
of the next bundle in `r31`, and `ret` resumes at the labelled position with
that address, leaving the program when there is none.
-/

namespace VliwCompiler.Asm

open Machine

/-- Control transfers. -/
inductive Control where
  | branch (cond : UInt8) (target : String)
  | jump (target : String)
  | call (target : String)
  | ret
  deriving DecidableEq, Repr

/-- The control transfer performed by a syllable. -/
def Syllable.control (syllable : Syllable) : Option Control :=
  match Opcode.fromMnemonic syllable.opcode, syllable.operands with
  | some .branch, [.pred cond, .label target] => some (.branch cond target)
  | some .jump, [.label target] => some (.jump target)
  | some .call, [.label target] => some (.call target)
  | some .ret, [] => some .ret
  | _, _ => none

/-- A program about to execute an item, or one whose execution has left it. -/
@[ext]
structure Config where
  pc : Option Nat
  state : State UInt8

/-- Whether an item is a bundle. -/
def Item.isBundle : Item → Bool
  | .label _ => false
  | .bundle _ => true

section Program

variable (items : List Item)

/-- The position of a label. -/
def labelPosition (name : String) : Option Nat :=
  items.findIdx? (· = .label name)

/-- Number of the first bundle at or after a position. -/
def bundleNumber (position : Nat) : Nat :=
  (items.take position).countP Item.isBundle

/-- The labelled position resumed by a return to `address`. -/
def returnPosition (link : Nat → Word) (address : Word) : Option Nat :=
  (List.range items.length).find? fun position =>
    (items[position]?).any (!·.isBundle) && link (bundleNumber items position) = address

/-- Transfer control from the bundle at `pc`.  Conditions and return addresses
are read in the state before the bundle. -/
def transfer (link : Nat → Word) (pc : Nat) (before after : State UInt8) :
    Control → Option Config
  | .branch cond target =>
      if before.pred cond then (labelPosition items target).map (⟨some ·, after⟩)
      else some ⟨some (pc + 1), after⟩
  | .jump target => (labelPosition items target).map (⟨some ·, after⟩)
  | .call target =>
      (labelPosition items target).map
        (⟨some ·, after.writeGpr linkReg (link (bundleNumber items (pc + 1)))⟩)
  | .ret => some ⟨returnPosition items link (before.readGpr linkReg), after⟩

/-- Execute the bundle at `pc`. -/
def stepBundle (isa : Isa Opcode) (link : Nat → Word) (pc : Nat) (bundle : Bundle)
    (state : State UInt8) : Option Config :=
  let straight := bundle.syllables.filter (·.control.isNone)
  (straight.mapM Syllable.action).bind fun actions =>
    let issued := Action.issue isa actions state
    match bundle.syllables.filterMap Syllable.control with
    | [] => some ⟨some (pc + 1), issued⟩
    | [control] => transfer items link pc state issued control
    | _ => none

/-- Execute one item. -/
def step (isa : Isa Opcode) (link : Nat → Word) (config : Config) : Option Config :=
  config.pc.bind fun pc =>
    (items[pc]?).bind fun
      | .label _ => some ⟨some (pc + 1), config.state⟩
      | .bundle bundle => stepBundle items isa link pc bundle config.state

end Program

end VliwCompiler.Asm
