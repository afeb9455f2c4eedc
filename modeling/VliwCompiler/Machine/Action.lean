import Mathlib.Data.BitVec
import Mathlib.Logic.Function.Basic
import Mathlib.Data.Set.Lattice
import Mathlib.Order.CompletePartialOrder
import Mathlib.Data.List.Basic

/-!
# Register-machine actions

A register machine with general-purpose registers, predicate registers and a
byte-addressed memory.  An *action* is one operation on that state; its
*effect* is the set of writes it performs, computed from the state it reads.
Separating the two gives both execution disciplines used by the development:

* sequential execution reads the state left by the previous action;
* simultaneous issue computes all effects from the state before the bundle and
  applies them afterwards.

Operation codes and register names are arbitrary types.  What an operation
computes is given by an `Isa`, so every result holds for every interpretation
of the operation codes.
-/

namespace VliwCompiler.Machine

/-- Machine words. -/
abbrev Word := BitVec 64

/-- Memory cells. -/
abbrev Byte := BitVec 8

/-- Byte-addressed memory. -/
abbrev Memory := Word → Byte

/-- The addresses touched by an access of `width` bytes. -/
def addresses (address : Word) (width : Nat) : List Word :=
  (List.range width).map fun k => address + BitVec.ofNat 64 k

/-- The low `width` bytes of a word, least significant first. -/
def wordBytes (width : Nat) (word : Word) : List Byte :=
  (List.range width).map fun k => (word >>> (8 * k)).setWidth 8

/-- The byte writes of a `width`-byte little-endian store. -/
def storeWrites (address : Word) (width : Nat) (word : Word) : List (Word × Byte) :=
  (addresses address width).zip (wordBytes width word)

/-- Little-endian read of `width` bytes. -/
def Memory.read (memory : Memory) (address : Word) (width : Nat) : Word :=
  (List.range width).foldr
    (fun k acc => acc ||| ((memory (address + BitVec.ofNat 64 k)).setWidth 64 <<< (8 * k))) 0

/-- Perform byte writes from left to right. -/
def Memory.write (memory : Memory) (writes : List (Word × Byte)) : Memory :=
  writes.foldl (fun current cell => Function.update current cell.1 cell.2) memory

/-- Architectural state over register names `R`. -/
@[ext]
structure State (R : Type) where
  gpr : R → Word
  pred : R → Bool
  mem : Memory

/-- An operand value: a register word or a predicate. -/
inductive Datum where
  | word (value : Word)
  | flag (value : Bool)

/-- The word carried by an operand value. -/
def Datum.toWord : Datum → Word
  | .word value => value
  | .flag value => if value then 1 else 0

/-- A readable operand. -/
inductive Source (R : Type) where
  | gpr (reg : R)
  | pred (reg : R)
  | imm (value : Word)
  deriving DecidableEq, Repr

/-- One operation of the machine.  `load` and `store` carry their access width
in bytes and address memory at a base register plus a displacement;
`acquire` may read all of memory and `release` may write any cells. -/
inductive Action (Op R : Type) where
  | compute (op : Op) (dst : Option R) (srcs : List (Source R))
  | test (op : Op) (dst : Option R) (srcs : List (Source R))
  | load (op : Op) (width : Nat) (dst : Option R) (base : R) (offset : Word)
  | store (width : Nat) (base : R) (offset : Word) (data : Source R)
  | acquire (op : Op) (dst : Option R) (srcs : List (Source R))
  | release (op : Op) (srcs : List (Source R))
  | skip
  deriving DecidableEq, Repr

/-- The meaning of operation codes. -/
structure Isa (Op : Type) where
  /-- Word computed by a register operation. -/
  result : Op → List Datum → Word
  /-- Predicate computed by a comparison or predicate operation. -/
  flag : Op → List Datum → Bool
  /-- Extension of a load narrower than a word. -/
  extend : Op → Word → Word
  /-- Word obtained by an acquiring load. -/
  acquire : Op → List Datum → Memory → Word
  /-- Cells written by a releasing store. -/
  release : Op → List Datum → List (Word × Byte)

instance {Op : Type} : Inhabited (Isa Op) :=
  ⟨⟨fun _ _ => 0, fun _ _ => false, fun _ word => word, fun _ _ _ => 0, fun _ _ => []⟩⟩

instance {R : Type} : Inhabited (State R) := ⟨⟨fun _ => 0, fun _ => false, fun _ => 0⟩⟩

/-- The writes performed by an action. -/
structure Effect (R : Type) where
  gpr : Option (R × Word) := none
  pred : Option (R × Bool) := none
  mem : List (Word × Byte) := []

variable {Op R : Type} [DecidableEq R] [Zero R]

namespace State

/-- Read a register; the zero register always reads as zero. -/
def readGpr (state : State R) (reg : R) : Word :=
  if reg = 0 then 0 else state.gpr reg

/-- Write a register; writes to the zero register are discarded. -/
def writeGpr (state : State R) (reg : R) (value : Word) : State R :=
  if reg = 0 then state else { state with gpr := Function.update state.gpr reg value }

end State

/-- The value of an operand. -/
def Source.read (state : State R) : Source R → Datum
  | .gpr reg => .word (state.readGpr reg)
  | .pred reg => .flag (state.pred reg)
  | .imm value => .word value

/-- Perform the writes of an effect. -/
def Effect.apply (effect : Effect R) (state : State R) : State R where
  gpr :=
    match effect.gpr with
    | none => state.gpr
    | some (reg, value) => if reg = 0 then state.gpr else Function.update state.gpr reg value
  pred :=
    match effect.pred with
    | none => state.pred
    | some (reg, value) => Function.update state.pred reg value
  mem := state.mem.write effect.mem

namespace Action

/-- The writes of an action issued in `state`. -/
def effect (isa : Isa Op) (action : Action Op R) (state : State R) : Effect R :=
  match action with
  | .compute op dst srcs =>
      { gpr := dst.map fun reg => (reg, isa.result op (srcs.map (·.read state))) }
  | .test op dst srcs =>
      { pred := dst.map fun reg => (reg, isa.flag op (srcs.map (·.read state))) }
  | .load op width dst base offset =>
      let raw := state.mem.read (state.readGpr base + offset) width
      { gpr := dst.map fun reg => (reg, if width = 8 then raw else isa.extend op raw) }
  | .store width base offset data =>
      { mem := storeWrites (state.readGpr base + offset) width (data.read state).toWord }
  | .acquire op dst srcs =>
      { gpr := dst.map fun reg => (reg, isa.acquire op (srcs.map (·.read state)) state.mem) }
  | .release op srcs => { mem := isa.release op (srcs.map (·.read state)) }
  | .skip => {}

/-- Execute one action. -/
def exec (isa : Isa Op) (action : Action Op R) (state : State R) : State R :=
  (action.effect isa state).apply state

/-- Execute actions one after another. -/
def execAll (isa : Isa Op) (actions : List (Action Op R)) (state : State R) : State R :=
  actions.foldl (fun current action => action.exec isa current) state

/-- Issue actions together: all of them read `state`, then the writes are
performed from left to right. -/
def issue (isa : Isa Op) (actions : List (Action Op R)) (state : State R) : State R :=
  actions.foldl (fun current action => (action.effect isa state).apply current) state

/-- Source operands read by an action. -/
def sources : Action Op R → List (Source R)
  | .compute _ _ srcs | .test _ _ srcs | .acquire _ _ srcs | .release _ srcs => srcs
  | .load _ _ _ base _ => [.gpr base]
  | .store _ base _ data => [.gpr base, data]
  | .skip => []

/-- The register written, if any. -/
def gprDst : Action Op R → Option R
  | .compute _ dst _ | .load _ _ dst _ _ | .acquire _ dst _ => dst
  | _ => none

/-- The predicate register written, if any. -/
def predDst : Action Op R → Option R
  | .test _ dst _ => dst
  | _ => none

/-- Memory cells an action reads when issued in `state`. -/
def memReads (action : Action Op R) (state : State R) : Set Word :=
  match action with
  | .load _ width _ base offset => {cell | cell ∈ addresses (state.readGpr base + offset) width}
  | .acquire _ _ _ => Set.univ
  | _ => ∅

/-- Memory cells an action may write when issued in `state`. -/
def memWrites (action : Action Op R) (state : State R) : Set Word :=
  match action with
  | .store width base offset _ => {cell | cell ∈ addresses (state.readGpr base + offset) width}
  | .release _ _ => Set.univ
  | _ => ∅

end Action

end VliwCompiler.Machine
