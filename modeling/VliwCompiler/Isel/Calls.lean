import VliwCompiler.Mir.Syntax
import VliwCompiler.Regs

/-!
# Code around a call

Before a call the arguments are moved to `r2`, `r3`, … and the link register is
saved at a fixed address; the continuation restores it.
-/

namespace VliwCompiler.Isel

open Asm (I64)
open Mir (Syllable)

/-- The register of an argument. -/
def argReg (i : Nat) : UInt8 := argRegFirst + UInt8.ofNat i

/-- An argument of a call: a constant or the register of a value. -/
inductive Argument where
  | const (value : I64)
  | vreg (index : Nat)
  deriving DecidableEq, Repr

/-- The move of one argument. -/
def argMove (argument : Argument) (i : Nat) : Syllable :=
  match argument with
  | .const value => ⟨.movImm, some (.preg (argReg i)), [.imm value]⟩
  | .vreg index => ⟨.mov, some (.preg (argReg i)), [.reg (.vreg index)]⟩

/-- The moves of consecutive arguments, the first of them to `argReg first`. -/
def argMoves (first : Nat) (arguments : List Argument) : List Syllable :=
  (arguments.zipIdx first).map fun (argument, i) => argMove argument i

/-- Save the link register at an address. -/
def saveLink (address : I64) : Syllable :=
  ⟨.storeD, none, [.imm address, .reg (.preg linkReg)]⟩

/-- Restore the link register from an address. -/
def restoreLink (address : I64) : Syllable :=
  ⟨.loadD, some (.preg linkReg), [.imm address]⟩

theorem argMoves_cons (first : Nat) (argument : Argument) (arguments : List Argument) :
    argMoves first (argument :: arguments) =
      argMove argument first :: argMoves (first + 1) arguments := rfl

theorem argReg_injective {j k : Nat} (jSmall : j < 8) (kSmall : k < 8)
    (same : argReg j = argReg k) : j = k := by
  have all : ∀ j < 8, ∀ k < 8, argReg j = argReg k → j = k := by decide
  exact all j jSmall k kSmall same

end VliwCompiler.Isel
