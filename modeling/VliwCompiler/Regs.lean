import VliwCompiler.Arithmetic

/-!
# Calling-convention register policy

The physical registers with fixed roles, the range available to the register
allocator and the memory reserved for spills.  All addresses are 64-bit
two's-complement integers; computing them aborts when a product overflows.
-/

namespace VliwCompiler

open Asm (I64)

/-- `r0`, which always reads as zero. -/
def zeroReg : UInt8 := 0

/-- `r1`, the return-value register. -/
def retvalReg : UInt8 := 1

/-- `r31`, the link register. -/
def linkReg : UInt8 := 31

/-- `r2`, the first argument register. -/
def argRegFirst : UInt8 := 2

/-- Base address of the register spill area, which aborts on overflow. -/
def spillBase (memorySize : Nat) : Outcome I64 := do
  let product ← checkedMul (BitVec.ofNat 64 memorySize) 15
  return product.sdiv 16

/-- Address reserved for saving the link register across calls. -/
def linkRegSaveAddr (memorySize : Nat) : Outcome I64 := do
  let base ← spillBase memorySize
  checkedSub base 8

/-- First register available to the allocator. -/
def firstAllocatableGpr : UInt8 := retvalReg + 1

/-- Last register available to the allocator. -/
def lastAllocatableGpr : UInt8 := linkReg - 1

/-! ### Values of the addresses -/

/-- The address of the spill area, if it is computed. -/
def spillAddress (memorySize : Nat) : I64 := (BitVec.ofNat 64 memorySize * 15).sdiv 16

/-- The address where the link register is saved, if it is computed. -/
def linkAddress (memorySize : Nat) : I64 := spillAddress memorySize - 8

/-- Fifteen times the memory size, read as a signed integer, is one as well. -/
def Addressable (memorySize : Nat) : Prop := Fits ((BitVec.ofNat 64 memorySize).toInt * 15)

instance (memorySize : Nat) : Decidable (Addressable memorySize) :=
  inferInstanceAs (Decidable (Fits ((BitVec.ofNat 64 memorySize).toInt * 15)))

section

variable {memorySize : Nat}

theorem spillBase_eq_ok {base : I64} :
    spillBase memorySize = .ok base ↔ Addressable memorySize ∧ base = spillAddress memorySize := by
  have isFifteen : (15 : I64).toInt = 15 := rfl
  unfold spillBase
  rw [bind_eq_ok]
  constructor
  · rintro ⟨product, isProduct, finished⟩
    obtain ⟨fits, rfl⟩ := checkedMul_eq_ok.mp isProduct
    cases finished
    rw [smulOverflow_eq_false_iff, isFifteen] at fits
    exact ⟨fits, rfl⟩
  · rintro ⟨fits, rfl⟩
    refine ⟨_, checkedMul_eq_ok.mpr ⟨?_, rfl⟩, rfl⟩
    rw [smulOverflow_eq_false_iff, isFifteen]
    exact fits

/-- The spill area begins where an address needs four bits less. -/
theorem toInt_spillAddress_bounds (addressable : Addressable memorySize) :
    -2 ^ 59 ≤ (spillAddress memorySize).toInt ∧ (spillAddress memorySize).toInt ≤ 2 ^ 59 := by
  obtain ⟨low, high⟩ := addressable
  have isFifteen : (15 : I64).toInt = 15 := rfl
  have isProduct : (BitVec.ofNat 64 memorySize * 15).toInt =
      (BitVec.ofNat 64 memorySize).toInt * 15 := by
    rw [BitVec.toInt_mul, isFifteen]
    exact Int.bmod_eq_of_le (by omega) (by omega)
  rw [spillAddress, BitVec.toInt_sdiv_of_ne_or_ne _ _ (.inr (by decide)), isProduct]
  change -2 ^ 59 ≤ Int.tdiv _ 16 ∧ Int.tdiv _ 16 ≤ 2 ^ 59
  rw [Int.tdiv_eq_ediv, show Int.sign 16 = 1 from rfl]
  split
  · omega
  · omega

theorem linkRegSaveAddr_eq_ok {address : I64} :
    linkRegSaveAddr memorySize = .ok address ↔
      Addressable memorySize ∧ address = linkAddress memorySize := by
  unfold linkRegSaveAddr
  rw [bind_eq_ok]
  constructor
  · rintro ⟨base, isBase, finished⟩
    obtain ⟨addressable, rfl⟩ := spillBase_eq_ok.mp isBase
    exact ⟨addressable, (checkedSub_eq_ok.mp finished).2.symm⟩
  · rintro ⟨addressable, rfl⟩
    refine ⟨_, spillBase_eq_ok.mpr ⟨addressable, rfl⟩, checkedSub_eq_ok.mpr ⟨?_, rfl⟩⟩
    have isEight : (8 : I64).toInt = 8 := rfl
    have bounds := toInt_spillAddress_bounds addressable
    rw [ssubOverflow_eq_false_iff, isEight]
    exact ⟨by omega, by omega⟩

/-- An address that is not computed aborts the compiler. -/
theorem spillBase_of_not_addressable (large : ¬Addressable memorySize) :
    spillBase memorySize = .error (.panic "attempt to multiply with overflow") := by
  have isFifteen : (15 : I64).toInt = 15 := rfl
  have overflows : (BitVec.ofNat 64 memorySize).smulOverflow 15 = true := by
    rw [← Bool.not_eq_false, smulOverflow_eq_false_iff, isFifteen]
    exact large
  unfold spillBase checkedMul
  rw [if_pos overflows]
  rfl

theorem linkRegSaveAddr_of_not_addressable (large : ¬Addressable memorySize) :
    linkRegSaveAddr memorySize = .error (.panic "attempt to multiply with overflow") := by
  unfold linkRegSaveAddr
  rw [spillBase_of_not_addressable large]
  rfl

end

end VliwCompiler
