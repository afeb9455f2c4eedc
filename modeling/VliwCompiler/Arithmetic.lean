import VliwCompiler.Asm.Program
import VliwCompiler.Error

/-!
# Checked arithmetic

Arithmetic on signed 64-bit integers aborts when its result is out of range.
-/

namespace VliwCompiler

open Asm (I64)

/-- Integer multiplication, which aborts on overflow. -/
def checkedMul (left right : I64) : Outcome I64 :=
  if left.smulOverflow right then .error (.panic "attempt to multiply with overflow")
  else .ok (left * right)

/-- Integer addition, which aborts on overflow. -/
def checkedAdd (left right : I64) : Outcome I64 :=
  if left.saddOverflow right then .error (.panic "attempt to add with overflow")
  else .ok (left + right)

/-- Integer subtraction, which aborts on overflow. -/
def checkedSub (left right : I64) : Outcome I64 :=
  if left.ssubOverflow right then .error (.panic "attempt to subtract with overflow")
  else .ok (left - right)

@[simp]
theorem checkedMul_eq_ok {left right result : I64} :
    checkedMul left right = .ok result ↔ left.smulOverflow right = false ∧ left * right = result := by
  unfold checkedMul
  split
  · rename_i overflows
    simp [overflows]
  · rename_i fits
    simp [Bool.eq_false_iff.mpr fits]

@[simp]
theorem checkedAdd_eq_ok {left right result : I64} :
    checkedAdd left right = .ok result ↔ left.saddOverflow right = false ∧ left + right = result := by
  unfold checkedAdd
  split
  · rename_i overflows
    simp [overflows]
  · rename_i fits
    simp [Bool.eq_false_iff.mpr fits]

@[simp]
theorem checkedSub_eq_ok {left right result : I64} :
    checkedSub left right = .ok result ↔ left.ssubOverflow right = false ∧ left - right = result := by
  unfold checkedSub
  split
  · rename_i overflows
    simp [overflows]
  · rename_i fits
    simp [Bool.eq_false_iff.mpr fits]

/-! ### Ranges -/

/-- An integer that 64 bits with sign represent. -/
def Fits (value : Int) : Prop := -2 ^ 63 ≤ value ∧ value < 2 ^ 63

instance (value : Int) : Decidable (Fits value) :=
  inferInstanceAs (Decidable (-2 ^ 63 ≤ value ∧ value < 2 ^ 63))

theorem fits_toInt (value : I64) : Fits value.toInt :=
  ⟨BitVec.le_toInt value, BitVec.toInt_lt⟩

theorem toInt_ofInt_of_fits {value : Int} (fits : Fits value) :
    (BitVec.ofInt 64 value).toInt = value :=
  BitVec.toInt_ofInt_eq_self (by decide) fits.1 fits.2

theorem saddOverflow_eq_false_iff {left right : I64} :
    left.saddOverflow right = false ↔ Fits (left.toInt + right.toInt) := by
  simp [BitVec.saddOverflow, Fits]
  omega

theorem smulOverflow_eq_false_iff {left right : I64} :
    left.smulOverflow right = false ↔ Fits (left.toInt * right.toInt) := by
  simp [BitVec.smulOverflow, Fits]
  omega

theorem ssubOverflow_eq_false_iff {left right : I64} :
    left.ssubOverflow right = false ↔ Fits (left.toInt - right.toInt) := by
  simp [BitVec.ssubOverflow, Fits]
  omega

theorem checkedMul_eq_ok_iff_toInt {left right result : I64} :
    checkedMul left right = .ok result ↔
      Fits (left.toInt * right.toInt) ∧ result.toInt = left.toInt * right.toInt := by
  rw [checkedMul_eq_ok, smulOverflow_eq_false_iff]
  refine and_congr_right fun fits => ?_
  have isProduct : (left * right).toInt = left.toInt * right.toInt :=
    BitVec.toInt_mul_of_not_smulOverflow (by simp [smulOverflow_eq_false_iff.mpr fits])
  rw [← isProduct, BitVec.toInt_inj, eq_comm]

theorem checkedAdd_eq_ok_iff_toInt {left right result : I64} :
    checkedAdd left right = .ok result ↔
      Fits (left.toInt + right.toInt) ∧ result.toInt = left.toInt + right.toInt := by
  rw [checkedAdd_eq_ok, saddOverflow_eq_false_iff]
  refine and_congr_right fun fits => ?_
  have isSum : (left + right).toInt = left.toInt + right.toInt :=
    BitVec.toInt_add_of_not_saddOverflow (by simp [saddOverflow_eq_false_iff.mpr fits])
  rw [← isSum, BitVec.toInt_inj, eq_comm]

end VliwCompiler
