import Mathlib.Data.BitVec
import Mathlib.Tactic.Ring
import Mathlib.Tactic.Linarith

/-!
# Truncated words

A word of `n` bits carries a number of `w` bits in its low bits.  Addition,
multiplication, bitwise operations and left shifts can be done on the words.
Right shifts and comparisons also depend on the bits above; what they contribute
is the *excess* of the word over the number, a multiple of `2 ^ w`.
-/

namespace VliwCompiler.Truncation

variable {n w : Nat}

theorem setWidth_sub (le : w ≤ n) (left right : BitVec n) :
    (left - right).setWidth w = left.setWidth w - right.setWidth w := by
  rw [BitVec.eq_sub_iff_add_eq, ← BitVec.setWidth_add _ _ le, BitVec.sub_add_cancel]

/-! ### Readings -/

/-- How a word is read as an integer. -/
inductive Reading where
  | unsigned
  | signed
  deriving DecidableEq, Repr

namespace Reading

/-- The integer read from a word. -/
def value {n : Nat} (word : BitVec n) : Reading → Int
  | unsigned => word.toNat
  | signed => word.toInt

/-- The order of two words. -/
def less {n : Nat} (left right : BitVec n) : Reading → Bool
  | unsigned => left.ult right
  | signed => left.slt right

/-- Shift a word to the right. -/
def shift {n : Nat} (word : BitVec n) (amount : Nat) : Reading → BitVec n
  | unsigned => word >>> amount
  | signed => word.sshiftRight amount

theorem less_iff {reading : Reading} {left right : BitVec n} :
    reading.less left right = true ↔ reading.value left < reading.value right := by
  cases reading with
  | unsigned => simp [less, value, BitVec.ult_iff_lt, BitVec.lt_def]
  | signed => simp [less, value, BitVec.slt_iff_toInt_lt]

theorem value_shift (reading : Reading) (word : BitVec n) (amount : Nat) :
    reading.value (reading.shift word amount) = reading.value word / 2 ^ amount := by
  cases reading with
  | unsigned =>
      simp only [shift, value, BitVec.toNat_ushiftRight, Nat.shiftRight_eq_div_pow]
      push_cast
      rfl
  | signed =>
      simp only [shift, value, BitVec.toInt_sshiftRight, Int.shiftRight_eq_div_pow]
      push_cast
      rfl

/-- All readings of a word agree modulo its range. -/
theorem dvd_value_sub_toNat (reading : Reading) (word : BitVec n) :
    (2 ^ n : Int) ∣ reading.value word - word.toNat := by
  cases reading with
  | unsigned => simp [value]
  | signed =>
      have reduced := Int.dvd_bmod_sub_self (x := word.toNat) (m := 2 ^ n)
      rw [← BitVec.toInt_eq_toNat_bmod] at reduced
      simpa [value] using reduced

theorem eq_iff_dvd (reading : Reading) {left right : BitVec n} :
    left = right ↔ (2 ^ n : Int) ∣ reading.value left - reading.value right := by
  constructor
  · rintro rfl
    simp
  · intro divides
    have same : (2 ^ n : Int) ∣ (left.toNat : Int) - right.toNat := by
      have sum := Int.dvd_add (Int.dvd_sub divides (reading.dvd_value_sub_toNat left))
        (reading.dvd_value_sub_toNat right)
      have rearranged : reading.value left - reading.value right -
          (reading.value left - left.toNat) + (reading.value right - right.toNat) =
            (left.toNat : Int) - right.toNat := by ring
      rwa [rearranged] at sum
    have leftBound : (left.toNat : Int) < 2 ^ n := by exact_mod_cast left.isLt
    have rightBound : (right.toNat : Int) < 2 ^ n := by exact_mod_cast right.isLt
    have equal := Int.emod_eq_emod_iff_emod_sub_eq_zero.mpr (Int.emod_eq_zero_of_dvd same)
    rw [Int.emod_eq_of_lt (Int.natCast_nonneg _) leftBound,
      Int.emod_eq_of_lt (Int.natCast_nonneg _) rightBound] at equal
    exact BitVec.eq_of_toNat_eq (Int.natCast_inj.mp equal)

/-- Numbers of the same width differ by less than their range. -/
theorem value_sub_lt (reading : Reading) (left right : BitVec n) :
    reading.value left - reading.value right < 2 ^ n := by
  cases reading with
  | unsigned =>
      have bound : (left.toNat : Int) < 2 ^ n := by exact_mod_cast left.isLt
      simp only [value]
      omega
  | signed =>
      have upper := BitVec.two_mul_toInt_lt (x := left)
      have lower := BitVec.le_two_mul_toInt (x := right)
      simp only [value]
      omega

end Reading

/-! ### Excess -/

/-- What a word exceeds the number in its low bits by. -/
def excess (w : Nat) (reading : Reading) (word : BitVec n) : Int :=
  reading.value word - reading.value (word.setWidth w)

theorem dvd_excess (le : w ≤ n) (reading : Reading) (word : BitVec n) :
    (2 ^ w : Int) ∣ excess w reading word := by
  have wide : (2 ^ w : Int) ∣ reading.value word - word.toNat :=
    Int.dvd_trans (pow_dvd_pow 2 le) (reading.dvd_value_sub_toNat word)
  have narrow := reading.dvd_value_sub_toNat (word.setWidth w)
  have low : (2 ^ w : Int) ∣ (word.toNat : Int) - ((word.setWidth w).toNat : Int) := by
    rw [BitVec.toNat_setWidth]
    push_cast
    exact Int.dvd_self_sub_emod
  have sum := Int.dvd_sub (Int.dvd_add wide low) narrow
  have rearranged : reading.value word - word.toNat +
      ((word.toNat : Int) - ((word.setWidth w).toNat : Int)) -
        (reading.value (word.setWidth w) - ((word.setWidth w).toNat : Int)) =
          excess w reading word := by
    rw [excess]
    ring
  rwa [rearranged] at sum

/-- Division by a power of two loses the low bits of the excess. -/
theorem dvd_div_sub_div_iff {word number : Int} {amount : Nat} (le : amount ≤ w)
    (divides : (2 ^ w : Int) ∣ word - number) :
    (2 ^ w : Int) ∣ word / 2 ^ amount - number / 2 ^ amount ↔
      (2 ^ (w + amount) : Int) ∣ word - number := by
  obtain ⟨quotient, isQuotient⟩ := divides
  have positive : (0 : Int) < 2 ^ amount := by positivity
  have isPower : (2 ^ w : Int) = 2 ^ amount * 2 ^ (w - amount) := by
    rw [← pow_add, Nat.add_sub_cancel' le]
  have isDifference : word / 2 ^ amount - number / 2 ^ amount = 2 ^ (w - amount) * quotient := by
    have isWord : word = number + 2 ^ amount * (2 ^ (w - amount) * quotient) := by
      rw [← mul_assoc, ← isPower, ← isQuotient]
      ring
    rw [isWord, Int.add_mul_ediv_left _ _ positive.ne']
    ring
  rw [isDifference, isQuotient, pow_add, Int.mul_dvd_mul_iff_left (by positivity), isPower,
    mul_comm (2 ^ amount), Int.mul_dvd_mul_iff_left (by positivity)]

/-- A right shift of the word shifts the number when the bits that come in from
above are those of the number. -/
theorem setWidth_shift_iff (le : w ≤ n) (reading : Reading) (word : BitVec n) {amount : Nat}
    (small : amount ≤ w) :
    (reading.shift word amount).setWidth w = reading.shift (word.setWidth w) amount ↔
      (2 ^ (w + amount) : Int) ∣ excess w reading word := by
  have shifted := dvd_excess le reading (reading.shift word amount)
  rw [excess, reading.value_shift] at shifted
  have exact := dvd_div_sub_div_iff small (dvd_excess le reading word)
  rw [Reading.eq_iff_dvd reading, reading.value_shift (word.setWidth w), excess, ← exact]
  refine Int.dvd_iff_dvd_of_dvd_sub ?_
  have rearranged : reading.value ((reading.shift word amount).setWidth w) -
        reading.value (word.setWidth w) / 2 ^ amount -
      (reading.value word / 2 ^ amount - reading.value (word.setWidth w) / 2 ^ amount) =
        -(reading.value word / 2 ^ amount -
          reading.value ((reading.shift word amount).setWidth w)) := by ring
  rw [rearranged]
  exact Int.dvd_neg.mpr shifted

/-- The order of two words is that of their numbers. -/
def OrderKept (w : Nat) (reading : Reading) (left right : BitVec n) : Prop :=
  excess w reading left = excess w reading right ∨
    (excess w reading left < excess w reading right ∧
      reading.value (left.setWidth w) < reading.value (right.setWidth w)) ∨
    (excess w reading right < excess w reading left ∧
      reading.value (right.setWidth w) ≤ reading.value (left.setWidth w))

/-- A comparison of words compares their numbers when the words have the same
excess or the excesses are ordered like the numbers. -/
theorem less_setWidth_iff (le : w ≤ n) (reading : Reading) (left right : BitVec n) :
    reading.less left right = reading.less (left.setWidth w) (right.setWidth w) ↔
      OrderKept w reading left right := by
  rw [Bool.eq_iff_iff, Reading.less_iff, Reading.less_iff]
  have gap {first second : BitVec n} (smaller : excess w reading first < excess w reading second) :
      reading.value first < reading.value second := by
    have multiple := Int.dvd_sub (dvd_excess le reading second) (dvd_excess le reading first)
    have apart := Int.le_of_dvd (by omega) multiple
    have close := reading.value_sub_lt (first.setWidth w) (second.setWidth w)
    simp only [excess] at apart
    omega
  rcases lt_trichotomy (excess w reading left) (excess w reading right) with
    smaller | same | greater
  · have ordered := gap smaller
    simp only [OrderKept, ordered, smaller, smaller.ne, smaller.not_gt]
    simp
  · have shifted : reading.value left - reading.value right =
        reading.value (left.setWidth w) - reading.value (right.setWidth w) := by
      simp only [excess] at same
      omega
    simp only [OrderKept, same]
    simp
    omega
  · have ordered := gap greater
    simp only [OrderKept, ordered.not_gt, greater, greater.ne', greater.not_gt]
    simp

end VliwCompiler.Truncation
