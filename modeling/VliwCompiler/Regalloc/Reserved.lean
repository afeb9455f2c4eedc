import VliwCompiler.Regalloc.StraightLine
import VliwCompiler.Asm.Parse

/-!
# Reserved memory

The link register is saved just below the spill area, which starts at fifteen
sixteenths of the memory and has no upper limit.
-/

namespace VliwCompiler.Regalloc

open Asm (I64)
open Mir (Function)

/-- Eight bytes of memory. -/
def Inside (memorySize : Nat) (address : I64) : Prop :=
  0 ≤ address.toInt ∧ address.toInt + 8 ≤ memorySize

/-- Two slots of eight bytes do not overlap. -/
def Apart (first second : I64) : Prop :=
  first.toInt + 8 ≤ second.toInt ∨ second.toInt + 8 ≤ first.toInt

/-- The addresses of the spilled registers lie in memory, apart from each other
and from the saved link register. -/
structure SlotsApart (memorySize : Nat) (save : I64) (alloc : Allocator) : Prop where
  slotInside : ∀ {v slot}, alloc.spillSlots.lookup v = some slot → Inside memorySize slot
  saveApart : ∀ {v slot}, alloc.spillSlots.lookup v = some slot → Apart save slot
  slotsApart : ∀ {v w slot other}, v ≠ w → alloc.spillSlots.lookup v = some slot →
    alloc.spillSlots.lookup w = some other → Apart slot other

/-- The reserved addresses are computed without overflow and lie in memory, apart
from each other. -/
structure Reserved (order : HashOrder) (function : Function) (memorySize : Nat) : Prop where
  base : ∃ base, spillBase memorySize = .ok base
  save : ∃ save, linkRegSaveAddr memorySize = .ok save ∧ Inside memorySize save ∧
    ∀ alloc, allocatorAt order function memorySize function.blocks.length = .ok alloc →
      SlotsApart memorySize save alloc

/-! ### Arithmetic -/

section Arithmetic

theorem toInt_ofNat_of_lt {n : Nat} (small : n < 2 ^ 63) : (BitVec.ofNat 64 n).toInt = n := by
  rw [BitVec.toInt_eq_toNat_cond, BitVec.toNat_ofNat, Nat.mod_eq_of_lt (by omega),
    if_pos (by omega)]

variable {memorySize : Nat}

/-- The spill area starts at fifteen sixteenths of the memory. -/
theorem toInt_spillAddress (fits : memorySize * 15 < 2 ^ 63) :
    (spillAddress memorySize).toInt = (memorySize * 15 / 16 : Nat) := by
  have isSize : (BitVec.ofNat 64 memorySize).toInt = memorySize := toInt_ofNat_of_lt (by omega)
  have isProduct : (BitVec.ofNat 64 memorySize * 15).toInt = memorySize * 15 := by
    rw [BitVec.toInt_mul, isSize]
    exact Int.bmod_eq_of_le (by change _ ≤ (_ * 15 : Int); omega) (by change (_ * 15 : Int) < _; omega)
  rw [spillAddress, BitVec.toInt_sdiv_of_ne_or_ne _ _ (.inr (by decide)), isProduct]
  change ((memorySize : Int) * 15).tdiv 16 = _
  rw [Int.tdiv_eq_ediv_of_nonneg (by omega)]
  omega

theorem toInt_linkAddress (fits : memorySize * 15 < 2 ^ 63) :
    (linkAddress memorySize).toInt = (memorySize * 15 / 16 : Nat) - 8 := by
  have isBase := toInt_spillAddress fits
  rw [linkAddress, BitVec.toInt_sub, isBase]
  exact Int.bmod_eq_of_le (by change _ ≤ (_ - 8 : Int); omega) (by change (_ - 8 : Int) < _; omega)

theorem toInt_slotAt (fits : memorySize * 15 < 2 ^ 63) {k : Nat} (small : k < 2 ^ 32) :
    (slotAt (spillAddress memorySize) k).toInt = (memorySize * 15 / 16 + 8 * k : Nat) := by
  have isBase := toInt_spillAddress fits
  have isNumber : (BitVec.ofNat 64 k).toInt = k := toInt_ofNat_of_lt (by omega)
  have isOffset : (BitVec.ofNat 64 k * spillSlotBytes).toInt = k * 8 := by
    rw [BitVec.toInt_mul, isNumber]
    exact Int.bmod_eq_of_le (by change _ ≤ (_ * 8 : Int); omega) (by change (_ * 8 : Int) < _; omega)
  rw [slotAt, BitVec.toInt_add, isBase, isOffset, Int.bmod_eq_of_le (by omega) (by omega)]
  omega

/-- The save address that is computed for a size that is not small is negative. -/
theorem toInt_linkAddress_neg (representable : memorySize < 2 ^ 64)
    (large : 2 ^ 63 ≤ memorySize * 15) (addressable : Addressable memorySize) :
    (linkAddress memorySize).toInt < 0 := by
  have isFifteen : (15 : I64).toInt = 15 := rfl
  have isEight : (8 : I64).toInt = 8 := rfl
  have bounds := toInt_spillAddress_bounds addressable
  have isNegative : 2 ^ 63 ≤ memorySize := by
    by_contra positive
    have isSize := toInt_ofNat_of_lt (Nat.lt_of_not_le positive)
    have fits := addressable.2
    rw [isSize] at fits
    omega
  have isSize : (BitVec.ofNat 64 memorySize).toInt = memorySize - 2 ^ 64 := by
    rw [BitVec.toInt_eq_toNat_cond, BitVec.toNat_ofNat, Nat.mod_eq_of_lt representable,
      if_neg (by omega)]
    rfl
  obtain ⟨low, high⟩ := addressable
  rw [isSize] at low high
  have isProduct : (BitVec.ofNat 64 memorySize * 15).toInt = (memorySize - 2 ^ 64) * 15 := by
    rw [BitVec.toInt_mul, isSize, isFifteen]
    exact Int.bmod_eq_of_le (by omega) (by omega)
  have isBase : (spillAddress memorySize).toInt ≤ 0 := by
    rw [spillAddress, BitVec.toInt_sdiv_of_ne_or_ne _ _ (.inr (by decide)), isProduct]
    rw [← Int.neg_neg ((memorySize - 2 ^ 64) * 15), Int.neg_tdiv]
    exact Int.neg_nonpos_of_nonneg (Int.tdiv_nonneg (by omega) (by decide))
  rw [linkAddress, BitVec.toInt_sub, isEight, Int.bmod_eq_of_le (by omega) (by omega)]
  omega

end Arithmetic

/-- All spill slots that were numbered are in use. -/
theorem SlotPool.exists_slot {limit : Nat} {alloc : Allocator} (pool : SlotPool limit alloc)
    {k : Nat} (used : k < alloc.nextSpillSlot) :
    ∃ v, alloc.spillSlots.lookup v = some (slotAt alloc.spillBase k) := by
  have numbered : ∀ v ∈ alloc.spillSlots.keys, ∃ k < alloc.nextSpillSlot,
      alloc.spillSlots.lookup v = some (slotAt alloc.spillBase k) := by
    intro v isKey
    obtain ⟨slot, found⟩ := mem_keys_iff.mp isKey
    obtain ⟨k, less, rfl⟩ := pool.slots found
    exact ⟨k, less, found⟩
  choose! number less found using numbered
  have distinct : (alloc.spillSlots.keys.map number).Nodup := by
    refine List.Nodup.map_on (fun v isV w isW same => ?_) alloc.spillSlots.nodupKeys
    have isSlot := found w isW
    rw [← same] at isSlot
    exact pool.slotsInjective (found v isV) isSlot
  have inside : alloc.spillSlots.keys.map number ⊆ List.range alloc.nextSpillSlot := by
    intro k kMem
    obtain ⟨v, isKey, rfl⟩ := List.mem_map.mp kMem
    exact List.mem_range.mpr (less v isKey)
  have all : (alloc.spillSlots.keys.map number).Perm (List.range alloc.nextSpillSlot) := by
    refine (List.subperm_of_subset distinct inside).perm_of_length_le ?_
    rw [List.length_range, List.length_map, pool.slotCount]
  obtain ⟨v, isKey, rfl⟩ := List.mem_map.mp (all.mem_iff.mpr (List.mem_range.mpr used))
  exact ⟨v, found v isKey⟩

/-- For a memory that is neither too small nor too large the slots are apart when
they fit into a sixteenth of it. -/
theorem slotsApart_iff {order : HashOrder} {function : Function} {memorySize : Nat}
    {alloc : Allocator} (fits : memorySize * 15 < 2 ^ 63)
    (reached : allocatorAt order function memorySize function.blocks.length = .ok alloc) :
    SlotsApart memorySize (linkAddress memorySize) alloc ↔
      8 * alloc.spillSlots.keys.length ≤ (memorySize + 15) / 16 := by
  obtain ⟨consults, pool⟩ := sound_at (Nat.le_refl _) reached
  have isBase := consults.base
  have few := pool.nextSpillSlot_le
  rw [← pool.slotCount]
  have isSave := toInt_linkAddress fits
  have numbered : ∀ {v slot}, alloc.spillSlots.lookup v = some slot →
      ∃ k < alloc.nextSpillSlot, slot = slotAt (spillAddress memorySize) k := by
    intro v slot found
    obtain ⟨k, less, same⟩ := pool.slots found
    exact ⟨k, less, by rw [same, isBase]⟩
  constructor
  · intro apart
    cases isCount : alloc.nextSpillSlot with
    | zero => omega
    | succ last =>
        obtain ⟨v, found⟩ := pool.exists_slot (k := last) (by omega)
        have inside := (apart.slotInside found).2
        rw [isBase, toInt_slotAt fits (by omega)] at inside
        omega
  · intro room
    refine ⟨?_, ?_, ?_⟩
    · intro v slot found
      obtain ⟨k, less, rfl⟩ := numbered found
      have isSlot := toInt_slotAt fits (k := k) (by omega)
      exact ⟨by omega, by omega⟩
    · intro v slot found
      obtain ⟨k, less, rfl⟩ := numbered found
      have isSlot := toInt_slotAt fits (k := k) (by omega)
      exact .inl (by omega)
    · intro v w slot other different first second
      obtain ⟨j, jLess, rfl⟩ := numbered first
      obtain ⟨k, kLess, rfl⟩ := numbered second
      have isFirst := toInt_slotAt fits (k := j) (by omega)
      have isSecond := toInt_slotAt fits (k := k) (by omega)
      have apart : j ≠ k := by
        rintro rfl
        exact different (pool.slotsInjective first second)
      rcases Nat.lt_or_gt_of_ne apart with less | greater
      · exact .inl (by omega)
      · exact .inr (by omega)

/-- The reserved memory of a function is sound exactly when the memory is neither
too small nor too large and the spilled registers fit into a sixteenth of it. -/
theorem reserved_iff {order : HashOrder} {function : Function} {memorySize : Nat}
    (representable : memorySize < 2 ^ 64) :
    Reserved order function memorySize ↔
      9 ≤ memorySize ∧ memorySize * 15 < 2 ^ 63 ∧
        ∀ alloc, allocatorAt order function memorySize function.blocks.length = .ok alloc →
          8 * alloc.spillSlots.keys.length ≤ (memorySize + 15) / 16 := by
  constructor
  · rintro ⟨-, save, isSave, inside, slots⟩
    obtain ⟨addressable, rfl⟩ := linkRegSaveAddr_eq_ok.mp isSave
    have nonnegative := inside.1
    have fits : memorySize * 15 < 2 ^ 63 := by
      by_contra large
      have negative := toInt_linkAddress_neg representable (Nat.le_of_not_lt large) addressable
      omega
    have isAddress := toInt_linkAddress fits
    refine ⟨by omega, fits, fun alloc reached => ?_⟩
    exact (slotsApart_iff fits reached).mp (slots alloc reached)
  · rintro ⟨large, fits, room⟩
    have isSize : (BitVec.ofNat 64 memorySize).toInt = memorySize := toInt_ofNat_of_lt (by omega)
    have addressable : Addressable memorySize := by
      unfold Addressable Fits
      rw [isSize]
      omega
    have isAddress := toInt_linkAddress fits
    refine ⟨⟨_, spillBase_eq_ok.mpr ⟨addressable, rfl⟩⟩, _,
      linkRegSaveAddr_eq_ok.mpr ⟨addressable, rfl⟩, ⟨by omega, by omega⟩, fun alloc reached => ?_⟩
    exact (slotsApart_iff fits reached).mpr (room alloc reached)

theorem reserved_iff_thirtyValues :
    (allocatorAt insertionOrder ⟨"f", [thirtyValues]⟩ 113 1).map (·.spillSlots.keys.length) =
        .ok 1 ∧
      Reserved insertionOrder ⟨"f", [thirtyValues]⟩ 113 := by
  have spilled : (allocatorAt insertionOrder ⟨"f", [thirtyValues]⟩ 113 1).map
      (·.spillSlots.keys.length) = .ok 1 := by decide +kernel
  refine ⟨spilled, (reserved_iff (by decide)).mpr ⟨by decide, by decide, fun alloc reached => ?_⟩⟩
  obtain ⟨other, isOther, isLength⟩ := map_eq_ok.mp spilled
  obtain rfl : alloc = other := Except.ok.inj (reached.symm.trans isOther)
  rw [isLength]

/-- In a memory of eight bytes the link register is saved below address zero. -/
theorem smallMemory_unreserved :
    Asm.parse ".processor \x7b\nmemory \x7b size 8 \x7d\n\x7d\n" =
        .ok ⟨{ Asm.Parser.initialProcessor with memorySize := 8 }, []⟩ ∧
      linkRegSaveAddr 8 = .ok (-1) ∧ ∀ order function, ¬Reserved order function 8 := by
  refine ⟨by decide +kernel, by decide, fun order function reserved => ?_⟩
  obtain ⟨-, save, isSave, inside, -⟩ := reserved
  have negative : linkRegSaveAddr 8 = .ok (-1) := by decide
  obtain rfl := Except.ok.inj (isSave.symm.trans negative)
  exact absurd inside.1 (by decide)

end VliwCompiler.Regalloc
