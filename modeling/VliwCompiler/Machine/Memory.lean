import VliwCompiler.Machine.Commute

/-!
# Memory accesses

What a load sees after a store: the stored word when both access the same
bytes, and the old memory when they access different ones.
-/

namespace VliwCompiler.Machine

theorem mem_addresses {address cell : Word} {width : Nat} :
    cell ∈ addresses address width ↔ ∃ k < width, cell = address + BitVec.ofNat 64 k := by
  simp [addresses, eq_comm]

/-- The bytes of an access are different cells. -/
theorem nodup_addresses (address : Word) {width : Nat} (small : width ≤ 2 ^ 64) :
    (addresses address width).Nodup := by
  unfold addresses
  rw [List.nodup_map_iff_inj_on List.nodup_range]
  intro first firstMem second secondMem same
  rw [List.mem_range] at firstMem secondMem
  have sameOffset := add_left_cancel same
  have sameNat := congrArg BitVec.toNat sameOffset
  rwa [BitVec.toNat_ofNat, BitVec.toNat_ofNat, Nat.mod_eq_of_lt (by omega),
    Nat.mod_eq_of_lt (by omega)] at sameNat

namespace Memory

theorem write_apply_of_pair (memory : Memory) {writes : List (Word × Byte)}
    (distinct : (writes.map Prod.fst).Nodup) {cell : Word} {value : Byte}
    (written : (cell, value) ∈ writes) : memory.write writes cell = value := by
  induction writes generalizing memory with
  | nil => cases written
  | cons first rest ih =>
      rw [List.map_cons, List.nodup_cons] at distinct
      rw [write_cons]
      rcases List.mem_cons.mp written with rfl | inRest
      · rw [write_apply_of_notMem _ distinct.1, Function.update_self]
      · exact ih _ distinct.2 inRest

theorem storeWrites_eq (address : Word) (width : Nat) (word : Word) :
    storeWrites address width word = (List.range width).map fun k =>
      (address + BitVec.ofNat 64 k, (word >>> (8 * k)).setWidth 8) := by
  simp [storeWrites, addresses, wordBytes, List.zip_map']

/-- A byte of a store. -/
theorem write_storeWrites_apply (memory : Memory) (address : Word) {width : Nat}
    (small : width ≤ 2 ^ 64) (word : Word) {k : Nat} (inside : k < width) :
    memory.write (storeWrites address width word) (address + BitVec.ofNat 64 k) =
      (word >>> (8 * k)).setWidth 8 := by
  apply write_apply_of_pair
  · rw [map_fst_storeWrites]
    exact nodup_addresses address small
  · rw [storeWrites_eq]
    exact List.mem_map.mpr ⟨k, List.mem_range.mpr inside, rfl⟩

theorem getLsbD_foldr_or (parts : Nat → Word) (init : Word) (order : List Nat) (i : Nat) :
    (order.foldr (fun k acc => acc ||| parts k) init).getLsbD i =
      (init.getLsbD i || order.any fun k => (parts k).getLsbD i) := by
  induction order with
  | nil => simp
  | cons k order ih =>
      rw [List.foldr_cons, BitVec.getLsbD_or, ih, List.any_cons, Bool.or_assoc]
      congr 1
      exact Bool.or_comm _ _

/-- A word read back from its bytes. -/
theorem read_of_bytes {memory : Memory} {address word : Word}
    (bytes : ∀ k < 8, memory (address + BitVec.ofNat 64 k) = (word >>> (8 * k)).setWidth 8) :
    memory.read address 8 = word := by
  apply BitVec.eq_of_getLsbD_eq
  intro i inside
  unfold read
  have zero : (0 : Word).getLsbD i = false := BitVec.getLsbD_zero
  rw [getLsbD_foldr_or, zero, Bool.false_or, Bool.eq_iff_iff]
  simp only [List.any_eq_true, List.mem_range,
    BitVec.getLsbD_shiftLeft, BitVec.getLsbD_setWidth, Bool.and_eq_true, decide_eq_true_eq,
    Bool.not_eq_true', decide_eq_false_iff_not]
  constructor
  · rintro ⟨k, small, ⟨-, before⟩, -, isSet⟩
    rw [bytes k small, BitVec.getLsbD_setWidth, BitVec.getLsbD_ushiftRight] at isSet
    rw [Bool.and_eq_true] at isSet
    rw [← isSet.2]
    congr 1
    omega
  · intro isSet
    refine ⟨i / 8, by omega, ⟨inside, by omega⟩, by omega, ?_⟩
    rw [bytes (i / 8) (by omega), BitVec.getLsbD_setWidth, BitVec.getLsbD_ushiftRight,
      Bool.and_eq_true]
    refine ⟨by simp; omega, ?_⟩
    rw [← isSet]
    congr 1
    omega

/-- A stored word is read back. -/
theorem read_write_same (memory : Memory) (address word : Word) :
    (memory.write (storeWrites address 8 word)).read address 8 = word :=
  read_of_bytes fun k inside => write_storeWrites_apply memory address (by omega) word inside

/-- Writes elsewhere do not change what is read. -/
theorem read_write_disjoint (memory : Memory) {writes : List (Word × Byte)} {address : Word}
    {width : Nat} (apart : ∀ cell ∈ addresses address width, cell ∉ writes.map Prod.fst) :
    (memory.write writes).read address width = memory.read address width := by
  apply read_congr
  intro cell cellMem
  exact write_apply_of_notMem _ (apart cell cellMem)

end Memory

end VliwCompiler.Machine
