import VliwCompiler.Codegen.Placed
import VliwCompiler.Pack.Merge

/-!
# What the verifier accepts

The verifier looks the units of a slot up by itself.  A bundle is accepted
exactly when every syllable is in a slot that the backend considers legal for its
opcode and the syllables do not meet in a general-purpose register.
-/

namespace VliwCompiler.Pack

open Asm (Opcode Operand Bundle Item Processor Program gprWrite gprReads visitSlot findWaw findRaw
  Accesses verifyBundle verifyProgram)
open Codegen (slotSupportsOpcode slotSupportsOpcodeWithUnits Placed)

/-- Every syllable is in a slot that can execute it. -/
def Legal (processor : Processor) (bundle : Bundle) : Prop :=
  ∀ slot < processor.width, ∀ syllable, bundle.slots[slot]? = some (some syllable) →
    ∃ opcode, Opcode.fromMnemonic syllable.opcode = some opcode ∧
      slotSupportsOpcode slot opcode processor = true

/-- The verifier and the backend agree on the opcodes of a slot. -/
theorem slotSupportsOpcode_iff {slot : Nat} {opcode : Opcode} {processor : Processor}
    (proper : opcode ≠ .nop) :
    slotSupportsOpcode slot opcode processor = true ↔
      (opcode.units.any fun kind => kind ∈ Asm.slotUnitKinds processor slot) = true := by
  unfold slotSupportsOpcode slotSupportsOpcodeWithUnits Asm.slotUnitKinds
  rw [if_neg proper]
  cases processor.slotUnits[slot]? with
  | none => simp
  | some slotUnits =>
      rw [Option.getD_some, List.any_eq_true, List.any_eq_true]
      constructor
      · rintro ⟨kind, kindMem, isUnit⟩
        exact ⟨kind, of_decide_eq_true isUnit, decide_eq_true kindMem⟩
      · rintro ⟨kind, isUnit, kindMem⟩
        exact ⟨kind, of_decide_eq_true kindMem, decide_eq_true isUnit⟩

/-! ### Accepted bundles are legal -/

theorem legal_of_visitSlot {bundle : Bundle} {processor : Processor} {before after : Accesses}
    {slot : Nat} (inside : slot < processor.width)
    (visited : visitSlot bundle processor before slot = .ok after) {syllable : Asm.Syllable}
    (found : bundle.slots[slot]? = some (some syllable)) :
    ∃ opcode, Opcode.fromMnemonic syllable.opcode = some opcode ∧
      slotSupportsOpcode slot opcode processor = true := by
  unfold visitSlot at visited
  rw [found] at visited
  simp only [Option.join_some] at visited
  split at visited
  · cases visited
  · rename_i opcode known
    refine ⟨opcode, known, ?_⟩
    by_cases nop : opcode = .nop
    · unfold slotSupportsOpcode
      rw [if_pos nop]
      exact decide_eq_true inside
    · rw [if_neg nop] at visited
      split at visited
      · rename_i supported
        exact (slotSupportsOpcode_iff nop).mpr supported
      · cases visited

theorem legal_of_visitSlots {bundle : Bundle} {processor : Processor} {slots : List Nat}
    (inside : ∀ slot ∈ slots, slot < processor.width) {before after : Accesses}
    (visited : slots.foldlM (visitSlot bundle processor) before = .ok after) :
    ∀ slot ∈ slots, ∀ syllable, bundle.slots[slot]? = some (some syllable) →
      ∃ opcode, Opcode.fromMnemonic syllable.opcode = some opcode ∧
        slotSupportsOpcode slot opcode processor = true := by
  induction slots generalizing before with
  | nil => simp
  | cons slot slots ih =>
      obtain ⟨firstInside, restInside⟩ := List.forall_mem_cons.mp inside
      rw [List.foldlM_cons] at visited
      obtain ⟨middle, first, others⟩ := bind_eq_ok.mp visited
      refine List.forall_mem_cons.mpr ⟨?_, ih restInside others⟩
      exact fun syllable found => legal_of_visitSlot firstInside first found

/-! ### Legal bundles are accepted -/

/-- The accesses recorded for the visited slots. -/
structure Collected (bundle : Bundle) (slots : List Nat) (accesses : Accesses) : Prop where
  writes : ∀ write ∈ accesses.writes, write.2 ∈ slots ∧
    ∃ syllable, bundle.slots[write.2]? = some (some syllable) ∧
      gprWriteOf syllable = some write.1
  reads : ∀ read ∈ accesses.reads, read.2 ∈ slots ∧
    ∃ syllable, bundle.slots[read.2]? = some (some syllable) ∧ read.1 ∈ gprReadsOf syllable
  distinct : accesses.writes.Pairwise fun first second => first.2 ≠ second.2

theorem Collected.skip {bundle : Bundle} {slots : List Nat} {accesses : Accesses}
    (collected : Collected bundle slots accesses) (slot : Nat) :
    Collected bundle (slots ++ [slot]) accesses where
  writes write writeMem :=
    ⟨List.mem_append_left _ (collected.writes write writeMem).1,
      (collected.writes write writeMem).2⟩
  reads read readMem :=
    ⟨List.mem_append_left _ (collected.reads read readMem).1, (collected.reads read readMem).2⟩
  distinct := collected.distinct

theorem exists_visitSlot {bundle : Bundle} {processor : Processor} (legal : Legal processor bundle)
    {slots : List Nat} {slot : Nat} (inside : slot < processor.width) (fresh : slot ∉ slots)
    {before : Accesses} (collected : Collected bundle slots before) :
    ∃ after, visitSlot bundle processor before slot = .ok after ∧
      Collected bundle (slots ++ [slot]) after := by
  unfold visitSlot
  cases found : bundle.slots[slot]?.join with
  | none => exact ⟨before, rfl, collected.skip slot⟩
  | some syllable =>
      have atSlot : bundle.slots[slot]? = some (some syllable) := Option.join_eq_some_iff.mp found
      obtain ⟨opcode, known, supported⟩ := legal slot inside syllable atSlot
      simp only [known]
      by_cases nop : opcode = .nop
      · rw [if_pos nop]
        exact ⟨before, rfl, collected.skip slot⟩
      · rw [if_neg nop, if_pos ((slotSupportsOpcode_iff nop).mp supported)]
        have kept := collected.skip slot
        refine ⟨_, rfl, ?_, ?_, ?_⟩
        · refine List.forall_mem_append.mpr ⟨kept.writes, ?_⟩
          intro write writeMem
          obtain ⟨reg, regMem, rfl⟩ := List.mem_map.mp writeMem
          refine ⟨by simp, syllable, atSlot, ?_⟩
          simpa [gprWriteOf, known, nop] using regMem
        · refine List.forall_mem_append.mpr ⟨kept.reads, ?_⟩
          intro read readMem
          obtain ⟨reg, regMem, rfl⟩ := List.mem_map.mp readMem
          refine ⟨by simp, syllable, atSlot, ?_⟩
          simpa [gprReadsOf, known, nop] using regMem
        · refine List.pairwise_append.mpr ⟨collected.distinct, ?_, ?_⟩
          · cases gprWrite opcode syllable.operands <;> simp
          · intro first firstMem second secondMem same
            obtain ⟨reg, -, rfl⟩ := List.mem_map.mp secondMem
            have atSlot : first.2 = slot := same
            exact fresh (atSlot ▸ (collected.writes first firstMem).1)

theorem exists_visitSlots {bundle : Bundle} {processor : Processor}
    (legal : Legal processor bundle) {visited slots : List Nat}
    (inside : ∀ slot ∈ slots, slot < processor.width) (distinct : (visited ++ slots).Nodup)
    {before : Accesses} (collected : Collected bundle visited before) :
    ∃ after, slots.foldlM (visitSlot bundle processor) before = .ok after ∧
      Collected bundle (visited ++ slots) after := by
  induction slots generalizing visited before with
  | nil => exact ⟨before, rfl, by rwa [List.append_nil]⟩
  | cons slot slots ih =>
      obtain ⟨firstInside, restInside⟩ := List.forall_mem_cons.mp inside
      have fresh : slot ∉ visited := fun slotMem =>
        (List.nodup_append.mp distinct).2.2 slot slotMem slot List.mem_cons_self rfl
      obtain ⟨middle, first, middleCollected⟩ := exists_visitSlot legal firstInside fresh collected
      have split : visited ++ slot :: slots = visited ++ [slot] ++ slots := by simp
      rw [split] at distinct ⊢
      obtain ⟨after, others, afterCollected⟩ := ih restInside distinct middleCollected
      refine ⟨after, ?_, afterCollected⟩
      rw [List.foldlM_cons, first]
      exact others

theorem findWaw_eq_none {writes : List (UInt8 × Nat)}
    (distinct : writes.Pairwise fun first second => first.1 ≠ second.1) :
    findWaw writes = none := by
  induction distinct with
  | nil => rfl
  | @cons write rest different _ ih =>
      obtain ⟨reg, slot⟩ := write
      unfold findWaw
      rw [List.find?_eq_none.mpr fun other otherMem => by simpa using (different other otherMem).symm]
      exact ih

/-- A bundle is accepted exactly when its slots are legal and its syllables do
not meet in a general-purpose register. -/
theorem verifyBundle_eq_ok_iff {bundle : Bundle} {processor : Processor} :
    verifyBundle bundle processor = .ok () ↔
      Legal processor bundle ∧ Verified bundle processor.width := by
  constructor
  · intro accepted
    refine ⟨?_, verified_of_verifyBundle accepted⟩
    obtain ⟨accesses, visited, -⟩ := bind_eq_ok.mp accepted
    intro slot inside
    exact legal_of_visitSlots (fun slot slotMem => List.mem_range.mp slotMem) visited slot
      (List.mem_range.mpr inside)
  · rintro ⟨legal, verified⟩
    have start : Collected bundle [] {} := ⟨by simp, by simp, .nil⟩
    obtain ⟨accesses, visited, collected⟩ := exists_visitSlots legal
      (fun slot slotMem => List.mem_range.mp slotMem)
      (show ([] ++ List.range processor.width).Nodup from List.nodup_range) start
    have insideWrite : ∀ write ∈ accesses.writes, write.2 < processor.width :=
      fun write writeMem => List.mem_range.mp (collected.writes write writeMem).1
    have noWaw : findWaw accesses.writes = none := by
      refine findWaw_eq_none (List.Pairwise.imp_of_mem ?_ collected.distinct)
      intro first second firstMem secondMem different same
      obtain ⟨-, left, isLeft, leftWrites⟩ := collected.writes first firstMem
      obtain ⟨-, right, isRight, rightWrites⟩ := collected.writes second secondMem
      exact verified.waw (insideWrite first firstMem) (insideWrite second secondMem) different
        isLeft isRight leftWrites (same ▸ rightWrites)
    have noRaw : findRaw accesses = none := by
      unfold findRaw
      rw [List.findSome?_eq_none_iff]
      intro read readMem
      rw [Option.map_eq_none_iff, List.find?_eq_none]
      intro write writeMem hazard
      obtain ⟨same, different⟩ := of_decide_eq_true hazard
      obtain ⟨readInside, reader, isReader, reads⟩ := collected.reads read readMem
      obtain ⟨-, writer, isWriter, writes⟩ := collected.writes write writeMem
      exact verified.raw (insideWrite write writeMem) (List.mem_range.mp readInside)
        different.symm isWriter isReader writes (same ▸ reads)
    refine bind_eq_ok.mpr ⟨accesses, visited, ?_⟩
    rw [noWaw, noRaw]
    rfl

/-! ### Placed bundles -/

/-- The verifier accepts every placed bundle. -/
theorem verified_of_placed {processor : Processor} {bundle : Bundle}
    (placed : Placed processor bundle) : verifyBundle bundle processor = .ok () := by
  rw [verifyBundle_eq_ok_iff]
  cases placed with
  | wait => exact ⟨by simp [Legal], by constructor <;> simp⟩
  | @issue opcode asm slot inside known supported =>
      have only : ∀ {other : Nat} {syllable : Asm.Syllable},
          ((List.replicate processor.width (none : Option Asm.Syllable)).set slot
            (some asm))[other]? = some (some syllable) → other = slot ∧ syllable = asm := by
        intro other syllable found
        rw [List.getElem?_set] at found
        split at found
        · rename_i same
          split at found
          · exact ⟨same.symm, (Option.some.inj (Option.some.inj found)).symm⟩
          · cases found
        · simp [List.getElem?_replicate] at found
      refine ⟨?_, ?_, ?_⟩
      · intro other _ syllable found
        obtain ⟨rfl, rfl⟩ := only found
        exact ⟨opcode, known, supported⟩
      · intro i j first second reg _ _ different isFirst isSecond
        exact absurd ((only isFirst).1.trans (only isSecond).1.symm) different
      · intro i j first second reg _ _ different isFirst isSecond
        exact absurd ((only isFirst).1.trans (only isSecond).1.symm) different

theorem verifyProgram_eq_ok_iff {program : Program} :
    verifyProgram program = .ok () ↔
      ∀ bundle, Item.bundle bundle ∈ program.items →
        verifyBundle bundle program.processor = .ok () := by
  obtain ⟨processor, items⟩ := program
  unfold verifyProgram
  induction items with
  | nil => simp [List.forM_nil, pure, Except.pure]
  | cons item items ih =>
      cases item with
      | label name =>
          change (items.forM _ : Except _ _) = _ ↔ _
          rw [ih]
          simp
      | bundle bundle =>
          constructor
          · intro accepted
            obtain ⟨⟨⟩, first, others⟩ := bind_eq_ok.mp accepted
            intro other otherMem
            rcases List.mem_cons.mp otherMem with same | tailMem
            · cases same
              exact first
            · exact ih.mp others other tailMem
          · intro accepted
            refine bind_eq_ok.mpr ⟨(), accepted bundle List.mem_cons_self, ih.mpr ?_⟩
            exact fun other tailMem => accepted other (List.mem_cons_of_mem _ tailMem)

end VliwCompiler.Pack
