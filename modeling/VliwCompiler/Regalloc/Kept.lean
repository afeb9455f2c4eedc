import VliwCompiler.Regalloc.Allocated
import VliwCompiler.Pack.Bounds

/-!
# What allocation keeps

Renaming registers keeps the shape of every syllable: operands that fit their
opcode still do, and a constant address that overflows still does.  Spill code
fits its opcodes and addresses its slot without a displacement.
-/

namespace VliwCompiler.Regalloc

open Asm (Opcode I64)
open Mir (Reg Value Syllable Terminator Block Function)
open Pack (AddressOverflows)

/-! ### Operands -/

section

variable {value value' : Value} {values values' : List Value}

theorem RenamedValue.source (renamed : RenamedValue value value') (predSrc : Bool) :
    (value'.source predSrc).isSome = (value.source predSrc).isSome := by
  cases renamed with
  | reg => rfl
  | imm => rfl
  | stack => rfl

theorem RenamedValue.imm_iff (renamed : RenamedValue value value') (word : I64) :
    value' = .imm word ↔ value = .imm word := by
  cases renamed with
  | reg => simp
  | imm => rfl
  | stack => simp

theorem RenamedValue.stack_iff (renamed : RenamedValue value value') (word : I64) :
    value' = .stack word ↔ value = .stack word := by
  cases renamed with
  | reg => simp
  | imm => simp
  | stack => rfl

theorem isSome_sources_of_renamed (renamed : List.Forall₂ RenamedValue values values')
    (predSrc : Bool) :
    (values'.mapM (Value.source predSrc)).isSome = (values.mapM (Value.source predSrc)).isSome := by
  rw [Bool.eq_iff_iff, mapM_isSome_iff, mapM_isSome_iff]
  constructor
  · intro isSome value valueMem
    rcases exists_image_of_forall₂ renamed valueMem with ⟨value', valueMem', isRenamed⟩
    rw [← isRenamed.source]
    exact isSome value' valueMem'
  · intro isSome value' valueMem'
    rcases exists_mem_of_forall₂ renamed valueMem' with ⟨value, valueMem, isRenamed⟩
    rw [isRenamed.source]
    exact isSome value valueMem

theorem isSome_loadAddress_of_renamed (renamed : List.Forall₂ RenamedValue values values') :
    (Mir.loadAddress values').isSome = (Mir.loadAddress values).isSome := by
  cases renamed with
  | nil => rfl
  | cons first rest =>
      cases rest with
      | nil => rfl
      | cons second rest =>
          cases rest with
          | nil =>
              cases second with
              | reg => rfl
              | imm => rfl
              | stack => rfl
          | cons third rest =>
              cases second with
              | reg => rfl
              | imm => rfl
              | stack => rfl

/-- The operands of a store keep their places. -/
theorem isSome_storeOperands_of_renamed (renamed : List.Forall₂ RenamedValue values values') :
    ((Mir.storeOperands values').bind fun operands => operands.2.source false).isSome =
      ((Mir.storeOperands values).bind fun operands => operands.2.source false).isSome := by
  cases renamed with
  | nil => rfl
  | cons first rest =>
      cases rest with
      | nil => rfl
      | cons second rest =>
          cases rest with
          | nil => exact second.source false
          | cons third rest =>
              cases rest with
              | nil =>
                  cases second with
                  | reg => rfl
                  | imm => exact third.source false
                  | stack => rfl
              | cons fourth rest =>
                  cases second with
                  | reg => rfl
                  | imm => rfl
                  | stack => rfl

end

/-! ### Syllables -/

section

variable {syllable syllable' : Syllable}

theorem RenamedSyllable.hasDst (renamed : RenamedSyllable syllable syllable') :
    syllable'.dst.isSome = syllable.dst.isSome := by
  have dst := renamed.dst
  generalize syllable.dst = given at dst
  generalize syllable'.dst = final at dst
  cases dst with
  | none => rfl
  | some => rfl

theorem RenamedSyllable.isSome_action (renamed : RenamedSyllable syllable syllable') :
    syllable'.action.isSome = syllable.action.isSome := by
  have scalars := isSome_sources_of_renamed renamed.srcs (Mir.predicateSources syllable.opcode)
  have address := isSome_loadAddress_of_renamed renamed.srcs
  have operands := isSome_storeOperands_of_renamed renamed.srcs
  unfold Syllable.action
  rw [renamed.opcode]
  cases syllable.opcode.behavior with
  | compute => simpa using scalars
  | test => simpa using scalars
  | load width => simpa using address
  | store width =>
      revert operands
      cases Mir.storeOperands syllable'.srcs <;> cases Mir.storeOperands syllable.srcs <;> simp
  | acquire => simpa using scalars
  | release => simpa using scalars
  | inert => simpa using scalars
  | control => rfl

theorem RenamedSyllable.wellFormed (renamed : RenamedSyllable syllable syllable')
    (wellFormed : syllable.WellFormed) : syllable'.WellFormed := by
  unfold Syllable.WellFormed at wellFormed ⊢
  rw [renamed.isSome_action, renamed.hasDst, renamed.opcode]
  exact wellFormed

/-- Operands that are the same up to the registers they name. -/
structure Alike (value value' : Value) : Prop where
  imm : ∀ word, value = .imm word → value' = .imm word
  stack : ∀ word, value = .stack word → value' = .stack word

theorem RenamedValue.alike {value value' : Value} (renamed : RenamedValue value value') :
    Alike value value' ∧ Alike value' value :=
  ⟨⟨fun word => (renamed.imm_iff word).mpr, fun word => (renamed.stack_iff word).mpr⟩,
    ⟨fun word => (renamed.imm_iff word).mp, fun word => (renamed.stack_iff word).mp⟩⟩

theorem addressOverflows_of_alike (sameOpcode : syllable'.opcode = syllable.opcode)
    (alike : List.Forall₂ Alike syllable.srcs syllable'.srcs)
    (overflows : AddressOverflows syllable) : AddressOverflows syllable' := by
  rcases overflows with ⟨address, offset, rest, overflows, isAddress, isUsed⟩
  have sameRest : ∃ rest', rest'.length = rest.length ∧
      (syllable'.srcs = .imm address :: .imm offset :: rest' ∨
        syllable'.srcs = .stack address :: .imm offset :: rest') := by
    rcases isAddress with isSrcs | isSrcs
    · rw [isSrcs] at alike
      rcases List.forall₂_cons_left_iff.mp alike with ⟨base, others, isBase, onOthers, same⟩
      rcases List.forall₂_cons_left_iff.mp onOthers with ⟨second, rest', isOffset, onRest, rfl⟩
      rw [isBase.imm _ rfl, isOffset.imm _ rfl] at same
      exact ⟨rest', onRest.length_eq.symm, .inl same⟩
    · rw [isSrcs] at alike
      rcases List.forall₂_cons_left_iff.mp alike with ⟨base, others, isBase, onOthers, same⟩
      rcases List.forall₂_cons_left_iff.mp onOthers with ⟨second, rest', isOffset, onRest, rfl⟩
      rw [isBase.stack _ rfl, isOffset.imm _ rfl] at same
      exact ⟨rest', onRest.length_eq.symm, .inr same⟩
  rcases sameRest with ⟨rest', sameLength, isAddress'⟩
  refine ⟨address, offset, rest', overflows, isAddress', ?_⟩
  rw [sameOpcode]
  rw [← List.length_eq_zero_iff, ← List.length_eq_one_iff] at isUsed ⊢
  rw [sameLength]
  exact isUsed

/-- Renaming neither makes nor removes an address that overflows. -/
theorem RenamedSyllable.addressOverflows_iff (renamed : RenamedSyllable syllable syllable') :
    AddressOverflows syllable' ↔ AddressOverflows syllable := by
  constructor
  · apply addressOverflows_of_alike renamed.opcode.symm
    exact renamed.srcs.flip.imp fun _ _ isRenamed => isRenamed.alike.2
  · apply addressOverflows_of_alike renamed.opcode
    exact renamed.srcs.imp fun _ _ isRenamed => isRenamed.alike.1

theorem Inserted.wellFormed (inserted : Inserted syllable) : syllable.WellFormed := by
  cases inserted with
  | store => exact ⟨rfl, by simp [spillStore, Opcode.writesGpr, Opcode.writesPred]⟩
  | load => exact ⟨rfl, by simp [spillLoad, Opcode.writesGpr, Opcode.writesPred]⟩

/-- Spill code has no displacement. -/
theorem Inserted.not_addressOverflows (inserted : Inserted syllable) :
    ¬AddressOverflows syllable := by
  cases inserted with
  | store => simp [AddressOverflows, spillStore]
  | load => simp [AddressOverflows, spillLoad]

theorem Inserted.opcode (inserted : Inserted syllable) :
    syllable.opcode = .storeD ∨ syllable.opcode = .loadD := by
  cases inserted with
  | store => exact .inl rfl
  | load => exact .inr rfl

end

/-! ### Code -/

section

variable {syllables syllables' : List Syllable}

/-- What holds of spill code and is kept by renaming holds of allocated code. -/
theorem Interleaved.forall_mem (property : Syllable → Prop)
    (onInserted : ∀ syllable, Inserted syllable → property syllable)
    (onRenamed : ∀ syllable syllable', RenamedSyllable syllable syllable' → property syllable →
      property syllable')
    (interleaved : Interleaved syllables syllables')
    (holds : ∀ syllable ∈ syllables, property syllable) :
    ∀ syllable ∈ syllables', property syllable := by
  induction interleaved with
  | nil => exact holds
  | inserted isInserted _ ih => exact List.forall_mem_cons.mpr ⟨onInserted _ isInserted, ih holds⟩
  | renamed isRenamed _ ih =>
      rcases List.forall_mem_cons.mp holds with ⟨first, others⟩
      exact List.forall_mem_cons.mpr ⟨onRenamed _ _ isRenamed first, ih others⟩

/-- Every syllable is still there, renamed. -/
theorem Interleaved.exists_renamed (interleaved : Interleaved syllables syllables')
    {syllable : Syllable} (syllableMem : syllable ∈ syllables) :
    ∃ syllable' ∈ syllables', RenamedSyllable syllable syllable' := by
  induction interleaved with
  | nil => cases syllableMem
  | inserted _ _ ih =>
      rcases ih syllableMem with ⟨syllable', mem, isRenamed⟩
      exact ⟨syllable', List.mem_cons_of_mem _ mem, isRenamed⟩
  | renamed isRenamed _ ih =>
      rcases List.mem_cons.mp syllableMem with rfl | inRest
      · exact ⟨_, List.mem_cons_self, isRenamed⟩
      · rcases ih inRest with ⟨syllable', mem, isRenamed⟩
        exact ⟨syllable', List.mem_cons_of_mem _ mem, isRenamed⟩

/-- A block has an address that overflows before allocation exactly when it has
one after. -/
theorem RenamedBlock.addressOverflows_iff {block block' : Block}
    (renamed : RenamedBlock block block') :
    (∀ syllable ∈ block'.syllables, ¬AddressOverflows syllable) ↔
      ∀ syllable ∈ block.syllables, ¬AddressOverflows syllable := by
  constructor
  · intro fits syllable syllableMem
    rcases renamed.syllables.exists_renamed syllableMem with ⟨syllable', mem, isRenamed⟩
    rw [← isRenamed.addressOverflows_iff]
    exact fits syllable' mem
  · exact renamed.syllables.forall_mem (¬AddressOverflows ·)
      (fun _ inserted => inserted.not_addressOverflows)
      fun _ _ isRenamed => mt isRenamed.addressOverflows_iff.mp

theorem RenamedBlock.wellFormed {block block' : Block} (renamed : RenamedBlock block block')
    (wellFormed : ∀ syllable ∈ block.syllables, syllable.WellFormed) :
    ∀ syllable ∈ block'.syllables, syllable.WellFormed :=
  renamed.syllables.forall_mem Syllable.WellFormed (fun _ inserted => inserted.wellFormed)
    (fun _ _ isRenamed => isRenamed.wellFormed) wellFormed

end

/-! ### Failures -/

/-- The failure is a panic. -/
def IsPanic (failure : Failure) : Prop := ∃ message, failure = .panic message

section

open Liveness

variable {failure : Failure}

theorem isPanic_of_insert {set : LiveSet} {idx : Nat} (failed : set.insert idx = .error failure) :
    IsPanic failure := by
  unfold LiveSet.insert at failed
  split at failed
  · cases failed
  · cases failed
    exact ⟨_, rfl⟩

theorem isPanic_of_map {f : LiveSet → BlockInfo} {set : Outcome LiveSet}
    (failed : set.map f = .error failure) (reason : set = .error failure → IsPanic failure) :
    IsPanic failure := by
  cases set with
  | ok value => cases failed
  | error other =>
      cases failed
      exact reason rfl

theorem isPanic_of_scanVreg {info : BlockInfo} {idx : Nat}
    (failed : scanVreg info idx = .error failure) : IsPanic failure := by
  unfold scanVreg at failed
  split at failed
  · cases failed
  · exact isPanic_of_map failed isPanic_of_insert

theorem isPanic_of_scanSource {info : BlockInfo} {value : Value}
    (failed : scanSource info value = .error failure) : IsPanic failure := by
  unfold scanSource at failed
  split at failed
  · exact isPanic_of_scanVreg failed
  · cases failed

theorem isPanic_of_scanSyllable {info : BlockInfo} {syllable : Syllable}
    (failed : scanSyllable info syllable = .error failure) : IsPanic failure := by
  rcases bind_eq_error.mp failed with inSources | ⟨read, -, inDst⟩
  · rcases exists_step_of_foldlM_error inSources with ⟨-, value, -, current, -, -, atValue⟩
    exact isPanic_of_scanSource atValue
  · split at inDst
    · exact isPanic_of_map inDst isPanic_of_insert
    · cases inDst

theorem isPanic_of_scanBlock {block : Block} (failed : scanBlock block = .error failure) :
    IsPanic failure := by
  rcases bind_eq_error.mp failed with inCode | ⟨scanned, -, inTerminator⟩
  · rcases exists_step_of_foldlM_error inCode with ⟨-, syllable, -, current, -, -, atSyllable⟩
    exact isPanic_of_scanSyllable atSyllable
  · unfold scanTerminator at inTerminator
    split at inTerminator
    · exact isPanic_of_scanVreg inTerminator
    · cases inTerminator

/-- With a register from 64 on, liveness analysis panics. -/
theorem exists_panic_of_compute {function : Function}
    (large : ¬∀ block ∈ function.blocks, SmallIndices block) :
    ∃ message, Liveness.compute function = .error (.panic message) := by
  have failed : ∃ failure, function.blocks.mapM scanBlock = .error failure := by
    cases scanned : function.blocks.mapM scanBlock with
    | error failure => exact ⟨failure, rfl⟩
    | ok infos =>
        refine absurd (fun block blockMem => ?_) large
        rcases exists_image_of_forall₂ (mapM_eq_ok_iff.mp scanned) blockMem with ⟨info, -, isInfo⟩
        exact exists_scanBlock.mp ⟨info, isInfo⟩
  rcases failed with ⟨failure, failed⟩
  rcases exists_item_of_mapM_error failed with ⟨-, block, -, -, -, atBlock⟩
  rcases isPanic_of_scanBlock atBlock with ⟨message, rfl⟩
  exact ⟨message, bind_eq_error.mpr (.inl failed)⟩

/-- The address of the spill area does not overflow, and all virtual registers are
below 64. -/
def Allocatable (memorySize : Nat) (function : Function) : Prop :=
  Addressable memorySize ∧ ∀ block ∈ function.blocks, SmallIndices block

/-- A function whose syllables read few registers is allocated when it is
allocatable, and otherwise allocation panics. -/
theorem allocateRegisters_cases (order : HashOrder) {function : Function} (memorySize : Nat)
    (few : (∀ block ∈ function.blocks, SmallIndices block) →
      ∀ block ∈ function.blocks, FewSources 64 block) :
    (∃ allocated, allocateRegisters order function memorySize = .ok allocated ∧
        RenamedFunction function allocated) ∧ Allocatable memorySize function ∨
      (∃ message, allocateRegisters order function memorySize = .error (.panic message)) ∧
        ¬Allocatable memorySize function := by
  by_cases small : ∀ block ∈ function.blocks, SmallIndices block
  · by_cases addressable : Addressable memorySize
    · exact .inl ⟨exists_allocated order addressable (few small), addressable, small⟩
    · right
      refine ⟨⟨"attempt to multiply with overflow", ?_⟩, fun both => addressable both.1⟩
      rcases exists_compute.mpr small with ⟨infos, computed⟩
      exact bind_eq_error.mpr (.inl (bind_eq_error.mpr (.inr ⟨infos, computed,
        bind_eq_error.mpr (.inl (spillBase_of_not_addressable addressable))⟩)))
  · right
    refine ⟨?_, fun both => small both.2⟩
    rcases exists_panic_of_compute small with ⟨message, panics⟩
    exact ⟨message, bind_eq_error.mpr (.inl (bind_eq_error.mpr (.inl panics)))⟩

end

end VliwCompiler.Regalloc
