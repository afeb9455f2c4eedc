import VliwCompiler.Isel.Activations
import VliwCompiler.Mir.Shape
import VliwCompiler.Pack.Return
import VliwCompiler.Pack.Stalls
import VliwCompiler.Pipeline.Compile

/-!
# Conventions of compiled code

The emitters rely on conventions that selection and allocation keep: operands and
destinations fit the opcodes, control is transferred at the ends of blocks only, no
opcode takes more than three cycles, the link register is written by loads from a
fixed address only, and all transfers have targets.
-/

namespace VliwCompiler.Pipeline

open Asm (Opcode)
open Mir (Reg Syllable Terminator Block)
open Codegen (DestinationsFit Op WellFormedModule functionOps)
open Isel (AvoidsLink CopyOrder FitsAt LinkedCode SavesLink Shape lowerAllFunctions
  linkedCode_of_lowerAllFunctions restoreLink saveLink targetsDefined_of_lowerAllFunctions)
open Pack (ControlAtEnd LinkCode LinkSyllable PlainCode PlainSyllable linkKey)
open Regalloc (HashOrder Inserted RenamedFunction RenamedReg RenamedSyllable)
open Regalloc.Allocator (allocatable)
open VliwCompiler.Schedule (destRegKey)

/-- The functions of a module as the emitters expect them. -/
structure Conventional (functions : List Mir.Function) : Prop where
  operands : WellFormedModule functions
  destinations : ∀ function ∈ functions, DestinationsFit function
  control : ControlAtEnd functions
  plain : ∀ function ∈ functions, PlainCode function
  link : ∀ function ∈ functions, LinkCode function
  targets : Mir.TargetsDefined functions

/-! ### Selected syllables -/

/-- The link register is loaded from a fixed address. -/
def LoadsLink (syllable : Syllable) : Prop :=
  syllable.dst = some (.preg linkReg) →
    syllable.opcode = .loadD ∧ ∃ address, syllable.srcs = [.imm address]

/-- The opcode is one of a syllable inside a block, and has its result after three
cycles. -/
def IsOrdinary (opcode : Opcode) : Prop :=
  opcode.behavior ≠ .control ∧ opcode.latency ≤ 3 ∧ opcode ≠ .nop

instance (opcode : Opcode) : Decidable (IsOrdinary opcode) :=
  inferInstanceAs (Decidable (_ ∧ _))

theorem plainSyllable_of_ordinary {syllable : Syllable} (ordinary : IsOrdinary syllable.opcode)
    (fits : (syllable.opcode.writesGpr || syllable.opcode.writesPred) = syllable.dst.isSome) :
    PlainSyllable syllable := by
  rcases ordinary with ⟨straight, quick, proper⟩
  refine ⟨?_, straight, quick, proper⟩
  change syllable.dst.isSome = true ↔ _
  rw [← fits, Bool.or_eq_true]

theorem plainSyllable_of_shape {fixed : UInt8 → Prop} {syllable : Syllable}
    (shape : Shape fixed syllable) : PlainSyllable syllable := by
  cases shape with
  | constant => exact plainSyllable_of_ordinary (by decide : IsOrdinary .movImm) rfl
  | move => exact plainSyllable_of_ordinary (by decide : IsOrdinary .mov) rfl
  | negate => exact plainSyllable_of_ordinary (by decide : IsOrdinary .pNot) rfl
  | binary op =>
      have ordinary : IsOrdinary (Isel.binaryOpcode op) := by cases op <;> decide
      exact plainSyllable_of_ordinary ordinary (by cases op <;> rfl)
  | compare opcode isComparison =>
      have ordinary : ∀ opcode ∈ [Opcode.cmpEq, .cmpLt, .cmpUlt],
          IsOrdinary opcode ∧ (opcode.writesGpr || opcode.writesPred) = true := by decide
      rcases ordinary opcode isComparison with ⟨isOrdinary, writes⟩
      exact plainSyllable_of_ordinary isOrdinary writes
  | load opcode isLoad =>
      have ordinary : ∀ opcode ∈ [Opcode.loadB, .loadW, .loadD],
          IsOrdinary opcode ∧ (opcode.writesGpr || opcode.writesPred) = true := by decide
      rcases ordinary opcode isLoad with ⟨isOrdinary, writes⟩
      exact plainSyllable_of_ordinary isOrdinary writes
  | store opcode isStore =>
      have ordinary : ∀ opcode ∈ [Opcode.storeB, .storeW, .storeD],
          IsOrdinary opcode ∧ (opcode.writesGpr || opcode.writesPred) = false := by decide
      rcases ordinary opcode isStore with ⟨isOrdinary, writes⟩
      exact plainSyllable_of_ordinary isOrdinary writes

theorem loadsLink_of_avoidsLink {syllable : Syllable} (avoids : AvoidsLink syllable) :
    LoadsLink syllable :=
  fun isLink => absurd isLink avoids.1

/-- Selected code loads the link register behind calls only. -/
theorem loadsLink_of_fitsAt {memorySize idx : Nat} {blocks : List Block} {block : Block}
    (fits : FitsAt memorySize blocks idx block) :
    ∀ syllable ∈ block.syllables, LoadsLink syllable := by
  rcases fits with ⟨lead, body, isCode, saves, isLead⟩
  have inLead : ∀ syllable ∈ lead, LoadsLink syllable := by
    rcases isLead with ⟨rfl, -⟩ | ⟨rfl, -⟩
    · exact List.forall_mem_singleton.mpr fun _ => ⟨rfl, _, rfl⟩
    · simp
  rw [isCode]
  refine List.forall_mem_append.mpr ⟨inLead, ?_⟩
  unfold SavesLink at saves
  split at saves
  · rcases saves with ⟨front, back, rfl, frontAvoids, backAvoids⟩
    refine List.forall_mem_append.mpr
      ⟨fun syllable syllableMem => loadsLink_of_avoidsLink (frontAvoids syllable syllableMem),
        List.forall_mem_cons.mpr ⟨?_, ?_⟩⟩
    · intro isLink
      cases isLink
    · exact fun syllable syllableMem => loadsLink_of_avoidsLink (backAvoids syllable syllableMem).left
  · exact fun syllable syllableMem => loadsLink_of_avoidsLink (saves syllable syllableMem)

/-! ### Allocated syllables -/

theorem linkReg_notMem_allocatable : linkReg ∉ allocatable := by decide

theorem plainSyllable_of_inserted {syllable : Syllable} (inserted : Inserted syllable) :
    PlainSyllable syllable := by
  cases inserted with
  | store => exact plainSyllable_of_ordinary (by decide : IsOrdinary .storeD) rfl
  | load => exact plainSyllable_of_ordinary (by decide : IsOrdinary .loadD) rfl

theorem loadsLink_of_inserted {syllable : Syllable} (inserted : Inserted syllable) :
    LoadsLink syllable := by
  cases inserted with
  | store slot allocated =>
      intro isLink
      cases isLink
  | load slot allocated =>
      intro isLink
      cases isLink
      exact absurd allocated linkReg_notMem_allocatable

theorem plainSyllable_of_renamed {syllable syllable' : Syllable}
    (renamed : RenamedSyllable syllable syllable') (plain : PlainSyllable syllable) :
    PlainSyllable syllable' := by
  have same : syllable'.dst.isSome = syllable.dst.isSome := by
    have related := renamed.dst
    generalize syllable.dst = dst at related
    generalize syllable'.dst = dst' at related
    cases related <;> rfl
  rcases plain with ⟨fits, straight, quick, proper⟩
  rw [← renamed.opcode] at straight quick proper
  refine ⟨?_, straight, quick, proper⟩
  change syllable'.dst.isSome = true ↔ _
  rw [same, renamed.opcode]
  exact fits

theorem LoadsLink.renamed {syllable syllable' : Syllable}
    (renamed : RenamedSyllable syllable syllable') (loads : LoadsLink syllable) :
    LoadsLink syllable' := by
  intro isLink
  have isSource : syllable.dst = some (.preg linkReg) := by
    have related := renamed.dst
    rw [isLink] at related
    generalize syllable.dst = dst at related
    cases related with
    | some isReg =>
        cases isReg with
        | vreg v allocated => exact absurd allocated linkReg_notMem_allocatable
        | fixed => rfl
  rcases loads isSource with ⟨isLoad, address, isSrcs⟩
  refine ⟨renamed.opcode.trans isLoad, address, ?_⟩
  have related := renamed.srcs
  rw [isSrcs] at related
  generalize syllable'.srcs = srcs at related
  cases related with
  | cons isValue rest =>
      cases rest
      cases isValue
      rfl

theorem dst_of_destRegKey {syllable : Syllable} (isLink : destRegKey syllable = some linkKey) :
    syllable.dst = some (.preg linkReg) := by
  unfold destRegKey at isLink
  split at isLink
  · rcases Option.map_eq_some_iff.mp isLink with ⟨reg, isReg, same⟩
    cases same
    exact isReg
  · split at isLink
    · rcases Option.map_eq_some_iff.mp isLink with ⟨reg, -, same⟩
      cases same
    · cases isLink

/-! ### Compiled modules -/

section

variable {orders : Nat → CopyOrder} {hashOrders : Nat → HashOrder} {module : Llvm.Module}
  {memorySize : Nat} {functions all : List Mir.Function}

theorem shape_of_renamed {function allocated : Mir.Function}
    (renamed : RenamedFunction function allocated) : function.shape = allocated.shape := by
  refine Prod.ext renamed.name.symm ?_
  change function.blocks.map (·.label) = allocated.blocks.map (·.label)
  refine List.forall₂_eq_eq_eq ▸ ?_
  exact List.forall₂_map_left_iff.mpr (List.forall₂_map_right_iff.mpr
    (renamed.blocks.imp fun _ _ isRenamed => isRenamed.label.symm))

/-- Transfers of allocated code have the targets of those of selected code. -/
theorem targetsDefined_of_renamed (defined : Mir.TargetsDefined functions)
    (renamed : List.Forall₂ RenamedFunction functions all) : Mir.TargetsDefined all := by
  have same : functions.map Mir.Function.shape = all.map Mir.Function.shape := by
    refine List.forall₂_eq_eq_eq ▸ ?_
    exact List.forall₂_map_left_iff.mpr (List.forall₂_map_right_iff.mpr
      (renamed.imp fun _ _ => shape_of_renamed))
  intro id idMem block isBlock
  rcases Option.bind_eq_some_iff.mp isBlock with ⟨allocated, isAllocated, atBlock⟩
  rcases getElem?_of_forall₂ renamed isAllocated with ⟨function, isFunction, isRenamed⟩
  rcases getElem?_of_forall₂ isRenamed.blocks atBlock with ⟨source, isSource, isBlock⟩
  have hasOne := defined id (Mir.blockIds_of_shape same ▸ idMem) source
    (Option.bind_eq_some_iff.mpr ⟨function, isFunction, isSource⟩)
  have sameTerminator := isBlock.terminator
  generalize block.terminator = terminator at sameTerminator
  generalize source.terminator = original at sameTerminator hasOne
  unfold Mir.hasTarget at hasOne ⊢
  cases sameTerminator with
  | ret => rfl
  | jump | branch =>
      dsimp only at hasOne ⊢
      rwa [← Mir.labelledBlock_of_shape same]
  | directCall =>
      dsimp only at hasOne ⊢
      rwa [← Mir.entryBlock_of_shape same]

/-- Compiled code keeps the conventions of the emitters. -/
theorem conventional_of_compiled
    (lowered : lowerAllFunctions orders module memorySize = .ok functions)
    (allocated : allocateAll hashOrders functions memorySize = .ok all) : Conventional all := by
  have areSelected : ∀ function ∈ functions, IsSelected function := by
    intro function functionMem
    rcases exists_mem_of_forall₂ (mapM_eq_ok_iff.mp lowered) functionMem with
      ⟨source, -, isLowered⟩
    exact Isel.shaped_lowered isLowered
  have linked := linkedCode_of_lowerAllFunctions lowered
  have renamed : List.Forall₂ RenamedFunction functions all := by
    rcases allocateAll_cases hashOrders memorySize areSelected with
      ⟨⟨other, isOther, renamed⟩, -⟩ | ⟨⟨message, panics⟩, -⟩
    · cases allocated.symm.trans isOther
      exact renamed
    · cases allocated.symm.trans panics
  have isSyllable : ∀ function ∈ all, ∀ block ∈ function.blocks, ∀ syllable ∈ block.syllables,
      syllable.WellFormed ∧ PlainSyllable syllable ∧ LoadsLink syllable := by
    intro function functionMem block blockMem
    rcases exists_mem_of_forall₂ renamed functionMem with ⟨source, sourceMem, isRenamed⟩
    rcases exists_mem_of_forall₂ isRenamed.blocks blockMem with ⟨original, originalMem, isBlock⟩
    have shaped := (areSelected source sourceMem original originalMem).code
    rcases List.mem_iff_getElem?.mp originalMem with ⟨idx, isOriginal⟩
    have loads := loadsLink_of_fitsAt ((linked source sourceMem).saved idx original isOriginal)
    have plain := isBlock.syllables.forall_mem PlainSyllable
      (fun _ => plainSyllable_of_inserted) (fun _ _ => plainSyllable_of_renamed)
      (fun syllable syllableMem => plainSyllable_of_shape (shaped syllable syllableMem))
    have links := isBlock.syllables.forall_mem LoadsLink (fun _ => loadsLink_of_inserted)
      (fun _ _ => LoadsLink.renamed) loads
    have wellFormed := isBlock.wellFormed
      (fun syllable syllableMem => (shaped syllable syllableMem).wellFormed)
    exact fun syllable syllableMem => ⟨wellFormed syllable syllableMem,
      plain syllable syllableMem, links syllable syllableMem⟩
  have plain : ∀ function ∈ all, PlainCode function :=
    fun function functionMem block blockMem syllable syllableMem =>
      (isSyllable function functionMem block blockMem syllable syllableMem).2.1
  refine ⟨?_, fun function functionMem => (plain function functionMem).fits, ?_, plain, ?_,
    targetsDefined_of_renamed (targetsDefined_of_lowerAllFunctions lowered) renamed⟩
  · exact fun function functionMem block blockMem syllable syllableMem =>
      (isSyllable function functionMem block blockMem syllable syllableMem).1
  · exact fun function functionMem block blockMem syllable syllableMem =>
      (plain function functionMem block blockMem syllable syllableMem).straight
  · intro function functionMem block blockMem syllable syllableMem
    rcases isSyllable function functionMem block blockMem syllable syllableMem with
      ⟨-, isPlain, loads⟩
    exact ⟨isPlain.fits, isPlain.straight, isPlain.quick,
      fun isLink => loads (dst_of_destRegKey isLink)⟩

end

end VliwCompiler.Pipeline
