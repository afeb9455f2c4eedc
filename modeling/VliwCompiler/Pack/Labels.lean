import VliwCompiler.Pack.Refinement

/-!
# Labels of emitted programs

Function names and block labels are written unqualified into one namespace.
The program is unambiguous exactly when the module does not use a name twice and
all its control transfers have targets; nothing on the way to the assembly text
makes the names of different functions distinct.
-/

namespace VliwCompiler.Pack

open Asm (BlockCode Item Processor Program blockItems labelPosition programLabels)
open Mir (Block BlockId Function Terminator TargetsDefined blockAt blockIds entryBlock hasTarget
  labelledBlock moduleLabels)
open Codegen (ArrivesAt Labelled ScalarCode scalarProgram terminatorControl)

/-- The code carries the labels of a block and ends with the transfer of its
terminator. -/
structure Emitted (functions : List Function) (id : BlockId) (code : BlockCode) : Prop where
  labelled : Labelled functions id code
  last : ∃ block syllable control, blockAt functions id = some block ∧
    code.last.syllables = [syllable] ∧ syllable.control = some control ∧
      terminatorControl block.terminator = some control

/-- The label leads to the given block. -/
def LeadsTo (functions : List Function) (codes : List BlockCode) (label : String)
    (target : BlockId) : Prop :=
  ∃ position, labelPosition (blockItems codes) label = some position ∧
    ArrivesAt functions codes target position

/-- Branches and jumps lead to the block of the same function that they name, calls
lead to the entry of the callee. -/
def Resolves (functions : List Function) (codes : List BlockCode) (func : Nat) :
    Terminator → Prop
  | .branch _ label | .jump label =>
      ∃ target, labelledBlock functions func label = some target ∧
        LeadsTo functions codes label target
  | .directCall name _ =>
      ∃ target, entryBlock functions name = some target ∧ LeadsTo functions codes name target
  | .ret => True

/-- The items are the blocks of the module, every label is defined once and
every control transfer resolves to the block it is meant for. -/
def Unambiguous (functions : List Function) (items : List Item) : Prop :=
  ∃ codes, items = blockItems codes ∧
    List.Forall₂ (Emitted functions) (blockIds functions) codes ∧ (programLabels items).Nodup ∧
      ∀ id block, blockAt functions id = some block →
        Resolves functions codes id.func block.terminator

theorem emitted_of_scalar {functions : List Function} {processor : Processor} {program : Program}
    (built : scalarProgram functions processor = .ok program) :
    ∃ codes, program.items = blockItems codes ∧
      List.Forall₂ (Emitted functions) (blockIds functions) codes := by
  obtain ⟨codes, realized, rfl⟩ := Codegen.scalarProgram_items built
  refine ⟨codes, rfl, realized.imp ?_⟩
  rintro id code ⟨named, block, found, isCode⟩
  obtain ⟨syllable, control, only, isControl, isTerminator⟩ := isCode.last
  exact ⟨⟨named, block, found, isCode.label⟩, block, syllable, control, found, only, isControl,
    isTerminator⟩

theorem emitted_of_packed {functions : List Function} {processor : Processor} {program : Program}
    (built : packedProgram functions processor = .ok program) :
    ∃ codes, program.items = blockItems codes ∧
      List.Forall₂ (Emitted functions) (blockIds functions) codes := by
  obtain ⟨scalar, scheduled, isPacked⟩ := bind_eq_ok.mp built
  have done : packScalarProgram scalar = some program := by
    split at isPacked
    · cases isPacked
      assumption
    · cases isPacked
  obtain ⟨codes, rfl, emitted⟩ := packedProgram_items scheduled done
  refine ⟨codes, rfl, emitted.imp ?_⟩
  rintro id code ⟨original, block, scalarCode, found, isScheduled, isCode, packedBlock, named⟩
  obtain ⟨syllable, control, only, isControl, isTerminator⟩ := isCode.last
  refine ⟨⟨named, original, found, ?_⟩, original, syllable, control, found, ?_, isControl, ?_⟩
  · rw [packedBlock.label, isCode.label, isScheduled.label]
  · rw [packedBlock.last, only]
  · rw [← isScheduled.terminator, isTerminator]

theorem labelled_of_emitted {functions : List Function} {ids : List BlockId}
    {codes : List BlockCode} (emitted : List.Forall₂ (Emitted functions) ids codes) :
    List.Forall₂ (Labelled functions) ids codes :=
  emitted.imp fun _ _ => Emitted.labelled

theorem leadsTo_of_namedBlock {functions : List Function} {codes : List BlockCode}
    (distinct : (moduleLabels functions).Nodup)
    (emitted : List.Forall₂ (Emitted functions) (blockIds functions) codes) {label : String}
    {target : BlockId} (named : Mir.namedBlock functions label = some target) :
    LeadsTo functions codes label target := by
  have related := Codegen.target_rel distinct (labelled_of_emitted emitted) label
  rw [named] at related
  generalize isPosition : labelPosition (blockItems codes) label = position at related
  cases related with
  | some arrives => exact ⟨_, isPosition, arrives⟩

theorem unambiguous_of_nodup {functions : List Function} {codes : List BlockCode}
    (distinct : (moduleLabels functions).Nodup) (defined : TargetsDefined functions)
    (emitted : List.Forall₂ (Emitted functions) (blockIds functions) codes) :
    Unambiguous functions (blockItems codes) := by
  refine ⟨codes, rfl, emitted, ?_, ?_⟩
  · rw [Codegen.programLabels_eq (labelled_of_emitted emitted)]
    exact distinct
  · intro id block found
    have hasOne := defined id (Mir.mem_blockIds_of_blockAt found) block found
    cases isTerminator : block.terminator with
    | branch | jump =>
        rw [isTerminator] at hasOne
        rcases Option.isSome_iff_exists.mp hasOne with ⟨target, isTarget⟩
        exact ⟨target, isTarget, leadsTo_of_namedBlock distinct emitted
          (Mir.namedBlock_of_labelledBlock distinct isTarget)⟩
    | directCall name cont =>
        rw [isTerminator] at hasOne
        rcases Option.isSome_iff_exists.mp hasOne with ⟨target, isTarget⟩
        exact ⟨target, isTarget, leadsTo_of_namedBlock distinct emitted
          (Mir.namedBlock_of_entryBlock distinct isTarget)⟩
    | ret => trivial

theorem nodup_of_unambiguous {functions : List Function} {items : List Item}
    (unambiguous : Unambiguous functions items) : (moduleLabels functions).Nodup := by
  obtain ⟨codes, rfl, emitted, nodup, -⟩ := unambiguous
  rwa [Codegen.programLabels_eq (labelled_of_emitted emitted)] at nodup

theorem targetsDefined_of_unambiguous {functions : List Function} {items : List Item}
    (unambiguous : Unambiguous functions items) : TargetsDefined functions := by
  rcases unambiguous with ⟨codes, -, -, -, resolves⟩
  intro id _ block found
  have resolved := resolves id block found
  cases isTerminator : block.terminator with
  | branch | jump | directCall =>
      rw [isTerminator] at resolved
      rcases resolved with ⟨target, isTarget, -⟩
      exact Option.isSome_iff_exists.mpr ⟨target, isTarget⟩
  | ret => rfl

/-- The program of scalar or packed emission is unambiguous exactly when the
names of the functions and the labels of all their blocks are distinct and every
control transfer has a target. -/
theorem unambiguous_iff {functions : List Function} {processor : Processor} {program : Program}
    (built : scalarProgram functions processor = .ok program ∨
      packedProgram functions processor = .ok program) :
    Unambiguous functions program.items ↔
      (moduleLabels functions).Nodup ∧ TargetsDefined functions := by
  obtain ⟨codes, isItems, emitted⟩ : ∃ codes, program.items = blockItems codes ∧
      List.Forall₂ (Emitted functions) (blockIds functions) codes := by
    rcases built with scalar | packed
    · exact emitted_of_scalar scalar
    · exact emitted_of_packed packed
  constructor
  · exact fun unambiguous =>
      ⟨nodup_of_unambiguous unambiguous, targetsDefined_of_unambiguous unambiguous⟩
  · rintro ⟨distinct, defined⟩
    rw [isItems]
    exact unambiguous_of_nodup distinct defined emitted

/-- A function and its caller, whose first block has the given label. -/
def addOneModule (label : String) : List Function :=
  [⟨"add_one", [⟨"entry", [⟨.add, some (.preg 1), [.reg (.preg 2), .imm 1]⟩], .ret⟩]⟩,
    ⟨"caller", [⟨label, [], .directCall "add_one" "entry__cont__0"⟩,
      ⟨"entry__cont__0", [], .ret⟩]⟩]

theorem unambiguous_iff_addOneModule :
    ∃ program, packedProgram (addOneModule "start") .default = .ok program ∧
      Unambiguous (addOneModule "start") program.items := by
  obtain ⟨program, built⟩ : ∃ program,
      packedProgram (addOneModule "start") .default = .ok program :=
    exists_of_isOk (by decide)
  exact ⟨program, built, (unambiguous_iff (.inr built)).mpr ⟨by decide, by decide⟩⟩

/-- The block `entry` of a second function makes a program ambiguous. -/
theorem entry_ambiguous :
    (∃ program, scalarProgram (addOneModule "entry") .default = .ok program ∧
      ¬Unambiguous (addOneModule "entry") program.items) ∧
      ∃ program, packedProgram (addOneModule "entry") .default = .ok program ∧
        ¬Unambiguous (addOneModule "entry") program.items := by
  obtain ⟨scalar, built⟩ : ∃ program, scalarProgram (addOneModule "entry") .default = .ok program :=
    exists_of_isOk (by decide)
  obtain ⟨packed, packedBuilt⟩ : ∃ program, packedProgram (addOneModule "entry") .default = .ok program :=
    exists_of_isOk (by decide)
  have repeated : ¬(moduleLabels (addOneModule "entry")).Nodup := by decide
  exact ⟨⟨scalar, built, fun unambiguous => repeated (nodup_of_unambiguous unambiguous)⟩,
    packed, packedBuilt, fun unambiguous => repeated (nodup_of_unambiguous unambiguous)⟩

end VliwCompiler.Pack
