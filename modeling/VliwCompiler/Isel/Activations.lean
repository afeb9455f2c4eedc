import VliwCompiler.Isel.Linking
import VliwCompiler.Mir.Activations
import VliwCompiler.Machine.Memory
import VliwCompiler.Regalloc.Operation

/-!
# Returning to the caller

Every call saves the link register at one address.  An activation returns to its
caller as long as no other call overwrites what a suspended caller saved there.
-/

namespace VliwCompiler.Isel

open Asm (Opcode)
open Machine
open Mir (Reg Syllable Terminator Block BlockId Config Execution blockAt blockIds execSyllables
  labelledBlock jumpTarget callTarget entryBlock fallThrough returnAddress)

/-! ### Lowered modules -/

section

variable (functions : List Mir.Function)

/-- The block continues after a call. -/
def Resumed (id : BlockId) : Prop :=
  ∃ function cont, functions[id.func]? = some function ∧ CallBefore function.blocks id.block cont

/-- How the blocks of a module use the link register and where they lead. -/
structure LinkedModule (memorySize : Nat) : Prop where
  code : ∀ id block, blockAt functions id = some block → ∃ lead body,
    block.syllables = lead ++ body ∧ SavesLink memorySize block.terminator body ∧
      ((lead = [restoreLink (linkAddress memorySize)] ∧ Resumed functions id) ∨
        (lead = [] ∧ ¬Resumed functions id))
  jump : ∀ id block target next, blockAt functions id = some block →
    Targets block.terminator target → jumpTarget functions id.func target = some next →
      ¬Resumed functions next
  falls : ∀ id block cond target next, blockAt functions id = some block →
    block.terminator = .branch cond target → fallThrough functions id = some next →
      ¬Resumed functions next
  call : ∀ id block callee cont, blockAt functions id = some block →
    block.terminator = .directCall callee cont →
      labelledBlock functions id.func cont = some id.next ∧ id.next ∈ blockIds functions ∧
        ∀ entry, callTarget functions callee = some entry → ¬Resumed functions entry
  entry : ∀ name id, entryBlock functions name = some id → ¬Resumed functions id

end

section

variable {functions : List Mir.Function} {function : Mir.Function} {id : BlockId} {block : Block}

theorem exists_function_of_blockAt (isBlock : blockAt functions id = some block) :
    ∃ function, functions[id.func]? = some function ∧ function.blocks[id.block]? = some block :=
  Option.bind_eq_some_iff.mp isBlock

theorem blockAt_eq_some (isFunction : functions[id.func]? = some function)
    (isBlock : function.blocks[id.block]? = some block) : blockAt functions id = some block :=
  Option.bind_eq_some_iff.mpr ⟨function, isFunction, isBlock⟩

theorem resumed_iff {func idx : Nat} (isFunction : functions[func]? = some function) :
    Resumed functions ⟨func, idx⟩ ↔ ∃ cont, CallBefore function.blocks idx cont := by
  constructor
  · rintro ⟨other, cont, isOther, before⟩
    obtain rfl := Option.some.inj (isFunction.symm.trans isOther)
    exact ⟨cont, before⟩
  · rintro ⟨cont, before⟩
    exact ⟨function, cont, isFunction, before⟩

/-- A label that names one block of a function. -/
theorem labelledBlock_of_nodup {func idx : Nat} (isFunction : functions[func]? = some function)
    (distinct : (function.blocks.map (·.label)).Nodup)
    (isBlock : function.blocks[idx]? = some block) :
    labelledBlock functions func block.label = some ⟨func, idx⟩ := by
  have received : receiver function.blocks block.label = some idx := by
    have isLabel : (function.blocks.map (·.label))[idx]? = some block.label := by
      rw [List.getElem?_map, isBlock]
      rfl
    rw [receiver_eq_some_iff]
    refine ⟨isLabel, ?_⟩
    intro before
    obtain ⟨other, less, isOther⟩ := List.mem_take_iff_getElem.mp before
    obtain ⟨inside, isHere⟩ := List.getElem?_eq_some_iff.mp isLabel
    have same : other = idx :=
      (distinct.getElem_inj_iff).mp (isOther.trans isHere.symm)
    omega
  unfold labelledBlock
  rw [isFunction, Option.bind_some]
  exact congrArg (Option.map (BlockId.mk func)) received

theorem not_resumed_of_entryBlock {name : String}
    (isEntry : entryBlock functions name = some id) : ¬Resumed functions id := by
  obtain ⟨func, -, rfl⟩ := Option.map_eq_some_iff.mp isEntry
  rintro ⟨function, cont, -, j, caller, callee, isZero, -⟩
  cases isZero

end

theorem name_of_lowerFunction {order : CopyOrder} {module : Llvm.Module} {memorySize : Nat}
    {source : Llvm.Function} {lowered : Mir.Function}
    (isLowered : lowerFunction order module memorySize source = .ok lowered) :
    lowered.name = source.name := by
  obtain ⟨traversal, -, isLowered⟩ := bind_eq_ok.mp isLowered
  obtain ⟨table, -, isLowered⟩ := bind_eq_ok.mp isLowered
  obtain ⟨⟨blocks, last⟩, -, isLowered⟩ := bind_eq_ok.mp isLowered
  cases isLowered
  rfl

theorem exists_definition {module : Llvm.Module} {name : String}
    (defined : Llvm.countBasicBlocks module name ≠ 0) :
    ∃ source ∈ definitions module, source.name = name := by
  unfold Llvm.countBasicBlocks at defined
  cases found : module.find? (·.name = name) with
  | none => simp [found] at defined
  | some source =>
      rw [found] at defined
      refine ⟨source, List.mem_filter.mpr ⟨List.mem_of_find?_eq_some found, ?_⟩, ?_⟩
      · rw [decide_eq_true_eq]
        intro isNil
        simp [isNil] at defined
      · simpa using List.find?_some found

/-- A function with blocks is called at its entry. -/
theorem isSome_entryBlock {functions : List Mir.Function} {function : Mir.Function}
    (functionMem : function ∈ functions) (nonempty : function.blocks ≠ []) :
    (entryBlock functions function.name).isSome := by
  unfold entryBlock
  rw [Option.isSome_map, List.findIdx?_isSome, List.any_eq_true]
  exact ⟨function, functionMem, by simpa using nonempty⟩

theorem linkedCode_of_lowerAllFunctions {orders : Nat → CopyOrder} {module : Llvm.Module}
    {memorySize : Nat} {functions : List Mir.Function}
    (isLowered : lowerAllFunctions orders module memorySize = .ok functions) :
    ∀ function ∈ functions, LinkedCode module memorySize function.blocks := by
  intro function functionMem
  obtain ⟨source, sourceMem, order, isFunction⟩ :=
    exists_mem_of_forall₂ (lowered_of_lowerAllFunctions isLowered) functionMem
  have hasEntry : source.blocks ≠ [] := by simpa using (List.mem_filter.mp sourceMem).2
  exact linkedCode_of_lowerFunction hasEntry isFunction

/-- Functions that are called have an entry. -/
theorem isSome_entryBlock_of_defined {orders : Nat → CopyOrder} {module : Llvm.Module}
    {memorySize : Nat} {functions : List Mir.Function}
    (isLowered : lowerAllFunctions orders module memorySize = .ok functions) {name : String}
    (defined : Llvm.countBasicBlocks module name ≠ 0) : (entryBlock functions name).isSome := by
  obtain ⟨source, sourceMem, rfl⟩ := exists_definition defined
  obtain ⟨target, targetMem, order, isTarget⟩ :=
    exists_image_of_forall₂ (lowered_of_lowerAllFunctions isLowered) sourceMem
  have found := isSome_entryBlock targetMem
    (linkedCode_of_lowerAllFunctions isLowered target targetMem).nonempty
  rwa [name_of_lowerFunction isTarget] at found

/-- Control transfers of lowered code have targets. -/
theorem targetsDefined_of_lowerAllFunctions {orders : Nat → CopyOrder} {module : Llvm.Module}
    {memorySize : Nat} {functions : List Mir.Function}
    (isLowered : lowerAllFunctions orders module memorySize = .ok functions) :
    Mir.TargetsDefined functions := by
  intro id _ block isBlock
  obtain ⟨function, isFunction, isBlock⟩ := exists_function_of_blockAt isBlock
  have linked := linkedCode_of_lowerAllFunctions isLowered function
    (List.mem_of_getElem? isFunction)
  have blockMem := List.mem_of_getElem? isBlock
  have named : ∀ target, Targets block.terminator target →
      (labelledBlock functions id.func target).isSome := by
    intro target isTarget
    obtain ⟨idx, other, isOther, rfl, -⟩ := linked.targets block blockMem target isTarget
    rw [labelledBlock, isFunction, Option.bind_some, Option.isSome_map, List.findIdx?_isSome,
      List.any_eq_true]
    exact ⟨other, List.mem_of_getElem? isOther, by simp⟩
  cases isTerminator : block.terminator with
  | branch cond target => exact named target (.inr ⟨cond, isTerminator⟩)
  | jump target => exact named target (.inl isTerminator)
  | directCall callee cont =>
      exact isSome_entryBlock_of_defined isLowered (linked.defined block blockMem callee _ isTerminator)
  | ret => rfl

/-- Distinct labels within a function make lowered code a linked module. -/
theorem linkedModule_of_lowerAllFunctions {orders : Nat → CopyOrder} {module : Llvm.Module}
    {memorySize : Nat} {functions : List Mir.Function}
    (isLowered : lowerAllFunctions orders module memorySize = .ok functions)
    (distinct : ∀ function ∈ functions, (function.blocks.map (·.label)).Nodup) :
    LinkedModule functions memorySize := by
  have linked := linkedCode_of_lowerAllFunctions isLowered
  refine ⟨?_, ?_, ?_, ?_, fun name id => not_resumed_of_entryBlock⟩
  · intro id block isBlock
    obtain ⟨function, isFunction, isBlock⟩ := exists_function_of_blockAt isBlock
    obtain ⟨lead, body, isCode, saves, ⟨isLead, before⟩ | ⟨isLead, noCall⟩⟩ :=
      (linked function (List.mem_of_getElem? isFunction)).saved id.block block isBlock
    · exact ⟨lead, body, isCode, saves,
        .inl ⟨isLead, (resumed_iff isFunction).mpr ⟨_, before⟩⟩⟩
    · refine ⟨lead, body, isCode, saves, .inr ⟨isLead, fun resumed => ?_⟩⟩
      obtain ⟨cont, before⟩ := (resumed_iff isFunction).mp resumed
      exact noCall cont before
  · intro id block target next isBlock isTarget isNext
    obtain ⟨function, isFunction, isBlock⟩ := exists_function_of_blockAt isBlock
    have functionMem := List.mem_of_getElem? isFunction
    obtain ⟨idx, other, isOther, rfl, noCall⟩ :=
      (linked function functionMem).targets block (List.mem_of_getElem? isBlock) target isTarget
    have found := labelledBlock_of_nodup isFunction (distinct function functionMem) isOther
    rw [jumpTarget, found, Option.some_or] at isNext
    obtain rfl := Option.some.inj isNext
    intro resumed
    obtain ⟨cont, before⟩ := (resumed_iff isFunction).mp resumed
    exact noCall cont before
  · intro id block cond target next isBlock isBranch isNext
    obtain ⟨function, isFunction, isBlock⟩ := exists_function_of_blockAt isBlock
    obtain ⟨-, -, rfl⟩ := Option.map_eq_some_iff.mp isNext
    intro resumed
    obtain ⟨cont, j, caller, callee, same, isCaller, isCall⟩ := (resumed_iff isFunction).mp resumed
    obtain rfl : id.block = j := Nat.succ.inj same
    obtain rfl := Option.some.inj (isBlock.symm.trans isCaller)
    cases isBranch.symm.trans isCall
  · intro id block callee cont isBlock isCall
    obtain ⟨function, isFunction, isBlock⟩ := exists_function_of_blockAt isBlock
    have functionMem := List.mem_of_getElem? isFunction
    obtain ⟨next, isNext, rfl⟩ :=
      (linked function functionMem).call id.block block callee cont isBlock isCall
    have nextAt : blockAt functions id.next = some next := blockAt_eq_some isFunction isNext
    refine ⟨labelledBlock_of_nodup isFunction (distinct function functionMem) isNext,
      Mir.mem_blockIds_of_blockAt nextAt, ?_⟩
    intro entry isEntry
    have defined := (linked function functionMem).defined block (List.mem_of_getElem? isBlock)
      callee _ isCall
    obtain ⟨first, isFirst⟩ :=
      Option.isSome_iff_exists.mp (isSome_entryBlock_of_defined isLowered defined)
    rw [callTarget, isFirst, Option.some_or] at isEntry
    obtain rfl := Option.some.inj isEntry
    exact not_resumed_of_entryBlock isFirst

/-! ### Execution of code that avoids the link register -/

/-- The word at the address where calls save the link register. -/
def savedLink (memorySize : Nat) (state : State Reg) : Word :=
  state.mem.read (linkAddress memorySize) 8

/-- Syllables executed in order, other than those that save the link register, do not
write to where it is saved. -/
def Spares (isa : Isa Opcode) (memorySize : Nat) : List Syllable → State Reg → Prop
  | [], _ => True
  | syllable :: rest, state => ∀ action, syllable.action = some action →
      (syllable ≠ saveLink (linkAddress memorySize) → ∀ cell ∈ addresses (linkAddress memorySize) 8,
        cell ∉ action.memWrites state) ∧ Spares isa memorySize rest (action.exec isa state)

section

variable {isa : Isa Opcode} {memorySize : Nat} {code rest : List Syllable} {syllable : Syllable}
  {state middle final : State Reg}

theorem execSyllables_cons_eq_some :
    execSyllables isa (syllable :: rest) state = some final ↔ ∃ action,
      syllable.action = some action ∧
        execSyllables isa rest (action.exec isa state) = some final := by
  rw [← List.singleton_append, Mir.execSyllables_append, Mir.execSyllables_singleton]
  cases syllable.action with
  | none => simp
  | some action => simp

theorem AvoidsLink.readGpr_exec (avoids : AvoidsLink syllable) {action : Action Opcode Reg}
    (denotes : syllable.action = some action) :
    (action.exec isa state).readGpr (.preg linkReg) = state.readGpr (.preg linkReg) := by
  have other : action.gprDst ≠ some (.preg linkReg) := fun isDst =>
    avoids.1 (Regalloc.dst_of_action denotes (.inl isDst))
  unfold State.readGpr
  rw [Action.exec_gpr_of_ne isa action state other]

/-- Code that avoids the link register keeps it. -/
theorem readGpr_of_avoids (avoids : ∀ syllable ∈ code, AvoidsLink syllable)
    (executed : execSyllables isa code state = some final) :
    final.readGpr (.preg linkReg) = state.readGpr (.preg linkReg) := by
  induction code generalizing state with
  | nil =>
      obtain rfl := Option.some.inj executed
      rfl
  | cons syllable code ih =>
      obtain ⟨first, others⟩ := List.forall_mem_cons.mp avoids
      obtain ⟨action, denotes, executed⟩ := execSyllables_cons_eq_some.mp executed
      rw [ih others executed, first.readGpr_exec denotes]

theorem ne_saveLink_of_avoids (avoids : AvoidsLink syllable) : syllable ≠ saveLink (linkAddress memorySize) := by
  rintro rfl
  exact avoids.2 (by simp [saveLink])

theorem savedLink_congr (same : ∀ cell ∈ addresses (linkAddress memorySize) 8,
    final.mem cell = state.mem cell) : savedLink memorySize final = savedLink memorySize state :=
  Memory.read_congr same

/-- Code that spares the saved word and does not save another keeps it. -/
theorem savedLink_of_spares (avoids : ∀ syllable ∈ code, AvoidsLink syllable)
    (spares : Spares isa memorySize code state)
    (executed : execSyllables isa code state = some final) :
    savedLink memorySize final = savedLink memorySize state := by
  induction code generalizing state with
  | nil =>
      obtain rfl := Option.some.inj executed
      rfl
  | cons syllable code ih =>
      obtain ⟨first, others⟩ := List.forall_mem_cons.mp avoids
      obtain ⟨action, denotes, executed⟩ := execSyllables_cons_eq_some.mp executed
      obtain ⟨apart, sparesRest⟩ := spares action denotes
      rw [ih others sparesRest executed]
      exact savedLink_congr fun cell cellMem =>
        Action.exec_mem_of_notMem isa action state
          (apart (ne_saveLink_of_avoids first) cell cellMem)

theorem savedLink_of_compute (computes : ∀ syllable ∈ code, syllable.opcode.behavior = .compute)
    (executed : execSyllables isa code state = some final) :
    savedLink memorySize final = savedLink memorySize state := by
  induction code generalizing state with
  | nil =>
      obtain rfl := Option.some.inj executed
      rfl
  | cons syllable code ih =>
      obtain ⟨first, others⟩ := List.forall_mem_cons.mp computes
      obtain ⟨action, denotes, executed⟩ := execSyllables_cons_eq_some.mp executed
      rw [ih others executed]
      unfold Syllable.action at denotes
      rw [first] at denotes
      obtain ⟨srcs, -, rfl⟩ := Option.map_eq_some_iff.mp denotes
      exact savedLink_congr fun cell _ =>
        Action.exec_mem_of_notMem isa _ state (by simp [Action.memWrites])

theorem Spares.tail (spares : Spares isa memorySize (code ++ rest) state)
    (executed : execSyllables isa code state = some middle) :
    Spares isa memorySize rest middle := by
  induction code generalizing state with
  | nil =>
      obtain rfl := Option.some.inj executed
      exact spares
  | cons syllable code ih =>
      obtain ⟨action, denotes, executed⟩ := execSyllables_cons_eq_some.mp executed
      exact ih (spares action denotes).2 executed

/-- Saving the link register. -/
theorem savedLink_of_saveLink
    (executed : execSyllables isa [saveLink (linkAddress memorySize)] state = some final) :
    savedLink memorySize final = state.readGpr (.preg linkReg) ∧
      final.readGpr (.preg linkReg) = state.readGpr (.preg linkReg) := by
  have denotes : (saveLink (linkAddress memorySize)).action =
      some (.store 8 0 (linkAddress memorySize + 0) (.gpr (.preg linkReg))) := rfl
  rw [Mir.execSyllables_singleton, denotes, Option.map_some] at executed
  obtain rfl := Option.some.inj executed
  refine ⟨?_, rfl⟩
  unfold savedLink
  simp only [Action.exec, Action.effect, Effect.apply, Source.read, Datum.toWord,
    State.readGpr_zero, zero_add, add_zero]
  exact Memory.read_write_same _ _ _

/-- Restoring the link register. -/
theorem readGpr_of_restoreLink
    (executed : execSyllables isa [restoreLink (linkAddress memorySize)] state = some final) :
    final.readGpr (.preg linkReg) = savedLink memorySize state ∧ final.mem = state.mem := by
  have denotes : (restoreLink (linkAddress memorySize)).action =
      some (.load .loadD 8 (some (.preg linkReg)) 0 (linkAddress memorySize + 0)) := rfl
  rw [Mir.execSyllables_singleton, denotes, Option.map_some] at executed
  obtain rfl := Option.some.inj executed
  have nonzero : (Reg.preg linkReg) ≠ 0 := by decide
  refine ⟨?_, rfl⟩
  simp [Action.exec, Action.effect, Effect.apply, State.readGpr, nonzero, savedLink]

end

/-! ### Blocks -/

section

variable {functions : List Mir.Function} {isa : Isa Opcode} {memorySize : Nat} {id : BlockId}
  {block : Block} {state final : State Reg}

/-- The return address that a block works with: the saved one after a call, the link
register elsewhere. -/
def EntersWith (functions : List Mir.Function) (memorySize : Nat) (id : BlockId)
    (state : State Reg) (address : Word) : Prop :=
  (Resumed functions id → savedLink memorySize state = address) ∧
    (¬Resumed functions id → state.readGpr (.preg linkReg) = address)

/-- The code of a block after the link register was restored, if it is. -/
theorem LinkedModule.exists_body (linked : LinkedModule functions memorySize)
    (isBlock : blockAt functions id = some block) {address : Word}
    (enters : EntersWith functions memorySize id state address)
    (executed : execSyllables isa block.syllables state = some final) :
    ∃ lead body middle, block.syllables = lead ++ body ∧
      SavesLink memorySize block.terminator body ∧
      execSyllables isa lead state = some middle ∧ execSyllables isa body middle = some final ∧
      middle.readGpr (.preg linkReg) = address ∧
      savedLink memorySize middle = savedLink memorySize state := by
  obtain ⟨lead, body, isCode, saves, isLead⟩ := linked.code id block isBlock
  rw [isCode, Mir.execSyllables_append] at executed
  obtain ⟨middle, leads, executed⟩ := Option.bind_eq_some_iff.mp executed
  refine ⟨lead, body, middle, isCode, saves, leads, executed, ?_⟩
  rcases isLead with ⟨rfl, resumed⟩ | ⟨rfl, fresh⟩
  · obtain ⟨isLink, sameMem⟩ := readGpr_of_restoreLink leads
    exact ⟨isLink.trans (enters.1 resumed), savedLink_congr fun cell _ => by rw [sameMem]⟩
  · obtain rfl := Option.some.inj leads
    exact ⟨enters.2 fresh, rfl⟩

/-- After a block the link register holds the return address the block works with. -/
theorem LinkedModule.readGpr_after (linked : LinkedModule functions memorySize)
    (isBlock : blockAt functions id = some block) {address : Word}
    (enters : EntersWith functions memorySize id state address)
    (executed : execSyllables isa block.syllables state = some final) :
    final.readGpr (.preg linkReg) = address := by
  obtain ⟨lead, body, middle, -, saves, -, executed, isLink, -⟩ :=
    linked.exists_body isBlock enters executed
  rw [← isLink]
  cases isEnd : block.terminator with
  | directCall callee cont =>
      rw [isEnd] at saves
      obtain ⟨front, back, rfl, frontAvoids, backAvoids⟩ := saves
      rw [Mir.execSyllables_append] at executed
      obtain ⟨before, isBefore, executed⟩ := Option.bind_eq_some_iff.mp executed
      rw [← List.singleton_append, Mir.execSyllables_append] at executed
      obtain ⟨saved, isSaved, executed⟩ := Option.bind_eq_some_iff.mp executed
      rw [readGpr_of_avoids (fun syllable syllableMem => (backAvoids syllable syllableMem).1)
        executed, (savedLink_of_saveLink isSaved).2, readGpr_of_avoids frontAvoids isBefore]
  | branch | jump | ret =>
      rw [isEnd] at saves
      exact readGpr_of_avoids saves executed

/-- A call saves the return address. -/
theorem LinkedModule.savedLink_of_call (linked : LinkedModule functions memorySize)
    (isBlock : blockAt functions id = some block) {address : Word}
    (enters : EntersWith functions memorySize id state address) {callee cont : String}
    (isCall : block.terminator = .directCall callee cont)
    (executed : execSyllables isa block.syllables state = some final) :
    savedLink memorySize final = address := by
  obtain ⟨lead, body, middle, -, saves, -, executed, isLink, -⟩ :=
    linked.exists_body isBlock enters executed
  rw [isCall] at saves
  obtain ⟨front, back, rfl, frontAvoids, backAvoids⟩ := saves
  rw [Mir.execSyllables_append] at executed
  obtain ⟨before, isBefore, executed⟩ := Option.bind_eq_some_iff.mp executed
  rw [← List.singleton_append, Mir.execSyllables_append] at executed
  obtain ⟨saved, isSaved, executed⟩ := Option.bind_eq_some_iff.mp executed
  rw [savedLink_of_compute (fun syllable syllableMem => (backAvoids syllable syllableMem).2)
    executed, (savedLink_of_saveLink isSaved).1, readGpr_of_avoids frontAvoids isBefore, isLink]

/-- Other blocks keep the saved word when their stores spare it. -/
theorem LinkedModule.savedLink_of_spares (linked : LinkedModule functions memorySize)
    (isBlock : blockAt functions id = some block) {address : Word}
    (enters : EntersWith functions memorySize id state address)
    (noCall : ∀ callee cont, block.terminator ≠ .directCall callee cont)
    (spares : Spares isa memorySize block.syllables state)
    (executed : execSyllables isa block.syllables state = some final) :
    savedLink memorySize final = savedLink memorySize state := by
  obtain ⟨lead, body, middle, isCode, saves, leads, executed, -, sameSaved⟩ :=
    linked.exists_body isBlock enters executed
  rw [isCode] at spares
  rw [← sameSaved]
  refine Isel.savedLink_of_spares ?_ (spares.tail leads) executed
  cases isEnd : block.terminator with
  | directCall callee cont => exact absurd isEnd (noCall callee cont)
  | branch | jump | ret =>
      rw [isEnd] at saves
      exact saves

end

/-! ### Runs -/

/-- What is saved for suspended callers stays: the program's own stores spare it, and a
call is made only if the word it saves is there already. -/
structure Undisturbed (functions : List Mir.Function) (isa : Isa Opcode) (link : BlockId → Word)
    (memorySize : Nat) (outer : Word) (execution : Execution) : Prop where
  stores : ∀ id block, execution.pending ≠ [] → execution.config.block = some id →
    blockAt functions id = some block →
      Spares isa memorySize block.syllables execution.config.state
  calls : ∀ id block callee cont, execution.pending ≠ [] → execution.config.block = some id →
    blockAt functions id = some block → block.terminator = .directCall callee cont →
      savedLink memorySize execution.config.state = returnAddress link outer execution.pending

/-- The invariant of a run: the block works with the return address of its activation,
and the saved word is that of every suspended caller. -/
structure Balanced (functions : List Mir.Function) (link : BlockId → Word) (memorySize : Nat)
    (outer : Word) (execution : Execution) : Prop where
  enters : ∀ id, execution.config.block = some id → EntersWith functions memorySize id
    execution.config.state (returnAddress link outer execution.pending)
  saved : ∀ front cont rest, execution.pending = front ++ cont :: rest →
    (Resumed functions cont ∧ cont ∈ blockIds functions) ∧
      savedLink memorySize execution.config.state = returnAddress link outer rest

section

variable {functions : List Mir.Function} {isa : Isa Opcode} {link : BlockId → Word}
  {memorySize : Nat} {outer : Word} {execution after : Execution}

theorem balanced_enter {name : String} {state : State Reg}
    (linked : LinkedModule functions memorySize)
    (entered : Execution.enter functions name state = some execution) :
    Balanced functions link memorySize (state.readGpr (.preg linkReg)) execution := by
  obtain ⟨id, isEntry, rfl⟩ := Option.map_eq_some_iff.mp entered
  refine ⟨?_, by simp⟩
  intro other isOther
  obtain rfl := Option.some.inj isOther
  exact ⟨fun resumed => absurd resumed (linked.entry name id isEntry), fun _ => rfl⟩

/-- Control within an activation. -/
theorem Balanced.stay (balanced : Balanced functions link memorySize outer execution)
    (undisturbed : Undisturbed functions isa link memorySize outer execution)
    (linked : LinkedModule functions memorySize) {id next : BlockId} {block : Block}
    {state : State Reg} (isId : execution.config.block = some id)
    (isBlock : blockAt functions id = some block)
    (executed : execSyllables isa block.syllables execution.config.state = some state)
    (noCall : ∀ callee cont, block.terminator ≠ .directCall callee cont)
    (isConfig : after.config = ⟨some next, state⟩) (samePending : after.pending = execution.pending)
    (fresh : ¬Resumed functions next) : Balanced functions link memorySize outer after where
  enters := by
    intro other isOther
    rw [isConfig] at isOther
    obtain rfl := Option.some.inj isOther
    refine ⟨fun resumed => absurd resumed fresh, fun _ => ?_⟩
    rw [isConfig, samePending]
    exact linked.readGpr_after isBlock (balanced.enters id isId) executed
  saved := by
    intro front cont rest isPending
    rw [samePending] at isPending
    have waiting : execution.pending ≠ [] := by simp [isPending]
    rw [isConfig, linked.savedLink_of_spares isBlock (balanced.enters id isId) noCall
      (undisturbed.stores id block waiting isId isBlock) executed]
    exact balanced.saved front cont rest isPending

/-- Entering a called function. -/
theorem Balanced.call (balanced : Balanced functions link memorySize outer execution)
    (undisturbed : Undisturbed functions isa link memorySize outer execution)
    (linked : LinkedModule functions memorySize) {id entry : BlockId} {block : Block}
    {state : State Reg} {callee cont : String} (isId : execution.config.block = some id)
    (isBlock : blockAt functions id = some block)
    (isCall : block.terminator = .directCall callee cont)
    (executed : execSyllables isa block.syllables execution.config.state = some state)
    (isEntry : callTarget functions callee = some entry)
    (isConfig : after.config = ⟨some entry, state.writeGpr (.preg linkReg) (link id.next)⟩)
    (isPending : after.pending = id.next :: execution.pending) :
    Balanced functions link memorySize outer after := by
  have isSaved := linked.savedLink_of_call isBlock (balanced.enters id isId) isCall executed
  obtain ⟨-, nextMem, fresh⟩ := linked.call id block callee cont isBlock isCall
  have nonzero : (Reg.preg linkReg) ≠ 0 := by decide
  have sameSaved : savedLink memorySize after.config.state = savedLink memorySize state := by
    refine savedLink_congr fun cell _ => ?_
    rw [isConfig]
    simp [State.writeGpr, nonzero]
  refine ⟨?_, ?_⟩
  · intro other isOther
    rw [isConfig] at isOther
    obtain rfl := Option.some.inj isOther
    refine ⟨fun resumed => absurd resumed (fresh entry isEntry), fun _ => ?_⟩
    rw [isConfig, isPending]
    simp [State.readGpr, State.writeGpr, nonzero, returnAddress]
  · intro front other rest isSplit
    rw [isPending] at isSplit
    rw [sameSaved, isSaved]
    cases front with
    | nil =>
        obtain ⟨rfl, rfl⟩ := List.cons.inj isSplit
        obtain ⟨function, isFunction, isHere⟩ := exists_function_of_blockAt isBlock
        exact ⟨⟨⟨function, cont, isFunction, id.block, block, callee, rfl, isHere, isCall⟩,
          nextMem⟩, rfl⟩
    | cons first front =>
        have isRest : execution.pending = front ++ other :: rest := (List.cons.inj isSplit).2
        have waiting : execution.pending ≠ [] := by simp [isRest]
        obtain ⟨isResumed, alreadySaved⟩ := balanced.saved front other rest isRest
        refine ⟨isResumed, ?_⟩
        rw [← alreadySaved]
        exact (undisturbed.calls id block callee cont waiting isId isBlock isCall).symm

/-- Returning to the caller. -/
theorem Balanced.ret (balanced : Balanced functions link memorySize outer execution)
    (undisturbed : Undisturbed functions isa link memorySize outer execution)
    (linked : LinkedModule functions memorySize) {id cont : BlockId} {block : Block}
    {state : State Reg} (isId : execution.config.block = some id)
    (isBlock : blockAt functions id = some block) (isRet : block.terminator = .ret)
    (executed : execSyllables isa block.syllables execution.config.state = some state)
    (isPending : execution.pending = cont :: after.pending)
    (isConfig : after.config = ⟨some cont, state⟩) :
    Balanced functions link memorySize outer after := by
  have sameSaved : savedLink memorySize after.config.state =
      savedLink memorySize execution.config.state := by
    rw [isConfig]
    exact linked.savedLink_of_spares isBlock (balanced.enters id isId) (by simp [isRet])
      (undisturbed.stores id block (by simp [isPending]) isId isBlock) executed
  refine ⟨?_, ?_⟩
  · intro other isOther
    rw [isConfig] at isOther
    obtain rfl := Option.some.inj isOther
    obtain ⟨⟨resumed, -⟩, isSaved⟩ := balanced.saved [] cont after.pending isPending
    exact ⟨fun _ => sameSaved.trans isSaved, fun fresh => absurd resumed fresh⟩
  · intro front other rest isSplit
    rw [sameSaved]
    exact balanced.saved (cont :: front) other rest (by rw [isPending, isSplit]; rfl)

/-- A return resumes the block after the pending call. -/
theorem Balanced.returnBlock_eq (balanced : Balanced functions link memorySize outer execution)
    (linked : LinkedModule functions memorySize) (links : Mir.LinksDistinct functions link)
    {id cont : BlockId} {rest : List BlockId} {block : Block} {state : State Reg}
    (isId : execution.config.block = some id) (isBlock : blockAt functions id = some block)
    (executed : execSyllables isa block.syllables execution.config.state = some state)
    (isPending : execution.pending = cont :: rest) :
    Mir.returnBlock functions link (state.readGpr (.preg linkReg)) = some cont := by
  rw [linked.readGpr_after isBlock (balanced.enters id isId) executed, isPending]
  exact Mir.returnBlock_link links (balanced.saved [] cont rest isPending).1.2

/-- A step that disturbs nothing saved keeps the invariant. -/
theorem Balanced.advance (balanced : Balanced functions link memorySize outer execution)
    (undisturbed : Undisturbed functions isa link memorySize outer execution)
    (linked : LinkedModule functions memorySize) (links : Mir.LinksDistinct functions link)
    (advanced : execution.advance functions isa link = some after) :
    Balanced functions link memorySize outer after := by
  obtain ⟨id, block, state, isId, isBlock, executed, followed, isPending⟩ :=
    Execution.advance_eq_some.mp advanced
  cases isEnd : block.terminator with
  | branch cond target =>
      rw [isEnd] at followed isPending
      have samePending := (Option.some.inj isPending).symm
      rw [Mir.follow] at followed
      split at followed
      · obtain ⟨next, isNext, isConfig⟩ := Option.map_eq_some_iff.mp followed
        exact balanced.stay undisturbed linked isId isBlock executed (by simp [isEnd])
          isConfig.symm samePending
          (linked.jump id block target next isBlock (.inr ⟨cond, isEnd⟩) isNext)
      · obtain ⟨next, isNext, isConfig⟩ := Option.map_eq_some_iff.mp followed
        exact balanced.stay undisturbed linked isId isBlock executed (by simp [isEnd])
          isConfig.symm samePending (linked.falls id block cond target next isBlock isEnd isNext)
  | jump target =>
      rw [isEnd] at followed isPending
      obtain ⟨next, isNext, isConfig⟩ := Option.map_eq_some_iff.mp followed
      exact balanced.stay undisturbed linked isId isBlock executed (by simp [isEnd])
        isConfig.symm (Option.some.inj isPending).symm
        (linked.jump id block target next isBlock (.inl isEnd) isNext)
  | ret =>
      rw [isEnd] at followed isPending
      obtain ⟨cont, rest, isSplit⟩ : ∃ cont rest, execution.pending = cont :: rest := by
        cases isList : execution.pending with
        | nil => simp [Mir.pendingAfter, isList] at isPending
        | cons cont rest => exact ⟨cont, rest, rfl⟩
      have isRest : rest = after.pending := by
        rw [isSplit] at isPending
        exact Option.some.inj isPending
      have resumes := balanced.returnBlock_eq linked links isId isBlock executed isSplit
      refine balanced.ret undisturbed linked isId isBlock isEnd executed (isRest ▸ isSplit) ?_
      rw [← Option.some.inj followed, resumes]
  | directCall callee cont =>
      rw [isEnd] at followed isPending
      obtain ⟨isCont, -⟩ := linked.call id block callee cont isBlock isEnd
      rw [Mir.follow, isCont, Option.bind_some] at followed
      obtain ⟨entry, isEntry, isConfig⟩ := Option.map_eq_some_iff.mp followed
      exact balanced.call undisturbed linked isId isBlock isEnd executed isEntry isConfig.symm
        (Option.some.inj isPending).symm

/-- Every activation returns to its caller, at any depth of calls, in every run in which
nothing saved for a suspended caller is overwritten. -/
theorem returnsHome_of_undisturbed {orders : Nat → CopyOrder} {module : Llvm.Module}
    (isLowered : lowerAllFunctions orders module memorySize = .ok functions)
    (distinct : ∀ function ∈ functions, (function.blocks.map (·.label)).Nodup)
    (links : Mir.LinksDistinct functions link) {name : String} {state : State Reg}
    {start final : Execution} (entered : Execution.enter functions name state = some start)
    {steps : Nat} (ran : Execution.run functions isa link steps start = some final)
    (undisturbed : ∀ k < steps, ∀ execution,
      Execution.run functions isa link k start = some execution →
        Undisturbed functions isa link memorySize (state.readGpr (.preg linkReg)) execution) :
    Mir.ReturnsHome functions isa link (state.readGpr (.preg linkReg)) final := by
  have linked := linkedModule_of_lowerAllFunctions isLowered distinct
  have balanced : Balanced functions link memorySize (state.readGpr (.preg linkReg)) final :=
    Execution.run_induct (balanced_enter linked entered)
      (fun _ _ before kept advanced => before.advance kept linked links advanced) ran undisturbed
  refine ⟨?_, ?_⟩
  · intro id block after isId isBlock executed
    exact linked.readGpr_after isBlock (balanced.enters id isId) executed
  · intro id block after cont rest isId isBlock isRet stepped isPending
    unfold Mir.step at stepped
    rw [isId, Option.bind_some, isBlock, Option.bind_some] at stepped
    obtain ⟨middle, executed, followed⟩ := Option.bind_eq_some_iff.mp stepped
    rw [isRet] at followed
    rw [← Option.some.inj followed]
    exact balanced.returnBlock_eq linked links isId isBlock executed isPending

end

/-! ### Nested calls -/

/-- A function that calls another one. -/
def forwarder (name callee : String) : Llvm.Function where
  name := name
  params := []
  returnType := .void
  blocks := [⟨"entry", [⟨0, .void, .call (.function callee) []⟩, ⟨1, .void, .ret none⟩]⟩]

/-- A function without calls. -/
def leafFunction : Llvm.Function where
  name := "leaf"
  params := []
  returnType := .void
  blocks := [⟨"entry", [⟨0, .void, .ret none⟩]⟩]

def forwarderCode (name callee : String) : Mir.Function :=
  ⟨name, [⟨"entry", [saveLink (linkAddress 65536)], .directCall callee "entry__cont__0"⟩,
    ⟨"entry__cont__0", [restoreLink (linkAddress 65536)], .ret⟩]⟩

def leafCode : Mir.Function := ⟨"leaf", [⟨"entry", [], .ret⟩]⟩

/-- Three calls inside each other. -/
def nestedCode : List Mir.Function :=
  [forwarderCode "first" "second", forwarderCode "second" "third", forwarderCode "third" "leaf",
    leafCode]

/-- Different addresses for the blocks of small modules. -/
def smallLink (id : BlockId) : Word := BitVec.ofNat 64 (16 * id.func + id.block + 1)

/-- A call of a function without calls returns, and so does the caller. -/
theorem returnsHome_of_undisturbed_leafCall :
    ∃ final, Execution.run [forwarderCode "first" "leaf", leafCode] Asm.moveIsa smallLink 2
        ⟨⟨some ⟨0, 0⟩, default⟩, []⟩ = some final ∧
      Mir.ReturnsHome [forwarderCode "first" "leaf", leafCode] Asm.moveIsa smallLink 0 final := by
  have isLowered : lowerAllFunctions (fun _ => insertionOrder)
      [forwarder "first" "leaf", leafFunction] 65536 =
        .ok [forwarderCode "first" "leaf", leafCode] := by decide +kernel
  have isEntry : entryBlock [forwarderCode "first" "leaf", leafCode] "first" = some ⟨0, 0⟩ := by
    decide +kernel
  have entered : Execution.enter [forwarderCode "first" "leaf", leafCode] "first" default =
      some ⟨⟨some ⟨0, 0⟩, default⟩, []⟩ := by
    rw [Execution.enter, isEntry]
    rfl
  have finishes : (Execution.run [forwarderCode "first" "leaf", leafCode] Asm.moveIsa smallLink 2
      ⟨⟨some ⟨0, 0⟩, default⟩, []⟩).isSome := by decide +kernel
  have isLeaf : (Execution.run [forwarderCode "first" "leaf", leafCode] Asm.moveIsa smallLink 1
      ⟨⟨some ⟨0, 0⟩, default⟩, []⟩).map (·.config.block) = some (some ⟨1, 0⟩) := by
    decide +kernel
  obtain ⟨final, ran⟩ := Option.isSome_iff_exists.mp finishes
  refine ⟨final, ran, returnsHome_of_undisturbed isLowered (by decide +kernel)
    (by decide +kernel) entered ran ?_⟩
  intro k less execution reached
  have leafAt : blockAt [forwarderCode "first" "leaf", leafCode] ⟨1, 0⟩ =
      some ⟨"entry", [], .ret⟩ := rfl
  have cases : k = 0 ∨ k = 1 := by omega
  rcases cases with rfl | rfl
  · obtain rfl := Option.some.inj reached
    exact ⟨fun _ _ waiting => absurd rfl waiting, fun _ _ _ _ waiting => absurd rfl waiting⟩
  · rw [reached] at isLeaf
    have isHere : execution.config.block = some ⟨1, 0⟩ := Option.some.inj isLeaf
    refine ⟨?_, ?_⟩
    · intro id block _ isId isBlock
      obtain rfl := Option.some.inj (isHere.symm.trans isId)
      obtain rfl := Option.some.inj (leafAt.symm.trans isBlock)
      exact trivial
    · intro id block callee cont _ isId isBlock isCall
      obtain rfl := Option.some.inj (isHere.symm.trans isId)
      obtain rfl := Option.some.inj (leafAt.symm.trans isBlock)
      cases isCall

/-- A function whose callee calls another function returns into itself: its
continuation restores what the inner call saved. -/
theorem nestedCalls_lose_return :
    Llvm.checkModule [forwarder "first" "second", forwarder "second" "third",
        forwarder "third" "leaf", leafFunction] = .ok () ∧
      lowerAllFunctions (fun _ => insertionOrder) [forwarder "first" "second",
        forwarder "second" "third", forwarder "third" "leaf", leafFunction] 65536 =
          .ok nestedCode ∧
      Mir.LinksDistinct nestedCode smallLink ∧
      ∃ final, Execution.run nestedCode Asm.moveIsa smallLink 5
          ⟨⟨some ⟨0, 0⟩, default⟩, []⟩ = some final ∧ final.pending = [⟨0, 1⟩] ∧
        (Mir.step nestedCode Asm.moveIsa smallLink final.config).map (·.block) =
          some (some ⟨1, 1⟩) ∧
        ¬Mir.ReturnsHome nestedCode Asm.moveIsa smallLink 0 final := by
  have runs : (Execution.run nestedCode Asm.moveIsa smallLink 5
      ⟨⟨some ⟨0, 0⟩, default⟩, []⟩).map (fun final => (final.config.block, final.pending,
        (Mir.step nestedCode Asm.moveIsa smallLink final.config).map (·.block))) =
      some (some ⟨1, 1⟩, [⟨0, 1⟩], some (some ⟨1, 1⟩)) := by decide +kernel
  obtain ⟨final, ran, isFinal⟩ := Option.map_eq_some_iff.mp runs
  obtain ⟨isBlock, isRest⟩ := Prod.mk.inj isFinal
  obtain ⟨isPending, isNext⟩ := Prod.mk.inj isRest
  refine ⟨by decide +kernel, by decide +kernel, by decide +kernel, final, ran, isPending, isNext,
    ?_⟩
  intro home
  obtain ⟨after, stepped, isAfter⟩ := Option.map_eq_some_iff.mp isNext
  have resumes := home.ret ⟨1, 1⟩ ⟨"entry__cont__0", [restoreLink (linkAddress 65536)], .ret⟩ after ⟨0, 1⟩ []
    isBlock rfl rfl stepped isPending
  rw [isAfter] at resumes
  cases resumes

end VliwCompiler.Isel
