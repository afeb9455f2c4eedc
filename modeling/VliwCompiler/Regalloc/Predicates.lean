import VliwCompiler.Regalloc.Harmless
import VliwCompiler.Regalloc.Blocks

/-!
# Predicates under register pressure

Predicate registers are handed out from the pool of all registers, but spill code
saves and restores words.  The result of a comparison reaches a reader in the same
block when no syllable between them can take its register away.
-/

namespace VliwCompiler.Regalloc

open Asm (Opcode I64)
open Mir (Reg Value Syllable Terminator Block Function execSyllables predicateSources)
open Liveness (Exposed)
open Allocator (allocatable)
open Machine

/-! ### Comparisons and their readers -/

/-- A comparison of a block, whose result is not written again by the syllables
`middle` after it. -/
structure Compares (block : Block) (front : List Syllable) (comparison : Syllable)
    (middle rest : List Syllable) (p : Nat) : Prop where
  split : block.syllables = front ++ comparison :: (middle ++ rest)
  test : comparison.opcode.behavior = .test
  dst : comparison.dstVreg = some p
  kept : ∀ syllable ∈ middle, syllable.dstVreg ≠ some p

/-- The code leaves in predicate register `shown` what was in `written`. -/
def Shows (code : List Syllable) (written shown : UInt8) : Prop :=
  ∀ isa state final, execSyllables isa code state = some final →
    final.pred (.preg shown) = state.pred (.preg written)

section

variable (order : HashOrder) (function : Function) (memorySize i : Nat)

/-- The position of a syllable of the block. -/
def positionOf (j : Nat) : Nat := startPos function.blocks i + j

/-- In the allocated code of the block, the first syllable or the branch after
`middle` sees the predicate that the comparison wrote. -/
def Survives (block : Block) (front : List Syllable) (comparison : Syllable)
    (middle rest : List Syllable) (p : Nat) : Prop :=
  ∃ before code written srcs compared between reached,
    allocatorBefore order function memorySize i front.length = .ok before ∧
    rewriteSyllable order before comparison i (positionOf function i front.length) =
      .ok (code ++ [⟨comparison.opcode, some (.preg written), srcs⟩], compared) ∧
    rewriteSyllables order i (positionOf function i (front.length + 1)) compared middle =
      .ok (between, reached) ∧
    (∀ reader after, rest = reader :: after → predicateSources reader.opcode = true →
      p ∈ reader.sourceVregs → ∃ inserted rename dst final,
        rewriteSyllable order reached reader i
            (positionOf function i (front.length + 1 + middle.length)) =
          .ok (inserted ++ [⟨reader.opcode, dst, reader.srcs.map (renameValue rename)⟩], final) ∧
        Shows (between ++ inserted) written (rename p)) ∧
    (rest = [] → ∀ label, block.terminator = .branch (.vreg p) label →
      ∃ inserted shown final,
        rewriteTerminator order reached block.terminator i
            (positionOf function i block.syllables.length) =
          .ok ((inserted, .branch (.preg shown) label), final) ∧
        Shows (between ++ inserted) written shown)

/-- No syllable of `middle` that does not read `p` needs a register of another
value, and none writes a fixed predicate register of the pool. -/
def Unpressed (front middle : List Syllable) (p : Nat) : Prop :=
  ∀ done syllable later alloc, middle = done ++ syllable :: later →
    allocatorBefore order function memorySize i (front.length + 1 + done.length) = .ok alloc →
    (p ∉ syllable.sourceVregs → ¬ReadingEvicts alloc syllable ∧
      ∀ d, syllable.dstVreg = some d → ¬WritingEvicts alloc syllable i
        (positionOf function i (front.length + 1 + done.length)) d) ∧
    (syllable.opcode.writesPred = true → ∀ preg, syllable.dst = some (.preg preg) →
      preg ∉ allocatable)

end

/-! ### Predicates kept by the code -/

theorem Shows.nil (written : UInt8) : Shows [] written written := by
  intro isa state final executed
  cases executed
  rfl

theorem Shows.append {first second : List Syllable} {a b c : UInt8} (left : Shows first a b)
    (right : Shows second b c) : Shows (first ++ second) a c := by
  intro isa state final executed
  rw [Mir.execSyllables_append] at executed
  obtain ⟨mid, executedFirst, executedSecond⟩ := Option.bind_eq_some_iff.mp executed
  exact (right isa mid final executedSecond).trans (left isa state mid executedFirst)

/-- A syllable that does not write the predicate register. -/
theorem shows_of_unwritten {syllable : Syllable} {preg : UInt8}
    (unwritten : syllable.opcode.writesPred = true → syllable.dst ≠ some (.preg preg)) :
    Shows [syllable] preg preg := by
  intro isa state final executed
  rw [Mir.execSyllables_singleton] at executed
  obtain ⟨action, denotes, rfl⟩ := Option.map_eq_some_iff.mp executed
  refine Action.exec_pred_of_ne isa action state fun isDst => ?_
  have isKey := (Schedule.covers_action denotes).predDst _ isDst
  unfold Schedule.destRegKey at isKey
  split at isKey
  · obtain ⟨reg, -, same⟩ := Option.map_eq_some_iff.mp isKey
    cases same
  · split at isKey
    · rename_i writes
      exact unwritten writes (dst_of_action denotes (.inr isDst))
    · cases isKey

section Step

variable {order : HashOrder} {function : Function} {memorySize i : Nat} {block : Block}
  {front rest : List Syllable} {syllable : Syllable} {alloc alloc' : Allocator}
  {out : List Syllable} {p : Nat} {written : UInt8}
  (found : function.blocks[i]? = some block)
  (split : block.syllables = front ++ syllable :: rest)
  (reached : allocatorBefore order function memorySize i front.length = .ok alloc)
  (consults : Consults function memorySize alloc) (pool : Pool 64 alloc)
  (done : rewriteSyllable order alloc syllable i (positionOf function i front.length) =
    .ok (out, alloc'))

include found split reached consults pool done

/-- A syllable to which no register is missing keeps a predicate that is still
needed, in its register. -/
theorem shows_step (exposed : Exposed block.terminator p rest)
    (other : syllable.dstVreg ≠ some p) (bound : alloc.assigned.lookup p = some written)
    (quiet : p ∉ syllable.sourceVregs → ¬ReadingEvicts alloc syllable ∧
      ∀ d, syllable.dstVreg = some d →
        ¬WritingEvicts alloc syllable i (positionOf function i front.length) d)
    (fixed : syllable.opcode.writesPred = true → ∀ preg, syllable.dst = some (.preg preg) →
      preg ∉ allocatable) :
    alloc'.assigned.lookup p = some written ∧ Shows out written written := by
  obtain ⟨start, atStart, -⟩ := bind_eq_ok.mp reached
  obtain ⟨initial, started⟩ := initial_of_allocatorAt atStart
  have small := (small_of_initialAllocator started found).1 syllable (by simp [split])
  obtain ⟨code, rename, dst, rfl, rewritten⟩ := rewritten_at found split reached pool done
  have alive := consults.not_lastRead found split (.inl exposed)
  have kept : alloc'.assigned.lookup p = some written := by
    by_cases isSource : p ∈ syllable.sourceVregs
    · rw [rewritten.held p isSource other alive, (rewritten.sources p isSource).2 written bound]
    · obtain ⟨reading, writing⟩ := quiet isSource
      have sameVictims := victims_of_rewriteSyllable (by decide) pool small.1 done reading writing
      exact rewritten.unspilled (spills_eq_of_victims sameVictims p) other alive bound
  refine ⟨kept, Shows.append (b := written) ?_ (shows_of_unwritten fun writes isDst => ?_)⟩
  · intro isa state final executed
    obtain ⟨mid, isMid, -, -, samePred, -⟩ := rewritten.exec isa state
    rw [isMid] at executed
    cases executed
    rw [samePred]
  · cases isVreg : syllable.dstVreg with
    | none =>
        dsimp only at writes isDst
        rw [rewritten.fixedDst isVreg] at isDst
        exact fixed writes written isDst (pool.range bound)
    | some d =>
        obtain ⟨preg, -, isPreg, apart, -⟩ := rewritten.vregDst d isVreg
        dsimp only at isDst
        rw [isPreg, Option.some.injEq, Reg.preg.injEq] at isDst
        refine apart p (fun same => other (by rw [isVreg, same])) ?_
        rw [kept, isDst]

end Step

/-! ### The way from the comparison to the reader -/

theorem exposed_append {terminator : Terminator} {middle rest : List Syllable} {p : Nat}
    (kept : ∀ syllable ∈ middle, syllable.dstVreg ≠ some p) (exposed : Exposed terminator p rest) :
    Exposed terminator p (middle ++ rest) := by
  induction middle with
  | nil => exact exposed
  | cons syllable middle ih =>
      obtain ⟨first, others⟩ := List.forall_mem_cons.mp kept
      exact .inr ⟨first, ih others⟩

section Run

variable {order : HashOrder} {function : Function} {memorySize i : Nat} {block : Block}
  {rest : List Syllable} {p : Nat} {written : UInt8}
  (found : function.blocks[i]? = some block) (exposed : Exposed block.terminator p rest)

include found exposed

theorem shows_run {front middle : List Syllable} {alloc alloc' : Allocator} {out : List Syllable}
    (split : block.syllables = front ++ (middle ++ rest))
    (reached : allocatorBefore order function memorySize i front.length = .ok alloc)
    (consults : Consults function memorySize alloc) (pool : Pool 64 alloc)
    (done : rewriteSyllables order i (positionOf function i front.length) alloc middle =
      .ok (out, alloc'))
    (kept : ∀ syllable ∈ middle, syllable.dstVreg ≠ some p)
    (quiet : ∀ done syllable later alloc, middle = done ++ syllable :: later →
      allocatorBefore order function memorySize i (front.length + done.length) = .ok alloc →
      (p ∉ syllable.sourceVregs → ¬ReadingEvicts alloc syllable ∧
        ∀ d, syllable.dstVreg = some d → ¬WritingEvicts alloc syllable i
          (positionOf function i (front.length + done.length)) d) ∧
      (syllable.opcode.writesPred = true → ∀ preg, syllable.dst = some (.preg preg) →
        preg ∉ allocatable))
    (bound : alloc.assigned.lookup p = some written) :
    alloc'.assigned.lookup p = some written ∧ Shows out written written := by
  induction middle generalizing front alloc out with
  | nil =>
      cases done
      exact ⟨bound, .nil written⟩
  | cons syllable middle ih =>
      obtain ⟨other, others⟩ := List.forall_mem_cons.mp kept
      obtain ⟨code, next, back, here, restDone, rfl⟩ := rewriteSyllables_cons.mp done
      have splitHere : block.syllables = front ++ syllable :: (middle ++ rest) := split
      have longer : block.syllables = (front ++ [syllable]) ++ (middle ++ rest) := by
        rw [split]
        simp
      have isLength : (front ++ [syllable]).length = front.length + 1 := by simp
      obtain ⟨quietHere, fixedHere⟩ := quiet [] syllable middle alloc rfl reached
      obtain ⟨boundNext, showsHere⟩ := shows_step found splitHere reached consults pool here
        (exposed_append others exposed) other bound quietHere fixedHere
      obtain ⟨code', rename, dst, -, rewritten⟩ := rewritten_at found splitHere reached pool here
      have reachedNext := (allocatorBefore_succ found splitHere).mpr ⟨alloc, code, reached, here⟩
      obtain ⟨boundLast, showsRest⟩ := ih longer (by rw [isLength]; exact reachedNext)
        (consults.transfer rewritten.tables) rewritten.pool (by rw [isLength]; exact restDone) others
        (by
          intro done other later alloc isMiddle atOther
          have isPlace : (front ++ [syllable]).length + done.length =
              front.length + (syllable :: done).length := by
            rw [isLength, List.length_cons]
            omega
          rw [isPlace] at atOther ⊢
          exact quiet (syllable :: done) other later alloc (by rw [isMiddle]; rfl) atOther)
        boundNext
      exact ⟨boundLast, showsHere.append showsRest⟩

end Run

/-- The result of a comparison reaches its readers in the block when no syllable
in between needs a register of another value. -/
theorem comparison_survives {order : HashOrder} {function allocated : Function} {memorySize : Nat}
    (done : allocateRegisters order function memorySize = .ok allocated) {i : Nat} {block : Block}
    (found : function.blocks[i]? = some block) {front middle rest : List Syllable}
    {comparison : Syllable} {p : Nat} (compares : Compares block front comparison middle rest p)
    (unpressed : Unpressed order function memorySize i front middle p) :
    Survives order function memorySize i block front comparison middle rest p := by
  have split := compares.split
  obtain ⟨start, body, last, inserted, terminator, after, atStart, bodyDone, endDone, -, -⟩ :=
    block_of_allocateRegisters done found
  have inside : i ≤ function.blocks.length := Nat.le_of_lt (List.getElem?_eq_some_iff.mp found).1
  rw [split] at bodyDone
  obtain ⟨frontCode, before, restCode, frontDone, restDone, -⟩ :=
    rewriteSyllables_append.mp bodyDone
  obtain ⟨comparisonCode, compared, tailCode, here, tailDone, -⟩ :=
    rewriteSyllables_cons.mp restDone
  obtain ⟨between, reached, backCode, middleDone, backDone, -⟩ :=
    rewriteSyllables_append.mp tailDone
  have atBefore := (allocatorBefore_eq found split).mpr ⟨start, frontCode, atStart, frontDone⟩
  obtain ⟨consults, pool⟩ := sound_before found (fun alloc => sound_at inside) split atBefore
  obtain ⟨code, rename, dst, rfl, rewritten⟩ := rewritten_at found split atBefore pool here
  obtain ⟨written, -, rfl, -, bound, -⟩ := rewritten.vregDst p compares.dst
  have longer : block.syllables = (front ++ [comparison]) ++ (middle ++ rest) := by
    rw [split]
    simp
  have isLength : (front ++ [comparison]).length = front.length + 1 := by simp
  have atCompared := (allocatorBefore_succ found split).mpr ⟨before, _, atBefore, here⟩
  rw [← isLength] at atCompared
  have isStart : startPos function.blocks i + front.length + 1 =
      positionOf function i (front ++ [comparison]).length := by
    rw [isLength, positionOf, Nat.add_assoc]
  rw [isStart] at middleDone
  have comparedConsults := consults.transfer rewritten.tables
  have through : ∀ {terminator}, block.terminator = terminator → Exposed terminator p rest →
      reached.assigned.lookup p = some written ∧ Shows between written written := by
    rintro terminator rfl exposed
    rw [consults.needsAfter found split (.inl (exposed_append compares.kept exposed)),
      if_pos rfl] at bound
    refine shows_run found exposed longer atCompared comparedConsults rewritten.pool middleDone
      compares.kept ?_ bound
    rw [isLength]
    exact unpressed
  have beforeRest : block.syllables = (front ++ comparison :: middle) ++ rest := by
    rw [split]
    simp
  have restLength : (front ++ comparison :: middle).length = front.length + 1 + middle.length := by
    rw [List.length_append, List.length_cons]
    omega
  have atReached : allocatorBefore order function memorySize i
      (front ++ comparison :: middle).length = .ok reached := by
    refine (allocatorBefore_eq found beforeRest).mpr ⟨start, _, atStart,
      rewriteSyllables_append.mpr ⟨frontCode, before, _, frontDone,
        rewriteSyllables_cons.mpr ⟨_, compared, between, here, ?_, rfl⟩, rfl⟩⟩
    rw [isStart]
    exact middleDone
  obtain ⟨reachedConsults, reachedPool⟩ := sound_before found (fun alloc => sound_at inside)
    beforeRest atReached
  refine ⟨before, code, written, _, compared, between, reached, atBefore, here,
    by rw [← isLength]; exact middleDone, ?_, ?_⟩
  · rintro reader after rfl isPredicate isSource
    obtain ⟨boundReached, shows⟩ := through rfl (.inl isSource)
    obtain ⟨readerCode, final, moreCode, readerDone, -, -⟩ := rewriteSyllables_cons.mp backDone
    have isPosition : startPos function.blocks i + front.length + 1 + middle.length =
        startPos function.blocks i + (front ++ comparison :: middle).length := by
      rw [restLength]
      omega
    rw [isPosition] at readerDone
    obtain ⟨readCode, renamed, dst, rfl, rewrittenReader⟩ :=
      rewritten_at found beforeRest atReached reachedPool readerDone
    refine ⟨readCode, renamed, dst, final, ?_, shows.append ?_⟩
    · rw [← restLength]
      exact readerDone
    · rw [(rewrittenReader.sources p isSource).2 written boundReached]
      intro isa state last executed
      obtain ⟨mid, isMid, -, -, samePred, -⟩ := rewrittenReader.exec isa state
      rw [isMid] at executed
      cases executed
      rw [samePred]
  · rintro rfl label isBranch
    obtain ⟨boundReached, shows⟩ := through isBranch rfl
    cases backDone
    have isWhole : (front ++ comparison :: middle).length = block.syllables.length := by
      rw [beforeRest, List.append_nil]
    rw [isWhole] at atReached
    have ended := ended_at found atReached reachedPool endDone
    have isCond : block.terminator.condVreg = some p := by
      rw [isBranch]
      rfl
    obtain ⟨rfl, -, other, same, rfl⟩ := ended.bound isCond boundReached
    rw [isBranch] at same
    cases same
    exact ⟨[], written, after, endDone, by rw [List.append_nil]; exact shows⟩

/-! ### A branch under register pressure -/

/-- A block that compares, fills `count` registers and branches on the result; all
of them are read in the next block. -/
def filledBranch (count : Nat) : Function :=
  ⟨"main", [
    ⟨"entry", ⟨.cmpEq, some (.vreg 0), [.imm 1, .imm 1]⟩ ::
      (List.range count).map (fun k => ⟨.movImm, some (.vreg (k + 1)), [.imm 7]⟩),
      .branch (.vreg 0) "entry"⟩,
    ⟨"next", (List.range count).map (fun k => ⟨.mov, some (.preg 1), [.reg (.vreg (k + 1))]⟩),
      .ret⟩]⟩

/-- Entries of a hash map, the oldest first. -/
def oldestFirst : HashOrder where
  entries _ map := (map.entries.map fun entry => (entry.1, entry.2)).reverse
  perm _ _ := List.reverse_perm _

/-- The comparison of `filledBranch`. -/
theorem compares_filledBranch (count : Nat) :
    ∃ block, (filledBranch count).blocks[0]? = some block ∧
      Compares block [] ⟨.cmpEq, some (.vreg 0), [.imm 1, .imm 1]⟩
        ((List.range count).map (fun k => ⟨.movImm, some (.vreg (k + 1)), [.imm 7]⟩)) [] 0 := by
  refine ⟨_, rfl, by simp, rfl, rfl, ?_⟩
  intro syllable syllableMem
  obtain ⟨k, -, rfl⟩ := List.mem_map.mp syllableMem
  simp [Mir.Syllable.dstVreg]

/-- The code of the comparison, of the syllables after it and of the branch. -/
def branchTrace (order : HashOrder) (function : Function) (memorySize : Nat)
    (comparison : Syllable) (middle : List Syllable) (terminator : Terminator) :
    Outcome ((List Syllable × List Syllable) × List Syllable × Terminator) := do
  let before ← allocatorBefore order function memorySize 0 0
  let (first, compared) ← rewriteSyllable order before comparison 0 0
  let (between, reached) ← rewriteSyllables order 0 1 compared middle
  let (ended, _) ← rewriteTerminator order reached terminator 0 (middle.length + 1)
  return ((first, between), ended)

/-- With thirty values the branch reads a predicate register that nothing wrote. -/
theorem filledBranch_loses_predicate :
    ¬∀ (order : HashOrder) (function allocated : Function) (memorySize i : Nat) (block : Block)
      (front middle rest : List Syllable) (comparison : Syllable) (p : Nat),
      allocateRegisters order function memorySize = .ok allocated →
      function.blocks[i]? = some block → Compares block front comparison middle rest p →
      Survives order function memorySize i block front comparison middle rest p := by
  intro survive
  obtain ⟨allocated, done⟩ : ∃ allocated,
      allocateRegisters oldestFirst (filledBranch 29) 4096 = .ok allocated :=
    exists_of_isOk (by decide +kernel)
  obtain ⟨block, found, compares⟩ := compares_filledBranch 29
  obtain ⟨before, code, written, srcs, compared, between, reached, atBefore, here, middleDone, -,
    sees⟩ := survive _ _ _ _ _ _ _ _ _ _ _ done found compares
  cases found
  obtain ⟨inserted, shown, final, endDone, shows⟩ := sees rfl "entry" rfl
  have isTrace : branchTrace oldestFirst (filledBranch 29) 4096
      ⟨.cmpEq, some (.vreg 0), [.imm 1, .imm 1]⟩
      ((List.range 29).map (fun k => ⟨.movImm, some (.vreg (k + 1)), [.imm 7]⟩))
      (.branch (.vreg 0) "entry") =
        .ok ((code ++ [⟨.cmpEq, some (.preg written), srcs⟩], between),
          inserted, .branch (.preg shown) "entry") :=
    bind_eq_ok.mpr ⟨before, atBefore, bind_eq_ok.mpr ⟨(_, compared), here,
      bind_eq_ok.mpr ⟨(between, reached), middleDone, bind_eq_ok.mpr ⟨(_, final), endDone, rfl⟩⟩⟩⟩
  have registers : (branchTrace oldestFirst (filledBranch 29) 4096
      ⟨.cmpEq, some (.vreg 0), [.imm 1, .imm 1]⟩
      ((List.range 29).map (fun k => ⟨.movImm, some (.vreg (k + 1)), [.imm 7]⟩))
      (.branch (.vreg 0) "entry")).map (fun trace => (trace.1.1, trace.2.2)) =
        .ok ([⟨.cmpEq, some (.preg 2), [.imm 1, .imm 1]⟩], .branch (.preg 3) "entry") := by
    decide +kernel
  have executes : (branchTrace oldestFirst (filledBranch 29) 4096
      ⟨.cmpEq, some (.vreg 0), [.imm 1, .imm 1]⟩
      ((List.range 29).map (fun k => ⟨.movImm, some (.vreg (k + 1)), [.imm 7]⟩))
      (.branch (.vreg 0) "entry")).map (fun trace =>
        (execSyllables Asm.moveIsa (trace.1.2 ++ trace.2.1)
          ⟨fun _ => 0, fun reg => reg = .preg 2, fun _ => 0⟩).map (·.pred (.preg 3))) =
        .ok (some false) := by
    decide +kernel
  rw [isTrace] at registers executes
  obtain ⟨isFirst, isBranch⟩ := Prod.mk.inj (Except.ok.inj registers)
  obtain rfl : shown = 3 := by
    cases isBranch
    rfl
  obtain rfl : written = 2 := by
    have isLast := congrArg List.getLast? isFirst
    rw [List.getLast?_append_of_ne_nil _ (by simp)] at isLast
    cases isLast
    rfl
  obtain ⟨last, executed, isFalse⟩ := Option.map_eq_some_iff.mp (Except.ok.inj executes)
  have isTrue := shows _ _ _ executed
  rw [isFalse] at isTrue
  cases isTrue

/-- Twenty-eight values and the comparison fill the registers. -/
theorem comparison_survives_filledBranch :
    ∃ block, (filledBranch 28).blocks[0]? = some block ∧
      Survives insertionOrder (filledBranch 28) 4096 0 block []
        ⟨.cmpEq, some (.vreg 0), [.imm 1, .imm 1]⟩
        ((List.range 28).map fun k => ⟨.movImm, some (.vreg (k + 1)), [.imm 7]⟩) [] 0 := by
  obtain ⟨allocated, done⟩ : ∃ allocated,
      allocateRegisters insertionOrder (filledBranch 28) 4096 = .ok allocated :=
    exists_of_isOk (by decide +kernel)
  obtain ⟨block, found, compares⟩ := compares_filledBranch 28
  have room : ∀ k < 28, (allocatorBefore insertionOrder (filledBranch 28) 4096 0 (k + 1)).map
      (fun alloc => alloc.free.length) = .ok (28 - k) := by
    decide +kernel
  refine ⟨block, found, comparison_survives done found compares ?_⟩
  intro front syllable later alloc isMiddle reached
  have isConstant : ∃ k, syllable = ⟨.movImm, some (.vreg (k + 1)), [.imm 7]⟩ := by
    have syllableMem : syllable ∈ front ++ syllable :: later := by simp
    rw [← isMiddle] at syllableMem
    obtain ⟨k, -, same⟩ := List.mem_map.mp syllableMem
    exact ⟨k, same.symm⟩
  obtain ⟨k, rfl⟩ := isConstant
  have early : front.length < 28 := by
    have lengths := congrArg List.length isMiddle
    simp only [List.length_map, List.length_range, List.length_append, List.length_cons] at lengths
    omega
  have free := room front.length early
  rw [Nat.add_comm, show 1 + front.length = [].length + 1 + front.length by simp, reached] at free
  have isFree : alloc.free.length = 28 - front.length := Except.ok.inj free
  have none : unbound alloc.assigned
      (Syllable.sourceVregs ⟨.movImm, some (.vreg (k + 1)), [.imm 7]⟩) = 0 := rfl
  refine ⟨fun _ => ⟨fun evicts => ?_, fun d _ evicts => ?_⟩, fun writes => ?_⟩
  · rw [ReadingEvicts, none] at evicts
    omega
  · have exhausted := evicts.exhausted
    rw [none] at exhausted
    omega
  · cases writes

end VliwCompiler.Regalloc
