import VliwCompiler.Regalloc.Places
import VliwCompiler.Isel.Calls

/-!
# Argument moves

The moves to the argument registers are rewritten one after another, like any
other syllables, and the allocator does not know that they write registers it
may have handed out.  They perform a parallel assignment if no value that is
still needed is in an argument register when that is written, and no argument
register is handed out after it was written.
-/

namespace VliwCompiler.Regalloc

open Asm (Opcode I64 Copies moveIsa)
open Mir (Reg Value Syllable Terminator Block Function execSyllables)
open Isel (Argument argReg argMove argMoves)
open Liveness (LiveAt LiveAfter)
open Allocator (allocatable)
open Machine

/-- The value of an argument. -/
def argumentWord? (alloc : Allocator) (state : State Reg) : Argument → Option Word
  | .const value => some value
  | .vreg v => alloc.word? state v

/-! ### One move -/

theorem argReg_mem_allocatable {k : Nat} (small : k < 8) : argReg k ∈ allocatable := by
  have all : ∀ k < 8, argReg k ∈ allocatable := by decide
  exact all k small

theorem dstVreg_argMove (argument : Argument) (k : Nat) :
    (argMove argument k).dstVreg = none := by
  cases argument <;> rfl

/-- The operand of a move is read from the register found for it. -/
theorem rename_argMove {order : HashOrder} {alloc alloc' : Allocator} {v k i pos : Nat}
    {code : List Syllable} {rename : Nat → UInt8} {dst : Option Reg}
    (done : rewriteSyllable order alloc (argMove (.vreg v) k) i pos = .ok
      (code ++ [⟨.mov, dst, [.reg (.preg (rename v))]⟩], alloc')) :
    ∃ work, pregForVreg order v [v] ⟨alloc, []⟩ = .ok (rename v, work) := by
  obtain ⟨⟨srcs, read⟩, sourcesDone, rest⟩ := bind_eq_ok.mp done
  obtain ⟨⟨dst', final⟩, dstDone, finished⟩ := bind_eq_ok.mp rest
  obtain ⟨⟨value, middle⟩, head, tail⟩ := bind_eq_ok.mp sourcesDone
  obtain ⟨⟨preg, work⟩, found, same⟩ := bind_eq_ok.mp head
  cases same
  cases tail
  refine ⟨read, ?_⟩
  have sameLast := (List.append_inj' (congrArg Prod.fst (Except.ok.inj finished)) rfl).2
  simp only [List.cons.injEq, Syllable.mk.injEq, Value.reg.injEq, Reg.preg.injEq,
    and_true] at sameLast
  rw [← sameLast.2.2]
  exact found

/-- Executing the move after its operand was brought into a register. -/
theorem exec_argMove {isa : Isa Opcode} (copies : Copies isa) {k : Nat} (small : k < 8)
    (argument : Argument) (rename : Nat → UInt8) (state : State Reg)
    (inside : ∀ v, argument = .vreg v → rename v ∈ allocatable) :
    ∃ word, execSyllables isa [⟨(argMove argument k).opcode, (argMove argument k).dst,
        (argMove argument k).srcs.map (renameValue rename)⟩] state =
          some { state with gpr := Function.update state.gpr (.preg (argReg k)) word } ∧
      (∀ value, argument = .const value → word = value) ∧
      ∀ v, argument = .vreg v → word = state.gpr (.preg (rename v)) := by
  have nonzero := preg_ne_zero (argReg_mem_allocatable small)
  cases argument with
  | const value =>
      refine ⟨value, ?_, by rintro _ ⟨⟩; rfl, by rintro _ ⟨⟩⟩
      rw [Mir.execSyllables_singleton]
      have denotes : Syllable.action ⟨(argMove (.const value) k).opcode,
          (argMove (.const value) k).dst,
          (argMove (.const value) k).srcs.map (renameValue rename)⟩ =
            some (.compute .movImm (some (.preg (argReg k))) [.imm value]) := rfl
      rw [denotes, Option.map_some]
      simp [Action.exec, Action.effect, Effect.apply, nonzero, Source.read, copies.movImm,
        Memory.write]
  | vreg v =>
      refine ⟨state.gpr (.preg (rename v)), ?_, by rintro _ ⟨⟩, by rintro _ ⟨⟩; rfl⟩
      rw [Mir.execSyllables_singleton]
      have denotes : Syllable.action ⟨(argMove (.vreg v) k).opcode, (argMove (.vreg v) k).dst,
          (argMove (.vreg v) k).srcs.map (renameValue rename)⟩ =
            some (.compute .mov (some (.preg (argReg k))) [.gpr (.preg (rename v))]) := rfl
      rw [denotes, Option.map_some]
      simp [Action.exec, Action.effect, Effect.apply, nonzero, Source.read, copies.mov,
        Memory.write, State.readGpr, preg_ne_zero (inside v rfl)]

/-! ### The condition -/

/-- The move of argument `k` disturbs no value.  `alloc` and `alloc'` are the
states of the allocator before and after it, `needed` are the registers needed
afterwards. -/
structure SafeMove (order : HashOrder) (isPred needed : Nat → Prop) (alloc alloc' : Allocator)
    (argument : Argument) (k : Nat) : Prop where
  target : ∀ w, needed w → alloc'.assigned.lookup w = some (argReg k) → argument = .vreg w
  reload : ∀ v, argument = .vreg v → alloc.assigned.lookup v = none → ∀ preg work,
    pregForVreg order v [v] ⟨alloc, []⟩ = .ok (preg, work) → ∀ j < k, preg ≠ argReg j
  flags : ∀ w, needed w → isPred w → alloc'.spills w = alloc.spills w

/-- All argument moves of a call site are safe. -/
def SafeMoves (order : HashOrder) (function : Function) (memorySize : Nat) (isPred : Nat → Prop)
    (i : Nat) (terminator : Terminator) (position first : Nat) (arguments : List Argument)
    (rest : List Syllable) : Prop :=
  ∀ before argument after alloc alloc', arguments = before ++ argument :: after →
    allocatorBefore order function memorySize i (position + before.length) = .ok alloc →
    allocatorBefore order function memorySize i (position + before.length + 1) = .ok alloc' →
    SafeMove order isPred
      (NeededBefore function i terminator (argMoves (first + before.length + 1) after ++ rest))
      alloc alloc' argument (first + before.length)

theorem SafeMoves.tail {order : HashOrder} {function : Function} {memorySize : Nat}
    {isPred : Nat → Prop} {i : Nat} {terminator : Terminator} {position first : Nat}
    {argument : Argument} {arguments : List Argument} {rest : List Syllable}
    (safe : SafeMoves order function memorySize isPred i terminator position first
      (argument :: arguments) rest) :
    SafeMoves order function memorySize isPred i terminator (position + 1) (first + 1) arguments
      rest := by
  intro before other after alloc alloc' split reached reached'
  have shifted := safe (argument :: before) other after alloc alloc' (by rw [split]; rfl)
  rw [List.length_cons, Nat.add_comm before.length 1, ← Nat.add_assoc, ← Nat.add_assoc] at shifted
  exact shifted reached reached'

theorem needed_argMoves {function : Function} {i : Nat} {terminator : Terminator} {first v : Nat}
    {arguments : List Argument} {rest : List Syllable}
    (isNeeded : .vreg v ∈ arguments ∨ NeededBefore function i terminator rest v) :
    NeededBefore function i terminator (argMoves first arguments ++ rest) v := by
  induction arguments generalizing first with
  | nil => exact isNeeded.resolve_left (by simp)
  | cons argument arguments ih =>
      rw [Isel.argMoves_cons, List.cons_append]
      by_cases isHead : argument = .vreg v
      · subst isHead
        exact needed_of_source (by simp [argMove, Syllable.sourceVregs, Value.vreg?])
      · refine needed_cons (ih (isNeeded.imp_left fun isArgument => ?_)) ?_
        · exact (List.mem_cons.mp isArgument).resolve_left (fun same => isHead same.symm)
        · rw [dstVreg_argMove]
          exact Option.some_ne_none v |>.symm

/-! ### The whole sequence -/

section Moves

variable {order : HashOrder} {function : Function} {memorySize : Nat} {isPred : Nat → Prop}
  {i : Nat} {block : Block} {isa : Isa Opcode}

/-- What the rewritten moves do: the registers below `first` are kept, the others
hold the arguments, and needed values are kept. -/
structure Moved (function : Function) (isPred : Nat → Prop) (i first : Nat)
    (terminator : Terminator) (arguments : List Argument) (rest : List Syllable)
    (alloc alloc' : Allocator) (state final : State Reg) : Prop where
  earlier : ∀ j < first, final.gpr (.preg (argReg j)) = state.gpr (.preg (argReg j))
  arguments : ∀ j argument word, arguments[j]? = some argument →
    argumentWord? alloc state argument = some word →
    final.gpr (.preg (argReg (first + j))) = word
  words : ∀ v word, NeededBefore function i terminator rest v → alloc.word? state v = some word →
    alloc'.word? final v = some word
  pred : final.pred = state.pred
  flags : ∀ v preg, NeededBefore function i terminator rest v → isPred v →
    alloc.assigned.lookup v = some preg → alloc'.assigned.lookup v = some preg

/-- The first move of a sequence. -/
theorem moved_first (copies : Copies isa) (found : function.blocks[i]? = some block)
    {front rest : List Syllable} {argument : Argument} {arguments : List Argument} {first : Nat}
    (split : block.syllables = front ++ argMove argument first :: (argMoves (first + 1) arguments ++ rest))
    (small : first < 8) {alloc middle : Allocator} {code : List Syllable} (state : State Reg)
    (reached : allocatorBefore order function memorySize i front.length = .ok alloc)
    (done : rewriteSyllable order alloc (argMove argument first) i
      (startPos function.blocks i + front.length) = .ok (code, middle))
    (safe : SafeMove order isPred (NeededBefore function i block.terminator
      (argMoves (first + 1) arguments ++ rest)) alloc middle argument first) :
    ∃ next, execSyllables isa code state = some next ∧
      (∀ j < first, next.gpr (.preg (argReg j)) = state.gpr (.preg (argReg j))) ∧
      (∀ word, argumentWord? alloc state argument = some word →
        next.gpr (.preg (argReg first)) = word) ∧
      (∀ v word,
        NeededBefore function i block.terminator (argMoves (first + 1) arguments ++ rest) v →
        alloc.word? state v = some word → middle.word? next v = some word) ∧
      next.pred = state.pred ∧
      ∀ v preg,
        NeededBefore function i block.terminator (argMoves (first + 1) arguments ++ rest) v →
        isPred v → alloc.assigned.lookup v = some preg →
        middle.assigned.lookup v = some preg := by
  have inside := Nat.le_of_lt (List.getElem?_eq_some_iff.mp found).1
  obtain ⟨consults, pool⟩ := sound_before found (fun _ => sound_at inside) split reached
  obtain ⟨code, rename, dst, rfl, rewritten⟩ := rewritten_at found split reached pool done
  obtain rfl := rewritten.fixedDst (dstVreg_argMove argument first)
  have notDst : ∀ v, (argMove argument first).dstVreg ≠ some v := by
    rw [dstVreg_argMove]
    exact fun v same => by cases same
  have keeps : KeepsSources order alloc (argMove argument first) i
      (startPos function.blocks i + front.length) := fun _ _ _ d isDst => absurd isDst (notDst d)
  have isSource : ∀ v, argument = .vreg v → v ∈ (argMove argument first).sourceVregs := by
    rintro v rfl
    simp [argMove, Syllable.sourceVregs, Value.vreg?]
  obtain ⟨mid, executed, frame, -, samePred, -, values, words⟩ := rewritten.exec isa state
  obtain ⟨written, moved, isConst, isVreg⟩ := exec_argMove copies small argument rename mid
    fun v same => (rewritten.sources v (isSource v same)).1
  refine ⟨{ mid with gpr := Function.update mid.gpr (.preg (argReg first)) written },
    ?_, ?_, ?_, ?_, samePred, ?_⟩
  · rw [Mir.execSyllables_append, executed, Option.bind_some, moved]
  · intro j less
    have different : Reg.preg (argReg j) ≠ .preg (argReg first) := by
      intro same
      have := Isel.argReg_injective (by omega) small (Reg.preg.inj same)
      omega
    refine (Function.update_of_ne different _ _).trans (frame _ ?_ ?_)
    · intro v fromMove unbound same
      have isArgument : argument = .vreg v := by
        cases argument with
        | const value => simp [argMove, Syllable.sourceVregs, Value.vreg?] at fromMove
        | vreg w =>
            simp only [argMove, Syllable.sourceVregs, Value.vreg?, List.filterMap_cons,
              List.filterMap_nil, List.mem_singleton] at fromMove
            rw [fromMove]
      subst isArgument
      obtain ⟨work, isPreg⟩ := rename_argMove done
      exact safe.reload v rfl unbound _ _ isPreg j less (Reg.preg.inj same).symm
    · exact fun isVreg => absurd (dstVreg_argMove argument first) isVreg
  · intro word isWord
    refine (Function.update_self _ _ _).trans ?_
    cases argument with
    | const value =>
        rw [isConst value rfl]
        exact Option.some.inj isWord
    | vreg v => rw [isVreg v rfl, values keeps v (isSource v rfl) word isWord]
  · intro v word isNeeded isWord
    have kept := words v word (notDst v) (consults.not_lastRead found split isNeeded) isWord
    rw [word?_eq_place] at kept ⊢
    obtain ⟨place, isPlace, rfl⟩ := Option.map_eq_some_iff.mp kept
    rw [isPlace, Option.map_some, Option.some.injEq]
    cases place with
    | slot address => rfl
    | register preg =>
        by_cases same : preg = argReg first
        · subst same
          obtain rfl := safe.target v isNeeded (place_eq_register.mp isPlace)
          refine (Function.update_self _ _ _).trans ?_
          rw [isVreg v rfl, values keeps v (isSource v rfl) _ isWord]
        · exact Function.update_of_ne (fun sameReg => same (Reg.preg.inj sameReg)) _ _
  · intro v preg isNeeded isFlag bound
    exact rewritten.unspilled (safe.flags v isNeeded isFlag) (notDst v)
      (consults.not_lastRead found split isNeeded) bound

/-- The argument moves perform a parallel assignment. -/
theorem moved_of_safeMoves (copies : Copies isa) (found : function.blocks[i]? = some block)
    {front rest : List Syllable} {arguments : List Argument} {first : Nat}
    (split : block.syllables = front ++ (argMoves first arguments ++ rest))
    (small : first + arguments.length ≤ 8) {alloc alloc' : Allocator} {code : List Syllable}
    (state : State Reg)
    (reached : allocatorBefore order function memorySize i front.length = .ok alloc)
    (done : rewriteSyllables order i (startPos function.blocks i + front.length) alloc
      (argMoves first arguments) = .ok (code, alloc'))
    (safe : SafeMoves order function memorySize isPred i block.terminator front.length first
      arguments rest) :
    ∃ final, execSyllables isa code state = some final ∧
      Moved function isPred i first block.terminator arguments rest alloc alloc' state final := by
  induction arguments generalizing front first alloc code state with
  | nil =>
      cases done
      exact ⟨state, rfl, ⟨fun _ _ => rfl, by simp, fun _ _ _ => id, rfl, fun _ _ _ _ => id⟩⟩
  | cons argument arguments ih =>
      rw [List.length_cons] at small
      rw [Isel.argMoves_cons, List.cons_append] at split
      obtain ⟨code, middle, back, here, others, rfl⟩ := rewriteSyllables_cons.mp done
      have next := (allocatorBefore_succ found split).mpr ⟨alloc, code, reached, here⟩
      have safeHere := safe [] argument arguments alloc middle rfl reached next
      obtain ⟨mid, executed, earlier, here', words, pred, flags⟩ :=
        moved_first copies found split (by omega) state reached here safeHere
      have longer : block.syllables = (front ++ [argMove argument first]) ++
          (argMoves (first + 1) arguments ++ rest) := by simp [split]
      have isLength : (front ++ [argMove argument first]).length = front.length + 1 := by simp
      obtain ⟨final, executed', moved⟩ := ih longer (by omega) mid
        (by rw [isLength]; exact next) (by rw [isLength]; exact others)
        (by rw [isLength]; exact safe.tail)
      refine ⟨final, ?_, ⟨?_, ?_, ?_, moved.pred.trans pred, ?_⟩⟩
      · rw [Mir.execSyllables_append, executed, Option.bind_some, executed']
      · intro j less
        rw [moved.earlier j (by omega), earlier j less]
      · intro j other word isArgument isWord
        cases j with
        | zero =>
            cases isArgument
            rw [Nat.add_zero, moved.earlier first (Nat.lt_succ_self first), here' word isWord]
        | succ j =>
            have isWord' : argumentWord? middle mid other = some word := by
              cases other with
              | const value => exact isWord
              | vreg v =>
                  exact words v word (needed_argMoves (.inl (List.mem_of_getElem? isArgument)))
                    isWord
            have later := moved.arguments j other word isArgument isWord'
            rw [Nat.add_right_comm] at later
            exact later
      · exact fun v word isNeeded isWord =>
          moved.words v word isNeeded (words v word (needed_argMoves (.inr isNeeded)) isWord)
      · exact fun v preg isNeeded isFlag bound =>
          moved.flags v preg isNeeded isFlag
            (flags v preg (needed_argMoves (.inr isNeeded)) isFlag bound)

end Moves

/-- Arguments are passed as a parallel assignment.  At every call site whose
moves are safe, every argument register ends up with the value its argument had
before the first move, and every value that is still needed is kept. -/
theorem argMoves_parallel {order : HashOrder} {function : Function} {memorySize : Nat}
    {isPred : Nat → Prop} {i : Nat} {block : Block} {isa : Isa Opcode} (copies : Copies isa)
    (found : function.blocks[i]? = some block) {front rest : List Syllable}
    {arguments : List Argument} (split : block.syllables = front ++ (argMoves 0 arguments ++ rest))
    (few : arguments.length ≤ 8) {alloc alloc' : Allocator} {code : List Syllable}
    (reached : allocatorBefore order function memorySize i front.length = .ok alloc)
    (done : rewriteSyllables order i (startPos function.blocks i + front.length) alloc
      (argMoves 0 arguments) = .ok (code, alloc'))
    (safe : SafeMoves order function memorySize isPred i block.terminator front.length 0
      arguments rest) (state : State Reg) :
    ∃ final, execSyllables isa code state = some final ∧
      (∀ j argument word, arguments[j]? = some argument →
        argumentWord? alloc state argument = some word →
        final.gpr (.preg (argReg j)) = word) ∧
      (∀ v word, NeededBefore function i block.terminator rest v → alloc.word? state v = some word →
        alloc'.word? final v = some word) ∧
      ∀ v preg, NeededBefore function i block.terminator rest v → isPred v →
        alloc.assigned.lookup v = some preg →
        alloc'.assigned.lookup v = some preg ∧
          final.pred (.preg preg) = state.pred (.preg preg) := by
  obtain ⟨final, executed, moved⟩ := moved_of_safeMoves copies found split (by omega) state reached
    done safe
  refine ⟨final, executed, ?_, moved.words, ?_⟩
  · intro j argument word isArgument isWord
    have isWord' := moved.arguments j argument word isArgument isWord
    rwa [Nat.zero_add] at isWord'
  · intro v preg isNeeded isFlag bound
    exact ⟨moved.flags v preg isNeeded isFlag bound, by rw [moved.pred]⟩

/-! ### Two loaded arguments -/

/-- Load two values. -/
def loads : List Syllable :=
  [⟨.loadD, some (.vreg 0), [.imm 64]⟩, ⟨.loadD, some (.vreg 1), [.imm 72]⟩]

/-- A function that passes two loaded values to another one. -/
def loadsAndCalls (arguments : List Argument) : Function :=
  ⟨"caller", [
    ⟨"entry", loads ++ (argMoves 0 arguments ++ [Isel.saveLink (linkAddress 4096)]),
      .directCall "callee" "entry__cont__0"⟩,
    ⟨"entry__cont__0",
      [Isel.restoreLink (linkAddress 4096), ⟨.mov, some (.vreg 2), [.reg (.preg 1)]⟩,
        ⟨.mov, some (.preg 1), [.reg (.vreg 2)]⟩], .ret⟩]⟩

/-- The loaded values in the order in which they were loaded. -/
def inOrder : List Argument := [.vreg 0, .vreg 1]

/-- The loaded values in the other order. -/
def swapped : List Argument := [.vreg 1, .vreg 0]

/-- The allocator before a syllable of the first block. -/
def stateBefore (arguments : List Argument) (position : Nat) : Outcome Allocator :=
  allocatorBefore insertionOrder (loadsAndCalls arguments) 4096 0 position

/-- Registers found bound are among the entries. -/
theorem mem_entries {arguments : List Argument} {position v : Nat} {preg : UInt8}
    {alloc : Allocator} (reached : stateBefore arguments position = .ok alloc)
    (bound : alloc.assigned.lookup v = some preg) {entries : List (Nat × UInt8)}
    (isEntries : (stateBefore arguments position).map (fun alloc =>
      alloc.assigned.entries.map fun entry => (entry.1, entry.2)) = .ok entries) :
    (v, preg) ∈ entries := by
  rw [reached] at isEntries
  rw [← Except.ok.inj isEntries, List.mem_map]
  exact ⟨⟨v, preg⟩, AList.mem_lookup_iff.mp bound, rfl⟩

theorem safeMoves_inOrder :
    SafeMoves insertionOrder (loadsAndCalls inOrder) 4096 (fun _ => False) 0
      (.directCall "callee" "entry__cont__0") 2 0 inOrder [Isel.saveLink (linkAddress 4096)] := by
  intro before argument after alloc alloc' split reached reached'
  match before with
  | [] =>
      cases split
      refine ⟨?_, ?_, fun _ _ => False.elim⟩
      · intro w _ bound
        have isMem : (w, argReg 0) ∈ [((1 : Nat), (3 : UInt8))] :=
          mem_entries reached' bound rfl
        simp [Isel.argReg, argRegFirst] at isMem
      · rintro v ⟨⟩ unbound
        have isBound : (stateBefore inOrder 2).map (·.assigned.lookup 0) = .ok (some 2) := rfl
        rw [show stateBefore inOrder 2 = .ok alloc from reached] at isBound
        cases unbound.symm.trans (Except.ok.inj isBound)
  | [first] =>
      cases split
      refine ⟨?_, ?_, fun _ _ => False.elim⟩
      · intro w _ bound
        have isMem : (w, argReg 1) ∈ ([] : List (Nat × UInt8)) := mem_entries reached' bound rfl
        cases isMem
      · rintro v ⟨⟩ unbound
        have isBound : (stateBefore inOrder 3).map (·.assigned.lookup 1) = .ok (some 3) := rfl
        rw [show stateBefore inOrder 3 = .ok alloc from reached] at isBound
        cases unbound.symm.trans (Except.ok.inj isBound)
  | first :: second :: others => simp [inOrder] at split

theorem argMoves_parallel_inOrder :
    ∃ alloc code alloc', stateBefore inOrder 2 = .ok alloc ∧
      rewriteSyllables insertionOrder 0 2 alloc (argMoves 0 inOrder) = .ok (code, alloc') ∧
      ∀ state, ∃ final, execSyllables moveIsa code state = some final ∧
        ∀ j argument word, inOrder[j]? = some argument →
          argumentWord? alloc state argument = some word →
          final.gpr (.preg (argReg j)) = word := by
  obtain ⟨⟨code, alloc'⟩, both⟩ : ∃ result, (stateBefore inOrder 2 >>= fun alloc =>
      rewriteSyllables insertionOrder 0 2 alloc (argMoves 0 inOrder)) = .ok result :=
    exists_of_isOk (by decide)
  obtain ⟨alloc, reached, done⟩ := bind_eq_ok.mp both
  refine ⟨alloc, code, alloc', reached, done, fun state => ?_⟩
  have found : (loadsAndCalls inOrder).blocks[0]? = some ⟨"entry", loads ++
      (argMoves 0 inOrder ++ [Isel.saveLink (linkAddress 4096)]), .directCall "callee" "entry__cont__0"⟩ := rfl
  obtain ⟨final, executed, assigned, -⟩ := argMoves_parallel Asm.copies_moveIsa found rfl
    (by decide) reached done safeMoves_inOrder state
  exact ⟨final, executed, assigned⟩

/-! ### Two swapped arguments -/

/-- The loaded values in their registers. -/
def loaded : State Reg where
  gpr reg := if reg = .preg 2 then 1 else if reg = .preg 3 then 2 else 0
  pred _ := false
  mem _ := 0

/-- The first move of swapped arguments overwrites the second argument. -/
theorem swapped_clobbered :
    ∃ alloc code alloc' final, stateBefore swapped 2 = .ok alloc ∧
      rewriteSyllables insertionOrder 0 2 alloc (argMoves 0 swapped) = .ok (code, alloc') ∧
      execSyllables moveIsa code loaded = some final ∧
      swapped[1]? = some (.vreg 0) ∧ argumentWord? alloc loaded (.vreg 0) = some 1 ∧
      final.gpr (.preg (argReg 1)) = 2 := by
  obtain ⟨⟨code, alloc'⟩, both⟩ : ∃ result, (stateBefore swapped 2 >>= fun alloc =>
      rewriteSyllables insertionOrder 0 2 alloc (argMoves 0 swapped)) = .ok result :=
    exists_of_isOk (by decide)
  obtain ⟨alloc, reached, done⟩ := bind_eq_ok.mp both
  have isWord : (stateBefore swapped 2).map (argumentWord? · loaded (.vreg 0)) = .ok (some 1) := rfl
  have isResult : (stateBefore swapped 2 >>= fun alloc =>
      rewriteSyllables insertionOrder 0 2 alloc (argMoves 0 swapped)).map
      (fun result => (execSyllables moveIsa result.1 loaded).map (·.gpr (.preg (argReg 1)))) =
        .ok (some 2) := rfl
  rw [reached] at isWord
  rw [both] at isResult
  obtain ⟨final, executed, isTwo⟩ := Option.map_eq_some_iff.mp (Except.ok.inj isResult)
  exact ⟨alloc, code, alloc', final, reached, done, executed, rfl, Except.ok.inj isWord, isTwo⟩

end VliwCompiler.Regalloc
