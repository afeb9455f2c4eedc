import VliwCompiler.Machine.Action

/-!
# Independent actions

When one action writes nothing another one reads, the second computes the same
effect before and after the first; when in addition they write different
places, their writes can be performed in either order.  The two facts give the
laws used by scheduling and bundling: independent actions commute, and an
action that is fed by no member of a bundle can be issued together with it.
-/

namespace VliwCompiler.Machine

variable {Op R : Type}

namespace Memory

theorem write_cons (memory : Memory) (cell : Word × Byte) (writes : List (Word × Byte)) :
    memory.write (cell :: writes) = Memory.write (Function.update memory cell.1 cell.2) writes :=
  rfl

/-- A write leaves every other cell unchanged. -/
theorem write_apply_of_notMem (memory : Memory) {writes : List (Word × Byte)} {cell : Word}
    (untouched : cell ∉ writes.map Prod.fst) : memory.write writes cell = memory cell := by
  induction writes generalizing memory with
  | nil => rfl
  | cons head tail ih =>
      simp only [List.map_cons, List.mem_cons, not_or] at untouched
      rw [write_cons, ih _ untouched.2, Function.update_of_ne untouched.1]

/-- What a write leaves in a cell it touches does not depend on the memory
before it. -/
theorem write_apply_of_mem (left right : Memory) {writes : List (Word × Byte)} {cell : Word}
    (touched : cell ∈ writes.map Prod.fst) :
    left.write writes cell = right.write writes cell := by
  induction writes generalizing left right with
  | nil => simp at touched
  | cons head tail ih =>
      rw [write_cons, write_cons]
      by_cases later : cell ∈ tail.map Prod.fst
      · exact ih _ _ later
      · have here : cell = head.1 := by
          simp only [List.map_cons, List.mem_cons] at touched
          exact touched.resolve_right later
        rw [write_apply_of_notMem _ later, write_apply_of_notMem _ later, here]
        simp

theorem write_comm (memory : Memory) {first second : List (Word × Byte)}
    (apart : ∀ cell ∈ first.map Prod.fst, cell ∉ second.map Prod.fst) :
    (memory.write first).write second = (memory.write second).write first := by
  funext cell
  by_cases inFirst : cell ∈ first.map Prod.fst
  · rw [write_apply_of_notMem _ (apart cell inFirst)]
    exact write_apply_of_mem _ _ inFirst
  · rw [write_apply_of_notMem (memory.write second) inFirst]
    by_cases inSecond : cell ∈ second.map Prod.fst
    · exact write_apply_of_mem _ _ inSecond
    · rw [write_apply_of_notMem _ inSecond, write_apply_of_notMem _ inSecond,
        write_apply_of_notMem _ inFirst]

theorem read_congr {left right : Memory} {address : Word} {width : Nat}
    (agree : ∀ cell ∈ addresses address width, left cell = right cell) :
    left.read address width = right.read address width := by
  unfold Memory.read
  apply List.foldr_ext
  intro k kMem acc
  rw [agree _ (List.mem_map.mpr ⟨k, kMem, rfl⟩)]

end Memory

theorem map_fst_storeWrites (address : Word) (width : Nat) (word : Word) :
    (storeWrites address width word).map Prod.fst = addresses address width := by
  unfold storeWrites
  rw [List.map_fst_zip]
  simp [addresses, wordBytes]

variable [DecidableEq R] [Zero R]

@[simp]
theorem State.readGpr_zero (state : State R) : state.readGpr 0 = 0 := if_pos rfl

namespace Effect

/-- Applying an effect preserves the value of every operand it does not write. -/
theorem read_apply (effect : Effect R) (state : State R) {source : Source R}
    (gprUnread : ∀ reg value, effect.gpr = some (reg, value) → reg ≠ 0 → source ≠ .gpr reg)
    (predUnread : ∀ reg value, effect.pred = some (reg, value) → source ≠ .pred reg) :
    source.read (effect.apply state) = source.read state := by
  cases source with
  | gpr reg =>
      simp only [Source.read, State.readGpr, apply, Datum.word.injEq]
      cases written : effect.gpr with
      | none => rfl
      | some write =>
          rcases write with ⟨dst, value⟩
          by_cases dstZero : dst = 0
          · simp [dstZero]
          · have other : reg ≠ dst := fun same =>
              gprUnread dst value written dstZero (same ▸ rfl)
            simp [dstZero, Function.update_of_ne other]
  | pred reg =>
      simp only [Source.read, apply, Datum.flag.injEq]
      cases written : effect.pred with
      | none => rfl
      | some write =>
          rcases write with ⟨dst, value⟩
          have other : reg ≠ dst := fun same => predUnread dst value written (same ▸ rfl)
          simp [Function.update_of_ne other]
  | imm value => rfl

/-- Effects on different places can be performed in either order. -/
theorem apply_comm {left right : Effect R}
    (gprApart : ∀ reg leftValue rightValue, left.gpr = some (reg, leftValue) →
      right.gpr = some (reg, rightValue) → reg = 0)
    (predApart : ∀ reg leftValue rightValue, left.pred = some (reg, leftValue) →
      right.pred ≠ some (reg, rightValue))
    (memApart : ∀ cell ∈ left.mem.map Prod.fst, cell ∉ right.mem.map Prod.fst)
    (state : State R) :
    left.apply (right.apply state) = right.apply (left.apply state) := by
  apply State.ext
  · simp only [apply]
    cases leftWrite : left.gpr with
    | none => rfl
    | some leftPair =>
        cases rightWrite : right.gpr with
        | none => rfl
        | some rightPair =>
            rcases leftPair with ⟨leftReg, leftValue⟩
            rcases rightPair with ⟨rightReg, rightValue⟩
            by_cases leftZero : leftReg = 0
            · simp [leftZero]
            by_cases rightZero : rightReg = 0
            · simp [rightZero]
            have different : leftReg ≠ rightReg := by
              rintro rfl
              exact leftZero (gprApart _ _ _ leftWrite rightWrite)
            simp only [leftZero, rightZero, if_false]
            exact Function.update_comm different.symm ..
  · simp only [apply]
    cases leftWrite : left.pred with
    | none => rfl
    | some leftPair =>
        cases rightWrite : right.pred with
        | none => rfl
        | some rightPair =>
            rcases leftPair with ⟨leftReg, leftValue⟩
            rcases rightPair with ⟨rightReg, rightValue⟩
            have different : leftReg ≠ rightReg := by
              rintro rfl
              exact predApart _ _ _ leftWrite rightWrite
            exact Function.update_comm different.symm ..
  · simp only [apply]
    exact (Memory.write_comm state.mem memApart).symm

end Effect

namespace Action

/-- The register part of an effect is a write to the action's destination. -/
theorem effect_gpr_fst (isa : Isa Op) (action : Action Op R) (state : State R) :
    (action.effect isa state).gpr.map Prod.fst = action.gprDst := by
  cases action with
  | compute op dst srcs => cases dst <;> rfl
  | load op width dst base offset => cases dst <;> rfl
  | acquire op dst srcs => cases dst <;> rfl
  | test op dst srcs => rfl
  | store width base offset data => rfl
  | release op srcs => rfl
  | skip => rfl

theorem effect_pred_fst (isa : Isa Op) (action : Action Op R) (state : State R) :
    (action.effect isa state).pred.map Prod.fst = action.predDst := by
  cases action with
  | test op dst srcs => cases dst <;> rfl
  | compute op dst srcs => rfl
  | load op width dst base offset => rfl
  | acquire op dst srcs => rfl
  | store width base offset data => rfl
  | release op srcs => rfl
  | skip => rfl

theorem mem_memWrites_of_mem_effect (isa : Isa Op) (action : Action Op R) (state : State R)
    {cell : Word} (written : cell ∈ (action.effect isa state).mem.map Prod.fst) :
    cell ∈ action.memWrites state := by
  cases action with
  | store width base offset data =>
      simp only [effect, map_fst_storeWrites] at written
      exact written
  | release op srcs => exact Set.mem_univ cell
  | compute op dst srcs => simp [effect] at written
  | test op dst srcs => simp [effect] at written
  | load op width dst base offset => simp [effect] at written
  | acquire op dst srcs => simp [effect] at written
  | skip => simp [effect] at written

/-- Two states in which an action reads the same values. -/
structure Agree (reader : Action Op R) (left right : State R) : Prop where
  sources : ∀ source ∈ reader.sources, source.read left = source.read right
  mem : ∀ cell ∈ reader.memReads left, left.mem cell = right.mem cell

theorem Agree.refl (reader : Action Op R) (state : State R) : reader.Agree state state :=
  ⟨fun _ _ => rfl, fun _ _ => rfl⟩

/-- The effect of an action is determined by what it reads. -/
theorem effect_congr (isa : Isa Op) {reader : Action Op R} {left right : State R}
    (agree : reader.Agree left right) : reader.effect isa left = reader.effect isa right := by
  have mapEq : ∀ srcs : List (Source R), (∀ source ∈ srcs, source ∈ reader.sources) →
      srcs.map (·.read left) = srcs.map (·.read right) := by
    intro srcs included
    exact List.map_congr_left fun source sourceMem => agree.sources source (included _ sourceMem)
  cases reader with
  | compute op dst srcs => simp only [effect, mapEq srcs fun _ h => h]
  | test op dst srcs => simp only [effect, mapEq srcs fun _ h => h]
  | load op width dst base offset =>
      have baseEq : left.readGpr base = right.readGpr base := by
        simpa [Source.read] using agree.sources (.gpr base) (by simp [Action.sources])
      have rawEq : left.mem.read (left.readGpr base + offset) width =
          right.mem.read (right.readGpr base + offset) width := by
        rw [← baseEq]
        exact Memory.read_congr agree.mem
      simp only [effect, rawEq]
  | store width base offset data =>
      have baseEq : left.readGpr base = right.readGpr base := by
        simpa [Source.read] using agree.sources (.gpr base) (by simp [Action.sources])
      simp only [effect, baseEq, agree.sources data (by simp [Action.sources])]
  | acquire op dst srcs =>
      have memEq : left.mem = right.mem := funext fun cell => agree.mem cell (Set.mem_univ cell)
      simp only [effect, mapEq srcs fun _ h => h, memEq]
  | release op srcs => simp only [effect, mapEq srcs fun _ h => h]
  | skip => rfl

/-- `writer` writes nothing that `reader` reads in `state`. -/
structure Unread (writer reader : Action Op R) (state : State R) : Prop where
  gpr : ∀ reg, writer.gprDst = some reg → reg ≠ 0 → Source.gpr reg ∉ reader.sources
  pred : ∀ reg, writer.predDst = some reg → Source.pred reg ∉ reader.sources
  mem : Disjoint (writer.memWrites state) (reader.memReads state)

/-- The two actions write different places in `state`. -/
structure Apart (left right : Action Op R) (state : State R) : Prop where
  gpr : ∀ reg, left.gprDst = some reg → right.gprDst = some reg → reg = 0
  pred : ∀ reg, left.predDst = some reg → right.predDst ≠ some reg
  mem : Disjoint (left.memWrites state) (right.memWrites state)

/-- Performing an unread effect keeps what a reader sees. -/
theorem Agree.apply (isa : Isa Op) {writer reader : Action Op R} {state current : State R}
    (agree : reader.Agree state current) (unread : writer.Unread reader state) :
    reader.Agree state ((writer.effect isa state).apply current) where
  sources := by
    intro source sourceMem
    rw [agree.sources source sourceMem]
    symm
    apply Effect.read_apply
    · intro reg value written nonzero same
      have dst : writer.gprDst = some reg := by
        rw [← effect_gpr_fst isa writer state, written]
        rfl
      exact unread.gpr reg dst nonzero (same ▸ sourceMem)
    · intro reg value written same
      have dst : writer.predDst = some reg := by
        rw [← effect_pred_fst isa writer state, written]
        rfl
      exact unread.pred reg dst (same ▸ sourceMem)
  mem := by
    intro cell cellRead
    rw [agree.mem cell cellRead]
    symm
    apply Memory.write_apply_of_notMem
    intro written
    exact Set.disjoint_left.mp unread.mem (mem_memWrites_of_mem_effect isa writer state written)
      cellRead

/-- An action reads the same values before and after an unread write. -/
theorem effect_exec_of_unread (isa : Isa Op) {writer reader : Action Op R} {state : State R}
    (unread : writer.Unread reader state) :
    reader.effect isa (writer.exec isa state) = reader.effect isa state :=
  (effect_congr isa ((Agree.refl reader state).apply isa unread)).symm

/-- Effects of actions that write different places can be performed in either
order. -/
theorem effect_apply_comm (isa : Isa Op) {left right : Action Op R} {state : State R}
    (apart : left.Apart right state) (current : State R) :
    (left.effect isa state).apply ((right.effect isa state).apply current) =
      (right.effect isa state).apply ((left.effect isa state).apply current) := by
  apply Effect.apply_comm
  · intro reg leftValue rightValue leftWrite rightWrite
    apply apart.gpr reg
    · rw [← effect_gpr_fst isa left state, leftWrite]
      rfl
    · rw [← effect_gpr_fst isa right state, rightWrite]
      rfl
  · intro reg leftValue rightValue leftWrite rightWrite
    apply apart.pred reg
    · rw [← effect_pred_fst isa left state, leftWrite]
      rfl
    · rw [← effect_pred_fst isa right state, rightWrite]
      rfl
  · intro cell inLeft inRight
    exact Set.disjoint_left.mp apart.mem (mem_memWrites_of_mem_effect isa left state inLeft)
      (mem_memWrites_of_mem_effect isa right state inRight)

/-- Independent actions commute. -/
theorem exec_comm (isa : Isa Op) {left right : Action Op R} {state : State R}
    (leftUnread : left.Unread right state) (rightUnread : right.Unread left state)
    (apart : left.Apart right state) :
    right.exec isa (left.exec isa state) = left.exec isa (right.exec isa state) := by
  calc right.exec isa (left.exec isa state)
      = (right.effect isa state).apply ((left.effect isa state).apply state) := by
        rw [exec, effect_exec_of_unread isa leftUnread, exec]
    _ = (left.effect isa state).apply ((right.effect isa state).apply state) :=
        (effect_apply_comm isa apart state).symm
    _ = left.exec isa (right.exec isa state) := by
        rw [exec, effect_exec_of_unread isa rightUnread, exec]

/-- A bundle whose members feed nothing to `reader` leaves its effect unchanged. -/
theorem agree_issue (isa : Isa Op) {actions : List (Action Op R)} {reader : Action Op R}
    {state : State R} (unread : ∀ writer ∈ actions, writer.Unread reader state) :
    reader.Agree state (issue isa actions state) := by
  have general : ∀ current, reader.Agree state current →
      reader.Agree state
        (actions.foldl (fun now action => (action.effect isa state).apply now) current) := by
    induction actions with
    | nil => exact fun current agree => agree
    | cons head tail ih =>
        intro current agree
        apply ih
        · exact fun writer writerMem => unread writer (List.mem_cons_of_mem _ writerMem)
        · exact agree.apply isa (unread head List.mem_cons_self)
  exact general state (Agree.refl reader state)

/-- An action that writes other places than a group of effects can be moved
behind the group. -/
theorem apply_foldl_comm (isa : Isa Op) {actions : List (Action Op R)} {moved : Action Op R}
    {state : State R} (apart : ∀ action ∈ actions, action.Apart moved state)
    (current : State R) :
    actions.foldl (fun now action => (action.effect isa state).apply now)
        ((moved.effect isa state).apply current) =
      (moved.effect isa state).apply
        (actions.foldl (fun now action => (action.effect isa state).apply now) current) := by
  induction actions generalizing current with
  | nil => rfl
  | cons head tail ih =>
      simp only [List.foldl_cons]
      rw [effect_apply_comm isa (apart head List.mem_cons_self)]
      exact ih (fun action actionMem => apart action (List.mem_cons_of_mem _ actionMem)) _

/-- Issuing an action together with a bundle that neither feeds it nor writes
the same places is executing it after the bundle, whatever its position. -/
theorem issue_insert (isa : Isa Op) {front back : List (Action Op R)} {moved : Action Op R}
    {state : State R} (unread : ∀ action ∈ front ++ back, action.Unread moved state)
    (apart : ∀ action ∈ front ++ back, action.Apart moved state) :
    issue isa (front ++ moved :: back) state =
      moved.exec isa (issue isa (front ++ back) state) := by
  have movedEffect : moved.effect isa (issue isa (front ++ back) state) =
      moved.effect isa state :=
    (effect_congr isa (agree_issue isa unread)).symm
  rw [exec, movedEffect]
  unfold issue
  rw [List.foldl_append, List.foldl_append, List.foldl_cons]
  exact apply_foldl_comm isa
    (fun action actionMem => apart action (List.mem_append_right front actionMem)) _

theorem execAll_append (isa : Isa Op) (first second : List (Action Op R)) (state : State R) :
    execAll isa (first ++ second) state = execAll isa second (execAll isa first state) :=
  List.foldl_append ..

end Action

end VliwCompiler.Machine
