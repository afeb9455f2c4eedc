import VliwCompiler.Mir.Semantics

/-!
# Functions of the same shape

Targets of control transfers depend on the names of the functions and the
labels of their blocks only.
-/

namespace VliwCompiler.Mir

open Machine

/-- The name of a function and the labels of its blocks. -/
def Function.shape (function : Function) : String × List String :=
  (function.name, function.blocks.map (·.label))

section SameShape

variable {functions functions' : List Function}
  (same : functions.map Function.shape = functions'.map Function.shape)

include same

theorem getElem?_shape (func : Nat) :
    functions[func]?.map Function.shape = functions'[func]?.map Function.shape := by
  rw [← List.getElem?_map, ← List.getElem?_map, same]

theorem blockIds_of_shape : blockIds functions = blockIds functions' := by
  have general : ∀ list : List Function, blockIds list =
      (list.map Function.shape).zipIdx.flatMap fun (shape, func) =>
        (List.range shape.2.length).map (⟨func, ·⟩) := by
    intro list
    rw [List.zipIdx_map, List.flatMap_map]
    simp [blockIds, Function.shape]
  rw [general, general, same]

theorem label_of_shape (id : BlockId) :
    (blockAt functions id).map (·.label) = (blockAt functions' id).map (·.label) := by
  have general : ∀ list : List Function, (blockAt list id).map (·.label) =
      (list[id.func]?.map Function.shape).bind fun shape => shape.2[id.block]? := by
    intro list
    unfold blockAt
    cases list[id.func]? with
    | none => rfl
    | some function => simp [Function.shape]
  rw [general, general, getElem?_shape same]

theorem blockLabels_of_shape (id : BlockId) :
    blockLabels functions id = blockLabels functions' id := by
  have names : functions[id.func]?.map (·.name) = functions'[id.func]?.map (·.name) := by
    have shapes := congrArg (Option.map Prod.fst) (getElem?_shape same id.func)
    simpa [Option.map_map, Function.comp_def, Function.shape] using shapes
  unfold blockLabels
  rw [names, label_of_shape same]

theorem namedBlock_of_shape (name : String) :
    namedBlock functions name = namedBlock functions' name := by
  unfold namedBlock
  simp only [blockIds_of_shape same, blockLabels_of_shape same]

theorem labelledBlock_of_shape (func : Nat) (label : String) :
    labelledBlock functions func label = labelledBlock functions' func label := by
  have general : ∀ list : List Function, labelledBlock list func label =
      (list[func]?.map Function.shape).bind fun shape =>
        (shape.2.findIdx? (· = label)).map (⟨func, ·⟩) := by
    intro list
    unfold labelledBlock
    cases list[func]? with
    | none => rfl
    | some function => simp [Function.shape, List.findIdx?_map, Function.comp_def]
  rw [general, general, getElem?_shape same]

theorem entryBlock_of_shape (name : String) :
    entryBlock functions name = entryBlock functions' name := by
  have general : ∀ list : List Function, entryBlock list name =
      ((list.map Function.shape).findIdx? fun shape => shape.1 = name ∧ shape.2 ≠ []).map
        (⟨·, 0⟩) := by
    intro list
    unfold entryBlock
    rw [List.findIdx?_map]
    congr 2
    funext function
    change decide _ = decide _
    rw [decide_eq_decide]
    simp [Function.shape]
  rw [general, general, same]

theorem jumpTarget_of_shape (func : Nat) (label : String) :
    jumpTarget functions func label = jumpTarget functions' func label := by
  unfold jumpTarget
  rw [labelledBlock_of_shape same, namedBlock_of_shape same]

theorem returnBlock_of_shape (link : BlockId → Word) (address : Word) :
    returnBlock functions link address = returnBlock functions' link address := by
  unfold returnBlock
  rw [blockIds_of_shape same]

theorem fallThrough_of_shape (id : BlockId) :
    fallThrough functions id = fallThrough functions' id := by
  have general : ∀ list : List Function, fallThrough list id =
      ((blockAt list ⟨id.func, id.block + 1⟩).map (·.label)).map
        fun _ => ⟨id.func, id.block + 1⟩ := by
    intro list
    unfold fallThrough
    simp [Option.map_map, Function.comp_def]
  rw [general, general, label_of_shape same]

theorem isSome_blockAt_of_shape (id : BlockId) :
    (blockAt functions id).isSome = (blockAt functions' id).isSome := by
  have labels := congrArg Option.isSome (label_of_shape same id)
  simpa using labels

end SameShape

end VliwCompiler.Mir
