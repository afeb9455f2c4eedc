import Mathlib.Data.List.Forall2

/-!
# Worklist traversals

A graph is traversed from a list of pending nodes.  A node that was not visited
before is visited, one of its successors becomes the next pending node and the
other one the last.
-/

namespace VliwCompiler.Worklist

variable {α : Type} [DecidableEq α]

/-- The successors of a node: the one to visit next and the one to visit
later. -/
structure Successors (α : Type) where
  next : Option α := none
  later : Option α := none

/-- Make a node that was not visited before the next pending one. -/
def pushNext (visited : List α) : Option α → List α → List α
  | some node, pending => if node ∈ visited then pending else node :: pending
  | none, pending => pending

/-- Make a node that was not visited before the last pending one. -/
def pushLater (visited : List α) : Option α → List α → List α
  | some node, pending => if node ∈ visited then pending else pending ++ [node]
  | none, pending => pending

/-- Add the successors of a node. -/
def enqueue (visited : List α) (successors : Successors α) (pending : List α) : List α :=
  pushLater visited successors.later (pushNext visited successors.next pending)

/-- The nodes in the order in which they are visited, after those of
`visited`. -/
def order (successors : α → Successors α) : Nat → List α → List α → List α
  | 0, _, visited => visited
  | _, [], visited => visited
  | fuel + 1, node :: pending, visited =>
      if node ∈ visited then order successors fuel pending visited
      else
        order successors fuel (enqueue (visited ++ [node]) (successors node) pending)
          (visited ++ [node])

/-- Visited nodes stay where they are. -/
theorem exists_order_eq_append (successors : α → Successors α) (fuel : Nat)
    (pending visited : List α) :
    ∃ rest, order successors fuel pending visited = visited ++ rest := by
  induction fuel generalizing pending visited with
  | zero => exact ⟨[], by simp [order]⟩
  | succ fuel ih =>
      cases pending with
      | nil => exact ⟨[], by simp [order]⟩
      | cons node pending =>
          rw [order]
          split
          · exact ih pending visited
          · obtain ⟨rest, isRest⟩ := ih (enqueue (visited ++ [node]) (successors node) pending)
              (visited ++ [node])
            exact ⟨node :: rest, by rw [isRest, List.append_assoc, List.singleton_append]⟩

/-! ### Paths -/

/-- `target` is a successor of `node`. -/
def Edge (successors : α → Successors α) (node target : α) : Prop :=
  (successors node).next = some target ∨ (successors node).later = some target

/-- `path` leads from `start` along edges to its last node. -/
inductive IsPath (successors : α → Successors α) (start : α) : List α → α → Prop where
  | start : IsPath successors start [start] start
  | step {path : List α} {node target : α} (before : IsPath successors start path node)
      (edge : Edge successors node target) : IsPath successors start (path ++ [target]) target

/-- Some path leads from `start` to `node`. -/
def Reachable (successors : α → Successors α) (start node : α) : Prop :=
  ∃ path, IsPath successors start path node

/-- Every path from `start` to `node` goes through `dominator`. -/
def Dominates (successors : α → Successors α) (start dominator node : α) : Prop :=
  ∀ path, IsPath successors start path node → dominator ∈ path

omit [DecidableEq α] in
/-- Every node of a path can be reached. -/
theorem IsPath.reachable {successors : α → Successors α} {start node : α} {path : List α}
    (isPath : IsPath successors start path node) :
    ∀ other ∈ path, Reachable successors start other := by
  induction isPath with
  | start => exact List.forall_mem_singleton.mpr ⟨[start], .start⟩
  | @step path _ target before edge ih =>
      refine List.forall_mem_append.mpr ⟨ih, List.forall_mem_singleton.mpr ?_⟩
      exact ⟨path ++ [target], before.step edge⟩

omit [DecidableEq α] in
theorem Dominates.reachable {successors : α → Successors α} {start dominator node : α}
    (dominates : Dominates successors start dominator node)
    (reachable : Reachable successors start node) : Reachable successors start dominator := by
  rcases reachable with ⟨path, isPath⟩
  exact isPath.reachable dominator (dominates path isPath)

omit [DecidableEq α] in
/-- A path in one graph follows a path in another whose edges simulate its edges. -/
theorem IsPath.lift {β : Type} {successors : α → Successors α} {others : β → Successors β}
    (relation : α → β → Prop) {start : α} {other : β} (isStart : relation start other)
    (lift : ∀ node target image, relation node image → Edge successors node target →
      ∃ targetImage, Edge others image targetImage ∧ relation target targetImage)
    {path : List α} {node : α} (isPath : IsPath successors start path node) :
    ∃ images image, IsPath others other images image ∧ relation node image ∧
      List.Forall₂ relation path images := by
  induction isPath with
  | start => exact ⟨[other], other, .start, isStart, .cons isStart .nil⟩
  | step _ edge ih =>
      obtain ⟨images, image, isPath, related, all⟩ := ih
      obtain ⟨targetImage, edgeImage, relatedTarget⟩ := lift _ _ _ related edge
      exact ⟨images ++ [targetImage], targetImage, isPath.step edgeImage, relatedTarget,
        List.rel_append all (.cons relatedTarget .nil)⟩

theorem mem_pushNext {visited pending : List α} {next : Option α} {node : α} :
    node ∈ pushNext visited next pending ↔
      node ∈ pending ∨ next = some node ∧ node ∉ visited := by
  cases next with
  | none => simp [pushNext]
  | some target =>
      rw [pushNext]
      split
      · rename_i isVisited
        constructor
        · exact .inl
        · rintro (isPending | ⟨same, notVisited⟩)
          · exact isPending
          · exact absurd (Option.some.inj same ▸ isVisited) notVisited
      · rename_i notVisited
        rw [List.mem_cons]
        constructor
        · rintro (rfl | isPending)
          · exact .inr ⟨rfl, notVisited⟩
          · exact .inl isPending
        · rintro (isPending | ⟨same, -⟩)
          · exact .inr isPending
          · exact .inl (Option.some.inj same).symm

theorem mem_pushLater {visited pending : List α} {later : Option α} {node : α} :
    node ∈ pushLater visited later pending ↔
      node ∈ pending ∨ later = some node ∧ node ∉ visited := by
  cases later with
  | none => simp [pushLater]
  | some target =>
      rw [pushLater]
      split
      · rename_i isVisited
        constructor
        · exact .inl
        · rintro (isPending | ⟨same, notVisited⟩)
          · exact isPending
          · exact absurd (Option.some.inj same ▸ isVisited) notVisited
      · rename_i notVisited
        rw [List.mem_append, List.mem_singleton]
        refine or_congr_right ⟨?_, fun ⟨same, _⟩ => (Option.some.inj same).symm⟩
        rintro rfl
        exact ⟨rfl, notVisited⟩

/-- What is pending after a visit. -/
theorem mem_enqueue {successors : α → Successors α} {visited pending : List α} {node target : α} :
    target ∈ enqueue visited (successors node) pending ↔
      target ∈ pending ∨ Edge successors node target ∧ target ∉ visited := by
  unfold enqueue Edge
  rw [mem_pushLater, mem_pushNext, or_assoc, or_and_right]

/-- Every visited node is reached through nodes visited before it, and every pending
one through visited nodes. -/
structure Grounded (successors : α → Successors α) (start : α) (pending visited : List α) :
    Prop where
  reached : ∀ front node back, visited = front ++ node :: back →
    ∃ path, IsPath successors start path node ∧ ∀ other ∈ path, other ∈ front ++ [node]
  waiting : ∀ node ∈ pending, node = start ∨ ∃ before ∈ visited, Edge successors before node

/-- Where an element of a list with one more element at the end is. -/
theorem append_cons_eq_snoc {β : Type} {front back list : List β} {element last : β} :
    list ++ [last] = front ++ element :: back ↔
      (front = list ∧ element = last ∧ back = []) ∨
        ∃ rest, back = rest ++ [last] ∧ list = front ++ element :: rest := by
  constructor
  · intro same
    rcases List.eq_nil_or_concat back with rfl | ⟨rest, other, rfl⟩
    · obtain ⟨rfl, isLast⟩ := List.append_inj' same rfl
      exact .inl ⟨rfl, (List.cons.inj isLast).1.symm, rfl⟩
    · rw [List.concat_eq_append, ← List.cons_append, ← List.append_assoc] at same
      obtain ⟨isList, isLast⟩ := List.append_inj' same rfl
      obtain rfl := (List.cons.inj isLast).1
      exact .inr ⟨rest, List.concat_eq_append, isList⟩
  · rintro (⟨rfl, rfl, rfl⟩ | ⟨rest, rfl, rfl⟩)
    · rfl
    · simp

theorem Grounded.visit {successors : α → Successors α} {start node : α} {pending visited : List α}
    (grounded : Grounded successors start (node :: pending) visited) :
    Grounded successors start (enqueue (visited ++ [node]) (successors node) pending)
      (visited ++ [node]) where
  reached := by
    intro front other back same
    rcases append_cons_eq_snoc.mp same with ⟨rfl, rfl, -⟩ | ⟨rest, -, rfl⟩
    · rcases grounded.waiting other List.mem_cons_self with rfl | ⟨before, beforeMem, edge⟩
      · exact ⟨[other], .start, fun node nodeMem => List.mem_append_right _ nodeMem⟩
      · obtain ⟨left, right, rfl⟩ := List.append_of_mem beforeMem
        obtain ⟨path, isPath, inside⟩ := grounded.reached left before right rfl
        refine ⟨path ++ [other], isPath.step edge, ?_⟩
        intro node nodeMem
        rcases List.mem_append.mp nodeMem with inPath | isLast
        · refine List.mem_append_left _ ?_
          rw [List.append_cons]
          exact List.mem_append_left _ (inside node inPath)
        · exact List.mem_append_right _ isLast
    · exact grounded.reached front other rest rfl
  waiting := by
    intro other otherMem
    rcases mem_enqueue.mp otherMem with isPending | ⟨edge, -⟩
    · rcases grounded.waiting other (List.mem_cons_of_mem _ isPending) with
        isStart | ⟨before, beforeMem, edge⟩
      · exact .inl isStart
      · exact .inr ⟨before, List.mem_append_left _ beforeMem, edge⟩
    · exact .inr ⟨node, List.mem_append_right _ List.mem_cons_self, edge⟩

omit [DecidableEq α] in
theorem Grounded.skip {successors : α → Successors α} {start node : α} {pending visited : List α}
    (grounded : Grounded successors start (node :: pending) visited) :
    Grounded successors start pending visited :=
  ⟨grounded.reached, fun other otherMem => grounded.waiting other
    (List.mem_cons_of_mem _ otherMem)⟩

omit [DecidableEq α] in
theorem grounded_start (successors : α → Successors α) (start : α) :
    Grounded successors start [start] [] where
  reached := by
    intro front node back same
    simp at same
  waiting := by simp

/-- A traversal keeps visited nodes reached through nodes visited before them. -/
theorem Grounded.order {successors : α → Successors α} {start : α} {fuel : Nat}
    {pending visited : List α} (grounded : Grounded successors start pending visited) :
    Grounded successors start [] (order successors fuel pending visited) := by
  induction fuel generalizing pending visited with
  | zero => exact ⟨by simpa [Worklist.order] using grounded.reached, by simp⟩
  | succ fuel ih =>
      cases pending with
      | nil => exact ⟨by simpa [Worklist.order] using grounded.reached, by simp⟩
      | cons node pending =>
          rw [Worklist.order]
          split
          · exact ih grounded.skip
          · exact ih grounded.visit

omit [DecidableEq α] in
/-- Dominators are visited first. -/
theorem Grounded.dominators_first {successors : α → Successors α} {start dominator node : α}
    {pending front back : List α}
    (grounded : Grounded successors start pending (front ++ node :: back))
    (dominates : Dominates successors start dominator node) : dominator ∈ front ++ [node] := by
  obtain ⟨path, isPath, inside⟩ := grounded.reached front node back rfl
  exact inside dominator (dominates path isPath)

/-! ### Complete traversals -/

/-- The state of a traversal of the nodes `nodes`, which have no successors outside:
the successors of visited nodes are visited or pending. -/
structure Exploring (successors : α → Successors α) (nodes pending visited : List α) : Prop where
  distinct : visited.Nodup
  inside : ∀ node ∈ visited, node ∈ nodes
  pendingInside : ∀ node ∈ pending, node ∈ nodes
  closed : ∀ node ∈ nodes, ∀ target, Edge successors node target → target ∈ nodes
  frontier : ∀ node ∈ visited, ∀ target, Edge successors node target →
    target ∈ visited ∨ target ∈ pending

/-- The number of steps a traversal can still take. -/
def stepsLeft (nodes pending visited : List α) : Nat :=
  pending.length + 2 * (nodes.length - visited.length)

theorem length_enqueue_le (visited : List α) (successors : Successors α) (pending : List α) :
    (enqueue visited successors pending).length ≤ pending.length + 2 := by
  have first : ∀ next : Option α, (pushNext visited next pending).length ≤ pending.length + 1 := by
    intro next
    cases next with
    | none => exact Nat.le_succ _
    | some node =>
        rw [pushNext]
        split <;> simp
  have second : ∀ (later : Option α) (others : List α),
      (pushLater visited later others).length ≤ others.length + 1 := by
    intro later others
    cases later with
    | none => exact Nat.le_succ _
    | some node =>
        rw [pushLater]
        split <;> simp
  exact Nat.le_trans (second _ _) (Nat.succ_le_succ (first _))

omit [DecidableEq α] in
theorem Exploring.skip {successors : α → Successors α} {nodes pending visited : List α} {node : α}
    (exploring : Exploring successors nodes (node :: pending) visited)
    (isVisited : node ∈ visited) : Exploring successors nodes pending visited where
  distinct := exploring.distinct
  inside := exploring.inside
  pendingInside := fun other otherMem =>
    exploring.pendingInside other (List.mem_cons_of_mem _ otherMem)
  closed := exploring.closed
  frontier := by
    intro other otherMem target edge
    rcases exploring.frontier other otherMem target edge with done | waiting
    · exact .inl done
    · rcases List.mem_cons.mp waiting with rfl | later
      · exact .inl isVisited
      · exact .inr later

theorem Exploring.visit {successors : α → Successors α} {nodes pending visited : List α} {node : α}
    (exploring : Exploring successors nodes (node :: pending) visited)
    (unvisited : node ∉ visited) :
    Exploring successors nodes (enqueue (visited ++ [node]) (successors node) pending)
      (visited ++ [node]) where
  distinct := by
    refine List.nodup_append.mpr ⟨exploring.distinct, List.pairwise_singleton _ node, ?_⟩
    intro visitedNode nodeMem other otherMem same
    exact unvisited (List.mem_singleton.mp otherMem ▸ same ▸ nodeMem)
  inside := List.forall_mem_append.mpr ⟨exploring.inside,
    List.forall_mem_singleton.mpr (exploring.pendingInside node List.mem_cons_self)⟩
  pendingInside := by
    intro other otherMem
    rcases mem_enqueue.mp otherMem with isPending | ⟨edge, -⟩
    · exact exploring.pendingInside other (List.mem_cons_of_mem _ isPending)
    · exact exploring.closed node (exploring.pendingInside node List.mem_cons_self) other edge
  closed := exploring.closed
  frontier := by
    intro other otherMem target edge
    rw [mem_enqueue]
    by_cases done : target ∈ visited ++ [node]
    · exact .inl done
    · rcases List.mem_append.mp otherMem with isOld | isNew
      · rcases exploring.frontier other isOld target edge with isVisited | waiting
        · exact absurd (List.mem_append_left _ isVisited) done
        · rcases List.mem_cons.mp waiting with rfl | later
          · exact absurd (List.mem_append_right _ List.mem_cons_self) done
          · exact .inr (.inl later)
      · rw [List.mem_singleton.mp isNew] at edge
        exact .inr (.inr ⟨edge, done⟩)

omit [DecidableEq α] in
theorem Exploring.length_le {successors : α → Successors α} {nodes pending visited : List α}
    (exploring : Exploring successors nodes pending visited) : visited.length ≤ nodes.length :=
  exploring.distinct.length_le_of_subset exploring.inside

theorem Exploring.stepsLeft_visit {successors : α → Successors α} {nodes pending visited : List α}
    {node : α} (exploring : Exploring successors nodes (node :: pending) visited)
    (unvisited : node ∉ visited) :
    stepsLeft nodes (enqueue (visited ++ [node]) (successors node) pending) (visited ++ [node]) <
      stepsLeft nodes (node :: pending) visited := by
  have few := (exploring.visit unvisited).length_le
  have short := length_enqueue_le (visited ++ [node]) (successors node) pending
  unfold stepsLeft
  rw [List.length_append, List.length_singleton] at few ⊢
  rw [List.length_cons]
  omega

/-- A traversal with enough fuel visits all pending nodes and the successors of all
visited ones. -/
theorem Exploring.order {successors : α → Successors α} {nodes pending visited : List α}
    {fuel : Nat} (exploring : Exploring successors nodes pending visited)
    (enough : stepsLeft nodes pending visited ≤ fuel) :
    Exploring successors nodes [] (order successors fuel pending visited) ∧
      ∀ node ∈ pending, node ∈ Worklist.order successors fuel pending visited := by
  induction fuel generalizing pending visited with
  | zero =>
      obtain rfl : pending = [] := by
        rw [← List.length_eq_zero_iff]
        unfold stepsLeft at enough
        omega
      exact ⟨by simpa [Worklist.order] using exploring, by simp⟩
  | succ fuel ih =>
      cases pending with
      | nil => exact ⟨by simpa [Worklist.order] using exploring, by simp⟩
      | cons node pending =>
          rw [Worklist.order]
          split
          · rename_i isVisited
            have left : stepsLeft nodes pending visited ≤ fuel := by
              unfold stepsLeft at enough ⊢
              rw [List.length_cons] at enough
              omega
            obtain ⟨done, rest⟩ := ih (exploring.skip isVisited) left
            obtain ⟨more, whole⟩ := exists_order_eq_append successors fuel pending visited
            refine ⟨done, List.forall_mem_cons.mpr ⟨?_, rest⟩⟩
            rw [whole]
            exact List.mem_append_left _ isVisited
          · rename_i unvisited
            have left := Nat.lt_of_lt_of_le (exploring.stepsLeft_visit unvisited) enough
            obtain ⟨done, rest⟩ := ih (exploring.visit unvisited) (Nat.le_of_lt_succ left)
            obtain ⟨more, whole⟩ := exists_order_eq_append successors fuel
              (enqueue (visited ++ [node]) (successors node) pending) (visited ++ [node])
            have kept : ∀ other ∈ visited ++ [node], other ∈ Worklist.order successors fuel
                (enqueue (visited ++ [node]) (successors node) pending) (visited ++ [node]) := by
              intro other otherMem
              rw [whole]
              exact List.mem_append_left _ otherMem
            refine ⟨done, List.forall_mem_cons.mpr
              ⟨kept node (List.mem_append_right _ List.mem_cons_self), ?_⟩⟩
            intro other otherMem
            exact rest other (mem_enqueue.mpr (.inl otherMem))

/-- A traversal with enough fuel visits exactly the reachable nodes. -/
theorem mem_order_iff {successors : α → Successors α} {nodes : List α} {start : α} {fuel : Nat}
    (isNode : start ∈ nodes)
    (closed : ∀ node ∈ nodes, ∀ target, Edge successors node target → target ∈ nodes)
    (enough : 2 * nodes.length + 1 ≤ fuel) {node : α} :
    node ∈ order successors fuel [start] [] ↔ Reachable successors start node := by
  constructor
  · intro isVisited
    obtain ⟨front, back, whole⟩ := List.append_of_mem isVisited
    obtain ⟨path, isPath, -⟩ :=
      (grounded_start successors start).order.reached front node back whole
    exact ⟨path, isPath⟩
  · rintro ⟨path, isPath⟩
    have exploring : Exploring successors nodes [start] [] :=
      ⟨List.nodup_nil, by simp, List.forall_mem_singleton.mpr isNode, closed, by simp⟩
    obtain ⟨done, rest⟩ := exploring.order (by simpa [stepsLeft, Nat.add_comm] using enough)
    induction isPath with
    | start => exact rest start List.mem_cons_self
    | step _ edge ih =>
        rcases done.frontier _ ih _ edge with isVisited | waiting
        · exact isVisited
        · cases waiting

/-! ### Neighbours -/

/-- The first successor of a visited node follows it, unless it was visited
before; that of the last visited node is the next pending one. -/
structure Adjacent (successors : α → Successors α) (pending visited : List α) : Prop where
  inner : ∀ front node other back, visited = front ++ node :: other :: back →
    ∀ target, (successors node).next = some target → target ∉ front ++ [node] → other = target
  last : ∀ front node, visited = front ++ [node] → ∀ target,
    (successors node).next = some target → target ∉ visited → pending.head? = some target

omit [DecidableEq α] in
theorem Adjacent.skip {successors : α → Successors α} {pending visited : List α} {node : α}
    (adjacent : Adjacent successors (node :: pending) visited) (isVisited : node ∈ visited) :
    Adjacent successors pending visited where
  inner := adjacent.inner
  last := by
    intro front last isLast target isNext unvisited
    have isHead := adjacent.last front last isLast target isNext unvisited
    obtain rfl := Option.some.inj isHead
    exact absurd isVisited unvisited

theorem head?_enqueue {successors : Successors α} {visited pending : List α} {target : α}
    (isNext : successors.next = some target) (unvisited : target ∉ visited) :
    (enqueue visited successors pending).head? = some target := by
  unfold enqueue
  rw [isNext, pushNext, if_neg unvisited]
  cases successors.later with
  | none => rfl
  | some later =>
      rw [pushLater]
      split <;> rfl

theorem Adjacent.visit {successors : α → Successors α} {pending visited : List α} {node : α}
    (adjacent : Adjacent successors (node :: pending) visited) :
    Adjacent successors (enqueue (visited ++ [node]) (successors node) pending)
      (visited ++ [node]) where
  inner := by
    intro front first second back isVisited target isNext unvisited
    rw [List.append_cons front] at isVisited
    rcases append_cons_eq_snoc.mp isVisited with ⟨isFront, rfl, -⟩ | ⟨rest, -, isFront⟩
    · have isHead := adjacent.last front first isFront.symm target isNext (isFront ▸ unvisited)
      exact Option.some.inj isHead
    · rw [← List.append_cons] at isFront
      exact adjacent.inner front first second rest isFront target isNext unvisited
  last := by
    intro front last isVisited target isNext unvisited
    obtain ⟨-, isLast⟩ := List.append_inj' isVisited rfl
    rw [(List.cons.inj isLast).1]
    rw [(List.cons.inj isLast).1] at unvisited
    exact head?_enqueue isNext unvisited

/-- A traversal with enough fuel visits first successors right after their
predecessors. -/
theorem Adjacent.order {successors : α → Successors α} {nodes pending visited : List α}
    {fuel : Nat} (adjacent : Adjacent successors pending visited)
    (exploring : Exploring successors nodes pending visited)
    (enough : stepsLeft nodes pending visited ≤ fuel) :
    Adjacent successors [] (order successors fuel pending visited) := by
  induction fuel generalizing pending visited with
  | zero =>
      obtain rfl : pending = [] := by
        rw [← List.length_eq_zero_iff]
        unfold stepsLeft at enough
        omega
      simpa [Worklist.order] using adjacent
  | succ fuel ih =>
      cases pending with
      | nil => simpa [Worklist.order] using adjacent
      | cons node pending =>
          rw [Worklist.order]
          split
          · rename_i isVisited
            refine ih (adjacent.skip isVisited) (exploring.skip isVisited) ?_
            unfold stepsLeft at enough ⊢
            rw [List.length_cons] at enough
            omega
          · rename_i unvisited
            have left := Nat.lt_of_lt_of_le (exploring.stepsLeft_visit unvisited) enough
            exact ih adjacent.visit (exploring.visit unvisited) (Nat.le_of_lt_succ left)

omit [DecidableEq α] in
theorem adjacent_start (successors : α → Successors α) (start : α) :
    Adjacent successors [start] [] where
  inner := by simp
  last := by simp

end VliwCompiler.Worklist
