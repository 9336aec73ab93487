import Mathlib.Algebra.BigOperators.Group.Finset.Basic
import Mathlib.Algebra.Ring.Nat
import Mathlib.Data.List.Sort
import Mathlib.Tactic.Common

/-! # Components of the read graph

`components_after_dependencies` of `fixpoint.rs`: Tarjan's algorithm with its own stack of frames.
A frame is a node and the edges it has not followed yet.
-/

namespace Ry

structure Tarjan where
  /-- The nodes that no frame was ever made for. -/
  unvisited : Finset Nat
  order : Nat → Nat
  low : Nat → Nat
  stack : List Nat
  components : List (List Nat)
  next : Nat

namespace Tarjan

def edges (dependencies : List (List Nat)) (node : Nat) : List Nat := dependencies.getD node []

def visit (t : Tarjan) (node : Nat) : Tarjan :=
  { t with
    unvisited := t.unvisited.erase node
    order := Function.update t.order node t.next
    low := Function.update t.low node t.next
    stack := node :: t.stack
    next := t.next + 1 }

def lower (t : Tarjan) (node bound : Nat) : Tarjan :=
  { t with low := Function.update t.low node (min (t.low node) bound) }

/-- The stack down to the component's root. -/
def popTo (node : Nat) : List Nat → List Nat × List Nat
  | [] => ([], [])
  | member :: stack =>
    if member = node then ([member], stack)
    else
      let (component, rest) := popTo node stack
      (member :: component, rest)

/-- A node whose edges are all followed. -/
def leave (t : Tarjan) (node : Nat) : Tarjan :=
  if t.low node = t.order node then
    let (component, rest) := popTo node t.stack
    { t with
      stack := rest
      components := t.components ++ [component.insertionSort (· ≤ ·)] }
  else t

@[simp] theorem leave_unvisited (t : Tarjan) (node : Nat) :
    (t.leave node).unvisited = t.unvisited := by
  unfold leave
  split <;> rfl

/-- A parent's `low` after its child's. -/
def lowerParent (t : Tarjan) (node : Nat) : List (Nat × List Nat) → Tarjan
  | (parent, _) :: _ => t.lower parent (t.low node)
  | [] => t

@[simp] theorem lowerParent_unvisited (t : Tarjan) (node : Nat) (frames : List (Nat × List Nat)) :
    (t.lowerParent node frames).unvisited = t.unvisited := by
  cases frames <;> rfl

/-- Edges and nodes that are still to come. -/
def work (dependencies : List (List Nat)) (unvisited : Finset Nat) (frames : List (Nat × List Nat)) :
    Nat :=
  ∑ node ∈ unvisited, (2 + (edges dependencies node).length) +
    (frames.map fun frame => 1 + frame.2.length).sum

/-- Innermost frame first. -/
def walk (dependencies : List (List Nat)) (t : Tarjan) (frames : List (Nat × List Nat)) : Tarjan :=
  match frames with
  | [] => t
  | (node, target :: targets) :: rest =>
    if target ∈ t.unvisited then
      walk dependencies (t.visit target)
        ((target, edges dependencies target) :: (node, targets) :: rest)
    else if target ∈ t.stack then
      walk dependencies (t.lower node (t.order target)) ((node, targets) :: rest)
    else walk dependencies t ((node, targets) :: rest)
  | (node, []) :: rest =>
    walk dependencies ((t.lowerParent node rest).leave node) rest
termination_by work dependencies t.unvisited frames
decreasing_by
  · rename_i hmem
    rw [work, work, ← Finset.add_sum_erase _ _ hmem]
    simp [visit]
    omega
  · simp [work, lower]
  · simp [work]
  · simp [work]

end Tarjan

/-- Strongly connected components, each after every component it depends on. -/
def componentsAfterDependencies (dependencies : List (List Nat)) : List (List Nat) :=
  ((List.range dependencies.length).foldl (fun t root =>
    if root ∈ t.unvisited then
      Tarjan.walk dependencies (t.visit root) [(root, Tarjan.edges dependencies root)]
    else t)
    ⟨Finset.range dependencies.length, fun _ => 0, fun _ => 0, [], [], 0⟩).components

namespace Tarjan

/-- Only nodes of the graph are ever visited. -/
structure Within (n : Nat) (t : Tarjan) : Prop where
  unvisited : ∀ node ∈ t.unvisited, node < n
  stack : ∀ node ∈ t.stack, node < n
  components : ∀ component ∈ t.components, ∀ node ∈ component, node < n

variable {n : Nat} {t : Tarjan} {node : Nat}

theorem Within.visit (h : t.Within n) (hnode : node ∈ t.unvisited) : (t.visit node).Within n where
  unvisited _ hm := h.unvisited _ (Finset.mem_of_mem_erase hm)
  stack := List.forall_mem_cons.mpr ⟨h.unvisited node hnode, h.stack⟩
  components := h.components

theorem mem_popTo (node : Nat) (stack : List Nat) {member : Nat}
    (h : member ∈ (popTo node stack).1 ∨ member ∈ (popTo node stack).2) : member ∈ stack := by
  induction stack with
  | nil => simp [popTo] at h
  | cons top stack ih =>
    unfold popTo at h
    split at h
    · rcases h with h | h
      · exact List.mem_cons.mpr (.inl (List.mem_singleton.mp h))
      · exact List.mem_cons_of_mem _ h
    · rcases h with h | h
      · rcases List.mem_cons.mp h with rfl | h
        · exact List.mem_cons_self
        · exact List.mem_cons_of_mem _ (ih (.inl h))
      · exact List.mem_cons_of_mem _ (ih (.inr h))

theorem Within.leave (h : t.Within n) (node : Nat) : (t.leave node).Within n := by
  unfold Tarjan.leave
  split
  · refine ⟨h.unvisited, fun _ hm => h.stack _ (mem_popTo node _ (.inr hm)), ?_⟩
    intro component hc member hm
    rcases List.mem_append.mp hc with hc | hc
    · exact h.components component hc member hm
    · rw [List.mem_singleton] at hc
      subst hc
      rw [List.mem_insertionSort] at hm
      exact h.stack _ (mem_popTo node _ (.inl hm))
  · exact h

theorem Within.lowerParent (h : t.Within n) (node : Nat) (frames : List (Nat × List Nat)) :
    (t.lowerParent node frames).Within n := by
  cases frames with
  | nil => exact h
  | cons => exact ⟨h.unvisited, h.stack, h.components⟩

theorem Within.walk (dependencies : List (List Nat)) (frames : List (Nat × List Nat))
    (h : t.Within n) : (walk dependencies t frames).Within n := by
  fun_induction Tarjan.walk dependencies t frames with
  | case1 => exact h
  | case2 t node target targets rest hmem ih => exact ih (h.visit hmem)
  | case3 t node target targets rest _ _ ih => exact ih ⟨h.unvisited, h.stack, h.components⟩
  | case4 t node target targets rest _ _ ih => exact ih h
  | case5 t node rest ih => exact ih ((h.lowerParent node rest).leave node)

end Tarjan

theorem componentsAfterDependencies_lt (dependencies : List (List Nat)) {component : List Nat}
    (hc : component ∈ componentsAfterDependencies dependencies) {node : Nat}
    (h : node ∈ component) : node < dependencies.length := by
  have hrun : ∀ (roots : List Nat) (t : Tarjan), t.Within dependencies.length →
      (roots.foldl (fun t root =>
        if root ∈ t.unvisited then
          Tarjan.walk dependencies (t.visit root) [(root, Tarjan.edges dependencies root)]
        else t) t).Within dependencies.length := by
    intro roots
    induction roots with
    | nil => exact fun _ h => h
    | cons root roots ih =>
      intro t ht
      refine ih _ ?_
      dsimp only
      split
      · rename_i hroot
        exact (ht.visit hroot).walk dependencies _
      · exact ht
  refine (hrun _ _ ⟨?_, ?_, ?_⟩).components component hc node h
  · exact fun node hnode => Finset.mem_range.mp hnode
  · exact fun _ hnode => absurd hnode List.not_mem_nil
  · exact fun _ hcomponent => absurd hcomponent List.not_mem_nil

end Ry
