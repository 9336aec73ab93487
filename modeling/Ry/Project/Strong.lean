import Ry.Lib.Strong
import Ry.Project.Components

/-! # The components are the strongly connected ones

`components_after_dependencies` gives the strongly connected components of a graph, every one
after those it depends on.  The stack holds the nodes whose component is not known yet, oldest
last; `low` is the oldest node of the stack that a node was found to reach.
-/

namespace Ry

namespace Tarjan

open Relation

def Edge (dependencies : List (List Nat)) (v w : Nat) : Prop := w ∈ edges dependencies v

/-- `v` depends on `w`, directly or not. -/
abbrev Reaches (dependencies : List (List Nat)) : Nat → Nat → Prop :=
  ReflTransGen (Edge dependencies)

/-- The edge is still to be followed. -/
def Pending (frames : List (Nat × List Nat)) (v w : Nat) : Prop :=
  ∃ f ∈ frames, f.1 = v ∧ w ∈ f.2

/-- The nodes that were visited are on the stack or in a component, once. -/
structure Placed (dependencies : List (List Nat)) (t : Tarjan) : Prop where
  unvisited : ∀ v ∈ t.unvisited, v < dependencies.length
  visited : ∀ v, v ∈ t.stack ++ t.components.flatten ↔
    v < dependencies.length ∧ v ∉ t.unvisited
  nodup : (t.stack ++ t.components.flatten).Nodup
  ordered : t.stack.Pairwise fun v w => t.order w < t.order v
  fresh : ∀ v ∈ t.stack, t.order v < t.next

/-- What the components given so far are. -/
structure Emitted (dependencies : List (List Nat)) (components : List (List Nat)) : Prop where
  closed : Strong.Closed (Edge dependencies) {v | v ∈ components.flatten}
  strong : ∀ c ∈ components, ∀ v ∈ c, ∀ w, w ∈ c ↔ Reaches dependencies v w ∧ Reaches dependencies w v
  sorted : ∀ c ∈ components, c ≠ [] ∧ c.Pairwise (· ≤ ·)
  first : components.Pairwise fun c d => ∀ v ∈ c, ∀ w ∈ d, ¬ Reaches dependencies v w

/-- The frames are nodes of the stack, and what lies above one was found from it. -/
structure Active (dependencies : List (List Nat)) (t : Tarjan) (frames : List (Nat × List Nat)) :
    Prop where
  sublist : (frames.map Prod.fst).Sublist t.stack
  pending : ∀ v w, Pending frames v w → Edge dependencies v w
  followed : ∀ v ∈ t.stack, ∀ w, Edge dependencies v w → w ∉ t.unvisited ∨ Pending frames v w
  bottom : ∀ v ∈ t.stack, ∃ f ∈ frames.map Prod.fst, t.order f ≤ t.order v
  above : ∀ f ∈ frames.map Prod.fst, ∀ v ∈ t.stack, t.order f ≤ t.order v →
    Reaches dependencies f v

/-- `low` of a node is the order of a node of the stack it reaches, and no more than the order
of any it has an edge to; a frame's is no more than that of the nodes next above it. -/
structure Linked (dependencies : List (List Nat)) (t : Tarjan) (frames : List (Nat × List Nat)) :
    Prop where
  le_order : ∀ v ∈ t.stack, t.low v ≤ t.order v
  reached : ∀ v ∈ t.stack, ∃ w ∈ t.stack, t.order w = t.low v ∧ Reaches dependencies v w
  edge : ∀ v ∈ t.stack, ∀ w ∈ t.stack, Edge dependencies v w →
    t.low v ≤ t.order w ∨ Pending frames v w
  left : ∀ v ∈ t.stack, v ∉ frames.map Prod.fst → t.low v < t.order v
  frame : ∀ f ∈ frames.map Prod.fst, ∀ v ∈ t.stack, t.order f ≤ t.order v →
    t.low f ≤ t.low v ∨ ∃ g ∈ frames.map Prod.fst, t.order f < t.order g ∧ t.order g ≤ t.order v

structure Invariant (dependencies : List (List Nat)) (t : Tarjan)
    (frames : List (Nat × List Nat)) : Prop where
  placed : t.Placed dependencies
  emitted : Emitted dependencies t.components
  active : t.Active dependencies frames
  linked : t.Linked dependencies frames

variable {dependencies : List (List Nat)} {t : Tarjan} {frames rest : List (Nat × List Nat)}
  {node target : Nat} {targets : List Nat}

theorem Placed.order_inj (h : t.Placed dependencies) {v w : Nat} (hv : v ∈ t.stack)
    (hw : w ∈ t.stack) (heq : t.order v = t.order w) : v = w := by
  have hnodup : (t.stack.map t.order).Nodup :=
    List.pairwise_map.mpr (h.ordered.imp fun hlt => (ne_of_lt hlt).symm)
  exact List.inj_on_of_nodup_map hnodup hv hw heq

theorem Active.mem_stack (h : t.Active dependencies frames) {v : Nat}
    (hv : v ∈ frames.map Prod.fst) : v ∈ t.stack :=
  h.sublist.subset hv

/-- The innermost frame is the youngest. -/
theorem Active.lt_top (h : t.Active dependencies ((node, targets) :: rest))
    (hplaced : t.Placed dependencies) {g : Nat} (hg : g ∈ rest.map Prod.fst) :
    t.order g < t.order node := by
  have hordered := hplaced.ordered.sublist h.sublist
  rw [List.map_cons, List.pairwise_cons] at hordered
  exact hordered.1 g hg

/-! ## Following an edge -/

theorem Pending.of_follow {inner : List (Nat × List Nat)} {v w : Nat}
    (h : Pending (inner ++ (node, targets) :: rest) v w) :
    Pending (inner ++ (node, target :: targets) :: rest) v w := by
  obtain ⟨f, hf, hv, hw⟩ := h
  rcases List.mem_append.mp hf with hf | hf
  · exact ⟨f, List.mem_append_left _ hf, hv, hw⟩
  · rcases List.mem_cons.mp hf with rfl | hf
    · exact ⟨_, List.mem_append_right _ List.mem_cons_self, hv, List.mem_cons_of_mem _ hw⟩
    · exact ⟨f, List.mem_append_right _ (List.mem_cons_of_mem _ hf), hv, hw⟩

theorem Pending.follow {inner : List (Nat × List Nat)} {v w : Nat}
    (h : Pending (inner ++ (node, target :: targets) :: rest) v w) :
    (v = node ∧ w = target) ∨ Pending (inner ++ (node, targets) :: rest) v w := by
  obtain ⟨f, hf, hv, hw⟩ := h
  rcases List.mem_append.mp hf with hf | hf
  · exact .inr ⟨f, List.mem_append_left _ hf, hv, hw⟩
  · rcases List.mem_cons.mp hf with rfl | hf
    · rcases List.mem_cons.mp hw with rfl | hw
      · exact .inl ⟨hv.symm, rfl⟩
      · exact .inr ⟨_, List.mem_append_right _ List.mem_cons_self, hv, hw⟩
    · exact .inr ⟨f, List.mem_append_right _ (List.mem_cons_of_mem _ hf), hv, hw⟩

/-- An edge to a node that was visited is followed once `low` counts it. -/
theorem Invariant.follow (inner : List (Nat × List Nat))
    (h : t.Invariant dependencies (inner ++ (node, target :: targets) :: rest))
    (hvisited : target ∉ t.unvisited) (hlow : target ∈ t.stack → t.low node ≤ t.order target) :
    t.Invariant dependencies (inner ++ (node, targets) :: rest) := by
  have hnodes : (inner ++ (node, target :: targets) :: rest).map Prod.fst =
      (inner ++ (node, targets) :: rest).map Prod.fst := by simp
  refine ⟨h.placed, h.emitted, ⟨?_, ?_, ?_, ?_, ?_⟩, ⟨h.linked.le_order, h.linked.reached, ?_, ?_, ?_⟩⟩
  · exact hnodes ▸ h.active.sublist
  · exact fun v w hp => h.active.pending v w hp.of_follow
  · intro v hv w hedge
    rcases h.active.followed v hv w hedge with hw | hp
    · exact .inl hw
    · rcases hp.follow with ⟨-, rfl⟩ | hp
      · exact .inl hvisited
      · exact .inr hp
  · exact hnodes ▸ h.active.bottom
  · exact hnodes ▸ h.active.above
  · intro v hv w hw hedge
    rcases h.linked.edge v hv w hw hedge with hle | hp
    · exact .inl hle
    · rcases hp.follow with ⟨rfl, rfl⟩ | hp
      · exact .inl (hlow hw)
      · exact .inr hp
  · exact hnodes ▸ h.linked.left
  · exact hnodes ▸ h.linked.frame

/-! ## Lowering -/

theorem low_lower_le (t : Tarjan) (node bound v : Nat) : (t.lower node bound).low v ≤ t.low v := by
  by_cases hv : v = node
  · rw [hv]
    simp [lower]
  · simp [lower, hv]

theorem low_lower_of_ne {bound v : Nat} (h : v ≠ node) :
    (t.lower node bound).low v = t.low v := by
  simp [lower, h]

/-- A frame's `low` may be lowered to the order of a node it reaches. -/
theorem Invariant.lower (h : t.Invariant dependencies frames) {w : Nat}
    (hnode : node ∈ frames.map Prod.fst) (hw : w ∈ t.stack)
    (hreach : Reaches dependencies node w) :
    (t.lower node (t.order w)).Invariant dependencies frames where
  placed := ⟨h.placed.unvisited, h.placed.visited, h.placed.nodup, h.placed.ordered, h.placed.fresh⟩
  emitted := h.emitted
  active := ⟨h.active.sublist, h.active.pending, h.active.followed, h.active.bottom, h.active.above⟩
  linked :=
    { le_order := fun v hv => (low_lower_le t node _ v).trans (h.linked.le_order v hv)
      reached := by
        intro v hv
        by_cases hvn : v = node
        · rcases Nat.le_total (t.low node) (t.order w) with hle | hle
          · rw [hvn]
            simpa [Tarjan.lower, Nat.min_eq_left hle] using h.linked.reached node (hvn ▸ hv)
          · refine ⟨w, hw, ?_, hvn ▸ hreach⟩
            simp [Tarjan.lower, hvn, Nat.min_eq_right hle]
        · rw [low_lower_of_ne hvn]
          exact h.linked.reached v hv
      edge := by
        intro v hv u hu hedge
        rcases h.linked.edge v hv u hu hedge with hle | hp
        · exact .inl ((low_lower_le t node _ v).trans hle)
        · exact .inr hp
      left := by
        intro v hv hleft
        have hvn : v ≠ node := by
          rintro rfl
          exact hleft hnode
        rw [low_lower_of_ne hvn]
        exact h.linked.left v hv hleft
      frame := by
        intro f hf v hv hle
        by_cases hvn : v = node
        · -- the node is itself a frame between the two, unless it is the frame
          by_cases hfn : f = node
          · exact .inl (by rw [hfn, hvn])
          · have hne : t.order f ≠ t.order v := fun heq =>
              hfn (h.placed.order_inj (h.active.mem_stack hf) hv heq |>.trans hvn)
            exact .inr ⟨node, hnode, hvn ▸ Nat.lt_of_le_of_ne hle hne, hvn ▸ Nat.le_refl _⟩
        · rw [low_lower_of_ne hvn]
          rcases h.linked.frame f hf v hv hle with hlow | hbetween
          · exact .inl ((low_lower_le t node _ f).trans hlow)
          · exact .inr hbetween }

/-! ## Visiting -/

@[simp] theorem visit_order_self (t : Tarjan) (target : Nat) :
    (t.visit target).order target = t.next := by
  simp [visit]

@[simp] theorem visit_low_self (t : Tarjan) (target : Nat) :
    (t.visit target).low target = t.next := by
  simp [visit]

theorem visit_order_of_ne {v : Nat} (h : v ≠ target) : (t.visit target).order v = t.order v := by
  simp [visit, h]

theorem visit_low_of_ne {v : Nat} (h : v ≠ target) : (t.visit target).low v = t.low v := by
  simp [visit, h]

theorem Placed.ne_of_mem (h : t.Placed dependencies) (htarget : target ∈ t.unvisited) {v : Nat}
    (hv : v ∈ t.stack) : v ≠ target := by
  rintro rfl
  exact ((h.visited v).mp (List.mem_append_left _ hv)).2 htarget

theorem Placed.visit (h : t.Placed dependencies) (htarget : target ∈ t.unvisited) :
    (t.visit target).Placed dependencies where
  unvisited v hv := h.unvisited v (Finset.mem_of_mem_erase hv)
  visited := by
    intro v
    have hvisited := h.visited v
    by_cases hv : v = target
    · simp [Tarjan.visit, hv, h.unvisited target htarget]
    · simpa [Tarjan.visit, hv] using hvisited
  nodup := by
    refine List.nodup_cons.mpr ⟨fun hmem => ?_, h.nodup⟩
    exact ((h.visited target).mp hmem).2 htarget
  ordered := by
    refine List.pairwise_cons.mpr ⟨fun v hv => ?_, ?_⟩
    · rw [visit_order_self, visit_order_of_ne (h.ne_of_mem htarget hv)]
      exact h.fresh v hv
    · refine h.ordered.imp_of_mem fun hv hw hlt => ?_
      rw [visit_order_of_ne (h.ne_of_mem htarget hv), visit_order_of_ne (h.ne_of_mem htarget hw)]
      exact hlt
  fresh := by
    intro v hv
    rcases List.mem_cons.mp hv with rfl | hv
    · simp [Tarjan.visit]
    · rw [visit_order_of_ne (h.ne_of_mem htarget hv)]
      exact Nat.lt_succ_of_lt (h.fresh v hv)

theorem Active.visit (h : t.Active dependencies frames) (hplaced : t.Placed dependencies)
    (htarget : target ∈ t.unvisited)
    (hfrom : ∀ f ∈ frames.map Prod.fst, Reaches dependencies f target) :
    (t.visit target).Active dependencies ((target, edges dependencies target) :: frames) where
  sublist := h.sublist.cons_cons target
  pending := by
    rintro v w ⟨f, hf, rfl, hw⟩
    rcases List.mem_cons.mp hf with rfl | hf
    · exact hw
    · exact h.pending f.1 w ⟨f, hf, rfl, hw⟩
  followed := by
    intro v hv w hedge
    rcases List.mem_cons.mp hv with rfl | hv
    · exact .inr ⟨_, List.mem_cons_self, rfl, hedge⟩
    · rcases h.followed v hv w hedge with hw | ⟨f, hf, hfv, hw⟩
      · exact .inl fun hmem => hw (Finset.mem_of_mem_erase hmem)
      · exact .inr ⟨f, List.mem_cons_of_mem _ hf, hfv, hw⟩
  bottom := by
    intro v hv
    rcases List.mem_cons.mp hv with rfl | hv
    · exact ⟨v, List.mem_cons_self, Nat.le_refl _⟩
    · obtain ⟨f, hf, hle⟩ := h.bottom v hv
      refine ⟨f, List.mem_cons_of_mem _ hf, ?_⟩
      rwa [visit_order_of_ne (hplaced.ne_of_mem htarget (h.mem_stack hf)),
        visit_order_of_ne (hplaced.ne_of_mem htarget hv)]
  above := by
    intro f hf v hv hle
    rcases List.mem_cons.mp hf with rfl | hframe
    · rcases List.mem_cons.mp hv with rfl | hstack
      · exact .refl
      · rw [visit_order_self, visit_order_of_ne (hplaced.ne_of_mem htarget hstack)] at hle
        exact absurd (hplaced.fresh v hstack) (Nat.not_lt.mpr hle)
    · rcases List.mem_cons.mp hv with rfl | hstack
      · exact hfrom f hframe
      · rw [visit_order_of_ne (hplaced.ne_of_mem htarget (h.mem_stack hframe)),
          visit_order_of_ne (hplaced.ne_of_mem htarget hstack)] at hle
        exact h.above f hframe v hstack hle

theorem Linked.visit (h : t.Linked dependencies frames) (hactive : t.Active dependencies frames)
    (hplaced : t.Placed dependencies) (htarget : target ∈ t.unvisited) :
    (t.visit target).Linked dependencies ((target, edges dependencies target) :: frames) where
  le_order := by
    intro v hv
    rcases List.mem_cons.mp hv with rfl | hv
    · simp
    · have hne := hplaced.ne_of_mem htarget hv
      rw [visit_low_of_ne hne, visit_order_of_ne hne]
      exact h.le_order v hv
  reached := by
    intro v hv
    rcases List.mem_cons.mp hv with rfl | hv
    · exact ⟨v, List.mem_cons_self, by simp, .refl⟩
    · obtain ⟨w, hw, heq, hreach⟩ := h.reached v hv
      refine ⟨w, List.mem_cons_of_mem _ hw, ?_, hreach⟩
      rw [visit_low_of_ne (hplaced.ne_of_mem htarget hv),
        visit_order_of_ne (hplaced.ne_of_mem htarget hw), heq]
  edge := by
    intro v hv w hw hedge
    rcases List.mem_cons.mp hv with rfl | hstack
    · exact .inr ⟨_, List.mem_cons_self, rfl, hedge⟩
    · rw [visit_low_of_ne (hplaced.ne_of_mem htarget hstack)]
      rcases List.mem_cons.mp hw with rfl | hw
      · -- a new node is younger than all of the stack
        rw [visit_order_self]
        exact .inl ((h.le_order v hstack).trans (hplaced.fresh v hstack).le)
      · rw [visit_order_of_ne (hplaced.ne_of_mem htarget hw)]
        rcases h.edge v hstack w hw hedge with hle | ⟨f, hf, hfv, hw⟩
        · exact .inl hle
        · exact .inr ⟨f, List.mem_cons_of_mem _ hf, hfv, hw⟩
  left := by
    intro v hv hleft
    rw [List.map_cons, List.mem_cons, not_or] at hleft
    rw [visit_low_of_ne hleft.1, visit_order_of_ne hleft.1]
    exact h.left v (List.mem_of_ne_of_mem hleft.1 hv) hleft.2
  frame := by
    intro f hf v hv hle
    rcases List.mem_cons.mp hv with rfl | hstack
    · by_cases hfv : f = v
      · exact .inl (by rw [hfv])
      · refine .inr ⟨v, List.mem_cons_self, ?_, Nat.le_refl _⟩
        rw [visit_order_self, visit_order_of_ne hfv]
        exact hplaced.fresh f (hactive.mem_stack (List.mem_of_ne_of_mem hfv hf))
    · have hne := hplaced.ne_of_mem htarget hstack
      rw [visit_order_of_ne hne] at hle ⊢
      rw [visit_low_of_ne hne]
      rcases List.mem_cons.mp hf with rfl | hframe
      · rw [visit_order_self] at hle
        exact absurd (hplaced.fresh v hstack) (Nat.not_lt.mpr hle)
      · have hfne := hplaced.ne_of_mem htarget (hactive.mem_stack hframe)
        rw [visit_order_of_ne hfne] at hle ⊢
        rw [visit_low_of_ne hfne]
        rcases h.frame f hframe v hstack hle with hlow | ⟨g, hg, hfg, hgv⟩
        · exact .inl hlow
        · refine .inr ⟨g, List.mem_cons_of_mem _ hg, ?_⟩
          rw [visit_order_of_ne (hplaced.ne_of_mem htarget (hactive.mem_stack hg))]
          exact ⟨hfg, hgv⟩

theorem Invariant.visit (h : t.Invariant dependencies frames) (htarget : target ∈ t.unvisited)
    (hfrom : ∀ f ∈ frames.map Prod.fst, Reaches dependencies f target) :
    (t.visit target).Invariant dependencies ((target, edges dependencies target) :: frames) where
  placed := h.placed.visit htarget
  emitted := h.emitted
  active := h.active.visit h.placed htarget hfrom
  linked := h.linked.visit h.active h.placed htarget

/-! ## Leaving -/

@[simp] theorem leave_order (t : Tarjan) (node : Nat) : (t.leave node).order = t.order := by
  unfold leave
  split <;> rfl

@[simp] theorem leave_low (t : Tarjan) (node : Nat) : (t.leave node).low = t.low := by
  unfold leave
  split <;> rfl

theorem popTo_append {above below : List Nat} (h : node ∉ above) :
    popTo node (above ++ node :: below) = (above ++ [node], below) := by
  induction above with
  | nil => simp [popTo]
  | cons v above ih =>
    rw [List.mem_cons, not_or] at h
    rw [List.cons_append, popTo, if_neg (Ne.symm h.1), ih h.2, List.cons_append]

/-- A node cuts the stack in the part from it on and the part below. -/
theorem Placed.cut (h : t.Placed dependencies) (hnode : node ∈ t.stack) :
    ∃ component below, popTo node t.stack = (component, below) ∧ t.stack = component ++ below ∧
      (∀ v, v ∈ component ↔ v ∈ t.stack ∧ t.order node ≤ t.order v) ∧
      ∀ v, v ∈ below ↔ v ∈ t.stack ∧ t.order v < t.order node := by
  obtain ⟨above, below, hstack, habove⟩ := List.eq_append_cons_of_mem hnode
  have hordered := h.ordered
  rw [hstack, List.pairwise_append, List.pairwise_cons] at hordered
  obtain ⟨-, ⟨hbelow, -⟩, hcross⟩ := hordered
  refine ⟨above ++ [node], below, by rw [hstack, popTo_append habove], by simp [hstack], ?_, ?_⟩
  · intro v
    rw [hstack]
    simp only [List.mem_append, List.mem_cons, List.not_mem_nil, or_false]
    constructor
    · rintro (hv | rfl)
      · exact ⟨.inl hv, (hcross v hv node List.mem_cons_self).le⟩
      · exact ⟨.inr (.inl rfl), Nat.le_refl _⟩
    · rintro ⟨hv | rfl | hv, hle⟩
      · exact .inl hv
      · exact .inr rfl
      · exact absurd (hbelow v hv) (Nat.not_lt.mpr hle)
  · intro v
    rw [hstack]
    simp only [List.mem_append, List.mem_cons]
    constructor
    · intro hv
      exact ⟨.inr (.inr hv), hbelow v hv⟩
    · rintro ⟨hv | rfl | hv, hlt⟩
      · exact absurd (hcross v hv node List.mem_cons_self) (Nat.lt_asymm hlt)
      · exact absurd hlt (Nat.lt_irrefl _)
      · exact hv

/-- Once its edges are followed, nothing from a node on is pending. -/
theorem Active.not_pending (h : t.Active dependencies ((node, []) :: rest))
    (hplaced : t.Placed dependencies) {v : Nat} (hle : t.order node ≤ t.order v) (w : Nat) :
    ¬ Pending ((node, []) :: rest) v w := by
  rintro ⟨f, hf, rfl, hw⟩
  rcases List.mem_cons.mp hf with rfl | hf
  · exact absurd hw List.not_mem_nil
  · exact Nat.not_lt.mpr hle (h.lt_top hplaced (List.mem_map_of_mem hf))

/-- The innermost frame's `low` counts all from it on. -/
theorem Linked.top_le (h : t.Linked dependencies ((node, targets) :: rest))
    (hactive : t.Active dependencies ((node, targets) :: rest)) (hplaced : t.Placed dependencies)
    {v : Nat} (hv : v ∈ t.stack) (hle : t.order node ≤ t.order v) : t.low node ≤ t.low v := by
  rcases h.frame node List.mem_cons_self v hv hle with hlow | ⟨g, hg, hlt, -⟩
  · exact hlow
  · rcases List.mem_cons.mp hg with rfl | hg
    · exact absurd hlt (Nat.lt_irrefl _)
    · exact absurd (hactive.lt_top hplaced hg) (Nat.lt_asymm hlt)

/-- A node that reaches nothing older is the root of the stack's last component. -/
theorem Invariant.segment (h : t.Invariant dependencies ((node, []) :: rest))
    (hrange : ∀ v w, Edge dependencies v w → w < dependencies.length)
    (hroot : t.low node = t.order node) :
    Strong.Segment (Edge dependencies) t.order node
      {v | v ∈ t.stack ∧ t.order node ≤ t.order v} {v | v ∈ t.components.flatten} where
  from_root v hv := h.active.above node List.mem_cons_self v hv.1 hv.2
  descends := by
    rintro v ⟨hv, hle⟩ hne
    have hleft : v ∉ ((node, []) :: rest).map Prod.fst := by
      intro hmem
      rcases List.mem_cons.mp hmem with rfl | hmem
      · exact hne rfl
      · exact Nat.not_lt.mpr hle (h.active.lt_top h.placed hmem)
    obtain ⟨w, hw, heq, hreach⟩ := h.linked.reached v hv
    have hlow := h.linked.top_le h.active h.placed hv hle
    exact ⟨w, ⟨hw, by rw [heq, ← hroot]; exact hlow⟩, by rw [heq]; exact h.linked.left v hv hleft,
      hreach⟩
  exits := by
    rintro v ⟨hv, hle⟩ w hedge
    have hpending := h.active.not_pending h.placed hle w
    have hw := (h.active.followed v hv w hedge).resolve_right hpending
    rcases List.mem_append.mp ((h.placed.visited w).mpr ⟨hrange v w hedge, hw⟩) with hw | hw
    · have hlow := (h.linked.edge v hv w hw hedge).resolve_right hpending
      have htop := h.linked.top_le h.active h.placed hv hle
      exact .inl ⟨hw, by omega⟩
    · exact .inr hw
  done := h.emitted.closed
  disjoint v hv hmem := List.disjoint_of_nodup_append h.placed.nodup hv.1 hmem

/-- A component whose edges lead back to it and to the earlier ones may be given next. -/
theorem Emitted.push {components : List (List Nat)} (h : Emitted dependencies components)
    {component : List Nat} (hne : component ≠ []) (hsorted : component.Pairwise (· ≤ ·))
    {rank : Nat → Nat} {root : Nat}
    (hsegment : Strong.Segment (Edge dependencies) rank root {v | v ∈ component}
      {v | v ∈ components.flatten}) :
    Emitted dependencies (components ++ [component]) where
  closed := by
    intro v hv w hedge
    simp only [List.flatten_append, List.flatten_singleton, Set.mem_ofPred_eq, List.mem_append] at hv ⊢
    rcases hv with hv | hv
    · exact .inl (h.closed v hv w hedge)
    · exact (hsegment.exits v hv w hedge).symm
  strong := by
    intro c hc v hv w
    rcases List.mem_append.mp hc with hc | hc
    · exact h.strong c hc v hv w
    · obtain rfl := List.mem_singleton.mp hc
      exact hsegment.mem_iff hv w
  sorted := by
    intro c hc
    rcases List.mem_append.mp hc with hc | hc
    · exact h.sorted c hc
    · obtain rfl := List.mem_singleton.mp hc
      exact ⟨hne, hsorted⟩
  first := by
    refine List.pairwise_append.mpr ⟨h.first, List.pairwise_singleton _ _, ?_⟩
    intro c hc d hd v hv w hw hreach
    obtain rfl := List.mem_singleton.mp hd
    exact hsegment.disjoint w hw
      (h.closed.mem_of_reaches (List.mem_flatten.mpr ⟨c, hc, hv⟩) hreach)

/-- The parent of the node that is left has taken over its `low`. -/
def Inherited (t : Tarjan) (node : Nat) (rest : List (Nat × List Nat)) : Prop :=
  ∀ p ps rest', rest = (p, ps) :: rest' → t.low p ≤ t.low node

/-- A node that reaches an older one stays on the stack. -/
theorem Invariant.keep (h : t.Invariant dependencies ((node, []) :: rest))
    (hparent : t.Inherited node rest) (hroot : t.low node ≠ t.order node) :
    t.Invariant dependencies rest where
  placed := h.placed
  emitted := h.emitted
  active :=
    { sublist := (List.sublist_cons_self _ _).trans h.active.sublist
      pending := fun v w ⟨f, hf, hv, hw⟩ =>
        h.active.pending v w ⟨f, List.mem_cons_of_mem _ hf, hv, hw⟩
      followed := by
        intro v hv w hedge
        rcases h.active.followed v hv w hedge with hw | ⟨f, hf, hfv, hw⟩
        · exact .inl hw
        · rcases List.mem_cons.mp hf with rfl | hf
          · exact absurd hw List.not_mem_nil
          · exact .inr ⟨f, hf, hfv, hw⟩
      bottom := by
        have hnode := h.active.mem_stack List.mem_cons_self
        -- the older node it reaches lies above a frame, and not above this one
        obtain ⟨w, hw, heq, -⟩ := h.linked.reached node hnode
        have hlow := h.linked.le_order node hnode
        have hlt : t.order w < t.order node := by
          rw [heq]
          exact Nat.lt_of_le_of_ne hlow hroot
        intro v hv
        obtain ⟨f, hf, hle⟩ := h.active.bottom v hv
        rcases List.mem_cons.mp hf with rfl | hf
        · obtain ⟨g, hg, hgle⟩ := h.active.bottom w hw
          rcases List.mem_cons.mp hg with rfl | hg
          · exact absurd hlt (Nat.not_lt.mpr hgle)
          · exact ⟨g, hg, hgle.trans (hlt.le.trans hle)⟩
        · exact ⟨f, hf, hle⟩
      above := fun f hf => h.active.above f (List.mem_cons_of_mem _ hf) }
  linked :=
    { le_order := h.linked.le_order
      reached := h.linked.reached
      edge := by
        intro v hv w hw hedge
        rcases h.linked.edge v hv w hw hedge with hle | ⟨f, hf, hfv, hmem⟩
        · exact .inl hle
        · rcases List.mem_cons.mp hf with rfl | hf
          · exact absurd hmem List.not_mem_nil
          · exact .inr ⟨f, hf, hfv, hmem⟩
      left := by
        intro v hv hleft
        by_cases hvn : v = node
        · rw [hvn]
          exact Nat.lt_of_le_of_ne (h.linked.le_order node (hvn ▸ hv)) hroot
        · refine h.linked.left v hv fun hmem => ?_
          rcases List.mem_cons.mp hmem with heq | hmem
          · exact hvn heq
          · exact hleft hmem
      frame := by
        intro f hf v hv hle
        rcases h.linked.frame f (List.mem_cons_of_mem _ hf) v hv hle with hlow | ⟨g, hg, hfg, hgv⟩
        · exact .inl hlow
        · rcases List.mem_cons.mp hg with rfl | hg
          · -- now the parent is next below `v`
            have hnode := h.linked.top_le h.active h.placed hv hgv
            rcases rest with _ | ⟨⟨p, ps⟩, rest⟩
            · exact absurd hf List.not_mem_nil
            · rcases List.mem_cons.mp hf with rfl | hf'
              · exact .inl ((hparent _ _ _ rfl).trans hnode)
              · have hordered := h.placed.ordered.sublist h.active.sublist
                rw [List.map_cons, List.map_cons, List.pairwise_cons, List.pairwise_cons] at hordered
                exact .inr ⟨p, List.mem_cons_self, hordered.2.1 f hf',
                  (hordered.1 p List.mem_cons_self).le.trans hgv⟩
          · exact .inr ⟨g, hg, hfg, hgv⟩ }

/-- A root takes the stack from it on as the next component. -/
theorem Invariant.pop (h : t.Invariant dependencies ((node, []) :: rest))
    (hrange : ∀ v w, Edge dependencies v w → w < dependencies.length)
    (hroot : t.low node = t.order node) : (t.leave node).Invariant dependencies rest := by
  have hnode : node ∈ t.stack := h.active.mem_stack List.mem_cons_self
  obtain ⟨component, below, hpop, hstack, hcomponent, hbelow⟩ := h.placed.cut hnode
  have hsegment := h.segment hrange hroot
  have hleave : t.leave node = { t with
      stack := below
      components := t.components ++ [component.insertionSort (· ≤ ·)] } := by
    rw [leave, if_pos hroot, hpop]
  have hsame : {v | v ∈ t.stack ∧ t.order node ≤ t.order v} =
      {v | v ∈ component.insertionSort (· ≤ ·)} := by
    ext v
    simp [List.mem_insertionSort, hcomponent]
  have hframe : ∀ f ∈ rest.map Prod.fst, t.order f < t.order node := fun f hf =>
    h.active.lt_top h.placed hf
  have hold : ∀ v ∈ below, v ∈ t.stack := fun v hv => ((hbelow v).mp hv).1
  have hpending : ∀ v ∈ below, ∀ w, Pending ((node, []) :: rest) v w → Pending rest v w := by
    rintro v hv w ⟨f, hf, hfv, hw⟩
    rcases List.mem_cons.mp hf with rfl | hf
    · exact absurd hw List.not_mem_nil
    · exact ⟨f, hf, hfv, hw⟩
  have hperm : (t.stack ++ t.components.flatten).Perm
      (below ++ (t.components ++ [component.insertionSort (· ≤ ·)]).flatten) := by
    rw [hstack, List.flatten_append, List.flatten_singleton, List.append_assoc,
      ← List.append_assoc below]
    exact List.perm_append_comm.trans
      (.append_left _ (List.perm_insertionSort (· ≤ ·) component).symm)
  rw [hleave]
  refine ⟨?_, ?_, ?_, ?_⟩
  · exact
      { unvisited := h.placed.unvisited
        visited := fun v => hperm.mem_iff.symm.trans (h.placed.visited v)
        nodup := hperm.nodup_iff.mp h.placed.nodup
        ordered := h.placed.ordered.sublist (hstack ▸ List.sublist_append_right _ _)
        fresh := fun v hv => h.placed.fresh v (hold v hv) }
  · refine h.emitted.push ?_ (List.pairwise_insertionSort _ _) (hsame ▸ hsegment)
    have hmem := (List.mem_insertionSort (· ≤ ·)).mpr ((hcomponent node).mpr ⟨hnode, Nat.le_refl _⟩)
    exact List.ne_nil_of_mem hmem
  · refine ⟨?_, ?_, ?_, ?_, ?_⟩
    · have hnot : ∀ f ∈ rest.map Prod.fst, f ∉ component := fun f hf hmem =>
        Nat.not_lt.mpr ((hcomponent f).mp hmem).2 (hframe f hf)
      obtain ⟨tops, lower, heq, htops, hlower⟩ :=
        List.sublist_append_iff.mp (hstack ▸ h.active.sublist)
      rw [List.map_cons] at heq
      rcases tops with _ | ⟨top, _ | ⟨f, tops⟩⟩
      · rw [List.nil_append] at heq
        exact (List.sublist_cons_self _ _).trans (heq ▸ hlower)
      · rw [(List.cons.inj heq).2]
        exact hlower
      · have hf : f ∈ rest.map Prod.fst := by simp [(List.cons.inj heq).2]
        exact absurd (htops.subset (by simp)) (hnot f hf)
    · exact fun v w ⟨f, hf, hv, hw⟩ =>
        h.active.pending v w ⟨f, List.mem_cons_of_mem _ hf, hv, hw⟩
    · intro v hv w hedge
      rcases h.active.followed v (hold v hv) w hedge with hw | hp
      · exact .inl hw
      · exact .inr (hpending v hv w hp)
    · intro v hv
      obtain ⟨f, hf, hle⟩ := h.active.bottom v (hold v hv)
      rcases List.mem_cons.mp hf with rfl | hf
      · exact absurd ((hbelow v).mp hv).2 (Nat.not_lt.mpr hle)
      · exact ⟨f, hf, hle⟩
    · exact fun f hf v hv => h.active.above f (List.mem_cons_of_mem _ hf) v (hold v hv)
  · refine ⟨fun v hv => h.linked.le_order v (hold v hv), ?_, ?_, ?_, ?_⟩
    · intro v hv
      obtain ⟨w, hw, heq, hreach⟩ := h.linked.reached v (hold v hv)
      have hle := h.linked.le_order v (hold v hv)
      have hlt := ((hbelow v).mp hv).2
      exact ⟨w, (hbelow w).mpr ⟨hw, by omega⟩, heq, hreach⟩
    · intro v hv w hw hedge
      rcases h.linked.edge v (hold v hv) w (hold w hw) hedge with hle | hp
      · exact .inl hle
      · exact .inr (hpending v hv w hp)
    · intro v hv hleft
      refine h.linked.left v (hold v hv) fun hmem => ?_
      rcases List.mem_cons.mp hmem with rfl | hmem
      · exact absurd ((hbelow v).mp hv).2 (Nat.lt_irrefl _)
      · exact hleft hmem
    · intro f hf v hv hle
      rcases h.linked.frame f (List.mem_cons_of_mem _ hf) v (hold v hv) hle with
        hlow | ⟨g, hg, hfg, hgv⟩
      · exact .inl hlow
      · rcases List.mem_cons.mp hg with rfl | hg
        · exact absurd ((hbelow v).mp hv).2 (Nat.not_lt.mpr hgv)
        · exact .inr ⟨g, hg, hfg, hgv⟩

theorem Invariant.leave (h : t.Invariant dependencies ((node, []) :: rest))
    (hrange : ∀ v w, Edge dependencies v w → w < dependencies.length)
    (hparent : t.Inherited node rest) : (t.leave node).Invariant dependencies rest := by
  by_cases hroot : t.low node = t.order node
  · exact h.pop hrange hroot
  · rw [Tarjan.leave, if_neg hroot]
    exact h.keep hparent hroot

/-- The parent takes over the `low` of the node that is about to be left. -/
theorem Invariant.lowerParent (h : t.Invariant dependencies ((node, []) :: rest)) :
    (t.lowerParent node rest).Invariant dependencies ((node, []) :: rest) ∧
      (t.lowerParent node rest).Inherited node rest := by
  rcases rest with _ | ⟨⟨p, ps⟩, rest⟩
  · exact ⟨h, nofun⟩
  · have hnode : node ∈ t.stack := h.active.mem_stack List.mem_cons_self
    have hlt : t.order p < t.order node := h.active.lt_top h.placed List.mem_cons_self
    obtain ⟨w, hw, heq, hreach⟩ := h.linked.reached node hnode
    have hp : p ∈ ((node, []) :: (p, ps) :: rest).map Prod.fst := by simp
    have hfound := h.active.above p hp node hnode hlt.le
    rw [Tarjan.lowerParent, ← heq]
    refine ⟨h.lower hp hw (hfound.trans hreach), ?_⟩
    rintro _ _ _ ⟨⟩
    have hne : node ≠ p := by
      rintro rfl
      exact Nat.lt_irrefl _ hlt
    rw [low_lower_of_ne hne, ← heq]
    simp [Tarjan.lower]

/-- A whole walk. -/
theorem Invariant.walk (hrange : ∀ v w, Edge dependencies v w → w < dependencies.length)
    (h : t.Invariant dependencies frames) :
    (walk dependencies t frames).Invariant dependencies [] := by
  fun_induction Tarjan.walk dependencies t frames with
  | case1 => exact h
  | case2 t node target targets rest hmem ih =>
    have hedge : Edge dependencies node target :=
      h.active.pending node target ⟨_, List.mem_cons_self, rfl, List.mem_cons_self⟩
    have hnode : node ∈ t.stack := h.active.mem_stack List.mem_cons_self
    have hfrom : ∀ f ∈ ((node, target :: targets) :: rest).map Prod.fst,
        Reaches dependencies f target := by
      intro f hf
      refine (h.active.above f hf node hnode ?_).tail hedge
      rcases List.mem_cons.mp hf with rfl | hf
      · exact Nat.le_refl _
      · exact (h.active.lt_top h.placed hf).le
    have hvisited := h.visit hmem hfrom
    refine ih (hvisited.follow [_] (by simp [Tarjan.visit]) fun _ => ?_)
    rw [visit_order_self, visit_low_of_ne (h.placed.ne_of_mem hmem hnode)]
    exact (h.linked.le_order node hnode).trans (h.placed.fresh node hnode).le
  | case3 t node target targets rest hvisited hstack ih =>
    have hedge : Edge dependencies node target :=
      h.active.pending node target ⟨_, List.mem_cons_self, rfl, List.mem_cons_self⟩
    refine ih ((h.lower List.mem_cons_self hstack (.single hedge)).follow [] hvisited
      fun _ => ?_)
    simp [Tarjan.lower]
  | case4 t node target targets rest hvisited hstack ih =>
    exact ih (h.follow [] hvisited fun hmem => absurd hmem hstack)
  | case5 t node rest ih =>
    obtain ⟨hlowered, hinherited⟩ := h.lowerParent
    exact ih (hlowered.leave hrange hinherited)

theorem walk_unvisited (dependencies : List (List Nat)) (t : Tarjan)
    (frames : List (Nat × List Nat)) : (walk dependencies t frames).unvisited ⊆ t.unvisited := by
  fun_induction walk dependencies t frames with
  | case1 => exact Finset.Subset.refl _
  | case2 t node target targets rest _ ih => exact ih.trans (Finset.erase_subset _ _)
  | case3 t node target targets rest _ _ ih => exact ih
  | case4 t node target targets rest _ _ ih => exact ih
  | case5 t node rest ih => simpa using ih

/-! ## The loop -/

/-- One turn of the loop over the frames. -/
def turn (dependencies : List (List Nat)) :
    Tarjan × List (Nat × List Nat) → Tarjan × List (Nat × List Nat)
  | (t, []) => (t, [])
  | (t, (node, target :: targets) :: rest) =>
    if target ∈ t.unvisited then
      (t.visit target, (target, edges dependencies target) :: (node, targets) :: rest)
    else if target ∈ t.stack then (t.lower node (t.order target), (node, targets) :: rest)
    else (t, (node, targets) :: rest)
  | (t, (node, []) :: rest) => ((t.lowerParent node rest).leave node, rest)

/-- The loop ends, after at most one turn for each node and edge that is left, and one for
each node to be left. -/
theorem walk_eq_turns (dependencies : List (List Nat)) (t : Tarjan)
    (frames : List (Nat × List Nat)) : ∃ k ≤ work dependencies t.unvisited frames,
      (turn dependencies)^[k] (t, frames) = (walk dependencies t frames, []) := by
  fun_induction walk dependencies t frames with
  | case1 t => exact ⟨0, Nat.zero_le _, rfl⟩
  | case2 t node target targets rest hmem ih =>
    obtain ⟨k, hk, hturns⟩ := ih
    refine ⟨k + 1, ?_, ?_⟩
    · rw [work, ← Finset.add_sum_erase _ _ hmem]
      simp [work, visit] at hk ⊢
      omega
    · rw [Function.iterate_succ_apply, turn, if_pos hmem, hturns]
  | case3 t node target targets rest hvisited hstack ih =>
    obtain ⟨k, hk, hturns⟩ := ih
    refine ⟨k + 1, ?_, ?_⟩
    · simp [work, Tarjan.lower] at hk ⊢
      omega
    · rw [Function.iterate_succ_apply, turn, if_neg hvisited, if_pos hstack, hturns]
  | case4 t node target targets rest hvisited hstack ih =>
    obtain ⟨k, hk, hturns⟩ := ih
    refine ⟨k + 1, ?_, ?_⟩
    · simp [work] at hk ⊢
      omega
    · rw [Function.iterate_succ_apply, turn, if_neg hvisited, if_neg hstack, hturns]
  | case5 t node rest ih =>
    obtain ⟨k, hk, hturns⟩ := ih
    refine ⟨k + 1, ?_, ?_⟩
    · simp [work] at hk ⊢
      omega
    · rw [Function.iterate_succ_apply, turn, hturns]

/-! ## All roots -/

theorem invariant_start (dependencies : List (List Nat)) :
    Invariant dependencies
      ⟨Finset.range dependencies.length, fun _ => 0, fun _ => 0, [], [], 0⟩ [] where
  placed := ⟨by simp, by simp, by simp, by simp, by simp⟩
  emitted := ⟨fun _ hv => by simp at hv, by simp, by simp, by simp⟩
  active := ⟨by simp, fun _ _ ⟨_, hf, _⟩ => absurd hf List.not_mem_nil, by simp, by simp, by simp⟩
  linked := ⟨by simp, by simp, by simp, by simp, by simp⟩

/-- No frame is left over, so no node is left on the stack. -/
theorem Invariant.stack_eq_nil (h : t.Invariant dependencies []) : t.stack = [] := by
  rw [List.eq_nil_iff_forall_not_mem]
  intro v hv
  obtain ⟨f, hf, -⟩ := h.active.bottom v hv
  exact absurd hf List.not_mem_nil

theorem Invariant.roots (hrange : ∀ v w, Edge dependencies v w → w < dependencies.length)
    (roots : List Nat) (h : t.Invariant dependencies []) :
    let done := roots.foldl (fun t root =>
      if root ∈ t.unvisited then
        Tarjan.walk dependencies (t.visit root) [(root, edges dependencies root)]
      else t) t
    done.Invariant dependencies [] ∧ done.unvisited ⊆ t.unvisited ∧
      ∀ root ∈ roots, root ∉ done.unvisited := by
  induction roots generalizing t with
  | nil => exact ⟨h, Finset.Subset.refl _, by simp⟩
  | cons root roots ih =>
    dsimp only at ih ⊢
    rw [List.foldl_cons]
    split
    · rename_i hroot
      have hwalk := (h.visit hroot (by simp)).walk hrange
      have hsub := walk_unvisited dependencies (t.visit root) [(root, edges dependencies root)]
      obtain ⟨hdone, hless, hroots⟩ := ih hwalk
      refine ⟨hdone, (hless.trans hsub).trans (Finset.erase_subset _ _), ?_⟩
      refine List.forall_mem_cons.mpr ⟨fun hmem => ?_, hroots⟩
      exact absurd (hsub (hless hmem)) (Finset.notMem_erase root _)
    · rename_i hroot
      obtain ⟨hdone, hless, hroots⟩ := ih h
      exact ⟨hdone, hless, List.forall_mem_cons.mpr ⟨fun hmem => hroot (hless hmem), hroots⟩⟩

theorem edge_range (h : ∀ targets ∈ dependencies, ∀ w ∈ targets, w < dependencies.length)
    (v w : Nat) (hedge : Edge dependencies v w) : w < dependencies.length := by
  unfold Edge edges at hedge
  rw [List.getD_eq_getElem?_getD] at hedge
  cases hv : dependencies[v]? with
  | none => simp [hv] at hedge
  | some targets => exact h targets (List.mem_of_getElem? hv) w (by simpa [hv] using hedge)

end Tarjan

open Tarjan in
/-- The components partition the nodes, are sorted and strongly connected, and depend on
earlier ones only; the loop that finds them ends. -/
theorem componentsAfterDependencies_spec {dependencies : List (List Nat)}
    (h : ∀ targets ∈ dependencies, ∀ target ∈ targets, target < dependencies.length) :
    (componentsAfterDependencies dependencies).flatten.Perm (List.range dependencies.length) ∧
    (∀ c ∈ componentsAfterDependencies dependencies, c ≠ [] ∧ c.Pairwise (· ≤ ·)) ∧
    (∀ c ∈ componentsAfterDependencies dependencies, ∀ v ∈ c, ∀ w,
      w ∈ c ↔ Reaches dependencies v w ∧ Reaches dependencies w v) ∧
    ((componentsAfterDependencies dependencies).Pairwise fun c d =>
      ∀ v ∈ c, ∀ w ∈ d, ¬ Reaches dependencies v w) ∧
    ∀ t frames, ∃ k ≤ work dependencies t.unvisited frames,
      (turn dependencies)^[k] (t, frames) = (walk dependencies t frames, []) := by
  obtain ⟨hdone, hless, hroots⟩ := (invariant_start dependencies).roots (edge_range h)
    (List.range dependencies.length)
  have hcomponents := hdone.emitted
  have hvisited := hdone.placed.visited
  have hnodup := hdone.placed.nodup
  rw [hdone.stack_eq_nil, List.nil_append] at hnodup
  refine ⟨?_, hcomponents.sorted, hcomponents.strong, hcomponents.first, walk_eq_turns dependencies⟩
  refine (List.perm_ext_iff_of_nodup hnodup List.nodup_range).mpr fun v => ?_
  have hv := hvisited v
  rw [hdone.stack_eq_nil, List.nil_append] at hv
  rw [List.mem_range]
  refine hv.trans ⟨And.left, fun hlt => ⟨hlt, hroots v (List.mem_range.mpr hlt)⟩⟩

/-- Two nodes that depend on each other, and one with a loop of its own. -/
theorem componentsAfterDependencies_cycle :
    (componentsAfterDependencies [[1], [0, 2, 0], [2]]).flatten.Perm (List.range 3) :=
  (@componentsAfterDependencies_spec [[1], [0, 2, 0], [2]] (by decide)).1

end Ry
