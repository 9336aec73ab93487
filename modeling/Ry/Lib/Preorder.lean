import Mathlib.Data.List.Basic

/-! # Walks over a tree

Nodes with labelled edges to their children.  `preorder` lists the nodes below a node, each with
its place; `calls` feeds a list of them to a callback that may leave out what is below a node, or
stop.  A walker that calls back at a node and then goes through the children is `calls` over the
preorder (`walk_eq_calls`).
-/

/-- Nodes and their children, each smaller than its parent. -/
structure Branching (N E : Type) where
  kids : N → List (E × N)
  size : N → Nat
  smaller : ∀ {n k : N} {e : E}, (e, k) ∈ kids n → size k < size n

/-- What a callback says of a node. -/
inductive Answer (B : Type)
  | into
  | skip
  | stop (b : B)

/-- A node, with the child indices and the edges that lead to it. -/
structure Placed (N E : Type) where
  node : N
  path : List Nat
  edges : List E

section Calls

variable {N E S B : Type} (visit : S → N → List E → S × Answer B)

/-- Go on unless stopped. -/
def andThen (r : S × Option B) (next : S → S × Option B) : S × Option B :=
  match r with
  | (s, none) => next s
  | (s, some b) => (s, some b)

theorem andThen_none (r : S × Option B) : andThen r (fun s => (s, none)) = r := by
  rcases r with ⟨s, _ | b⟩ <;> rfl

/-- The answer at a node, and the children if it goes on into them. -/
def answered (r : S × Answer B) (children : S → S × Option B) : S × Option B :=
  match r with
  | (s, .stop b) => (s, some b)
  | (s, .skip) => (s, none)
  | (s, .into) => children s

/-- The nodes that are not below `p`. -/
def notBelow (p : Placed N E) (ps : List (Placed N E)) : List (Placed N E) :=
  ps.filter fun q => !p.path.isPrefixOf q.path

/-- The callback at each node in turn; a skipped node takes what is below it out. -/
def calls (s : S) (ps : List (Placed N E)) : S × Option B :=
  match ps with
  | [] => (s, none)
  | p :: rest =>
    match visit s p.node p.edges with
    | (s', .stop b) => (s', some b)
    | (s', .skip) => calls s' (notBelow p rest)
    | (s', .into) => calls s' rest
termination_by ps.length
decreasing_by
  · exact Nat.lt_succ_of_le (List.length_filter_le _ _)
  · exact Nat.lt_succ_self _

theorem calls_nil (s : S) : calls visit s ([] : List (Placed N E)) = (s, none) := by
  rw [calls]

theorem calls_cons (s : S) (p : Placed N E) (rest : List (Placed N E)) :
    calls visit s (p :: rest) =
      match visit s p.node p.edges with
      | (s', .stop b) => (s', some b)
      | (s', .skip) => calls visit s' (notBelow p rest)
      | (s', .into) => calls visit s' rest := by
  rw [calls]

theorem notBelow_append (p : Placed N E) (ps qs : List (Placed N E)) :
    notBelow p (ps ++ qs) = notBelow p ps ++ notBelow p qs := List.filter_append _ _

theorem notBelow_eq_self {p : Placed N E} {ps : List (Placed N E)}
    (h : ∀ q ∈ ps, ¬ p.path <+: q.path) : notBelow p ps = ps := by
  refine List.filter_eq_self.mpr ?_
  intro q hq
  rw [Bool.not_eq_true', ← Bool.not_eq_true, List.isPrefixOf_iff_prefix]
  exact h q hq

theorem notBelow_eq_nil {p : Placed N E} {ps : List (Placed N E)}
    (h : ∀ q ∈ ps, p.path <+: q.path) : notBelow p ps = [] := by
  refine List.filter_eq_nil_iff.mpr ?_
  intro q hq
  simpa using h q hq

/-- One list after another, if nothing in the second is below something in the first. -/
theorem calls_append (s : S) (ps qs : List (Placed N E))
    (h : ∀ p ∈ ps, ∀ q ∈ qs, ¬ p.path <+: q.path) :
    calls visit s (ps ++ qs) = andThen (calls visit s ps) fun s' => calls visit s' qs := by
  induction hn : ps.length using Nat.strongRecOn generalizing s ps with
  | _ n ih =>
    cases ps with
    | nil => rw [List.nil_append, calls_nil, andThen]
    | cons p rest =>
      rw [List.cons_append, calls_cons, calls_cons]
      have hrest : ∀ x ∈ rest, ∀ q ∈ qs, ¬ x.path <+: q.path :=
        fun x hx => h x (List.mem_cons_of_mem _ hx)
      have hlen : rest.length < n := by rw [← hn]; exact Nat.lt_succ_self _
      rcases visit s p.node p.edges with ⟨s', answer⟩
      cases answer with
      | stop b => rfl
      | into => exact ih _ hlen s' rest hrest rfl
      | skip =>
        dsimp only
        rw [notBelow_append, notBelow_eq_self (h p List.mem_cons_self)]
        refine ih _ (Nat.lt_of_le_of_lt (List.length_filter_le _ _) hlen) s' _ ?_ rfl
        intro x hx
        exact hrest x (List.mem_of_mem_filter hx)

end Calls

namespace Branching

variable {N E : Type} (t : Branching N E)

/-- The node and what is below it, parents first. -/
def preorder (n : N) (path : List Nat) (edges : List E) : List (Placed N E) :=
  ⟨n, path, edges⟩ :: (t.kids n).attach.zipIdx.flatMap fun k =>
    preorder k.1.1.2 (path ++ [k.2]) (edges ++ [k.1.1.1])
termination_by t.size n
decreasing_by exact t.smaller k.1.2

/-- The nodes of several trees, numbered from an index on. -/
def forest (path : List Nat) (edges : List E) : Nat → List (E × N) → List (Placed N E)
  | _, [] => []
  | i, k :: ks =>
    t.preorder k.2 (path ++ [i]) (edges ++ [k.1]) ++ forest path edges (i + 1) ks

theorem forest_eq_flatMap (path : List Nat) (edges : List E) (i : Nat) (ks : List (E × N)) :
    t.forest path edges i ks =
      (ks.zipIdx i).flatMap fun k => t.preorder k.1.2 (path ++ [k.2]) (edges ++ [k.1.1]) := by
  induction ks generalizing i with
  | nil => rfl
  | cons k ks ih => rw [forest, ih, List.zipIdx_cons, List.flatMap_cons]

theorem preorder_eq (n : N) (path : List Nat) (edges : List E) :
    t.preorder n path edges = ⟨n, path, edges⟩ :: t.forest path edges 0 (t.kids n) := by
  rw [preorder, forest_eq_flatMap]
  congr 1
  conv_rhs => rw [← List.attach_map_subtype_val (t.kids n)]
  rw [List.zipIdx_map, List.flatMap_map]
  rfl

/-- An induction over what is below some nodes. -/
theorem forest_induction {P : List (E × N) → Prop}
    (h : ∀ ks, (∀ k ∈ ks, P (t.kids k.2)) → P ks) (ks : List (E × N)) : P ks := by
  have hbound : ∀ (m : Nat) (ks : List (E × N)), (∀ k ∈ ks, t.size k.2 < m) → P ks := by
    intro m
    induction m with
    | zero =>
      intro ks hks
      exact h ks fun k hk => absurd (hks k hk) (Nat.not_lt_zero _)
    | succ m ih =>
      intro ks hks
      refine h ks fun k hk => ih _ fun j hj => ?_
      exact Nat.lt_of_lt_of_le (t.smaller hj) (Nat.le_of_lt_succ (hks k hk))
  have hmax : ∃ m, ∀ k ∈ ks, t.size k.2 < m := by
    induction ks with
    | nil => exact ⟨0, fun k hk => absurd hk List.not_mem_nil⟩
    | cons k ks ih =>
      obtain ⟨m, hm⟩ := ih
      refine ⟨max (t.size k.2 + 1) m, List.forall_mem_cons.mpr ⟨by omega, ?_⟩⟩
      intro j hj
      have hlt := hm j hj
      omega
  obtain ⟨m, hm⟩ := hmax
  exact hbound m ks hm

/-- A node of a forest stands below one of its roots. -/
theorem place_of_mem {path : List Nat} {edges : List E} {i : Nat} {ks : List (E × N)}
    {p : Placed N E} (h : p ∈ t.forest path edges i ks) :
    ∃ k ∈ ks, ∃ j, i ≤ j ∧ path ++ [j] <+: p.path ∧ edges ++ [k.1] <+: p.edges := by
  induction ks using t.forest_induction generalizing path edges i p with
  | h ks ih =>
    induction ks generalizing i with
    | nil => exact absurd h (by simp [forest])
    | cons k ks ihks =>
      rw [forest, List.mem_append, preorder_eq, List.mem_cons] at h
      rcases h with (rfl | h) | h
      · exact ⟨k, List.mem_cons_self, i, Nat.le_refl _, List.prefix_rfl, List.prefix_rfl⟩
      · obtain ⟨k', -, j, -, hpath, hedges⟩ := ih k List.mem_cons_self h
        exact ⟨k, List.mem_cons_self, i, Nat.le_refl _, (List.prefix_append _ _).trans hpath,
          (List.prefix_append _ _).trans hedges⟩
      · obtain ⟨k', hk', j, hj, hplace⟩ :=
          ihks (fun k hk => ih k (List.mem_cons_of_mem _ hk)) h
        exact ⟨k', List.mem_cons_of_mem _ hk', j, Nat.le_of_succ_le hj, hplace⟩

/-- Nothing below a node is an ancestor of what comes with a later index. -/
theorem not_prefix_of_later {path : List Nat} {i j : Nat} {p q : List Nat} (hij : i < j)
    (hp : path ++ [i] <+: p) (hq : path ++ [j] <+: q) : ¬ p <+: q := by
  intro hpq
  have hi := hp.trans hpq
  have hlen : (path ++ [i]).length = (path ++ [j]).length := by simp
  have heq := (List.prefix_of_prefix_length_le hi hq (Nat.le_of_eq hlen)).eq_of_length hlen
  have hlast : i = j := by simpa using heq
  omega

/-- Nodes come once each, parents before what is below them. -/
theorem forest_pairwise (path : List Nat) (edges : List E) (i : Nat) (ks : List (E × N)) :
    (t.forest path edges i ks).Pairwise fun p q => ¬ q.path <+: p.path := by
  induction ks using t.forest_induction generalizing path edges i with
  | h ks ih =>
    induction ks generalizing i with
    | nil => exact List.Pairwise.nil
    | cons k ks ihks =>
      rw [forest, preorder_eq, List.cons_append, List.pairwise_cons, List.pairwise_append]
      refine ⟨?_, ih k List.mem_cons_self _ _ _,
        ihks (fun k hk => ih k (List.mem_cons_of_mem _ hk)) _, ?_⟩
      · intro q hq
        rcases List.mem_append.mp hq with hq | hq
        · obtain ⟨k', -, j, -, hpath, -⟩ := t.place_of_mem hq
          intro hback
          have hlen := (hpath.trans hback).length_le
          simp at hlen
        · obtain ⟨k', -, j, hj, hpath, -⟩ := t.place_of_mem hq
          intro hback
          have hlong := hpath.trans hback
          have hlen : (path ++ [j]).length = (path ++ [i]).length := by simp
          have hlast : j = i := by simpa using hlong.eq_of_length hlen
          omega
      · intro p hp q hq
        obtain ⟨k', -, j, -, hpath, -⟩ := t.place_of_mem hp
        obtain ⟨k'', -, j', hj', hpath', -⟩ := t.place_of_mem hq
        intro hback
        have hi := (List.prefix_append (path ++ [i]) [j]).trans hpath
        have hlen : (path ++ [j']).length = (path ++ [i]).length := by simp
        have heq := (List.prefix_of_prefix_length_le (hpath'.trans hback) hi
          (Nat.le_of_eq hlen)).eq_of_length hlen
        have hlast : j' = i := by simpa using heq
        omega

/-! ## A walker -/

variable {S B : Type} (visit : S → N → List E → S × Answer B) (keep : E → Bool)
  (step : N → List E → S → S × Option B)

/-- The children in turn, without those whose edge is left out. -/
def walkKids (edges : List E) : List (E × N) → S → S × Option B
  | [], s => (s, none)
  | k :: ks, s =>
    if keep k.1 then andThen (step k.2 (edges ++ [k.1]) s) (walkKids edges ks)
    else walkKids edges ks s

/-- `step` calls back at a node, and then goes through its children. -/
def Walks : Prop := ∀ n edges s, step n edges s =
  answered (visit s n edges) (walkKids keep step edges (t.kids n))

/-- No edge on the way is left out. -/
def kept (p : Placed N E) : Bool := p.edges.all keep

variable {t visit keep step}

theorem walkKids_eq_calls (h : t.Walks visit keep step) {edges : List E} (hedges : edges.all keep)
    (path : List Nat) (i : Nat) (ks : List (E × N)) (s : S) :
    walkKids keep step edges ks s =
      calls visit s ((t.forest path edges i ks).filter (kept keep)) := by
  induction ks using t.forest_induction generalizing path edges i s with
  | h ks ih =>
    induction ks generalizing i s with
    | nil => rw [walkKids, forest, List.filter_nil, calls_nil]
    | cons k ks ihks =>
      have hrest := fun s => ihks (fun j hj => ih j (List.mem_cons_of_mem _ hj)) (i + 1) s
      rw [walkKids, forest, List.filter_append]
      by_cases hk : keep k.1
      · have hall : (edges ++ [k.1]).all keep := by
          rw [List.all_append, hedges, Bool.true_and, List.all_cons, hk]
          rfl
        have hroot : step k.2 (edges ++ [k.1]) s = calls visit s
            ((t.preorder k.2 (path ++ [i]) (edges ++ [k.1])).filter (kept keep)) := by
          rw [h, preorder_eq, List.filter_cons_of_pos (by exact hall), calls_cons]
          rcases visit s k.2 (edges ++ [k.1]) with ⟨s', answer⟩
          cases answer with
          | stop b => rfl
          | into => exact ih k List.mem_cons_self hall _ _ s'
          | skip =>
            dsimp only [answered]
            rw [notBelow_eq_nil, calls_nil]
            intro q hq
            obtain ⟨k', -, j, -, hpath, -⟩ := t.place_of_mem (List.mem_of_mem_filter hq)
            exact (List.prefix_append _ _).trans hpath
        rw [if_pos hk, hroot, calls_append]
        · exact congrArg _ (funext hrest)
        · intro p hp q hq
          obtain ⟨k', -, j, hj, hpath, -⟩ := t.place_of_mem (List.mem_of_mem_filter hq)
          have hbelow : path ++ [i] <+: p.path := by
            have hp' := List.mem_of_mem_filter hp
            rw [preorder_eq] at hp'
            rcases List.mem_cons.mp hp' with rfl | hp'
            · exact List.prefix_rfl
            · obtain ⟨_, -, j', -, hpath', -⟩ := t.place_of_mem hp'
              exact (List.prefix_append _ _).trans hpath'
          exact not_prefix_of_later hj hbelow hpath
      · have hnone : (t.preorder k.2 (path ++ [i]) (edges ++ [k.1])).filter (kept keep) = [] := by
          refine List.filter_eq_nil_iff.mpr ?_
          intro p hp hkept
          have hin : k.1 ∈ p.edges := by
            rw [preorder_eq] at hp
            rcases List.mem_cons.mp hp with rfl | hp
            · exact List.mem_append_right _ (List.mem_singleton.mpr rfl)
            · obtain ⟨_, -, _, -, -, hpre⟩ := t.place_of_mem hp
              exact hpre.subset
                (List.mem_append_left _ (List.mem_append_right _ (List.mem_singleton.mpr rfl)))
          exact hk (List.all_eq_true.mp hkept _ hin)
        rw [if_neg hk, hnone, List.nil_append]
        exact hrest s

theorem walkKids_append (edges : List E) (ks js : List (E × N)) (s : S) :
    walkKids keep step edges (ks ++ js) s =
      andThen (walkKids keep step edges ks s) (walkKids keep step edges js) := by
  induction ks generalizing s with
  | nil => rfl
  | cons k ks ih =>
    rw [List.cons_append, walkKids, walkKids]
    split
    · rcases step k.2 (edges ++ [k.1]) s with ⟨s', _ | b⟩
      · exact ih s'
      · rfl
    · exact ih s

theorem walkKids_none {edges : List E} {ks : List (E × N)} (h : ∀ k ∈ ks, ¬ keep k.1) (s : S) :
    walkKids keep step edges ks s = (s, none) := by
  induction ks with
  | nil => rfl
  | cons k ks ih =>
    obtain ⟨hk, hks⟩ := List.forall_mem_cons.mp h
    rw [walkKids, if_neg hk, ih hks]

/-! ## Orders of the children -/

variable (t keep)

/-- Children in the order of a key. -/
def sortKids (key : N → Nat) (ks : List (E × N)) : List (E × N) :=
  ks.mergeSort fun a b => key a.2 ≤ key b.2

/-- The same nodes, each with its children sorted. -/
def sortedBy (key : N → Nat) : Branching N E where
  kids n := sortKids key (t.kids n)
  size := t.size
  smaller h := t.smaller (List.mem_mergeSort.mp h)

theorem sortKids_perm (key : N → Nat) (ks : List (E × N)) : (sortKids key ks).Perm ks :=
  List.mergeSort_perm _ _

theorem sortKids_pairwise (key : N → Nat) (ks : List (E × N)) :
    (sortKids key ks).Pairwise fun a b => key a.2 ≤ key b.2 := by
  have hsorted := @List.pairwise_mergeSort _ (fun a b : E × N => decide (key a.2 ≤ key b.2))
    (fun a b c hab hbc => by simp at hab hbc ⊢; omega) (fun a b => by simp; omega) ks
  exact hsorted.imp fun h => of_decide_eq_true h

theorem sortKids_of_pairwise {key : N → Nat} {ks : List (E × N)}
    (h : ks.Pairwise fun a b => key a.2 ≤ key b.2) : sortKids key ks = ks :=
  List.mergeSort_of_pairwise (h.imp fun hle => decide_eq_true hle)

/-- Every list of children from here on. -/
inductive AllBelow (P : List (E × N) → Prop) : List (E × N) → Prop
  | mk {ks : List (E × N)} (here : P ks) (below : ∀ k ∈ ks, AllBelow P (t.kids k.2)) :
    AllBelow P ks

/-- No edge is left out, and the children stand in the order of the key. -/
structure Orderly (key : N → Nat) (ks : List (E × N)) : Prop where
  keeps : ∀ k ∈ ks, keep k.1
  sorted : ks.Pairwise fun a b => key a.2 ≤ key b.2

/-- The nodes alone. -/
def labels (ks : List (E × N)) : List N := (t.forest [] [] 0 ks).map (·.node)

theorem labels_of_forest (path : List Nat) (edges : List E) (i : Nat) (ks : List (E × N)) :
    (t.forest path edges i ks).map (·.node) = t.labels ks := by
  rw [labels]
  generalize ([] : List Nat) = path', ([] : List E) = edges', 0 = i'
  induction ks using t.forest_induction generalizing path edges i path' edges' i' with
  | h ks ih =>
    induction ks generalizing i i' with
    | nil => rfl
    | cons k ks ihks =>
      rw [forest, forest, List.map_append, List.map_append, preorder_eq, preorder_eq, List.map_cons,
        List.map_cons, ih k List.mem_cons_self _ _ _ (path' ++ [i']) (edges' ++ [k.1]) 0,
        ihks (fun j hj => ih j (List.mem_cons_of_mem _ hj)) _ (i' + 1)]

theorem labels_cons (k : E × N) (ks : List (E × N)) :
    t.labels (k :: ks) = k.2 :: (t.labels (t.kids k.2) ++ t.labels ks) := by
  rw [labels, forest, List.map_append, preorder_eq, List.map_cons, labels_of_forest,
    labels_of_forest]
  rfl

theorem labels_length_perm {ks js : List (E × N)} (h : ks.Perm js) :
    (t.labels ks).length = (t.labels js).length := by
  induction h with
  | nil => rfl
  | cons k _ ih => rw [labels_cons, labels_cons]; simp [ih]
  | swap k j ks => simp only [labels_cons, List.length_cons, List.length_append]; omega
  | trans _ _ ih₁ ih₂ => exact ih₁.trans ih₂

/-- Sorting neither adds nor removes a node. -/
theorem labels_length_sorted (key : N → Nat) (ks : List (E × N)) :
    ((t.sortedBy key).labels ks).length = (t.labels ks).length := by
  induction ks using t.forest_induction with
  | h ks ih =>
    induction ks with
    | nil => rfl
    | cons k ks ihks =>
      have hkids : ((t.sortedBy key).labels ((t.sortedBy key).kids k.2)).length =
          (t.labels (t.kids k.2)).length := by
        rw [← ih k List.mem_cons_self]
        exact labels_length_perm _ (sortKids_perm key _)
      rw [labels_cons, labels_cons, List.length_cons, List.length_cons, List.length_append,
        List.length_append, hkids, ihks fun j hj => ih j (List.mem_cons_of_mem _ hj)]

variable {t keep}

theorem AllBelow.here {P : List (E × N) → Prop} {ks : List (E × N)} (h : t.AllBelow P ks) :
    P ks := by
  cases h with
  | mk here _ => exact here

theorem AllBelow.kids {P : List (E × N) → Prop} {ks : List (E × N)} (h : t.AllBelow P ks) :
    ∀ k ∈ ks, t.AllBelow P (t.kids k.2) := by
  cases h with
  | mk _ below => exact below

theorem AllBelow.imp {P Q : List (E × N) → Prop} {ks : List (E × N)} (hpq : ∀ ks, P ks → Q ks)
    (h : t.AllBelow P ks) : t.AllBelow Q ks := by
  induction h with
  | mk here _ ih => exact ⟨hpq _ here, ih⟩

theorem AllBelow.and {P Q : List (E × N) → Prop} {ks : List (E × N)} (hp : t.AllBelow P ks)
    (hq : t.AllBelow Q ks) : t.AllBelow (fun ks => P ks ∧ Q ks) ks := by
  induction hp with
  | mk here _ ih =>
    cases hq with
    | mk here' below' => exact ⟨⟨here, here'⟩, fun k hk => ih k hk (below' k hk)⟩

/-- If every node is reached without an edge that is left out, no edge is. -/
theorem keeps_of_kept {path : List Nat} {edges : List E} {i : Nat} {ks : List (E × N)}
    (h : ∀ p ∈ t.forest path edges i ks, kept keep p) :
    t.AllBelow (fun ks => ∀ k ∈ ks, keep k.1) ks := by
  induction ks using t.forest_induction generalizing path edges i with
  | h ks ih =>
    induction ks generalizing i with
    | nil => exact ⟨by simp, by simp⟩
    | cons k ks ihks =>
      rw [forest, preorder_eq, List.cons_append] at h
      have hall := h _ List.mem_cons_self
      rw [kept, List.all_append, Bool.and_eq_true, List.all_cons, Bool.and_eq_true] at hall
      have hkids := ih k List.mem_cons_self fun p hp =>
        h p (List.mem_cons_of_mem _ (List.mem_append_left _ hp))
      have hks := ihks (fun j hj => ih j (List.mem_cons_of_mem _ hj)) fun p hp =>
        h p (List.mem_cons_of_mem _ (List.mem_append_right _ hp))
      exact ⟨List.forall_mem_cons.mpr ⟨hall.2.1, hks.here⟩,
        List.forall_mem_cons.mpr ⟨hkids, hks.kids⟩⟩

/-- And the other way round. -/
theorem kept_of_keeps {path : List Nat} {edges : List E} {i : Nat} {ks : List (E × N)}
    (hedges : edges.all keep) (h : t.AllBelow (fun ks => ∀ k ∈ ks, keep k.1) ks) :
    ∀ p ∈ t.forest path edges i ks, kept keep p := by
  induction ks using t.forest_induction generalizing path edges i with
  | h ks ih =>
    induction ks generalizing i with
    | nil => simp [forest]
    | cons k ks ihks =>
      obtain ⟨hkids, hbelow⟩ := List.forall_mem_cons.mp h.kids
      obtain ⟨hk, hkeeps⟩ := List.forall_mem_cons.mp h.here
      have hall : (edges ++ [k.1]).all keep := by
        rw [List.all_append, hedges, Bool.true_and, List.all_cons, hk]
        rfl
      intro p hp
      rw [forest, preorder_eq, List.cons_append, List.mem_cons, List.mem_append] at hp
      rcases hp with rfl | hp | hp
      · exact hall
      · exact ih k List.mem_cons_self hall hkids p hp
      · exact ihks (fun j hj => ih j (List.mem_cons_of_mem _ hj)) ⟨hkeeps, hbelow⟩ p hp

/-- Equal lists of nodes have equal roots, and equal lists below each. -/
theorem roots_of_labels {key : N → Nat} {ks js : List (E × N)}
    (h : t.labels ks = (t.sortedBy key).labels js) :
    ks.map (·.2) = js.map (·.2) ∧ ∀ k ∈ ks,
      t.labels (t.kids k.2) = (t.sortedBy key).labels (sortKids key (t.kids k.2)) := by
  induction ks generalizing js with
  | nil =>
    cases js with
    | nil => exact ⟨rfl, by simp⟩
    | cons j js =>
      rw [labels_cons] at h
      exact absurd h (by simp [labels, forest])
  | cons k ks ih =>
    cases js with
    | nil =>
      rw [labels_cons] at h
      exact absurd h (by simp [labels, forest])
    | cons j js =>
      rw [labels_cons, labels_cons, List.cons.injEq] at h
      obtain ⟨hroot, hrest⟩ := h
      have hlen : (t.labels (t.kids k.2)).length =
          ((t.sortedBy key).labels ((t.sortedBy key).kids j.2)).length := by
        rw [← hroot, ← t.labels_length_sorted key]
        exact (labels_length_perm _ (sortKids_perm key _)).symm
      obtain ⟨hkids, hks⟩ := List.append_inj hrest hlen
      obtain ⟨hroots, hbelow⟩ := ih hks
      refine ⟨by rw [List.map_cons, List.map_cons, hroot, hroots], ?_⟩
      rw [← hroot] at hkids
      exact List.forall_mem_cons.mpr ⟨hkids, hbelow⟩

/-- If sorting the children changes nothing in the list of nodes, they are sorted. -/
theorem sorted_of_labels {key : N → Nat} {ks : List (E × N)}
    (h : t.labels ks = (t.sortedBy key).labels (sortKids key ks)) :
    t.AllBelow (fun ks => ks.Pairwise fun a b => key a.2 ≤ key b.2) ks := by
  induction ks using t.forest_induction with
  | h ks ih =>
    obtain ⟨hroots, hbelow⟩ := roots_of_labels h
    refine ⟨?_, fun k hk => ih k hk (hbelow k hk)⟩
    have hmap : (ks.map (·.2)).Pairwise fun a b => key a ≤ key b := by
      rw [hroots, List.pairwise_map]
      exact sortKids_pairwise key ks
    rwa [List.pairwise_map] at hmap

theorem forest_sorted {key : N → Nat} {path : List Nat} {edges : List E} {i : Nat}
    {ks : List (E × N)}
    (h : t.AllBelow (fun ks => ks.Pairwise fun a b => key a.2 ≤ key b.2) ks) :
    (t.sortedBy key).forest path edges i ks = t.forest path edges i ks := by
  induction ks using t.forest_induction generalizing path edges i with
  | h ks ih =>
    induction ks generalizing i with
    | nil => rfl
    | cons k ks ihks =>
      obtain ⟨hkids, hbelow⟩ := List.forall_mem_cons.mp h.kids
      have hsort : (t.sortedBy key).kids k.2 = t.kids k.2 := sortKids_of_pairwise hkids.here
      rw [forest, forest, preorder_eq, preorder_eq, hsort, ih k List.mem_cons_self hkids,
        ihks (fun j hj => ih j (List.mem_cons_of_mem _ hj))
          ⟨(List.pairwise_cons.mp h.here).2, hbelow⟩]

/-- If the nodes without those behind an edge that is left out are those of the sorted tree, then
no edge is left out and the children are sorted. -/
theorem orderly_of_labels {key : N → Nat} {ks : List (E × N)}
    (h : ((t.forest [] [] 0 ks).filter (kept keep)).map (·.node) =
      (t.sortedBy key).labels (sortKids key ks)) : t.AllBelow (Orderly keep key) ks := by
  have hlen : ((t.forest [] [] 0 ks).filter (kept keep)).length = (t.forest [] [] 0 ks).length := by
    have hcount := congrArg List.length h
    rw [List.length_map, labels_length_perm _ (sortKids_perm key ks), labels_length_sorted, labels,
      List.length_map] at hcount
    exact hcount
  have hkept := List.length_filter_eq_length_iff.mp hlen
  have hall : (t.forest [] [] 0 ks).filter (kept keep) = t.forest [] [] 0 ks :=
    List.filter_eq_self.mpr hkept
  rw [hall] at h
  exact ((keeps_of_kept hkept).and (sorted_of_labels h)).imp fun _ hboth => ⟨hboth.1, hboth.2⟩

/-- Of an orderly tree nothing is left out, and nothing moves. -/
theorem forest_of_orderly {key : N → Nat} {ks : List (E × N)}
    (h : t.AllBelow (Orderly keep key) ks) (also : E → Bool) :
    (t.forest [] [] 0 ks).filter (kept fun e => also e && keep e) =
      ((t.sortedBy key).forest [] [] 0 (sortKids key ks)).filter (kept also) := by
  have hsorted := h.imp fun _ ho => ho.sorted
  rw [sortKids_of_pairwise hsorted.here, forest_sorted hsorted]
  refine List.filter_congr fun p hp => ?_
  have hkept := kept_of_keeps rfl (h.imp fun _ ho => ho.keeps) p hp
  have hboth : ∀ edges : List E, edges.all keep = true →
      (edges.all fun e => also e && keep e) = edges.all also := by
    intro edges hedges
    induction edges with
    | nil => rfl
    | cons e edges ih =>
      rw [List.all_cons, Bool.and_eq_true] at hedges
      rw [List.all_cons, List.all_cons, hedges.1, Bool.and_true, ih hedges.2]
  exact hboth p.edges hkept

/-- A callback that goes on everywhere is a fold over the nodes. -/
theorem calls_into {B : Type} (f : S → N → S) (s : S) (ps : List (Placed N E)) :
    calls (fun s n (_ : List E) => (f s n, (Answer.into : Answer B))) s ps =
      (ps.foldl (fun s p => f s p.node) s, none) := by
  induction ps generalizing s with
  | nil => rw [calls_nil, List.foldl_nil]
  | cons p ps ih =>
    rw [calls_cons]
    exact ih _

/-- What a callback that goes on everywhere has seen. -/
theorem calls_log (s : List N) (ps : List (Placed N E)) :
    calls (fun (s : List N) n (_ : List E) => (s ++ [n], (Answer.into : Answer Empty))) s ps =
      (s ++ ps.map (·.node), none) := by
  induction ps generalizing s with
  | nil => rw [calls_nil, List.map_nil, List.append_nil]
  | cons p ps ih =>
    rw [calls_cons]
    dsimp only
    rw [ih, List.map_cons, List.append_assoc]
    rfl

end Branching
