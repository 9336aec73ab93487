import Mathlib.Data.Finset.Card
import Mathlib.Logic.Relation

/-! # Computations that ask for each other's results

A computation ends with a result or asks a question and goes on with the answer it is given, so
what it asks next may depend on the answers before.  Nodes whose computations ask for other
nodes' results settle from below: a node's result is final once every node it asks for has one.
`settled` is that least solution, and over finitely many nodes a node has no result exactly when
the nodes it asks for lead into a cycle.
-/

inductive Asking (Q A R : Type)
  | done (result : R)
  | ask (question : Q) (next : A → Asking Q A R)

namespace Asking

variable {Q A R : Type}

/-- The result when `oracle` answers. -/
def conclude (oracle : Q → A) : Asking Q A R → R
  | .done result => result
  | .ask question next => (next (oracle question)).conclude oracle

/-- The questions on the way to it. -/
def asked (oracle : Q → A) : Asking Q A R → List Q
  | .done _ => []
  | .ask question next => question :: (next (oracle question)).asked oracle

/-- Only the answers to what is asked matter. -/
theorem asked_congr {oracle oracle' : Q → A} {a : Asking Q A R}
    (h : ∀ q ∈ a.asked oracle, oracle q = oracle' q) : a.asked oracle = a.asked oracle' := by
  induction a with
  | done result => rfl
  | ask question next ih =>
    have hfirst := h question List.mem_cons_self
    rw [asked, asked, ← hfirst,
      ih (oracle question) fun q hq => h q (List.mem_cons_of_mem _ hq)]

theorem conclude_congr {oracle oracle' : Q → A} {a : Asking Q A R}
    (h : ∀ q ∈ a.asked oracle, oracle q = oracle' q) : a.conclude oracle = a.conclude oracle' := by
  induction a with
  | done result => rfl
  | ask question next ih =>
    have hfirst := h question List.mem_cons_self
    rw [conclude, conclude, ← hfirst,
      ih (oracle question) fun q hq => h q (List.mem_cons_of_mem _ hq)]

/-! ## Nodes that ask for nodes -/

section Nodes

variable {N : Type} (opens : N → Q → Option N) (computation : N → Asking Q (Option R) R)

/-- What `n` is told about a question when the nodes have these results. -/
def told (results : N → Option R) (n : N) (q : Q) : Option R := (opens n q).bind results

/-- `n` asks for the result of `m`. -/
def AsksFor (results : N → Option R) (n m : N) : Prop :=
  ∃ q ∈ (computation n).asked (told opens results n), opens n q = some m

/-- A node that leads into a cycle. -/
def ReachesCycle (asksFor : N → N → Prop) (n : N) : Prop :=
  ∃ c, Relation.ReflTransGen asksFor n c ∧ Relation.TransGen asksFor c c

open Classical in
/-- One round: the nodes whose every question has a final answer. -/
noncomputable def settleOnce (results : N → Option R) (n : N) : Option R :=
  if ∃ m, AsksFor opens computation results n m ∧ results m = none then none
  else some ((computation n).conclude (told opens results n))

noncomputable def settledWithin : Nat → N → Option R
  | 0, _ => none
  | rounds + 1, n => settleOnce opens computation (settledWithin rounds) n

open Classical in
/-- The final results. -/
noncomputable def settled (n : N) : Option R :=
  if h : ∃ rounds, (settledWithin opens computation rounds n).isSome then
    settledWithin opens computation h.choose n
  else none

variable {opens computation}

theorem told_eq {results results' : N → Option R} {n : N}
    (h : ∀ m, AsksFor opens computation results n m → results m = results' m) :
    ∀ q ∈ (computation n).asked (told opens results n),
      told opens results n q = told opens results' n q := by
  intro q hq
  unfold told
  cases hopens : opens n q with
  | none => rfl
  | some m => exact h m ⟨q, hq, hopens⟩

theorem asksFor_congr {results results' : N → Option R} {n : N}
    (h : ∀ m, AsksFor opens computation results n m → results m = results' m) (m : N) :
    AsksFor opens computation results n m ↔ AsksFor opens computation results' n m := by
  unfold AsksFor
  rw [asked_congr (told_eq h)]

theorem settleOnce_congr {results results' : N → Option R} {n : N}
    (h : ∀ m, AsksFor opens computation results n m → results m = results' m) :
    settleOnce opens computation results n = settleOnce opens computation results' n := by
  have hopen : (∃ m, AsksFor opens computation results n m ∧ results m = none) ↔
      ∃ m, AsksFor opens computation results' n m ∧ results' m = none := by
    refine exists_congr fun m => ?_
    constructor
    · rintro ⟨hasks, hnone⟩
      exact ⟨(asksFor_congr h m).mp hasks, (h m hasks).symm.trans hnone⟩
    · rintro ⟨hasks, hnone⟩
      have hasks' := (asksFor_congr h m).mpr hasks
      exact ⟨hasks', (h m hasks').trans hnone⟩
  unfold settleOnce
  rw [conclude_congr (told_eq h)]
  by_cases hex : ∃ m, AsksFor opens computation results n m ∧ results m = none
  · rw [if_pos hex, if_pos (hopen.mp hex)]
  · rw [if_neg hex, if_neg (mt hopen.mpr hex)]

/-- A node that settles asks for settled nodes only. -/
theorem isSome_of_settleOnce {results : N → Option R} {n : N}
    (h : (settleOnce opens computation results n).isSome) {m : N}
    (hasks : AsksFor opens computation results n m) : (results m).isSome := by
  unfold settleOnce at h
  split at h
  · cases h
  · rename_i hall
    by_contra hnone
    exact hall ⟨m, hasks, by simpa using hnone⟩

/-- A result stays. -/
theorem settledWithin_succ {rounds : Nat} {n : N}
    (h : (settledWithin opens computation rounds n).isSome) :
    settledWithin opens computation (rounds + 1) n = settledWithin opens computation rounds n := by
  induction rounds generalizing n with
  | zero => cases h
  | succ rounds ih =>
    refine (settleOnce_congr fun m hasks => ?_).symm
    exact (ih (isSome_of_settleOnce h hasks)).symm

theorem settledWithin_of_le {rounds later : Nat} (hle : rounds ≤ later) {n : N}
    (h : (settledWithin opens computation rounds n).isSome) :
    settledWithin opens computation later n = settledWithin opens computation rounds n := by
  induction later, hle using Nat.le_induction with
  | base => rfl
  | succ later _ ih => rw [settledWithin_succ (ih ▸ h), ih]

theorem settled_of_settledWithin {rounds : Nat} {n : N}
    (h : (settledWithin opens computation rounds n).isSome) :
    settled opens computation n = settledWithin opens computation rounds n := by
  have hex : ∃ rounds, (settledWithin opens computation rounds n).isSome := ⟨rounds, h⟩
  rw [settled, dif_pos hex]
  rcases Nat.le_total rounds hex.choose with hle | hle
  · exact settledWithin_of_le hle h
  · exact (settledWithin_of_le hle hex.choose_spec).symm

theorem exists_settledWithin {n : N} (h : (settled opens computation n).isSome) :
    ∃ rounds, (settledWithin opens computation rounds n).isSome := by
  by_contra hnone
  rw [settled, dif_neg hnone] at h
  cases h

variable (opens computation) in
/-- Finitely many questions are settled within one number of rounds. -/
theorem exists_settledWithin_all (n : N) (questions : List Q)
    (h : ∀ q ∈ questions, ∀ m, opens n q = some m → (settled opens computation m).isSome) :
    ∃ rounds, ∀ q ∈ questions, ∀ m, opens n q = some m →
      settledWithin opens computation rounds m = settled opens computation m := by
  induction questions with
  | nil => exact ⟨0, fun q hq => absurd hq List.not_mem_nil⟩
  | cons q questions ih =>
    obtain ⟨rounds, hrest⟩ := ih fun q hq => h q (List.mem_cons_of_mem _ hq)
    cases hopens : opens n q with
    | none =>
      refine ⟨rounds, fun q' hq' m hm => ?_⟩
      rcases List.mem_cons.mp hq' with rfl | hq'
      · rw [hopens] at hm
        cases hm
      · exact hrest q' hq' m hm
    | some m =>
      obtain ⟨first, hfirst⟩ := exists_settledWithin (h q List.mem_cons_self m hopens)
      refine ⟨max rounds first, fun q' hq' m' hm' => ?_⟩
      rcases List.mem_cons.mp hq' with rfl | hq'
      · obtain rfl : m = m' := Option.some.inj (hopens.symm.trans hm')
        rw [settledWithin_of_le (Nat.le_max_right _ _) hfirst, settled_of_settledWithin hfirst]
      · have hsome := h q' (List.mem_cons_of_mem _ hq') m' hm'
        rw [← hrest q' hq' m' hm'] at hsome
        rw [settledWithin_of_le (Nat.le_max_left _ _) hsome, hrest q' hq' m' hm']

/-- The final results are those of one more round. -/
theorem settleOnce_settled (n : N) :
    settleOnce opens computation (settled opens computation) n = settled opens computation n := by
  by_cases h : ∀ m, AsksFor opens computation (settled opens computation) n m →
      (settled opens computation m).isSome
  · obtain ⟨rounds, hall⟩ := exists_settledWithin_all opens computation n
      ((computation n).asked (told opens (settled opens computation) n))
      fun q hq m hm => h m ⟨q, hq, hm⟩
    have hrounds : ∀ m, AsksFor opens computation (settled opens computation) n m →
        settledWithin opens computation rounds m = settled opens computation m := by
      rintro m ⟨q, hq, hm⟩
      exact hall q hq m hm
    have hone : settleOnce opens computation (settled opens computation) n =
        settledWithin opens computation (rounds + 1) n :=
      settleOnce_congr fun m hasks => (hrounds m hasks).symm
    have hsome : (settleOnce opens computation (settled opens computation) n).isSome := by
      unfold settleOnce
      rw [if_neg]
      · rfl
      · rintro ⟨m, hasks, hnone⟩
        have := h m hasks
        rw [hnone] at this
        cases this
    rw [hone] at hsome ⊢
    exact (settled_of_settledWithin hsome).symm
  · obtain ⟨m, hm⟩ := not_forall.mp h
    obtain ⟨hasks, hnone⟩ := Classical.not_imp.mp hm
    rw [settleOnce, if_pos ⟨m, hasks, by simpa using hnone⟩]
    -- a round that settled `n` would have settled `m`
    by_contra hsettled
    have hsome : (settled opens computation n).isSome := by
      rwa [Option.isSome_iff_ne_none, ne_comm]
    obtain ⟨rounds, hrounds⟩ := exists_settledWithin hsome
    cases rounds with
    | zero => cases hrounds
    | succ rounds =>
      have hall : ∀ m, AsksFor opens computation (settledWithin opens computation rounds) n m →
          settledWithin opens computation rounds m = settled opens computation m := fun m hm =>
        (settled_of_settledWithin (isSome_of_settleOnce hrounds hm)).symm
      have hasks' := (asksFor_congr hall m).mpr hasks
      have := isSome_of_settleOnce hrounds hasks'
      rw [hall m hasks'] at this
      exact hnone this

/-! ## Cycles -/

theorem ReachesCycle.of_asksFor {asksFor : N → N → Prop} {n m : N} (h : asksFor n m)
    (hm : ReachesCycle asksFor m) : ReachesCycle asksFor n := by
  obtain ⟨c, hreach, hcycle⟩ := hm
  exact ⟨c, hreach.head h, hcycle⟩

theorem ReachesCycle.exists_asksFor {asksFor : N → N → Prop} {n : N}
    (h : ReachesCycle asksFor n) : ∃ m, asksFor n m ∧ ReachesCycle asksFor m := by
  obtain ⟨c, hreach, hcycle⟩ := h
  rcases Relation.ReflTransGen.cases_head hreach with rfl | ⟨m, hasks, hrest⟩
  · obtain ⟨m, hasks, hrest⟩ := Relation.TransGen.head'_iff.mp hcycle
    exact ⟨m, hasks, n, hrest, hcycle⟩
  · exact ⟨m, hasks, c, hrest, hcycle⟩

/-- A node with a result leads into no cycle. -/
theorem not_reachesCycle_of_settled {n : N} (h : (settled opens computation n).isSome) :
    ¬ ReachesCycle (AsksFor opens computation (settled opens computation)) n := by
  obtain ⟨rounds, hrounds⟩ := exists_settledWithin h
  -- on the rounds: what a node asks for settles in fewer
  induction rounds generalizing n with
  | zero => cases hrounds
  | succ rounds ih =>
    intro hcycle
    obtain ⟨m, hasks, hm⟩ := hcycle.exists_asksFor
    have hall : ∀ m, AsksFor opens computation (settledWithin opens computation rounds) n m →
        settledWithin opens computation rounds m = settled opens computation m := fun m hm =>
      (settled_of_settledWithin (isSome_of_settleOnce hrounds hm)).symm
    have hsome := isSome_of_settleOnce hrounds ((asksFor_congr hall m).mpr hasks)
    refine ih ?_ hsome hm
    rwa [settled_of_settledWithin hsome]

/-- Among finitely many nodes, one without a result leads into a cycle. -/
theorem reachesCycle_of_not_settled [DecidableEq N] (nodes : Finset N)
    (hnodes : ∀ n q m, opens n q = some m → m ∈ nodes) {n : N} (hn : n ∈ nodes)
    (h : settled opens computation n = none) :
    ReachesCycle (AsksFor opens computation (settled opens computation)) n := by
  -- `path` are the nodes passed on the way to `n`; on how many are left
  suffices hpath : ∀ left (path : Finset N), (nodes \ path).card = left →
      ∀ n ∈ nodes, settled opens computation n = none →
        (∀ p ∈ path, Relation.TransGen
          (AsksFor opens computation (settled opens computation)) p n) →
        ReachesCycle (AsksFor opens computation (settled opens computation)) n from
    hpath _ ∅ rfl n hn h (by simp)
  clear hn h
  intro left
  induction left with
  | zero =>
    intro path hleft n hn _ hpath
    have hpassed : n ∈ path := by
      rw [Finset.card_eq_zero, Finset.sdiff_eq_empty_iff_subset] at hleft
      exact hleft hn
    exact ⟨n, Relation.ReflTransGen.refl, hpath n hpassed⟩
  | succ left ih =>
    intro path hleft n hn hnone hpath
    by_cases hpassed : n ∈ path
    · exact ⟨n, Relation.ReflTransGen.refl, hpath n hpassed⟩
    · have honce := hnone
      rw [← settleOnce_settled, settleOnce] at honce
      split at honce
      · rename_i hex
        obtain ⟨m, ⟨q, hq, hopens⟩, hm⟩ := hex
        have hasks : AsksFor opens computation (settled opens computation) n m := ⟨q, hq, hopens⟩
        refine ReachesCycle.of_asksFor hasks (ih (insert n path) ?_ m (hnodes n q m hopens) hm ?_)
        · have hinsert : nodes \ insert n path = (nodes \ path).erase n := by
            ext p
            simp only [Finset.mem_sdiff, Finset.mem_insert, Finset.mem_erase]
            tauto
          rw [hinsert, Finset.card_erase_of_mem (Finset.mem_sdiff.mpr ⟨hn, hpassed⟩), hleft]
          rfl
        · intro p hp
          rcases Finset.mem_insert.mp hp with rfl | hp
          · exact Relation.TransGen.single hasks
          · exact (hpath p hp).tail hasks
      · cases honce

end Nodes

end Asking
