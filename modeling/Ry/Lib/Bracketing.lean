import Mathlib.Data.List.Perm.Basic
import Mathlib.Tactic.Common

/-! # Orders of combining

A `Bracketing` says in which order a nonempty list is combined by a binary operation: its
leaves from left to right are the list, its shape is the bracketing.  A left fold is one
(`eval_comb`).

`eval_spec` is the rule for what every order of combining establishes; an operation that is
commutative and associative gives one answer for all of them (`eval_perm`).
-/

inductive Bracketing (α : Type) where
  | leaf (a : α)
  | node (l r : Bracketing α)

namespace Bracketing

variable {α β : Type}

def leaves : Bracketing α → List α
  | leaf a => [a]
  | node l r => l.leaves ++ r.leaves

def eval (op : α → α → α) : Bracketing α → α
  | leaf a => a
  | node l r => op (l.eval op) (r.eval op)

def map (f : α → β) : Bracketing α → Bracketing β
  | leaf a => leaf (f a)
  | node l r => node (l.map f) (r.map f)

/-- The order of a left fold over `a :: as`. -/
def comb (a : α) (as : List α) : Bracketing α :=
  as.foldl (fun t b => node t (leaf b)) (leaf a)

theorem leaves_ne_nil (t : Bracketing α) : t.leaves ≠ [] := by
  induction t with
  | leaf a => simp [leaves]
  | node l r ihl _ => simp [leaves, ihl]

theorem eval_of_leaves {t : Bracketing α} {a : α} (op : α → α → α) (h : t.leaves = [a]) :
    t.eval op = a := by
  cases t with
  | leaf b => exact List.singleton_inj.mp h
  | node l r =>
    have hl := List.length_pos_iff.mpr l.leaves_ne_nil
    have hr := List.length_pos_iff.mpr r.leaves_ne_nil
    have hlen := congrArg List.length h
    simp only [leaves, List.length_append, List.length_singleton] at hlen
    omega

@[simp] theorem leaves_map (f : α → β) (t : Bracketing α) :
    (t.map f).leaves = t.leaves.map f := by
  induction t with
  | leaf a => rfl
  | node l r ihl ihr => simp [map, leaves, ihl, ihr]

theorem leaves_foldl_node (as : List α) (t : Bracketing α) :
    (as.foldl (fun t b => node t (leaf b)) t).leaves = t.leaves ++ as := by
  induction as generalizing t with
  | nil => simp
  | cons b bs ih => simp [ih, leaves]

@[simp] theorem leaves_comb (a : α) (as : List α) : (comb a as).leaves = a :: as :=
  leaves_foldl_node as (leaf a)

theorem eval_foldl_node (op : α → α → α) (as : List α) (t : Bracketing α) :
    (as.foldl (fun t b => node t (leaf b)) t).eval op = as.foldl op (t.eval op) := by
  induction as generalizing t with
  | nil => rfl
  | cons b bs ih => exact ih (node t (leaf b))

/-- A left fold combines in the order of its comb. -/
theorem eval_comb (op : α → α → α) (a : α) (as : List α) :
    (comb a as).eval op = as.foldl op a :=
  eval_foldl_node op as (leaf a)

/-- What holds of one value and of two results combined holds of every order. -/
theorem eval_spec {op : α → α → α} {Spec : List α → α → Prop} (hleaf : ∀ a, Spec [a] a)
    (hnode : ∀ {as bs a b}, as ≠ [] → bs ≠ [] → Spec as a → Spec bs b →
      Spec (as ++ bs) (op a b)) (t : Bracketing α) : Spec t.leaves (t.eval op) := by
  induction t with
  | leaf a => exact hleaf a
  | node l r ihl ihr => exact hnode l.leaves_ne_nil r.leaves_ne_nil ihl ihr

/-- The combined value is what is folded out of the leaves. -/
theorem some_eval (op : α → α → α) [Std.Associative op] (t : Bracketing α) :
    some (t.eval op) = (t.leaves.map some).foldr (Option.merge op) none := by
  induction t with
  | leaf a => rfl
  | node l r ihl ihr =>
    have hfold : ∀ (xs : List (Option α)) (b : Option α),
        xs.foldr (Option.merge op) b =
          Option.merge op (xs.foldr (Option.merge op) none) b := by
      intro xs b
      induction xs with
      | nil => simp
      | cons x xs ih =>
        rw [List.foldr_cons, List.foldr_cons, ih, (Option.associative_merge op).assoc]
    rw [leaves, List.map_append, List.foldr_append, hfold, ← ihl, ← ihr]
    rfl

/-- A commutative and associative operation combines one list in one way. -/
theorem eval_perm (op : α → α → α) [Std.Commutative op] [Std.Associative op]
    {t t' : Bracketing α} (h : t.leaves.Perm t'.leaves) : t.eval op = t'.eval op := by
  have hperm : (t.leaves.map some).foldr (Option.merge op) none =
      (t'.leaves.map some).foldr (Option.merge op) none := (h.map some).foldr_op_eq
  rw [← some_eval, ← some_eval] at hperm
  exact Option.some.inj hperm

end Bracketing
