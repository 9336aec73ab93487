import Ry.Lib.Table
import Mathlib.Data.List.Perm.Basic

/-! # Merging tables one after another

A fold that unites its pieces and, at each step, adds what the piece and all before it make of each
other.  `CrossMerge` says what one step has to do so that the fold meets every two pieces once;
`Apart` is a relation of two entries of a list at different places.
-/

namespace Table

variable {K V : Type} [DecidableEq K]

/-- The entries of both tables, with those of one key combined. -/
def mergeWith (f : V → V → V) (m later : Table K V) : Table K V :=
  extend m (mapValues later fun k v => (m.lookup k).elim v fun u => f u v)

theorem lookup_mergeWith (f : V → V → V) (m later : Table K V) (k : K) :
    (mergeWith f m later).lookup k = (m.lookup k).merge f (later.lookup k) := by
  rw [mergeWith, lookup_extend, lookup_mapValues]
  cases m.lookup k <;> cases later.lookup k <;> rfl

instance (f : V → V → V) [Std.Commutative f] [Std.Associative f] :
    RightCommutative (mergeWith (K := K) f) where
  right_comm m a b := by
    refine Finmap.ext_lookup fun k => ?_
    have hassoc : Std.Associative (Option.merge f) := inferInstance
    have hcomm : Std.Commutative (Option.merge f) := inferInstance
    simp only [lookup_mergeWith]
    rw [hassoc.assoc, hassoc.assoc, hcomm.comm (a.lookup k)]

end Table

namespace Merging

variable {A B D : Type}

/-- Two entries of the list, at different places, are related. -/
def Apart (l : List A) (R : A → A → Prop) : Prop :=
  ∃ (i j : Nat) (x y : A), i ≠ j ∧ l[i]? = some x ∧ l[j]? = some y ∧ R x y

@[simp] theorem not_apart_nil (R : A → A → Prop) : ¬Apart [] R := by
  rintro ⟨i, j, x, y, -, hx, -⟩
  cases hx

theorem apart_cons {x : A} {l : List A} {R : A → A → Prop} :
    Apart (x :: l) R ↔ (∃ y ∈ l, R x y ∨ R y x) ∨ Apart l R := by
  constructor
  · rintro ⟨i, j, y, z, hij, hi, hj, h⟩
    cases i with
    | zero =>
      obtain rfl := Option.some.inj hi
      cases j with
      | zero => exact absurd rfl hij
      | succ j => exact .inl ⟨z, List.mem_of_getElem? hj, .inl h⟩
    | succ i =>
      cases j with
      | zero =>
        obtain rfl := Option.some.inj hj
        exact .inl ⟨y, List.mem_of_getElem? hi, .inr h⟩
      | succ j => exact .inr ⟨i, j, y, z, fun heq => hij (congrArg _ heq), hi, hj, h⟩
  · rintro (⟨y, hy, h⟩ | ⟨i, j, y, z, hij, hi, hj, h⟩)
    · obtain ⟨i, hi⟩ := List.mem_iff_getElem?.mp hy
      rcases h with h | h
      · exact ⟨0, i + 1, x, y, by omega, rfl, hi, h⟩
      · exact ⟨i + 1, 0, y, x, by omega, hi, rfl, h⟩
    · exact ⟨i + 1, j + 1, y, z, by omega, hi, hj, h⟩

theorem apart_map (f : B → A) (l : List B) (R : A → A → Prop) :
    Apart (l.map f) R ↔ Apart l fun x y => R (f x) (f y) := by
  induction l with
  | nil => simp
  | cons x l ih => simp [apart_cons, ih]

theorem Apart.perm {l l' : List A} {R : A → A → Prop} (hperm : l.Perm l') :
    Apart l R ↔ Apart l' R := by
  induction hperm with
  | nil => rfl
  | cons x hperm ih => simp only [apart_cons, ih, hperm.mem_iff]
  | swap x y l =>
    simp only [apart_cons, List.mem_cons]
    grind
  | trans _ _ ih ih' => exact ih.trans ih'

/-- One step unites what both sides have of their own, and adds what either makes of the other. -/
structure CrossMerge (op : B → A → B) (own : B → Set D) (cross : B → A → Set D)
    (own' : A → Set D) (cross' : A → A → Set D) : Prop where
  own_op : ∀ b a, own (op b a) = own b ∪ own' a ∪ cross b a
  cross_op : ∀ b a c, cross (op b a) c = cross b c ∪ (cross' a c ∪ cross' c a)

/-- The fold has what every piece has of its own, what the start makes with every piece, and what
any two pieces make of each other. -/
theorem CrossMerge.mem_foldl {op : B → A → B} {own : B → Set D} {cross : B → A → Set D}
    {own' : A → Set D} {cross' : A → A → Set D} (h : CrossMerge op own cross own' cross')
    (b : B) (l : List A) (d : D) : d ∈ own (l.foldl op b) ↔
      d ∈ own b ∨ (∃ a ∈ l, d ∈ own' a ∨ d ∈ cross b a) ∨ Apart l fun a c => d ∈ cross' a c := by
  induction l generalizing b with
  | nil => simp
  | cons a l ih =>
    rw [List.foldl_cons, ih, h.own_op, apart_cons]
    simp only [h.cross_op, Set.mem_union, List.mem_cons]
    grind

end Merging
