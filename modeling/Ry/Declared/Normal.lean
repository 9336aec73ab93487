import Ry.Declared.Spelling
import Mathlib.Data.List.Sort

/-! # Normalized predicates

A normalized predicate is a leaf, or a union of two to sixteen leaves in the strict order of their
spellings (`IsNormal`).  It is determined by which leaves it has, and these are the ones of the
tree it was made of, however that nests, orders and repeats them.
-/

namespace Ry.Declared

mutual
/-- The alternatives of a tree, however nested. -/
def leaves : TypeExpr → List TypeExpr
  | .union members => memberLeaves members
  | .unknown => [.unknown]
  | .exactClass expected => [.exactClass expected]
  | .atomic mode length => [.atomic mode length]
termination_by structural ty => ty
def memberLeaves : List TypeExpr → List TypeExpr
  | [] => []
  | member :: members => leaves member ++ memberLeaves members
termination_by structural members => members
end

theorem leaves_leaf {ty : TypeExpr} (h : ty.IsLeaf) : leaves ty = [ty] := by
  cases ty with
  | union members => exact h.elim
  | _ => rfl

theorem alternatives_leaf {ty : TypeExpr} (h : ty.IsLeaf) : ty.alternatives = [ty] := by
  cases ty with
  | union members => exact h.elim
  | _ => rfl

section Normal

variable (json : JsonStrings)

/-- A leaf with its spelling, as a union has it. -/
structure IsAlternative (entry : List Char × TypeExpr) : Prop where
  spelled : render json entry.2 = .ok entry.1
  leaf : entry.2.IsLeaf
  known : entry.2.isUnknown = false

inductive IsNormal : TypeExpr → Prop
  | leaf {ty : TypeExpr} (h : ty.IsLeaf) : IsNormal ty
  | union {keyed : List (List Char × TypeExpr)} (alternative : ∀ entry ∈ keyed, IsAlternative json entry)
      (sorted : (keyed.map (·.1)).Pairwise (· < ·)) (several : 2 ≤ keyed.length)
      (bounded : keyed.length ≤ maxUnionAlternatives) : IsNormal (.union (keyed.map (·.2)))

variable {json}

theorem IsNormal.leaf_of_mem {ty part : TypeExpr} (h : IsNormal json ty)
    (hpart : part ∈ ty.alternatives) : part.IsLeaf := by
  cases h with
  | leaf h =>
    rw [alternatives_leaf h, List.mem_singleton] at hpart
    exact hpart ▸ h
  | union alternative _ _ _ =>
    obtain ⟨entry, hentry, rfl⟩ := List.mem_map.mp hpart
    exact (alternative entry hentry).leaf

theorem IsNormal.alternatives_ne_nil {ty : TypeExpr} (h : IsNormal json ty) :
    ty.alternatives ≠ [] := by
  cases h with
  | leaf h => rw [alternatives_leaf h]; exact List.cons_ne_nil _ _
  | union _ _ several _ =>
    intro hnil
    have hlength := congrArg List.length hnil
    rw [TypeExpr.alternatives, List.length_map, List.length_nil] at hlength
    omega

/-! ## Sorting and deduplication -/

theorem keyMembers_spec {members : List TypeExpr} {keyed : List (List Char × TypeExpr)}
    (h : keyMembers json members = .ok keyed) :
    keyed.map (·.2) = members ∧ ∀ entry ∈ keyed, render json entry.2 = .ok entry.1 := by
  induction members generalizing keyed with
  | nil =>
    obtain rfl := Except.ok.inj h
    exact ⟨rfl, fun _ h => absurd h List.not_mem_nil⟩
  | cons member members ih =>
    rw [keyMembers] at h
    split at h
    · cases h
    · rename_i key hkey
      split at h
      · cases h
      · rename_i rest hrest
        obtain rfl := Except.ok.inj h
        obtain ⟨hmap, hspelled⟩ := ih hrest
        refine ⟨congrArg _ hmap, fun entry hentry => ?_⟩
        rcases List.mem_cons.mp hentry with rfl | hentry
        · exact hkey
        · exact hspelled entry hentry

theorem keyMembers_of_spelled {keyed : List (List Char × TypeExpr)}
    (h : ∀ entry ∈ keyed, render json entry.2 = .ok entry.1) :
    keyMembers json (keyed.map (·.2)) = .ok keyed := by
  induction keyed with
  | nil => rfl
  | cons entry keyed ih =>
    rw [List.map_cons, keyMembers, h entry List.mem_cons_self,
      ih fun e he => h e (List.mem_cons_of_mem _ he)]

theorem sortByKey_perm (keyed : List (List Char × TypeExpr)) : (sortByKey keyed).Perm keyed :=
  List.mergeSort_perm _ _

theorem sortByKey_sorted (keyed : List (List Char × TypeExpr)) :
    ((sortByKey keyed).map (·.1)).Pairwise (· ≤ ·) := by
  have hsorted := @List.pairwise_mergeSort (List Char × TypeExpr)
    (fun left right => decide (left.1 ≤ right.1))
    (fun a b c hab hbc => by simpa using le_trans (of_decide_eq_true hab) (of_decide_eq_true hbc))
    (fun a b => by simpa using le_total a.1 b.1) keyed
  exact List.pairwise_map.mpr (hsorted.imp fun h => of_decide_eq_true h)

theorem sortByKey_of_sorted {keyed : List (List Char × TypeExpr)}
    (h : (keyed.map (·.1)).Pairwise (· < ·)) : sortByKey keyed = keyed :=
  List.mergeSort_of_pairwise
    ((List.pairwise_map.mp h).imp fun hlt => decide_eq_true hlt.le)

/-- The entries that stay, among those sorted after `last`. -/
theorem dedupAfter_spec {last : List Char × TypeExpr} {keyed : List (List Char × TypeExpr)}
    (hsorted : ((last :: keyed).map (·.1)).Pairwise (· ≤ ·))
    (hkey : ∀ p ∈ last :: keyed, ∀ q ∈ last :: keyed, p.1 = q.1 → p = q) :
    ((last :: dedupAfter last keyed).map (·.1)).Pairwise (· < ·) ∧
      ∀ entry, entry ∈ last :: dedupAfter last keyed ↔ entry ∈ last :: keyed := by
  induction keyed generalizing last with
  | nil => exact ⟨List.pairwise_singleton _ _, fun _ => Iff.rfl⟩
  | cons entry keyed ih =>
    rw [List.map_cons, List.map_cons, List.pairwise_cons, List.pairwise_cons] at hsorted
    obtain ⟨hlast, hentry, hrest⟩ := hsorted
    rw [dedupAfter]
    split
    · rename_i heq
      have hsame : entry = last := hkey _ (by simp) _ (by simp) heq
      subst hsame
      obtain ⟨hstrict, hmem⟩ := ih (List.pairwise_cons.mpr ⟨hentry, hrest⟩) fun p hp q hq =>
        hkey p (List.mem_cons_of_mem _ hp) q (List.mem_cons_of_mem _ hq)
      refine ⟨hstrict, fun e => (hmem e).trans ?_⟩
      simp
    · rename_i hne
      obtain ⟨hstrict, hmem⟩ := ih (List.pairwise_cons.mpr ⟨hentry, hrest⟩) fun p hp q hq =>
        hkey p (List.mem_cons_of_mem _ hp) q (List.mem_cons_of_mem _ hq)
      have hlt : last.1 < entry.1 :=
        lt_of_le_of_ne (hlast entry.1 (by simp)) fun h => hne h.symm
      refine ⟨?_, fun e => ?_⟩
      · rw [List.map_cons, List.pairwise_cons]
        refine ⟨fun key hmemkey => ?_, hstrict⟩
        rw [List.map_cons, List.mem_cons] at hmemkey
        rcases hmemkey with rfl | hlater
        · exact hlt
        · exact hlt.trans ((List.pairwise_cons.mp hstrict).1 key hlater)
      · rw [List.mem_cons, hmem e, List.mem_cons (a := e) (b := last)]

theorem dedupByKey_spec {keyed : List (List Char × TypeExpr)}
    (hsorted : (keyed.map (·.1)).Pairwise (· ≤ ·))
    (hkey : ∀ p ∈ keyed, ∀ q ∈ keyed, p.1 = q.1 → p = q) :
    ((dedupByKey keyed).map (·.1)).Pairwise (· < ·) ∧
      ∀ entry, entry ∈ dedupByKey keyed ↔ entry ∈ keyed := by
  cases keyed with
  | nil => exact ⟨List.Pairwise.nil, fun _ => Iff.rfl⟩
  | cons entry keyed => exact dedupAfter_spec hsorted hkey

theorem dedupAfter_of_sorted {last : List Char × TypeExpr} {keyed : List (List Char × TypeExpr)}
    (h : ((last :: keyed).map (·.1)).Pairwise (· < ·)) : dedupAfter last keyed = keyed := by
  induction keyed generalizing last with
  | nil => rfl
  | cons entry keyed ih =>
    obtain ⟨hlast, hrest⟩ := List.pairwise_cons.mp h
    rw [dedupAfter, if_neg (hlast entry.1 (by simp)).ne', ih hrest]

theorem dedupByKey_of_sorted {keyed : List (List Char × TypeExpr)}
    (h : (keyed.map (·.1)).Pairwise (· < ·)) : dedupByKey keyed = keyed := by
  cases keyed with
  | nil => rfl
  | cons entry keyed => rw [dedupByKey, dedupAfter_of_sorted h]

/-- Entries for leaves are told apart by their keys. -/
theorem entry_eq_of_key {p q : List Char × TypeExpr} (hp : render json p.2 = .ok p.1)
    (hq : render json q.2 = .ok q.1) (hleaf : p.2.IsLeaf) (hleaf' : q.2.IsLeaf) (h : p.1 = q.1) :
    p = q := by
  have htext := (render_leaf hleaf hp).symm.trans (h.trans (render_leaf hleaf' hq))
  exact Prod.ext h (leafText_injective hleaf hleaf' htext)

/-! ## What normalizing does -/

theorem collapse_spec {flattened : List TypeExpr} {normal : TypeExpr}
    (hleaf : ∀ ty ∈ flattened, ty.IsLeaf) (hne : flattened ≠ [])
    (h : collapse json flattened = .ok normal) :
    IsNormal json normal ∧ ∀ ty, ty ∈ normal.alternatives ↔ ty ∈ flattened := by
  unfold collapse at h
  split at h
  · cases h
  · rename_i hknown
    split at h
    · cases h
    · rename_i keyed hkeyed
      obtain ⟨hmap, hspelled⟩ := keyMembers_spec hkeyed
      have hperm := sortByKey_perm keyed
      have halternative : ∀ entry ∈ keyed, IsAlternative json entry := by
        intro entry hentry
        have hmem : entry.2 ∈ flattened := hmap ▸ List.mem_map_of_mem hentry
        refine ⟨hspelled entry hentry, hleaf _ hmem, ?_⟩
        rw [List.any_eq_true] at hknown
        exact Bool.eq_false_iff.mpr fun hunknown => hknown ⟨entry.2, hmem, hunknown⟩
      have hkey : ∀ p ∈ sortByKey keyed, ∀ q ∈ sortByKey keyed, p.1 = q.1 → p = q := by
        intro p hp q hq heq
        have hp' := halternative p (hperm.mem_iff.mp hp)
        have hq' := halternative q (hperm.mem_iff.mp hq)
        exact entry_eq_of_key hp'.spelled hq'.spelled hp'.leaf hq'.leaf heq
      obtain ⟨hstrict, hmem⟩ := dedupByKey_spec (sortByKey_sorted keyed) hkey
      have hall : ∀ ty, ty ∈ (dedupByKey (sortByKey keyed)).map (·.2) ↔ ty ∈ flattened := by
        intro ty
        rw [← hmap, List.mem_map, List.mem_map]
        refine exists_congr fun entry => and_congr_left fun _ => ?_
        rw [hmem, hperm.mem_iff]
      have halternative' : ∀ entry ∈ dedupByKey (sortByKey keyed), IsAlternative json entry :=
        fun entry hentry => halternative entry (hperm.mem_iff.mp ((hmem entry).mp hentry))
      dsimp only at h
      split at h
      · cases h
      · rename_i hmany
        split at h
        · rename_i member hone
          obtain rfl := Except.ok.inj h
          have hmember : member.IsLeaf := hleaf member ((hall member).mp (by rw [hone]; simp))
          refine ⟨.leaf hmember, fun ty => ?_⟩
          rw [alternatives_leaf hmember, ← hall, hone]
        · rename_i members hseveral
          obtain rfl := Except.ok.inj h
          refine ⟨.union halternative' hstrict ?_ (Nat.le_of_not_lt hmany), hall⟩
          obtain ⟨ty, hty⟩ := List.exists_mem_of_ne_nil _ hne
          have hsome := (hall ty).mpr hty
          generalize dedupByKey (sortByKey keyed) = deduped at hsome hseveral ⊢
          match deduped with
          | [] => exact absurd hsome List.not_mem_nil
          | [entry] => exact absurd rfl (hseveral entry.2)
          | _ :: _ :: _ => exact Nat.le_add_left _ _

mutual
/-- A normalized tree has the alternatives of the tree. -/
theorem normalizedType_spec : ∀ {ty normal : TypeExpr}, normalizedType json ty = .ok normal →
    IsNormal json normal ∧ ∀ part, part ∈ normal.alternatives ↔ part ∈ leaves ty
  | .unknown, normal, h => by
    obtain rfl := Except.ok.inj h
    exact ⟨.leaf trivial, fun _ => Iff.rfl⟩
  | .exactClass expected, normal, h => by
    obtain rfl := Except.ok.inj h
    exact ⟨.leaf trivial, fun _ => Iff.rfl⟩
  | .atomic mode length, normal, h => by
    obtain rfl := Except.ok.inj h
    exact ⟨.leaf trivial, fun _ => Iff.rfl⟩
  | .union members, normal, h => by
    rw [normalizedType] at h
    split at h
    · cases h
    · rename_i hsome
      split at h
      · cases h
      · split at h
        · cases h
        · rename_i flattened hflattened
          obtain ⟨hleaf, hmem, hne⟩ := flattenMembers_spec hflattened
          have hnonempty : flattened ≠ [] := hne fun hnil => hsome (by rw [hnil]; rfl)
          obtain ⟨hnormal, hall⟩ := collapse_spec hleaf hnonempty h
          exact ⟨hnormal, fun part => (hall part).trans (hmem part)⟩
termination_by structural ty => ty
theorem flattenMembers_spec : ∀ {members flattened : List TypeExpr},
    flattenMembers json members = .ok flattened →
    (∀ ty ∈ flattened, ty.IsLeaf) ∧ (∀ ty, ty ∈ flattened ↔ ty ∈ memberLeaves members) ∧
      (members ≠ [] → flattened ≠ [])
  | [], flattened, h => by
    obtain rfl := Except.ok.inj h
    exact ⟨fun _ h => absurd h List.not_mem_nil, fun _ => Iff.rfl, fun h => absurd rfl h⟩
  | member :: members, flattened, h => by
    rw [flattenMembers] at h
    split at h
    · cases h
    · rename_i normal hnormal
      split at h
      · cases h
      · rename_i rest hrest
        obtain rfl := Except.ok.inj h
        obtain ⟨hshape, hhere⟩ := normalizedType_spec hnormal
        obtain ⟨hleaf, hlater, -⟩ := flattenMembers_spec hrest
        refine ⟨fun ty hty => ?_, fun ty => ?_, fun _ hnil => ?_⟩
        · rcases List.mem_append.mp hty with hty | hty
          · exact hshape.leaf_of_mem hty
          · exact hleaf ty hty
        · rw [List.mem_append, hhere, hlater, memberLeaves, List.mem_append]
        · exact hshape.alternatives_ne_nil (List.append_eq_nil_iff.mp hnil).1
termination_by structural members => members
end

theorem exists_two {A : Type} {xs : List A} (h : 2 ≤ xs.length) :
    ∃ first second rest, xs = first :: second :: rest := by
  match xs, h with
  | first :: second :: rest, _ => exact ⟨first, second, rest, rfl⟩

/-- The alternatives determine a normalized predicate. -/
theorem IsNormal.eq_of_alternatives {ty ty' : TypeExpr} (h : IsNormal json ty)
    (h' : IsNormal json ty') (hsame : ∀ part, part ∈ ty.alternatives ↔ part ∈ ty'.alternatives) :
    ty = ty' := by
  -- a union has two members, which are not both the one leaf
  have hsingle : ∀ {leaf : TypeExpr} {keyed : List (List Char × TypeExpr)},
      (∀ entry ∈ keyed, IsAlternative json entry) → (keyed.map (·.1)).Pairwise (· < ·) →
      2 ≤ keyed.length → ¬ ∀ part, part ∈ keyed.map (·.2) → part = leaf := by
    intro leaf keyed halternative hsorted hseveral hall
    obtain ⟨first, second, rest, rfl⟩ := exists_two hseveral
    have hfirst : first.2 = leaf := hall _ (by simp)
    have hsecond : second.2 = leaf := hall _ (by simp)
    have hkeys := (halternative first (by simp)).spelled.symm.trans
      ((congrArg (render json) (hfirst.trans hsecond.symm)).trans
        (halternative second (by simp)).spelled)
    have hlt := (List.pairwise_cons.mp hsorted).1 second.1 (by simp)
    exact absurd (Except.ok.inj hkeys) hlt.ne
  cases h with
  | leaf h =>
    rw [alternatives_leaf h] at hsame
    cases h' with
    | leaf h' =>
      rw [alternatives_leaf h'] at hsame
      exact List.mem_singleton.mp ((hsame ty).mp (List.mem_singleton_self ty))
    | union halternative hsorted hseveral _ =>
      exact absurd (fun part hpart => List.mem_singleton.mp ((hsame part).mpr hpart))
        (hsingle halternative hsorted hseveral)
  | @union keyed halternative hsorted hseveral _ =>
    cases h' with
    | leaf h' =>
      rw [alternatives_leaf h'] at hsame
      exact absurd (fun part hpart => List.mem_singleton.mp ((hsame part).mp hpart))
        (hsingle halternative hsorted hseveral)
    | @union keyed' halternative' hsorted' _ _ =>
      have hentries : ∀ entry, entry ∈ keyed ↔ entry ∈ keyed' := by
        have htransfer : ∀ {a b : List (List Char × TypeExpr)},
            (∀ entry ∈ a, IsAlternative json entry) → (∀ entry ∈ b, IsAlternative json entry) →
            (∀ part, part ∈ a.map (·.2) → part ∈ b.map (·.2)) → ∀ entry ∈ a, entry ∈ b := by
          intro a b ha hb hab entry hentry
          obtain ⟨other, hother, heq⟩ := List.mem_map.mp (hab entry.2 (List.mem_map_of_mem hentry))
          have hkeys := (ha entry hentry).spelled.symm.trans
            ((congrArg (render json) heq.symm).trans (hb other hother).spelled)
          exact (Prod.ext (Except.ok.inj hkeys) heq.symm : entry = other) ▸ hother
        intro entry
        exact ⟨htransfer halternative halternative' (fun part => (hsame part).mp) entry,
          htransfer halternative' halternative (fun part => (hsame part).mpr) entry⟩
      have hlt := List.pairwise_map.mp hsorted
      have hlt' := List.pairwise_map.mp hsorted'
      have hnodup : keyed.Nodup := hlt.imp fun h heq => h.ne (congrArg _ heq)
      have hnodup' : keyed'.Nodup := hlt'.imp fun h heq => h.ne (congrArg _ heq)
      have hkeyed : keyed = keyed' :=
        ((List.perm_ext_iff_of_nodup hnodup hnodup').mpr hentries).eq_of_pairwise
          (fun a b _ _ hab hba => absurd (hab.trans hba) (lt_irrefl _)) hlt hlt'
      rw [hkeyed]

theorem flattenMembers_of_leaves {members : List TypeExpr} (hleaf : ∀ ty ∈ members, ty.IsLeaf) :
    flattenMembers json members = .ok members := by
  induction members with
  | nil => rfl
  | cons member members ih =>
    have hmember := hleaf member List.mem_cons_self
    have hself : normalizedType json member = .ok member := by
      cases member with
      | union inner => exact hmember.elim
      | _ => rfl
    rw [flattenMembers, hself, ih fun ty hty => hleaf ty (List.mem_cons_of_mem _ hty)]
    dsimp only
    rw [alternatives_leaf hmember]
    rfl

/-- A normalized predicate normalizes to itself. -/
theorem IsNormal.normalizedType_self {ty : TypeExpr} (h : IsNormal json ty) :
    normalizedType json ty = .ok ty := by
  cases h with
  | leaf h =>
    cases ty with
    | union members => exact h.elim
    | _ => rfl
  | @union keyed halternative hsorted hseveral hbounded =>
    have hleaf : ∀ ty ∈ keyed.map (·.2), ty.IsLeaf := by
      intro ty hty
      obtain ⟨entry, hentry, rfl⟩ := List.mem_map.mp hty
      exact (halternative entry hentry).leaf
    have hknown : (keyed.map (·.2)).any TypeExpr.isUnknown = false := by
      rw [List.any_eq_false]
      intro ty hty
      obtain ⟨entry, hentry, rfl⟩ := List.mem_map.mp hty
      rw [(halternative entry hentry).known]
      decide
    have hsome : (keyed.map (·.2)).isEmpty = false := by
      rw [List.isEmpty_eq_false_iff, ne_eq, List.map_eq_nil_iff]
      rintro rfl
      simp at hseveral
    rw [normalizedType, hsome, if_neg (by decide), List.length_map, if_neg (by omega),
      flattenMembers_of_leaves hleaf]
    dsimp only
    rw [collapse, hknown, if_neg (by decide),
      keyMembers_of_spelled fun entry hentry => (halternative entry hentry).spelled]
    dsimp only
    rw [sortByKey_of_sorted hsorted, dedupByKey_of_sorted hsorted, if_neg (by omega)]
    obtain ⟨first, second, rest, rfl⟩ := exists_two hseveral
    rfl

/-- Trees with the same alternatives have one normalized form. -/
theorem normalizedType_eq_of_leaves {ty ty' normal normal' : TypeExpr}
    (h : normalizedType json ty = .ok normal) (h' : normalizedType json ty' = .ok normal')
    (hsame : ∀ part, part ∈ leaves ty ↔ part ∈ leaves ty') : normal = normal' := by
  obtain ⟨hnormal, hmem⟩ := normalizedType_spec h
  obtain ⟨hnormal', hmem'⟩ := normalizedType_spec h'
  exact hnormal.eq_of_alternatives hnormal' fun part =>
    (hmem part).trans ((hsame part).trans (hmem' part).symm)

/-! ## Budgets -/

mutual
def nodeCount : TypeExpr → Nat
  | .union members => memberCount members + 1
  | .unknown => 1
  | .exactClass _ => 1
  | .atomic _ _ => 1
termination_by structural ty => ty
def memberCount : List TypeExpr → Nat
  | [] => 0
  | member :: members => nodeCount member + memberCount members
termination_by structural members => members
end

theorem nodeCount_leaf {ty : TypeExpr} (h : ty.IsLeaf) : nodeCount ty = 1 := by
  cases ty with
  | union members => exact h.elim
  | _ => rfl

theorem countNode_eq_ok_iff (depth nodes total : Nat) : countNode depth nodes = .ok total ↔
    depth < maxDeclarationDepth ∧ nodes + 1 ≤ maxDeclarationNodes ∧ total = nodes + 1 := by
  unfold countNode
  split
  · rename_i hover
    constructor
    · intro h
      cases h
    · rintro ⟨hdepth, hnodes, -⟩
      omega
  · rename_i hfits
    constructor
    · intro h
      exact ⟨by omega, by omega, (Except.ok.inj h).symm⟩
    · rintro ⟨-, -, rfl⟩
      rfl

theorem countTypeNodes_leaf {ty : TypeExpr} (h : ty.IsLeaf) (depth nodes : Nat) :
    countTypeNodes ty depth nodes = countNode depth nodes := by
  cases ty with
  | union members => exact h.elim
  | _ => rfl

mutual
/-- What a counted tree has. -/
theorem countTypeNodes_spec : ∀ {ty : TypeExpr} {depth nodes total : Nat},
    countTypeNodes ty depth nodes = .ok total →
    depth < maxDeclarationDepth ∧ total ≤ maxDeclarationNodes ∧ total = nodes + nodeCount ty
  | .unknown, depth, nodes, total, h => by
    obtain ⟨hdepth, hnodes, rfl⟩ := (countNode_eq_ok_iff _ _ _).mp h
    exact ⟨hdepth, hnodes, rfl⟩
  | .exactClass expected, depth, nodes, total, h => by
    obtain ⟨hdepth, hnodes, rfl⟩ := (countNode_eq_ok_iff _ _ _).mp h
    exact ⟨hdepth, hnodes, rfl⟩
  | .atomic mode length, depth, nodes, total, h => by
    obtain ⟨hdepth, hnodes, rfl⟩ := (countNode_eq_ok_iff _ _ _).mp h
    exact ⟨hdepth, hnodes, rfl⟩
  | .union members, depth, nodes, total, h => by
    rw [countTypeNodes] at h
    split at h
    · cases h
    · rename_i nodes' hnode
      obtain ⟨hdepth, hnodes, rfl⟩ := (countNode_eq_ok_iff _ _ _).mp hnode
      obtain ⟨hmembers, htotal⟩ := countMemberNodes_spec hnodes h
      refine ⟨hdepth, hmembers, ?_⟩
      rw [htotal, nodeCount, Nat.add_assoc, Nat.add_comm 1]
termination_by structural ty => ty
theorem countMemberNodes_spec : ∀ {members : List TypeExpr} {depth nodes total : Nat},
    nodes ≤ maxDeclarationNodes → countMemberNodes members depth nodes = .ok total →
    total ≤ maxDeclarationNodes ∧ total = nodes + memberCount members
  | [], depth, nodes, total, hnodes, h => by
    obtain rfl := Except.ok.inj h
    exact ⟨hnodes, rfl⟩
  | member :: members, depth, nodes, total, hnodes, h => by
    rw [countMemberNodes] at h
    split at h
    · cases h
    · rename_i nodes' hmember
      obtain ⟨-, hfits, htotal⟩ := countTypeNodes_spec hmember
      obtain ⟨hrest, htotal'⟩ := countMemberNodes_spec hfits h
      exact ⟨hrest, by rw [htotal', htotal, memberCount, Nat.add_assoc]⟩
termination_by structural members => members
end

/-- Members of a counted union are one level further down. -/
theorem countMemberNodes_depth {members : List TypeExpr} {depth nodes total : Nat}
    (hne : members ≠ []) (h : countMemberNodes members depth nodes = .ok total) :
    depth < maxDeclarationDepth := by
  cases members with
  | nil => exact absurd rfl hne
  | cons member members =>
    rw [countMemberNodes] at h
    split at h
    · cases h
    · rename_i hmember
      exact (countTypeNodes_spec hmember).1

theorem countMemberNodes_leaves {members : List TypeExpr} {depth nodes : Nat}
    (hleaf : ∀ ty ∈ members, ty.IsLeaf) (hdepth : depth < maxDeclarationDepth)
    (hnodes : nodes + members.length ≤ maxDeclarationNodes) :
    countMemberNodes members depth nodes = .ok (nodes + members.length) := by
  induction members generalizing nodes with
  | nil => rfl
  | cons member members ih =>
    rw [List.length_cons] at hnodes ⊢
    have hcount : countNode depth nodes = .ok (nodes + 1) :=
      (countNode_eq_ok_iff _ _ _).mpr ⟨hdepth, by omega, rfl⟩
    rw [countMemberNodes, countTypeNodes_leaf (hleaf member List.mem_cons_self), hcount]
    dsimp only
    rw [ih (fun ty hty => hleaf ty (List.mem_cons_of_mem _ hty)) (by omega)]
    congr 1
    omega

mutual
theorem length_leaves_le : ∀ ty : TypeExpr, (leaves ty).length ≤ nodeCount ty
  | .unknown => Nat.le_refl _
  | .exactClass _ => Nat.le_refl _
  | .atomic _ _ => Nat.le_refl _
  | .union members => by
    rw [leaves, nodeCount]
    exact Nat.le_succ_of_le (length_memberLeaves_le members)
termination_by structural ty => ty
theorem length_memberLeaves_le : ∀ members : List TypeExpr,
    (memberLeaves members).length ≤ memberCount members
  | [] => Nat.le_refl _
  | member :: members => by
    rw [memberLeaves, memberCount, List.length_append]
    exact Nat.add_le_add (length_leaves_le member) (length_memberLeaves_le members)
termination_by structural members => members
end

/-- Normalizing a counted tree leaves no more to count. -/
theorem countTypeNodes_normal {ty normal : TypeExpr} {nodes nodes' total : Nat}
    (hcount : countTypeNodes ty 0 nodes = .ok total)
    (hnormal : normalizedType json ty = .ok normal) (hle : nodes' ≤ nodes) :
    ∃ total', total' ≤ total ∧ countTypeNodes normal 0 nodes' = .ok total' := by
  obtain ⟨hshape, hmem⟩ := normalizedType_spec hnormal
  obtain ⟨hdepth, hbound, htotal⟩ := countTypeNodes_spec hcount
  cases hshape with
  | leaf hleaf =>
    have hpos : 0 < nodeCount ty := by
      cases ty <;> simp [nodeCount]
    refine ⟨nodes' + 1, by omega, ?_⟩
    rw [countTypeNodes_leaf hleaf]
    exact (countNode_eq_ok_iff _ _ _).mpr ⟨hdepth, by omega, rfl⟩
  | @union keyed halternative hsorted hseveral _ =>
    cases ty with
    | union members =>
      have hleaf : ∀ ty ∈ keyed.map (·.2), ty.IsLeaf := by
        intro ty hty
        obtain ⟨entry, hentry, rfl⟩ := List.mem_map.mp hty
        exact (halternative entry hentry).leaf
      -- distinct spellings are of distinct members, so there are no more than leaves
      have hnodup : (keyed.map (·.2)).Nodup := by
        rw [List.Nodup, List.pairwise_map]
        refine (List.pairwise_map.mp hsorted).imp_of_mem fun {p q} hp hq hlt heq => ?_
        have hkeys := (halternative p hp).spelled.symm.trans
          ((congrArg (render json) heq).trans (halternative q hq).spelled)
        exact absurd (Except.ok.inj hkeys) hlt.ne
      have hlength : (keyed.map (·.2)).length ≤ (memberLeaves members).length :=
        (hnodup.subperm fun part hpart => (hmem part).mp hpart).length_le
      have hleaves := length_memberLeaves_le members
      rw [nodeCount] at htotal
      rw [countTypeNodes] at hcount
      split at hcount
      · cases hcount
      · have hmembers : members ≠ [] := by
          rintro rfl
          rw [List.length_map] at hlength
          simp only [memberLeaves, List.length_nil] at hlength
          omega
        have hinner := countMemberNodes_depth hmembers hcount
        have hnode : countNode 0 nodes' = .ok (nodes' + 1) :=
          (countNode_eq_ok_iff _ _ _).mpr ⟨by decide, by omega, rfl⟩
        refine ⟨nodes' + 1 + (keyed.map (·.2)).length, by omega, ?_⟩
        rw [countTypeNodes, hnode]
        exact countMemberNodes_leaves hleaf hinner (by omega)
    | unknown | exactClass | atomic =>
      cases hnormal

/-- A canonical predicate has a normalized form, of the same spelling. -/
theorem canonicalType_normal {ty : TypeExpr} {text : List Char}
    (h : canonicalType json ty = .ok text) :
    ∃ normal, normalizedType json ty = .ok normal ∧ IsNormal json normal ∧
      render json normal = .ok text ∧ canonicalType json normal = .ok text := by
  rw [canonicalType] at h
  split at h
  · cases h
  · rename_i total hcount
    split at h
    · cases h
    · rename_i normal hnormal
      obtain ⟨hshape, -⟩ := normalizedType_spec hnormal
      obtain ⟨total', -, hcount'⟩ := countTypeNodes_normal hcount hnormal (Nat.le_refl 0)
      refine ⟨normal, hnormal, hshape, h, ?_⟩
      rw [canonicalType, hcount']
      dsimp only
      rw [hshape.normalizedType_self]
      exact h

end Normal

end Ry.Declared
