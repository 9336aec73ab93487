import Ry.Core.Guarded
import Ry.Core.JoinSound
import Ry.Lib.Table

/-! # S3 dispatch to the project's methods

`user_s3_dispatch_return` of `resolve.rs` against R's `UseMethod`.  R runs the method of the first
class that has one, whether its body is known or only its registration.
-/

namespace Ry

/-- The class of a receiver.  A slot without a name is a class that is not known. -/
structure ClassSlots where
  names : List (Option String)
  bound : names.length ≤ 4
  known : Bool
  guarded : Bool
  /-- An unknown class has no names. -/
  unnamed : known = false → names = []

/-- The classes a described value dispatches on: its class attribute, of which four slots may be the
first of more, or its implicit class when it has none. -/
def ClassSlots.Covers (c : ClassSlots) (attr : List String) : Prop :=
  if c.names = [] then True
  else if c.guarded then ∀ s, some s ∈ c.names → s ∈ attr
  else List.Forall₂ (fun slot s => slot = none ∨ slot = some s) c.names (attr.take 4)

/-- Where methods come from. -/
structure DispatchTables where
  /-- The live definitions, with their return slots. -/
  live : Table String Nat
  s3Methods : Table (String × String) Nat
  returnSlots : Nat → RType
  externalS3Methods : List (String × String)
  namedGuards : ∀ slot, (returnSlots slot).NamedGuards

variable (t : DispatchTables) (generic : String)

/-- The return slot of the method with a known body. -/
def knownMethod (cls : String) : Option Nat :=
  match t.live.lookup (generic ++ "." ++ cls) with
  | some slot => some slot
  | none => t.s3Methods.lookup (generic, cls)

def userS3DispatchReturn (first : ClassSlots) : Option RType :=
  match first.names.findSome? (·.bind (knownMethod t generic)) with
  | some slot => some (dispatchResult first.guarded (t.returnSlots slot))
  | none =>
    if t.externalS3Methods.any (·.1 == generic) then some RType.unknown else none

/-! ## What R does -/

inductive Method
  /-- A method whose body returns what the slot describes. -/
  | body (slot : Nat)
  /-- A method that is only known to be registered. -/
  | registered (generic cls : String)

/-- The method in force for a class: a visible definition, else a registration. -/
def methodFor (cls : String) : Option Method :=
  match knownMethod t generic cls with
  | some slot => some (.body slot)
  | none =>
    if (generic, cls) ∈ t.externalS3Methods then some (.registered generic cls) else none

/-- The method that `UseMethod` runs on a value of these classes. -/
def useMethod (attr : List String) : Option Method :=
  (attr ++ ["default"]).findSome? (methodFor t generic)

/-- What methods return, as far as their slots tell. -/
def Returns (returns : Method → RValue → Prop) : Prop :=
  ∀ slot v, returns (.body slot) v → (t.returnSlots slot).describes v = true

/-- An answer describes what the method returns that R runs on a described receiver. -/
def AnswersDispatch (first : ClassSlots) : Prop :=
  ∀ answer, userS3DispatchReturn t generic first = some answer →
    ∀ returns, Returns t returns → ∀ attr, first.Covers attr →
      ∀ m, useMethod t generic attr = some m → ∀ v, returns m v → answer.describes v = true

/-! ## The order of the classes -/

/-- A class that may stand before the slot that follows `before`. -/
def MayPrecede (first : ClassSlots) (before : List (Option String)) (cls : String) : Prop :=
  first.guarded = true ∨ none ∈ before ∨ some cls ∈ before

/-- A method returns nothing that the type does not describe. -/
def Within (type : RType) : Method → Prop
  | .body slot => ∀ v, (t.returnSlots slot).describes v = true → type.describes v = true
  | .registered _ _ => ∀ v, type.describes v = true

/-- No class before the first one with a known body has a method that returns anything else. -/
def ServedInOrder (first : ClassSlots) : Prop :=
  ∀ before cls after slot, first.names = before ++ some cls :: after →
    (∀ s, some s ∈ before → knownMethod t generic s = none) →
    knownMethod t generic cls = some slot →
    ∀ s m, MayPrecede first before s → methodFor t generic s = some m →
      Within t (dispatchResult first.guarded (t.returnSlots slot)) m

variable {t generic}

/-- A search stops at the first class that has a method. -/
theorem useMethod_append {pre post : List String} {cls : String} {m : Method}
    (hcls : methodFor t generic cls = some m) :
    ∃ s m', useMethod t generic (pre ++ cls :: post) = some m' ∧ methodFor t generic s = some m' ∧
      (s ∈ pre ∨ s = cls) := by
  unfold useMethod
  rw [List.append_assoc, List.findSome?_append]
  cases hpre : pre.findSome? (methodFor t generic) with
  | none =>
    refine ⟨cls, m, ?_, hcls, .inr rfl⟩
    rw [Option.none_or, List.cons_append, List.findSome?_cons, hcls]
  | some m' =>
    obtain ⟨s, hs, hm⟩ := List.exists_of_findSome?_eq_some hpre
    exact ⟨s, m', rfl, hm, .inl hs⟩

theorem userS3DispatchReturn_body {first : ClassSlots} {before after : List (Option String)}
    {cls : String} {slot : Nat} (hnames : first.names = before ++ some cls :: after)
    (hbefore : ∀ s, some s ∈ before → knownMethod t generic s = none)
    (hcls : knownMethod t generic cls = some slot) :
    userS3DispatchReturn t generic first =
      some (dispatchResult first.guarded (t.returnSlots slot)) := by
  have hnone : before.findSome? (·.bind (knownMethod t generic)) = none := by
    rw [List.findSome?_eq_none_iff]
    intro entry hentry
    cases entry with
    | none => rfl
    | some s => exact hbefore s hentry
  have hfirst : first.names.findSome? (·.bind (knownMethod t generic)) = some slot := by
    rw [hnames, List.findSome?_append, hnone, Option.none_or, List.findSome?_cons,
      Option.bind_some, hcls]
  rw [userS3DispatchReturn, hfirst]

theorem forall₂_split {A B : Type} {R : A → B → Prop} {before after : List A} {a : A} {bs : List B}
    (h : List.Forall₂ R (before ++ a :: after) bs) :
    ∃ pre b post, bs = pre ++ b :: post ∧ List.Forall₂ R before pre ∧ R a b := by
  induction before generalizing bs with
  | nil =>
    cases h with
    | cons hab hrest => exact ⟨[], _, _, rfl, .nil, hab⟩
  | cons x before ih =>
    cases h with
    | cons hx hrest =>
      obtain ⟨pre, b, post, rfl, hpre, hab⟩ := ih hrest
      exact ⟨_ :: pre, b, post, rfl, .cons hx hpre, hab⟩

theorem forall₂_mem_right {A B : Type} {R : A → B → Prop} {as : List A} {bs : List B}
    (h : List.Forall₂ R as bs) {b : B} (hb : b ∈ bs) : ∃ a ∈ as, R a b := by
  induction h with
  | nil => cases hb
  | cons hab _ ih =>
    rcases List.mem_cons.mp hb with rfl | hb
    · exact ⟨_, List.mem_cons_self, hab⟩
    · obtain ⟨a, ha, hab⟩ := ih hb
      exact ⟨a, List.mem_cons_of_mem _ ha, hab⟩

/-- Where a named class of a receiver stands among a value's classes. -/
theorem ClassSlots.Covers.split {first : ClassSlots} {attr : List String} (h : first.Covers attr)
    {before after : List (Option String)} {cls : String}
    (hnames : first.names = before ++ some cls :: after) :
    ∃ pre post, attr = pre ++ cls :: post ∧ ∀ s ∈ pre, MayPrecede first before s := by
  have hne : first.names ≠ [] := by
    rw [hnames]
    exact List.append_ne_nil_of_right_ne_nil _ (List.cons_ne_nil _ _)
  rw [ClassSlots.Covers, if_neg hne] at h
  split at h
  · rename_i hguarded
    have hmem : cls ∈ attr := h cls (by rw [hnames]; simp)
    obtain ⟨pre, post, rfl⟩ := List.append_of_mem hmem
    exact ⟨pre, post, rfl, fun s _ => .inl hguarded⟩
  · rw [hnames] at h
    obtain ⟨pre, b, post, htake, hpre, hb⟩ := forall₂_split h
    obtain rfl : cls = b := by simpa using hb
    refine ⟨pre, post ++ attr.drop 4, ?_, fun s hs => .inr ?_⟩
    · rw [← List.cons_append, ← List.append_assoc, ← htake, List.take_append_drop]
    · obtain ⟨slot, hslot, hs⟩ := forall₂_mem_right hpre hs
      rcases hs with rfl | rfl
      · exact .inl hslot
      · exact .inr hslot

/-- What R dispatches to is described when the classes are served in order. -/
theorem answersDispatch_of_servedInOrder {first : ClassSlots} (h : ServedInOrder t generic first) :
    AnswersDispatch t generic first := by
  intro answer hanswer returns hreturns attr hcovers m hm v hv
  unfold userS3DispatchReturn at hanswer
  split at hanswer
  · rename_i slot hfirst
    obtain ⟨before, entry, after, hnames, hentry, hbefore⟩ := List.findSome?_eq_some_iff.mp hfirst
    obtain ⟨cls, rfl, hcls⟩ := Option.bind_eq_some_iff.mp hentry
    have hknown : ∀ s, some s ∈ before → knownMethod t generic s = none := fun s hs => hbefore _ hs
    obtain ⟨pre, post, rfl, hpre⟩ := hcovers.split hnames
    have hmethod : methodFor t generic cls = some (.body slot) := by rw [methodFor, hcls]
    obtain ⟨s, m', hm', hs, hwhere⟩ := @useMethod_append t generic pre post cls _ hmethod
    obtain rfl : m = m' := Option.some.inj (hm.symm.trans hm')
    rw [← Option.some.inj hanswer]
    rcases hwhere with hs' | rfl
    · have hwithin := h before cls after slot hnames hknown hcls s m (hpre s hs') hs
      cases m with
      | body k => exact hwithin v (hreturns k v hv)
      | registered g c => exact hwithin v
    · obtain rfl : m = .body slot := Option.some.inj (hs.symm.trans hmethod)
      exact describes_dispatchResult (t.namedGuards slot) (hreturns slot v hv)
  · split at hanswer
    · rw [← Option.some.inj hanswer]
      exact RType.describes_unknown_with .unknown v
    · cases hanswer

/-- A value's classes, with one class in every slot without a name. -/
def fill (cls : String) (names : List (Option String)) : List String := names.map (·.getD cls)

theorem covers_fill {first : ClassSlots} (hguarded : first.guarded = false) (cls : String) :
    first.Covers (fill cls first.names) := by
  unfold ClassSlots.Covers fill
  split
  · trivial
  · have hlen : (first.names.map (·.getD cls)).length ≤ 4 := by
      rw [List.length_map]
      exact first.bound
    rw [if_neg (by simp [hguarded]), List.take_of_length_le hlen, List.forall₂_map_right_iff,
      List.forall₂_same]
    intro slot _
    cases slot with
    | none => exact .inl rfl
    | some s => exact .inr rfl

/-- The method that runs when one class fills the slots, and some class of them has one. -/
theorem useMethod_fill {before after : List (Option String)} {x s : String} {m : Method}
    (hs : s ∈ fill x before) (hm : methodFor t generic s = some m) :
    ∃ y m', useMethod t generic (fill x (before ++ after)) = some m' ∧
      methodFor t generic y = some m' ∧ (y = x ∨ some y ∈ before) := by
  have hsome : ((fill x before).findSome? (methodFor t generic)).isSome := by
    rw [List.findSome?_isSome_iff]
    exact ⟨s, hs, by rw [hm]; rfl⟩
  obtain ⟨m', hfirst⟩ := Option.isSome_iff_exists.mp hsome
  obtain ⟨y, hy, hm'⟩ := List.exists_of_findSome?_eq_some hfirst
  refine ⟨y, m', ?_, hm', ?_⟩
  · unfold useMethod fill at *
    rw [List.map_append, List.append_assoc, List.findSome?_append, hfirst, Option.some_or]
  · obtain ⟨slot, hslot, rfl⟩ := List.mem_map.mp hy
    cases slot with
    | none => exact .inl rfl
    | some z => exact .inr hslot

/-- Answers that describe every dispatch serve the classes in order. -/
theorem servedInOrder_of_answersDispatch {first : ClassSlots}
    (h : AnswersDispatch t generic first) : ServedInOrder t generic first := by
  intro before cls after slot hnames hbefore hcls s m hprecede hs
  have hanswer := userS3DispatchReturn_body hnames hbefore hcls
  have hruns : ∀ {attr m'}, first.Covers attr → useMethod t generic attr = some m' →
      Within t (dispatchResult first.guarded (t.returnSlots slot)) m' := by
    intro attr m' hcovers huse
    cases m' with
    | body k =>
      intro v hv
      refine h _ hanswer (fun m v => ∀ k, m = .body k → (t.returnSlots k).describes v = true)
        (fun k v hkv => hkv k rfl) attr hcovers _ huse v ?_
      rintro k' ⟨⟩
      exact hv
    | registered g c =>
      intro v
      refine h _ hanswer (fun m v => ∀ k, m = .body k → (t.returnSlots k).describes v = true)
        (fun k v hkv => hkv k rfl) attr hcovers _ huse v ?_
      rintro k' ⟨⟩
  by_cases hguarded : first.guarded = true
  · -- any class may come first
    refine @hruns (s :: first.names.filterMap id) m ?_ ?_
    · unfold ClassSlots.Covers
      split
      · trivial
      · intro s' hs'
        exact List.mem_cons_of_mem _ (List.mem_filterMap.mpr ⟨some s', hs', rfl⟩)
    · unfold useMethod
      rw [List.cons_append, List.findSome?_cons, hs]
  · have hunguarded : first.guarded = false := Bool.eq_false_iff.mpr hguarded
    by_cases hregistered : ∃ x, some x ∈ before ∧ (methodFor t generic x).isSome
    · -- a class with a registration only comes first, and may return anything
      obtain ⟨x, hx, hsome⟩ := hregistered
      obtain ⟨mx, hmx⟩ := Option.isSome_iff_exists.mp hsome
      obtain ⟨y, m', huse, hy, hwhere⟩ :=
        @useMethod_fill t generic before (some cls :: after) x x mx (List.mem_map.mpr ⟨some x, hx, rfl⟩) hmx
      have hyb : knownMethod t generic y = none := by
        rcases hwhere with rfl | hyb
        · exact hbefore y hx
        · exact hbefore y hyb
      rw [← hnames] at huse
      have hwithin := hruns (covers_fill hunguarded x) huse
      rw [methodFor, hyb] at hy
      dsimp only at hy
      split at hy
      · obtain rfl := Option.some.inj hy
        cases m with
        | body k => exact fun v _ => hwithin v
        | registered g c => exact hwithin
      · cases hy
    · have hnone : none ∈ before := by
        rcases hprecede with hg | hnone | hsome
        · exact absurd hg hguarded
        · exact hnone
        · exact absurd ⟨s, hsome, by rw [hs]; rfl⟩ hregistered
      obtain ⟨y, m', huse, hy, hwhere⟩ := @useMethod_fill t generic before (some cls :: after) s s m
        (List.mem_map.mpr ⟨none, hnone, rfl⟩) hs
      have hys : y = s := by
        rcases hwhere with rfl | hyb
        · rfl
        · exact absurd ⟨y, hyb, by rw [hy]; rfl⟩ hregistered
      rw [hys, hs] at hy
      rw [← hnames, ← Option.some.inj hy] at huse
      exact hruns (covers_fill hunguarded s) huse

variable (t generic)

/-- A project with a method for one class, and a registration for another. -/
def oneBody : DispatchTables where
  live := Finmap.singleton "total.invoice" 0
  s3Methods := ∅
  returnSlots := fun _ => RType.scalar .double
  externalS3Methods := [("total", "draft")]
  namedGuards := fun _ => .mk (fun h => by cases h) (fun p hp => by cases hp)

end Ry
