import Ry.Core.Types

/-! # The control-flow join

`RType::join` and what it is built from: `merge_same_shape` for two types that
differ in value evidence only, `union_of` for two types of different shapes, and
the checked union constructor.

`mergeSameShape` changes nothing the comparison without value evidence can see
(`sameShape_mergeSameShape`), so every fact about a type's shape survives it.
-/

namespace Ry

namespace RType

theorem mem_parts_column {t : RType} {s : ColumnSchema RType} {c : String × RType}
    (hs : t.columns = some s) (hc : c ∈ s.columns) : c.2 ∈ t.parts := by
  simp only [parts, hs, List.mem_append, Option.elim_some]
  exact .inl (.inl (List.mem_map_of_mem hc))

theorem mem_parts_return {t : RType} {s : FunctionSignature RType} (hs : t.fnSig = some s) :
    s.returnType ∈ t.parts := by
  simp [parts, hs]

theorem mem_parts_param {t p : RType} {s : FunctionSignature RType} (hs : t.fnSig = some s)
    (hp : p ∈ s.params) : p ∈ t.parts := by
  simp [parts, hs, hp]

theorem mem_parts_member {t m : RType} {ms : List RType} (hms : t.members = some ms)
    (hm : m ∈ ms) : m ∈ t.parts := by
  simp [parts, hms, hm]

/-! ## The comparison is an equivalence -/

theorem agree_refl (facts : Bool) (t : RType) : agree facts t t = true := by
  induction t using RType.induction with
  | h t ih =>
    rw [agree_iff]
    refine ⟨rfl, rfl, by simp, ?_, ?_, ?_, fun _ => rfl⟩
    · cases hs : t.columns with
      | none => simp
      | some s =>
        simpa [List.forall₂_same] using fun n c hc => ih _ (mem_parts_column hs (c := (n, c)) hc)
    · cases hs : t.fnSig with
      | none => simp
      | some s =>
        simpa [List.forall₂_same] using
          ⟨fun p hp => ih p (mem_parts_param hs hp), ih _ (mem_parts_return hs)⟩
    · cases hms : t.members with
      | none => simp
      | some ms => simpa [List.forall₂_same] using fun m hm => ih m (mem_parts_member hms hm)

@[simp] theorem eq_refl (t : RType) : t.eq t = true := agree_refl true t

@[simp] theorem sameShape_refl (t : RType) : t.sameShape t = true := agree_refl false t

theorem forall₂_symm_of_mem {α β : Type} {R : α → β → Prop} {S : β → α → Prop} {l : List α}
    {l' : List β} (h : List.Forall₂ R l l') (hs : ∀ x ∈ l, ∀ y, R x y → S y x) :
    List.Forall₂ S l' l := by
  induction h with
  | nil => exact .nil
  | cons hxy _ ih =>
    exact .cons (hs _ List.mem_cons_self _ hxy) (ih fun x hx => hs x (List.mem_cons_of_mem _ hx))

theorem forall₂_trans_of_mem {α β γ : Type} {R : α → β → Prop} {S : β → γ → Prop}
    {T : α → γ → Prop} {l : List α} {l' : List β} {l'' : List γ} (h : List.Forall₂ R l l')
    (h' : List.Forall₂ S l' l'') (ht : ∀ x ∈ l, ∀ y z, R x y → S y z → T x z) :
    List.Forall₂ T l l'' := by
  induction h generalizing l'' with
  | nil => cases h'; exact .nil
  | cons hxy _ ih =>
    cases h' with
    | cons hyz hrest =>
      exact .cons (ht _ List.mem_cons_self _ _ hxy hyz)
        (ih hrest fun x hx => ht x (List.mem_cons_of_mem _ hx))

theorem optionRel_symm {α β : Type} {R : α → β → Prop} {S : β → α → Prop} {a : Option α}
    {b : Option β} (h : Option.Rel R a b) (hs : ∀ x, a = some x → ∀ y, R x y → S y x) :
    Option.Rel S b a := by
  cases h with
  | some hxy => exact .some (hs _ rfl _ hxy)
  | none => exact .none

theorem optionRel_trans {α β γ : Type} {R : α → β → Prop} {S : β → γ → Prop} {T : α → γ → Prop}
    {a : Option α} {b : Option β} {c : Option γ} (h : Option.Rel R a b) (h' : Option.Rel S b c)
    (ht : ∀ x, a = some x → ∀ y z, R x y → S y z → T x z) : Option.Rel T a c := by
  cases h with
  | some hxy => cases h' with | some hyz => exact .some (ht _ rfl _ _ hxy hyz)
  | none => cases h'; exact .none

theorem agree_symm {facts : Bool} {a b : RType} (h : agree facts a b = true) :
    agree facts b a = true := by
  induction a using RType.induction generalizing b with
  | h a ih =>
    rw [agree_iff] at h ⊢
    obtain ⟨hmode, hlength, hcls, hcolumns, hsig, hmembers, hfacts⟩ := h
    refine ⟨hmode.symm, hlength.symm, ?_, optionRel_symm hcolumns ?_, optionRel_symm hsig ?_,
      optionRel_symm hmembers ?_, fun hf => (hfacts hf).symm⟩
    · rw [ClassVector.eq_iff] at hcls ⊢
      exact ⟨hcls.1.symm, hcls.2.1.symm, hcls.2.2.symm⟩
    · rintro s hs s' ⟨hc, hk, hl⟩
      exact ⟨forall₂_symm_of_mem hc fun c hm c' hcc =>
        ⟨hcc.1.symm, ih c.2 (mem_parts_column hs hm) hcc.2⟩, hk.symm, hl.symm⟩
    · rintro s hs s' ⟨hp, hr⟩
      exact ⟨forall₂_symm_of_mem hp fun q hm q' hqq => ih q (mem_parts_param hs hm) hqq,
        ih _ (mem_parts_return hs) hr⟩
    · intro ms hms ms' hm
      exact forall₂_symm_of_mem hm fun m hmem m' hmm => ih m (mem_parts_member hms hmem) hmm

theorem agree_trans {facts : Bool} {a b c : RType} (h : agree facts a b = true)
    (h' : agree facts b c = true) : agree facts a c = true := by
  induction a using RType.induction generalizing b c with
  | h a ih =>
    rw [agree_iff] at h h' ⊢
    obtain ⟨hmode, hlength, hcls, hcolumns, hsig, hmembers, hfacts⟩ := h
    obtain ⟨hmode', hlength', hcls', hcolumns', hsig', hmembers', hfacts'⟩ := h'
    refine ⟨hmode.trans hmode', hlength.trans hlength', ?_, optionRel_trans hcolumns hcolumns' ?_,
      optionRel_trans hsig hsig' ?_, optionRel_trans hmembers hmembers' ?_,
      fun hf => (hfacts hf).trans (hfacts' hf)⟩
    · rw [ClassVector.eq_iff] at hcls hcls' ⊢
      exact ⟨hcls.1.trans hcls'.1, hcls.2.1.trans hcls'.2.1, hcls.2.2.trans hcls'.2.2⟩
    · rintro s hs s' s'' ⟨hc, hk, hl⟩ ⟨hc', hk', hl'⟩
      exact ⟨forall₂_trans_of_mem hc hc' fun c hm c' c'' hcc hcc' =>
        ⟨hcc.1.trans hcc'.1, ih c.2 (mem_parts_column hs hm) hcc.2 hcc'.2⟩,
        hk.trans hk', hl.trans hl'⟩
    · rintro s hs s' s'' ⟨hp, hr⟩ ⟨hp', hr'⟩
      exact ⟨forall₂_trans_of_mem hp hp' fun q hm q' q'' hq hq' =>
        ih q (mem_parts_param hs hm) hq hq', ih _ (mem_parts_return hs) hr hr'⟩
    · intro ms hms ms' ms'' hm hm'
      exact forall₂_trans_of_mem hm hm' fun m hmem m' m'' hmm hmm' =>
        ih m (mem_parts_member hms hmem) hmm hmm'

theorem eq_symm {a b : RType} (h : a.eq b = true) : b.eq a = true := agree_symm h

theorem eq_trans {a b c : RType} (h : a.eq b = true) (h' : b.eq c = true) : a.eq c = true :=
  agree_trans h h'

/-! ## Merging two types of one shape -/

mutual
def mergeSameShape : RType → RType → RType
  | ⟨mode, length, cls, columns, fnSig, members, valueFacts⟩, other =>
    if eq ⟨mode, length, cls, columns, fnSig, members, valueFacts⟩ other then
      ⟨mode, length, cls, columns, fnSig, members, valueFacts⟩
    else
      ⟨mode, length, cls, mergeSchema? columns other.columns, mergeSig? fnSig other.fnSig,
        mergeMembers? members other.members, valueFacts.join other.valueFacts⟩
termination_by structural t => t
def mergeSchema? :
    Option (ColumnSchema RType) → Option (ColumnSchema RType) → Option (ColumnSchema RType)
  | some a, some b => some (mergeSchema a b)
  | a, _ => a
termination_by structural s => s
def mergeSchema : ColumnSchema RType → ColumnSchema RType → ColumnSchema RType
  | ⟨columns, complete, locallyConstructed⟩, b =>
    ⟨mergeColumns columns b.columns, complete, locallyConstructed⟩
termination_by structural s => s
def mergeColumns : List (String × RType) → List (String × RType) → List (String × RType)
  | a :: as, b :: bs => mergeColumn a b :: mergeColumns as bs
  | as, _ => as
termination_by structural l => l
def mergeColumn : String × RType → String × RType → String × RType
  | (name, t), b => (name, mergeSameShape t b.2)
termination_by structural c => c
def mergeSig? : Option (FunctionSignature RType) → Option (FunctionSignature RType) →
    Option (FunctionSignature RType)
  | some a, some b => some (mergeSig a b)
  | a, _ => a
termination_by structural s => s
def mergeSig : FunctionSignature RType → FunctionSignature RType → FunctionSignature RType
  | ⟨params, returnType⟩, b =>
    ⟨mergeList params b.params, mergeSameShape returnType b.returnType⟩
termination_by structural s => s
def mergeMembers? : Option (List RType) → Option (List RType) → Option (List RType)
  | some a, some b => some (mergeList a b)
  | a, _ => a
termination_by structural s => s
def mergeList : List RType → List RType → List RType
  | a :: as, b :: bs => mergeSameShape a b :: mergeList as bs
  | as, _ => as
termination_by structural l => l
end

theorem forall₂_mergeList {as bs : List RType}
    (h : ∀ a ∈ as, ∀ b, sameShape a b = true → sameShape (mergeSameShape a b) a = true)
    (hs : List.Forall₂ (fun a b => sameShape a b = true) as bs) :
    List.Forall₂ (fun a b => sameShape a b = true) (mergeList as bs) as := by
  induction hs with
  | nil => exact .nil
  | cons hab _ ih =>
    exact .cons (h _ (by simp) _ hab) (ih fun a ha => h a (List.mem_cons_of_mem _ ha))

theorem forall₂_mergeColumns {as bs : List (String × RType)}
    (h : ∀ a ∈ as, ∀ b, sameShape a.2 b = true → sameShape (mergeSameShape a.2 b) a.2 = true)
    (hs : List.Forall₂ (fun a b => a.1 = b.1 ∧ sameShape a.2 b.2 = true) as bs) :
    List.Forall₂ (fun a b => a.1 = b.1 ∧ sameShape a.2 b.2 = true) (mergeColumns as bs) as := by
  induction hs with
  | nil => exact .nil
  | @cons a b _ _ hab _ ih =>
    obtain ⟨name, t⟩ := a
    exact .cons ⟨rfl, h (name, t) (by simp) _ hab.2⟩ (ih fun a ha => h a (List.mem_cons_of_mem _ ha))

/-- Merging value evidence leaves a type's shape as it was. -/
theorem sameShape_mergeSameShape (a b : RType) (h : sameShape a b = true) :
    sameShape (mergeSameShape a b) a = true := by
  induction a using RType.induction generalizing b with
  | h a ih =>
    obtain ⟨mode, length, cls, columns, fnSig, members, valueFacts⟩ := a
    simp only [mergeSameShape]
    split
    · exact sameShape_refl _
    · obtain ⟨-, -, -, hcolumns, hsig, hmembers, -⟩ := (agree_iff false _ _).mp h
      refine (agree_iff false _ _).mpr ⟨rfl, rfl, by simp, ?_, ?_, ?_, nofun⟩
      · rcases columns with _ | ⟨cs, complete, local_⟩ <;> rcases hb : b.columns with _ | s'
        · exact .none
        · simp [hb] at hcolumns
        · simp [hb] at hcolumns
        · simp only [hb, rel_some_some] at hcolumns
          exact .some ⟨forall₂_mergeColumns
            (fun c hc => ih c.2 (mem_parts_column rfl hc)) hcolumns.1, rfl, rfl⟩
      · rcases fnSig with _ | ⟨params, returnType⟩ <;> rcases hb : b.fnSig with _ | s'
        · exact .none
        · simp [hb] at hsig
        · simp [hb] at hsig
        · simp only [hb, rel_some_some] at hsig
          exact .some ⟨forall₂_mergeList (fun p hp => ih p (mem_parts_param rfl hp)) hsig.1,
            ih _ (mem_parts_return rfl) _ hsig.2⟩
      · rcases members with _ | ms <;> rcases hb : b.members with _ | ms'
        · exact .none
        · simp [hb] at hmembers
        · simp [hb] at hmembers
        · simp only [hb, rel_some_some] at hmembers
          exact .some (forall₂_mergeList (fun m hm => ih m (mem_parts_member rfl hm)) hmembers)

/-! ## Constructors -/

/-- The "unknown" type: any value. -/
def unknown : RType :=
  ⟨.opaqueMode, .unknown, .unknown, none, none, none, .default⟩

def new (mode : Mode) (length : Length) : RType :=
  ⟨mode, length, .empty, none, none, none, .default⟩

/-- A scalar literal of the given mode. -/
def scalar (mode : Mode) : RType := new mode .one

def withClass (t : RType) (cls : ClassVector) : RType := { t with cls }

/-- Checked constructor for a union: no member gives the unknown type, one member
is that member. -/
def ofMembers : List RType → RType
  | [] => unknown
  | [m] => m
  | m :: ms => { new .union ((ms.map length).foldl Length.join m.length) with members := some (m :: ms) }

/-! ## The join -/

/-- Push `t` unless an equal member is there, which then keeps either proxy marker. -/
def pushDedup : List RType → RType → List RType
  | [], t => [t]
  | m :: ms, t =>
    if m.eq t then
      { m with cls := { m.cls with storageProxy := m.cls.storageProxy || t.cls.storageProxy } } :: ms
    else m :: pushDedup ms t

/-- The alternatives a type contributes to a union. -/
def alternatives (t : RType) : List RType :=
  if t.mode = .union then t.members.getD [] else [t]

/-- Union of two types of different shapes.  The alternatives keep their class,
schema and signature; what the operands themselves carried beside their members is
dropped. -/
def unionOf (a b : RType) : RType :=
  let members := (alternatives a ++ alternatives b).foldl pushDedup []
  if maxUnionMembers < members.length then unknown
  else ofMembers members

/-- Least upper bound of two types where control flow merges. -/
def join (self other : RType) : RType :=
  if self.mode.isUnknown || other.mode.isUnknown then
    let length := self.length.join other.length
    { unknown with length := if length.provenAboveOne then length else .unknown }
  else
    let proxy := self.cls.storageProxy || other.cls.storageProxy
    let mark (t : RType) : RType :=
      { t with cls := { t.cls with storageProxy := t.cls.storageProxy || proxy } }
    if self.eq other then mark self
    else if self.sameShape other then mark (self.mergeSameShape other)
    else unionOf self other

end RType
end Ry
