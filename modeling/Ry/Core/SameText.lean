import Ry.Core.Expanded
import Ry.Declared.Spelling

/-! # Types with one text

Two types with one expanded text agree in what the text shows.  Class vectors may still differ in
their marks, and agree whole exactly where the types' marks, in the order of the text, are the same.
-/

namespace Ry.Presentation

open Listed

/-! ## The facts of a type -/

/-- Class vectors that agree in what a text shows, or whole. -/
structure SameClass (whole : Bool) (c d : ClassVector) : Prop where
  known : c.known = d.known
  names : c.known = true → c.names = d.names
  marks : whole = true → c = d

inductive SameSchema (R : RType → RType → Prop) :
    ColumnSchema RType → ColumnSchema RType → Prop
  | mk {cs ds : List (String × RType)} {complete locallyConstructed : Bool}
      (names : cs.map Prod.fst = ds.map Prod.fst)
      (types : List.Forall₂ R (cs.map Prod.snd) (ds.map Prod.snd)) :
      SameSchema R ⟨cs, complete, locallyConstructed⟩ ⟨ds, complete, locallyConstructed⟩

inductive SameSignature (R : RType → RType → Prop) :
    FunctionSignature RType → FunctionSignature RType → Prop
  | mk {params params' : List RType} {t u : RType} (hparams : List.Forall₂ R params params')
      (hreturn : R t u) : SameSignature R ⟨params, t⟩ ⟨params', u⟩

/-- The alternatives of a union. -/
def alternatives (t : RType) : Option (List RType) := if t.mode = .union then t.members else none

/-- Types that agree in every represented fact, their class vectors in what a text shows or
whole. -/
inductive SameFacts (whole : Bool) : RType → RType → Prop
  | mk (t u : RType) (mode : t.mode = u.mode) (length : t.length.set = u.length.set)
      (cls : SameClass whole t.cls u.cls)
      (members : Option.Rel (List.Forall₂ (SameFacts whole)) (alternatives t) (alternatives u))
      (columns : Option.Rel (SameSchema (SameFacts whole)) t.columns u.columns)
      (fnSig : Option.Rel (SameSignature (SameFacts whole)) t.fnSig u.fnSig) : SameFacts whole t u

/-- What a text leaves out of a class vector. -/
structure Marks where
  guarded : Bool
  storageProxy : Bool
  /-- The names of a class that is not known. -/
  names : List String
deriving DecidableEq

def classMarks (c : ClassVector) : Marks :=
  ⟨c.guarded, c.storageProxy, if c.known then [] else c.names⟩

theorem sameClass_whole {c d : ClassVector} (h : SameClass false c d) :
    SameClass true c d ↔ classMarks c = classMarks d := by
  constructor
  · intro hwhole
    rw [hwhole.marks rfl]
  · intro hmarks
    obtain ⟨hguarded, hproxy, hnames⟩ := Marks.mk.inj hmarks
    refine ⟨h.known, h.names, fun _ => ?_⟩
    obtain ⟨names, bound, known, guarded, proxy⟩ := c
    obtain ⟨names', bound', known', guarded', proxy'⟩ := d
    obtain rfl : known = known' := h.known
    obtain rfl : guarded = guarded' := hguarded
    obtain rfl : proxy = proxy' := hproxy
    have hall : names = names' := by
      cases known with
      | true => exact h.names rfl
      | false => exact hnames
    subst hall
    rfl

mutual
/-- The marks of every class vector of a type, in the order of its text. -/
def marks : RType → List Marks
  | ⟨mode, _, cls, columns, fnSig, members, _⟩ =>
    (if mode = .union then marksMembers members else []) ++ [classMarks cls] ++
      marksColumns columns ++ marksSignature fnSig
termination_by structural t => t
def marksMembers : Option (List RType) → List Marks
  | none => []
  | some members => marksTypes members
termination_by structural m => m
def marksColumns : Option (ColumnSchema RType) → List Marks
  | none => []
  | some schema => marksSchema schema
termination_by structural s => s
def marksSchema : ColumnSchema RType → List Marks
  | ⟨columns, _, _⟩ => marksFields columns
termination_by structural s => s
def marksSignature : Option (FunctionSignature RType) → List Marks
  | none => []
  | some signature => marksFunction signature
termination_by structural s => s
def marksFunction : FunctionSignature RType → List Marks
  | ⟨params, returnType⟩ => marksTypes params ++ marks returnType
termination_by structural s => s
def marksTypes : List RType → List Marks
  | [] => []
  | t :: ts => marks t ++ marksTypes ts
termination_by structural ts => ts
def marksFields : List (String × RType) → List Marks
  | [] => []
  | c :: cs => marksField c ++ marksFields cs
termination_by structural cs => cs
def marksField : String × RType → List Marks
  | (_, t) => marks t
termination_by structural c => c
end

/-! ## The marks decide -/

/-- As many marks, and the same ones exactly where something holds. -/
structure Tells (a b : List Marks) (whole : Prop) : Prop where
  length : a.length = b.length
  iff : whole ↔ a = b

theorem Tells.append {a b a' b' : List Marks} {p p' : Prop} (h : Tells a b p) (h' : Tells a' b' p') :
    Tells (a ++ a') (b ++ b') (p ∧ p') := by
  constructor
  · rw [List.length_append, List.length_append, h.length, h'.length]
  · rw [h.iff, h'.iff]
    constructor
    · rintro ⟨rfl, rfl⟩
      rfl
    · exact fun heq => List.append_inj heq h.length

theorem Tells.nil {p : Prop} (h : p) : Tells [] [] p := ⟨rfl, iff_of_true h rfl⟩

theorem Tells.congr {a b : List Marks} {p q : Prop} (h : Tells a b p) (hpq : p ↔ q) : Tells a b q :=
  ⟨h.length, hpq.symm.trans h.iff⟩

theorem marks_eq (t : RType) : marks t = marksMembers (alternatives t) ++ [classMarks t.cls] ++
    marksColumns t.columns ++ marksSignature t.fnSig := by
  obtain ⟨mode, length, cls, columns, fnSig, members, facts⟩ := t
  rw [marks, alternatives]
  split <;> rfl

/-- The marks decide whether a type agrees whole with one that agrees in its text. -/
def MarksTell (t : RType) : Prop :=
  ∀ u, SameFacts false t u → Tells (marks t) (marks u) (SameFacts true t u)

theorem marksTypes_tells {ts us : List RType} (h : List.Forall₂ (SameFacts false) ts us)
    (hparts : ∀ t ∈ ts, MarksTell t) :
    Tells (marksTypes ts) (marksTypes us) (List.Forall₂ (SameFacts true) ts us) := by
  induction h with
  | nil => exact .nil .nil
  | cons htu _ ih =>
    obtain ⟨ht, hts⟩ := List.forall_mem_cons.mp hparts
    rw [marksTypes, marksTypes]
    exact ((ht _ htu).append (ih hts)).congr List.forall₂_cons.symm

theorem marksFields_eq (cs : List (String × RType)) :
    marksFields cs = marksTypes (cs.map Prod.snd) := by
  induction cs with
  | nil => rfl
  | cons c cs ih =>
    obtain ⟨name, t⟩ := c
    rw [marksFields, marksField, List.map_cons, marksTypes, ih]

theorem marksMembers_tells {ms ns : Option (List RType)}
    (h : Option.Rel (List.Forall₂ (SameFacts false)) ms ns)
    (hparts : ∀ t ∈ ms.getD [], MarksTell t) :
    Tells (marksMembers ms) (marksMembers ns)
      (Option.Rel (List.Forall₂ (SameFacts true)) ms ns) := by
  cases h with
  | none => exact .nil .none
  | some h => exact (marksTypes_tells h hparts).congr RType.rel_some_some.symm

theorem marksColumns_tells {s s' : Option (ColumnSchema RType)}
    (h : Option.Rel (SameSchema (SameFacts false)) s s')
    (hparts : ∀ t ∈ s.elim [] fun s => s.columns.map Prod.snd, MarksTell t) :
    Tells (marksColumns s) (marksColumns s')
      (Option.Rel (SameSchema (SameFacts true)) s s') := by
  cases h with
  | none => exact .nil .none
  | some h =>
    obtain ⟨hnames, htypes⟩ := h
    have htells := marksTypes_tells htypes hparts
    rw [← marksFields_eq, ← marksFields_eq] at htells
    refine htells.congr (Iff.trans ?_ RType.rel_some_some.symm)
    constructor
    · exact fun hall => .mk hnames hall
    · rintro ⟨-, hall⟩
      exact hall

theorem marksSignature_tells {s s' : Option (FunctionSignature RType)}
    (h : Option.Rel (SameSignature (SameFacts false)) s s')
    (hparts : ∀ t ∈ s.elim [] fun s => s.returnType :: s.params, MarksTell t) :
    Tells (marksSignature s) (marksSignature s')
      (Option.Rel (SameSignature (SameFacts true)) s s') := by
  cases h with
  | none => exact .nil .none
  | some h =>
    obtain ⟨hparams, hreturn⟩ := h
    obtain ⟨ht, hts⟩ := List.forall_mem_cons.mp hparts
    refine ((marksTypes_tells hparams hts).append (ht _ hreturn)).congr
      (Iff.trans ?_ RType.rel_some_some.symm)
    constructor
    · exact fun hall => .mk hall.1 hall.2
    · rintro ⟨hall, hlast⟩
      exact ⟨hall, hlast⟩

theorem mem_parts_of_alternatives {t p : RType} (h : p ∈ (alternatives t).getD []) :
    p ∈ t.parts := by
  unfold alternatives at h
  split at h
  · exact List.mem_append_right _ h
  · cases h

theorem marks_tell (t : RType) : MarksTell t := by
  induction t using RType.induction with
  | h t ih =>
    rintro u ⟨_, _, hmode, hlength, hcls, hmembers, hcolumns, hsig⟩
    have hm := marksMembers_tells hmembers fun p hp => ih p (mem_parts_of_alternatives hp)
    have hc := marksColumns_tells hcolumns fun p hp =>
      ih p (List.mem_append_left _ (List.mem_append_left _ hp))
    have hs := marksSignature_tells hsig fun p hp =>
      ih p (List.mem_append_left _ (List.mem_append_right _ hp))
    have hv : Tells [classMarks t.cls] [classMarks u.cls] (SameClass true t.cls u.cls) :=
      ⟨rfl, by rw [sameClass_whole hcls, List.singleton_inj]⟩
    rw [marks_eq, marks_eq]
    refine (((hm.append hv).append hc).append hs).congr ⟨?_, ?_⟩
    · rintro ⟨⟨⟨hmembers, hcls⟩, hcolumns⟩, hsig⟩
      exact .mk t u hmode hlength hcls hmembers hcolumns hsig
    · rintro ⟨_, _, _, _, hcls, hmembers, hcolumns, hsig⟩
      exact ⟨⟨⟨hmembers, hcls⟩, hcolumns⟩, hsig⟩

/-! ## Pieces told apart -/

/-- Texts go on differently, where neither begins the other. -/
theorem append_ne {A : Type} {p q : List A} (hpq : ¬p <+: q) (hqp : ¬q <+: p) (x y : List A) :
    p ++ x ≠ q ++ y := by
  intro h
  rcases List.prefix_or_prefix_of_prefix (List.prefix_append p x) (h ▸ List.prefix_append q y) with
    hbegins | hbegins
  · exact hpq hbegins
  · exact hqp hbegins

theorem ite_append_inj {A : Type} {p q x y : List A} {b b' : Bool} (hpq : ¬p <+: q) (hqp : ¬q <+: p)
    (h : (if b then p else q) ++ x = (if b' then p else q) ++ y) : b = b' ∧ x = y := by
  cases b <;> cases b'
  · exact ⟨rfl, List.append_cancel_left h⟩
  · exact absurd h (append_ne hqp hpq x y)
  · exact absurd h (append_ne hpq hqp x y)
  · exact ⟨rfl, List.append_cancel_left h⟩

theorem modeText_injective {m n : Mode} (h : modeText m = modeText n) : m = n := by
  cases m <;> cases n <;> first | rfl | exact absurd h (by decide)

theorem modeText_open (m : Mode) : '<' ∉ modeText m := by cases m <;> decide

theorem lengthText_cases (l : Length) :
    l = .unknown ∨
      (l.exact = some l.minPossible ∧ lengthText l = Nat.toDigits 10 l.minPossible) ∨
      (l.exact = none ∧ lengthText l = Nat.toDigits 10 l.minPossible ++ ['+']) := by
  cases l with
  | unknown => exact .inl rfl
  | zero => exact .inr (.inl ⟨rfl, by decide⟩)
  | one => exact .inr (.inl ⟨rfl, by decide⟩)
  | known n => exact .inr (.inl ⟨rfl, rfl⟩)
  | nonempty => exact .inr (.inr ⟨rfl, by decide⟩)
  | atLeast n => exact .inr (.inr ⟨rfl, rfl⟩)

theorem not_digit {c : Char} (hc : c.isDigit = false) (n : Nat) : c ∉ Nat.toDigits 10 n := by
  intro h
  rw [Declared.isDigit_toDigits n c h] at hc
  cases hc

theorem lengthText_open (l : Length) : '>' ∉ lengthText l := by
  have hdigits (n : Nat) : '>' ∉ Nat.toDigits 10 n := not_digit (by decide) n
  rcases lengthText_cases l with rfl | ⟨-, h⟩ | ⟨-, h⟩
  · decide
  · rw [h]
    exact hdigits _
  · simp [h, hdigits]

/-- Lengths with one text allow the same lengths. -/
theorem lengthText_set {l k : Length} (h : lengthText l = lengthText k) : l.set = k.set := by
  have hquery (n : Nat) : '?' ∉ Nat.toDigits 10 n := not_digit (by decide) n
  have hplus (n : Nat) : '+' ∉ Nat.toDigits 10 n := not_digit (by decide) n
  ext n
  rw [Length.mem_set, Length.mem_set]
  rcases lengthText_cases l with rfl | ⟨hl, htext⟩ | ⟨hl, htext⟩ <;>
    rcases lengthText_cases k with rfl | ⟨hk, htext'⟩ | ⟨hk, htext'⟩
  · rfl
  · exact absurd (by rw [← htext', ← h]; decide) (hquery k.minPossible)
  · have hmem : '?' ∈ Nat.toDigits 10 k.minPossible ++ ['+'] := by rw [← htext', ← h]; decide
    simp [hquery] at hmem
  · exact absurd (by rw [← htext, h]; decide) (hquery l.minPossible)
  · rw [htext, htext'] at h
    rw [Length.describes_of_exact hl, Length.describes_of_exact hk,
      Declared.toDigits_injective h]
  · exact absurd (by rw [← htext, h, htext']; simp) (hplus l.minPossible)
  · have hmem : '?' ∈ Nat.toDigits 10 l.minPossible ++ ['+'] := by rw [← htext, h]; decide
    simp [hquery] at hmem
  · exact absurd (by rw [← htext', ← h, htext]; simp) (hplus k.minPossible)
  · rw [htext, htext', List.append_left_inj] at h
    rw [Length.describes_of_bound hl, Length.describes_of_bound hk,
      Declared.toDigits_injective h]

theorem headText_append_inj {m n : Mode} {l k : Length} {x y : List Char}
    (h : headText m l ++ x = headText n k ++ y) : m = n ∧ l.set = k.set ∧ x = y := by
  simp only [headText, String.reduceToList, List.append_assoc, List.cons_append,
    List.nil_append] at h
  obtain ⟨hmode, hrest⟩ := append_inj_of_separator (modeText_open m) (modeText_open n) h
  simp only [List.cons.injEq, true_and] at hrest
  obtain ⟨hlength, hxy⟩ := append_inj_of_separator (lengthText_open l) (lengthText_open k) hrest
  exact ⟨modeText_injective hmode, lengthText_set hlength, hxy⟩

theorem closeText_append_inj {complete complete' built built' : Bool} {x y : List Char}
    (h : closeText complete built ++ x = closeText complete' built' ++ y) :
    complete = complete' ∧ built = built' ∧ x = y := by
  unfold closeText at h
  rw [List.append_assoc, List.append_assoc] at h
  obtain ⟨hcomplete, hrest⟩ := ite_append_inj (by decide) (by decide) h
  obtain ⟨hbuilt, hxy⟩ := ite_append_inj (by decide) (by decide) hrest
  exact ⟨hcomplete, hbuilt, hxy⟩

section Texts

variable {isPlain : Char → Bool}

theorem debugText_head (name z : List Char) : (debugText isPlain name ++ z).head? = some '"' := rfl

theorem classNames_append_inj {names names' : List String} {x y : List Char}
    (h : listed [','] 0 (names.map fun name => debugText isPlain name.toList) ++ ([']'] ++ x) =
      listed [','] 0 (names'.map fun name => debugText isPlain name.toList) ++ ([']'] ++ y)) :
    names = names' ∧ x = y := by
  have hpiece (name : String) (z : List Char) :
      ¬(debugText isPlain name.toList ++ z).head? = some ']' := by
    rw [debugText_head]
    decide
  have hspell : ∀ a ∈ names, ∀ (b : String) (x y : List Char), True → True →
      debugText isPlain a.toList ++ x = debugText isPlain b.toList ++ y → a = b ∧ x = y :=
    fun a _ b x y _ _ h => (debugText_append_inj h).imp_left String.toList_inj.mp
  obtain ⟨hnames, hrest⟩ := @listed_append_inj _ _ (fun name => debugText isPlain name.toList)
    [','] (fun _ => True) (fun z => z.head? = some ']') Eq (fun _ => trivial)
    (fun _ _ => trivial) (fun _ => by simp) hpiece names names' hspell 0 _ _ rfl rfl h
  exact ⟨List.forall₂_eq_eq_eq ▸ hnames, List.append_cancel_left hrest⟩

theorem classText_append_inj {c d : ClassVector} {x y : List Char}
    (h : classText isPlain c ++ x = classText isPlain d ++ y) : SameClass false c d ∧ x = y := by
  unfold classText at h
  by_cases hc : c.known = true <;> by_cases hd : d.known = true
  · rw [if_pos hc, if_pos hd] at h
    simp only [List.append_assoc] at h
    obtain ⟨hnames, hrest⟩ := classNames_append_inj (List.append_cancel_left h)
    rw [hnames] at hrest
    exact ⟨⟨hc.trans hd.symm, fun _ => hnames, fun h => absurd h (by decide)⟩,
      List.append_cancel_left hrest⟩
  · rw [if_pos hc, if_neg hd, List.append_assoc, List.append_assoc, List.append_assoc] at h
    exact absurd h (append_ne (by decide) (by decide) _ _)
  · rw [if_neg hc, if_pos hd, List.append_assoc, List.append_assoc, List.append_assoc] at h
    exact absurd h (append_ne (by decide) (by decide) _ _)
  · rw [if_neg hc, if_neg hd] at h
    have hknown : c.known = d.known := by
      rw [Bool.eq_false_iff.mpr hc, Bool.eq_false_iff.mpr hd]
    exact ⟨⟨hknown, fun h => absurd h hc, fun h => absurd h (by decide)⟩,
      List.append_cancel_left h⟩

/-! ## Types told apart -/

/-- What follows a type does not begin with a space. -/
def Stops (x : List Char) : Prop := x.head? ≠ some ' '

theorem renderTypes_eq (ts : List RType) : renderTypes isPlain ts = ts.map (render isPlain) := by
  induction ts with
  | nil => rfl
  | cons t ts ih => rw [renderTypes, ih, List.map_cons]

theorem renderFields_eq (cs : List (String × RType)) :
    renderFields isPlain cs = cs.map (renderField isPlain) := by
  induction cs with
  | nil => rfl
  | cons c cs ih => rw [renderFields, ih, List.map_cons]

/-- A type begins with a letter of its mode. -/
theorem render_head (t : RType) (z : List Char) :
    ∃ c, c ≠ ']' ∧ c ≠ '?' ∧ (render isPlain t ++ z).head? = some c := by
  obtain ⟨mode, length, cls, columns, fnSig, members, facts⟩ := t
  have hmode : ∃ c rest, c ≠ ']' ∧ c ≠ '?' ∧ modeText mode = c :: rest := by
    cases mode <;> exact ⟨_, _, by decide, by decide, String.toList_ofList⟩
  obtain ⟨c, rest, hclose, hquery, htext⟩ := hmode
  refine ⟨c, hclose, hquery, ?_⟩
  rw [render, headText, htext]
  rfl

/-- A type's text shows where the type ends. -/
def Apart (isPlain : Char → Bool) (t : RType) : Prop :=
  ∀ u x y, Stops x → Stops y → render isPlain t ++ x = render isPlain u ++ y →
    SameFacts false t u ∧ x = y

theorem renderTypes_append_inj {ts us : List RType} (hparts : ∀ t ∈ ts, Apart isPlain t)
    {x y : List Char}
    (h : listed [',', ' '] 0 (renderTypes isPlain ts) ++ ']' :: x =
      listed [',', ' '] 0 (renderTypes isPlain us) ++ ']' :: y) :
    List.Forall₂ (SameFacts false) ts us ∧ x = y := by
  have hpiece (t : RType) (z : List Char) : ¬(render isPlain t ++ z).head? = some ']' := by
    obtain ⟨c, hclose, -, hhead⟩ := @render_head isPlain t z
    rw [hhead]
    exact fun h => hclose (Option.some.inj h)
  rw [renderTypes_eq, renderTypes_eq] at h
  obtain ⟨htypes, hrest⟩ := @listed_append_inj _ _ (render isPlain) [',', ' '] Stops
    (fun z => z.head? = some ']') (SameFacts false) (fun _ => by simp [Stops])
    (fun z hz => by simp [Stops, hz]) (fun _ => by simp) hpiece ts us
    (fun t ht u x y hx hy => hparts t ht u x y hx hy) 0 _ _ rfl rfl h
  exact ⟨htypes, (List.cons.inj hrest).2⟩

theorem closeText_head (complete built : Bool) (x : List Char) :
    (closeText complete built ++ x).head? = some ';' := by
  cases complete <;> cases built <;> rfl

theorem renderSchema_append_inj {s s' : ColumnSchema RType}
    (hparts : ∀ t ∈ s.columns.map Prod.snd, Apart isPlain t) {x y : List Char}
    (h : renderSchema isPlain s ++ x = renderSchema isPlain s' ++ y) :
    SameSchema (SameFacts false) s s' ∧ x = y := by
  obtain ⟨cs, complete, built⟩ := s
  obtain ⟨ds, complete', built'⟩ := s'
  have hpiece (c : String × RType) (z : List Char) :
      ¬(renderField isPlain c ++ z).head? = some ';' := by
    obtain ⟨name, t⟩ := c
    rw [renderField, List.append_assoc, List.append_assoc, debugText_head]
    decide
  have hspell : ∀ c ∈ cs, ∀ d x y, Stops x → Stops y →
      renderField isPlain c ++ x = renderField isPlain d ++ y →
        (c.1 = d.1 ∧ SameFacts false c.2 d.2) ∧ x = y := by
    rintro ⟨name, t⟩ hc ⟨name', u⟩ x y hx hy h
    simp only [renderField, List.append_assoc] at h
    obtain ⟨hname, hrest⟩ := debugText_append_inj h
    obtain ⟨htu, hxy⟩ := hparts t (List.mem_map_of_mem hc) u x y hx hy
      (List.append_cancel_left hrest)
    exact ⟨⟨String.toList_inj.mp hname, htu⟩, hxy⟩
  rw [renderSchema, renderSchema, renderFields_eq, renderFields_eq, List.append_assoc,
    List.append_assoc] at h
  obtain ⟨hfields, hrest⟩ := @listed_append_inj _ _ (renderField isPlain) [',', ' '] Stops
    (fun z => z.head? = some ';') (fun c d => c.1 = d.1 ∧ SameFacts false c.2 d.2)
    (fun _ => by simp [Stops]) (fun z hz => by simp [Stops, hz]) (fun _ => by simp) hpiece cs ds
    hspell 0 _ _ (closeText_head _ _ x) (closeText_head _ _ y) h
  obtain ⟨rfl, rfl, hxy⟩ := closeText_append_inj hrest
  refine ⟨.mk ?_ ?_, hxy⟩
  · rw [← List.forall₂_eq_eq_eq, List.forall₂_map_left_iff, List.forall₂_map_right_iff]
    exact hfields.imp fun _ _ h => h.1
  · rw [List.forall₂_map_left_iff, List.forall₂_map_right_iff]
    exact hfields.imp fun _ _ h => h.2

theorem renderMembers_append_inj {ms ns : Option (List RType)}
    (hparts : ∀ t ∈ ms.getD [], Apart isPlain t) {x y : List Char}
    (h : renderMembers isPlain ms ++ ']' :: x = renderMembers isPlain ns ++ ']' :: y) :
    Option.Rel (List.Forall₂ (SameFacts false)) ms ns ∧ x = y := by
  have hquery (ts : List RType) (z : List Char) :
      (listed [',', ' '] 0 (renderTypes isPlain ts) ++ ']' :: z).head? ≠ some '?' := by
    cases ts with
    | nil =>
      rw [renderTypes, listed]
      exact fun h => absurd (Option.some.inj h) (by decide)
    | cons t ts =>
      obtain ⟨c, -, hc, hhead⟩ := @render_head isPlain t
        (listed [',', ' '] 1 (renderTypes isPlain ts) ++ ']' :: z)
      rw [renderTypes, listed, if_neg (by decide), List.nil_append, List.append_assoc, hhead]
      exact fun h => hc (Option.some.inj h)
  cases ms with
  | none =>
    cases ns with
    | none => exact ⟨.none, (List.cons.inj (List.append_cancel_left h)).2⟩
    | some us =>
      rw [renderMembers, renderMembers] at h
      exact absurd (by rw [← h]; rfl) (hquery us y)
  | some ts =>
    cases ns with
    | none =>
      rw [renderMembers, renderMembers] at h
      exact absurd (by rw [h]; rfl) (hquery ts x)
    | some us =>
      obtain ⟨htypes, hxy⟩ := renderTypes_append_inj hparts h
      exact ⟨.some htypes, hxy⟩

theorem renderColumns_append_inj {s s' : Option (ColumnSchema RType)}
    (hparts : ∀ t ∈ s.elim [] fun s => s.columns.map Prod.snd, Apart isPlain t) {x y : List Char}
    (h : renderColumns isPlain s ++ x = renderColumns isPlain s' ++ y) :
    Option.Rel (SameSchema (SameFacts false)) s s' ∧ x = y := by
  have hopen (s : ColumnSchema RType) (x y : List Char) :
      noColumnsText ++ x ≠ ['\x7b'] ++ renderSchema isPlain s ++ y := by
    rw [List.append_assoc, noColumnsText]
    exact append_ne (by decide) (by decide) _ _
  cases s with
  | none =>
    cases s' with
    | none => exact ⟨.none, List.append_cancel_left h⟩
    | some s' => exact absurd h (hopen s' x y)
  | some s =>
    cases s' with
    | none => exact absurd h.symm (hopen s y x)
    | some s' =>
      rw [renderColumns, renderColumns, List.append_assoc, List.append_assoc] at h
      obtain ⟨hschema, hxy⟩ := renderSchema_append_inj hparts (List.append_cancel_left h)
      exact ⟨.some hschema, hxy⟩

theorem renderFunction_append_inj {s s' : FunctionSignature RType}
    (hparts : ∀ t ∈ s.returnType :: s.params, Apart isPlain t) {x y : List Char}
    (h : renderFunction isPlain s ++ x = renderFunction isPlain s' ++ y) :
    SameSignature (SameFacts false) s s' ∧ x = y := by
  obtain ⟨params, t⟩ := s
  obtain ⟨params', u⟩ := s'
  obtain ⟨ht, hts⟩ := List.forall_mem_cons.mp hparts
  have hreturn : "], return=".toList = ']' :: ", return=".toList := by decide
  rw [renderFunction, renderFunction, hreturn] at h
  simp only [List.append_assoc, List.cons_append, List.nil_append] at h
  obtain ⟨hparams, hrest⟩ := renderTypes_append_inj hts (List.append_cancel_left h)
  obtain ⟨htu, hxy⟩ := ht u _ _ (by simp [Stops]) (by simp [Stops]) (List.append_cancel_left hrest)
  exact ⟨.mk hparams htu, (List.cons.inj hxy).2⟩

theorem renderSignature_append_inj {s s' : Option (FunctionSignature RType)} (mode : Mode)
    (hparts : ∀ t ∈ s.elim [] fun s => s.returnType :: s.params, Apart isPlain t) {x y : List Char}
    (hx : Stops x) (hy : Stops y)
    (h : renderSignature isPlain s mode ++ x = renderSignature isPlain s' mode ++ y) :
    Option.Rel (SameSignature (SameFacts false)) s s' ∧ x = y := by
  have hopen (s : FunctionSignature RType) (x y : List Char) (hx : Stops x) :
      noSignatureText mode ++ x ≠ renderFunction isPlain s ++ y := by
    obtain ⟨params, t⟩ := s
    rw [renderFunction, noSignatureText]
    simp only [List.append_assoc, functionText]
    split
    · exact append_ne (by decide) (by decide) _ _
    · intro h
      rw [List.nil_append] at h
      exact hx (by rw [h]; rfl)
  cases s with
  | none =>
    cases s' with
    | none => exact ⟨.none, List.append_cancel_left h⟩
    | some s' => exact absurd h (hopen s' x y hx)
  | some s =>
    cases s' with
    | none => exact absurd h.symm (hopen s y x hy)
    | some s' =>
      obtain ⟨hsig, hxy⟩ := renderFunction_append_inj hparts h
      exact ⟨.some hsig, hxy⟩

/-- The text of a type's alternatives. -/
def unionText (isPlain : Char → Bool) (t : RType) : List Char :=
  if t.mode = .union then ['['] ++ renderMembers isPlain t.members ++ [']'] else []

theorem unionText_append_inj {t u : RType} (hmode : t.mode = u.mode)
    (hparts : ∀ p ∈ t.parts, Apart isPlain p) {x y : List Char}
    (h : unionText isPlain t ++ x = unionText isPlain u ++ y) :
    Option.Rel (List.Forall₂ (SameFacts false)) (alternatives t) (alternatives u) ∧ x = y := by
  unfold unionText at h
  by_cases ht : t.mode = .union
  · have hu : u.mode = .union := hmode.symm.trans ht
    have hall : alternatives t = t.members := if_pos ht
    have hall' : alternatives u = u.members := if_pos hu
    rw [if_pos ht, if_pos hu] at h
    simp only [List.append_assoc, List.cons_append, List.nil_append, List.cons.injEq,
      true_and] at h
    rw [hall, hall']
    exact renderMembers_append_inj (fun p hp => hparts p (mem_parts_of_alternatives (hall ▸ hp))) h
  · have hu : u.mode ≠ .union := fun hu => ht (hmode.trans hu)
    rw [if_neg ht, if_neg hu] at h
    rw [alternatives, alternatives, if_neg ht, if_neg hu]
    exact ⟨.none, h⟩

theorem render_eq (t : RType) : render isPlain t = headText t.mode t.length ++ unionText isPlain t ++
    classText isPlain t.cls ++ renderColumns isPlain t.columns ++
      renderSignature isPlain t.fnSig t.mode := by
  obtain ⟨mode, length, cls, columns, fnSig, members, facts⟩ := t
  rw [render]
  rfl

theorem render_append_inj (t : RType) : Apart isPlain t := by
  induction t using RType.induction with
  | h t ih =>
    intro u x y hx hy h
    rw [render_eq, render_eq] at h
    simp only [List.append_assoc] at h
    obtain ⟨hmode, hlength, h⟩ := headText_append_inj h
    obtain ⟨hmembers, h⟩ := unionText_append_inj hmode ih h
    obtain ⟨hcls, h⟩ := classText_append_inj h
    obtain ⟨hcolumns, h⟩ := renderColumns_append_inj (fun p hp =>
      ih p (List.mem_append_left _ (List.mem_append_left _ hp))) h
    rw [← hmode] at h
    obtain ⟨hsig, hxy⟩ := renderSignature_append_inj t.mode (fun p hp =>
      ih p (List.mem_append_left _ (List.mem_append_right _ hp))) hx hy h
    exact ⟨.mk t u hmode hlength hcls hmembers hcolumns hsig, hxy⟩

end Texts

/-! ## What a text tells -/

/-- Both texts keep to their budgets and mark what is cut off.  Two types with one whole text are
the same in every represented fact exactly where their class vectors carry the same marks. -/
theorem expandedType_facts (isPlain : Char → Bool) :
    (∀ t, byteLen (compactHint isPlain t).text ≤ hintBytes ∧
      ((compactHint isPlain t).text.getLast? = some '…' ↔
        (compactHint isPlain t).truncated = true)) ∧
    (∀ t, byteLen (expandedType isPlain t).text ≤ detailBytes ∧
      ((expandedType isPlain t).text.getLast? = some '…' ↔
        (expandedType isPlain t).truncated = true)) ∧
    ∀ t u, (expandedType isPlain t).truncated = false → (expandedType isPlain u).truncated = false →
      (expandedType isPlain t).text = (expandedType isPlain u).text →
        (SameFacts true t u ↔ marks t = marks u) := by
  refine ⟨fun t => finish_ty t (by decide) true, fun t => finish_ty t (by decide) false, ?_⟩
  intro t u ht hu htext
  rw [expandedType_text ht, expandedType_text hu] at htext
  obtain ⟨hsame, -⟩ := render_append_inj t u [] [] (by simp [Stops]) (by simp [Stops])
    (by rw [htext])
  exact (marks_tell t u hsame).iff

/-- A record of no elements is the same whichever way its length is spelled. -/
theorem expandedType_facts_record :
    let record (length : Length) : RType :=
      ⟨.list, length, .single "a", some ⟨[("x", ⟨.integer, .one, .empty, none, none, none, .default⟩)],
        true, false⟩, none, none, .default⟩
    SameFacts true (record .zero) (record (.known 0)) := by
  refine ((expandedType_facts fun _ => true).2.2 _ _ ?_ ?_ ?_).mpr ?_ <;> decide

/-- A class test proves less than a class, and has the same text. -/
theorem guard_unmarked :
    ¬ ∀ (isPlain : Char → Bool) (t u : RType), (expandedType isPlain t).truncated = false →
      (expandedType isPlain u).truncated = false →
      (expandedType isPlain t).text = (expandedType isPlain u).text → SameFacts true t u := by
  intro h
  have hsame := h (fun _ => true) ⟨.integer, .one, .single "a", none, none, none, .default⟩
    ⟨.integer, .one, .guard "a", none, none, none, .default⟩ (by decide) (by decide) (by decide)
  obtain ⟨_, _, -, -, hcls, -, -, -⟩ := hsame
  exact absurd (congrArg ClassVector.guarded (hcls.marks rfl)) (by decide)

end Ry.Presentation
