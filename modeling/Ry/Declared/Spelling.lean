import Ry.Declared.Signatures
import Std.Data.String.ToNat

/-! # Spellings of predicates can be read back

A spelling starts with a word and shows where it ends: in a signature and in a union it is
followed by a comma, a bracket or a parenthesis (`Closes`).  So two predicates without nested
unions that are spelled alike are the same, and what follows them is.
-/

namespace Ry.Declared

/-- What may follow a spelled predicate. -/
def Closes (rest : List Char) : Prop := ∀ c ∈ rest.head?, c = ',' ∨ c = ')' ∨ c = ']'

theorem closes_nil : Closes [] := fun _ h => nomatch h

theorem closes_comma (rest : List Char) : Closes (',' :: rest) := fun _ h =>
  Or.inl (Option.some.inj h).symm

theorem closes_paren (rest : List Char) : Closes (')' :: rest) := fun _ h =>
  Or.inr (Or.inl (Option.some.inj h).symm)

theorem closes_bracket (rest : List Char) : Closes (']' :: rest) := fun _ h =>
  Or.inr (Or.inr (Option.some.inj h).symm)

/-- The word a spelling starts with. -/
def TypeExpr.word : TypeExpr → String
  | .unknown => "unknown"
  | .exactClass _ => "class"
  | .atomic mode _ => mode.name
  | .union _ => "union"

/-- The characters that end a word. -/
def stops : List Char := ['<', '[', ',', ')', ']']

/-- The word before is over. -/
def Stops (rest : List Char) : Prop := ∀ c ∈ rest.head?, ¬ c ∉ stops

theorem Closes.stops {rest : List Char} (h : Closes rest) : Stops rest := by
  intro c hc
  rcases h c hc with rfl | rfl | rfl <;> decide

theorem stops_cons {c : Char} (h : c ∈ stops) (rest : List Char) : Stops (c :: rest) :=
  fun _ hd hout => hout (Option.some.inj hd ▸ h)

theorem AtomicMode.name_unstopped (mode : AtomicMode) : ∀ c ∈ mode.name.toList, c ∉ stops := by
  cases mode <;> simp [AtomicMode.name, stops]

theorem TypeExpr.word_unstopped (ty : TypeExpr) : ∀ c ∈ ty.word.toList, c ∉ stops := by
  cases ty with
  | unknown => simp [TypeExpr.word, stops]
  | exactClass => simp [TypeExpr.word, stops]
  | atomic mode => exact mode.name_unstopped
  | union => simp [TypeExpr.word, stops]

theorem AtomicMode.name_injective {mode mode' : AtomicMode} (h : mode.name = mode'.name) :
    mode = mode' := by
  revert h
  cases mode <;> cases mode' <;> decide

/-- No other kind of predicate has the word of a storage mode. -/
theorem AtomicMode.name_reserved (mode : AtomicMode) :
    mode.name ≠ "unknown" ∧ mode.name ≠ "class" ∧ mode.name ≠ "union" ∧ mode.name ≠ "none" := by
  cases mode <;> decide

theorem eq_of_bounded {spelling text : List Char} (h : bounded spelling = .ok text) :
    text = spelling := by
  unfold bounded at h
  split at h
  · cases h
  · exact (Except.ok.inj h).symm

theorem bounded_self {spelling text : List Char} (h : bounded spelling = .ok text) :
    byteLen text ≤ maxDeclarationBytes := by
  unfold bounded at h
  split at h
  · cases h
  · rename_i hfits
    exact Except.ok.inj h ▸ Nat.le_of_not_lt hfits

/-! ## Lengths -/

def lengthBody : DeclaredLength → List Char
  | .exact value => Nat.toDigits 10 value
  | .nonempty => "1+".toList

theorem lengthText_some (length : DeclaredLength) :
    lengthText (some length) = "<len=".toList ++ (lengthBody length ++ ['>']) := by
  cases length <;> rfl

theorem isDigit_toDigits (value : Nat) : ∀ c ∈ Nat.toDigits 10 value, c.isDigit = true := fun _ h =>
  Nat.isDigit_of_mem_toDigits (by decide) (by decide) h

theorem toDigits_injective {value value' : Nat}
    (h : Nat.toDigits 10 value = Nat.toDigits 10 value') : value = value' := by
  refine Nat.repr_injective (String.toList_inj.mp ?_)
  rw [Nat.toList_repr, Nat.toList_repr, h]

theorem lengthBody_injective {length length' : DeclaredLength}
    (h : lengthBody length = lengthBody length') : length = length' := by
  have hplus : ∀ value, Nat.toDigits 10 value ≠ "1+".toList := by
    intro value heq
    have hdigit := isDigit_toDigits value '+' (by rw [heq]; decide)
    exact absurd hdigit (by decide)
  cases length with
  | exact value =>
    cases length' with
    | exact value' => exact congrArg _ (toDigits_injective h)
    | nonempty => exact absurd h (hplus value)
  | nonempty =>
    cases length' with
    | exact value' => exact absurd h.symm (hplus value')
    | nonempty => rfl

theorem lengthBody_open (length : DeclaredLength) : '>' ∉ lengthBody length := by
  cases length with
  | exact value =>
    intro h
    exact absurd (isDigit_toDigits value '>' h) (by decide)
  | nonempty => decide

theorem lengthText_append_inj {length length' : Option DeclaredLength} {x y : List Char}
    (hx : Closes x) (hy : Closes y) (h : lengthText length ++ x = lengthText length' ++ y) :
    length = length' ∧ x = y := by
  have hopen : ∀ {z : List Char}, Closes z → ∀ (length : DeclaredLength) (w : List Char),
      z ≠ lengthText (some length) ++ w := by
    intro z hz length w heq
    rw [lengthText_some] at heq
    have hhead := hz '<' (by rw [heq]; rfl)
    revert hhead
    decide
  cases length with
  | none =>
    cases length' with
    | none => exact ⟨rfl, h⟩
    | some length' => exact absurd h (hopen hx length' y)
  | some length =>
    cases length' with
    | none => exact absurd h.symm (hopen hy length x)
    | some length' =>
      rw [lengthText_some, lengthText_some, List.append_assoc, List.append_assoc, List.append_assoc,
        List.append_assoc] at h
      obtain ⟨hbody, hxy⟩ := append_inj_of_separator (lengthBody_open length)
        (lengthBody_open length') (List.append_cancel_left h)
      exact ⟨congrArg some (lengthBody_injective hbody), hxy⟩

theorem stops_lengthText {rest : List Char} (hrest : Closes rest)
    (length : Option DeclaredLength) : Stops (lengthText length ++ rest) := by
  cases length with
  | none => exact hrest.stops
  | some length =>
    rw [lengthText_some]
    exact stops_cons (by decide) _

/-! ## Predicates -/

section Render

variable (json : JsonStrings)

/-- A predicate that is no union. -/
def TypeExpr.IsLeaf : TypeExpr → Prop
  | .union _ => False
  | _ => True

/-- What follows the word of a leaf. -/
def leafTail : TypeExpr → List Char
  | .exactClass name => '[' :: (json.quote name.toList ++ [']'])
  | .atomic _ length => lengthText length
  | _ => []

def leafText (ty : TypeExpr) : List Char := ty.word.toList ++ leafTail json ty

variable {json}

theorem render_leaf {ty : TypeExpr} {text : List Char} (hleaf : ty.IsLeaf)
    (h : render json ty = .ok text) : text = leafText json ty := by
  cases ty with
  | unknown => exact eq_of_bounded h
  | exactClass name =>
    rw [render] at h
    split at h
    · cases h
    · exact eq_of_bounded h
  | atomic mode length =>
    rw [render] at h
    split at h
    · cases h
    · exact eq_of_bounded h
  | union members => exact hleaf.elim

theorem stops_leafTail {rest : List Char} (hrest : Closes rest) (ty : TypeExpr) :
    Stops (leafTail json ty ++ rest) := by
  cases ty with
  | unknown => exact hrest.stops
  | exactClass name => exact stops_cons (by decide) _
  | atomic mode length => exact stops_lengthText hrest length
  | union members => exact hrest.stops

/-- A leaf is read back from its text, and what follows it is left. -/
theorem leafText_append_inj {ty ty' : TypeExpr} (hleaf : ty.IsLeaf) (hleaf' : ty'.IsLeaf)
    {x y : List Char} (hx : Closes x) (hy : Closes y)
    (h : leafText json ty ++ x = leafText json ty' ++ y) : ty = ty' ∧ x = y := by
  rw [leafText, leafText, List.append_assoc, List.append_assoc] at h
  obtain ⟨hword, htail⟩ := append_inj_of_run ty.word_unstopped ty'.word_unstopped
    (stops_leafTail hx ty) (stops_leafTail hy ty') h
  replace hword := String.toList_inj.mp hword
  cases ty with
  | unknown =>
    cases ty' with
    | unknown => exact ⟨rfl, htail⟩
    | exactClass name' => exact absurd hword (by decide : "unknown" ≠ "class")
    | atomic mode' length' => exact absurd hword.symm mode'.name_reserved.1
    | union members' => exact hleaf'.elim
  | exactClass name =>
    cases ty' with
    | unknown => exact absurd hword.symm (by decide : "unknown" ≠ "class")
    | exactClass name' =>
      have hquoted : json.quote name.toList ++ (']' :: x) = json.quote name'.toList ++ (']' :: y) := by
        simpa [leafTail] using htail
      obtain ⟨hname, hrest⟩ := json.delimited _ _ _ _ hquoted
      exact ⟨congrArg _ (String.toList_inj.mp hname), (List.cons.inj hrest).2⟩
    | atomic mode' length' => exact absurd hword.symm mode'.name_reserved.2.1
    | union members' => exact hleaf'.elim
  | atomic mode length =>
    cases ty' with
    | unknown => exact absurd hword mode.name_reserved.1
    | exactClass name' => exact absurd hword mode.name_reserved.2.1
    | atomic mode' length' =>
      obtain ⟨rfl, hxy⟩ := lengthText_append_inj hx hy htail
      exact ⟨congrArg (TypeExpr.atomic · length) (AtomicMode.name_injective hword), hxy⟩
    | union members' => exact hleaf'.elim
  | union members => exact hleaf.elim

theorem leafText_injective {ty ty' : TypeExpr} (hleaf : ty.IsLeaf) (hleaf' : ty'.IsLeaf)
    (h : leafText json ty = leafText json ty') : ty = ty' := by
  have hends : leafText json ty ++ [] = leafText json ty' ++ [] := by rw [h]
  exact (leafText_append_inj hleaf hleaf' closes_nil closes_nil hends).1

/-! ## Unions of leaves -/

theorem renderAll_leaves {members : List TypeExpr} {texts : List (List Char)}
    (hleaf : ∀ member ∈ members, member.IsLeaf) (h : renderAll json members = .ok texts) :
    texts = members.map (leafText json) := by
  induction members generalizing texts with
  | nil => exact (Except.ok.inj h).symm
  | cons member members ih =>
    rw [renderAll] at h
    split at h
    · cases h
    · rename_i text htext
      split at h
      · cases h
      · rename_i rest hrest
        rw [← Except.ok.inj h, render_leaf (hleaf member List.mem_cons_self) htext,
          ih (fun m hm => hleaf m (List.mem_cons_of_mem _ hm)) hrest, List.map_cons]

theorem joined_cons (text : List Char) (texts : List (List Char)) :
    joined (text :: texts) = text ++ texts.flatMap (commaSpace ++ ·) := by
  unfold joined
  induction texts generalizing text with
  | nil => simp
  | cons next texts ih => rw [List.intercalate_cons_cons, ih, List.flatMap_cons, List.append_assoc,
      List.append_assoc]

/-- What follows an alternative in a union. -/
theorem closes_alternatives (members : List TypeExpr) (rest : List Char) :
    Closes ((members.map (leafText json)).flatMap (commaSpace ++ ·) ++ ']' :: rest) := by
  cases members with
  | nil => exact closes_bracket rest
  | cons member members => exact closes_comma _

theorem alternatives_append_inj {members members' : List TypeExpr}
    (hleaf : ∀ member ∈ members, member.IsLeaf) (hleaf' : ∀ member ∈ members', member.IsLeaf)
    {x y : List Char}
    (h : (members.map (leafText json)).flatMap (commaSpace ++ ·) ++ ']' :: x =
      (members'.map (leafText json)).flatMap (commaSpace ++ ·) ++ ']' :: y) :
    members = members' ∧ x = y := by
  induction members generalizing members' with
  | nil =>
    cases members' with
    | nil => exact ⟨rfl, (List.cons.inj h).2⟩
    | cons member' members' => exact absurd (List.cons.inj h).1 (by decide)
  | cons member members ih =>
    cases members' with
    | nil => exact absurd (List.cons.inj h).1 (by decide)
    | cons member' members' =>
      rw [List.map_cons, List.map_cons, List.flatMap_cons, List.flatMap_cons, List.append_assoc,
        List.append_assoc, List.append_assoc, List.append_assoc] at h
      obtain ⟨rfl, hrest⟩ := leafText_append_inj (hleaf member List.mem_cons_self)
        (hleaf' member' List.mem_cons_self) (closes_alternatives members x)
        (closes_alternatives members' y) (List.append_cancel_left h)
      obtain ⟨rfl, hxy⟩ := ih (fun m hm => hleaf m (List.mem_cons_of_mem _ hm))
        (fun m hm => hleaf' m (List.mem_cons_of_mem _ hm)) hrest
      exact ⟨rfl, hxy⟩

theorem joined_append_inj {members members' : List TypeExpr} (hne : members ≠ [])
    (hne' : members' ≠ []) (hleaf : ∀ member ∈ members, member.IsLeaf)
    (hleaf' : ∀ member ∈ members', member.IsLeaf) {x y : List Char}
    (h : joined (members.map (leafText json)) ++ ']' :: x =
      joined (members'.map (leafText json)) ++ ']' :: y) : members = members' ∧ x = y := by
  obtain ⟨member, members, rfl⟩ := List.exists_cons_of_ne_nil hne
  obtain ⟨member', members', rfl⟩ := List.exists_cons_of_ne_nil hne'
  refine @alternatives_append_inj json _ _ hleaf hleaf' x y ?_
  rw [List.map_cons, joined_cons, List.map_cons, joined_cons] at h
  rw [List.map_cons, List.map_cons, List.flatMap_cons, List.flatMap_cons, List.append_assoc,
    List.append_assoc, List.append_assoc, List.append_assoc, ← List.append_assoc (leafText json member),
    ← List.append_assoc (leafText json member'), h]

end Render

end Ry.Declared
