import Mathlib.Data.List.Basic
import Mathlib.Tactic.IntervalCases

/-! # Texts that show where they end

Two texts followed by anything are told apart by a character that neither has before its end.
A spelling is `Delimited` when it needs no such character: what follows it can be cut off.
A quoted string, its quotes and control characters escaped, is delimited.
-/

/-- What follows a spelling is cut off in one way. -/
def Delimited {A B : Type} (spell : A → List B) : Prop :=
  ∀ a b x y, spell a ++ x = spell b ++ y → a = b ∧ x = y

/-- Two runs of `p` items that go on with something else, or not at all. -/
theorem append_inj_of_run {A : Type} {p : A → Prop} {a b x y : List A} (ha : ∀ c ∈ a, p c)
    (hb : ∀ c ∈ b, p c) (hx : ∀ c ∈ x.head?, ¬ p c) (hy : ∀ c ∈ y.head?, ¬ p c)
    (h : a ++ x = b ++ y) : a = b ∧ x = y := by
  induction a generalizing b with
  | nil =>
    cases b with
    | nil => exact ⟨rfl, h⟩
    | cons c b =>
      rw [List.nil_append] at h
      exact absurd (hb c List.mem_cons_self) (hx c (by rw [h]; rfl))
  | cons c a ih =>
    cases b with
    | nil =>
      rw [List.nil_append] at h
      exact absurd (ha c List.mem_cons_self) (hy c (by rw [← h]; rfl))
    | cons d b =>
      obtain ⟨rfl, hrest⟩ := List.cons.inj h
      obtain ⟨rfl, rfl⟩ := ih (fun e he => ha e (List.mem_cons_of_mem _ he))
        (fun e he => hb e (List.mem_cons_of_mem _ he)) hrest
      exact ⟨rfl, rfl⟩

/-- Two texts before a separator that neither has. -/
theorem append_inj_of_separator {A : Type} {s : A} {a b x y : List A} (ha : s ∉ a) (hb : s ∉ b)
    (h : a ++ s :: x = b ++ s :: y) : a = b ∧ x = y := by
  have hstop : ∀ z : List A, ∀ c ∈ (s :: z).head?, ¬ c ≠ s := by
    intro z c hc hne
    exact hne (Option.some.inj hc).symm
  obtain ⟨hab, hxy⟩ := @append_inj_of_run _ (· ≠ s) a b (s :: x) (s :: y)
    (fun c hc hne => ha (hne ▸ hc)) (fun c hc hne => hb (hne ▸ hc)) (hstop x) (hstop y) h
  exact ⟨hab, (List.cons.inj hxy).2⟩

/-- A text is not found across the end of another, where its last item does not come after. -/
theorem infix_append_left {A : Type} {w a b : List A} {x : A} (hlast : w.getLast? = some x)
    (hb : x ∉ b) : w <:+: a ++ b ↔ w <:+: a := by
  constructor
  · rintro ⟨before, after, heq⟩
    rcases List.append_eq_append_iff.mp heq with ⟨mid, ha, -⟩ | ⟨mid, hmid, hb'⟩
    · exact ⟨before, mid, ha.symm⟩
    · have hnil : mid = [] := by
        by_contra hne
        have hw : w ≠ [] := by
          rintro rfl
          cases hlast
        have hx : mid.getLast hne = x := by
          have h := congrArg List.getLast? hmid
          rw [List.getLast?_append_of_ne_nil _ hne, List.getLast?_append_of_ne_nil _ hw, hlast,
            List.getLast?_eq_some_getLast hne] at h
          exact (Option.some.inj h).symm
        exact hb (hb' ▸ List.mem_append_left _ (hx ▸ List.getLast_mem hne))
      rw [hnil, List.append_nil] at hmid
      exact ⟨before, [], by rw [List.append_nil, hmid]⟩
  · intro h
    exact h.trans (List.prefix_append a b).isInfix

theorem infix_append_right {A : Type} {w a b : List A} {x : A} (hhead : w.head? = some x)
    (ha : x ∉ a) : w <:+: a ++ b ↔ w <:+: b := by
  constructor
  · rintro ⟨before, after, heq⟩
    rw [List.append_assoc] at heq
    rcases List.append_eq_append_iff.mp heq with ⟨mid, ha', hmid⟩ | ⟨mid, -, hb⟩
    · cases mid with
      | nil => exact ⟨[], after, hmid⟩
      | cons c mid =>
        have hc : c = x := by
          cases w with
          | nil => cases hhead
          | cons d w => exact (List.cons.inj hmid).1.symm.trans (Option.some.inj hhead)
        exact absurd (ha' ▸ hc ▸ List.mem_append_right _ List.mem_cons_self) ha
    · exact ⟨mid, after, by rw [List.append_assoc]; exact hb.symm⟩
  · intro h
    exact h.trans (List.suffix_append a b).isInfix

/-! ## Quoted strings -/

def hexDigit (n : Nat) : Char := Nat.digitChar n

/-- A character inside the quotes. -/
def escapeChar (c : Char) : List Char :=
  if c = '"' then ['\\', '"']
  else if c = '\\' then ['\\', '\\']
  else if c = '\n' then ['\\', 'n']
  else if c = '\r' then ['\\', 'r']
  else if c = '\t' then ['\\', 't']
  else if c.toNat = 8 then ['\\', 'b']
  else if c.toNat = 12 then ['\\', 'f']
  else if c.toNat < 32 then
    ['\\', 'u', '0', '0', hexDigit (c.toNat / 16), hexDigit (c.toNat % 16)]
  else [c]

def quoteString (text : List Char) : List Char := '"' :: (text.flatMap escapeChar ++ ['"'])

/-- The first character of an escaped text, and the rest of it. -/
def unescapeChar : List Char → Option (Char × List Char)
  | '\\' :: 'u' :: '0' :: '0' :: high :: low :: rest =>
    some (Char.ofNat (16 * (high.toNat - 48) +
      if low.toNat < 58 then low.toNat - 48 else low.toNat - 87), rest)
  | '\\' :: 'n' :: rest => some ('\n', rest)
  | '\\' :: 'r' :: rest => some ('\r', rest)
  | '\\' :: 't' :: rest => some ('\t', rest)
  | '\\' :: 'b' :: rest => some (Char.ofNat 8, rest)
  | '\\' :: 'f' :: rest => some (Char.ofNat 12, rest)
  | '\\' :: c :: rest => some (c, rest)
  | c :: rest => some (c, rest)
  | [] => none

theorem unescapeChar_escapeChar (c : Char) (rest : List Char) :
    unescapeChar (escapeChar c ++ rest) = some (c, rest) := by
  unfold escapeChar
  by_cases hquote : c = '"'
  · subst hquote
    rfl
  by_cases hslash : c = '\\'
  · subst hslash
    rfl
  by_cases hnewline : c = '\n'
  · subst hnewline
    rfl
  by_cases hreturn : c = '\r'
  · subst hreturn
    rfl
  by_cases htab : c = '\t'
  · subst htab
    rfl
  rw [if_neg hquote, if_neg hslash, if_neg hnewline, if_neg hreturn, if_neg htab]
  by_cases hcontrol : c.toNat < 32
  · obtain ⟨n, hn⟩ : ∃ n, n = c.toNat := ⟨_, rfl⟩
    have hc : c = Char.ofNat n := by rw [hn, Char.ofNat_toNat]
    rw [← hn] at hcontrol ⊢
    subst hc
    interval_cases n <;> rfl
  · rw [if_neg (by omega), if_neg (by omega), if_neg hcontrol]
    unfold unescapeChar
    split <;> simp_all

theorem escapeChar_head (c : Char) (rest : List Char) :
    (escapeChar c ++ rest).head? ≠ some '"' := by
  intro hhead
  unfold escapeChar at hhead
  split at hhead
  · exact absurd (Option.some.inj hhead) (by decide)
  · rename_i hquote
    repeat' split at hhead
    all_goals first
      | exact absurd (Option.some.inj hhead) (by decide)
      | exact hquote (Option.some.inj hhead)

theorem quoteString_delimited : Delimited quoteString := by
  intro a b x y h
  have hbody : a.flatMap escapeChar ++ '"' :: x = b.flatMap escapeChar ++ '"' :: y := by
    simpa [quoteString] using h
  clear h
  induction a generalizing b with
  | nil =>
    cases b with
    | nil => exact ⟨rfl, (List.cons.inj hbody).2⟩
    | cons d b =>
      rw [List.flatMap_cons, List.append_assoc] at hbody
      exact absurd (congrArg List.head? hbody).symm (escapeChar_head d _)
  | cons c a ih =>
    cases b with
    | nil =>
      rw [List.flatMap_cons, List.append_assoc] at hbody
      exact absurd (congrArg List.head? hbody) (escapeChar_head c _)
    | cons d b =>
      rw [List.flatMap_cons, List.flatMap_cons, List.append_assoc, List.append_assoc] at hbody
      have hread := congrArg unescapeChar hbody
      rw [unescapeChar_escapeChar, unescapeChar_escapeChar] at hread
      obtain ⟨rfl, hrest⟩ := Prod.mk.inj (Option.some.inj hread)
      obtain ⟨rfl, rfl⟩ := ih b hrest
      exact ⟨rfl, rfl⟩
