import Ry.Suppress.Directives
import Mathlib.Data.List.DropRight

/-! # Code lists

What a well-formed list of rule codes is, and that the loop over the groups of a list without
brackets reads exactly the groups which continue it.
-/

namespace Ry

/-- The codes a list names, in capitals. -/
def codesOf (list : List Char) : List (List Char) := (tokens list).map upper

/-- No entry between commas is blank, and every token is a registered code. -/
structure WellFormedList (list : List Char) : Prop where
  entries : ∀ part ∈ commaParts list, trim part ≠ []
  codes : ∀ code ∈ codesOf list, isRuleCode code = true

/-- A group that goes on with a list: it starts at a comma or with what looks like a code. -/
def continuesList (group : List Char) : Bool :=
  group.head? = some ',' || looksLikeRuleCode (firstPiece group)

/-- One space between groups, and none at a comma. -/
def joinGroup (list group : List Char) : List Char :=
  if list = [] ∨ list.getLast? = some ',' ∨ group.head? = some ',' then list ++ group
  else list ++ ' ' :: group

/-- The list that the words of a text start with. -/
def listedWords (text : List Char) : List Char :=
  ((splitWhitespace text).takeWhile continuesList).foldl joinGroup []

/-! ## Splitting -/

theorem commaParts_comma (a b : List Char) :
    commaParts (a ++ ',' :: b) = commaParts a ++ commaParts b :=
  List.splitOnP_append_cons a b (by simp)

theorem tokens_separator {c : Char} (hc : isSeparator c = true) (a b : List Char) :
    tokens (a ++ c :: b) = tokens a ++ tokens b := by
  rw [tokens, List.splitOnP_append_cons a b hc, List.filter_append]
  rfl

theorem tokens_piece {piece : List Char} (h : ∀ c ∈ piece, isSeparator c = false)
    (hne : piece ≠ []) : tokens piece = [piece] := by
  rw [tokens, List.splitOnP_eq_singleton h]
  simp [hne]

theorem piece_mem_tokens {piece : List Char} (h : ∀ c ∈ piece, isSeparator c = false)
    (hne : piece ≠ []) {more : List Char} (hmore : more.head?.all isSeparator = true) :
    piece ∈ tokens (piece ++ more) := by
  cases more with
  | nil =>
    rw [List.append_nil, tokens_piece h hne]
    exact List.mem_singleton_self piece
  | cons c more =>
    rw [tokens_separator hmore, tokens_piece h hne]
    exact List.mem_append_left _ (List.mem_singleton_self piece)

theorem readCodes_cases (list : List (List Char)) (codes : List (List Char)) :
    ((∀ token ∈ list, isRuleCode (upper token) = true) ∧
      ∃ all, readCodes list codes = .selective all ∧
        ∀ code, code ∈ all ↔ code ∈ codes ∨ code ∈ list.map upper) ∨
    ((∃ token ∈ list, isRuleCode (upper token) = false) ∧
      ∃ reason, readCodes list codes = .invalid reason) := by
  induction list generalizing codes with
  | nil => exact .inl ⟨by simp, codes, rfl, by simp⟩
  | cons token rest ih =>
    rw [readCodes]
    cases hcode : isRuleCode (upper token) with
    | false => exact .inr ⟨⟨token, by simp, hcode⟩, _, rfl⟩
    | true =>
      rw [Bool.not_true, if_neg Bool.false_ne_true]
      rcases ih (if codes.contains (upper token) then codes else codes ++ [upper token]) with
        ⟨hall, all, hread, hmem⟩ | ⟨⟨bad, hbad, hfalse⟩, reason, hread⟩
      · refine .inl ⟨by simpa [hcode] using hall, all, hread, fun code => ?_⟩
        rw [hmem, List.map_cons, List.mem_cons]
        by_cases hin : upper token ∈ codes
        · have hcontains : codes.contains (upper token) = true := List.contains_iff_mem.mpr hin
          rw [if_pos hcontains]
          constructor
          · rintro (h | h)
            · exact .inl h
            · exact .inr (.inr h)
          · rintro (h | rfl | h)
            · exact .inl h
            · exact .inl hin
            · exact .inr h
        · have hcontains : ¬ codes.contains (upper token) = true :=
            fun h => hin (List.contains_iff_mem.mp h)
          rw [if_neg hcontains, List.mem_append, List.mem_singleton, or_assoc]
      · exact .inr ⟨⟨bad, List.mem_cons_of_mem _ hbad, hfalse⟩, reason, hread⟩

/-! ## Blanks -/

theorem trimStart_head {cs rest : List Char} {c : Char} (h : trimStart cs = c :: rest) :
    isWhitespace c = false := by
  have hhead := List.head?_dropWhile_not isWhitespace cs
  rw [← trimStart, h] at hhead
  exact hhead

theorem trim_eq_nil_iff {cs : List Char} : trim cs = [] ↔ ∀ c ∈ cs, isWhitespace c = true := by
  rw [trim, trimEnd, List.rdropWhile_eq_nil_iff]
  constructor
  · intro h
    cases hstart : trimStart cs with
    | nil => exact List.dropWhile_eq_nil_iff.mp hstart
    | cons c rest =>
      have htrue := h c (by rw [hstart]; exact List.mem_cons_self)
      rw [trimStart_head hstart] at htrue
      cases htrue
  · intro h c hc
    exact h c ((List.dropWhile_sublist isWhitespace).mem hc)

theorem trim_head {cs rest : List Char} {c : Char} (h : trim cs = c :: rest) :
    isWhitespace c = false := by
  obtain ⟨tail, htail⟩ : trim cs <+: trimStart cs := List.rdropWhile_prefix _ _
  rw [h, List.cons_append] at htail
  exact trimStart_head htail.symm

theorem not_wellFormedList_of_part {list part : List Char} (hpart : part ∈ commaParts list)
    (h : trim part = []) : ¬ WellFormedList list :=
  fun hwf => hwf.entries part hpart h

theorem not_wellFormedList_of_blank {list : List Char} (h : trim list = []) :
    ¬ WellFormedList list := by
  apply not_wellFormedList_of_part _ h
  rw [commaParts, List.splitOnP_eq_singleton]
  · exact List.mem_singleton_self list
  · intro c hc
    have hspace := trim_eq_nil_iff.mp h c hc
    rw [decide_eq_false_iff_not]
    rintro rfl
    exact absurd hspace (by decide)

/-! ## Honored lists -/

/-- A list that is not blank is honored when it is well formed, and else it is invalid. -/
theorem readList_cases (bracket : Bool) (list : List Char) :
    (bracket = true ∧ trim list = [] ∧ readList bracket list = .all) ∨
    (WellFormedList list ∧ ∃ codes, readList bracket list = .selective codes ∧
      ∀ code, code ∈ codes ↔ code ∈ codesOf list) ∨
    (¬ WellFormedList list ∧ (bracket = true → trim list ≠ []) ∧
      ∃ reason, readList bracket list = .invalid reason) := by
  rw [readList]
  by_cases hblank : trim list = []
  · rw [if_pos hblank]
    cases bracket with
    | true => exact .inl ⟨rfl, hblank, rfl⟩
    | false => exact .inr (.inr ⟨not_wellFormedList_of_blank hblank, by simp, _, rfl⟩)
  · rw [if_neg hblank]
    by_cases hentry : (commaParts list).any (trim · = []) = true
    · rw [if_pos hentry]
      obtain ⟨part, hpart, htrim⟩ := List.any_eq_true.mp hentry
      refine .inr (.inr ⟨fun hwf => ?_, fun _ => hblank, _, rfl⟩)
      exact hwf.entries part hpart (by simpa using htrim)
    · rw [if_neg hentry]
      have hentries : ∀ part ∈ commaParts list, trim part ≠ [] := by
        intro part hpart htrim
        exact hentry (List.any_eq_true.mpr ⟨part, hpart, by simpa using htrim⟩)
      rcases readCodes_cases (tokens list) [] with
        ⟨hall, codes, hread, hmem⟩ | ⟨⟨bad, hbad, hfalse⟩, reason, hread⟩
      · refine .inr (.inl ⟨⟨hentries, ?_⟩, codes, hread, fun code => ?_⟩)
        · intro code hcode
          obtain ⟨token, htoken, rfl⟩ := List.mem_map.mp hcode
          exact hall token htoken
        · rw [hmem, codesOf]
          simp
      · refine .inr (.inr ⟨fun hwf => ?_, fun _ => hblank, reason, hread⟩)
        have := hwf.codes (upper bad) (List.mem_map_of_mem hbad)
        rw [hfalse] at this
        cases this

/-! ## The loop over groups -/

/-- What a joined list goes on with starts at a separator, unless the list ends with a comma. -/
theorem joinGroup_extends (list group : List Char) : ∃ more, joinGroup list group = list ++ more ∧
    (list ≠ [] → list.getLast? ≠ some ',' → more.head?.all isSeparator = true) := by
  rw [joinGroup]
  by_cases h : list = [] ∨ list.getLast? = some ',' ∨ group.head? = some ','
  · rw [if_pos h]
    refine ⟨group, rfl, fun hne hlast => ?_⟩
    rcases h with h | h | h
    · exact absurd h hne
    · exact absurd h hlast
    · rw [h]
      decide
  · rw [if_neg h]
    exact ⟨' ' :: group, rfl, fun _ _ => by simp [isSeparator]⟩

theorem foldl_joinGroup_extends (groups : List (List Char)) (list : List Char) :
    ∃ more, groups.foldl joinGroup list = list ++ more ∧
      (list ≠ [] → list.getLast? ≠ some ',' → more.head?.all isSeparator = true) := by
  induction groups generalizing list with
  | nil => exact ⟨[], by simp, fun _ _ => rfl⟩
  | cons group groups ih =>
    obtain ⟨first, hfirst, hsep⟩ := joinGroup_extends list group
    obtain ⟨rest, hrest, hsep'⟩ := ih (joinGroup list group)
    refine ⟨first ++ rest, by rw [List.foldl_cons, hrest, hfirst, List.append_assoc], ?_⟩
    intro hne hlast
    cases first with
    | nil =>
      rw [List.append_nil] at hfirst
      rw [hfirst] at hsep'
      exact hsep' hne hlast
    | cons c first => exact hsep hne hlast

theorem not_wellFormedList_comma (rest : List Char) : ¬ WellFormedList (',' :: rest) := by
  have hpart : [] ∈ commaParts (',' :: rest) := by
    rw [← List.nil_append (',' :: rest), commaParts_comma]
    simp [commaParts]
  exact not_wellFormedList_of_part hpart rfl

theorem not_wellFormedList_comma_end (list : List Char) : ¬ WellFormedList (list ++ [',']) := by
  have hpart : [] ∈ commaParts (list ++ [',']) := by
    rw [commaParts_comma]
    simp [commaParts]
  exact not_wellFormedList_of_part hpart rfl

theorem not_wellFormedList_comma_comma (list rest : List Char) :
    ¬ WellFormedList (list ++ ',' :: ',' :: rest) := by
  have hpart : [] ∈ commaParts (list ++ ',' :: ',' :: rest) := by
    rw [commaParts_comma, ← List.nil_append (',' :: rest), commaParts_comma]
    simp [commaParts]
  exact not_wellFormedList_of_part hpart rfl

theorem rules_look_like_codes : ∀ r ∈ rules, looksLikeRuleCode r.code.toList = true ∧
    upper r.code.toList = r.code.toList := by
  decide

theorem looksLikeRuleCode_of_isRuleCode {token : List Char} (h : isRuleCode (upper token) = true) :
    looksLikeRuleCode token = true := by
  rw [isRuleCode, Option.any_eq_true] at h
  obtain ⟨r, hfind, hcode⟩ := h
  obtain ⟨hlooks, hupper⟩ := rules_look_like_codes r (List.mem_of_find?_eq_some hfind)
  have heq : r.code.toList = upper token := by simpa using hcode
  rw [looksLikeRuleCode, hupper, heq] at hlooks
  exact hlooks

/-- After a comma, a word that does not look like a code leaves no honored list. -/
theorem not_wellFormedList_word {list word rest : List Char}
    (hword : ∀ c ∈ word, isWhitespace c = false) (hlooks : looksLikeRuleCode (firstPiece word) = false)
    (hne : word ≠ []) (hrest : word.getLast? ≠ some ',' → rest.head?.all isSeparator = true) :
    ¬ WellFormedList (list ++ ',' :: (word ++ rest)) := by
  obtain ⟨piece, hpiece⟩ : ∃ piece, firstPiece word = piece := ⟨_, rfl⟩
  have hcut : word = piece ++ word.dropWhile (· ≠ ',') := by
    rw [← hpiece, firstPiece, List.takeWhile_append_dropWhile]
  cases piece with
  | nil =>
    -- the word itself starts with a comma
    cases word with
    | nil => exact absurd rfl hne
    | cons c word =>
      have hc : c = ',' := by
        by_contra hc
        rw [firstPiece, List.takeWhile_cons_of_pos (by simpa using hc)] at hpiece
        cases hpiece
      rw [hc]
      exact not_wellFormedList_comma_comma list (word ++ rest)
  | cons c piece =>
    intro hwf
    have hpieces : ∀ d ∈ c :: piece, isSeparator d = false := by
      intro d hd
      rw [← hpiece, firstPiece] at hd
      have hcomma : d ≠ ',' := by simpa using List.mem_takeWhile_imp hd
      have hspace := hword d ((List.takeWhile_sublist _).mem hd)
      rw [isSeparator]
      simp only [Bool.or_eq_false_iff, decide_eq_false_iff_not]
      refine ⟨⟨hcomma, ?_⟩, ?_⟩
      · rintro rfl
        exact absurd hspace (by decide)
      · rintro rfl
        exact absurd hspace (by decide)
    -- what follows the piece starts at a separator
    have hmore : (word.dropWhile (· ≠ ',') ++ rest).head?.all isSeparator = true := by
      cases htail : word.dropWhile (· ≠ ',') with
      | nil =>
        rw [htail, List.append_nil] at hcut
        apply hrest
        intro hlast
        have hmem : ',' ∈ word := List.mem_of_getLast? hlast
        rw [hcut] at hmem
        exact absurd (hpieces ',' hmem) (by decide)
      | cons d tail =>
        have hd := List.head?_dropWhile_not (fun x : Char => decide (x ≠ ',')) word
        rw [htail] at hd
        have hcomma : d = ',' := by simpa using hd
        rw [hcomma]
        rfl
    have htoken : c :: piece ∈ tokens (list ++ ',' :: (word ++ rest)) := by
      rw [tokens_separator (by decide), hcut, List.append_assoc]
      exact List.mem_append_right _ (piece_mem_tokens hpieces (List.cons_ne_nil c piece) hmore)
    have hcode := looksLikeRuleCode_of_isRuleCode
      (hwf.codes (upper (c :: piece)) (List.mem_map_of_mem htoken))
    rw [← hpiece, hlooks] at hcode
    cases hcode

theorem takeWhile_continues {group : List Char} {groups : List (List Char)}
    (h : continuesList group = true) (list : List Char) :
    ((group :: groups).takeWhile continuesList).foldl joinGroup list =
      (groups.takeWhile continuesList).foldl joinGroup (joinGroup list group) := by
  rw [List.takeWhile_cons_of_pos h, List.foldl_cons]

/-- The loop reads the groups that continue the list; where it fails, the list they make is not
well formed. -/
theorem readGroups_cases (groups : List (List Char)) (list : List Char) (pending : Bool)
    (hwords : ∀ group ∈ groups, group ≠ [] ∧ ∀ c ∈ group, isWhitespace c = false)
    (hpending : pending = decide (list.getLast? = some ',')) :
    (readGroups groups list pending =
        .ok ((groups.takeWhile continuesList).foldl joinGroup list,
          decide (((groups.takeWhile continuesList).foldl joinGroup list).getLast? = some ','))) ∨
      (∃ reason, readGroups groups list pending = .error reason) ∧
        ¬ WellFormedList ((groups.takeWhile continuesList).foldl joinGroup list) := by
  induction groups generalizing list pending with
  | nil => exact .inl (by rw [readGroups, hpending]; rfl)
  | cons group groups ih =>
    obtain ⟨hgroup, hspace⟩ := hwords group List.mem_cons_self
    have ih := fun list pending => ih list pending fun g hg => hwords g (List.mem_cons_of_mem _ hg)
    cases group with
    | nil => exact absurd rfl hgroup
    | cons c word =>
      rw [readGroups]
      by_cases hc : c = ','
      · subst hc
        have hcontinues : continuesList (',' :: word) = true := rfl
        rw [takeWhile_continues hcontinues]
        have hjoin : joinGroup list (',' :: word) = list ++ ',' :: word := by simp [joinGroup]
        rw [hjoin]
        by_cases hstop : list = [] ∨ pending = true
        · -- an entry is missing before the comma
          refine .inr ⟨⟨emptyEntry, by simp [hstop]⟩, ?_⟩
          obtain ⟨more, hmore, -⟩ :=
            foldl_joinGroup_extends (groups.takeWhile continuesList) (list ++ ',' :: word)
          rw [hmore, List.append_assoc, List.cons_append]
          rcases hstop with rfl | hlast
          · exact not_wellFormedList_comma _
          · rw [hpending, decide_eq_true_eq] at hlast
            obtain ⟨init, rfl⟩ := List.getLast?_eq_some_iff.mp hlast
            rw [List.append_assoc]
            exact not_wellFormedList_comma_comma init _
        · obtain ⟨hlist, hpend⟩ := not_or.mp hstop
          rw [Bool.not_eq_true] at hpend
          subst hpend
          cases word with
          | nil =>
            simpa [hlist] using ih (list ++ [',']) true (by simp)
          | cons d word =>
            have hlastWord : (list ++ ',' :: d :: word).getLast? = (d :: word).getLast? := by
              rw [List.getLast?_append, List.getLast?_cons_cons, List.getLast?_cons]
              rfl
            cases hlooks : looksLikeRuleCode (firstPiece (d :: word)) with
            | false =>
              refine .inr ⟨⟨_, by simp [hlist, hlooks]; rfl⟩, ?_⟩
              obtain ⟨more, hmore, hsep⟩ :=
                foldl_joinGroup_extends (groups.takeWhile continuesList) (list ++ ',' :: d :: word)
              rw [hmore, List.append_assoc, List.cons_append]
              apply not_wellFormedList_word (fun x hx => hspace x (List.mem_cons_of_mem _ hx)) hlooks
                (List.cons_ne_nil d word)
              intro hlast
              exact hsep (by simp) (by rwa [hlastWord])
            | true =>
              have h := ih (list ++ ',' :: d :: word) (decide ((d :: word).getLast? = some ','))
                (by rw [hlastWord])
              simpa [hlist, hlooks] using h
      · cases hlooks : looksLikeRuleCode (firstPiece (c :: word)) with
        | false =>
          have hstops : continuesList (c :: word) = false := by simp [continuesList, hc, hlooks]
          rw [List.takeWhile_cons_of_neg (by simp [hstops]), List.foldl_nil]
          cases hpend : pending with
          | false => exact .inl (by simp [hc, hlooks, ← hpending, hpend])
          | true =>
            refine .inr ⟨⟨_, by simp [hc, hlooks]; rfl⟩, ?_⟩
            rw [hpend, eq_comm, decide_eq_true_eq] at hpending
            obtain ⟨init, rfl⟩ := List.getLast?_eq_some_iff.mp hpending
            exact not_wellFormedList_comma_end init
        | true =>
          have hcontinues : continuesList (c :: word) = true := by simp [continuesList, hlooks]
          rw [takeWhile_continues hcontinues]
          have hjoin : (if list ≠ [] ∧ (!pending) = true then list ++ [' '] else list) ++ c :: word
              = joinGroup list (c :: word) := by
            rw [joinGroup, hpending]
            by_cases hlist : list = []
            · simp [hlist]
            · by_cases hlast : list.getLast? = some ','
              · simp [hlast]
              · simp [hlist, hlast, hc]
          have hlast : (joinGroup list (c :: word)).getLast? = (c :: word).getLast? := by
            rw [← hjoin, List.getLast?_append, List.getLast?_cons]
            rfl
          have h := ih (joinGroup list (c :: word)) (decide ((c :: word).getLast? = some ','))
            (by rw [hlast])
          rw [← hjoin] at h ⊢
          simpa [hc, hlooks] using h

end Ry
