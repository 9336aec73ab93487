import Ry.Suppress.Lists
import Ry.Lib.Lines

/-! # Directives are conservative

Which texts after a marker drop every rule and which list they drop codes of, stated on the text;
and that the parsers of the native and the `noqa` directives read exactly these.
-/

namespace Ry

/-- The first word of a text, up to a comma. -/
def firstWord (text : List Char) : List Char :=
  text.takeWhile fun c => c ≠ ',' && !isWhitespace c

/-- The forms that drop every rule, of the trimmed text after a marker. -/
inductive AllRules : SuppressionOrigin → List Char → Prop
  | bare {origin} : AllRules origin []
  | emptyList {list suffix} : ']' ∉ list → trim list = [] → bracketSuffixIsProse suffix = true →
      AllRules .ry ('[' :: (list ++ ']' :: suffix))
  | prose {c rest} : c ≠ '[' → c ≠ ':' → c ≠ ',' →
      looksLikeRuleCode (firstWord (c :: rest)) = false → AllRules .ry (c :: rest)

/-- The list of codes that the trimmed text after a marker writes. -/
inductive ListsCodes : SuppressionOrigin → List Char → List Char → Prop
  | bracket {origin list suffix} : ']' ∉ list → bracketSuffixIsProse suffix = true →
      ListsCodes origin ('[' :: (list ++ ']' :: suffix)) list
  | colon {origin list} : ListsCodes origin (':' :: list) (trim list)
  | words {text} : looksLikeRuleCode (firstWord text) = true → ListsCodes .ry text (listedWords text)
  | foreign {c rest} : c ≠ '[' → c ≠ ':' → ListsCodes .noqa (c :: rest) (trim (c :: rest))

/-- A native list counts as a whole or not at all; `noqa` shares its lists with other tools. -/
def HonoredList : SuppressionOrigin → List Char → Prop
  | .ry, list => WellFormedList list
  | .noqa, _ => True

/-- The text lists the known code. -/
def CoversCode (origin : SuppressionOrigin) (text code : List Char) : Prop :=
  ∃ list, ListsCodes origin text list ∧ HonoredList origin list ∧ isRuleCode code = true ∧
    code ∈ codesOf list

/-- No form of a native directive. -/
def MalformedDirective (text : List Char) : Prop :=
  ¬ AllRules .ry text ∧ ∀ list, ListsCodes .ry text list → ¬ WellFormedList list

/-! ## Cutting a list out of its text -/

theorem bracket_unique {list list' suffix suffix' : List Char} (h : ']' ∉ list) (h' : ']' ∉ list')
    (heq : list ++ ']' :: suffix = list' ++ ']' :: suffix') : list = list' ∧ suffix = suffix' := by
  induction list generalizing list' with
  | nil =>
    cases list' with
    | nil => exact ⟨rfl, by simpa using heq⟩
    | cons c list' =>
      obtain ⟨rfl, -⟩ := List.cons.inj heq
      exact absurd List.mem_cons_self h'
  | cons c list ih =>
    cases list' with
    | nil =>
      obtain ⟨rfl, -⟩ := List.cons.inj heq
      exact absurd List.mem_cons_self h
    | cons c' list' =>
      obtain ⟨rfl, htail⟩ := List.cons.inj heq
      obtain ⟨rfl, hsuffix⟩ :=
        ih (fun hm => h (List.mem_cons_of_mem _ hm)) (fun hm => h' (List.mem_cons_of_mem _ hm)) htail
      exact ⟨rfl, hsuffix⟩

theorem looksLikeRuleCode_nil : looksLikeRuleCode [] = false := rfl

theorem firstWord_comma (rest : List Char) : firstWord (',' :: rest) = [] := rfl

/-- A word that starts with punctuation is no code. -/
theorem not_looksLikeRuleCode_cons {c : Char} (hc : c.toUpper.isAlphanum = false)
    (word : List Char) : looksLikeRuleCode (c :: word) = false := by
  simp [looksLikeRuleCode, upper, hc]

theorem not_looksLike_bracket (rest : List Char) :
    looksLikeRuleCode (firstWord ('[' :: rest)) = false :=
  not_looksLikeRuleCode_cons (by decide) _

theorem not_looksLike_colon (rest : List Char) :
    looksLikeRuleCode (firstWord (':' :: rest)) = false :=
  not_looksLikeRuleCode_cons (by decide) _

/-! ## What the forms say of a text of each shape -/

theorem allRules_bracket {list suffix : List Char} (hlist : ']' ∉ list) :
    AllRules .ry ('[' :: (list ++ ']' :: suffix)) ↔
      trim list = [] ∧ bracketSuffixIsProse suffix = true := by
  constructor
  · intro h
    generalize htext : '[' :: (list ++ ']' :: suffix) = text at h
    cases h with
    | bare => cases htext
    | emptyList hlist' hblank hsuffix =>
      obtain ⟨-, htail⟩ := List.cons.inj htext
      obtain ⟨rfl, rfl⟩ := bracket_unique hlist hlist' htail
      exact ⟨hblank, hsuffix⟩
    | prose hc => exact absurd (List.cons.inj htext).1.symm hc
  · rintro ⟨hblank, hsuffix⟩
    exact .emptyList hlist hblank hsuffix

theorem lists_bracket {origin : SuppressionOrigin} {list suffix list' : List Char}
    (hlist : ']' ∉ list) :
    ListsCodes origin ('[' :: (list ++ ']' :: suffix)) list' ↔
      list' = list ∧ bracketSuffixIsProse suffix = true := by
  constructor
  · intro h
    generalize htext : '[' :: (list ++ ']' :: suffix) = text at h
    cases h with
    | bracket hlist' hsuffix =>
      obtain ⟨-, htail⟩ := List.cons.inj htext
      obtain ⟨rfl, rfl⟩ := bracket_unique hlist hlist' htail
      exact ⟨rfl, hsuffix⟩
    | colon => exact absurd (List.cons.inj htext).1 (by decide)
    | words hlooks =>
      rw [← htext, not_looksLike_bracket] at hlooks
      cases hlooks
    | foreign hc => exact absurd (List.cons.inj htext).1.symm hc
  · rintro ⟨rfl, hsuffix⟩
    exact .bracket hlist hsuffix

theorem not_allRules_open {after : List Char} (hafter : ']' ∉ after) :
    ¬ AllRules .ry ('[' :: after) := by
  intro h
  generalize htext : '[' :: after = text at h
  cases h with
  | bare => cases htext
  | emptyList =>
    obtain ⟨-, rfl⟩ := List.cons.inj htext
    exact hafter (by simp)
  | prose hc => exact absurd (List.cons.inj htext).1.symm hc

theorem not_lists_open {origin : SuppressionOrigin} {after list : List Char}
    (hafter : ']' ∉ after) : ¬ ListsCodes origin ('[' :: after) list := by
  intro h
  generalize htext : '[' :: after = text at h
  cases h with
  | bracket =>
    obtain ⟨-, rfl⟩ := List.cons.inj htext
    exact hafter (by simp)
  | colon => exact absurd (List.cons.inj htext).1 (by decide)
  | words hlooks =>
    rw [← htext, not_looksLike_bracket] at hlooks
    cases hlooks
  | foreign hc => exact absurd (List.cons.inj htext).1.symm hc

theorem not_allRules_colon {after : List Char} : ¬ AllRules .ry (':' :: after) := by
  intro h
  cases h with
  | prose _ hc => exact hc rfl

theorem lists_colon {origin : SuppressionOrigin} {after list : List Char} :
    ListsCodes origin (':' :: after) list ↔ list = trim after := by
  constructor
  · intro h
    cases h with
    | colon => rfl
    | words hlooks =>
      rw [not_looksLike_colon] at hlooks
      cases hlooks
    | foreign _ hc => exact absurd rfl hc
  · rintro rfl
    exact .colon

theorem allRules_words {c : Char} {rest : List Char} (hb : c ≠ '[') (hc : c ≠ ':') :
    AllRules .ry (c :: rest) ↔ c ≠ ',' ∧ looksLikeRuleCode (firstWord (c :: rest)) = false := by
  constructor
  · intro h
    cases h with
    | emptyList => exact absurd rfl hb
    | prose _ _ hcomma hlooks => exact ⟨hcomma, hlooks⟩
  · rintro ⟨hcomma, hlooks⟩
    exact .prose hb hc hcomma hlooks

theorem lists_words {c : Char} {rest list : List Char} (hb : c ≠ '[') (hc : c ≠ ':') :
    ListsCodes .ry (c :: rest) list ↔
      list = listedWords (c :: rest) ∧ looksLikeRuleCode (firstWord (c :: rest)) = true := by
  constructor
  · intro h
    cases h with
    | bracket => exact absurd rfl hb
    | colon => exact absurd rfl hc
    | words hlooks => exact ⟨rfl, hlooks⟩
  · rintro ⟨rfl, hlooks⟩
    exact .words hlooks

theorem lists_foreign {c : Char} {rest list : List Char} (hb : c ≠ '[') (hc : c ≠ ':') :
    ListsCodes .noqa (c :: rest) list ↔ list = trim (c :: rest) := by
  constructor
  · intro h
    cases h with
    | bracket => exact absurd rfl hb
    | colon => exact absurd rfl hc
    | foreign => rfl
  · rintro rfl
    exact .foreign hb hc

theorem allRules_noqa {text : List Char} : AllRules .noqa text ↔ text = [] := by
  constructor
  · intro h
    cases h with
    | bare => rfl
  · rintro rfl
    exact .bare

/-! ## The native parser -/

/-- The outcomes of a native parser, each with the form of the text it stands for. -/
def NativeOutcome (text : List Char) (kind : SuppressionKind) : Prop :=
  (AllRules .ry text ∧ (∀ list, ListsCodes .ry text list → ¬ WellFormedList list) ∧ kind = .all) ∨
  (¬ AllRules .ry text ∧ ∃ list codes, ListsCodes .ry text list ∧ WellFormedList list ∧
    (∀ list', ListsCodes .ry text list' → list' = list) ∧
    kind = .selective codes ∧ ∀ code, code ∈ codes ↔ code ∈ codesOf list) ∨
  (MalformedDirective text ∧ ∃ reason, kind = .invalid reason)

/-- Of a text that writes one list and no all-rules form but the blank bracket. -/
theorem NativeOutcome.of_list {text list : List Char} {bracket : Bool}
    (hlists : ∀ list', ListsCodes .ry text list' ↔ list' = list)
    (hall : AllRules .ry text ↔ bracket = true ∧ trim list = []) :
    NativeOutcome text (readList bracket list) := by
  rcases readList_cases bracket list with
    ⟨hbracket, hblank, hread⟩ | ⟨hwf, codes, hread, hcodes⟩ | ⟨hwf, hblank, reason, hread⟩
  · refine .inl ⟨hall.mpr ⟨hbracket, hblank⟩, fun list' h => ?_, hread⟩
    rw [(hlists list').mp h]
    exact not_wellFormedList_of_blank hblank
  · refine .inr (.inl ⟨fun h => ?_, list, codes, (hlists list).mpr rfl, hwf,
      fun list' => (hlists list').mp, hread, hcodes⟩)
    exact not_wellFormedList_of_blank (hall.mp h).2 hwf
  · refine .inr (.inr ⟨⟨fun h => ?_, fun list' h => ?_⟩, reason, hread⟩)
    · obtain ⟨hbracket, htrim⟩ := hall.mp h
      exact hblank hbracket htrim
    · rw [(hlists list').mp h]
      exact hwf

theorem NativeOutcome.malformed {text : List Char} {reason : String} (hall : ¬ AllRules .ry text)
    (hlists : ∀ list, ListsCodes .ry text list → ¬ WellFormedList list) :
    NativeOutcome text (.invalid reason) :=
  .inr (.inr ⟨⟨hall, hlists⟩, reason, rfl⟩)

/-- The words of a text that starts with one. -/
theorem splitWhitespace_head {text : List Char} {c : Char} {rest : List Char}
    (htext : text = c :: rest) (hc : isWhitespace c = false) :
    ∃ more, splitWhitespace text = text.takeWhile (!isWhitespace ·) :: more := by
  have hword : text.takeWhile (!isWhitespace ·) ≠ [] := by
    rw [htext, List.takeWhile_cons_of_pos (by simp [hc])]
    exact List.cons_ne_nil c _
  have hspace : ∀ d ∈ text.takeWhile (!isWhitespace ·), isWhitespace d = false := by
    intro d hd
    simpa using List.mem_takeWhile_imp hd
  have hcut : text = text.takeWhile (!isWhitespace ·) ++ text.dropWhile (!isWhitespace ·) :=
    List.takeWhile_append_dropWhile.symm
  generalize text.takeWhile (!isWhitespace ·) = word at hword hspace hcut ⊢
  cases hdrop : text.dropWhile (!isWhitespace ·) with
  | nil =>
    rw [hdrop, List.append_nil] at hcut
    refine ⟨[], ?_⟩
    rw [hcut, splitWhitespace, List.splitOnP_eq_singleton hspace]
    simp [hword]
  | cons d after =>
    have hd := List.head?_dropWhile_not (!isWhitespace ·) text
    rw [hdrop] at hd
    refine ⟨splitWhitespace after, ?_⟩
    rw [hcut, hdrop, splitWhitespace,
      List.splitOnP_append_cons_of_forall_mem hspace d (by simpa using hd)]
    simp [hword, splitWhitespace]

theorem splitWhitespace_words {text group : List Char} (h : group ∈ splitWhitespace text) :
    group ≠ [] ∧ ∀ c ∈ group, isWhitespace c = false := by
  rw [splitWhitespace, List.mem_filter] at h
  exact ⟨by simpa using h.2, splitOnP_piece h.1⟩

theorem firstPiece_word (text : List Char) :
    firstPiece (text.takeWhile (!isWhitespace ·)) = firstWord text := by
  rw [firstPiece, List.takeWhile_takeWhile, firstWord]
  congr 1
  funext c
  simp

/-- The parser of a text that starts with neither list form. -/
def parseWords (text : List Char) : SuppressionKind :=
  let firstGroup := (splitWhitespace text).headD []
  if firstGroup.head? = some ',' then .invalid emptyEntry
  else if !looksLikeRuleCode (firstPiece firstGroup) then .all
  else
    match readGroups (splitWhitespace text) [] false with
    | .error reason => .invalid reason
    | .ok (_, true) => .invalid emptyEntry
    | .ok (list, false) => readList false list

theorem parseNativeCodes_words {text rest : List Char} {c : Char} (h : trim text = c :: rest)
    (hb : c ≠ '[') (hc : c ≠ ':') : parseNativeCodes text = parseWords (c :: rest) := by
  rw [parseNativeCodes, h]
  split
  · contradiction
  · rename_i heq
    exact absurd (List.cons.inj heq).1 hb
  · rename_i heq
    exact absurd (List.cons.inj heq).1 hc
  · rfl

theorem parseWords_outcome {c : Char} {rest : List Char} (hspace : isWhitespace c = false)
    (hb : c ≠ '[') (hc : c ≠ ':') : NativeOutcome (c :: rest) (parseWords (c :: rest)) := by
  obtain ⟨more, hsplit⟩ := splitWhitespace_head (rfl : c :: rest = c :: rest) hspace
  have hgroup : (splitWhitespace (c :: rest)).headD [] = (c :: rest).takeWhile (!isWhitespace ·) := by
    rw [hsplit]
    rfl
  have hhead : ((c :: rest).takeWhile (!isWhitespace ·)).head? = some c := by
    rw [List.takeWhile_cons_of_pos (by simp [hspace])]
    rfl
  rw [parseWords, hgroup, hhead, firstPiece_word]
  by_cases hcomma : c = ','
  · subst hcomma
    rw [if_pos rfl]
    refine .malformed (fun h => ((allRules_words hb hc).mp h).1 rfl) fun list h => ?_
    have hlooks := ((lists_words hb hc).mp h).2
    rw [firstWord_comma] at hlooks
    cases hlooks
  · rw [if_neg (by simpa using hcomma)]
    cases hlooks : looksLikeRuleCode (firstWord (c :: rest)) with
    | false =>
      refine .inl ⟨(allRules_words hb hc).mpr ⟨hcomma, hlooks⟩, fun list h => ?_, rfl⟩
      rw [((lists_words hb hc).mp h).2] at hlooks
      cases hlooks
    | true =>
      have hall : ¬ AllRules .ry (c :: rest) := fun h => by
        rw [((allRules_words hb hc).mp h).2] at hlooks
        cases hlooks
      have hlists : ∀ list, ListsCodes .ry (c :: rest) list ↔ list = listedWords (c :: rest) := by
        intro list
        rw [lists_words hb hc, and_iff_left hlooks]
      rw [Bool.not_true, if_neg Bool.false_ne_true]
      rcases readGroups_cases (splitWhitespace (c :: rest)) [] false
          (fun group hgroup => splitWhitespace_words hgroup) rfl with
        hread | ⟨⟨reason, hread⟩, hwf⟩
      · have hkind : readGroups (splitWhitespace (c :: rest)) [] false =
            .ok (listedWords (c :: rest),
              decide ((listedWords (c :: rest)).getLast? = some ',')) := hread
        rw [hkind]
        cases hlast : decide ((listedWords (c :: rest)).getLast? = some ',') with
        | false => exact .of_list hlists (by simp [hall])
        | true =>
          refine .malformed hall fun list h => ?_
          obtain ⟨init, hinit⟩ := List.getLast?_eq_some_iff.mp (of_decide_eq_true hlast)
          rw [(hlists list).mp h, hinit]
          exact not_wellFormedList_comma_end init
      · rw [hread]
        refine .malformed hall fun list h => ?_
        rw [(hlists list).mp h]
        exact hwf

theorem parseNativeCodes_outcome (text : List Char) :
    NativeOutcome (trim text) (parseNativeCodes text) := by
  cases htext : trim text with
  | nil =>
    have hkind : parseNativeCodes text = .all := by simp only [parseNativeCodes, htext]
    refine .inl ⟨.bare, fun list h => ?_, hkind⟩
    cases h with
    | words hlooks => cases hlooks
  | cons c rest =>
    by_cases hb : c = '['
    · subst hb
      simp only [parseNativeCodes, htext]
      by_cases hclose : ']' ∈ rest
      · rw [if_neg (not_not.mpr hclose)]
        obtain ⟨hcut, hlist⟩ := cut_at hclose
        generalize rest.takeWhile (· ≠ ']') = list at hcut hlist ⊢
        generalize (rest.dropWhile (· ≠ ']')).tail = suffix at hcut ⊢
        subst hcut
        cases hsuffix : bracketSuffixIsProse suffix with
        | false =>
          refine .malformed (fun h => ?_) fun list' h => ?_
          · rw [((allRules_bracket hlist).mp h).2] at hsuffix
            cases hsuffix
          · rw [((lists_bracket hlist).mp h).2] at hsuffix
            cases hsuffix
        | true =>
          apply NativeOutcome.of_list
          · intro list'
            rw [lists_bracket hlist, and_iff_left hsuffix]
          · rw [allRules_bracket hlist, and_iff_left hsuffix]
            simp
      · rw [if_pos hclose]
        exact .malformed (not_allRules_open hclose) fun list h => absurd h (not_lists_open hclose)
    · by_cases hc : c = ':'
      · subst hc
        simp only [parseNativeCodes, htext]
        apply NativeOutcome.of_list (fun list => lists_colon)
        simp [not_allRules_colon]
      · rw [parseNativeCodes_words htext hb hc]
        exact parseWords_outcome (trim_head htext) hb hc

/-! ## The `noqa` parser -/

/-- The known codes of a list. -/
def selectKnown (list : List Char) : SuppressionKind :=
  if ((tokens list).map upper).filter isRuleCode = [] then .foreign
  else .selective (((tokens list).map upper).filter isRuleCode)

theorem parseNoqaCodes_words {text rest : List Char} {c : Char} (h : trim text = c :: rest)
    (hb : c ≠ '[') (hc : c ≠ ':') :
    parseNoqaCodes text = selectKnown (trim (c :: rest)) := by
  rw [parseNoqaCodes, h]
  split
  · contradiction
  · rename_i heq
    exact absurd (List.cons.inj heq).1 hb
  · rename_i heq
    exact absurd (List.cons.inj heq).1 hc
  · rfl

theorem isRuleCode_upper_mem {list : List Char} {code : List Char} :
    code ∈ ((tokens list).map upper).filter isRuleCode ↔
      isRuleCode code = true ∧ code ∈ codesOf list := by
  rw [List.mem_filter, and_comm, codesOf]

/-- What a kind stands for: the form of the text it was read from. -/
structure ReadsAs (origin : SuppressionOrigin) (text : List Char) (kind : SuppressionKind) : Prop where
  all : kind = .all ↔ AllRules origin text
  invalid : (∃ reason, kind = .invalid reason) ↔ origin = .ry ∧ MalformedDirective text
  suppresses : ∀ code, kind.suppresses code = true ↔
    suppressible code = true ∧ (AllRules origin text ∨ CoversCode origin text code.toList)

theorem suppresses_selective {codes : List (List Char)} {code : String} :
    (SuppressionKind.selective codes).suppresses code = true ↔
      suppressible code = true ∧ code.toList ∈ codes := by
  simp [SuppressionKind.suppresses]

theorem parseNativeCodes_reads (text : List Char) :
    ReadsAs .ry (trim text) (parseNativeCodes text) := by
  rcases parseNativeCodes_outcome text with
    ⟨hall, hlists, hkind⟩ | ⟨hall, list, codes, hlist, hwf, hunique, hkind, hcodes⟩ |
    ⟨hbad, reason, hkind⟩
  · rw [hkind]
    refine ⟨by simp [hall], ⟨by simp, fun h => absurd hall h.2.1⟩, fun code => ?_⟩
    simp [SuppressionKind.suppresses, hall]
  · rw [hkind]
    refine ⟨by simp [hall], ⟨by simp, fun h => absurd hwf (h.2.2 list hlist)⟩, fun code => ?_⟩
    have hcovers : CoversCode .ry (trim text) code.toList ↔ code.toList ∈ codes := by
      rw [hcodes]
      constructor
      · rintro ⟨list', hlist', -, -, hcode⟩
        rwa [hunique list' hlist'] at hcode
      · intro hcode
        exact ⟨list, hlist, hwf, hwf.codes _ hcode, hcode⟩
    rw [suppresses_selective, hcovers, or_iff_right hall]
  · rw [hkind]
    refine ⟨by simp [hbad.1], ⟨fun _ => ⟨rfl, hbad⟩, fun _ => ⟨reason, rfl⟩⟩, fun code => ?_⟩
    constructor
    · simp [SuppressionKind.suppresses]
    · rintro ⟨-, hall | ⟨list, hlist, hwf, -⟩⟩
      · exact absurd hall hbad.1
      · exact absurd hwf (hbad.2 list hlist)

theorem reads_noqa_none {text : List Char} (hne : text ≠ [])
    (hlists : ∀ list, ¬ ListsCodes .noqa text list) : ReadsAs .noqa text .foreign := by
  have hall : ¬ AllRules .noqa text := fun h => hne (allRules_noqa.mp h)
  refine ⟨by simp [hall], by simp, fun code => ?_⟩
  constructor
  · simp [SuppressionKind.suppresses]
  · rintro ⟨-, h | ⟨list, hlist, -⟩⟩
    · exact absurd h hall
    · exact absurd hlist (hlists list)

theorem reads_noqa_list {text list : List Char} (hne : text ≠ [])
    (hlists : ∀ list', ListsCodes .noqa text list' ↔ list' = list) :
    ReadsAs .noqa text (selectKnown list) := by
  have hall : ¬ AllRules .noqa text := fun h => hne (allRules_noqa.mp h)
  have hcovers : ∀ code, CoversCode .noqa text code ↔
      code ∈ ((tokens list).map upper).filter isRuleCode := by
    intro code
    rw [isRuleCode_upper_mem]
    constructor
    · rintro ⟨list', hlist', -, hcode⟩
      rwa [(hlists list').mp hlist'] at hcode
    · intro hcode
      exact ⟨list, (hlists list).mpr rfl, trivial, hcode⟩
  rw [selectKnown]
  by_cases hcodes : ((tokens list).map upper).filter isRuleCode = []
  · rw [if_pos hcodes]
    refine ⟨by simp [hall], by simp, fun code => ?_⟩
    rw [hcovers, hcodes]
    simp [SuppressionKind.suppresses, hall]
  · rw [if_neg hcodes]
    refine ⟨by simp [hall], by simp, fun code => ?_⟩
    rw [suppresses_selective, hcovers, or_iff_right hall]

theorem parseNoqaCodes_reads (text : List Char) :
    ReadsAs .noqa (trim text) (parseNoqaCodes text) := by
  cases htext : trim text with
  | nil =>
    have hkind : parseNoqaCodes text = .all := by simp only [parseNoqaCodes, htext]
    rw [hkind]
    refine ⟨by simp [AllRules.bare], by simp, fun code => ?_⟩
    simp [SuppressionKind.suppresses, AllRules.bare]
  | cons c rest =>
    by_cases hb : c = '['
    · subst hb
      simp only [parseNoqaCodes, htext]
      by_cases hclose : ']' ∈ rest
      · rw [if_neg (not_not.mpr hclose)]
        obtain ⟨hcut, hlist⟩ := cut_at hclose
        generalize rest.takeWhile (· ≠ ']') = list at hcut hlist ⊢
        generalize (rest.dropWhile (· ≠ ']')).tail = suffix at hcut ⊢
        subst hcut
        cases hsuffix : bracketSuffixIsProse suffix with
        | false =>
          refine reads_noqa_none (List.cons_ne_nil _ _) fun list' h => ?_
          rw [((lists_bracket hlist).mp h).2] at hsuffix
          cases hsuffix
        | true =>
          refine reads_noqa_list (List.cons_ne_nil _ _) fun list' => ?_
          rw [lists_bracket hlist, and_iff_left hsuffix]
      · rw [if_pos hclose]
        exact reads_noqa_none (List.cons_ne_nil _ _) fun list => not_lists_open hclose
    · by_cases hc : c = ':'
      · subst hc
        simp only [parseNoqaCodes, htext]
        exact reads_noqa_list (List.cons_ne_nil _ _) fun list => lists_colon
      · rw [parseNoqaCodes_words htext hb hc]
        exact reads_noqa_list (List.cons_ne_nil _ _) fun list => lists_foreign hb hc

/-! ## Directives and what they drop -/

def markersOf : SuppressionOrigin → List String
  | .ry => nativeMarkers
  | .noqa => ["noqa"]

/-- The body starts with a marker of the origin, in any case, and the text is what follows. -/
def MarkedBody (origin : SuppressionOrigin) (body text : List Char) : Prop :=
  ∃ start, trimStart body = start ++ text ∧
    (∃ marker ∈ markersOf origin, start.map Char.toLower = marker.toList) ∧
    markerBoundary (text.map Char.toLower) = true

theorem marked_drop {origin : SuppressionOrigin} {body rest : List Char} {marker : String}
    (hmarker : marker ∈ markersOf origin)
    (h : stripPrefix marker ((trimStart body).map Char.toLower) = some rest)
    (hboundary : markerBoundary rest = true) :
    MarkedBody origin body ((trimStart body).drop marker.toList.length) := by
  have happend : marker.toList ++ rest = (trimStart body).map Char.toLower :=
    List.append_eq_of_isPrefixOf?_eq_some h
  refine ⟨(trimStart body).take marker.toList.length, (List.take_append_drop _ _).symm,
    ⟨marker, hmarker, ?_⟩, ?_⟩
  · rw [List.map_take, ← happend, List.take_left]
  · rw [List.map_drop, ← happend, List.drop_left]
    exact hboundary

/-- A line directive is a marker and a text that reads as the directive's kind. -/
theorem parseIgnoreCommentBody_reads {body : List Char} {kind : SuppressionKind}
    {origin : SuppressionOrigin} (h : parseIgnoreCommentBody body = some (.line kind origin)) :
    ∃ text, MarkedBody origin body text ∧ ReadsAs origin (trim text) kind := by
  rw [parseIgnoreCommentBody] at h
  cases hnative : nativeMarker ((trimStart body).map Char.toLower) with
  | some found =>
    obtain ⟨marker, rest⟩ := found
    obtain ⟨marker', hmarker, hstrip⟩ := List.exists_of_findSome?_eq_some hnative
    obtain ⟨rest', hrest, heq⟩ := Option.map_eq_some_iff.mp hstrip
    obtain ⟨rfl, rfl⟩ := Prod.mk.inj heq
    simp only [hnative] at h
    cases hfile : stripPrefix "-file" rest' with
    | some fileRest =>
      simp only [hfile] at h
      split at h <;> cases h
    | none =>
      simp only [hfile] at h
      cases hboundary : markerBoundary rest' with
      | false =>
        rw [hboundary] at h
        cases h
      | true =>
        rw [hboundary] at h
        cases h
        exact ⟨_, marked_drop hmarker hrest hboundary, parseNativeCodes_reads _⟩
  | none =>
    simp only [hnative] at h
    split at h
    · rename_i hnoqa
      cases h
      obtain ⟨rest, hrest, hboundary⟩ := Option.any_eq_true _ _ |>.mp hnoqa
      exact ⟨_, marked_drop (List.mem_singleton_self "noqa") hrest hboundary,
        parseNoqaCodes_reads _⟩
    · cases h

/-- A finding is kept unless a directive of its line suppresses it or there is one for the file. -/
theorem mem_filterSuppressed {diags : List Diagnostic} {comments : List Comment} {src : List Char}
    {d : Diagnostic} :
    d ∈ filterSuppressedWithComments diags comments src ↔
      d ∈ diags ∧ hasFileSuppressionFromComments comments = false ∧
        ∀ c ∈ comments, ∀ kind origin, parseIgnoreCommentBody c.body = some (.line kind origin) →
          targetLine (sourceLines src) c kind = some d.span.line →
            kind.suppresses d.code = false := by
  rw [filterSuppressedWithComments]
  cases hfile : hasFileSuppressionFromComments comments with
  | true => simp
  | false =>
    rw [if_neg Bool.false_ne_true, List.mem_filter, Bool.not_eq_true', isSuppressed]
    refine and_congr_right fun _ => ?_
    rw [List.any_eq_false, eq_self, true_and]
    constructor
    · intro hkept c hc kind origin hparse htarget
      have hmem : ⟨d.span.line, commentSpan c src, origin, kind⟩ ∈
          parseSuppressionsFromComments comments src := by
        rw [parseSuppressionsFromComments, List.mem_filterMap]
        exact ⟨c, hc, by simp only [hparse, htarget]; rfl⟩
      simpa [Suppression.suppresses] using hkept _ hmem
    · intro hkept s hs
      rw [parseSuppressionsFromComments, List.mem_filterMap] at hs
      obtain ⟨c, hc, hs⟩ := hs
      cases hparse : parseIgnoreCommentBody c.body with
      | none =>
        rw [hparse] at hs
        cases hs
      | some directive =>
        cases directive with
        | file =>
          rw [hparse] at hs
          cases hs
        | line kind origin =>
          rw [hparse] at hs
          obtain ⟨line, htarget, rfl⟩ := Option.map_eq_some_iff.mp hs
          simp only [Suppression.suppresses, Bool.and_eq_true, decide_eq_true_eq, not_and,
            Bool.not_eq_true]
          rintro rfl
          exact hkept c hc kind origin hparse htarget

theorem suppresses_audit {code : String} (h : suppressible code = false) (kind : SuppressionKind) :
    kind.suppresses code = false := by
  cases kind <;> simp [SuppressionKind.suppresses, h]

/-- Line directives are conservative, and what a file keeps is what none of them suppresses. -/
theorem directives_spec :
    (∀ body kind origin, parseIgnoreCommentBody body = some (.line kind origin) →
      ∃ text, MarkedBody origin body text ∧ ReadsAs origin (trim text) kind) ∧
    (∀ diags comments src d, d ∈ filterSuppressedWithComments diags comments src ↔
      d ∈ diags ∧ hasFileSuppressionFromComments comments = false ∧
        ∀ c ∈ comments, ∀ kind origin, parseIgnoreCommentBody c.body = some (.line kind origin) →
          targetLine (sourceLines src) c kind = some d.span.line →
            kind.suppresses d.code = false) ∧
    ∀ code, suppressible code = false → ∀ kind, SuppressionKind.suppresses kind code = false :=
  ⟨fun _ _ _ => parseIgnoreCommentBody_reads, fun _ _ _ _ => mem_filterSuppressed,
    fun _ h kind => suppresses_audit h kind⟩

/-- A directive for the file drops the finding about another directive of it as well. -/
theorem file_directive_hides_audit :
    ¬ ∀ (diags : List Diagnostic) (comments : List Comment) (src : List Char), ∀ d ∈ diags,
      suppressible d.code = false → d ∈ filterSuppressedWithComments diags comments src := by
  intro h
  have hkept := h [⟨⟨7, 23, 0, 7⟩, "RY112"⟩]
    [⟨0, 7, " ry: ignore[bad".toList⟩, ⟨1, 0, " ry: ignore-file".toList⟩]
    "x <- 1 # ry: ignore[bad\n# ry: ignore-file\n".toList _ List.mem_cons_self rfl
  rw [mem_filterSuppressed] at hkept
  exact absurd hkept.2.1 (by decide)

end Ry
