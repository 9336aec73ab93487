import Ry.Config.Load
import Ry.Config.PostProcess

/-! # The rule policy

From rule lists to the severity that a rule has in one file: the filter of `diagnostics.rs`, built
from the global lists, and the path tables of `scoped_policy.rs` over it.
-/

namespace Ry

open Discovery (Glob ScopedPaths)

/-! ## The global filter -/

namespace SeverityFilter

/-- The codes of a rule code, a rule name or `all`. -/
def expand (token : String) : List String :=
  if token == "all" then rules.map (·.code)
  else ((findRule token.toList).map (·.code)).toList

def empty : SeverityFilter := ⟨[], [], [], none, [], ∅⟩

def addError (filter : SeverityFilter) (token : String) : SeverityFilter :=
  { filter with expandedErrors := filter.expandedErrors ++ expand token }

def addWarn (filter : SeverityFilter) (token : String) : SeverityFilter :=
  { filter with expandedWarns := filter.expandedWarns ++ expand token }

def addIgnore (filter : SeverityFilter) (token : String) : SeverityFilter :=
  { filter with expandedIgnores := filter.expandedIgnores ++ expand token }

/-- Replaces the rules that are on by default. -/
def beginSelection (filter : SeverityFilter) : SeverityFilter :=
  { filter with selected := some (filter.selected.getD []) }

def addSelect (filter : SeverityFilter) (token : String) : SeverityFilter :=
  { filter with selected := some (filter.selected.getD [] ++ expand token) }

def addExtendSelect (filter : SeverityFilter) (token : String) : SeverityFilter :=
  { filter with extendedSelection := filter.extendedSelection ++ expand token }

def setScoped (filter : SeverityFilter) (choice : String × Option Severity) : SeverityFilter :=
  { filter with scopedChoices := filter.scopedChoices.insert choice.1 choice.2 }

end SeverityFilter

open SeverityFilter

def buildFilter (error warn ignore : List String) : SeverityFilter :=
  ignore.foldl addIgnore (warn.foldl addWarn (error.foldl addError empty))

section Policy

variable {Pattern : Type}

def filterFromConfig (cfg : Config Pattern) : SeverityFilter :=
  let filter := buildFilter cfg.error cfg.warn cfg.ignore
  let filter := match cfg.select with
    | some select => select.foldl addSelect filter.beginSelection
    | none => filter
  cfg.extendSelect.foldl addExtendSelect filter

/-! ## The path tables -/

structure PolicyTable (Pattern : Type) where
  paths : ScopedPaths Pattern
  choices : List (String × Option Severity)

structure ScopedRulePolicy (Pattern : Type) where
  tables : List (PolicyTable Pattern)

/-- The choices of one list of a table. -/
def bucketChoices (explicit tokens : List String) (severity : Option Severity) :
    List (String × Option Severity) :=
  tokens.flatMap fun token => (expand token).filterMap fun code =>
    if explicit.contains code then none else some (code, severity)

/-- The strongest choice comes last: the last insertion into the filter wins. -/
def tableChoices (explicit : List String) (table : RuleOverrideConfig Pattern) :
    List (String × Option Severity) :=
  bucketChoices explicit table.warn (some .warning) ++
    bucketChoices explicit table.error (some .error) ++ bucketChoices explicit table.ignore none

/-- `explicit` are the explicit rule tokens of the command line or the editor. -/
def ScopedRulePolicy.new (cfg : Config Pattern) (explicit : List String) :
    ScopedRulePolicy Pattern :=
  ⟨cfg.ruleOverrides.map fun table => ⟨table.scope, tableChoices (explicit.flatMap expand) table⟩⟩

/-- The filter of one file; with no table that matches it is the base. -/
def ScopedRulePolicy.filterFor (policy : ScopedRulePolicy Pattern) (fs : FileSystem)
    (glob : Glob Pattern) (source : Path) (base : SeverityFilter) : SeverityFilter :=
  policy.tables.foldl (fun filter table =>
    if table.paths.matches fs glob source then table.choices.foldl setScoped filter else filter) base

/-! ## What a rule's severity is -/

/-- A token for the rule: its code, its name, or all of them. -/
def Spells (token : String) (r : Rule) : Prop := token = "all" ∨ token = r.code ∨ token = r.name

/-- The list names the rule. -/
def Asks (tokens : List String) (r : Rule) : Prop := ∃ token ∈ tokens, Spells token r

def RuleOverrideConfig.Mentions (table : RuleOverrideConfig Pattern) (r : Rule) : Prop :=
  Asks table.ignore r ∨ Asks table.error r ∨ Asks table.warn r

/-- Within one table an ignore wins over an error, and an error over a warning. -/
inductive TableGives (table : RuleOverrideConfig Pattern) (r : Rule) : Option Severity → Prop
  | ignore (h : Asks table.ignore r) : TableGives table r none
  | error (h : ¬ Asks table.ignore r) (herror : Asks table.error r) :
      TableGives table r (some .error)
  | warn (h : ¬ Asks table.ignore r) (herror : ¬ Asks table.error r) (hwarn : Asks table.warn r) :
      TableGives table r (some .warning)

/-- The rule is on without a severity of its own. -/
def IsSelected (cfg : Config Pattern) (r : Rule) : Prop :=
  (∃ select, cfg.select = some select ∧ Asks select r) ∨
    (cfg.select = none ∧ enabledByDefault r.code = true) ∨ Asks cfg.extendSelect r

/-- What the global lists say of a rule that they do not ignore. -/
inductive GlobalGives (cfg : Config Pattern) (r : Rule) : Option Severity → Prop
  | error (h : Asks cfg.error r) : GlobalGives cfg r (some .error)
  | warn (h : ¬ Asks cfg.error r) (hwarn : Asks cfg.warn r) : GlobalGives cfg r (some .warning)
  | on (h : ¬ Asks cfg.error r) (hwarn : ¬ Asks cfg.warn r) (hon : IsSelected cfg r) :
      GlobalGives cfg r (some r.defaultSeverity)
  | off (h : ¬ Asks cfg.error r) (hwarn : ¬ Asks cfg.warn r) (hoff : ¬ IsSelected cfg r) :
      GlobalGives cfg r none

/-- The precedence: a global ignore; the last table of the file that mentions the rule, unless the
rule was asked for explicitly; the global lists. -/
inductive PolicyGives (cfg : Config Pattern) (tables : List (RuleOverrideConfig Pattern))
    (explicit : List String) (applies : RuleOverrideConfig Pattern → Bool) (r : Rule) :
    Option Severity → Prop
  | ignored (h : Asks cfg.ignore r) : PolicyGives cfg tables explicit applies r none
  | byTable {before after : List (RuleOverrideConfig Pattern)} {table : RuleOverrideConfig Pattern}
      {severity : Option Severity} (h : ¬ Asks cfg.ignore r) (hfree : ¬ Asks explicit r)
      (htables : tables = before ++ table :: after) (happlies : applies table = true)
      (hlast : ∀ later ∈ after, applies later = true → ¬ later.Mentions r)
      (hgives : TableGives table r severity) : PolicyGives cfg tables explicit applies r severity
  | byLists {severity : Option Severity} (h : ¬ Asks cfg.ignore r)
      (hnone : Asks explicit r ∨ ∀ table ∈ tables, applies table = true → ¬ table.Mentions r)
      (hgives : GlobalGives cfg r severity) : PolicyGives cfg tables explicit applies r severity

end Policy

/-! ## The lists as sets of rules -/

theorem rule_codes_nodup : (rules.map (·.code)).Nodup := by decide +kernel

theorem rule_names_nodup : (rules.map (·.name)).Nodup := by decide +kernel

/-- A code and a name are told apart by their length. -/
theorem rule_lengths : ∀ r ∈ rules, r.code.utf8ByteSize = 5 ∧ r.name.utf8ByteSize ≠ 5 := by
  decide +kernel

/-- No two rules share a code or a name. -/
theorem rule_eq {r s : Rule} (hr : r ∈ rules) (hs : s ∈ rules)
    (h : r.code = s.code ∨ r.code = s.name ∨ r.name = s.code ∨ r.name = s.name) : r = s := by
  rcases h with h | h | h | h
  · exact List.inj_on_of_nodup_map rule_codes_nodup hr hs h
  · exact absurd (h ▸ (rule_lengths r hr).1) (rule_lengths s hs).2
  · exact absurd (h ▸ (rule_lengths s hs).1) (rule_lengths r hr).2
  · exact List.inj_on_of_nodup_map rule_names_nodup hr hs h

theorem eq_of_spells {token : String} {r s : Rule} (hr : r ∈ rules) (hs : s ∈ rules)
    (htoken : token ≠ "all") (h : Spells token r) (h' : Spells token s) : r = s := by
  apply rule_eq hr hs
  have h := h.resolve_left htoken
  rcases h'.resolve_left htoken with rfl | rfl
  · exact h.elim (fun h => .inl h.symm) fun h => .inr (.inr (.inl h.symm))
  · exact h.elim (fun h => .inr (.inl h.symm)) fun h => .inr (.inr (.inr h.symm))

/-- A token stands for the rules that it spells. -/
theorem mem_expand {token code : String} :
    code ∈ expand token ↔ ∃ r ∈ rules, r.code = code ∧ Spells token r := by
  unfold expand
  by_cases hall : token = "all"
  · subst hall
    simp [Spells]
  · rw [if_neg (by simpa using hall), Option.mem_toList, Option.map_eq_some_iff]
    constructor
    · rintro ⟨r, hfind, rfl⟩
      have hspells := List.find?_some hfind
      simp only [Bool.or_eq_true, beq_iff_eq, String.toList_inj] at hspells
      exact ⟨r, List.mem_of_find?_eq_some hfind, rfl,
        .inr (hspells.imp Eq.symm Eq.symm)⟩
    · rintro ⟨r, hr, rfl, hspells⟩
      obtain ⟨s, hs⟩ : ∃ s, findRule token.toList = some s := by
        rw [← Option.isSome_iff_exists, findRule, List.find?_isSome]
        refine ⟨r, hr, ?_⟩
        rcases hspells with h | rfl | rfl
        · exact absurd h hall
        · simp
        · simp
      have hspells' := List.find?_some hs
      simp only [Bool.or_eq_true, beq_iff_eq, String.toList_inj] at hspells'
      have heq := eq_of_spells (List.mem_of_find?_eq_some hs) hr hall
        (.inr (hspells'.imp Eq.symm Eq.symm)) hspells
      exact ⟨s, hs, congrArg Rule.code heq⟩

theorem mem_flatMap_expand {tokens : List String} {r : Rule} (hr : r ∈ rules) :
    r.code ∈ tokens.flatMap expand ↔ Asks tokens r := by
  simp only [List.mem_flatMap, mem_expand, Asks]
  constructor
  · rintro ⟨token, htoken, s, hs, hcode, hspells⟩
    exact ⟨token, htoken, rule_eq hs hr (.inl hcode) ▸ hspells⟩
  · rintro ⟨token, htoken, hspells⟩
    exact ⟨token, htoken, r, hr, rfl, hspells⟩

/-! ## The filter that the lists build -/

/-- A loop that adds what each token stands for to one field. -/
theorem foldl_collects (put : SeverityFilter → List String → SeverityFilter)
    (hnil : ∀ f, put f [] = f) (happend : ∀ f a b, put (put f a) b = put f (a ++ b))
    (tokens : List String) (filter : SeverityFilter) :
    tokens.foldl (fun f token => put f (expand token)) filter =
      put filter (tokens.flatMap expand) := by
  induction tokens generalizing filter with
  | nil => exact (hnil filter).symm
  | cons token tokens ih => rw [List.foldl_cons, ih, happend, List.flatMap_cons]

theorem foldl_addSelect (tokens selected : List String) (filter : SeverityFilter)
    (h : filter.selected = some selected) :
    tokens.foldl addSelect filter =
      { filter with selected := some (selected ++ tokens.flatMap expand) } := by
  induction tokens generalizing selected filter with
  | nil => simp [← h]
  | cons token tokens ih =>
    rw [List.foldl_cons, ih (selected ++ expand token) _ (by rw [addSelect, h]; rfl), addSelect,
      List.flatMap_cons, List.append_assoc]

section Built

variable {Pattern : Type}

theorem buildFilter_eq (error warn ignore : List String) :
    buildFilter error warn ignore =
      { empty with
        expandedErrors := error.flatMap expand
        expandedWarns := warn.flatMap expand
        expandedIgnores := ignore.flatMap expand } := by
  have herror := foldl_collects
    (fun f codes => { f with expandedErrors := f.expandedErrors ++ codes }) (by simp) (by simp)
  have hwarn := foldl_collects
    (fun f codes => { f with expandedWarns := f.expandedWarns ++ codes }) (by simp) (by simp)
  have hignore := foldl_collects
    (fun f codes => { f with expandedIgnores := f.expandedIgnores ++ codes }) (by simp) (by simp)
  unfold buildFilter
  rw [show error.foldl addError empty = _ from herror error empty]
  rw [show warn.foldl addWarn _ = _ from hwarn warn _]
  rw [show ignore.foldl addIgnore _ = _ from hignore ignore _]
  rfl

theorem filterFromConfig_eq (cfg : Config Pattern) :
    filterFromConfig cfg =
      { expandedErrors := cfg.error.flatMap expand
        expandedWarns := cfg.warn.flatMap expand
        expandedIgnores := cfg.ignore.flatMap expand
        selected := cfg.select.map fun select => select.flatMap expand
        extendedSelection := cfg.extendSelect.flatMap expand
        scopedChoices := ∅ } := by
  have hextend := foldl_collects
    (fun f codes => { f with extendedSelection := f.extendedSelection ++ codes }) (by simp) (by simp)
  unfold filterFromConfig
  rw [show cfg.extendSelect.foldl addExtendSelect _ = _ from hextend cfg.extendSelect _,
    buildFilter_eq]
  cases hselect : cfg.select with
  | none => rfl
  | some select =>
    dsimp only
    rw [foldl_addSelect select [] _ rfl]
    rfl

/-! ## The choices of the tables -/

theorem lookup_bucket {explicit tokens : List String} (severity : Option Severity)
    (filter : SeverityFilter) (code : String) :
    ((bucketChoices explicit tokens severity).foldl setScoped filter).scopedChoices.lookup code =
      if code ∈ tokens.flatMap expand ∧ code ∉ explicit then some severity
      else filter.scopedChoices.lookup code := by
  have hcodes : bucketChoices explicit tokens severity =
      ((tokens.flatMap expand).filter (!explicit.contains ·)).map (·, severity) := by
    induction tokens with
    | nil => rfl
    | cons token tokens ih =>
      rw [bucketChoices, List.flatMap_cons, List.flatMap_cons, List.filter_append, List.map_append,
        ← ih, bucketChoices]
      congr 1
      rw [← List.filterMap_eq_map, List.filterMap_filter]
      refine List.filterMap_congr fun code _ => ?_
      cases explicit.contains code <;> rfl
  have hfold : ∀ (codes : List String) (filter : SeverityFilter),
      ((codes.map (·, severity)).foldl setScoped filter).scopedChoices.lookup code =
        if code ∈ codes then some severity else filter.scopedChoices.lookup code := by
    intro codes
    induction codes with
    | nil => simp
    | cons first codes ih =>
      intro filter
      rw [List.map_cons, List.foldl_cons, ih, setScoped, Table.lookup_insert]
      by_cases hmem : code ∈ codes
      · simp [hmem]
      · by_cases hfirst : code = first
        · simp [hfirst]
        · simp [hmem, hfirst]
  rw [hcodes, hfold]
  simp only [List.mem_filter, Bool.not_eq_true', List.contains_eq_mem, decide_eq_false_iff_not]

theorem lookup_bucket_asked {explicit tokens : List String} (severity : Option Severity)
    (filter : SeverityFilter) {r : Rule} (hr : r ∈ rules) (h : Asks tokens r)
    (hfree : ¬ Asks explicit r) :
    ((bucketChoices (explicit.flatMap expand) tokens severity).foldl setScoped
      filter).scopedChoices.lookup r.code = some severity := by
  rw [lookup_bucket]
  exact if_pos ⟨(mem_flatMap_expand hr).mpr h, fun hmem => hfree ((mem_flatMap_expand hr).mp hmem)⟩

theorem lookup_bucket_silent {explicit tokens : List String} (severity : Option Severity)
    (filter : SeverityFilter) {r : Rule} (hr : r ∈ rules)
    (h : Asks explicit r ∨ ¬ Asks tokens r) :
    ((bucketChoices (explicit.flatMap expand) tokens severity).foldl setScoped
      filter).scopedChoices.lookup r.code = filter.scopedChoices.lookup r.code := by
  rw [lookup_bucket]
  refine if_neg fun hboth => h.elim (fun h => ?_) fun h => ?_
  · exact hboth.2 ((mem_flatMap_expand hr).mpr h)
  · exact h ((mem_flatMap_expand hr).mp hboth.1)

/-- The choice of a rule that a table leaves in the filter. -/
def ChosenBy (table : RuleOverrideConfig Pattern) (explicit : List String) (r : Rule)
    (old new : Option (Option Severity)) : Prop :=
  (∃ severity, ¬ Asks explicit r ∧ TableGives table r severity ∧ new = some severity) ∨
    ((Asks explicit r ∨ ¬ table.Mentions r) ∧ new = old)

theorem lookup_table (table : RuleOverrideConfig Pattern) (explicit : List String) {r : Rule}
    (hr : r ∈ rules) (filter : SeverityFilter) :
    ChosenBy table explicit r (filter.scopedChoices.lookup r.code)
      (((tableChoices (explicit.flatMap expand) table).foldl setScoped filter).scopedChoices.lookup
        r.code) := by
  rw [tableChoices, List.foldl_append, List.foldl_append]
  by_cases hexplicit : Asks explicit r
  · refine .inr ⟨.inl hexplicit, ?_⟩
    rw [lookup_bucket_silent none _ hr (.inl hexplicit),
      lookup_bucket_silent (some .error) _ hr (.inl hexplicit),
      lookup_bucket_silent (some .warning) _ hr (.inl hexplicit)]
  by_cases hignore : Asks table.ignore r
  · exact .inl ⟨none, hexplicit, .ignore hignore, lookup_bucket_asked none _ hr hignore hexplicit⟩
  rw [lookup_bucket_silent none _ hr (.inr hignore)]
  by_cases herror : Asks table.error r
  · exact .inl ⟨some .error, hexplicit, .error hignore herror,
      lookup_bucket_asked _ _ hr herror hexplicit⟩
  rw [lookup_bucket_silent (some .error) _ hr (.inr herror)]
  by_cases hwarn : Asks table.warn r
  · exact .inl ⟨some .warning, hexplicit, .warn hignore herror hwarn,
      lookup_bucket_asked _ _ hr hwarn hexplicit⟩
  · refine .inr ⟨.inr fun h => ?_, lookup_bucket_silent _ _ hr (.inr hwarn)⟩
    exact h.elim hignore fun h => h.elim herror hwarn

variable (fs : FileSystem) (glob : Glob Pattern) (source : Path)

def Applies (table : RuleOverrideConfig Pattern) : Bool := table.scope.matches fs glob source

/-- One table after the others. -/
theorem filterFor_concat (tables : List (PolicyTable Pattern)) (table : PolicyTable Pattern)
    (base : SeverityFilter) :
    (ScopedRulePolicy.mk (tables ++ [table])).filterFor fs glob source base =
      if table.paths.matches fs glob source = true then
        table.choices.foldl setScoped ((ScopedRulePolicy.mk tables).filterFor fs glob source base)
      else (ScopedRulePolicy.mk tables).filterFor fs glob source base := by
  unfold ScopedRulePolicy.filterFor
  rw [List.foldl_append]
  rfl

/-- The tables choose, and nothing else of the filter changes. -/
theorem filterFor_frame (policy : ScopedRulePolicy Pattern) (base : SeverityFilter) :
    policy.filterFor fs glob source base =
      { base with scopedChoices := (policy.filterFor fs glob source base).scopedChoices } := by
  obtain ⟨tables⟩ := policy
  induction tables using List.reverseRecOn with
  | nil => rfl
  | append_singleton tables table ih =>
    rw [filterFor_concat]
    split
    · generalize (ScopedRulePolicy.mk tables).filterFor fs glob source base = filter at ih ⊢
      have hchoices : ∀ (choices : List (String × Option Severity)) (filter : SeverityFilter),
          choices.foldl setScoped filter =
            { filter with scopedChoices := (choices.foldl setScoped filter).scopedChoices } := by
        intro choices
        induction choices with
        | nil => intro filter; rfl
        | cons choice choices ih =>
          intro filter
          rw [List.foldl_cons, ih, setScoped]
      rw [hchoices, ih]
    · exact ih

/-- The last table of the file that mentions the rule chooses. -/
theorem lookup_filterFor (tables : List (RuleOverrideConfig Pattern)) (explicit : List String)
    {r : Rule} (hr : r ∈ rules) (base : SeverityFilter) :
    (∃ before table after severity, tables = before ++ table :: after ∧
      Applies fs glob source table = true ∧ ¬ Asks explicit r ∧
      (∀ later ∈ after, Applies fs glob source later = true → ¬ later.Mentions r) ∧
      TableGives table r severity ∧
      ((ScopedRulePolicy.mk (tables.map fun table =>
        ⟨table.scope, tableChoices (explicit.flatMap expand) table⟩)).filterFor fs glob source
          base).scopedChoices.lookup r.code = some severity) ∨
    ((Asks explicit r ∨ ∀ table ∈ tables, Applies fs glob source table = true →
        ¬ table.Mentions r) ∧
      ((ScopedRulePolicy.mk (tables.map fun table =>
        ⟨table.scope, tableChoices (explicit.flatMap expand) table⟩)).filterFor fs glob source
          base).scopedChoices.lookup r.code = base.scopedChoices.lookup r.code) := by
  induction tables using List.reverseRecOn with
  | nil => exact .inr ⟨.inr (by simp), rfl⟩
  | append_singleton tables last ih =>
    rw [List.map_append, List.map_cons, List.map_nil, filterFor_concat]
    generalize (ScopedRulePolicy.mk (tables.map fun table =>
      (⟨table.scope, tableChoices (explicit.flatMap expand) table⟩ : PolicyTable Pattern))).filterFor
        fs glob source base = filter at ih ⊢
    by_cases hmatch : Applies fs glob source last = true
    · rw [if_pos (show last.scope.matches fs glob source = true from hmatch)]
      rcases lookup_table last explicit hr filter with ⟨severity, hfree, hgives, hnew⟩ | ⟨hsilent, hnew⟩
      · exact .inl ⟨tables, last, [], severity, rfl, hmatch, hfree, by simp, hgives, hnew⟩
      · rw [hnew]
        rcases ih with ⟨before, table, after, severity, rfl, happlies, hfree, hlast, hgives, hold⟩ |
          ⟨hnone, hold⟩
        · refine .inl ⟨before, table, after ++ [last], severity, by simp, happlies, hfree, ?_, hgives,
            hold⟩
          intro later hlater
          rcases List.mem_append.mp hlater with hlater | hlater
          · exact hlast later hlater
          · obtain rfl := List.mem_singleton.mp hlater
            exact fun _ => hsilent.resolve_left hfree
        · refine .inr ⟨?_, hold⟩
          by_cases hfree : Asks explicit r
          · exact .inl hfree
          · refine .inr fun table htable => ?_
            rcases List.mem_append.mp htable with htable | htable
            · exact hnone.resolve_left hfree table htable
            · obtain rfl := List.mem_singleton.mp htable
              exact fun _ => hsilent.resolve_left hfree
    · rw [if_neg (show ¬ last.scope.matches fs glob source = true from hmatch)]
      rcases ih with ⟨before, table, after, severity, rfl, happlies, hfree, hlast, hgives, hold⟩ |
        ⟨hnone, hold⟩
      · refine .inl ⟨before, table, after ++ [last], severity, by simp, happlies, hfree, ?_, hgives,
          hold⟩
        intro later hlater
        rcases List.mem_append.mp hlater with hlater | hlater
        · exact hlast later hlater
        · obtain rfl := List.mem_singleton.mp hlater
          exact fun h => absurd h hmatch
      · refine .inr ⟨hnone.imp_right fun hnone table htable => ?_, hold⟩
        rcases List.mem_append.mp htable with htable | htable
        · exact hnone table htable
        · obtain rfl := List.mem_singleton.mp htable
          exact fun h => absurd h hmatch

/-! ## One severity -/

theorem TableGives.mentions {table : RuleOverrideConfig Pattern} {r : Rule}
    {severity : Option Severity} (h : TableGives table r severity) : table.Mentions r := by
  cases h with
  | ignore h => exact .inl h
  | error _ herror => exact .inr (.inl herror)
  | warn _ _ hwarn => exact .inr (.inr hwarn)

theorem TableGives.unique {table : RuleOverrideConfig Pattern} {r : Rule}
    {severity severity' : Option Severity} (h : TableGives table r severity)
    (h' : TableGives table r severity') : severity = severity' := by
  cases h with
  | ignore h =>
    cases h' with
    | ignore => rfl
    | error hnot | warn hnot => exact absurd h hnot
  | error h herror =>
    cases h' with
    | ignore hignore => exact absurd hignore h
    | error => rfl
    | warn _ hnot => exact absurd herror hnot
  | warn h herror =>
    cases h' with
    | ignore hignore => exact absurd hignore h
    | error _ hyes => exact absurd hyes herror
    | warn => rfl

theorem GlobalGives.unique {cfg : Config Pattern} {r : Rule} {severity severity' : Option Severity}
    (h : GlobalGives cfg r severity) (h' : GlobalGives cfg r severity') : severity = severity' := by
  cases h with
  | error h =>
    cases h' with
    | error => rfl
    | warn hnot | on hnot | off hnot => exact absurd h hnot
  | warn h hwarn =>
    cases h' with
    | error hyes => exact absurd hyes h
    | warn => rfl
    | on _ hnot | off _ hnot => exact absurd hwarn hnot
  | on h hwarn hon =>
    cases h' with
    | error hyes => exact absurd hyes h
    | warn _ hyes => exact absurd hyes hwarn
    | on => rfl
    | off _ _ hoff => exact absurd hon hoff
  | off h hwarn hoff =>
    cases h' with
    | error hyes => exact absurd hyes h
    | warn _ hyes => exact absurd hyes hwarn
    | on _ _ hon => exact absurd hon hoff
    | off => rfl

/-- The last element of a list with a property is one. -/
theorem eq_of_last {A : Type} {P : A → Prop} {before before' after after' : List A} {a a' : A}
    (h : before ++ a :: after = before' ++ a' :: after') (ha : P a) (ha' : P a')
    (hlast : ∀ b ∈ after, ¬ P b) (hlast' : ∀ b ∈ after', ¬ P b) : a = a' := by
  rcases List.append_eq_append_iff.mp h with ⟨rest, rfl, hrest⟩ | ⟨rest, rfl, hrest⟩
  · cases rest with
    | nil => exact (List.cons.inj hrest).1
    | cons b rest =>
      obtain ⟨rfl, rfl⟩ := List.cons.inj hrest
      exact absurd ha' (hlast a' (by simp))
  · cases rest with
    | nil => exact (List.cons.inj hrest).1.symm
    | cons b rest =>
      obtain ⟨rfl, rfl⟩ := List.cons.inj hrest
      exact absurd ha (hlast' a (by simp))

theorem PolicyGives.unique {cfg : Config Pattern} {tables : List (RuleOverrideConfig Pattern)}
    {explicit : List String} {applies : RuleOverrideConfig Pattern → Bool} {r : Rule}
    {severity severity' : Option Severity} (h : PolicyGives cfg tables explicit applies r severity)
    (h' : PolicyGives cfg tables explicit applies r severity') : severity = severity' := by
  cases h with
  | ignored h =>
    cases h' with
    | ignored => rfl
    | byTable hnot | byLists hnot => exact absurd h hnot
  | @byTable before after table _ h hfree htables happlies hlast hgives =>
    cases h' with
    | ignored hyes => exact absurd hyes h
    | @byTable before' after' table' _ _ _ htables' happlies' hlast' hgives' =>
      obtain rfl : table = table' :=
        @eq_of_last _ (fun t => applies t = true ∧ t.Mentions r) _ _ _ _ _ _ (htables ▸ htables')
          ⟨happlies, hgives.mentions⟩ ⟨happlies', hgives'.mentions⟩
          (fun later hlater h => hlast later hlater h.1 h.2)
          (fun later hlater h => hlast' later hlater h.1 h.2)
      exact hgives.unique hgives'
    | byLists _ hnone =>
      refine absurd hgives.mentions (hnone.resolve_left hfree table ?_ happlies)
      rw [htables]
      exact List.mem_append_right _ List.mem_cons_self
  | byLists h hnone hgives =>
    cases h' with
    | ignored hyes => exact absurd hyes h
    | @byTable before' after' table' _ _ hfree htables happlies _ hgives' =>
      refine absurd hgives'.mentions (hnone.resolve_left hfree table' ?_ happlies)
      rw [htables]
      exact List.mem_append_right _ List.mem_cons_self
    | byLists _ _ hgives' => exact hgives.unique hgives'

/-! ## The filter gives what the precedence says -/

theorem isSelected_iff {cfg : Config Pattern} {r : Rule} (hr : r ∈ rules) :
    ((cfg.select.map fun select => select.flatMap expand).elim (enabledByDefault r.code)
      (fun codes => decide (r.code ∈ codes)) ||
        decide (r.code ∈ cfg.extendSelect.flatMap expand)) = true ↔ IsSelected cfg r := by
  rw [Bool.or_eq_true, decide_eq_true_iff, mem_flatMap_expand hr, IsSelected, ← or_assoc]
  refine or_congr_left ?_
  cases hselect : cfg.select with
  | none => simp
  | some select =>
    rw [Option.map_some, Option.elim_some, decide_eq_true_iff, mem_flatMap_expand hr]
    simp

/-- A filter over the lists of one configuration and the tables of another. -/
theorem gives_effective (cfg policy : Config Pattern) (explicit : List String) {r : Rule}
    (hr : r ∈ rules) :
    PolicyGives cfg policy.ruleOverrides explicit (Applies fs glob source) r
      (((ScopedRulePolicy.new policy explicit).filterFor fs glob source
        (filterFromConfig cfg)).effective r.code r.defaultSeverity) := by
  have hchoice := lookup_filterFor fs glob source policy.ruleOverrides explicit hr
    (filterFromConfig cfg)
  rw [show (filterFromConfig cfg).scopedChoices.lookup r.code = none by
    rw [filterFromConfig_eq]; rfl] at hchoice
  rw [ScopedRulePolicy.new, filterFor_frame]
  generalize ((ScopedRulePolicy.mk _).filterFor fs glob source _).scopedChoices = choices
    at hchoice ⊢
  rw [filterFromConfig_eq]
  simp only [effective, List.contains_eq_mem, decide_eq_true_eq]
  by_cases hignore : Asks cfg.ignore r
  · rw [if_pos ((mem_flatMap_expand hr).mpr hignore)]
    exact .ignored hignore
  rw [if_neg fun h => hignore ((mem_flatMap_expand hr).mp h)]
  rcases hchoice with ⟨before, table, after, severity, htables, happlies, hfree, hlast, hgives, hlookup⟩ |
    ⟨hnone, hlookup⟩
  · rw [hlookup]
    exact .byTable hignore hfree htables happlies hlast hgives
  · rw [hlookup]
    refine .byLists hignore hnone ?_
    dsimp only
    by_cases herror : Asks cfg.error r
    · rw [if_pos ((mem_flatMap_expand hr).mpr herror)]
      exact .error herror
    rw [if_neg fun h => herror ((mem_flatMap_expand hr).mp h)]
    by_cases hwarn : Asks cfg.warn r
    · rw [if_pos ((mem_flatMap_expand hr).mpr hwarn)]
      exact .warn herror hwarn
    rw [if_neg fun h => hwarn ((mem_flatMap_expand hr).mp h)]
    by_cases hon : IsSelected cfg r
    · rw [if_pos ((isSelected_iff hr).mpr hon)]
      exact .on herror hwarn hon
    · rw [if_neg fun h => hon ((isSelected_iff hr).mp h)]
      exact .off herror hwarn hon

/-! ## The frontends -/

def CliOverrides.explicit (overrides : CliOverrides) : List String :=
  overrides.error ++ overrides.warn ++ overrides.ignore

/-- `scoped_policy` of the command: explicit flags keep precedence over the tables. -/
def scopedPolicy (cfg : Config Pattern) (overrides : CliOverrides) : ScopedRulePolicy Pattern :=
  ScopedRulePolicy.new cfg overrides.explicit

/-- The rule lists that an editor sends. -/
structure LintSettings where
  select : Option (List String)
  extendSelect : Option (List String)
  ignore : Option (List String)
  error : Option (List String)
  warn : Option (List String)

/-- A list that the editor set replaces the configuration's own. -/
def LintSettings.apply (lint : LintSettings) (cfg : Config Pattern) : Config Pattern :=
  { cfg with
    error := lint.error.getD cfg.error
    warn := lint.warn.getD cfg.warn
    ignore := lint.ignore.getD cfg.ignore
    extendSelect := lint.extendSelect.getD cfg.extendSelect
    select := lint.select.or cfg.select }

def LintSettings.explicit (lint : LintSettings) : List String :=
  lint.error.getD [] ++ lint.warn.getD [] ++ lint.ignore.getD []

/-- The filter of one file in `ry check`. -/
def commandFilter (cfg : Config Pattern) (overrides : CliOverrides) : SeverityFilter :=
  (scopedPolicy (cfg.mergeCli overrides) overrides).filterFor fs glob source
    (filterFromConfig (cfg.mergeCli overrides))

/-- The filter of one file in the editor, as `refresh_policy` compiles it. -/
def editorFilter (cfg : Config Pattern) (lint : LintSettings) : SeverityFilter :=
  (ScopedRulePolicy.new cfg lint.explicit).filterFor fs glob source
    (filterFromConfig (lint.apply cfg))

/-- Every rule has the severity that the precedence gives it, in both frontends: flags are added to
the configuration's lists, editor settings replace them, and both stand above the path tables. -/
theorem severity_iff (cfg : Config Pattern) (overrides : CliOverrides) (lint : LintSettings)
    {r : Rule} (hr : r ∈ rules) (severity : Option Severity) :
    ((commandFilter fs glob source cfg overrides).effective r.code r.defaultSeverity = severity ↔
      PolicyGives (cfg.mergeCli overrides) cfg.ruleOverrides overrides.explicit (Applies fs glob source) r
        severity) ∧
    ((editorFilter fs glob source cfg lint).effective r.code r.defaultSeverity = severity ↔
      PolicyGives (lint.apply cfg) cfg.ruleOverrides lint.explicit (Applies fs glob source) r severity) := by
  have hcommand := gives_effective fs glob source (cfg.mergeCli overrides) (cfg.mergeCli overrides)
    overrides.explicit hr
  have heditor := gives_effective fs glob source (lint.apply cfg) cfg lint.explicit hr
  constructor
  · exact ⟨fun h => h ▸ hcommand, fun h => hcommand.unique h⟩
  · exact ⟨fun h => h ▸ heditor, fun h => heditor.unique h⟩

end Built

/-- A project with one script, where every path is its own identity. -/
def scriptFiles : FileSystem where
  symlinkMetadata _ := none
  metadata _ := none
  readDir _ := .error "not a directory"
  readToString _ := none
  absolute := some
  scopedPathIdentity := some

/-- Patterns that are the paths they match. -/
def plainGlob : Glob String := ⟨some, fun pattern path => pattern == path, fun pattern path =>
  pattern == path⟩

def projectRoot : Path := ⟨true, ["project"]⟩

/-- Two tables for one script, the later one weaker. -/
def layeredConfig : Config String :=
  let scope : ScopedPaths String := ⟨some projectRoot, ["try.R"]⟩
  { Config.default with
    ruleOverrides :=
      [⟨["try.R"], ["RY040"], [], ["RY010"], scope⟩, ⟨["try.R"], [], ["invalid-arithmetic"], [], scope⟩] }

/-- The later table decides, although the earlier choice is stronger. -/
theorem severity_iff_layered :
    PolicyGives (layeredConfig.mergeCli ⟨[], [], [], [], none, none, none, none, 0, 0⟩)
      layeredConfig.ruleOverrides (CliOverrides.mk [] [] [] [] none none none none 0 0).explicit
      (Applies scriptFiles plainGlob (projectRoot.join "try.R"))
      ⟨"RY040", "invalid-arithmetic"⟩ (some .warning) :=
  ((severity_iff scriptFiles plainGlob (projectRoot.join "try.R") layeredConfig
    ⟨[], [], [], [], none, none, none, none, 0, 0⟩ ⟨none, none, none, none, none⟩
    (by simp [rules]) (some .warning)).1).mp (by decide +kernel)

end Ry
