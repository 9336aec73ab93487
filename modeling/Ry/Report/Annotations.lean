import Ry.Lib.Commands
import Ry.Report.Junit

/-! # The GitHub report as workflow commands

The log of a report holds one command a diagnostic, with the diagnostic's fields, exactly where no
path has a character with a meaning in a property, and no path or message a line break or an
escape.
-/

namespace Ry

open Workflow

/-- The command of a diagnostic. -/
def CheckerDiagnostic.command (d : CheckerDiagnostic) (col : Nat) : Command where
  name := d.severity.level
  properties := [("file".toList, d.path.toList), ("line".toList, digits (d.span.line + 1)),
    ("col".toList, digits col)]
  data := d.code.toList ++ (": ".toList ++ d.message.toList)

/-- The diagnostics that an annotation carries. -/
structure Annotated (d : CheckerDiagnostic) : Prop where
  pathLine : ∀ c ∈ d.path.toList, c ≠ ',' ∧ inLine c = true
  noColons : ¬ "::".toList <:+: d.path.toList
  pathEscape : holdsEscape propertyEscape d.path.toList = false
  messageLine : ∀ c ∈ d.message.toList, inLine c = true
  messageEscape : holdsEscape dataEscape d.message.toList = false

/-- What follows the file of an annotation. -/
def afterFile (d : CheckerDiagnostic) (col : Nat) (message : List Char) : List Char :=
  ",line=".toList ++ (digits (d.span.line + 1) ++ (",col=".toList ++ (digits col ++
    ("::".toList ++ (d.code.toList ++ (": ".toList ++ message))))))

theorem githubLine_eq (d : CheckerDiagnostic) (col : Nat) :
    githubLine d col = "::".toList ++ (d.severity.level ++ (" file=".toList ++
      (d.path.toList ++ afterFile d col d.message.toList))) := by
  unfold githubLine afterFile
  simp only [List.append_assoc]

theorem Severity.level_plain (severity : Severity) :
    ∀ c ∈ severity.level, inLine c = true ∧ c ≠ ':' ∧ c ≠ ' ' := by
  have hall : severity.level.all (fun c => inLine c && c ≠ ':' && c ≠ ' ') = true := by
    cases severity <;> rfl
  intro c hc
  have hplain := List.all_eq_true.mp hall c hc
  simp only [Bool.and_eq_true, decide_eq_true_eq] at hplain
  exact ⟨hplain.1.1, hplain.1.2, hplain.2⟩

/-- The properties of a command are what follows its level. -/
theorem readCommand_level (severity : Severity) (text : List Char) :
    readCommand ("::".toList ++ (severity.level ++ (" file=".toList ++ text))) =
      (splitColons text).map fun (file, data) =>
        { name := severity.level
          properties := (("file=".toList ++ file).splitOnP (· = ',')).filterMap readProperty
          data := unescape dataEscape data } := by
  have hlevel := severity.level_plain
  have hcolon : ':' ∉ severity.level := fun hmem => (hlevel _ hmem).2.1 rfl
  have hall : ∀ c ∈ severity.level, decide (c ≠ ' ') = true :=
    fun c hc => decide_eq_true (hlevel c hc).2.2
  show (splitColons (severity.level ++ (" file=".toList ++ text))).map _ = _
  rw [splitColons_append hcolon, splitColons_append (by decide), Option.map_map, Option.map_map]
  congr 1
  funext ⟨file, data⟩
  simp only [Function.comp]
  rw [List.takeWhile_append_of_pos hall, List.dropWhile_append_of_pos hall]
  simp

/-- The file of a command is read up to a comma or a `::`. -/
theorem readCommand_file {severity : Severity} {text : List Char} {cmd : Command}
    (h : readCommand ("::".toList ++ (severity.level ++ (" file=".toList ++ text))) = some cmd) :
    ∃ file more, cmd.properties = ("file".toList, unescape propertyEscape file) :: more ∧
      file <+: text ∧ ',' ∉ file ∧ ¬ "::".toList <:+: file := by
  rw [readCommand_level] at h
  obtain ⟨⟨info, data⟩, hsplit, rfl⟩ := Option.map_eq_some_iff.mp h
  obtain ⟨rfl, hcolons⟩ := splitColons_some hsplit
  obtain ⟨more, hmore⟩ := @splitOnP_first (fun c => decide (c = ',')) ("file=".toList ++ info)
  have hfirst : ("file=".toList ++ info).takeWhile (fun c => !decide (c = ',')) =
      "file".toList ++ '=' :: info.takeWhile (fun c => !decide (c = ',')) := rfl
  have hbegins := List.takeWhile_prefix (fun c => !decide (c = ',')) (l := info)
  refine ⟨info.takeWhile (fun c => !decide (c = ',')), more.filterMap readProperty, ?_, ?_, ?_, ?_⟩
  · dsimp only
    rw [hmore, hfirst, List.filterMap_cons, readProperty_eq (by decide)]
  · rw [List.append_assoc]
    exact hbegins.trans (List.prefix_append _ _)
  · intro hmem
    have hne := List.mem_takeWhile_imp hmem
    simp at hne
  · intro hwithin
    exact hcolons (hwithin.trans hbegins.isInfix)

theorem alphanum_ne {c d : Char} (hc : c.isAlphanum = true) (hd : d.isAlphanum = false) :
    c ≠ d := by
  rintro rfl
  rw [hc] at hd
  cases hd

/-- The command of a path that needs no escape. -/
theorem readCommand_annotated {d : CheckerDiagnostic} (hpath : ',' ∉ d.path.toList)
    (hcolons : ¬ "::".toList <:+: d.path.toList)
    (hescape : holdsEscape propertyEscape d.path.toList = false) (col : Nat) (message : List Char) :
    readCommand ("::".toList ++ (d.severity.level ++ (" file=".toList ++
      (d.path.toList ++ afterFile d col message)))) =
      some { d.command col with
        data := unescape dataEscape (d.code.toList ++ (": ".toList ++ message)) } := by
  have hdigit : ∀ n, ∀ e : Char, e.isAlphanum = false → e ∉ digits n :=
    fun n e he hmem => alphanum_ne (digits_alphanum n e hmem) he rfl
  have hnumber : ∀ n, unescape propertyEscape (digits n) = digits n := by
    intro n
    refine unescape_self ?_
    rw [← List.append_nil (digits n), holdsEscape_append (hdigit n _ (by decide))]
    rfl
  let position := ",line=".toList ++ (digits (d.span.line + 1) ++ (",col=".toList ++ digits col))
  have hposition : ':' ∉ position := by
    simp only [position, List.mem_append, not_or]
    exact ⟨by decide, hdigit _ _ (by decide), by decide, hdigit _ _ (by decide)⟩
  have hne : position ≠ [] := List.append_ne_nil_of_left_ne_nil (by decide) _
  have hsplit : splitColons (d.path.toList ++ afterFile d col message) =
      some (d.path.toList ++ position, d.code.toList ++ (": ".toList ++ message)) := by
    have happend : d.path.toList ++ afterFile d col message =
        (d.path.toList ++ position) ++ "::".toList ++ (d.code.toList ++ (": ".toList ++
          message)) := by
      simp only [afterFile, position, List.append_assoc]
    rw [happend]
    refine splitColons_at ?_ ?_
    · rwa [infix_append_left rfl hposition]
    · rw [List.getLast?_append_of_ne_nil _ hne]
      intro hlast
      exact hposition (List.mem_of_getLast? hlast)
  have hpieces : ("file=".toList ++ (d.path.toList ++ position)).splitOnP (· = ',') =
      ["file=".toList ++ d.path.toList, "line=".toList ++ digits (d.span.line + 1),
        "col=".toList ++ digits col] := by
    have hone : ∀ {text : List Char}, ',' ∉ text → text.splitOnP (· = ',') = [text] := by
      intro text htext
      refine List.splitOnP_eq_singleton fun c hc => decide_eq_false ?_
      rintro rfl
      exact htext hc
    have happend : "file=".toList ++ (d.path.toList ++ position) =
        ("file=".toList ++ d.path.toList) ++ ',' :: (("line=".toList ++ digits (d.span.line + 1)) ++
          ',' :: ("col=".toList ++ digits col)) := by
      simp [position]
    rw [happend, List.splitOnP_append_cons _ _ (by simp), List.splitOnP_append_cons _ _ (by simp),
      hone, hone, hone]
    · rfl
    · rw [List.mem_append, not_or]
      exact ⟨by decide, hdigit _ _ (by decide)⟩
    · rw [List.mem_append, not_or]
      exact ⟨by decide, hdigit _ _ (by decide)⟩
    · rw [List.mem_append, not_or]
      exact ⟨by decide, hpath⟩
  have hfile : readProperty ("file=".toList ++ d.path.toList) =
      some ("file".toList, unescape propertyEscape d.path.toList) :=
    readProperty_eq (show '=' ∉ "file".toList by decide)
  have hline : readProperty ("line=".toList ++ digits (d.span.line + 1)) =
      some ("line".toList, unescape propertyEscape (digits (d.span.line + 1))) :=
    readProperty_eq (show '=' ∉ "line".toList by decide)
  have hcol : readProperty ("col=".toList ++ digits col) =
      some ("col".toList, unescape propertyEscape (digits col)) :=
    readProperty_eq (show '=' ∉ "col".toList by decide)
  rw [unescape_self hescape] at hfile
  rw [hnumber] at hline hcol
  rw [readCommand_level, hsplit, Option.map_some]
  dsimp only
  rw [hpieces, List.filterMap_cons_some hfile, List.filterMap_cons_some hline,
    List.filterMap_cons_some hcol]
  rfl

theorem takeWhile_inLine {a b : List Char} (ha : ∀ c ∈ a, inLine c = true) :
    (a ++ b).takeWhile inLine = a ++ b.takeWhile inLine := List.takeWhile_append_of_pos ha

theorem inLine_of_isAlphanum {c : Char} (h : c.isAlphanum = true) : inLine c = true := by
  simp [inLine, alphanum_ne h (show '\r'.isAlphanum = false by decide),
    alphanum_ne h (show '\n'.isAlphanum = false by decide)]

/-- Of what follows the file, only the message can end a line. -/
theorem afterFile_inLine (d : CheckerDiagnostic) (col : Nat) (message : List Char) :
    (afterFile d col message).takeWhile inLine = afterFile d col (message.takeWhile inLine) := by
  have hdigits : ∀ n, ∀ c ∈ digits n, inLine c = true :=
    fun n c hc => inLine_of_isAlphanum (digits_alphanum n c hc)
  have hcode : ∀ c ∈ d.code.toList, inLine c = true :=
    fun c hc => inLine_of_isAlphanum (d.code_alphanum c hc)
  unfold afterFile
  rw [takeWhile_inLine (by simp [inLine]), takeWhile_inLine (hdigits _),
    takeWhile_inLine (by simp [inLine]), takeWhile_inLine (hdigits _),
    takeWhile_inLine (by simp [inLine]), takeWhile_inLine hcode,
    takeWhile_inLine (by simp [inLine])]

theorem githubLine_inLine (d : CheckerDiagnostic) (col : Nat) :
    (githubLine d col).takeWhile inLine = "::".toList ++ (d.severity.level ++ (" file=".toList ++
      (d.path.toList ++ afterFile d col d.message.toList).takeWhile inLine)) := by
  rw [githubLine_eq, takeWhile_inLine (by simp [inLine]),
    takeWhile_inLine fun c hc => (d.severity.level_plain c hc).1,
    takeWhile_inLine (by simp [inLine])]

/-- What begins a text, without the separator, ends before it. -/
theorem prefix_of_not_mem {A : Type} {s : A} {file path rest : List A}
    (h : file <+: path ++ s :: rest) (hs : s ∉ file) : file <+: path := by
  obtain ⟨after, heq⟩ := h
  rcases List.append_eq_append_iff.mp heq with ⟨mid, hpath, -⟩ | ⟨mid, hfile, hmid⟩
  · exact ⟨mid, hpath.symm⟩
  · cases mid with
    | nil => exact ⟨[], by rw [hfile, List.append_nil, List.append_nil]⟩
    | cons c mid =>
      obtain ⟨rfl, -⟩ := List.cons.inj hmid
      exact absurd (hfile ▸ List.mem_append_right _ List.mem_cons_self) hs

theorem all_of_takeWhile {A : Type} {p : A → Bool} {xs : List A}
    (h : xs.length ≤ (xs.takeWhile p).length) : ∀ x ∈ xs, p x = true := by
  intro x hx
  have heq := (List.takeWhile_prefix p (l := xs)).eq_of_length_le h
  exact List.mem_takeWhile_imp (heq ▸ hx)

/-- A command that reads as its diagnostic's is annotated. -/
theorem annotated_of_command {d : CheckerDiagnostic} {col : Nat}
    (h : readCommand ((githubLine d col).takeWhile inLine) = some (d.command col)) :
    Annotated d := by
  rw [githubLine_inLine] at h
  obtain ⟨file, more, hproperties, hbegins, hcomma, hcolons⟩ := readCommand_file h
  have hfile : unescape propertyEscape file = d.path.toList :=
    (Prod.mk.inj (List.cons.inj hproperties).1).2.symm
  obtain ⟨hshort, hself⟩ := @unescape_length propertyEscape file
  have hwhole : file = d.path.toList := by
    have hpath := prefix_of_not_mem (hbegins.trans (List.takeWhile_prefix _)) hcomma
    refine hpath.eq_of_length_le ?_
    rw [← hfile]
    exact hshort
  subst hwhole
  have hpathLine : ∀ c ∈ d.path.toList, inLine c = true :=
    fun c hc => List.mem_takeWhile_imp (hbegins.subset hc)
  have hescape := (hself (congrArg List.length hfile)).1
  rw [takeWhile_inLine hpathLine, afterFile_inLine,
    readCommand_annotated hcomma hcolons hescape] at h
  have hdata := congrArg Command.data (Option.some.inj h)
  dsimp only [CheckerDiagnostic.command] at hdata
  obtain ⟨hshort', hself'⟩ := @unescape_length dataEscape
    (d.code.toList ++ (": ".toList ++ d.message.toList.takeWhile inLine))
  have hlen := congrArg List.length hdata
  have hmessageLine : ∀ c ∈ d.message.toList, inLine c = true := by
    refine all_of_takeWhile ?_
    rw [hlen] at hshort'
    simp only [List.length_append] at hshort'
    omega
  have hmessage : d.message.toList.takeWhile inLine = d.message.toList :=
    List.takeWhile_eq_self_iff.mpr hmessageLine
  rw [hmessage] at hself' hlen
  refine ⟨fun c hc => ⟨fun heq => hcomma (heq ▸ hc), hpathLine c hc⟩, hcolons, hescape,
    hmessageLine, ?_⟩
  have hnone := (hself' hlen).1
  rwa [holdsEscape_append, holdsEscape_append (by decide)] at hnone
  intro hmem
  exact alphanum_ne (d.code_alphanum _ hmem) (by decide) rfl

theorem command_of_annotated {d : CheckerDiagnostic} (h : Annotated d) (col : Nat) :
    (∀ c ∈ githubLine d col, inLine c = true) ∧
      readCommand ((githubLine d col).takeWhile inLine) = some (d.command col) := by
  have hcomma : ',' ∉ d.path.toList := fun hmem => (h.pathLine _ hmem).1 rfl
  have hwhole : (githubLine d col).takeWhile inLine = githubLine d col := by
    rw [githubLine_inLine, takeWhile_inLine fun c hc => (h.pathLine c hc).2, afterFile_inLine,
      List.takeWhile_eq_self_iff.mpr h.messageLine, githubLine_eq]
  refine ⟨List.takeWhile_eq_self_iff.mp hwhole, ?_⟩
  have hcode : '%' ∉ d.code.toList :=
    fun hmem => alphanum_ne (d.code_alphanum _ hmem) (by decide) rfl
  have hdata :
      holdsEscape dataEscape (d.code.toList ++ (": ".toList ++ d.message.toList)) = false := by
    rw [holdsEscape_append hcode, holdsEscape_append (by decide)]
    exact h.messageEscape
  rw [hwhole, githubLine_eq, readCommand_annotated hcomma h.noColons h.pathEscape,
    unescape_self hdata]
  rfl

theorem mapM_cons_eq {A B : Type} {f : A → Option B} {a : A} {b : B} (as : List A)
    (h : f a = some b) : (a :: as).mapM f = (as.mapM f).map (b :: ·) := by
  rw [List.mapM_cons, h]
  cases as.mapM f <;> rfl

/-- Lines of a log against the diagnostics they were written for. -/
theorem commands_annotated {f : CheckerDiagnostic → Option (List Char)}
    {g : CheckerDiagnostic → Option Command}
    {diags : List CheckerDiagnostic} {lines : List (List Char)}
    (hfg : ∀ d line, f d = some line → ∃ col, line = githubLine d col ∧ g d = some (d.command col))
    (hlines : diags.mapM f = some lines) :
    ∃ cmds, diags.mapM g = some cmds ∧
      (commands (endedLines lines) = some cmds ↔ ∀ d ∈ diags, Annotated d) := by
  induction diags generalizing lines with
  | nil =>
    obtain rfl : lines = [] := by simpa using hlines.symm
    refine ⟨[], rfl, ?_⟩
    simp [commands, endedLines, logLines]
  | cons d ds ih =>
    obtain ⟨line, rest, hline, hrest, rfl⟩ := mapM_cons_some hlines
    obtain ⟨col, hcol, hg⟩ := hfg d line hline
    obtain ⟨cmds, hcmds, hiff⟩ := ih hrest
    obtain ⟨more, hmore, hall⟩ := logLines_first [] line (endedLines rest)
    have hended : endedLines (line :: rest) = line ++ '\n' :: endedLines rest := by simp
    refine ⟨d.command col :: cmds, by rw [mapM_cons_eq ds hg, hcmds]; rfl, ?_⟩
    rw [List.forall_mem_cons, ← hiff]
    unfold commands
    rw [hended, hmore, List.nil_append]
    rw [hcol] at hall ⊢
    constructor
    · intro h
      obtain ⟨cmd, cmds', hcmd, hcmds', heq⟩ := mapM_cons_some h
      obtain ⟨rfl, rfl⟩ := List.cons.inj heq
      have hannotated := annotated_of_command hcmd
      refine ⟨hannotated, ?_⟩
      rw [← hall (command_of_annotated hannotated col).1]
      exact hcmds'
    · rintro ⟨hannotated, hmap⟩
      obtain ⟨hclean, hread⟩ := command_of_annotated hannotated col
      rw [mapM_cons_eq more hread, hall hclean, hmap]
      rfl

/-- The log of a report holds the commands of its diagnostics exactly when all are annotated. -/
theorem github_commands {diags : List CheckerDiagnostic} {srcs : String → Option (List Char)}
    {out : List Char} (h : github diags srcs = some out) :
    commands out = diags.mapM (fun d => (charColFor d srcs).map d.command) ↔
      ∀ d ∈ diags, Annotated d := by
  obtain ⟨lines, hlines, rfl⟩ := Option.map_eq_some_iff.mp h
  have hfg : ∀ d line, (charColFor d srcs).map (githubLine d) = some line →
      ∃ col, line = githubLine d col ∧
        (charColFor d srcs).map d.command = some (d.command col) := by
    intro d line hline
    obtain ⟨col, hcol, hline⟩ := Option.map_eq_some_iff.mp hline
    exact ⟨col, hline.symm, by rw [hcol]; rfl⟩
  obtain ⟨cmds, hcmds, hiff⟩ := commands_annotated hfg hlines
  rw [hcmds]
  exact hiff

end Ry
