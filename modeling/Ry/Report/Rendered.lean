import Ry.Report.Annotations

/-! # Reports that read back

When the three reports say what the diagnostics say: every test case, annotation and fingerprint
is that of its own diagnostic.
-/

namespace Ry

/-! ## Where a report is rendered -/

/-- The offset, or the end of a shorter source, is between two characters. -/
def OnBoundary (src : List Char) (pos : Nat) : Prop :=
  ∃ before after, src = before ++ after ∧ min pos (byteLen src) = byteLen before

theorem prefixBytes_begins (cs : List Char) (n : Nat) : prefixBytes cs n <+: cs := by
  induction cs generalizing n with
  | nil => exact List.prefix_refl _
  | cons c cs ih =>
    rw [prefixBytes]
    split
    · exact (List.prefix_cons_inj c).mpr (ih _)
    · exact List.nil_prefix

theorem lineContaining_isSome (src : List Char) (pos : Nat) :
    (lineContaining src pos).isSome ↔ OnBoundary src pos := by
  unfold lineContaining
  constructor
  · intro h
    dsimp only at h
    split at h
    · rename_i hboundary
      exact ⟨prefixBytes src (min pos (byteLen src)), suffixBytes src (min pos (byteLen src)),
        (List.prefix_iff_eq_append.mp (prefixBytes_begins src _)).symm, hboundary.symm⟩
    · cases h
  · rintro ⟨before, after, rfl, hpos⟩
    dsimp only
    rw [hpos, prefixBytes_append, if_pos rfl]
    rfl

theorem charColFor_isSome (d : CheckerDiagnostic) (srcs : String → Option (List Char)) :
    (charColFor d srcs).isSome ↔ ∀ src, srcs d.path = some src → OnBoundary src d.span.start := by
  unfold charColFor
  cases hsrc : srcs d.path with
  | none => simp
  | some src =>
    rw [Option.isSome_map, lineContaining_isSome]
    constructor
    · intro h src' hsrc'
      obtain rfl : src = src' := Option.some.inj hsrc'
      exact h
    · intro h
      exact h src rfl

theorem mapM_isSome {A B : Type} (f : A → Option B) (as : List A) :
    (as.mapM f).isSome ↔ ∀ a ∈ as, (f a).isSome := by
  induction as with
  | nil => simp
  | cons a as ih =>
    rw [List.forall_mem_cons, ← ih]
    cases ha : f a with
    | none => simp [ha]
    | some b => simp [mapM_cons_eq as ha]

/-- The columns of all diagnostics can be computed. -/
def Sliceable (diags : List CheckerDiagnostic) (srcs : String → Option (List Char)) : Prop :=
  ∀ d ∈ diags, ∀ src, srcs d.path = some src → OnBoundary src d.span.start

variable {diags : List CheckerDiagnostic} {srcs : String → Option (List Char)}

theorem github_isSome : (github diags srcs).isSome ↔ Sliceable diags srcs := by
  unfold github Sliceable
  rw [Option.isSome_map, mapM_isSome]
  simp only [Option.isSome_map, charColFor_isSome]

theorem junit_isSome : (junit diags srcs).isSome ↔ Sliceable diags srcs := by
  unfold junit Sliceable
  rw [Option.isSome_map, mapM_isSome]
  simp only [Option.isSome_map, charColFor_isSome]

/-! ## Fingerprints -/

theorem CheckerDiagnostic.fingerprint_eq_iff (d e : CheckerDiagnostic) :
    (gitlabEntry d).fingerprint = (gitlabEntry e).fingerprint ↔
      d.path = e.path ∧ d.span.start = e.span.start ∧ d.code = e.code := by
  constructor
  · intro h
    have hcode : ∀ f : CheckerDiagnostic, ':' ∉ f.code.toList.reverse := by
      intro f hmem
      exact alphanum_ne (f.code_alphanum _ (List.mem_reverse.mp hmem)) (by decide) rfl
    have hdigits : ∀ n, ':' ∉ (digits n).reverse := by
      intro n hmem
      exact alphanum_ne (digits_alphanum n _ (List.mem_reverse.mp hmem)) (by decide) rfl
    have hreverse : ∀ f : CheckerDiagnostic, (gitlabEntry f).fingerprint.reverse =
        f.code.toList.reverse ++ ':' :: ((digits f.span.start).reverse ++ ':' ::
          f.path.toList.reverse) := by
      intro f
      simp [gitlabEntry]
    have heq := congrArg List.reverse h
    rw [hreverse, hreverse] at heq
    obtain ⟨hcodes, hrest⟩ := append_inj_of_separator (hcode d) (hcode e) heq
    obtain ⟨hstarts, hpaths⟩ := append_inj_of_separator (hdigits _) (hdigits _) hrest
    exact ⟨String.toList_inj.mp (List.reverse_inj.mp hpaths),
      Declared.toDigits_injective (List.reverse_inj.mp hstarts),
      String.toList_inj.mp (List.reverse_inj.mp hcodes)⟩
  · rintro ⟨hpath, hstart, hcode⟩
    simp [gitlabEntry, hpath, hstart, hcode]

/-! ## The reports -/

/-- Reports that say what the diagnostics say. -/
structure Rendered (diags : List CheckerDiagnostic) (srcs : String → Option (List Char)) :
    Prop where
  junit : ∃ out, junit diags srcs = some out ∧ DocumentOf out diags
  github : ∃ out, github diags srcs = some out ∧
    Workflow.commands out = diags.mapM fun d => (charColFor d srcs).map d.command
  gitlab : ∀ d ∈ diags, ∀ e ∈ diags, d ≠ e →
    (gitlabEntry d).fingerprint ≠ (gitlabEntry e).fingerprint

/-- Diagnostics that no format has to escape or to tell apart by their messages. -/
structure NeedsNoEscape (diags : List CheckerDiagnostic) (srcs : String → Option (List Char)) :
    Prop where
  sliceable : Sliceable diags srcs
  carried : ∀ d ∈ diags, Carried d
  annotated : ∀ d ∈ diags, Annotated d
  apart : ∀ d ∈ diags, ∀ e ∈ diags,
    d.path = e.path → d.span.start = e.span.start → d.code = e.code → d = e

/-- The reports read back exactly when the formats need no escape. -/
theorem rendered_iff (diags : List CheckerDiagnostic) (srcs : String → Option (List Char)) :
    Rendered diags srcs ↔ NeedsNoEscape diags srcs := by
  constructor
  · intro h
    obtain ⟨document, hjunit, hdocument⟩ := h.junit
    obtain ⟨log, hgithub, hlog⟩ := h.github
    refine ⟨junit_isSome.mp (by rw [hjunit]; rfl), (junit_document hjunit).mp hdocument,
      (github_commands hgithub).mp hlog, ?_⟩
    intro d hd e he hpath hstart hcode
    by_contra hne
    exact h.gitlab d hd e he hne
      ((CheckerDiagnostic.fingerprint_eq_iff d e).mpr ⟨hpath, hstart, hcode⟩)
  · intro h
    obtain ⟨document, hjunit⟩ := Option.isSome_iff_exists.mp (junit_isSome.mpr h.sliceable)
    obtain ⟨log, hgithub⟩ := Option.isSome_iff_exists.mp (github_isSome.mpr h.sliceable)
    refine ⟨⟨document, hjunit, (junit_document hjunit).mpr h.carried⟩,
      ⟨log, hgithub, (github_commands hgithub).mpr h.annotated⟩, ?_⟩
    intro d hd e he hne heq
    obtain ⟨hpath, hstart, hcode⟩ := (CheckerDiagnostic.fingerprint_eq_iff d e).mp heq
    exact hne (h.apart d hd e he hpath hstart hcode)

/-- A directory name with an ampersand makes the JUnit report no document. -/
theorem ampersand_path_not_rendered :
    ¬ Rendered [{ Finding.new .error ⟨0, 1, 0, 0⟩ "R&D/a.R" "RY040" "invalid" with
      related := [], registered := by decide }] fun _ => none := by
  intro h
  obtain ⟨out, hout, hdocument⟩ := h.junit
  have hcarried := (junit_document hout).mp hdocument _ List.mem_cons_self
  exact absurd (hcarried.path '&' (by decide)) (by decide)

end Ry
