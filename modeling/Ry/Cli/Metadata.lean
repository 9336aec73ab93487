import Ry.Cli.Inputs

/-! # Which package metadata is watched

`package_meta_paths` stops a walk where an earlier one passed.  Nothing is lost by that, and the
nearest `DESCRIPTION` of each file, as far up as the configuration, is decided by what is watched.
-/

namespace Ry.Watch

section Walks

variable (d : FileSystem) (anchor : Option Path)

def isPackageDir (dir : Path) : Bool := d.isFile (dir.join "DESCRIPTION")

/-- Where a walk ends: at a `DESCRIPTION`, or at the directory of the configuration. -/
def endsAt (dir : Path) : Bool := isPackageDir d dir || anchor == some dir

/-- What a walk alone goes through. -/
def reach : List Path → List Path
  | [] => []
  | dir :: above => if endsAt d anchor dir then [dir] else dir :: reach above

/-- Everything that a directory reaches is there too, for directories up to a depth. -/
def ClosedTo (depth : Nat) (seen : List Path) : Prop :=
  ∀ s ∈ seen, s.names.length ≤ depth → ∀ q ∈ reach d anchor s.ancestors, q ∈ seen

variable {d anchor}

theorem mem_reach_join {dir : Path} {name : String} {q : Path} :
    q ∈ reach d anchor (dir.join name).ancestors ↔
      q = dir.join name ∨
        (endsAt d anchor (dir.join name) = false ∧ q ∈ reach d anchor dir.ancestors) := by
  rw [Path.ancestors_join, reach]
  split
  · rename_i hend
    rw [List.mem_singleton, hend]
    simp
  · rename_i hend
    rw [List.mem_cons, eq_false_of_ne_true hend]
    simp

/-- A walk from a directory of a walk goes on as that one does. -/
theorem reach_subset (names : List String) (rooted : Bool) {s q : Path}
    (hs : s ∈ reach d anchor (⟨rooted, names⟩ : Path).ancestors)
    (hq : q ∈ reach d anchor s.ancestors) :
    q ∈ reach d anchor (⟨rooted, names⟩ : Path).ancestors := by
  induction names using List.reverseRecOn generalizing s q with
  | nil =>
    have hself : s = ⟨rooted, []⟩ := by
      change s ∈ reach d anchor [⟨rooted, []⟩] at hs
      rw [reach, reach] at hs
      split at hs <;> exact List.mem_singleton.mp hs
    exact hself ▸ hq
  | append_singleton names name ih =>
    change s ∈ reach d anchor ((⟨rooted, names⟩ : Path).join name).ancestors at hs
    change q ∈ reach d anchor ((⟨rooted, names⟩ : Path).join name).ancestors
    rcases mem_reach_join.mp hs with rfl | ⟨hend, habove⟩
    · exact hq
    · exact mem_reach_join.mpr (.inr ⟨hend, ih habove hq⟩)

theorem ClosedTo.covered {depth : Nat} {seen : List Path} (h : ClosedTo d anchor depth seen)
    {p q : Path} (hp : p ∈ seen) (hdepth : p.names.length ≤ depth) :
    q ∈ seen ↔ q ∈ seen ∨ q ∈ reach d anchor p.ancestors :=
  ⟨.inl, fun hq => hq.elim id (h p hp hdepth q)⟩

/-- A walk that stops at a directory of an earlier one still covers all that it reaches. -/
theorem mem_walkUp (names : List String) (rooted : Bool) {seen : List Path}
    (hseen : ClosedTo d anchor names.length seen) {q : Path} :
    q ∈ walkUp d anchor (⟨rooted, names⟩ : Path).ancestors seen ↔
      q ∈ seen ∨ q ∈ reach d anchor (⟨rooted, names⟩ : Path).ancestors := by
  induction names using List.reverseRecOn generalizing seen with
  | nil =>
    change q ∈ walkUp d anchor [⟨rooted, []⟩] seen ↔ _
    rw [walkUp]
    split
    · rename_i hmem
      exact hseen.covered (List.contains_iff_mem.mp hmem) le_rfl
    · change _ ↔ q ∈ seen ∨ q ∈ reach d anchor [⟨rooted, []⟩]
      rw [reach, reach, walkUp]
      simp
  | append_singleton names name ih =>
    change q ∈ walkUp d anchor ((⟨rooted, names⟩ : Path).join name).ancestors seen ↔
      q ∈ seen ∨ q ∈ reach d anchor ((⟨rooted, names⟩ : Path).join name).ancestors
    rw [mem_reach_join, Path.ancestors_join, walkUp]
    split
    · rename_i hmem
      rw [← mem_reach_join]
      exact hseen.covered (List.contains_iff_mem.mp hmem) (by simp [Path.join])
    · split
      · rename_i hend
        rw [show endsAt d anchor ((⟨rooted, names⟩ : Path).join name) = true from hend,
          List.mem_append, List.mem_singleton]
        simp
      · rename_i hend
        -- The directory just passed is deeper than all that the walk still meets.
        have hclosed : ClosedTo d anchor names.length
            (seen ++ [(⟨rooted, names⟩ : Path).join name]) := by
          intro s hs hdepth r hr
          rcases List.mem_append.mp hs with hmem | hlast
          · exact List.mem_append_left _ (hseen s hmem (by simp; omega) r hr)
          · rw [List.mem_singleton.mp hlast] at hdepth
            simp [Path.join] at hdepth
        rw [ih hclosed, List.mem_append, List.mem_singleton, or_assoc,
          show endsAt d anchor ((⟨rooted, names⟩ : Path).join name) = false from
            eq_false_of_ne_true hend]
        simp

/-- Closed at every depth. -/
def Closed (d : FileSystem) (anchor : Option Path) (seen : List Path) : Prop :=
  ∀ s ∈ seen, ∀ q ∈ reach d anchor s.ancestors, q ∈ seen

theorem mem_foldl_walkUp (starts : List Path) {seen : List Path} (hseen : Closed d anchor seen)
    {q : Path} :
    q ∈ starts.foldl (fun seen start => walkUp d anchor start.ancestors seen) seen ↔
      q ∈ seen ∨ ∃ start ∈ starts, q ∈ reach d anchor start.ancestors := by
  induction starts generalizing seen with
  | nil => simp
  | cons start starts ih =>
    have hwalk : ∀ r, r ∈ walkUp d anchor start.ancestors seen ↔
        r ∈ seen ∨ r ∈ reach d anchor start.ancestors := fun r =>
      mem_walkUp start.names start.rooted fun s hs _ => hseen s hs
    have hclosed : Closed d anchor (walkUp d anchor start.ancestors seen) := by
      intro s hs r hr
      rcases (hwalk s).mp hs with hold | hnew
      · exact (hwalk r).mpr (.inl (hseen s hold r hr))
      · exact (hwalk r).mpr (.inr (reach_subset start.names start.rooted hnew hr))
    rw [List.foldl_cons, ih hclosed, hwalk, or_assoc]
    simp only [List.mem_cons, exists_eq_or_imp]

end Walks

/-! ## The watched directories -/

section Metadata

variable {d : FileSystem} {here : Path} {roots discovered : List Path} {anchor : Option Path}

/-- Each walk is covered as if it were the only one. -/
theorem mem_metadataDirs {q : Path} : q ∈ metadataDirs d here roots discovered anchor ↔
    ∃ start ∈ chainStarts d roots discovered,
      q ∈ reach d (anchor.map (absolutize here)) (absolutize here start).ancestors := by
  have hfold := @mem_foldl_walkUp d (anchor.map (absolutize here))
    ((chainStarts d roots discovered).map (absolutize here)) [] (fun s hs => absurd hs List.not_mem_nil)
    q
  rw [List.foldl_map] at hfold
  rw [metadataDirs, hfold]
  simp

theorem mem_packageMetaPaths {p : Path} : p ∈ packageMetaPaths d here roots discovered anchor ↔
    ∃ dir ∈ metadataDirs d here roots discovered anchor, ∃ name ∈ metadataNames,
      p = dir.join name := by
  rw [packageMetaPaths, List.mem_mergeSort, List.mem_flatMap]
  simp only [List.mem_map, eq_comm]

/-- The directories up to one of them. -/
def upTo (anchor : Option Path) : List Path → List Path
  | [] => []
  | dir :: above => if anchor = some dir then [dir] else dir :: upTo anchor above

/-- The package that encloses a directory, looked for as far up as the configuration. -/
def packageRoot (d : FileSystem) (here : Path) (anchor : Option Path) (dir : Path) : Option Path :=
  (upTo (anchor.map (absolutize here)) (absolutize here dir).ancestors).find?
    (isPackageDir d)

theorem find_upTo_mem_reach {anchor : Option Path} {chain : List Path} {root : Path}
    (h : (upTo anchor chain).find? (isPackageDir d) = some root) : root ∈ reach d anchor chain := by
  induction chain with
  | nil => cases h
  | cons dir above ih =>
    rw [upTo] at h
    rw [reach, endsAt]
    by_cases hpackage : isPackageDir d dir = true
    · have hroot : root = dir := by
        split at h <;> rw [List.find?_cons_of_pos hpackage] at h <;>
          exact (Option.some.inj h).symm
      rw [hroot, hpackage]
      exact List.mem_singleton_self dir
    · by_cases hanchor : anchor = some dir
      · rw [if_pos hanchor, List.find?_cons_of_neg hpackage] at h
        cases h
      · rw [if_neg hanchor, List.find?_cons_of_neg hpackage] at h
        rw [if_neg (by simp [hpackage, hanchor])]
        exact List.mem_cons_of_mem dir (ih h)

theorem find_upTo_congr {d' : FileSystem} {anchor : Option Path} {chain : List Path}
    (h : ∀ q ∈ reach d anchor chain, isPackageDir d q = isPackageDir d' q) :
    (upTo anchor chain).find? (isPackageDir d) = (upTo anchor chain).find? (isPackageDir d') := by
  induction chain with
  | nil => rfl
  | cons dir above ih =>
    rw [reach, endsAt] at h
    have hdir := h dir (by split <;> exact List.mem_cons_self)
    rw [upTo]
    by_cases hanchor : anchor = some dir
    · rw [if_pos hanchor, List.find?_cons, List.find?_cons, hdir]
      rfl
    · rw [if_neg hanchor, List.find?_cons, List.find?_cons, ← hdir]
      cases hpackage : isPackageDir d dir with
      | true => rfl
      | false =>
        rw [if_neg (by simp [hpackage, hanchor])] at h
        exact ih fun q hq => h q (List.mem_cons_of_mem dir hq)

/-- Untouched metadata leaves each file in its package. -/
theorem packageRoot_congr {d d' : Disk} {file dir : Path} (hfile : file ∈ discovered)
    (hdir : file.parent = some dir)
    (h : ∀ p ∈ packageMetaPaths d.toFileSystem here roots discovered anchor, Disk.SameAt d d' p) :
    packageRoot d.toFileSystem here anchor dir = packageRoot d'.toFileSystem here anchor dir := by
  refine find_upTo_congr fun q hq => ?_
  have hstart : dir ∈ chainStarts d.toFileSystem roots discovered :=
    List.mem_append_right _ (List.mem_filterMap.mpr ⟨file, hfile, hdir⟩)
  have hwatched := h (q.join "DESCRIPTION") (mem_packageMetaPaths.mpr
    ⟨q, mem_metadataDirs.mpr ⟨dir, hstart, hq⟩, "DESCRIPTION", List.mem_cons_self, rfl⟩)
  exact hwatched.isFile

/-- The metadata of a file's package is watched. -/
theorem join_mem_packageMetaPaths {file dir root : Path} (hfile : file ∈ discovered)
    (hdir : file.parent = some dir) (hroot : packageRoot d here anchor dir = some root)
    {name : String} (hname : name ∈ metadataNames) :
    root.join name ∈ packageMetaPaths d here roots discovered anchor :=
  mem_packageMetaPaths.mpr ⟨root, mem_metadataDirs.mpr ⟨dir,
    List.mem_append_right _ (List.mem_filterMap.mpr ⟨file, hfile, hdir⟩),
    find_upTo_mem_reach hroot⟩, name, hname, rfl⟩

end Metadata

end Ry.Watch
