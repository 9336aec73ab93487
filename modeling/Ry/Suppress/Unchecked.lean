import Ry.Lib.Partition
import Ry.Suppress.Directives
import Ry.Syntax.Walker

/-! # Lines the checker does not walk

`unchecked_audit_regions` of `post_process.rs`: the function literals that are not assigned and the
expressions the parser does not know, and the table of the lines they touch.
-/

namespace Ry

structure AuditState where
  assigned : List Span
  unchecked : List Span

/-- An assignment is visited before its value. -/
def auditVisit (st : AuditState) (node : AstNode) (_fnDepth : Nat) : AuditState × Answer Empty :=
  match node with
  | .stmt (.assign _ (.function _ _ span) _) => ({ st with assigned := span :: st.assigned }, .into)
  | .expr (.function _ _ span) =>
    if st.assigned.contains span then (st, .into)
    else ({ st with unchecked := st.unchecked ++ [span] }, .skip)
  | .expr (.unknown span) => ({ st with unchecked := st.unchecked ++ [span] }, .skip)
  | _ => (st, .into)

def uncheckedAuditRegions (stmts : List Stmt) : List Span :=
  (walkStmts WalkPolicy.all auditVisit stmts ⟨[], []⟩).1.unchecked

def markLines (lines : List Bool) (first last : Nat) : List Bool :=
  lines.mapIdx fun i unchecked => unchecked || first ≤ i && i ≤ last

/-- `lines[first..=last].fill(true)`, or `none` where the range is not one of the slice. -/
def fillLines (lines : List Bool) (first last : Nat) : Option (List Bool) :=
  if first ≤ last + 1 ∧ last < lines.length then some (markLines lines first last) else none

def firstLine (starts : List Nat) (region : Span) : Nat :=
  partitionPoint (· ≤ region.start) starts - 1

def lastLineOf (starts : List Nat) (region : Span) : Nat :=
  partitionPoint (· < max region.stop (region.start + 1)) starts - 1

/-- The lines of a file that a region touches, or `none` if an index is out of range. -/
def uncheckedLines (starts : List Nat) (regions : List Span) : Option (List Bool) :=
  regions.foldlM (fun lines r => fillLines lines (firstLine starts r) (lastLineOf starts r))
    (List.replicate starts.length false)

/-! ## The table -/

/-- Line `i` begins before the region ends, and the next one after it begins. -/
def Touches (starts : List Nat) (region : Span) (i : Nat) : Prop :=
  (∃ x, starts[i]? = some x ∧ x < max region.stop (region.start + 1)) ∧
    ∀ x, starts[i + 1]? = some x → region.start < x

theorem lineFeeds_sorted (offset : Nat) (src : List Char) :
    (∀ x ∈ lineFeeds offset src, offset < x) ∧ (lineFeeds offset src).Pairwise (· < ·) := by
  induction src generalizing offset with
  | nil => exact ⟨by simp [lineFeeds], List.Pairwise.nil⟩
  | cons c cs ih =>
    have hpos := c.utf8Size_pos
    rw [lineFeeds]
    split
    · obtain ⟨hbound, hsorted⟩ := ih (offset + 1)
      refine ⟨List.forall_mem_cons.mpr ⟨Nat.lt_succ_self _, ?_⟩,
        List.pairwise_cons.mpr ⟨hbound, hsorted⟩⟩
      intro x hx
      exact Nat.lt_trans (Nat.lt_succ_self _) (hbound x hx)
    · obtain ⟨hbound, hsorted⟩ := ih (offset + c.utf8Size)
      refine ⟨fun x hx => ?_, hsorted⟩
      have hlt := hbound x hx
      omega

theorem lineStarts_sorted (src : List Char) : (lineStarts src).Pairwise (· < ·) := by
  obtain ⟨hbound, hsorted⟩ := lineFeeds_sorted 0 src
  exact List.pairwise_cons.mpr ⟨hbound, hsorted⟩

section
variable {starts : List Nat} (hsorted : starts.Pairwise (· < ·))
include hsorted

theorem le_starts (bound : Nat) :
    starts.Pairwise fun a b => decide (b ≤ bound) = true → decide (a ≤ bound) = true := by
  refine hsorted.imp ?_
  intro a b hab hb
  exact decide_eq_true (Nat.le_trans (Nat.le_of_lt hab) (of_decide_eq_true hb))

theorem lt_starts (bound : Nat) :
    starts.Pairwise fun a b => decide (b < bound) = true → decide (a < bound) = true := by
  refine hsorted.imp ?_
  intro a b hab hb
  exact decide_eq_true (Nat.lt_trans hab (of_decide_eq_true hb))

variable (hzero : starts[0]? = some 0)
include hzero

theorem touches_iff (region : Span) (i : Nat) :
    Touches starts region i ↔ firstLine starts region ≤ i ∧ i ≤ lastLineOf starts region := by
  have hfirst : ∀ j, j < partitionPoint (· ≤ region.start) starts ↔
      ∃ x, starts[j]? = some x ∧ x ≤ region.start := by
    intro j
    rw [lt_partitionPoint_iff (le_starts hsorted region.start)]
    simp
  have hlast : ∀ j, j < partitionPoint (· < max region.stop (region.start + 1)) starts ↔
      ∃ x, starts[j]? = some x ∧ x < max region.stop (region.start + 1) := by
    intro j
    rw [lt_partitionPoint_iff (lt_starts hsorted _)]
    simp only [decide_eq_true_eq]
  have hpos := (hfirst 0).mpr ⟨0, hzero, Nat.zero_le _⟩
  have hpos' := (hlast 0).mpr ⟨0, hzero, by omega⟩
  have hbelow : (∀ x, starts[i + 1]? = some x → region.start < x) ↔
      ¬ i + 1 < partitionPoint (· ≤ region.start) starts := by
    rw [hfirst]
    simp only [not_exists, not_and, Nat.not_le]
  rw [Touches, ← hlast, hbelow, firstLine, lastLineOf]
  omega

theorem lines_in_range (region : Span) :
    firstLine starts region ≤ lastLineOf starts region ∧
      lastLineOf starts region < starts.length := by
  have hmono : partitionPoint (· ≤ region.start) starts ≤
      partitionPoint (· < max region.stop (region.start + 1)) starts := by
    refine partitionPoint_mono fun x _ hx => decide_eq_true ?_
    have hle : x ≤ region.start := of_decide_eq_true hx
    omega
  have hlen := @partitionPoint_le_length _ (· < max region.stop (region.start + 1)) starts
  have hne : 0 < starts.length := by
    cases starts with
    | nil => exact absurd hzero (by simp)
    | cons => exact Nat.succ_pos _
  rw [firstLine, lastLineOf]
  omega

/-- No index is out of range, and a line is marked exactly if a region touches it. -/
theorem uncheckedLines_spec (regions : List Span) :
    ∃ lines, uncheckedLines starts regions = some lines ∧ lines.length = starts.length ∧
      ∀ i, lines[i]? = some true ↔ i < starts.length ∧ ∃ r ∈ regions, Touches starts r i := by
  have hfold : ∀ (regions : List Span) (lines : List Bool), lines.length = starts.length →
      ∃ lines', regions.foldlM (fun lines r =>
          fillLines lines (firstLine starts r) (lastLineOf starts r)) lines = some lines' ∧
        lines'.length = starts.length ∧
        ∀ i, lines'[i]? = some true ↔
          lines[i]? = some true ∨ i < starts.length ∧ ∃ r ∈ regions, Touches starts r i := by
    intro regions
    induction regions with
    | nil =>
      intro lines hlen
      exact ⟨lines, rfl, hlen, by simp⟩
    | cons r regions ih =>
      intro lines hlen
      obtain ⟨hle, hlt⟩ := lines_in_range hsorted hzero r
      have hfill : fillLines lines (firstLine starts r) (lastLineOf starts r) =
          some (markLines lines (firstLine starts r) (lastLineOf starts r)) :=
        if_pos ⟨Nat.le_succ_of_le hle, by rw [hlen]; exact hlt⟩
      obtain ⟨lines', hlines', hlen', hmarked⟩ :=
        ih (markLines lines (firstLine starts r) (lastLineOf starts r))
          (by rw [markLines, List.length_mapIdx, hlen])
      refine ⟨lines', ?_, hlen', ?_⟩
      · rw [List.foldlM_cons, hfill]
        exact hlines'
      · intro i
        have hhere : (markLines lines (firstLine starts r) (lastLineOf starts r))[i]? = some true ↔
            lines[i]? = some true ∨ i < starts.length ∧ Touches starts r i := by
          rw [markLines, List.getElem?_mapIdx, touches_iff hsorted hzero r i]
          by_cases hi : i < lines.length
          · rw [List.getElem?_eq_getElem hi, ← hlen]
            simp [hi]
          · rw [List.getElem?_eq_none (Nat.le_of_not_lt hi), ← hlen]
            simp [hi]
        rw [hmarked, hhere]
        simp only [List.mem_cons, exists_eq_or_imp]
        constructor
        · rintro ((h | h) | ⟨h, hr⟩)
          · exact .inl h
          · exact .inr ⟨h.1, .inl h.2⟩
          · exact .inr ⟨h, .inr hr⟩
        · rintro (h | ⟨h, hr | hr⟩)
          · exact .inl (.inl h)
          · exact .inl (.inr ⟨h, hr⟩)
          · exact .inr ⟨h, hr⟩
  obtain ⟨lines, hlines, hlen, hmarked⟩ := hfold regions _ List.length_replicate
  refine ⟨lines, hlines, hlen, fun i => ?_⟩
  rw [hmarked, List.getElem?_replicate]
  split <;> simp

end

/-! ## The regions -/

/-- The region that a node would be. -/
def AstNode.opaqueSpan : AstNode → Option Span
  | .expr (.function _ _ span) => some span
  | .expr (.unknown span) => some span
  | _ => none

/-- The function literal that a node assigns. -/
def AstNode.assignedSpan : AstNode → Option Span
  | .stmt (.assign _ (.function _ _ span) _) => some span
  | _ => none

/-- The nodes of a program outside parameter defaults. -/
noncomputable def nodesOf (stmts : List Stmt) : List (Placed AstNode Edge) :=
  (astTree.forest [] [] 0 (stmtKids .plain stmts)).filter (Branching.kept WalkPolicy.all.enters)

/-- A node that is an unknown expression, or a function literal that is assigned nowhere. -/
def Unwalked (nodes : List (Placed AstNode Edge)) (node : AstNode) (span : Span) : Prop :=
  node = .expr (.unknown span) ∨
    (∃ params body, node = .expr (.function params body span)) ∧
      ∀ q ∈ nodes, q.node.assignedSpan ≠ some span

/-- The node lies in a region: it is one, or below one. -/
def InRegion (nodes : List (Placed AstNode Edge)) (regions : List Span)
    (p : Placed AstNode Edge) : Prop :=
  ∃ q ∈ nodes, q.path <+: p.path ∧ ∃ r ∈ regions, q.node.opaqueSpan = some r

/-- The walk as a run of the callback. -/
def auditCalls (st : AuditState) (ps : List (Placed AstNode Edge)) : AuditState × Option Empty :=
  calls (fun st n edges => auditVisit st n (functionDepth edges)) st ps

theorem auditCalls_into {st st' : AuditState} {p : Placed AstNode Edge} {n : Nat}
    (hn : n = functionDepth p.edges) (h : auditVisit st p.node n = (st', .into))
    (ps : List (Placed AstNode Edge)) : auditCalls st (p :: ps) = auditCalls st' ps := by
  rw [auditCalls, calls_cons, ← hn, h]
  rfl

theorem auditCalls_skip {st st' : AuditState} {p : Placed AstNode Edge} {n : Nat}
    (hn : n = functionDepth p.edges) (h : auditVisit st p.node n = (st', .skip))
    (ps : List (Placed AstNode Edge)) : auditCalls st (p :: ps) = auditCalls st' (notBelow p ps) := by
  rw [auditCalls, calls_cons, ← hn, h]
  rfl

/-- What one call does. -/
theorem auditVisit_cases (st : AuditState) (node : AstNode) (n : Nat) :
    (∃ span, node.opaqueSpan = some span ∧
      auditVisit st node n = ({ st with unchecked := st.unchecked ++ [span] }, .skip)) ∨
    (∃ span, node.opaqueSpan = some span ∧ span ∈ st.assigned ∧
      node ≠ .expr (.unknown span) ∧ auditVisit st node n = (st, .into)) ∨
    (∃ span, node.assignedSpan = some span ∧ node.opaqueSpan = none ∧
      auditVisit st node n = ({ st with assigned := span :: st.assigned }, .into)) ∨
    (node.opaqueSpan = none ∧ auditVisit st node n = (st, .into)) := by
  cases node with
  | stmt s =>
    cases s with
    | assign target value span =>
      cases value with
      | function params body fspan => exact .inr (.inr (.inl ⟨fspan, rfl, rfl, rfl⟩))
      | _ => exact .inr (.inr (.inr ⟨rfl, rfl⟩))
    | _ => exact .inr (.inr (.inr ⟨rfl, rfl⟩))
  | expr e =>
    cases e with
    | function params body span =>
      by_cases hmem : span ∈ st.assigned
      · have hcontains : st.assigned.contains span = true := List.contains_iff_mem.mpr hmem
        refine .inr (.inl ⟨span, rfl, hmem, by simp, ?_⟩)
        rw [auditVisit, if_pos hcontains]
      · have hcontains : ¬ st.assigned.contains span = true :=
          fun h => hmem (List.contains_iff_mem.mp h)
        refine .inl ⟨span, rfl, ?_⟩
        rw [auditVisit, if_neg hcontains]
    | unknown span => exact .inl ⟨span, rfl, rfl⟩
    | _ => exact .inr (.inr (.inr ⟨rfl, rfl⟩))

/-- Regions are only added, and every unwalked node of the run lies in one. -/
theorem auditCalls_covers (st : AuditState) (ps : List (Placed AstNode Edge)) :
    (∀ r ∈ st.unchecked, r ∈ (auditCalls st ps).1.unchecked) ∧
      ∀ p ∈ ps, ∀ span, Unwalked ps p.node span →
        (span ∈ st.assigned → p.node = .expr (.unknown span)) →
          InRegion ps (auditCalls st ps).1.unchecked p := by
  induction hn : ps.length using Nat.strongRecOn generalizing st ps with
  | _ n ih =>
    cases ps with
    | nil =>
      refine ⟨?_, by simp⟩
      rw [auditCalls, calls_nil]
      exact fun r hr => hr
    | cons p ps =>
      have hlen : ps.length < n := by rw [← hn]; exact Nat.lt_succ_self _
      have hsub : ∀ {qs : List (Placed AstNode Edge)} {regions : List Span}
          {x : Placed AstNode Edge}, (∀ q ∈ qs, q ∈ ps) → InRegion qs regions x →
            InRegion (p :: ps) regions x := by
        rintro qs regions x hqs ⟨q, hq, hrest⟩
        exact ⟨q, List.mem_cons_of_mem _ (hqs q hq), hrest⟩
      have hfewer : ∀ {qs : List (Placed AstNode Edge)} {node : AstNode} {span : Span},
          (∀ q ∈ qs, q ∈ ps) → Unwalked (p :: ps) node span → Unwalked qs node span := by
        rintro qs node span hqs (hunknown | ⟨hfunction, hassigned⟩)
        · exact .inl hunknown
        · exact .inr ⟨hfunction, fun q hq => hassigned q (List.mem_cons_of_mem _ (hqs q hq))⟩
      have hfilled : ∀ {qs : List (Placed AstNode Edge)} {node : AstNode} {span : Span},
          Unwalked qs node span → node.opaqueSpan = some span := by
        rintro qs node span (rfl | ⟨⟨params, body, rfl⟩, -⟩) <;> rfl
      rcases auditVisit_cases st p.node (functionDepth p.edges) with
        ⟨span, hspan, hvisit⟩ | ⟨span, hspan, hin, hknown, hvisit⟩ | ⟨span, hspan, hnone, hvisit⟩ |
          ⟨hnone, hvisit⟩
      · -- a region: what is below it is in it
        rw [auditCalls_skip rfl hvisit]
        have hmem : ∀ q ∈ notBelow p ps, q ∈ ps := fun q hq => List.mem_of_mem_filter hq
        obtain ⟨hkeeps, hcovers⟩ := ih _
          (Nat.lt_of_le_of_lt (List.length_filter_le _ _) hlen) { st with
            unchecked := st.unchecked ++ [span] } (notBelow p ps) rfl
        have hregion := hkeeps span (List.mem_append_right _ (List.mem_singleton.mpr rfl))
        refine ⟨fun r hr => hkeeps r (List.mem_append_left _ hr), ?_⟩
        intro x hx xspan hxspan hassigned
        by_cases hbelow : p.path <+: x.path
        · exact ⟨p, List.mem_cons_self, hbelow, span, hregion, hspan⟩
        · rcases List.mem_cons.mp hx with rfl | hx
          · exact absurd List.prefix_rfl hbelow
          · refine hsub hmem (hcovers x ?_ xspan (hfewer hmem hxspan) hassigned)
            refine List.mem_filter.mpr ⟨hx, ?_⟩
            rw [Bool.not_eq_true', ← Bool.not_eq_true, List.isPrefixOf_iff_prefix]
            exact hbelow
      · rw [auditCalls_into rfl hvisit]
        obtain ⟨hkeeps, hcovers⟩ := ih _ hlen st ps rfl
        refine ⟨hkeeps, ?_⟩
        intro x hx xspan hxspan hassigned
        rcases List.mem_cons.mp hx with rfl | hx
        · have heq : span = xspan := Option.some.inj (hspan.symm.trans (hfilled hxspan))
          exact absurd (heq ▸ hassigned (heq ▸ hin)) hknown
        · exact hsub (fun q hq => hq) (hcovers x hx xspan (hfewer (fun q hq => hq) hxspan) hassigned)
      · rw [auditCalls_into rfl hvisit]
        obtain ⟨hkeeps, hcovers⟩ := ih _ hlen { st with assigned := span :: st.assigned } ps rfl
        refine ⟨hkeeps, ?_⟩
        intro x hx xspan hxspan hassigned
        rcases List.mem_cons.mp hx with rfl | hx
        · rw [hfilled hxspan] at hnone
          exact absurd hnone (by simp)
        · refine hsub (fun q hq => hq) (hcovers x hx xspan (hfewer (fun q hq => hq) hxspan) ?_)
          intro hin
          rcases List.mem_cons.mp hin with rfl | hin
          · rcases hxspan with hunknown | ⟨-, hnot⟩
            · exact hunknown
            · exact absurd hspan (hnot p List.mem_cons_self)
          · exact hassigned hin
      · rw [auditCalls_into rfl hvisit]
        obtain ⟨hkeeps, hcovers⟩ := ih _ hlen st ps rfl
        refine ⟨hkeeps, ?_⟩
        intro x hx xspan hxspan hassigned
        rcases List.mem_cons.mp hx with rfl | hx
        · rw [hfilled hxspan] at hnone
          exact absurd hnone (by simp)
        · exact hsub (fun q hq => hq) (hcovers x hx xspan (hfewer (fun q hq => hq) hxspan) hassigned)

/-- Outside parameter defaults, every node that is not walked lies in a region. -/
theorem uncheckedAuditRegions_covers {stmts : List Stmt} {p : Placed AstNode Edge}
    (hp : p ∈ nodesOf stmts) {span : Span} (h : Unwalked (nodesOf stmts) p.node span) :
    InRegion (nodesOf stmts) (uncheckedAuditRegions stmts) p := by
  have hregions : uncheckedAuditRegions stmts =
      (auditCalls ⟨[], []⟩ (nodesOf stmts)).1.unchecked := by
    rw [uncheckedAuditRegions, walkStmts_eq_calls]
    rfl
  rw [hregions]
  exact (auditCalls_covers ⟨[], []⟩ (nodesOf stmts)).2 p hp span h fun hin => absurd hin List.not_mem_nil

end Ry
