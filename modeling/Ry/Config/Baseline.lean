import Ry.Lib.Surplus
import Ry.Lib.Table
import Mathlib.Algebra.GroupWithZero.Nat
import Mathlib.Algebra.Order.BigOperators.Group.List
import Mathlib.Data.Finset.Sort
import Mathlib.Data.List.DropRight
import Mathlib.Data.Prod.Lex
import Mathlib.Data.String.Basic

/-! # Baselines

`baseline.rs`: a snapshot of known findings, counted by path, code and message, and its
subtraction from the findings of a later run.  Paths are cut below the repository root first.
The JSON text of a baseline is left out: what is written is what is loaded.
-/

namespace Ry

/-! ## Paths below the root -/

/-- What a path starts with, before its named components. -/
inductive PathLead
  | root
  | currentDir
  | relative
  deriving DecidableEq

namespace PathLead

def text : PathLead → List Char
  | root => ['/']
  | currentDir => ['.']
  | relative => []

end PathLead

/-- The text between separators that is no component inside a path. -/
def namesNothing (piece : List Char) : Bool := piece == [] || piece == ['.']

/-- The lead of a path and the pieces after it. -/
def cutPath (path : List Char) : PathLead × List (List Char) :=
  match path.splitOn '/' with
  | [] :: piece :: pieces => (.root, piece :: pieces)
  | ['.'] :: pieces => (.currentDir, pieces)
  | pieces => (.relative, pieces)

/-- The pieces after the components `names`, or `none` when the path does not start with them. -/
def afterComponents (pieces : List (List Char)) : List (List Char) → Option (List (List Char))
  | [] => some pieces
  | name :: names =>
    match pieces.dropWhile namesNothing with
    | piece :: rest => if piece = name then afterComponents rest names else none
    | [] => none

def joinPieces (pieces : List (List Char)) : List Char := ['/'].intercalate pieces

/-- `Path::strip_prefix` on Unix: whole components are compared, and what is left is trimmed of
the separators at its ends. -/
def stripPathPrefix (path base : List Char) : Option (List Char) :=
  let (lead, pieces) := cutPath path
  let (baseLead, basePieces) := cutPath base
  let names := basePieces.filter (!namesNothing ·)
  if baseLead = .relative ∧ names = [] then
    let kept := pieces.rdropWhile namesNothing
    if lead = .currentDir ∧ kept ≠ [] then some (lead.text ++ '/' :: joinPieces kept)
    else some (lead.text ++ joinPieces kept)
  else if lead = baseLead then
    (afterComponents pieces names).map fun rest =>
      joinPieces ((rest.dropWhile namesNothing).rdropWhile namesNothing)
  else none

def mainSeparator : Char := '/'

/-- The path a finding is filed under. -/
def diagnosticPath (currentDir repoRoot : Option String) (path : String) : String :=
  let stripped := (repoRoot.or currentDir).bind fun root => stripPathPrefix path.toList root.toList
  let display := stripped.getD path.toList
  String.ofList (display.map fun c => if c = mainSeparator then '/' else c)

/-! ## Baselines -/

structure BaselineEntry where
  path : String
  code : String
  message : String
  count : Nat
  deriving DecidableEq

structure Baseline where
  version : Nat
  entries : List BaselineEntry

/-- What a baseline needs of a diagnostic. -/
class BaselineDiagnostic (D : Type) where
  path : D → String
  code : D → String
  message : D → String

/-- What a finding is known by; ordered by path, then code, then message. -/
@[ext] structure BaselineKey where
  path : String
  code : String
  message : String
  deriving DecidableEq

instance : LinearOrder BaselineKey :=
  LinearOrder.lift' (fun key => toLex (key.path, toLex (key.code, key.message))) fun a b h => by
    obtain ⟨hpath, hrest⟩ := Prod.mk.inj (toLex_inj.mp h)
    obtain ⟨hcode, hmessage⟩ := Prod.mk.inj (toLex_inj.mp hrest)
    exact BaselineKey.ext hpath hcode hmessage

def BaselineEntry.key (entry : BaselineEntry) : BaselineKey :=
  ⟨entry.path, entry.code, entry.message⟩

section Counting

variable {D : Type} [BaselineDiagnostic D] (currentDir repoRoot : Option String)

def diagnosticKey (diagnostic : D) : BaselineKey :=
  { path := diagnosticPath currentDir repoRoot (BaselineDiagnostic.path diagnostic)
    code := BaselineDiagnostic.code diagnostic
    message := BaselineDiagnostic.message diagnostic }

/-- `write_baseline_file`'s counts. -/
def baselineCounts : List D → Table BaselineKey Nat → Table BaselineKey Nat
  | [], counts => counts
  | diagnostic :: diagnostics, counts =>
    let key := diagnosticKey currentDir repoRoot diagnostic
    baselineCounts diagnostics (counts.insert key ((counts.lookup key).getD 0 + 1))

/-- The baseline `write_baseline_file` writes, its entries in key order. -/
def writtenBaseline (diagnostics : List D) : Baseline :=
  let counts := baselineCounts currentDir repoRoot diagnostics ∅
  { version := 1
    entries := (counts.keys.sort (· ≤ ·)).map fun key =>
      { path := key.path
        code := key.code
        message := key.message
        count := (counts.lookup key).getD 0 } }

/-- The entries collected into a map: a later entry replaces an earlier one with its key. -/
def collectEntries : List BaselineEntry → Table BaselineKey Nat → Table BaselineKey Nat
  | [], remaining => remaining
  | entry :: entries, remaining => collectEntries entries (remaining.insert entry.key entry.count)

/-- The `retain` pass: a diagnostic with a remaining count uses one up and goes. -/
def retainNew : Table BaselineKey Nat → List D → List D
  | _, [] => []
  | remaining, diagnostic :: diagnostics =>
    let key := diagnosticKey currentDir repoRoot diagnostic
    match remaining.lookup key with
    | some (count + 1) => retainNew (remaining.insert key count) diagnostics
    | _ => diagnostic :: retainNew remaining diagnostics

def subtractBaseline (diagnostics : List D) (baseline : Baseline) : List D :=
  retainNew currentDir repoRoot (collectEntries baseline.entries ∅) diagnostics

end Counting

/-! ## What is recorded and what is kept -/

/-- The total a baseline records for a key, over all its entries. -/
def totalCount (entries : List BaselineEntry) (key : BaselineKey) : Nat :=
  ((entries.filter (·.key = key)).map (·.count)).sum

/-- The count of the last entry for a key. -/
def lastCount (entries : List BaselineEntry) (key : BaselineKey) : Nat :=
  ((entries.filter (·.key = key)).getLast?.map (·.count)).getD 0

/-- `kept` is `items` without the first `allowance k` of each key `k`, in order. -/
structure KeepsLater {D K : Type} [DecidableEq K] (key : D → K) (allowance : K → Nat)
    (items kept : List D) : Prop where
  ordered : kept.Sublist items
  later : ∀ k, kept.filter (key · = k) = (items.filter (key · = k)).drop (allowance k)

/-- A smaller allowance drops as many of each key only where nothing beyond it is there. -/
theorem keepsLater_surplus_iff {D K : Type} [DecidableEq K] {key : D → K}
    (allowance total : K → Nat) (hle : ∀ k, allowance k ≤ total k) (items : List D) :
    KeepsLater key total items (surplus key allowance items) ↔
      ∀ k, allowance k = total k ∨ (items.map key).count k ≤ allowance k := by
  constructor
  · intro h k
    have hlater := congrArg List.length (h.later k)
    rw [filter_surplus, List.length_drop, List.length_drop, ← count_map_eq_length_filter]
      at hlater
    have hk := hle k
    omega
  · intro h
    refine ⟨surplus_sublist items, fun k => ?_⟩
    rw [filter_surplus]
    rcases h k with heq | hcovered
    · rw [heq]
    · rw [count_map_eq_length_filter] at hcovered
      rw [List.drop_eq_nil_of_le hcovered, List.drop_eq_nil_of_le (hcovered.trans (hle k))]

theorem lastCount_le_totalCount (entries : List BaselineEntry) (key : BaselineKey) :
    lastCount entries key ≤ totalCount entries key := by
  unfold lastCount totalCount
  cases hlast : (entries.filter (·.key = key)).getLast? with
  | none => exact Nat.zero_le _
  | some entry =>
    exact List.single_le_sum (fun _ _ => Nat.zero_le _) _ (List.mem_map_of_mem (List.mem_of_getLast? hlast))

theorem lastCount_cons (entry : BaselineEntry) (entries : List BaselineEntry) (key : BaselineKey) :
    lastCount (entry :: entries) key =
      if entries.filter (·.key = key) = [] then if entry.key = key then entry.count else 0
      else lastCount entries key := by
  unfold lastCount
  by_cases hkey : entry.key = key
  · rw [List.filter_cons_of_pos (by simpa using hkey)]
    cases hrest : entries.filter (·.key = key) with
    | nil => simp [hkey]
    | cons e es => simp [List.getLast?_cons_cons]
  · rw [List.filter_cons_of_neg (by simpa using hkey)]
    cases hrest : entries.filter (·.key = key) with
    | nil => simp [hkey]
    | cons e es => simp

/-- Collecting keeps the last entry's count. -/
theorem lookup_collectEntries (entries : List BaselineEntry) (remaining : Table BaselineKey Nat)
    (key : BaselineKey) :
    ((collectEntries entries remaining).lookup key).getD 0 =
      if entries.filter (·.key = key) = [] then (remaining.lookup key).getD 0
      else lastCount entries key := by
  induction entries generalizing remaining with
  | nil => rfl
  | cons entry entries ih =>
    rw [collectEntries, ih, lastCount_cons, Table.lookup_insert]
    by_cases hkey : entry.key = key
    · rw [List.filter_cons_of_pos (by simpa using hkey)]
      simp [hkey]
    · rw [List.filter_cons_of_neg (by simpa using hkey), if_neg (Ne.symm hkey)]
      by_cases hnone : entries.filter (·.key = key) = []
      · rw [if_pos hnone, if_pos hnone]
      · rw [if_neg hnone, if_neg hnone, if_neg hnone]

theorem getD_collectEntries (entries : List BaselineEntry) (key : BaselineKey) :
    ((collectEntries entries ∅).lookup key).getD 0 = lastCount entries key := by
  rw [lookup_collectEntries]
  split
  · rename_i hnone
    rw [lastCount, hnone, Finmap.lookup_empty]
    rfl
  · rfl

section Subtracting

variable {D : Type} [BaselineDiagnostic D] (currentDir repoRoot : Option String)

/-- The pass keeps what the remaining counts leave over. -/
theorem retainNew_eq_surplus (remaining : Table BaselineKey Nat) (diagnostics : List D) :
    retainNew currentDir repoRoot remaining diagnostics =
      surplus (diagnosticKey currentDir repoRoot) (fun k => (remaining.lookup k).getD 0)
        diagnostics := by
  induction diagnostics generalizing remaining with
  | nil => rfl
  | cons diagnostic diagnostics ih =>
    rw [retainNew, surplus]
    split
    · rename_i count hcount
      rw [hcount, if_pos (by simp), ih]
      congr 1
      funext k
      rw [Table.lookup_insert]
      by_cases hk : k = diagnosticKey currentDir repoRoot diagnostic
      · subst hk
        simp
      · rw [Function.update_of_ne hk, if_neg hk]
    · rename_i hcount
      have hzero : (remaining.lookup (diagnosticKey currentDir repoRoot diagnostic)).getD 0 = 0 := by
        cases hlook : remaining.lookup (diagnosticKey currentDir repoRoot diagnostic) with
        | none => rfl
        | some n =>
          cases n with
          | zero => rfl
          | succ n => exact absurd hlook (hcount n)
      rw [hzero, if_neg (Nat.lt_irrefl 0), ih]

theorem subtractBaseline_eq_surplus (diagnostics : List D) (baseline : Baseline) :
    subtractBaseline currentDir repoRoot diagnostics baseline =
      surplus (diagnosticKey currentDir repoRoot) (lastCount baseline.entries) diagnostics := by
  rw [subtractBaseline, retainNew_eq_surplus]
  congr 1
  funext k
  exact getD_collectEntries baseline.entries k

/-- Counting adds up what each key has. -/
theorem getD_baselineCounts (diagnostics : List D) (counts : Table BaselineKey Nat)
    (key : BaselineKey) :
    ((baselineCounts currentDir repoRoot diagnostics counts).lookup key).getD 0 =
      (counts.lookup key).getD 0 + (diagnostics.map (diagnosticKey currentDir repoRoot)).count key := by
  induction diagnostics generalizing counts with
  | nil => rfl
  | cons diagnostic diagnostics ih =>
    rw [baselineCounts, ih, Table.lookup_insert, List.map_cons, List.count_cons]
    by_cases hkey : diagnosticKey currentDir repoRoot diagnostic = key
    · subst hkey
      simp only [if_true, Option.getD_some, beq_self_eq_true]
      omega
    · rw [if_neg (Ne.symm hkey), if_neg (by simpa using hkey), Nat.add_zero]

end Subtracting

/-- The written entry of a key, and no other. -/
theorem filter_sorted_entries (counts : Table BaselineKey Nat) (entry : BaselineKey → BaselineEntry)
    (hentry : ∀ key, (entry key).key = key) (key : BaselineKey) :
    ((counts.keys.sort (· ≤ ·)).map entry).filter (·.key = key) =
      if key ∈ counts.keys then [entry key] else [] := by
  rw [List.filter_map]
  have hsame : ((fun e : BaselineEntry => decide (e.key = key)) ∘ entry) = (· == key) := by
    funext k
    simp [hentry, beq_eq_decide]
  rw [hsame, List.filter_beq]
  by_cases hmem : key ∈ counts.keys
  · rw [if_pos hmem, List.count_eq_one_of_mem (Finset.sort_nodup _ _) ((Finset.mem_sort _).mpr hmem)]
    rfl
  · rw [if_neg hmem, List.count_eq_zero_of_not_mem fun h => hmem ((Finset.mem_sort _).mp h)]
    rfl

/-- A written baseline records of each key what the diagnostics have. -/
theorem lastCount_writtenBaseline {D : Type} [BaselineDiagnostic D]
    (currentDir repoRoot : Option String) (diagnostics : List D) (key : BaselineKey) :
    lastCount (writtenBaseline currentDir repoRoot diagnostics).entries key =
      (diagnostics.map (diagnosticKey currentDir repoRoot)).count key := by
  have hcount := getD_baselineCounts currentDir repoRoot diagnostics ∅ key
  rw [Finmap.lookup_empty, Option.getD_none, Nat.zero_add] at hcount
  rw [← hcount, lastCount, writtenBaseline]
  dsimp only
  rw [filter_sorted_entries _ _ (fun _ => rfl)]
  split
  · rfl
  · rename_i hmem
    rw [Table.lookup_eq_none_of_not_mem_keys hmem]
    rfl

/-- Subtraction keeps of every key the diagnostics beyond the recorded total, exactly when for
each key the last entry is the whole record or covers all its diagnostics.  What was written
from a list leaves nothing of a rearrangement, the rest of an extension, and of any list the
multiset difference. -/
theorem subtractBaseline_spec {D : Type} [BaselineDiagnostic D]
    (currentDir repoRoot : Option String) (diagnostics : List D) (baseline : Baseline) :
    (KeepsLater (diagnosticKey currentDir repoRoot) (totalCount baseline.entries) diagnostics
        (subtractBaseline currentDir repoRoot diagnostics baseline) ↔
      ∀ key, lastCount baseline.entries key = totalCount baseline.entries key ∨
        (diagnostics.map (diagnosticKey currentDir repoRoot)).count key ≤
          lastCount baseline.entries key) ∧
    (∀ later : List D, later.Perm diagnostics →
      subtractBaseline currentDir repoRoot later
        (writtenBaseline currentDir repoRoot diagnostics) = []) ∧
    (∀ added : List D,
      subtractBaseline currentDir repoRoot (diagnostics ++ added)
        (writtenBaseline currentDir repoRoot diagnostics) = added) ∧
    (∀ later : List D,
      (↑((subtractBaseline currentDir repoRoot later
          (writtenBaseline currentDir repoRoot diagnostics)).map
            (diagnosticKey currentDir repoRoot)) : Multiset BaselineKey) =
        ↑(later.map (diagnosticKey currentDir repoRoot)) -
          ↑(diagnostics.map (diagnosticKey currentDir repoRoot))) := by
  have hwritten : lastCount (writtenBaseline currentDir repoRoot diagnostics).entries =
      fun key => (diagnostics.map (diagnosticKey currentDir repoRoot)).count key :=
    funext (lastCount_writtenBaseline currentDir repoRoot diagnostics)
  refine ⟨?_, ?_, ?_, ?_⟩
  · rw [subtractBaseline_eq_surplus]
    exact keepsLater_surplus_iff _ _ (lastCount_le_totalCount _) _
  · intro later hperm
    rw [subtractBaseline_eq_surplus, hwritten]
    refine surplus_eq_nil fun key => ?_
    rw [(hperm.map _).count_eq]
  · intro added
    rw [subtractBaseline_eq_surplus, hwritten, surplus_append]
  · intro later
    rw [subtractBaseline_eq_surplus, hwritten]
    have hdiff := @map_surplus _ _ _ (diagnosticKey currentDir repoRoot)
      (Multiset.ofList (diagnostics.map (diagnosticKey currentDir repoRoot))) later
    simpa only [Multiset.coe_count] using hdiff

/-- A finding that is only its key. -/
instance : BaselineDiagnostic BaselineKey where
  path := BaselineKey.path
  code := BaselineKey.code
  message := BaselineKey.message

/-- Two baselines merged by hand: each records the finding once. -/
def mergedEntries : List BaselineEntry :=
  [⟨"a.R", "RY010", "same message", 1⟩, ⟨"a.R", "RY010", "same message", 1⟩]

/-- Of two recorded findings one is reported again. -/
theorem mergedEntries_not_keepsLater :
    let finding : BaselineKey := ⟨"a.R", "RY010", "same message"⟩
    ¬ KeepsLater (diagnosticKey (some "/work") none) (totalCount mergedEntries)
      [finding, finding]
      (subtractBaseline (some "/work") none [finding, finding] ⟨1, mergedEntries⟩) := by
  intro finding hkeeps
  rw [subtractBaseline_eq_surplus] at hkeeps
  have hcovered := (keepsLater_surplus_iff _ _ (lastCount_le_totalCount _) _).mp hkeeps finding
  revert hcovered
  decide

end Ry
