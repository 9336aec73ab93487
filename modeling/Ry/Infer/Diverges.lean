import Ry.Lib.Table
import Ry.Workspace.ReportOptions

/-! # Which code never completes

`block_diverges` and the functions under it: statements diverge when one of them does, an
`if` when both arms do, a call when its head is `return` (in the view that recognizes it),
`UseMethod`, a function documented never to return, or a project helper whose own body
diverges.  A helper's body is judged in the return-blind view.

`visited` keeps the judgment of recursive helpers finite.  The definitions below spend one
unit of fuel for each helper they enter, and there is always enough (`helperDiverges_fuel`).
-/

namespace Ry.Divergence

/-- Whether a divergence query treats `return(...)` as an exit. -/
inductive DivergenceView
  | full
  | returnBlind
deriving DecidableEq

def DivergenceView.recognizesReturn : DivergenceView → Bool
  | full => true
  | returnBlind => false

def identName : Expr → Option String
  | .ident name _ => some name
  | _ => none

/-- The name behind its last `::`. -/
def bareName (name : String) : String :=
  match rsplitOnceColons name.toList with
  | some (_, bare) => String.ofList bare
  | none => name

/-- What the judgment looks up: whether the signature a name resolves to never returns, and
the bodies of the live definitions. -/
structure Heads where
  noReturn : String → Bool
  live : Table String (List Stmt)

def isReturn (name : String) : Bool := name = "return" ∨ bareName name = "return"

def isUseMethod (name : String) : Bool := name = "UseMethod" ∨ bareName name = "UseMethod"

section Judgment

variable (p : Heads) (helper : String → Bool) (view : DivergenceView)

/-- A call of `name`, where `helper` judges the live definitions. -/
def callDiverges (name : String) : Bool :=
  if isReturn name then view.recognizesReturn
  else if isUseMethod name then true
  else if p.noReturn name then true
  else helper name

mutual
def stmtDiverges : Stmt → Bool
  | .ret .. => true
  | .expr e => exprDiverges e
  | .ite _ thenBranch elseBranch _ => stmtsDiverge thenBranch && elseStmtsDiverge elseBranch
  | _ => false
termination_by structural s => s
def stmtsDiverge : List Stmt → Bool
  | [] => false
  | s :: ss => stmtDiverges s || stmtsDiverge ss
termination_by structural l => l
def elseStmtsDiverge : Option (List Stmt) → Bool
  | none => false
  | some ss => stmtsDiverge ss
termination_by structural o => o
def exprDiverges : Expr → Bool
  | .call func _ _ => (identName func).any (callDiverges p helper view)
  | .block body _ => stmtsDiverge body
  | .ite _ thenBranch elseBranch _ => exprDiverges thenBranch && elseDiverges elseBranch
  | _ => false
termination_by structural e => e
def elseDiverges : Option Expr → Bool
  | none => false
  | some e => exprDiverges e
termination_by structural o => o
end

end Judgment

/-- A live definition judged by its body, unless it is being judged already. -/
def helperDiverges (p : Heads) : Nat → Finset String → String → Bool
  | 0, _, _ => false
  | fuel + 1, visited, name =>
    if name ∈ visited then false
    else (p.live.lookup name).any
      (stmtsDiverge p (helperDiverges p fuel (insert name visited)) .returnBlind)

/-- `block_diverges_with_visited` with nothing visited. -/
def blockDiverges (p : Heads) (view : DivergenceView) (stmts : List Stmt) : Bool :=
  stmtsDiverge p (helperDiverges p p.live.keys.card ∅) view stmts

/-- Fuel for every helper not visited yet is enough. -/
theorem helperDiverges_fuel (p : Heads) {fuel : Nat} {visited : Finset String}
    (h : (p.live.keys \ visited).card ≤ fuel) :
    helperDiverges p fuel visited = helperDiverges p (fuel + 1) visited := by
  induction fuel generalizing visited with
  | zero =>
    funext name
    have hall : p.live.keys ⊆ visited := by
      rw [← Finset.sdiff_eq_empty_iff_subset, ← Finset.card_eq_zero]
      omega
    simp only [helperDiverges]
    split
    · rfl
    · rename_i hname
      have hnone : p.live.lookup name = none :=
        Finmap.lookup_eq_none.mpr fun hmem => hname (hall (Finmap.mem_keys.mpr hmem))
      rw [hnone]
      rfl
  | succ fuel ih =>
    funext name
    rw [helperDiverges, helperDiverges]
    split
    · rfl
    · rename_i hname
      cases hbody : p.live.lookup name with
      | none => rfl
      | some body =>
        have hkey : name ∈ p.live.keys \ visited := by
          refine Finset.mem_sdiff.mpr ⟨Finmap.mem_keys.mpr ?_, hname⟩
          exact Finmap.mem_of_lookup_eq_some hbody
        have hless : (p.live.keys \ insert name visited).card ≤ fuel := by
          rw [Finset.sdiff_insert, Finset.card_erase_of_mem hkey]
          omega
        rw [ih hless]

end Ry.Divergence
