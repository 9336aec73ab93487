import Ry.Promise.Forced

/-! # Defaults that recurse

What `quoting.rs` claims of a function with one formal, in a setting where R's syntax operators
are base R's: a guaranteed force evaluates the formal's promise before any binding of it, a
prefix that is crossed does nothing but bind other names, and a default that is reported as
recursing fails every call that leaves the formal out.

All of it holds of the runs that take none of the three steps in `Overlooked`.
-/

namespace Ry.Promise

/-- The steps that the analysis takes for something else: `name := value` and an assignment to
a name in disguise are lowered to an assignment of the name, and a unary plus to its operand. -/
def Overlooked (g : Setting) : Prop :=
  (∃ value, g.may (.walrus value)) ∨ g.may .disguisedTarget ∨ g.may .plusOnNonNumber

structure QuotingSound (g : Setting) : Prop where
  force : ∀ {body t o s'},
    guaranteedForceBeforeReplacement g.force g.formal.raw (lowerBlock body) = true →
    Runs g .outer (.stmts (blockBody body)) .promise t o s' →
    ∃ before after, t = before ++ .original :: after ∧ ∀ e ∈ before, Harmless g e
  statement : ∀ {pos n s t o s'}, pos.isStatement = true →
    statementPreservesBinding g.formal.raw (lowerStmt n) = true →
    Runs g pos (.node n) s t o s' → Passes g s t o s'
  expression : ∀ {n s t o s'}, expressionPreservesBinding g.formal.raw (lowerExpr n) = true →
    Runs g .inner (.node n) s t o s' → Passes g s t o s'
  recursion : ∀ {body default span t o s'}, g.origin = .default default →
    (recursingDefault g.force g.formal.raw (lowerBlock body)
      (lowerParam (.mk g.formal.raw (some default) span))).isSome = true →
    Runs g .outer (.stmts (blockBody body)) .promise t o s' → o = .failed

variable {g : Setting}

theorem reached_of_guaranteedForce (hg : ¬ Overlooked g) {body : Cst} {t : List Event} {o : Ending}
    {s s' : Slot}
    (hforce : guaranteedForceBeforeReplacement g.force g.formal.raw (lowerBlock body) = true)
    (h : Runs g .outer (.stmts (blockBody body)) s t o s') : Reached g s t o := by
  simp only [Overlooked, not_or, not_exists] at hg
  refine (follows hg.1 hg.2.1 hg.2.2 h).reached ⟨rfl, .inl ?_⟩
  rwa [← lowerBlock_eq]

/-- A run that reads the formal while it is a promise evaluates what the promise holds. -/
theorem default_of_nameRun {pos : Position} {n default : Cst} {text : String} {t : List Event}
    {o : Ending} {s' : Slot} (hx : nameText n = some text) (hsym : g.symbol text = g.name)
    (horigin : g.origin = .default default) (h : Runs g pos (.node n) .promise t o s') :
    ∃ t' s'', Runs g .inner (.node default) .pending t' o s'' := by
  have hnot : literalValue n = none ∧ localAssignment n = none ∧ isOpened n = false := by
    cases n with
    | identifier | namespaced => exact ⟨rfl, rfl, rfl⟩
    | _ => simp [nameText] at hx
  cases h with
  | default _ _ ho hr =>
    obtain rfl := Origin.default.inj (horigin.symm.trans ho)
    exact ⟨_, _, hr⟩
  | otherName hx' hne _ =>
    obtain rfl := Option.some.inj (hx.symm.trans hx')
    exact (hne hsym).elim
  | actual _ _ ho _ => simp [horigin] at ho
  | omitted _ _ ho => simp [horigin] at ho
  | literal hv => simp [hnot.1] at hv
  | opensStops ho | opens ho =>
    have hopened := ho.isOpened
    simp [hnot.2.2] at hopened
  | assignStops ha | assign ha => simp [hnot.2.1] at ha
  | _ => simp [nameText] at hx

/-- A default that reads its own formal first leaves the promise stuck. -/
theorem stuck_of_firstExecuted (hg : ¬ Overlooked g) {default : Cst}
    (horigin : g.origin = .default default)
    (hfirst : (firstExecutedIdentifier g.force g.formal.raw (lowerExpr default)).isSome = true) :
    Stuck g := by
  simp only [Overlooked, not_or, not_exists] at hg
  intro pos n text t o s' hx hsym h
  obtain ⟨t', s'', hr⟩ := default_of_nameRun hx hsym horigin h
  exact ((follows hg.1 hg.2.1 hg.2.2 hr).reached (.inr hfirst)).recurses rfl

/-- The name that a token without escapes denotes. -/
def plainSymbol (token : String) : String :=
  if isStringToken token then token else semanticArgumentName token

theorem plainSymbol_bare (token : String) (h : token.toList.head? ≠ some '\x60') :
    plainSymbol token = token := by
  unfold plainSymbol
  split
  · rfl
  · rename_i hstring
    unfold semanticArgumentName
    cases hlist : token.toList with
    | nil => rfl
    | cons c rest =>
      have hc : c ∉ ['"', Char.ofNat 39, Char.ofNat 96] := by
        simp only [isStringToken, hlist, List.head?_cons] at hstring h
        simp_all
      simp [hc]

/-- A formal spelled `p`. -/
def nameP : FormalName := ⟨"p", by decide, by decide, by decide⟩

theorem plainSymbol_p : plainSymbol nameP.raw ≠ "return" := by decide

theorem unqualified_p : qualifiedForce (fun _ _ => none) nameP.raw = none := by decide

/-- A formal `p` in a package without stubs, where the code that is called fails. -/
def soleFormal (origin : Origin) (may : Quirk → Prop) : Setting where
  symbol := plainSymbol
  symbol_bare := plainSymbol_bare
  formal := nameP
  formals := []
  notReturn := plainSymbol_p
  origin := origin
  force _ _ := none
  unqualified := unqualified_p
  reach s t o s' := t = [] ∧ o = .failed ∧ s' = s
  may := may

def nowhere : Span := ⟨0, 0, 0, 0⟩

def formalP : Cst := .identifier "p" nowhere

end Ry.Promise
