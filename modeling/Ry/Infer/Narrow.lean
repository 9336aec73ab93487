import Ry.Infer.Guard
import Ry.Scope.Snapshot

/-! # Type facts established by guards

A `Narrowing` is what a condition proves on each of its two paths.
`applyNarrowingBranch` installs the facts of one path in a scope and reports the names it
narrowed; only `NULL` has a complement a type can state, so most negative facts degrade
to the unknown type.
-/

namespace Ry

/-- A type refinement extracted from an `if` condition. -/
inductive Narrowing
  /-- Each list has facts proved on that path through a compound guard. -/
  | compound (base : Narrowing) (onTrue onFalse : List Narrowing)
  | none
  /-- `var` satisfies `target` in the then branch. -/
  | positive (var : String) (target : RType)
  /-- `var` satisfies `target` in the else branch of `!predicate(var)`. -/
  | negative (var : String) (target : RType)
  /-- The false path of a zero-length guard. -/
  | nonNullElse (var : String)
  /-- The false path of a rejecting `||` chain with `length(x) != 1`. -/
  | scalarElse (var : String) (target : Option RType)
  /-- The loop-carried vector alternative cannot reach the body. -/
  | scalarThen (var : String)
  /-- `!missing(x)` -/
  | supplied (var : String)
  /-- `var` holds at least `min` elements on the selected path. -/
  | lengthAtLeast (var : String) (min : Nat)
  /-- R never enters this branch with `var`'s recorded type. -/
  | unreached (var : String)

inductive NarrowingBranch
  | thenBranch | elseBranch
deriving DecidableEq

namespace RType

mutual
/-- Every mode a value of the type may have. -/
def modesOf : RType → List Mode
  | ⟨mode, _, _, _, _, members, _⟩ => if mode = .union then modesOf? members else [mode]
termination_by structural t => t
def modesOf? : Option (List RType) → List Mode
  | none => []
  | some ms => modesOfMembers ms
termination_by structural o => o
def modesOfMembers : List RType → List Mode
  | [] => []
  | m :: ms => modesOf m ++ modesOfMembers ms
termination_by structural l => l
end

/-- The types have a mode in common. -/
def typesIntersect (left right : RType) : Bool :=
  left.modesOf.any right.modesOf.contains

/-- A member of the type has the mode. -/
def hasMember (t : RType) (mode : Mode) : Bool :=
  t.members.elim false fun ms => ms.any (·.mode == mode)

/-- `target` tests only a mode, not a class. -/
def isModePredicate (target : RType) : Bool :=
  (match target.mode with
    | .logical | .integer | .double | .character | .complex | .raw | .list | .function
    | .union => true
    | _ => false) && !target.cls.hasKnownClass

/-- `target` tests the mode. -/
def tests (target : RType) (mode : Mode) : Bool :=
  if target.mode = .union then target.hasMember mode else mode == target.mode

/-- Every mode of `existing` is one `target` tests. -/
def isExactlyTestedFamily (existing target : RType) : Bool :=
  if existing.mode = .union then
    existing.members.elim false fun ms => !ms.isEmpty && ms.all fun m => target.tests m.mode
  else target.tests existing.mode

/-- No class is known, of the value or of a member. -/
def hasNoKnownClass (t : RType) : Bool :=
  !t.cls.hasKnownClass && t.members.elim true fun ms => ms.all (!·.cls.hasKnownClass)

end RType

namespace Scope

def isDefaultParameter (s : Scope) (name : String) : Bool := marked s.defaultParameterBindings name

/-- A passing mode guard on a binding with no member of the tested mode. -/
def disjointModeGuard (s : Scope) (var : String) (existing target : RType) : Bool :=
  target.isModePredicate && !existing.mode.isUnknownOrNonVector && existing.mode != .null
    && !s.isDefaultParameter var && !existing.typesIntersect target

/-- The value's fully known classes include every tested class. -/
def provenClassGuard (s : Scope) (var : String) (existing target : RType) : Bool :=
  target.cls.hasKnownClass && existing.cls.hasKnownClass && !existing.cls.guarded
    && decide (existing.cls.names.length < 4) && !s.isDefaultParameter var
    && target.cls.names.all existing.cls.contains

/-- The type a passing guard installs. -/
def guardedType (s : Scope) (var : String) (existing target : RType) : RType :=
  let length := if existing.mode = .null ∧ target.mode ≠ .null then .unknown else existing.length
  let narrowed := { target with length }
  if existing.cls.hasKnownClass && !existing.cls.guarded && !s.isDefaultParameter var then
    { narrowed with cls := existing.cls }
  else narrowed

/-- A narrowing write, and the name it reports. -/
def narrowTo (s : Scope) (var : String) (ty : RType) : Scope × List String :=
  (s.insertNarrowed var ty, [var])

/-- `narrow_away_from_null_in`, or else `otherwise`. -/
def narrowAwayFromNullOr (s : Scope) (var : String) (otherwise : Scope × List String) :
    Scope × List String :=
  match (s.get var).bind (·.narrowAwayFromNull) with
  | some ty => s.narrowTo var ty
  | none => otherwise

/-- `is.numeric(x)` and the like install what they prove where the recorded type has room
for it. -/
def positiveInstalls (s : Scope) (var : String) (existing target : RType) : Bool :=
  let classNarrowing := target.cls.hasKnownClass
  let incompatibleDefault := s.isDefaultParameter var && !existing.typesIntersect target
  let matchesMode :=
    existing.mode.isUnknownOrNonVector || match existing.mode with
      | .null => target.mode != .null
      | .union => target.mode == .union || existing.hasMember target.mode
      | mode => target.tests mode
  (incompatibleDefault || classNarrowing || matchesMode)
    && (incompatibleDefault || classNarrowing || existing.mode.isUnknownOrNonVector
      || existing.mode == .null || existing.mode == .union)

/-- `Positive` on the then path. -/
def applyPositive (s : Scope) (var : String) (target : RType) : Scope × List String :=
  match s.get var with
  | none => (s, [])
  | some existing =>
    if s.disjointModeGuard var existing target then s.narrowTo var RType.unknown
    else if s.positiveInstalls var existing target then
      s.narrowTo var (s.guardedType var existing target)
    -- `is.null(x)` leaves a NULL default's type unchanged but proves it on this path
    else if target.mode == .null && existing.mode == .null && s.isDefaultParameter var then
      (s.insertNarrowed var existing, [])
    else (s, [])

/-- A false path that R never takes with the recorded type. -/
def rejects (s : Scope) (var : String) (existing target : RType) : Bool :=
  s.provenClassGuard var existing target
    || (target.isModePredicate && existing.hasNoKnownClass && existing.isExactlyTestedFamily target)

/-- `Positive` on the else path, and `Negative` on the then path. -/
def applyRejected (s : Scope) (var : String) (target : RType) : Scope × List String :=
  let degraded :=
    if (s.get var).elim false (s.rejects var · target) then s.narrowTo var RType.unknown
    else (s, [])
  if target.mode = .null then s.narrowAwayFromNullOr var degraded else degraded

/-- `install_positive_narrowing` -/
def installPositive (s : Scope) (var : String) (target : RType) : Scope × List String :=
  match s.get var with
  | none => (s, [])
  | some existing =>
    if s.disjointModeGuard var existing target then s.narrowTo var RType.unknown
    else if (s.isDefaultParameter var && !existing.typesIntersect target)
      || target.cls.hasKnownClass || existing.mode.isUnknownOrNonVector
      || existing.mode == .null || existing.mode == .union then
      s.narrowTo var (s.guardedType var existing target)
    else (s, [])

/-- `ScalarElse` on the else path. -/
def applyScalarElse (s : Scope) (var : String) (target : Option RType) : Scope × List String :=
  match s.get var with
  | none => (s, [])
  | some existing =>
    -- a concrete NULL local cannot satisfy `length(x) == 1`
    if existing.mode == Mode.null && !s.isDefaultParameter var then
      ({ s with unreachable := true }, [])
    else
      let scalar := match target with
        | some target => s.guardedType var existing target
        | none => if existing.mode = Mode.null then RType.unknown else existing
      s.narrowTo var { scalar with length := .one }

/-- `LengthAtLeast` on the then path. -/
def applyLengthAtLeast (s : Scope) (var : String) (min : Nat) : Scope × List String :=
  match s.get var with
  | none => (s, [])
  | some existing =>
    let (refined, changed) := existing.refineLengthAtLeast min
    if changed then s.narrowTo var refined else (s, [])

/-- `Supplied` on the then path: only the omitted-call type goes. -/
def applySupplied (s : Scope) (var : String) : Scope × List String :=
  if s.isDefaultParameter var && !marked s.narrowedBindings var then
    s.narrowTo var RType.unknown
  else (s, [])

mutual
/-- Apply all facts the selected branch proves; the names they narrowed. -/
def applyNarrowingBranch : Narrowing → NarrowingBranch → Scope → Scope × List String
  | .compound base onTrue onFalse, branch, s =>
    let (s, names) := applyNarrowingBranch base branch s
    let (s, more) := match branch with
      | .thenBranch => applyFacts onTrue s
      | .elseBranch => applyFacts onFalse s
    (s, names ++ more)
  | .positive var target, .thenBranch, s => s.applyPositive var target
  | .positive var target, .elseBranch, s | .negative var target, .thenBranch, s =>
    s.applyRejected var target
  | .negative var target, .elseBranch, s => s.installPositive var target
  | .nonNullElse var, .elseBranch, s => s.narrowAwayFromNullOr var (s, [])
  | .scalarElse var target, .elseBranch, s => s.applyScalarElse var target
  | .unreached var, .thenBranch, s => s.narrowTo var RType.unknown
  | .lengthAtLeast var min, .thenBranch, s => s.applyLengthAtLeast var min
  | .scalarThen var, .thenBranch, s => (s.clearLoopVector var, [])
  | .supplied var, .thenBranch, s => s.applySupplied var
  | .none, _, s | .nonNullElse _, .thenBranch, s | .scalarElse _ _, .thenBranch, s
  | .unreached _, .elseBranch, s | .lengthAtLeast _ _, .elseBranch, s
  | .scalarThen _, .elseBranch, s | .supplied _, .elseBranch, s => (s, [])
termination_by structural n => n
/-- The facts of a path hold as then-branch facts. -/
def applyFacts : List Narrowing → Scope → Scope × List String
  | [], s => (s, [])
  | fact :: facts, s =>
    let (s, names) := applyNarrowingBranch fact .thenBranch s
    let (s, more) := applyFacts facts s
    (s, names ++ more)
termination_by structural l => l
end

/-! ## What a fact can do -/

/-- One fact: it narrows a binding and reports it, says again what the binding has, finds
the path dead, clears a loop vector, or nothing. -/
inductive NarrowStep (s : Scope) : Scope × List String → Prop
  | skip : NarrowStep s (s, [])
  | narrow (var : String) (ty : RType) : NarrowStep s (s.narrowTo var ty)
  | keep (var : String) (ty : RType) (h : s.get var = some ty) :
    NarrowStep s (s.insertNarrowed var ty, [])
  | dead : NarrowStep s ({ s with unreachable := true }, [])
  | scalar (var : String) : NarrowStep s (s.clearLoopVector var, [])

/-- Facts one after another. -/
inductive NarrowRun : Scope → Scope × List String → Prop
  | done (s : Scope) : NarrowRun s (s, [])
  | step {s : Scope} {r r' : Scope × List String} (h : NarrowStep s r) (h' : NarrowRun r.1 r') :
    NarrowRun s (r'.1, r.2 ++ r'.2)

theorem NarrowStep.run {s : Scope} {r : Scope × List String} (h : NarrowStep s r) :
    NarrowRun s r := by
  simpa using NarrowRun.step h (.done r.1)

theorem NarrowRun.append {s : Scope} {r r' : Scope × List String} (h : NarrowRun s r)
    (h' : NarrowRun r.1 r') : NarrowRun s (r'.1, r.2 ++ r'.2) := by
  induction h with
  | done s => exact h'
  | step hstep _ ih => simpa [List.append_assoc] using NarrowRun.step hstep (ih h')

section Rules

variable (s : Scope) (var : String)

theorem narrowStep_narrowAwayFromNullOr {otherwise : Scope × List String}
    (h : NarrowStep s otherwise) : NarrowStep s (s.narrowAwayFromNullOr var otherwise) := by
  unfold narrowAwayFromNullOr
  split
  · exact .narrow var _
  · exact h

theorem narrowStep_applyPositive (target : RType) : NarrowStep s (s.applyPositive var target) := by
  unfold applyPositive
  split
  · exact .skip
  · rename_i existing hget
    split
    · exact .narrow var _
    · split
      · exact .narrow var _
      · split
        · exact .keep var existing hget
        · exact .skip

theorem narrowStep_applyRejected (target : RType) : NarrowStep s (s.applyRejected var target) := by
  have hdegraded : NarrowStep s
      (if (s.get var).elim false (s.rejects var · target) then s.narrowTo var RType.unknown
        else (s, [])) := by
    split
    · exact .narrow var _
    · exact .skip
  simp only [applyRejected]
  split
  · exact narrowStep_narrowAwayFromNullOr s var hdegraded
  · exact hdegraded

theorem narrowStep_installPositive (target : RType) :
    NarrowStep s (s.installPositive var target) := by
  unfold installPositive
  split
  · exact .skip
  · split
    · exact .narrow var _
    · split
      · exact .narrow var _
      · exact .skip

theorem narrowStep_applyScalarElse (target : Option RType) :
    NarrowStep s (s.applyScalarElse var target) := by
  unfold applyScalarElse
  split
  · exact .skip
  · split
    · exact .dead
    · exact .narrow var _

theorem narrowStep_applyLengthAtLeast (min : Nat) :
    NarrowStep s (s.applyLengthAtLeast var min) := by
  unfold applyLengthAtLeast
  split
  · exact .skip
  · simp only
    split
    · exact .narrow var _
    · exact .skip

theorem narrowStep_applySupplied : NarrowStep s (s.applySupplied var) := by
  unfold applySupplied
  split
  · exact .narrow var _
  · exact .skip

end Rules

mutual
/-- The facts of a branch are applied one after another. -/
theorem narrowRun_applyNarrowingBranch (n : Narrowing) (branch : NarrowingBranch) (s : Scope) :
    NarrowRun s (s.applyNarrowingBranch n branch) := by
  match n, branch with
  | .compound base onTrue onFalse, .thenBranch =>
    exact (narrowRun_applyNarrowingBranch base .thenBranch s).append (narrowRun_applyFacts onTrue _)
  | .compound base onTrue onFalse, .elseBranch =>
    exact (narrowRun_applyNarrowingBranch base .elseBranch s).append
      (narrowRun_applyFacts onFalse _)
  | .positive var target, .thenBranch => exact (narrowStep_applyPositive s var target).run
  | .positive var target, .elseBranch => exact (narrowStep_applyRejected s var target).run
  | .negative var target, .thenBranch => exact (narrowStep_applyRejected s var target).run
  | .negative var target, .elseBranch => exact (narrowStep_installPositive s var target).run
  | .nonNullElse var, .elseBranch => exact (narrowStep_narrowAwayFromNullOr s var .skip).run
  | .scalarElse var target, .elseBranch => exact (narrowStep_applyScalarElse s var target).run
  | .unreached var, .thenBranch => exact (NarrowStep.narrow var _).run
  | .lengthAtLeast var min, .thenBranch => exact (narrowStep_applyLengthAtLeast s var min).run
  | .scalarThen var, .thenBranch => exact (NarrowStep.scalar var).run
  | .supplied var, .thenBranch => exact (narrowStep_applySupplied s var).run
  | .none, _ | .nonNullElse _, .thenBranch | .scalarElse _ _, .thenBranch
  | .unreached _, .elseBranch | .lengthAtLeast _ _, .elseBranch
  | .scalarThen _, .elseBranch | .supplied _, .elseBranch => exact .done s
theorem narrowRun_applyFacts (facts : List Narrowing) (s : Scope) :
    NarrowRun s (s.applyFacts facts) := by
  match facts with
  | [] => exact .done s
  | fact :: facts =>
    exact (narrowRun_applyNarrowingBranch fact .thenBranch s).append (narrowRun_applyFacts facts _)
end

/-- Install the selected branch's failed-namespace fact; `guard` is the tested package
and whether the then branch is the one where loading failed. -/
def applyFailedNamespaceBranch (s : Scope) (guard : Option (String × Bool))
    (branch : NarrowingBranch) : Scope :=
  match guard with
  | none => s
  | some (package, failedThen) =>
    if failedThen == decide (branch = .thenBranch) then
      { s with failedNamespaces := Insert.insert package s.failedNamespaces }
    else { s with failedNamespaces := s.failedNamespaces.erase package }

end Scope

end Ry
