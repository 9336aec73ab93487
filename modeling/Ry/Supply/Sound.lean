import Ry.Supply.Straight

/-! # The walk against the executions

The invariant: at an open point some execution has come to it with the formal at its default and the
tests it caches as they are; at any other point the walk reports nothing.  `Sound` says of a piece
of code that walking it keeps this; here are the ways pieces of code are put together.
-/

namespace Ry.FormalSupply

variable (c : Checker) (formal : String) (tested : Finset String)

/-- What a walk from an open point promises of the executions. -/
def Reaches (os : Runs) (flows : Bool) (free : Prop) (walked : Except Span SupplyPoint) : Prop :=
  match walked with
  | .error span => .reached span ∈ os
  | .ok point => flows = true → point.Open →
      ∃ b₀, ∀ b, b = b₀ ∨ free → ∃ f, .done b f ∈ os ∧ Matches tested point f

def AllOk (visits : Visits) : Prop := ∀ visit ∈ visits, Ok c formal tested visit.1 visit.2

/-- A walk against the executions of the same code. -/
structure Sound (walk : SupplyPoint → Except Span SupplyPoint) (runs : Frame → Runs) (flows : Bool)
    (free : Prop) (visits : SupplyPoint → Visits) : Prop where
  reaches : ∀ {point f}, AllOk c formal tested (visits point) → point.Open →
    Matches tested point f → Reaches tested (runs f) flows free (walk point)
  quiet : ∀ {point}, AllOk c formal tested (visits point) → ¬ point.Open →
    ∃ next, walk point = .ok next ∧ ¬ next.Open

abbrev FreeExpr (e : Expr) : Prop :=
  Free tested (anyInExpr .all (testNode formal ∅) e) (exprTruthNames e)

abbrev ExprSound (e : Expr) : Prop :=
  Sound c formal tested (walkExpr c formal e) (exprRuns c formal e) (exprFlows c e)
    (FreeExpr formal tested e) (visitExpr c formal e)

abbrev ArgsSound (captured : List Bool) (args : List Arg) : Prop :=
  Sound c formal tested (walkArgs c formal captured args) (argsRuns c formal captured args)
    (argsFlow c captured args) False (visitArgs c formal captured args)

/-- The assignment of `value` to `target`, at the places `own`. -/
abbrev AssignSound (target value : Expr) (flowsTarget : Bool) (own : SupplyPoint → Visits) : Prop :=
  Sound c formal tested
    (fun point => (walkExpr c formal value point).bind
      (assignTo formal target value (walkExpr c formal target)))
    (fun f => Outcome.andThen (exprRuns c formal value f) fun b f =>
      assignRuns formal target value b (exprRuns c formal target) f)
    (exprFlows c value && flowsTarget) (FreeExpr formal tested value)
    (fun point => own point ++ (visitExpr c formal value point ++
      after (walkExpr c formal value point)
        (visitTarget target (walkExpr c formal target) (visitExpr c formal target))))

variable {c formal tested}

theorem allOk_append {a b : Visits} :
    AllOk c formal tested (a ++ b) ↔ AllOk c formal tested a ∧ AllOk c formal tested b :=
  List.forall_mem_append

theorem allOk_cons {site : Site} {point : SupplyPoint} {visits : Visits} :
    AllOk c formal tested ((site, point) :: visits) ↔
      Ok c formal tested site point ∧ AllOk c formal tested visits :=
  List.forall_mem_cons

theorem Reaches.of_done {os : Runs} {flows : Bool} {free : Prop} {point : SupplyPoint}
    (h : ∀ b, ∃ f, .done b f ∈ os ∧ Matches tested point f) :
    Reaches tested os flows free (.ok point) :=
  fun _ _ => ⟨true, fun b _ => h b⟩

/-- What is reached, or completed in a frame, stays so behind code that comes to it. -/
theorem Reaches.after {os : Runs} {next : Bool → Frame → Runs} {b : Bool} {f : Frame} {flows : Bool}
    {free : Prop} {walked : Except Span SupplyPoint} (hdone : .done b f ∈ os)
    (h : Reaches tested (next b f) flows free walked) :
    Reaches tested (Outcome.andThen os next) flows free walked := by
  cases walked with
  | error span => exact Outcome.mem_andThen hdone h
  | ok point =>
    intro hflows hopen
    obtain ⟨b₀, hb⟩ := h hflows hopen
    refine ⟨b₀, fun b' hb' => ?_⟩
    obtain ⟨f', hf', hm⟩ := hb b' hb'
    exact ⟨f', Outcome.mem_andThen hdone hf', hm⟩

theorem Reaches.mono {os : Runs} {flows flows' : Bool} {free free' : Prop}
    {walked : Except Span SupplyPoint} (h : Reaches tested os flows free walked)
    (hflows : flows' = true → flows = true) (hfree : free' → free) :
    Reaches tested os flows' free' walked := by
  cases walked with
  | error span => exact h
  | ok point =>
    intro hflows' hopen
    obtain ⟨b₀, hb⟩ := h (hflows hflows') hopen
    exact ⟨b₀, fun b hb' => hb b (hb'.imp id hfree)⟩

/-- Behind completed code, an end that keeps the frame. -/
theorem Reaches.map {os : Runs} {next : Bool → Frame → Runs} {flows : Bool} {free free' : Prop}
    {walked : Except Span SupplyPoint} (h : Reaches tested os flows free walked)
    (hnext : flows = true → ∀ b₀, ∃ b₁, ∀ b, b = b₁ ∨ free' → ∃ b', (b' = b₀ ∨ free) ∧
      ∀ f, .done b f ∈ next b' f) :
    Reaches tested (Outcome.andThen os next) flows free' walked := by
  cases walked with
  | error span => exact Outcome.reached_andThen h next
  | ok point =>
    intro hflows hopen
    obtain ⟨b₀, hb⟩ := h hflows hopen
    obtain ⟨b₁, hb₁⟩ := hnext hflows b₀
    refine ⟨b₁, fun b hb' => ?_⟩
    obtain ⟨b', hb', hdone⟩ := hb₁ b hb'
    obtain ⟨f, hf, hm⟩ := hb b' hb'
    exact ⟨f, Outcome.mem_andThen hf (hdone f), hm⟩

/-! ## Sequencing -/

section Combinators

variable {walk walk' : SupplyPoint → Except Span SupplyPoint} {runs runs' : Frame → Runs}
  {flows flows' : Bool} {free free' : Prop} {visits visits' : SupplyPoint → Visits}

/-- Code the walk passes over, and that completes with either truth value. -/
theorem Sound.still (hwalk : ∀ point, walk point = .ok point)
    (hruns : ∀ f, runs f = Outcome.either f) :
    Sound c formal tested walk runs flows free visits := by
  refine ⟨fun {point f} _ _ hm => ?_, fun {point} _ hquiet => ⟨point, hwalk point, hquiet⟩⟩
  rw [hwalk, hruns]
  exact .of_done fun b => ⟨f, Outcome.done_mem_either b f, hm⟩

/-- An end that keeps the frame. -/
theorem Sound.map (h : Sound c formal tested walk runs flows free visits)
    {next : Bool → Frame → Runs} (hflows : flows' = true → flows = true)
    (hvisits : ∀ point, AllOk c formal tested (visits' point) →
      AllOk c formal tested (visits point))
    (hnext : flows' = true → ∀ b₀, ∃ b₁, ∀ b, b = b₁ ∨ free' → ∃ b', (b' = b₀ ∨ free) ∧
      ∀ f, .done b f ∈ next b' f) :
    Sound c formal tested walk (fun f => Outcome.andThen (runs f) next) flows' free' visits' := by
  refine ⟨fun {point f} hok hopen hm => ?_, fun hok hquiet => h.quiet (hvisits _ hok) hquiet⟩
  exact ((h.reaches (hvisits _ hok) hopen hm).mono hflows id).map hnext

/-- An end with either truth value. -/
theorem Sound.either (h : Sound c formal tested walk runs flows free visits)
    (hflows : flows' = true → flows = true)
    (hvisits : ∀ point, AllOk c formal tested (visits' point) →
      AllOk c formal tested (visits point)) :
    Sound c formal tested walk (fun f => Outcome.andThen (runs f) fun _ f => Outcome.either f)
      flows' free' visits' := by
  refine h.map hflows hvisits fun _ b₀ => ⟨true, fun b _ => ⟨b₀, .inl rfl, fun f => ?_⟩⟩
  exact Outcome.done_mem_either b f

/-- One piece of code after another. -/
theorem Sound.seq (h : Sound c formal tested walk runs flows free visits)
    (h' : Sound c formal tested walk' runs' flows' free' visits') (own : SupplyPoint → Visits)
    (hflows : ∀ point, AllOk c formal tested (own point) → point.Open → flows = true) :
    Sound c formal tested (fun point => (walk point).bind walk')
      (fun f => Outcome.andThen (runs f) fun _ f => runs' f) flows' free'
      (fun point => own point ++ (visits point ++ after (walk point) visits')) := by
  constructor
  · intro point f hok hopen hm
    obtain ⟨hown, hrest⟩ := allOk_append.mp hok
    obtain ⟨hfirst, hsecond⟩ := allOk_append.mp hrest
    have hhere := h.reaches hfirst hopen hm
    cases hwalk : walk point with
    | error span =>
      rw [hwalk] at hhere
      exact Outcome.reached_andThen hhere _
    | ok next =>
      rw [hwalk] at hhere hsecond
      by_cases hnext : next.Open
      · obtain ⟨b₀, hb⟩ := hhere (hflows point hown hopen) hnext
        obtain ⟨f', hf', hm'⟩ := hb b₀ (.inl rfl)
        exact .after hf' (h'.reaches hsecond hnext hm')
      · obtain ⟨last, hlast, hquiet⟩ := h'.quiet hsecond hnext
        change Reaches tested _ _ _ (walk' next)
        rw [hlast]
        exact fun _ hopen' => absurd hopen' hquiet
  · intro point hok hquiet
    obtain ⟨-, hrest⟩ := allOk_append.mp hok
    obtain ⟨hfirst, hsecond⟩ := allOk_append.mp hrest
    obtain ⟨next, hnext, hquiet'⟩ := h.quiet hfirst hquiet
    rw [hnext] at hsecond
    obtain ⟨last, hlast, hquiet''⟩ := h'.quiet hsecond hquiet'
    refine ⟨last, ?_, hquiet''⟩
    rw [hnext]
    exact hlast

theorem Sound.mono (h : Sound c formal tested walk runs flows free visits)
    (hflows : flows' = true → flows = true) (hfree : free' → free)
    (hvisits : ∀ point, AllOk c formal tested (visits' point) →
      AllOk c formal tested (visits point)) :
    Sound c formal tested walk runs flows' free' visits' :=
  ⟨fun hok hopen hm => (h.reaches (hvisits _ hok) hopen hm).mono hflows hfree,
    fun hok hquiet => h.quiet (hvisits _ hok) hquiet⟩

theorem Sound.congr (h : Sound c formal tested walk runs flows free visits)
    (hwalk : ∀ point, walk' point = walk point) (hruns : ∀ f, runs' f = runs f) :
    Sound c formal tested walk' runs' flows free visits := by
  rw [funext hwalk, funext hruns]
  exact h

end Combinators

/-! ## Arms -/

theorem Matches.of_proxies {point point' : SupplyPoint} {f : Frame} (h : Matches tested point f)
    (hproxies : ∀ name negated, point'.proxies name = some negated →
      point.proxies name = some negated) : Matches tested point' f :=
  ⟨h.omitted, fun name negated hname => h.cached name negated (hproxies name negated hname),
    h.covered⟩

section Arms

variable {walkThen walkElse : SupplyPoint → Except Span SupplyPoint}
  {runsThen runsElse : Frame → Runs}
  {flowsThen flowsElse : Bool} {freeThen freeElse : Prop}
  {visitsThen visitsElse : SupplyPoint → Visits}
  (hthen : Sound c formal tested walkThen runsThen flowsThen freeThen visitsThen)
  (helse : Sound c formal tested walkElse runsElse flowsElse freeElse visitsElse)

include hthen helse

/-- Both arms, from the points they begin with: an open one is come to. -/
theorem arms_reach {os : Runs} {point thenStart elseStart : SupplyPoint} {flows : Bool}
    {free : Prop} {thenDiverges elseDiverges : Bool}
    (hokThen : AllOk c formal tested (visitsThen thenStart))
    (hokElse : AllOk c formal tested (after (walkThen thenStart) fun _ => visitsElse elseStart))
    (hcomeThen : thenStart.Open → ∃ f, .done true f ∈ os ∧ Matches tested thenStart f)
    (hcomeElse : elseStart.Open → ∃ f, .done false f ∈ os ∧ Matches tested elseStart f)
    (hflows : flows = true →
      (thenDiverges = true ∨ flowsThen = true) ∧ (elseDiverges = true ∨ flowsElse = true))
    (hfree : free → freeThen ∧ freeElse) :
    Reaches tested (Outcome.andThen os fun b f => if b then runsThen f else runsElse f) flows free
      (do
        let thenPoint ← walkThen thenStart
        let elsePoint ← walkElse elseStart
        .ok (mergeLiveArms point thenPoint thenDiverges elsePoint elseDiverges)) := by
  -- where an arm ends open it began open, and what it reaches is reached
  have hthenReaches {r : Except Span SupplyPoint} (hr : walkThen thenStart = r)
      (hr' : ∀ next, r = .ok next → next.Open) :
      Reaches tested (Outcome.andThen os fun b f => if b then runsThen f else runsElse f) flowsThen
        freeThen r := by
    by_cases hopen : thenStart.Open
    · obtain ⟨f, hdone, hm⟩ := hcomeThen hopen
      exact .after hdone (hr ▸ hthen.reaches hokThen hopen hm)
    · obtain ⟨next, hnext, hquiet⟩ := hthen.quiet hokThen hopen
      exact absurd (hr' next (hr ▸ hnext)) hquiet
  cases hwalkThen : walkThen thenStart with
  | error span => exact hthenReaches hwalkThen fun next h => by cases h
  | ok thenPoint =>
    rw [hwalkThen] at hokElse
    have helseReaches {r : Except Span SupplyPoint} (hr : walkElse elseStart = r)
        (hr' : ∀ next, r = .ok next → next.Open) :
        Reaches tested (Outcome.andThen os fun b f => if b then runsThen f else runsElse f)
          flowsElse freeElse r := by
      by_cases hopen : elseStart.Open
      · obtain ⟨f, hdone, hm⟩ := hcomeElse hopen
        exact .after hdone (hr ▸ helse.reaches hokElse hopen hm)
      · obtain ⟨next, hnext, hquiet⟩ := helse.quiet hokElse hopen
        exact absurd (hr' next (hr ▸ hnext)) hquiet
    cases hwalkElse : walkElse elseStart with
    | error span => exact helseReaches hwalkElse fun next h => by cases h
    | ok elsePoint =>
      intro hflow hopen
      obtain ⟨hflowThen, hflowElse⟩ := hflows hflow
      rcases open_mergeLiveArms hopen with ⟨hdiverges, hopenArm⟩ | ⟨hdiverges, hopenArm⟩
      · have hreach := hthenReaches hwalkThen fun next h => by
          obtain rfl := Except.ok.inj h
          exact hopenArm
        obtain ⟨b₀, hb⟩ := hreach (hflowThen.resolve_left (by simp [hdiverges])) hopenArm
        refine ⟨b₀, fun b hb' => ?_⟩
        obtain ⟨f, hdone, hm⟩ := hb b (hb'.imp id fun h => (hfree h).1)
        refine ⟨f, hdone, hm.of_proxies fun name negated hname => ?_⟩
        cases elseDiverges with
        | true => simpa [mergeLiveArms, hdiverges] using hname
        | false =>
          simp only [mergeLiveArms, hdiverges] at hname
          exact (mergePoints_proxies hname).1
      · have hreach := helseReaches hwalkElse fun next h => by
          obtain rfl := Except.ok.inj h
          exact hopenArm
        obtain ⟨b₀, hb⟩ := hreach (hflowElse.resolve_left (by simp [hdiverges])) hopenArm
        refine ⟨b₀, fun b hb' => ?_⟩
        obtain ⟨f, hdone, hm⟩ := hb b (hb'.imp id fun h => (hfree h).2)
        refine ⟨f, hdone, hm.of_proxies fun name negated hname => ?_⟩
        cases thenDiverges with
        | true => simpa [mergeLiveArms, hdiverges] using hname
        | false =>
          simp only [mergeLiveArms, hdiverges] at hname
          exact (mergePoints_proxies hname).2

theorem arms_quiet (point : SupplyPoint) (thenDiverges elseDiverges : Bool)
    {thenStart elseStart : SupplyPoint} (hokThen : AllOk c formal tested (visitsThen thenStart))
    (hokElse : AllOk c formal tested (after (walkThen thenStart) fun _ => visitsElse elseStart))
    (hquietThen : ¬ thenStart.Open) (hquietElse : ¬ elseStart.Open) :
    ∃ next, (do
        let thenPoint ← walkThen thenStart
        let elsePoint ← walkElse elseStart
        .ok (mergeLiveArms point thenPoint thenDiverges elsePoint elseDiverges) :
          Except Span SupplyPoint) = .ok next ∧ ¬ next.Open := by
  obtain ⟨thenPoint, hthenPoint, hquiet⟩ := hthen.quiet hokThen hquietThen
  rw [hthenPoint] at hokElse
  obtain ⟨elsePoint, helsePoint, hquiet'⟩ := helse.quiet hokElse hquietElse
  refine ⟨mergeLiveArms point thenPoint thenDiverges elsePoint elseDiverges, ?_, fun hopen => ?_⟩
  · rw [hthenPoint, helsePoint]
    rfl
  · rcases open_mergeLiveArms hopen with ⟨-, h⟩ | ⟨-, h⟩
    · exact hquiet h
    · exact hquiet' h

omit hthen helse in
theorem walkArms_ok {cond : Expr} {walkCond : SupplyPoint → Except Span SupplyPoint}
    {point next : SupplyPoint} {thenAlive elseAlive : Option Supply}
    {thenDiverges elseDiverges : Bool}
    (h : conditionArms formal cond walkCond point = .ok (next, thenAlive, elseAlive)) :
    walkArms formal cond walkCond walkThen walkElse thenDiverges elseDiverges point = (do
      let thenPoint ← walkThen { next with alive := thenAlive }
      let elsePoint ← walkElse { next with alive := elseAlive }
      .ok (mergeLiveArms next thenPoint thenDiverges elsePoint elseDiverges)) := by
  rw [walkArms, h]
  rfl

/-- A conditional. -/
theorem Sound.arms {cond : Expr} {thenDiverges elseDiverges : Bool}
    {flows : Bool} {free : Prop}
    (hcond : ExprSound c formal tested cond)
    (own : SupplyPoint → Visits)
    (hok : ∀ point, AllOk c formal tested (own point) → CondOk c formal tested cond point)
    (hflows : flows = true →
      (thenDiverges = true ∨ flowsThen = true) ∧ (elseDiverges = true ∨ flowsElse = true))
    (hfree : free → freeThen ∧ freeElse) :
    Sound c formal tested
      (walkArms formal cond (walkExpr c formal cond) walkThen walkElse thenDiverges elseDiverges)
      (fun f => Outcome.andThen (exprRuns c formal cond f) fun b f =>
        if b then runsThen f else runsElse f) flows free
      (fun point => own point ++ visitArms formal cond (walkExpr c formal cond) walkThen
        (visitExpr c formal cond) visitsThen visitsElse point) := by
  constructor
  · intro point f hallOk hopen hm
    obtain ⟨hown, hrest⟩ := allOk_append.mp hallOk
    obtain ⟨hcondOk, harmsOk⟩ := allOk_append.mp hrest
    have hat := hok point hown
    unfold CondOk at hat
    unfold condPoint at hcondOk
    cases hatom : atom formal cond true point with
    | noInfo =>
      simp only [hatom] at hat hcondOk
      obtain ⟨hflow, hnames⟩ := hat hopen
      have hfreeCond := And.intro (noTest_of_noInfo cond true hatom) hnames
      have hhere := hcond.reaches hcondOk hopen hm
      cases hwalk : walkExpr c formal cond point with
      | error span =>
        rw [hwalk] at hhere
        have harms : conditionArms formal cond (walkExpr c formal cond) point = .error span := by
          simp only [conditionArms, hatom, hwalk]
          rfl
        rw [walkArms, harms]
        exact Outcome.reached_andThen hhere _
      | ok next =>
        rw [hwalk] at hhere
        have harms : conditionArms formal cond (walkExpr c formal cond) point =
            .ok (next, next.alive, next.alive) := by
          simp only [conditionArms, hatom, hwalk]
          rfl
        rw [harms] at harmsOk
        rw [walkArms_ok harms]
        obtain ⟨hokThen, hokElse⟩ := allOk_append.mp harmsOk
        have hcome (b : Bool) (hnext : next.Open) :
            ∃ f', .done b f' ∈ exprRuns c formal cond f ∧ Matches tested next f' := by
          obtain ⟨b₀, hb⟩ := hhere hflow hnext
          exact hb b (.inr hfreeCond)
        exact arms_reach hthen helse hokThen hokElse (hcome true) (hcome false) hflows hfree
    | test thenFact elseFact =>
      simp only [hatom] at hat hcondOk
      obtain ⟨-, hat⟩ := hat
      obtain ⟨hflow, hstraight, hcoherent, hnames⟩ := hat hopen
      obtain ⟨silent, hsilent, -⟩ := hcond.quiet hcondOk (by simp [SupplyPoint.Open])
      have halive (fact : Supply) : armState point fact = some fact := by
        refine if_pos ?_
        unfold SupplyPoint.Open at hopen
        cases halive : point.alive with
        | none => simp [halive] at hopen
        | some fact => rfl
      have harms : conditionArms formal cond (walkExpr c formal cond) point =
          .ok (point, some thenFact, some elseFact) := by
        simp only [conditionArms, hatom, hsilent, halive]
        rfl
      rw [harms] at harmsOk
      rw [walkArms_ok harms]
      obtain ⟨hokThen, hokElse⟩ := allOk_append.mp harmsOk
      have hrealized := atom_runs hm cond true hstraight hflow hcoherent hnames (by simp [hatom])
      rw [hatom] at hrealized
      have hsame (fact : Supply) : Matches tested { point with alive := some fact } f :=
        hm.of_proxies fun name negated hname => hname
      refine arms_reach hthen helse hokThen hokElse (fun hstart => ?_) (fun hstart => ?_) hflows
        hfree
      · refine ⟨f, hrealized.asserted ?_, hsame thenFact⟩
        simpa [SupplyPoint.Open, AtomOutcome.facts] using hstart
      · refine ⟨f, hrealized.denied ?_, hsame elseFact⟩
        simpa [SupplyPoint.Open, AtomOutcome.facts] using hstart
    | mention =>
      simp only [hatom] at hcondOk
      obtain ⟨silent, hsilent, -⟩ := hcond.quiet hcondOk (by simp [SupplyPoint.Open])
      have hquiet : ¬ SupplyPoint.Open { point with alive := armState point .supplied } := by
        unfold armState SupplyPoint.Open
        split <;> simp
      have harms : conditionArms formal cond (walkExpr c formal cond) point =
          .ok (point, armState point .supplied, armState point .supplied) := by
        simp only [conditionArms, hatom, hsilent]
        rfl
      rw [harms] at harmsOk
      obtain ⟨hokThen, hokElse⟩ := allOk_append.mp harmsOk
      obtain ⟨next, hnext, hnextQuiet⟩ :=
        arms_quiet hthen helse point thenDiverges elseDiverges hokThen hokElse hquiet hquiet
      rw [walkArms_ok harms, hnext]
      exact fun _ hnextOpen => absurd hnextOpen hnextQuiet
  · intro point hallOk hquiet
    obtain ⟨hown, hrest⟩ := allOk_append.mp hallOk
    obtain ⟨hcondOk, harmsOk⟩ := allOk_append.mp hrest
    have hat := hok point hown
    unfold CondOk at hat
    unfold condPoint at hcondOk
    have hsilentQuiet : ¬ SupplyPoint.Open { point with alive := some .supplied } := by
      simp [SupplyPoint.Open]
    cases hatom : atom formal cond true point with
    | noInfo =>
      simp only [hatom] at hcondOk
      obtain ⟨next, hnext, hnextQuiet⟩ := hcond.quiet hcondOk hquiet
      have harms : conditionArms formal cond (walkExpr c formal cond) point =
          .ok (next, next.alive, next.alive) := by
        simp only [conditionArms, hatom, hnext]
        rfl
      rw [harms] at harmsOk
      rw [walkArms_ok harms]
      obtain ⟨hokThen, hokElse⟩ := allOk_append.mp harmsOk
      exact arms_quiet hthen helse _ _ _ hokThen hokElse hnextQuiet hnextQuiet
    | test thenFact elseFact =>
      simp only [hatom] at hat hcondOk
      obtain ⟨silent, hsilent, -⟩ := hcond.quiet hcondOk hsilentQuiet
      -- the promise is dead, since no test is decoded where the formal is silenced
      have hdead : point.alive = none := by
        unfold SupplyPoint.Open at hquiet
        cases halive : point.alive with
        | none => rfl
        | some fact =>
          rw [halive] at hquiet
          cases fact with
          | supplied => exact absurd halive hat.1
          | untested => exact absurd rfl hquiet
          | defaulted => exact absurd rfl hquiet
      have harms : conditionArms formal cond (walkExpr c formal cond) point =
          .ok (point, none, none) := by
        simp only [conditionArms, hatom, hsilent, armState, hdead]
        rfl
      rw [harms] at harmsOk
      rw [walkArms_ok harms]
      obtain ⟨hokThen, hokElse⟩ := allOk_append.mp harmsOk
      exact arms_quiet hthen helse _ _ _ hokThen hokElse (by simp [SupplyPoint.Open])
        (by simp [SupplyPoint.Open])
    | mention =>
      simp only [hatom] at hcondOk
      obtain ⟨silent, hsilent, -⟩ := hcond.quiet hcondOk hsilentQuiet
      have harmQuiet : ¬ SupplyPoint.Open { point with alive := armState point .supplied } := by
        unfold armState SupplyPoint.Open
        split <;> simp
      have harms : conditionArms formal cond (walkExpr c formal cond) point =
          .ok (point, armState point .supplied, armState point .supplied) := by
        simp only [conditionArms, hatom, hsilent]
        rfl
      rw [harms] at harmsOk
      rw [walkArms_ok harms]
      obtain ⟨hokThen, hokElse⟩ := allOk_append.mp harmsOk
      exact arms_quiet hthen helse _ _ _ hokThen hokElse harmQuiet harmQuiet

end Arms

/-! ## Assignments -/

theorem isTested_of_call {func : Expr} {args : List Arg} {span : Span} {f : Frame}
    (h : isMissingTestCall formal func args = true) :
    isTested formal (.call func args span) f = true :=
  anyInExpr_of_hit _ _ h

/-- A cached test completes with the truth of the test it is. -/
theorem cachedTest_runs {value : Expr} {negated : Bool} {f : Frame} (hf : f.rebound = false)
    (h : cachedTest formal value = some negated) (hflows : exprFlows c value = true) :
    exprRuns c formal value f = [.done (!negated) f] ∧ ∀ f', isTested formal value f' = true := by
  unfold cachedTest at h
  split at h
  · rename_i e span
    split at h
    · rename_i htest
      obtain rfl := Option.some.inj h
      cases e with
      | call func args callSpan =>
        refine ⟨?_, fun f' => ?_⟩
        · rw [exprRuns, missingTest_runs hf htest hflows]
          rfl
        · have hcall : isTested formal (.call func args callSpan) f' = true :=
            isTested_of_call htest
          unfold isTested at hcall ⊢
          rw [anyInExpr, hcall, Bool.or_true]
      | _ => cases htest
    · cases h
  · split at h
    · rename_i htest
      obtain rfl := Option.some.inj h
      cases value with
      | call func args callSpan =>
        exact ⟨missingTest_runs hf htest hflows, fun f' => isTested_of_call htest⟩
      | _ => cases htest
    · cases h

theorem isTested_covered {value : Expr} {f : Frame}
    (hf : ∀ name, (f.held name).isSome → name ∈ tested) (h : isTested formal value f = true) :
    anyInExpr .all (testNode formal tested) value = true := by
  refine anyInExpr_mono (fun node hnode => ?_) value h
  cases node with
  | stmt s => cases hnode
  | expr e =>
    cases e with
    | ident name span => simp [testNode, supplyTestNode, hf name hnode]
    | call func args span => exact hnode
    | _ => cases hnode

/-- A name other than the formal is bound. -/
theorem Matches.bind {point : SupplyPoint} {f : Frame} {name : String} {value : Expr} {b : Bool}
    {proxy : Option Bool} (hm : Matches tested point f) (hname : name ≠ formal)
    (hproxy : ∀ negated, proxy = some negated → isTested formal value f = true ∧ b = !negated)
    (hcovered : anyInExpr .all (testNode formal tested) value = true → name ∈ tested) :
    Matches tested { point with proxies := Function.update point.proxies name proxy }
      (bind formal name value b f) := by
  simp only [FormalSupply.bind, if_neg hname]
  refine ⟨hm.omitted, fun other negated hother => ?_, fun other hother => ?_⟩
  · by_cases heq : other = name
    · subst heq
      simp only [Function.update_self] at hother ⊢
      obtain ⟨htested, rfl⟩ := hproxy negated hother
      rw [if_pos htested]
    · simp only [Function.update_of_ne heq] at hother ⊢
      exact hm.cached other negated hother
  · by_cases heq : other = name
    · subst heq
      simp only [Function.update_self] at hother
      split at hother
      · rename_i htested
        exact hcovered (isTested_covered hm.covered htested)
      · cases hother
    · simp only [Function.update_of_ne heq] at hother
      exact hm.covered other hother

/-- A part of a name other than the formal, which caches no test, is replaced. -/
theorem Matches.replace {point : SupplyPoint} {f : Frame} {name : String}
    (hm : Matches tested point f) (hname : name ≠ formal) (hproxy : point.proxies name = none) :
    Matches tested point (replace formal name f) := by
  simp only [FormalSupply.replace, if_neg hname]
  refine ⟨hm.omitted, fun other negated hother => ?_, fun other hother => ?_⟩
  · have hne : other ≠ name := by
      rintro rfl
      rw [hproxy] at hother
      cases hother
    simp only [Function.update_of_ne hne]
    exact hm.cached other negated hother
  · by_cases heq : other = name
    · subst heq
      simp at hother
    · simp only [Function.update_of_ne heq] at hother
      exact hm.covered other hother

/-- A target with parts of its own: neither a name nor a string. -/
def isComplex : Expr → Bool
  | .ident .. | .string .. => false
  | _ => true

section Assign

variable {value : Expr} {own : SupplyPoint → Visits}
  (hvalue : ExprSound c formal tested value)

include hvalue

/-- The assigned value, and from where it completes what the assignment does. -/
theorem Sound.assignWith {target : Expr} {flowsTarget : Bool}
    (hquiet : ∀ {point}, AllOk c formal tested
        (visitTarget target (walkExpr c formal target) (visitExpr c formal target) point) →
      ¬ point.Open → ∃ next,
        assignTo formal target value (walkExpr c formal target) point = .ok next ∧ ¬ next.Open)
    (hflowsValue : ∀ point, AllOk c formal tested (own point) → point.Open →
      isComplex target = true → exprFlows c value = true)
    (hbefore : ∀ {point span}, isComplex target = false →
      assignTo formal target value (walkExpr c formal target) point ≠ .error span)
    (hreach : ∀ {start point f f' b}, AllOk c formal tested (own start) → start.Open →
      Matches tested start f → exprFlows c value = true → .done b f' ∈ exprRuns c formal value f →
      AllOk c formal tested
        (visitTarget target (walkExpr c formal target) (visitExpr c formal target) point) →
      point.Open → Matches tested point f' →
      match assignTo formal target value (walkExpr c formal target) point with
      | .error span =>
        .reached span ∈ assignRuns formal target value b (exprRuns c formal target) f'
      | .ok next => flowsTarget = true → next.Open → ∃ f'',
          .done b f'' ∈ assignRuns formal target value b (exprRuns c formal target) f' ∧
            Matches tested next f'') :
    AssignSound c formal tested target value flowsTarget own := by
  constructor
  · intro point f hok hopen hm
    obtain ⟨hown, hrest⟩ := allOk_append.mp hok
    obtain ⟨hfirst, hsecond⟩ := allOk_append.mp hrest
    have hhere := hvalue.reaches hfirst hopen hm
    cases hwalk : walkExpr c formal value point with
    | error span =>
      rw [hwalk] at hhere
      exact Outcome.reached_andThen hhere _
    | ok next =>
      rw [hwalk] at hhere hsecond
      change Reaches tested _ _ _ (assignTo formal target value (walkExpr c formal target) next)
      by_cases hnext : next.Open
      · cases hassign : assignTo formal target value (walkExpr c formal target) next with
        | error span =>
          have hcomplex : isComplex target = true := by
            by_contra hsimple
            exact hbefore (Bool.not_eq_true _ ▸ hsimple) hassign
          have hflow := hflowsValue point hown hopen hcomplex
          obtain ⟨b₀, hb⟩ := hhere hflow hnext
          obtain ⟨f', hf', hm'⟩ := hb b₀ (.inl rfl)
          have hlast := hreach hown hopen hm hflow hf' hsecond hnext hm'
          rw [hassign] at hlast
          exact Outcome.mem_andThen hf' hlast
        | ok last =>
          intro hflows hlastOpen
          rw [Bool.and_eq_true] at hflows
          obtain ⟨b₀, hb⟩ := hhere hflows.1 hnext
          refine ⟨b₀, fun b hb' => ?_⟩
          obtain ⟨f', hf', hm'⟩ := hb b hb'
          have hlast := hreach hown hopen hm hflows.1 hf' hsecond hnext hm'
          rw [hassign] at hlast
          obtain ⟨f'', hf'', hm''⟩ := hlast hflows.2 hlastOpen
          exact ⟨f'', Outcome.mem_andThen hf' hf'', hm''⟩
      · obtain ⟨last, hlast, hlastQuiet⟩ := hquiet hsecond hnext
        rw [hlast]
        exact fun _ hlastOpen => absurd hlastOpen hlastQuiet
  · intro point hok hpoint
    obtain ⟨-, hrest⟩ := allOk_append.mp hok
    obtain ⟨hfirst, hsecond⟩ := allOk_append.mp hrest
    obtain ⟨next, hnext, hnextQuiet⟩ := hvalue.quiet hfirst hpoint
    rw [hnext] at hsecond
    obtain ⟨last, hlast, hlastQuiet⟩ := hquiet hsecond hnextQuiet
    refine ⟨last, ?_, hlastQuiet⟩
    rw [hnext]
    exact hlast

/-- `name <- value` -/
theorem Sound.assignName {name : String} {span : Span}
    (hok : ∀ point, AllOk c formal tested (own point) → point.Open →
      AssignOk c formal tested (.ident name span) value) :
    AssignSound c formal tested (.ident name span) value (exprFlows c (.ident name span)) own := by
  refine hvalue.assignWith (fun {point} _ hquiet => ?_) (fun _ _ _ h => ?_)
    (fun {point span'} _ h => ?_)
    (fun {start point f f' b} hown hopen hm hflow hdone _ hpoint hm' => ?_)
  · by_cases hname : name = formal
    · exact ⟨{ point with alive := none }, if_pos hname, by simp [SupplyPoint.Open]⟩
    · exact ⟨_, if_neg hname, hquiet⟩
  · cases h
  · simp only [assignTo] at h
    split at h <;> cases h
  · by_cases hname : name = formal
    · simp only [assignTo, if_pos hname]
      exact fun _ hopen' => absurd hopen' (by simp [SupplyPoint.Open])
    · simp only [assignTo, if_neg hname]
      refine fun _ _ => ⟨_, List.mem_singleton.mpr rfl, ?_⟩
      refine hm'.bind hname (fun negated hcached => ?_) ?_
      · obtain ⟨hruns, htested⟩ := cachedTest_runs hm.omitted hcached hflow
        rw [hruns, List.mem_singleton] at hdone
        injection hdone with hb
        exact ⟨htested f', hb⟩
      · exact hok start hown hopen

/-- `"name" <- value` -/
theorem Sound.assignString {name : String} {span : Span}
    (hok : ∀ point, AllOk c formal tested (own point) → point.Open →
      AssignOk c formal tested (.string name span) value) :
    AssignSound c formal tested (.string name span) value (exprFlows c (.string name span))
      own := by
  have hrefs : referencesFormal formal (.string name span) = false := rfl
  have hassign (point : SupplyPoint) :
      assignTo formal (.string name span) value (walkExpr c formal (.string name span)) point =
        .ok point := by
    simp only [assignTo, walkExpr, hrefs]
    rfl
  refine hvalue.assignWith (fun {point} _ hquiet => ⟨point, hassign point, hquiet⟩)
    (fun _ _ _ h => ?_) (fun {point span'} _ h => ?_)
    (fun {start point f f' b} hown hopen hm hflow hdone hvisits hpoint hm' => ?_)
  · cases h
  · rw [hassign] at h
    cases h
  · rw [hassign]
    have hreplaced : Ok c formal tested (.replaced (.string name span)) point := by
      refine hvisits (.replaced (.string name span), point) (List.mem_append_right _ ?_)
      simp [after, walkExpr]
    obtain ⟨hproxy, hformal⟩ := hreplaced hpoint name rfl
    have hname : name ≠ formal := by
      intro heq
      rw [hrefs] at hformal
      exact absurd (hformal heq) (by decide)
    have hbound : Matches tested
        { point with proxies := Function.update point.proxies name none }
        (bind formal name value b f') :=
      hm'.bind hname (fun negated h => by cases h) (hok start hown hopen).2
    refine fun _ _ => ⟨_, List.mem_singleton.mpr rfl, ?_⟩
    refine hbound.of_proxies fun other negated hother => ?_
    have hne : other ≠ name := by
      rintro rfl
      rw [hproxy] at hother
      cases hother
    simpa [Function.update_of_ne hne] using hother

omit hvalue in
theorem assignTo_complex {target : Expr} (h : isComplex target = true)
    (walkTarget : SupplyPoint → Except Span SupplyPoint) (point : SupplyPoint) :
    assignTo formal target value walkTarget point = (walkTarget point).bind fun point =>
      if referencesFormal formal target then .ok { point with alive := none } else .ok point := by
  cases target <;> first | rfl | cases h

omit hvalue in
theorem assignRuns_complex {target : Expr} (h : isComplex target = true) (b : Bool)
    (targetRuns : Frame → Runs) (f : Frame) :
    assignRuns formal target value b targetRuns f = Outcome.andThen (targetRuns f) fun _ f =>
      [.done b ((targetBase target).elim f fun name => replace formal name f)] := by
  cases target <;> first | rfl | cases h

omit hvalue in
theorem visitTarget_complex {target : Expr} (h : isComplex target = true)
    (walkTarget : SupplyPoint → Except Span SupplyPoint) (visitsTarget : SupplyPoint → Visits)
    (point : SupplyPoint) : visitTarget target walkTarget visitsTarget point =
      visitsTarget point ++ after (walkTarget point) fun point => [(.replaced target, point)] := by
  cases target <;> first | rfl | cases h

omit hvalue in
theorem AssignOk.flows {target : Expr} (hcomplex : isComplex target = true)
    (h : AssignOk c formal tested target value) : exprFlows c value = true := by
  cases target <;> first | exact h | cases hcomplex

/-- A part of a variable is replaced. -/
theorem Sound.assignComplex {target : Expr} {flowsTarget : Bool} {freeTarget : Prop}
    (hcomplex : isComplex target = true)
    (htarget : Sound c formal tested (walkExpr c formal target) (exprRuns c formal target)
      flowsTarget freeTarget (visitExpr c formal target))
    (hok : ∀ point, AllOk c formal tested (own point) → point.Open →
      AssignOk c formal tested target value) :
    AssignSound c formal tested target value flowsTarget own := by
  refine hvalue.assignWith (fun {point} hvisits hquiet => ?_)
    (fun point hown hopen _ => (hok point hown hopen).flows hcomplex)
    (fun {point span'} hsimple _ => ?_)
    (fun {start point f f' b} _ _ _ _ _ hvisits hpoint hm' => ?_)
  · rw [visitTarget_complex hcomplex] at hvisits
    obtain ⟨next, hnext, hnextQuiet⟩ := htarget.quiet (allOk_append.mp hvisits).1 hquiet
    rw [assignTo_complex hcomplex, hnext]
    by_cases hrefs : referencesFormal formal target = true
    · exact ⟨{ next with alive := none }, if_pos hrefs, by simp [SupplyPoint.Open]⟩
    · exact ⟨next, if_neg hrefs, hnextQuiet⟩
  · rw [hcomplex] at hsimple
    cases hsimple
  · rw [visitTarget_complex hcomplex] at hvisits
    obtain ⟨hvisit, hreplaced⟩ := allOk_append.mp hvisits
    rw [assignTo_complex hcomplex, assignRuns_complex hcomplex]
    have hhere := htarget.reaches hvisit hpoint hm'
    cases hwalk : walkExpr c formal target point with
    | error span =>
      rw [hwalk] at hhere
      exact Outcome.reached_andThen hhere _
    | ok next =>
      rw [hwalk] at hhere hreplaced
      change match (if referencesFormal formal target then
        Except.ok { next with alive := none } else Except.ok next : Except Span SupplyPoint) with
        | .error span => _
        | .ok next => _
      by_cases hrefs : referencesFormal formal target = true
      · rw [if_pos hrefs]
        exact fun _ hopen => absurd hopen (by simp [SupplyPoint.Open])
      · rw [if_neg hrefs]
        intro hflows hopen
        obtain ⟨b₀, hb⟩ := hhere hflows hopen
        obtain ⟨f'', hf'', hm''⟩ := hb b₀ (.inl rfl)
        refine ⟨_, Outcome.mem_andThen hf'' (List.mem_singleton.mpr rfl), ?_⟩
        have hat := hreplaced _ (List.mem_singleton.mpr rfl) hopen
        cases hbase : targetBase target with
        | none => exact hm''
        | some name =>
          obtain ⟨hproxy, hformal⟩ := hat name hbase
          exact hm''.replace (fun heq => hrefs (hformal heq)) hproxy

end Assign

/-! ## Junctions -/

/-- `&&` and `||` -/
theorem Sound.junction {op : BinOpKind} {stop : Bool} (hstop : stopsAt op = some stop)
    {lhs rhs : Expr} {span : Span} {own : SupplyPoint → Visits}
    (hl : ExprSound c formal tested lhs)
    (hr : ExprSound c formal tested rhs)
    (hok : ∀ point, AllOk c formal tested (own point) → point.Open →
      JunctionOk c formal tested lhs rhs) :
    Sound c formal tested (fun point => (walkExpr c formal lhs point).bind (walkExpr c formal rhs))
      (exprRuns c formal (.binOp op lhs rhs span)) (exprFlows c lhs && exprFlows c rhs)
      (FreeExpr formal tested (.binOp op lhs rhs span))
      (fun point => own point ++ (visitExpr c formal lhs point ++
        after (walkExpr c formal lhs point) (visitExpr c formal rhs))) := by
  have hfreeL (h : FreeExpr formal tested (.binOp op lhs rhs span)) :
      FreeExpr formal tested lhs := by
    rw [FreeExpr, truthNames_junction hstop] at h
    refine h.mono (fun ht => ?_) fun name hname => List.mem_append_left _ hname
    have henters : WalkPolicy.all.entersLhs op = true := by
      cases op <;> rfl
    simp [anyInExpr, ht, henters]
  have hfreeR (h : FreeExpr formal tested (.binOp op lhs rhs span)) :
      FreeExpr formal tested rhs := by
    rw [FreeExpr, truthNames_junction hstop] at h
    refine h.mono (fun ht => ?_) fun name hname => List.mem_append_right _ hname
    simp [anyInExpr, ht]
  constructor
  · intro point f hvisits hopen hm
    obtain ⟨hown, hrest⟩ := allOk_append.mp hvisits
    obtain ⟨hfirst, hsecond⟩ := allOk_append.mp hrest
    obtain ⟨hflowL, hright⟩ := hok point hown hopen
    rw [exprRuns_junction c formal hstop]
    have hhere := hl.reaches hfirst hopen hm
    cases hwalk : walkExpr c formal lhs point with
    | error span =>
      rw [hwalk] at hhere
      exact Outcome.reached_andThen hhere _
    | ok next =>
      rw [hwalk] at hhere hsecond
      change Reaches tested _ _ _ (walkExpr c formal rhs next)
      by_cases hnext : next.Open
      · obtain ⟨b₀, hb⟩ := hhere hflowL hnext
        rcases hright with ⟨hstraight, hrefs⟩ | hfree
        · -- the right operand does nothing, whether it is evaluated or not
          have hsame : walkExpr c formal rhs next = .ok next := by
            refine straightExpr_walk next rhs ?_ hrefs
            simpa [isStraight] using hstraight
          rw [hsame]
          intro hflows _
          rw [Bool.and_eq_true] at hflows
          have hdone {f' : Frame} (hm' : Matches tested next f') :=
            @straightExpr_runs c formal tested f' hm'.covered rhs
              (by simpa [isStraight] using hstraight) hflows.2
          obtain ⟨f₀, hf₀, hm₀⟩ := hb b₀ (.inl rfl)
          obtain ⟨b₁, hb₁⟩ := hdone hm₀
          refine ⟨if b₀ = stop then stop else b₁, fun b hb' => ?_⟩
          rcases hb' with rfl | hfree
          · refine ⟨f₀, Outcome.mem_andThen hf₀ ?_, hm₀⟩
            by_cases heq : b₀ = stop
            · simp [heq]
            · simp only [if_neg heq]
              exact hb₁ b₁ (.inl rfl)
          · by_cases heq : b = stop
            · obtain ⟨f', hf', hm'⟩ := hb stop (.inr (hfreeL hfree))
              refine ⟨f', Outcome.mem_andThen hf' ?_, hm'⟩
              simp [heq]
            · obtain ⟨f', hf', hm'⟩ := hb (!stop) (.inr (hfreeL hfree))
              obtain ⟨b₂, hb₂⟩ := hdone hm'
              refine ⟨f', Outcome.mem_andThen hf' ?_, hm'⟩
              rw [if_neg (by simp)]
              exact hb₂ b (.inr (hfreeR hfree))
        · -- the left operand can let the right one be evaluated
          obtain ⟨f', hf', hm'⟩ := hb (!stop) (.inr hfree)
          have hgo : Reaches tested (exprRuns c formal rhs f') _ _ (walkExpr c formal rhs next) :=
            hr.reaches hsecond hnext hm'
          refine ((Reaches.after hf' ?_).mono (fun h => (Bool.and_eq_true _ _ ▸ h).2) hfreeR)
          rwa [if_neg (by simp)]
      · obtain ⟨last, hlast, hlastQuiet⟩ := hr.quiet hsecond hnext
        rw [hlast]
        exact fun _ hlastOpen => absurd hlastOpen hlastQuiet
  · intro point hvisits hquiet
    obtain ⟨-, hrest⟩ := allOk_append.mp hvisits
    obtain ⟨hfirst, hsecond⟩ := allOk_append.mp hrest
    obtain ⟨next, hnext, hnextQuiet⟩ := hl.quiet hfirst hquiet
    rw [hnext] at hsecond
    obtain ⟨last, hlast, hlastQuiet⟩ := hr.quiet hsecond hnextQuiet
    refine ⟨last, ?_, hlastQuiet⟩
    rw [hnext]
    exact hlast

end Ry.FormalSupply
