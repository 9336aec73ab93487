import Ry.Project.Components
import Ry.Core.Join
import Mathlib.Data.Finset.Union

/-! # The return-type fixpoint

`run_fixpoint_scoped` of `fixpoint.rs`.  Functions are indices in name order.  What refines one
body is a parameter (`Program.refine`), and so is what a round of metadata propagation collects;
raising the collected flags is modelled.

The state also keeps what the source only logs: which returns were widened since their last
refinement, and whether a widening or a bottom resolved to unknown happened at all.
-/

namespace Ry

def maxFixpointDepth : Nat := 8

/-- The order of `Option<InjectionMode>`. -/
def InjectionMode.rank : Option InjectionMode → Nat
  | none => 0
  | some .splice => 1
  | some .full => 2

/-- How a parameter's argument is evaluated. -/
structure ParamFlags where
  quoting : Bool
  defused : Bool
  injection : Option InjectionMode
deriving DecidableEq

/-- Raise a parameter's flags to the inherited ones. -/
def inheritNseFlags (parameter inherited : ParamFlags) : ParamFlags :=
  { quoting := parameter.quoting || inherited.quoting
    defused := parameter.defused || inherited.defused
    injection :=
      if InjectionMode.rank parameter.injection < InjectionMode.rank inherited.injection then
        inherited.injection
      else parameter.injection }

/-- What refining a body reads: the return slots and those not computed yet, the parameters of
each function, and the attached packages. -/
structure FixTable where
  returns : List RType
  uncomputed : Finset Nat
  params : List (List ParamFlags)
  loaded : Finset String
  bareLoaded : Finset String

structure Refinement where
  /-- `none` if no path returns. -/
  result : Option RType
  reads : List Nat
  loaded : Finset String
  bareLoaded : Finset String

/-- Flags for one parameter of a function. -/
structure Inherited where
  function : Nat
  position : Nat
  flags : ParamFlags

structure Program where
  /-- Names and return slots, in name order. -/
  functions : List (String × Nat)
  /-- Every definition has its own return slot. -/
  slots_nodup : (functions.map (·.2)).Nodup
  refine : FixTable → Nat → Refinement
  s3Inherited : List (List ParamFlags) → Finset String → Finset String → List Inherited
  forwardedInherited : List (List ParamFlags) → Finset String → Finset String → List Inherited

namespace FixTable

def read (t : FixTable) (slot : Nat) : RType := (t.returns[slot]?).getD .unknown

/-- `ReturnSlots::set`. -/
def setReturn (returns : List RType) (slot : Nat) (result : RType) : List RType :=
  if slot < returns.length then returns.set slot result
  else returns ++ List.replicate (slot - returns.length) .unknown ++ [result]

/-- `store_return`: leaving bottom counts as a change. -/
def storeReturn (t : FixTable) (slot : Nat) (result : RType) : FixTable × Bool :=
  let wasBottom := decide (slot ∈ t.uncomputed)
  let computed := { t with uncomputed := t.uncomputed.erase slot }
  if (t.returns[slot]?).any (·.eq result) then (computed, wasBottom)
  else ({ computed with returns := setReturn t.returns slot result }, true)

end FixTable

namespace Program

variable (p : Program)

def size : Nat := p.functions.length

def slot (index : Nat) : Nat := (p.functions[index]?.map (·.2)).getD 0

/-- The functions of a slot. -/
def owners (slot : Nat) : Finset Nat := (Finset.range p.size).filter (p.slot · = slot)

/-- The functions in scope. -/
def activeIn (scope : Option (Finset String)) : Finset Nat :=
  (Finset.range p.size).filter fun index =>
    scope.all fun names => (p.functions[index]?).any fun function => function.1 ∈ names

/-- Raise one parameter's flags. -/
def inherit (params : List (List ParamFlags)) (e : Inherited) : List (List ParamFlags) :=
  params.modify e.function (·.modify e.position (inheritNseFlags · e.flags))

/-- Raise all that was collected; the slots of the functions that changed. -/
def inheritAll (params : List (List ParamFlags)) (entries : List Inherited) :
    List (List ParamFlags) × Finset Nat :=
  entries.foldl (fun (params, changed) e =>
    let raised := inherit params e
    (raised, if raised = params then changed else insert (p.slot e.function) changed))
    (params, ∅)

/-- `propagate_s3_generic_evaluation`. -/
def propagateS3 (t : FixTable) : FixTable × Finset Nat :=
  let (params, changed) :=
    p.inheritAll t.params (p.s3Inherited t.params t.loaded t.bareLoaded)
  ({ t with params }, changed)

/-- `propagate_forwarded_evaluation`. -/
def propagateForwarded (t : FixTable) : FixTable × Finset Nat :=
  let (params, changed) :=
    p.inheritAll t.params (p.forwardedInherited t.params t.loaded t.bareLoaded)
  ({ t with params }, changed)

/-- The return a refinement computes.  Without a returning path through computed callees, the
return stays bottom. -/
def outcome (t : FixTable) (index : Nat) : Option RType :=
  (p.refine t index).result.or
    (if (p.refine t index).reads.any (· ∈ t.uncomputed) then none else some .unknown)

end Program

structure FixState where
  table : FixTable
  pending : Finset Nat
  /-- Readers of each slot. -/
  callers : Nat → Finset Nat
  /-- Widened, and not refined since. -/
  widened : Finset Nat
  /-- A component was widened. -/
  widening : Bool
  /-- A bottom became unknown. -/
  resolved : Bool

/-- Where the components of a pass are. -/
def componentOf (components : List (List Nat)) (index : Nat) : Option Nat :=
  (components.zipIdx.reverse.find? fun entry => index ∈ entry.1).map (·.2)

namespace FixState

variable (p : Program) (s : FixState)

/-- Attach what a refinement attaches, and note what it read. -/
def noteRefinement (index : Nat) : FixState :=
  let r := p.refine s.table index
  { s with
    table := { s.table with
      loaded := s.table.loaded ∪ r.loaded
      bareLoaded := s.table.bareLoaded ∪ r.bareLoaded }
    callers := fun slot =>
      if slot ∈ r.reads then insert index (s.callers slot) else s.callers slot
    widened := s.widened.erase index }

/-- Refine one function; the slots that changed. -/
def refineOne (index : Nat) : FixState × Finset Nat :=
  let noted := s.noteRefinement p index
  match p.outcome s.table index with
  | none => (noted, ∅)
  | some result =>
    let (table, changed) := noted.table.storeReturn (p.slot index) result
    ({ noted with table }, if changed then {p.slot index} else ∅)

/-- Store unknown in some slots; those that changed. -/
def storeUnknowns (t : FixTable) (slots : List Nat) : FixTable × Finset Nat :=
  slots.foldl (fun (t, changed) slot =>
    let (t', stored) := t.storeReturn slot .unknown
    (t', if stored then insert slot changed else changed)) (t, ∅)

/-- The termination bound of a recursive component. -/
def widen (component : List Nat) : FixState × Finset Nat :=
  let (table, changed) := storeUnknowns s.table (component.map p.slot)
  ({ s with
     table
     widened := s.widened ∪ component.toFinset
     widening := true }, changed)

/-- Members still at bottom. -/
def stuck (component : List Nat) : List Nat :=
  component.filter (p.slot · ∈ s.table.uncomputed)

def resolve (stuck : List Nat) : FixState :=
  { s with
    table := (storeUnknowns s.table (stuck.map p.slot)).1
    resolved := true }

/-- Readers of changed slots outside the component wait for their own; the others are
returned. -/
def requeue (components : List (List Nat)) (id : Nat) (changed : Finset Nat) :
    FixState × Finset Nat :=
  let readers := changed.biUnion s.callers
  ({ s with
     pending := s.pending ∪ readers.filter (componentOf components · ≠ some id) },
    readers.filter (componentOf components · = some id))

def popFirst (queue : Finset Nat) : Option Nat := (List.range p.size).find? (· ∈ queue)

end FixState

theorem FixTable.uncomputed_storeReturn (t : FixTable) (slot : Nat) (result : RType) :
    (t.storeReturn slot result).1.uncomputed = t.uncomputed.erase slot := by
  unfold storeReturn
  dsimp only
  split <;> rfl

theorem FixState.uncomputed_storeUnknowns (t : FixTable) (slots : List Nat) :
    (storeUnknowns t slots).1.uncomputed = t.uncomputed \ slots.toFinset := by
  unfold storeUnknowns
  generalize (∅ : Finset Nat) = changed
  induction slots generalizing t changed with
  | nil => simp
  | cons slot slots ih =>
    rw [List.foldl_cons, ih, FixTable.uncomputed_storeReturn]
    ext s
    simp only [Finset.mem_sdiff, Finset.mem_erase, List.mem_toFinset, List.mem_cons, not_or]
    tauto

theorem FixState.length_stuck_le (p : Program) (s : FixState) (component : List Nat) :
    (s.stuck p component).length ≤ component.length := List.length_filter_le _ _

theorem FixState.stuck_resolve (p : Program) (s : FixState) (component : List Nat) :
    (s.resolve p (s.stuck p component)).stuck p component = [] := by
  refine List.filter_eq_nil_iff.mpr fun index hindex => ?_
  simp only [resolve, FixState.uncomputed_storeUnknowns, Finset.mem_sdiff, List.mem_toFinset,
    List.mem_map, decide_eq_true_eq, not_and, not_not]
  intro hbottom
  exact ⟨index, List.mem_filter.mpr ⟨hindex, decide_eq_true hbottom⟩, rfl⟩

theorem FixState.stuck_requeue (p : Program) (s : FixState) (component : List Nat)
    (components : List (List Nat)) (id : Nat) (changed : Finset Nat) :
    (s.requeue components id changed).1.stuck p component = s.stuck p component := rfl

namespace Program

variable (p : Program)

/-- One component of a pass.  The first pass only observes the reads, so it leaves bottoms for
the next. -/
def runComponent (components : List (List Nat)) (id : Nat) (component : List Nat) (first : Bool)
    (s : FixState) (queue : Finset Nat) (budget : Nat) : FixState :=
  match FixState.popFirst p queue with
  | some index =>
    match budget with
    | 0 =>
      let (s, changed) := s.widen p component
      (s.requeue components id changed).1
    | budget + 1 =>
      let (s, changed) := s.refineOne p index
      let (s, readers) := s.requeue components id changed
      runComponent components id component first s (queue.erase index ∪ readers) budget
  | none =>
    if first then { s with pending := s.pending ∪ (s.stuck p component).toFinset }
    else if s.stuck p component = [] then s
    else
      let resolved := s.resolve p (s.stuck p component)
      let next := resolved.requeue components id ((s.stuck p component).map p.slot).toFinset
      runComponent components id component first next.1 next.2 budget
termination_by budget * (component.length + 1) + (s.stuck p component).length
decreasing_by
  · have hstuck := FixState.length_stuck_le p s component
    rw [Nat.succ_mul]
    omega
  · rename_i hstuck
    rw [FixState.stuck_requeue, FixState.stuck_resolve]
    have := List.length_pos_iff.mpr hstuck
    simpa using this

/-- What each function reads, by the functions of the slots. -/
def dependencies (s : FixState) : List (List Nat) :=
  (List.range p.size).map fun reader =>
    (List.range s.table.returns.length).flatMap fun slot =>
      if reader ∈ s.callers slot then (List.range p.size).filter (· ∈ p.owners slot) else []

/-- The first pass visits functions in name order, later ones components callee-first. -/
def passComponents (first : Bool) (s : FixState) : List (List Nat) :=
  if first then ((List.range p.size).filter (· ∈ s.pending)).map ([·])
  else componentsAfterDependencies (p.dependencies s)

def runComponents (first : Bool) (components : List (List Nat)) (s : FixState)
    (entries : List (List Nat × Nat)) : FixState :=
  entries.foldl (fun s (component, id) =>
    p.runComponent components id component first
      { s with pending := s.pending \ component.toFinset } (component.toFinset ∩ s.pending)
      (maxFixpointDepth * component.length)) s

/-- Metadata propagation at the end of a pass, and who has to see it. -/
def propagate (active : Finset Nat) (s : FixState) : FixState × Bool :=
  let (table, s3Changed) := p.propagateS3 s.table
  let (table, forwardedChanged) := p.propagateForwarded table
  let changed := s3Changed ∪ forwardedChanged
  ({ s with
     table
     pending := s.pending ∪ changed.biUnion (fun slot => (p.owners slot).filter (· ∈ active)) ∪
       changed.biUnion s.callers }, decide (changed ≠ ∅))

def runPass (active : Finset Nat) (first : Bool) (s : FixState) (evaluationPending : Bool) :
    FixState × Bool :=
  let components := p.passComponents first s
  let after := p.runComponents first components s components.zipIdx
  let attachmentsChanged := decide
    ((s.table.loaded.card, s.table.bareLoaded.card) ≠
      (after.table.loaded.card, after.table.bareLoaded.card))
  let (propagated, evaluationPending) :=
    if evaluationPending || attachmentsChanged then p.propagate active after else (after, false)
  (if attachmentsChanged then { propagated with pending := propagated.pending ∪ active }
    else propagated, evaluationPending)

/-- The remaining passes. -/
def runPasses (active : Finset Nat) : Nat → Bool → FixState → Bool → FixState × Bool
  | 0, _, s, evaluationPending => (s, evaluationPending)
  | passes + 1, first, s, evaluationPending =>
    if s.pending = ∅ ∧ evaluationPending = false then (s, evaluationPending)
    else
      let (s, evaluationPending) := p.runPass active first s evaluationPending
      runPasses active passes false s evaluationPending

/-- The state before the first pass. -/
def startState (active : Finset Nat) (t : FixTable) : FixState :=
  { table := { t with uncomputed := active.image p.slot }
    pending := active
    callers := fun _ => ∅
    widened := ∅
    widening := false
    resolved := false }

/-- The final state, and whether evaluation metadata is still pending.  Bottom slots are stored as
unknown; only the marker is dropped. -/
def runFixpointScoped (scope : Option (Finset String)) (t : FixTable) : FixState × Bool :=
  if scope = some ∅ then (p.startState ∅ t, false)
  else
    let (s, evaluationPending) :=
      p.runPasses (p.activeIn scope) maxFixpointDepth true (p.startState (p.activeIn scope) t) true
    ({ s with table := { s.table with uncomputed := ∅ } }, evaluationPending)

/-! ## The full sweep -/

/-- Refine one function of a sweep; whether its return changed. -/
def sweepOne (t : FixTable) (index : Nat) : FixTable × Bool :=
  let r := p.refine t index
  let noted := { t with loaded := t.loaded ∪ r.loaded, bareLoaded := t.bareLoaded ∪ r.bareLoaded }
  match p.outcome t index with
  | none => (noted, false)
  | some result => noted.storeReturn (p.slot index) result

def sweepAll (t : FixTable) (indices : List Nat) : FixTable × Bool :=
  indices.foldl (fun (t, changed) index =>
    let (t, stored) := p.sweepOne t index
    (t, changed || stored)) (t, false)

/-- One sweep over the active functions, in name order, with its propagation. -/
def sweep (active : Finset Nat) (t : FixTable) : FixTable × Bool :=
  let (t, changed) := p.sweepAll t ((List.range p.size).filter (· ∈ active))
  let (t, s3Changed) := p.propagateS3 t
  let (t, forwardedChanged) := p.propagateForwarded t
  (t, changed || decide (s3Changed ≠ ∅) || decide (forwardedChanged ≠ ∅))

/-- Sweeps to convergence, the tests' oracle; `none` if they do not converge. -/
def sweeps (active : Finset Nat) : Nat → FixTable → Option FixTable
  | 0, _ => none
  | rounds + 1, t =>
    let (t, changed) := p.sweep active t
    if changed then sweeps active rounds t
    else if t.uncomputed = ∅ then some t
    else sweeps active rounds { t with uncomputed := ∅ }

def fullSweep (scope : Option (Finset String)) (t : FixTable) : Option FixTable :=
  p.sweeps (p.activeIn scope) 100 { t with uncomputed := (p.activeIn scope).image p.slot }

end Program

end Ry
