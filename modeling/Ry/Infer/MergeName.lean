import Ry.Infer.IfMerge
import Ry.Scope.PerName

/-! # The merge, one name at a time

Whatever its loops visit in whatever order, a merge gives each name a state that depends
on three states of that name alone: before the `if`, and at the end of each arm.
`IfStatement.mergeState` is that state.  It is what the merge is for; that the journal's
merge computes it is `Deltas.merge_capture`.
-/

namespace Ry

namespace BindingState

/-- What `insertMerged` makes of a name. -/
def afterMerged (journaling : Bool) (st : BindingState) : Option (RType × Bool) → BindingState
  | none => st
  | some (ty, listOrigin) =>
    let st := st.afterInsert journaling ty
    if listOrigin then { st with markers := { st.markers with listOrigin := true } } else st

/-- What `insertFact` makes of a name. -/
def afterFact (journaling : Bool) (st : BindingState) : Option RType × Bool → BindingState
  | (some ty, true) => st.afterParameterDefault ty
  | (some ty, false) => st.afterInsert journaling ty
  | (none, _) => st

end BindingState

/-- One object for all paths: the one they agree on, or `opaqueCall`. -/
def joinBoxes : List (Option BoxObject) → Option (Option BoxObject)
  | [] => none
  | first :: others => some (if others.all (· == first) then first else some .opaqueCall)

namespace IfStatement

variable (c : IfStatement) (ends : Ends)

section States

variable (b t e : BindingState)

/-- A reaching arm defines the name elsewhere. -/
def redefines : Bool :=
  (thenReaches ends && !(t.lexicalDefinition == b.lexicalDefinition))
    || (c.elseReaches ends && !(e.lexicalDefinition == b.lexicalDefinition))

/-- A continuing arm lost the assertion. -/
def losesAssertion : Bool :=
  (!c.thenLeaves ends && !t.markers.scalarAsserted)
    || (c.hasElse && !c.elseLeaves ends && !e.markers.scalarAsserted)

/-- The name before anything is written to it. -/
def settled : BindingState :=
  { b with
    lexicalDefinition := if c.redefines ends b t e then none else b.lexicalDefinition
    markers := { b.markers with
      scalarAsserted := b.markers.scalarAsserted && !c.losesAssertion ends t e } }

def mergeWrite (name : String) : Option (RType × Bool) :=
  if ends.inLoop && !thenReaches ends && !c.hasElse then none
  else c.mergeViews ends name b.ty t.view e.view

def continuationFact (name : String) : Option RType × Bool :=
  if name ∈ c.narrowed then
    (c.continuationArm ends t e).elim (none, false) fun st => (st.ty, st.markers.defaultParameter)
  else (none, false)

def unionGuardFact (returns : Bool × Bool) (name : String) : Option RType :=
  if name ∈ c.narrowed then
    c.guardFact ends returns b.ty b.markers.defaultParameter t.view e.view
  else none

def keepsVector : Bool :=
  (!c.thenLeaves ends && c.literalCond != some false && t.markers.loopVector)
    || (!c.elseLeaves ends && c.literalCond != some true
      && if c.hasElse then e.markers.loopVector else b.markers.loopVector)

def boxPathObjects : List (Option BoxObject) :=
  (if thenReaches ends then [t.boxObject] else [])
    ++ (if !c.hasElse then [b.boxObject] else if c.elseReaches ends then [e.boxObject] else [])

/-- The state of the name `name` after the merge, from its state before the `if` and at
the end of either arm. -/
def mergeState (journaling : Bool) (returns : Bool × Bool) (name : String) : BindingState :=
  let st := c.settled ends b t e
  let st := st.afterMerged journaling (c.mergeWrite ends b t e name)
  let st := st.afterFact journaling (c.continuationFact ends t e name)
  let st := (c.unionGuardFact ends b t e returns name).elim st st.afterNarrowed
  let st := { st with markers := { st.markers with loopVector := c.keepsVector ends b t e } }
  (joinBoxes (c.boxPathObjects ends b t e)).elim st st.withBoxObject

/-- The merge writes a type to the name. -/
def writesType (returns : Bool × Bool) (name : String) : Bool :=
  (c.mergeWrite ends b t e name).isSome || (c.continuationFact ends t e name).1.isSome
    || (c.unionGuardFact ends b t e returns name).isSome

end States

end IfStatement

/-! ## Deltas and the states they stand for -/

/-- The delta, read over the restored scope, gives the branch's final state. -/
structure BranchDelta.Faithful (d : BranchDelta) (base branch : Scope) : Prop where
  names : ∀ n, ((d.changed.lookup n).elim (base.facts n) fun st => { st with provenance := none })
    = branch.facts n
  unreachable : d.unreachable = branch.unreachable
  uncertainty : d.uncertainty = branch.uncertainty
  dataMaskEnvUnknown : d.dataMaskEnvUnknown = branch.dataMaskEnvUnknown

namespace BranchDelta

variable {d : BranchDelta} {base branch : Scope}

/-- What the delta says of a name whose state in the scope is `st`. -/
def overlay (d : BranchDelta) (n : String) (st : BindingState) : BindingState :=
  (d.changed.lookup n).getD st

/-- Something read off a name's state, whatever its provenance, is read off the delta. -/
theorem Faithful.read {A : Type} (h : d.Faithful base branch) (n : String)
    (f : BindingState → A) (hf : ∀ st, f { st with provenance := none } = f st)
    {st : BindingState} (hst : f st = f (base.facts n)) : f (d.overlay n st) = f (branch.facts n) := by
  rw [← h.names n, overlay]
  cases d.changed.lookup n with
  | none => exact hst
  | some entry => exact (hf entry).symm

/-- A name with no entry is as it was. -/
theorem Faithful.facts_of_none (h : d.Faithful base branch) {n : String}
    (hn : d.changed.lookup n = none) : branch.facts n = base.facts n := by
  rw [← h.names n, hn]
  rfl

theorem binding_eq_overlay (d : BranchDelta) (s : Scope) (n : String) :
    d.binding s n (s.get n) = (d.overlay n (s.capture n)).view := by
  unfold binding overlay
  cases d.changed.lookup n <;> rfl

theorem lexicalDefinition_eq_overlay (d : BranchDelta) (s : Scope) (n : String) :
    d.lexicalDefinition s n = (d.overlay n (s.capture n)).lexicalDefinition := by
  unfold lexicalDefinition overlay
  cases d.changed.lookup n <;> rfl

theorem boxObject_eq_overlay (d : BranchDelta) (s : Scope) (n : String) :
    d.boxObject s n = (d.overlay n (s.capture n)).boxObject := by
  unfold boxObject overlay
  cases d.changed.lookup n <;> rfl

theorem loopVector_eq_overlay (d : BranchDelta) (s : Scope) (n : String) :
    d.loopVector s n = (d.overlay n (s.capture n)).markers.loopVector := by
  unfold loopVector overlay
  cases d.changed.lookup n <;> rfl

end BranchDelta

namespace Deltas

variable {d : Deltas} (c : IfStatement) (order : IterOrder)

theorem mem_changedNames {n : String} :
    n ∈ d.changedNames order ↔ (d.thenDelta.changed.lookup n).isSome
      ∨ (d.elseDelta.changed.lookup n).isSome := by
  simp only [changedNames, List.mem_append, List.mem_filter, order.mem, Table.mem_keys_iff]
  cases d.thenDelta.changed.lookup n <;> simp

theorem nodup_changedNames (d : Deltas) : (d.changedNames order).Nodup := by
  refine List.Nodup.append (order.nodup _) ((order.nodup _).filter _) fun n hn hn' => ?_
  rw [order.mem, Table.mem_keys_iff] at hn
  have hnone := (List.mem_filter.mp hn').2
  cases h : d.thenDelta.changed.lookup n <;> simp_all

/-! ## Before the bindings -/

/-- What a pass over `name` forgets, from the name's state at the pass. -/
def forgets (d : Deltas) (ends : Ends) (name : String) (st : BindingState) : Bool :=
  (IfStatement.thenReaches ends
      && !((d.thenDelta.overlay name st).lexicalDefinition == st.lexicalDefinition))
    || (c.elseReaches ends
      && !((d.elseDelta.overlay name st).lexicalDefinition == st.lexicalDefinition))

theorem rewrites_forgetLexical (s : Scope) (name : String) :
    Scope.Rewrites s (d.forgetLexical c s name) name
      (if d.forgets c (d.ends s) name (s.capture name) then
        { s.capture name with lexicalDefinition := none } else s.capture name) false := by
  have hcond : (!(!IfStatement.thenReaches (d.ends s)
        || d.thenDelta.lexicalDefinition s name == s.lexicalDefinitions.lookup name)
      || !(!c.elseReaches (d.ends s)
        || d.elseDelta.lexicalDefinition s name == s.lexicalDefinitions.lookup name))
      = d.forgets c (d.ends s) name (s.capture name) := by
    rw [BranchDelta.lexicalDefinition_eq_overlay, BranchDelta.lexicalDefinition_eq_overlay]
    simp only [Bool.not_or, Bool.not_not]
    rfl
  simp only [forgetLexical, hcond]
  split
  · exact Scope.rewrites_forgetLexicalDefinition s name
  · exact .refl s name

theorem ends_of_rest {s s' : Scope} (h : s'.rest.loopFrame = s.rest.loopFrame) :
    d.ends s' = d.ends s := by
  have hloop : s'.loopFrame = s.loopFrame := h
  rw [ends, hloop]
  rfl

/-- A write leaves what the merge reads of the frame. -/
theorem ends_of_rewrites {s s' : Scope} {name : String} {st : BindingState} {r : Bool}
    (h : Scope.Rewrites s s' name st r) : d.ends s' = d.ends s :=
  have hframe : s'.rest.loopFrame = (s.rest.raiseEscaped r).loopFrame :=
    congrArg Scope.loopFrame h.rest
  ends_of_rest hframe

section Settled

variable {s T E : Scope} (hthen : d.thenDelta.Faithful s T) (helse : d.elseDelta.Faithful s E)
include hthen helse

theorem forgets_eq_redefines (n : String) :
    d.forgets c (d.ends s) n (s.capture n) =
      c.redefines (d.ends s) (s.facts n) (T.facts n) (E.facts n) := by
  have hbase : (s.capture n).lexicalDefinition = (s.facts n).lexicalDefinition := rfl
  have ht := hthen.read n (·.lexicalDefinition) (fun _ => rfl) hbase
  have he := helse.read n (·.lexicalDefinition) (fun _ => rfl) hbase
  simp only [forgets, IfStatement.redefines, ht, he]
  rfl

theorem holds_forgetLexicals :
    (d.forgetLexicals c order s).Holds s.journal.depth
      (fun n => { s.capture n with
        lexicalDefinition :=
          if c.redefines (d.ends s) (s.facts n) (T.facts n) (E.facts n) then none
          else (s.capture n).lexicalDefinition }) s.rest := by
  have hall := (Scope.Holds.self s).foldl_quiet (f := d.forgetLexical c)
    (P := fun t => d.ends t = d.ends s)
    (F := fun name st => if d.forgets c (d.ends s) name st then
      { st with lexicalDefinition := none } else st)
    (fun t t' k st r h ht => (ends_of_rewrites h).trans ht)
    (fun t k ht => ht ▸ rewrites_forgetLexical c t k)
    ((nodup_changedNames order d).filter fun name => (s.lexicalDefinitions.lookup name).isSome) rfl
  refine hall.congr (fun n => ?_) rfl
  rw [forgets_eq_redefines c hthen helse]
  by_cases hn : n ∈ (d.changedNames order).filter
      fun name => (s.lexicalDefinitions.lookup name).isSome
  · rw [if_pos hn]
    split <;> rfl
  · rw [if_neg hn]
    split
    · rename_i hredefines
      -- a name the loop does not visit has no definition, or is as both arms found it
      rw [List.mem_filter, mem_changedNames, not_and_or] at hn
      have hnone : (s.capture n).lexicalDefinition = none := by
        rcases hn with hn | hn
        · simp only [not_or, Bool.not_eq_true, Option.isSome_eq_false_iff,
            Option.isNone_iff_eq_none] at hn
          have ht := hthen.facts_of_none hn.1
          have he := helse.facts_of_none hn.2
          simp [IfStatement.redefines, ht, he] at hredefines
        · have hlookup : s.lexicalDefinitions.lookup n = none := by simpa using hn
          exact hlookup
      rw [← hnone]
    · rfl

omit hthen helse in
theorem holds_loseScalars (d : Deltas) {t : Scope} {i : Nat} {names : String → BindingState} {r : Scope}
    (ht : t.Holds i names r) :
    (d.loseScalars c order t).Holds i
      (fun n => { names n with
        markers := { (names n).markers with
          scalarAsserted := (names n).markers.scalarAsserted && !d.losesScalar c t n } }) r := by
  have hall := ht.foldl_quiet (f := Scope.clearScalarAsserted) (P := fun _ => True)
    (F := fun _ st => { st with markers := { st.markers with scalarAsserted := false } }) (fun _ _ _ _ _ _ _ => trivial)
    (fun t k _ => Scope.rewrites_clearScalarAsserted t k)
    (order.nodup (t.scalarAssertedBindings.filter (d.losesScalar c t ·))) trivial
  refine hall.congr (fun n => ?_) rfl
  have hmarked : marked t.scalarAssertedBindings n = (names n).markers.scalarAsserted :=
    congrArg (·.markers.scalarAsserted) (ht.capture n)
  simp only [order.mem, Finset.mem_filter, ← hmarked]
  have hsame : ∀ value, value = (names n).markers.scalarAsserted → names n =
      { names n with markers := { (names n).markers with scalarAsserted := value } } := by
    rintro _ rfl
    rfl
  by_cases hmem : n ∈ t.scalarAssertedBindings
  · cases hlost : d.losesScalar c t n
    · simpa [hmem, marked] using hsame true (by simpa [marked, hmem] using hmarked)
    · simp [hmem]
  · simpa [hmem, marked] using hsame false (by simpa [marked, hmem] using hmarked)

theorem losesScalar_eq_losesAssertion {n : String} (hn : marked s.scalarAssertedBindings n = true) :
    d.losesScalar c s n = c.losesAssertion (d.ends s) (T.facts n) (E.facts n) := by
  have hreplaces : ∀ {delta : BranchDelta} {branch : Scope}, delta.Faithful s branch →
      delta.replacesScalar n = !(branch.facts n).markers.scalarAsserted := by
    intro delta branch h
    rw [← h.names n, BranchDelta.replacesScalar]
    cases delta.changed.lookup n with
    | none => simpa [Scope.facts, Scope.capture, Scope.captureMetadata, Scope.markers] using hn
    | some st => rfl
  rw [losesScalar, hreplaces hthen, hreplaces helse]
  rfl

end Settled

section Settle

variable {s T E : Scope} (hthen : d.thenDelta.Faithful s T) (helse : d.elseDelta.Faithful s E)

theorem losesScalar_congr {s t : Scope} (h : d.ends t = d.ends s) (n : String) :
    d.losesScalar c t n = d.losesScalar c s n := by
  rw [losesScalar, losesScalar, h]

theorem holds_joinNamespaces (d : Deltas) {t : Scope} {i : Nat} {names : String → BindingState}
    {r : Scope} (ht : t.Holds i names r) :
    (d.joinNamespaces c t).Holds i names
      { r with
        failedNamespaces := joinFailedNamespaces r.failedNamespaces d.thenFailed d.elseFailed
          (c.thenLeaves (d.ends t)) (c.elseLeaves (d.ends t)) } := by
  refine ⟨ht.depth, ht.capture, ?_⟩
  rw [← ht.rest]
  rfl

include hthen helse in
theorem holds_settle :
    (d.settle c order s).Holds s.journal.depth
      (fun n => c.settled (d.ends s) (s.capture n) (T.facts n) (E.facts n))
      { s.rest with
        failedNamespaces := joinFailedNamespaces s.failedNamespaces d.thenFailed d.elseFailed
          (c.thenLeaves (d.ends s)) (c.elseLeaves (d.ends s)) } := by
  have hforget := holds_forgetLexicals c order hthen helse
  have hlose := holds_loseScalars c order d hforget
  have hends : d.ends (d.forgetLexicals c order s) = d.ends s :=
    ends_of_rest (congrArg Scope.loopFrame hforget.rest)
  have hends' : d.ends (d.loseScalars c order (d.forgetLexicals c order s)) = d.ends s :=
    ends_of_rest (congrArg Scope.loopFrame hlose.rest)
  have hjoin := holds_joinNamespaces c d hlose
  rw [hends'] at hjoin
  refine hjoin.congr (fun n => ?_) rfl
  have hasserted : ((s.capture n).markers.scalarAsserted
        && !d.losesScalar c (d.forgetLexicals c order s) n)
      = ((s.capture n).markers.scalarAsserted
        && !c.losesAssertion (d.ends s) (T.facts n) (E.facts n)) := by
    rw [losesScalar_congr c hends]
    cases hs : (s.capture n).markers.scalarAsserted with
    | false => rfl
    | true => rw [losesScalar_eq_losesAssertion c hthen helse hs]
  rw [hasserted]
  rfl

end Settle

end Deltas

/-! ## The writes of the merge -/

namespace Scope

variable {s : Scope} (hs : s.Blank)
include hs

theorem rewrites_insertMerged (order : IterOrder) (name : String) (write : Option (RType × Bool)) :
    Rewrites s (s.insertMerged order name write) name
      ((s.capture name).afterMerged (decide (0 < s.journal.depth)) write)
      (write.isSome && escapedNameMayMaskSlot name) := by
  match write with
  | none => exact .refl s name
  | some (ty, listOrigin) =>
    have hinsert := rewrites_insert hs order name ty
    cases listOrigin with
    | false => exact hinsert
    | true =>
      have hmark := hinsert.trans (rewrites_markListOrigin _ name)
      have hmarkers : (s.insert order name ty).markers name = _ :=
        congrArg BindingState.markers hinsert.self
      rw [hinsert.self, hmarkers, Bool.or_false] at hmark
      exact hmark

theorem rewrites_insertFact (order : IterOrder) (name : String) (fact : Option RType × Bool) :
    Rewrites s (s.insertFact order name fact) name
      ((s.capture name).afterFact (decide (0 < s.journal.depth)) fact)
      (fact.1.isSome && escapedNameMayMaskSlot name) := by
  match fact with
  | (none, _) => exact .refl s name
  | (some ty, true) => exact rewrites_insertParameterDefault hs name ty
  | (some ty, false) => exact rewrites_insert hs order name ty

theorem rewrites_guardFact (name : String) (fact : Option RType) :
    Rewrites s (fact.elim s (s.insertNarrowed name)) name
      (fact.elim (s.capture name) (s.capture name).afterNarrowed)
      (fact.isSome && escapedNameMayMaskSlot name) := by
  cases fact with
  | none => exact .refl s name
  | some ty => exact rewrites_insertNarrowed hs name ty

end Scope

namespace IfStatement

theorem changedType_self (c : IfStatement) (b : BindingState) (name : String) :
    c.changedType name b.ty b.view = none := by
  have hty : b.view.ty = b.ty := rfl
  unfold changedType
  split
  · rfl
  · rw [hty]
    cases b.ty <;> simp [Option.filter]

/-- Views that are the base's change nothing. -/
theorem mergeWrite_of_unchanged (c : IfStatement) (ends : Ends) {b t e : BindingState}
    (ht : t.view = b.view) (he : e.view = b.view) (name : String) :
    c.mergeWrite ends b t e name = none := by
  unfold mergeWrite mergeViews
  rw [ht, he]
  simp [c.changedType_self b name, mergedType]

end IfStatement

namespace Deltas

/-- What the merge loop writes at a pass, from the name's state at the pass. -/
def writeOver (d : Deltas) (c : IfStatement) (ends : Ends) (name : String) (st : BindingState) :
    Option (RType × Bool) :=
  if ends.inLoop && !IfStatement.thenReaches ends && !c.hasElse then none
  else c.mergeViews ends name st.ty (d.thenDelta.overlay name st).view (d.elseDelta.overlay name st).view

theorem rewrites_mergeBinding (d : Deltas) (c : IfStatement) (order : IterOrder) {s : Scope}
    (hs : s.Blank) (name : String) :
    Scope.Rewrites s (d.mergeBinding c order s name) name
      ((s.capture name).afterMerged (decide (0 < s.journal.depth))
        (d.writeOver c (d.ends s) name (s.capture name)))
      ((d.writeOver c (d.ends s) name (s.capture name)).isSome && escapedNameMayMaskSlot name) := by
  have hpass : d.mergeBinding c order s name =
      s.insertMerged order name (d.writeOver c (d.ends s) name (s.capture name)) := by
    simp only [mergeBinding, writeOver, BranchDelta.binding_eq_overlay]
    split
    · rename_i h
      rw [if_pos (by exact h)]
      rfl
    · rename_i h
      rw [if_neg (by exact h)]
      rfl
  rw [hpass]
  exact Scope.rewrites_insertMerged hs order name _

/-- What a pass may assume beside the names: no tables, the depth, the frame. -/
structure InFrame (d : Deltas) (depth : Nat) (ends : Ends) (s : Scope) : Prop where
  blank : s.Blank
  depth : s.journal.depth = depth
  ends : d.ends s = ends

theorem inFrame_of_rewrites {d : Deltas} {depth : Nat} {ends : Ends} (s s' : Scope) (name : String)
    (st : BindingState) (r : Bool) (h : Scope.Rewrites s s' name st r)
    (hs : d.InFrame depth ends s) : d.InFrame depth ends s' :=
  ⟨h.blank hs.blank, h.depth.trans hs.depth, (ends_of_rewrites h).trans hs.ends⟩

section Loops

variable {d : Deltas} {depth : Nat} {ends : Ends} {t : Scope} (ht : d.InFrame depth ends t)
  (c : IfStatement) (order : IterOrder) {names : String → BindingState} {r : Scope}
  (hholds : t.Holds depth names r)
include ht hholds

theorem holds_mergeBindings :
    ((d.changedNames order).foldl (d.mergeBinding c order) t).Holds depth
      (fun n => if n ∈ d.changedNames order then
        (names n).afterMerged (decide (0 < depth)) (d.writeOver c ends n (names n)) else names n)
      (r.raiseEscaped ((d.changedNames order).any fun n =>
        (d.writeOver c ends n (names n)).isSome && escapedNameMayMaskSlot n)) :=
  hholds.foldl (P := d.InFrame depth ends)
    (F := fun n st => st.afterMerged (decide (0 < depth)) (d.writeOver c ends n st))
    (R := fun n st => (d.writeOver c ends n st).isSome && escapedNameMayMaskSlot n)
    inFrame_of_rewrites
    (fun t n ht => by
      have h := rewrites_mergeBinding d c order ht.blank n
      rwa [ht.depth, ht.ends] at h)
    (nodup_changedNames order d) ht

theorem holds_insertFacts (fact : String → Option RType × Bool) (l : Finset String) :
    ((order.list l).foldl (fun s n => s.insertFact order n (fact n)) t).Holds depth
      (fun n => if n ∈ l then (names n).afterFact (decide (0 < depth)) (fact n) else names n)
      (r.raiseEscaped ((order.list l).any fun n => (fact n).1.isSome && escapedNameMayMaskSlot n))
    := by
  have hall := hholds.foldl (P := d.InFrame depth ends)
    (f := fun s n => s.insertFact order n (fact n))
    (F := fun n st => st.afterFact (decide (0 < depth)) (fact n))
    (R := fun n _ => (fact n).1.isSome && escapedNameMayMaskSlot n)
    inFrame_of_rewrites
    (fun t n ht => by
      have h := Scope.rewrites_insertFact ht.blank order n (fact n)
      rwa [ht.depth] at h)
    (order.nodup l) ht
  exact hall.congr (fun n => by simp only [order.mem]) rfl

theorem holds_guardFacts (fact : String → Option RType) (l : Finset String) :
    ((order.list l).foldl (fun s n => (fact n).elim s (s.insertNarrowed n)) t).Holds depth
      (fun n => if n ∈ l then (fact n).elim (names n) (names n).afterNarrowed else names n)
      (r.raiseEscaped ((order.list l).any fun n => (fact n).isSome && escapedNameMayMaskSlot n)) := by
  have hall := hholds.foldl (P := d.InFrame depth ends)
    (f := fun s n => (fact n).elim s (s.insertNarrowed n))
    (F := fun n st => (fact n).elim st st.afterNarrowed)
    (R := fun n _ => (fact n).isSome && escapedNameMayMaskSlot n)
    inFrame_of_rewrites (fun t n ht => Scope.rewrites_guardFact ht.blank n (fact n))
    (order.nodup l) ht
  exact hall.congr (fun n => by simp only [order.mem]) rfl

end Loops

end Deltas

namespace Scope

variable {t : Scope} {i : Nat} {names : String → BindingState} {r : Scope}

theorem Holds.clearLoopVectors (ht : t.Holds i names r) (order : IterOrder) (l : Finset String) :
    ((order.list l).foldl clearLoopVector t).Holds i
      (fun n => if n ∈ l then
        { names n with markers := { (names n).markers with loopVector := false } } else names n) r
    := by
  have hall := ht.foldl_quiet (f := clearLoopVector) (P := fun _ => True)
    (F := fun _ st => { st with markers := { st.markers with loopVector := false } })
    (fun _ _ _ _ _ _ _ => trivial) (fun t k _ => rewrites_clearLoopVector t k) (order.nodup l)
    trivial
  exact hall.congr (fun n => by simp only [order.mem]) rfl

theorem Holds.markLoopVectors (ht : t.Holds i names r) (order : IterOrder) (l : Finset String) :
    ((order.list l).foldl markLoopVector t).Holds i
      (fun n => if n ∈ l then
        { names n with markers := { (names n).markers with loopVector := true } } else names n) r
    := by
  have hall := ht.foldl_quiet (f := markLoopVector) (P := fun _ => True)
    (F := fun _ st => { st with markers := { st.markers with loopVector := true } })
    (fun _ _ _ _ _ _ _ => trivial) (fun t k _ => rewrites_markLoopVector t k) (order.nodup l)
    trivial
  exact hall.congr (fun n => by simp only [order.mem]) rfl

/-- Afterwards the loop vectors are `l`. -/
theorem Holds.setLoopVectors (ht : t.Holds i names r) (order : IterOrder) (l : Finset String) :
    ((order.list l).foldl markLoopVector
      ((order.list (t.loopVectorBindings \ l)).foldl clearLoopVector t)).Holds i
      (fun n => { names n with
        markers := { (names n).markers with loopVector := marked l n } }) r := by
  refine ((ht.clearLoopVectors order (t.loopVectorBindings \ l)).markLoopVectors order l).congr
    (fun n => ?_) rfl
  have hmarked : marked t.loopVectorBindings n = (names n).markers.loopVector :=
    congrArg (·.markers.loopVector) (ht.capture n)
  by_cases hl : n ∈ l
  · simp [hl, marked]
  · by_cases hv : n ∈ t.loopVectorBindings
    · simp [hl, hv, marked]
    · have hnone : (names n).markers.loopVector = false := by rw [← hmarked]; simp [marked, hv]
      simp only [hl, hv, Finset.mem_sdiff, if_false, false_and, marked, decide_false, ← hnone]

/-- Each name on the list gets its object; the list names each at most once. -/
theorem Holds.applyBoxes (ht : t.Holds i names r) (order : IterOrder) (l : Finset String)
    (object : String → Option (Option BoxObject)) :
    (t.applyBoxProvenance ((order.list l).filterMap fun n => (object n).map (n, ·))).Holds i
      (fun n => if n ∈ l then (object n).elim (names n) (names n).withBoxObject else names n) r
    := by
  have hall := ht.foldl_quiet (P := fun _ => True)
    (f := fun s n => (object n).elim s (s.applyBoxObject n))
    (F := fun n st => (object n).elim st st.withBoxObject)
    (fun _ _ _ _ _ _ _ => trivial)
    (fun s n _ => by
      cases object n with
      | none => exact .refl s n
      | some o => exact rewrites_applyBoxObject s n o)
    (order.nodup l) trivial
  have hfold : t.applyBoxProvenance ((order.list l).filterMap fun n => (object n).map (n, ·)) =
      (order.list l).foldl (fun s n => (object n).elim s (s.applyBoxObject n)) t := by
    rw [applyBoxProvenance, List.foldl_filterMap]
    congr 1
    funext s n
    cases object n <;> rfl
  rw [hfold]
  exact hall.congr (fun n => by simp only [order.mem]) rfl

end Scope

end Ry
