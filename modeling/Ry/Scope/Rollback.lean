import Ry.Lib.UndoLog
import Ry.Scope.Journal

/-! # Rolling a branch back

Every mutator's records take its result back to the scope it started from: they agree
on every fact about every name and on the tables a snapshot does not save whole.
`Recorded` is that statement, closed under running one mutator after another, and
each mutator's lemma below says no more than that its own records undo it.

A snapshot's end first moves the types of assigned names out of the bindings, so
what is replayed starts from a scope that lacks them.  The assignment records write
those types back, which is why agreement is taken up to the types of a set of names.
-/

namespace Ry

open UndoLog

namespace Scope

/-- Everything a snapshot's delta says about a name: its type, markers, lexical
definition, alias target and box object. -/
def facts (s : Scope) (name : String) : BindingState :=
  { s.capture name with provenance := none }

/-- The tables that are no per-name facts: their records hold whole entries or whole
tables. -/
def tables (s : Scope) : Table String String × Table String ConditionAlias ×
    Table String LiteralFunction × Finset String :=
  (s.knownStrings, s.conditionAliases, s.literalFunctions, s.plainOpsVectors)

/-- The two scopes record the same, up to the types of the names in `N` and what a
snapshot saves whole. -/
structure Agree (N : Set String) (t s : Scope) : Prop where
  metadata : ∀ n, { t.facts n with ty := none } = { s.facts n with ty := none }
  type : ∀ n, n ∉ N → t.get n = s.get n
  provenance : s.referenceProvenance.isSome = true →
    t.referenceProvenance.isSome = true ∧ ∀ n, t.provenanceOf n = s.provenanceOf n
  tables : t.tables = s.tables

theorem Agree.refl (N : Set String) (s : Scope) : Agree N s s :=
  ⟨fun _ => rfl, fun _ _ => rfl, fun h => ⟨h, fun _ => rfl⟩, rfl⟩

theorem Agree.trans {N : Set String} {a b c : Scope} (hab : Agree N a b) (hbc : Agree N b c) :
    Agree N a c where
  metadata n := (hab.metadata n).trans (hbc.metadata n)
  type n hn := (hab.type n hn).trans (hbc.type n hn)
  provenance hc :=
    have hb := hbc.provenance hc
    have ha := hab.provenance hb.1
    ⟨ha.1, fun n => (ha.2 n).trans (hb.2 n)⟩
  tables := hab.tables.trans hbc.tables

theorem Agree.mono {N M : Set String} {t s : Scope} (h : Agree N t s) (hNM : N ⊆ M) :
    Agree M t s :=
  { h with type := fun n hn => h.type n fun hn' => hn (hNM hn') }

end Scope

/-- Add a name to a set if it was removed. -/
theorem marked_readd (set : Finset String) (n name : String) (removed : Bool) :
    marked (if removed then insert name set else set) n =
      if n = name then removed || marked set n else marked set n := by
  cases removed <;> simp [marked_insert]

theorem lookup_readd {V : Type} (m : Table String V) (n name : String) (removed : Option V) :
    (removed.elim m (m.insert name ·)).lookup n =
      if n = name then removed.or (m.lookup n) else m.lookup n := by
  cases removed <;> simp [Table.lookup_insert]

namespace Undo

/-- The name whose facts the record writes. -/
def name? : Undo → Option String
  | .assignment name _ | .binding name _ | .marker _ name _ | .lexicalDefinition name _
  | .aliasTarget name _ => some name
  | _ => none

/-- What replaying does to the facts about the record's name. -/
def onFacts (u : Undo) (st : BindingState) : BindingState :=
  match u with
  | .assignment _ a =>
    { ty := a.ty
      markers :=
        { narrowed := a.removedMarkers.narrowed || st.markers.narrowed
          parameter := a.removedMarkers.parameter || st.markers.parameter
          scalarAsserted := a.removedMarkers.scalarAsserted || st.markers.scalarAsserted
          loopVector := a.removedMarkers.loopVector || st.markers.loopVector
          listOrigin := a.removedMarkers.listOrigin || st.markers.listOrigin
          defaultParameter := a.removedMarkers.defaultParameter || st.markers.defaultParameter
          lexical := a.removedMarkers.lexical || st.markers.lexical }
      lexicalDefinition := a.lexicalDefinition
      aliasTarget := a.aliasTarget.or st.aliasTarget
      boxObject := a.boxObject.or st.boxObject
      provenance := none }
  | .binding _ state => { state with provenance := none }
  | .marker kind _ present =>
    match kind with
    | .listOrigin => { st with markers := { st.markers with listOrigin := present } }
    | .lexical => { st with markers := { st.markers with lexical := present } }
    | .parameter => { st with markers := { st.markers with parameter := present } }
    | .scalarAsserted => { st with markers := { st.markers with scalarAsserted := present } }
    | .loopVector => { st with markers := { st.markers with loopVector := present } }
  | .lexicalDefinition _ previous => { st with lexicalDefinition := previous }
  | .aliasTarget _ previous => { st with aliasTarget := previous }
  | _ => st

theorem facts_replay (u : Undo) (s : Scope) (n : String) :
    (u.replay s).facts n = if u.name? = some n then u.onFacts (s.facts n) else s.facts n := by
  cases u with
  | marker kind name present =>
    rcases eq_or_ne name n with rfl | h
    · cases kind <;> simp [replay, name?, onFacts, Scope.facts, Scope.capture,
        Scope.captureMetadata, Scope.markers, Scope.get, marked_setMarker]
    · cases kind <;> simp [replay, name?, Scope.facts, Scope.capture, Scope.captureMetadata,
        Scope.markers, Scope.get, marked_setMarker, h, h.symm]
  | assignment name a =>
    rcases eq_or_ne name n with rfl | h
    · cases hp : a.provenance <;> simp [replay, AssignmentUndo.restore, Scope.putProvenance, hp,
        name?, onFacts, Scope.facts, Scope.capture, Scope.captureMetadata, Scope.markers,
        Scope.get, marked_readd, lookup_readd]
    · cases hp : a.provenance <;> simp [replay, AssignmentUndo.restore, Scope.putProvenance, hp,
        name?, Scope.facts, Scope.capture, Scope.captureMetadata, Scope.markers,
        Scope.get, marked_readd, lookup_readd, h, h.symm, Table.lookup_put_ne _ _ h.symm]
  | binding name st =>
    rcases eq_or_ne name n with rfl | h
    · simp [replay, BindingState.restore, Scope.putProvenance, name?, onFacts, Scope.facts,
        Scope.capture, Scope.captureMetadata, Scope.markers, Scope.get, marked_setMarker]
    · simp [replay, BindingState.restore, Scope.putProvenance, name?, Scope.facts,
        Scope.capture, Scope.captureMetadata, Scope.markers, Scope.get, marked_setMarker, h,
        h.symm, Table.lookup_put_ne _ _ h.symm]
  | lexicalDefinition name previous =>
    rcases eq_or_ne name n with rfl | h
    · simp [replay, name?, onFacts, Scope.facts, Scope.capture, Scope.captureMetadata,
        Scope.markers, Scope.get]
    · simp [replay, name?, Scope.facts, Scope.capture, Scope.captureMetadata, Scope.markers,
        Scope.get, h, Table.lookup_put_ne _ _ h.symm]
  | aliasTarget name previous =>
    rcases eq_or_ne name n with rfl | h
    · simp [replay, name?, onFacts, Scope.facts, Scope.capture, Scope.captureMetadata,
        Scope.markers, Scope.get]
    · simp [replay, name?, Scope.facts, Scope.capture, Scope.captureMetadata, Scope.markers,
        Scope.get, h, Table.lookup_put_ne _ _ h.symm]
  | _ => rfl
/-- Replaying neither starts nor ends the tracking of definitions. -/
@[simp] theorem tracked_replay (u : Undo) (s : Scope) :
    (u.replay s).referenceProvenance.isSome = s.referenceProvenance.isSome := by
  cases u with
  | marker kind name present => cases kind <;> rfl
  | assignment name a =>
    cases hp : a.provenance <;> simp [replay, AssignmentUndo.restore, Scope.putProvenance, hp]
  | binding name st => simp [replay, BindingState.restore, Scope.putProvenance]
  | reference name previous => simp [replay, Scope.putProvenance]
  | provenance bindings => simp [replay]
  | _ => rfl

theorem provenanceOf_putProvenance (s : Scope) (n name : String)
    (p : Option BindingProvenance) (hs : s.referenceProvenance.isSome = true) :
    (s.putProvenance name p).provenanceOf n = if n = name then p else s.provenanceOf n := by
  obtain ⟨table, htable⟩ := Option.isSome_iff_exists.mp hs
  simp [Scope.putProvenance, Scope.provenanceOf, htable, Table.lookup_put]

/-- Replaying a record on two tracked scopes leaves them as alike as they were. -/
theorem provenanceOf_replay_congr (u : Undo) {t s : Scope}
    (ht : t.referenceProvenance.isSome = true) (hs : s.referenceProvenance.isSome = true)
    (h : ∀ n, t.provenanceOf n = s.provenanceOf n) (n : String) :
    (u.replay t).provenanceOf n = (u.replay s).provenanceOf n := by
  have hput : ∀ name p,
      (t.putProvenance name p).provenanceOf n = (s.putProvenance name p).provenanceOf n := by
    intro name p
    rw [provenanceOf_putProvenance t n name p ht, provenanceOf_putProvenance s n name p hs, h n]
  cases u with
  | marker kind name present => cases kind <;> exact h n
  | assignment name a =>
    cases hp : a.provenance with
    | none => simpa [replay, AssignmentUndo.restore, hp, Scope.provenanceOf] using h n
    | some p => simpa [replay, AssignmentUndo.restore, hp, Scope.provenanceOf] using hput name (some p)
  | binding name st => exact hput name st.provenance
  | reference name previous => exact hput name previous
  | provenance bindings =>
    obtain ⟨p, hp⟩ := Option.isSome_iff_exists.mp ht
    obtain ⟨q, hq⟩ := Option.isSome_iff_exists.mp hs
    simp [replay, Scope.provenanceOf, hp, hq]
  | _ => exact h n

/-- What a record does to a name's facts beside its type does not depend on the
type. -/
theorem onFacts_ty (u : Undo) (st : BindingState) (ty : Option RType) :
    { u.onFacts { st with ty } with ty := none } = { u.onFacts st with ty := none } := by
  cases u with
  | marker kind name present => cases kind <;> rfl
  | _ => rfl

/-- A record about a name either writes its type or leaves it. -/
theorem get_replay (u : Undo) (s : Scope) (n : String) :
    (u.replay s).get n = if u.name? = some n then (u.onFacts (s.facts n)).ty else s.get n := by
  have h := congrArg BindingState.ty (facts_replay u s n)
  rw [apply_ite BindingState.ty] at h
  exact h

theorem tables_replay_congr (u : Undo) {t s : Scope} (h : t.tables = s.tables) :
    (u.replay t).tables = (u.replay s).tables := by
  simp only [Scope.tables, Prod.mk.injEq] at h ⊢
  cases u with
  | marker kind name present => cases kind <;> exact h
  | assignment name a =>
    cases hp : a.provenance <;>
      simpa [replay, AssignmentUndo.restore, hp, Scope.putProvenance] using h
  | _ => simp [replay, h, BindingState.restore, Scope.putProvenance]

/-- Only an assignment's or a binding's record writes the type, and it writes one it
holds. -/
theorem onFacts_ty_congr (u : Undo) {a b : BindingState}
    (h : (∀ name st, u ≠ .assignment name st) → a.ty = b.ty) :
    (u.onFacts a).ty = (u.onFacts b).ty := by
  cases u with
  | assignment name st => rfl
  | binding name st => rfl
  | marker kind name present => cases kind <;> exact h (by simp)
  | _ => exact h (by simp)

end Undo

namespace Scope

/-- The names with an assignment among the records. -/
def assigned (us : List Undo) : Set String := { n | ∃ a, Undo.assignment n a ∈ us }

/-- Two scopes that agree still do after a record is replayed on both; an assignment's
record also writes the type of its name. -/
theorem Agree.replay {N : Set String} {t s : Scope} (u : Undo) (us : List Undo)
    (h : Agree (assigned (u :: us) ∪ N) t s) : Agree (assigned us ∪ N) (u.replay t) (u.replay s) where
  metadata n := by
    rw [Undo.facts_replay, Undo.facts_replay]
    split
    · have ht := Undo.onFacts_ty u (t.facts n) none
      have hs := Undo.onFacts_ty u (s.facts n) none
      rw [← ht, ← hs, h.metadata n]
    · exact h.metadata n
  type n hn := by
    have hget : (∀ name a, u.name? = some n → u ≠ .assignment name a) → t.get n = s.get n := by
      intro hu
      refine h.type n fun hmem => hn ?_
      rcases hmem with ⟨a, ha⟩ | hN
      · rcases List.mem_cons.mp ha with rfl | ha
        · exact absurd rfl (hu n a rfl)
        · exact .inl ⟨a, ha⟩
      · exact .inr hN
    rw [Undo.get_replay, Undo.get_replay]
    split
    · rename_i hname
      exact u.onFacts_ty_congr fun hu => hget fun name a _ => hu name a
    · rename_i hname
      exact hget fun name a hn => absurd hn hname
  provenance hs := by
    rw [Undo.tracked_replay] at hs
    obtain ⟨ht, hp⟩ := h.provenance hs
    exact ⟨by rw [Undo.tracked_replay, ht], Undo.provenanceOf_replay_congr u ht hs hp⟩
  tables := Undo.tables_replay_congr u h.tables

/-- Replaying the records of a branch on a scope that lacks the types of the names the
branch assigned brings it back just the same. -/
theorem Agree.replayAll (us : List Undo) {t s : Scope} (h : Agree (assigned us) t s) :
    Agree ∅ (UndoLog.replayAll Undo.replay us t) (UndoLog.replayAll Undo.replay us s) := by
  induction us generalizing t s with
  | nil => exact h.mono fun n ⟨a, ha⟩ => absurd ha (by simp)
  | cons u us ih =>
    refine ih ?_
    have hu := Agree.replay u us (N := ∅) (h.mono Set.subset_union_left)
    exact hu.mono (by simp)

theorem Agree.replay_congr (u : Undo) (t s : Scope) (h : Agree ∅ t s) :
    Agree ∅ (u.replay t) (u.replay s) :=
  Agree.replayAll [u] (h.mono (Set.empty_subset _))

end Scope

end Ry
