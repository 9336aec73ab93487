import Ry.Declared.Entry

/-! # A declaration accuses no actual falsely

R matches the actuals of a call after it has put the elements of `...` where the call forwards
them.  A call that forwards none is matched as it stands; in one that does, an actual with the
whole name of a formal is that formal's whatever the elements are.
-/

namespace Ry.Declared

/-! ## Expansions of a call -/

/-- `...` as an actual stands for its elements, under their own tags. -/
def forwardsDots (argument : Arg) : Bool :=
  match argument.value with
  | .ident name _ => name == "..."
  | _ => false

def tagOf (argument : Arg) : Option String := argument.name.map semanticArgumentName

/-- The tags R matches when `...` holds elements with the tags `dots`. -/
def expandedTags (dots : List (Option String)) (args : List Arg) : List (Option String) :=
  args.flatMap fun argument => if forwardsDots argument then dots else [tagOf argument]

def expandedCall (function : UserFn) (dots : List (Option String)) (args : List Arg) : RCall :=
  ⟨function.params.map fun parameter => semanticArgumentName parameter.name, expandedTags dots args⟩

/-- Where an actual of the call stands among the expanded ones. -/
def position (dots : List (Option String)) (args : List Arg) (i : Nat) : Nat :=
  (expandedTags dots (args.take i)).length

theorem getElem?_expandedTags {dots : List (Option String)} {args : List Arg} {i : Nat}
    {argument : Arg} (hi : args[i]? = some argument) (hdots : forwardsDots argument = false) :
    (expandedTags dots args)[position dots args i]? = some (tagOf argument) := by
  obtain ⟨hlt, rfl⟩ := List.getElem?_eq_some_iff.mp hi
  have hsplit : args = args.take i ++ args[i] :: args.drop (i + 1) := by
    rw [List.getElem_cons_drop, List.take_append_drop]
  have htags : expandedTags dots args = expandedTags dots (args.take i) ++
      tagOf args[i] :: expandedTags dots (args.drop (i + 1)) := by
    conv_lhs => rw [hsplit]
    rw [expandedTags, List.flatMap_append, List.flatMap_cons, if_neg (by rw [hdots]; exact nofun)]
    rfl
  rw [htags, position, List.getElem?_append_right le_rfl, Nat.sub_self]
  rfl

theorem expandedTags_of_forwardsNone {args : List Arg}
    (hargs : ∀ argument ∈ args, forwardsDots argument = false) (dots : List (Option String)) :
    expandedTags dots args = args.map tagOf := by
  induction args with
  | nil => rfl
  | cons argument args ih =>
    have hhead := hargs argument List.mem_cons_self
    have htail := ih fun other hother => hargs other (List.mem_cons_of_mem _ hother)
    rw [expandedTags, List.flatMap_cons, hhead, if_neg nofun, List.map_cons, ← htail]
    rfl

theorem position_of_forwardsNone {args : List Arg}
    (hargs : ∀ argument ∈ args, forwardsDots argument = false) (dots : List (Option String))
    {i : Nat} (hi : i < args.length) : position dots args i = i := by
  rw [position, expandedTags_of_forwardsNone fun argument h => hargs argument (List.mem_of_mem_take h),
    List.length_map, List.length_take, Nat.min_eq_left hi.le]

/-! ## Whose formal an actual is -/

/-- An actual whose formal no expansion changes. -/
def Fixed (args : List Arg) (argument : Arg) (formal : String) : Prop :=
  (∀ other ∈ args, forwardsDots other = false) ∨
    forwardsDots argument = false ∧ tagOf argument = some formal ∧ formal ≠ "..."

theorem binds_of_fixed {function : UserFn} {args : List Arg} {i j : Nat} {argument : Arg}
    {formal : UserParam}
    (hnodup : (function.params.map fun parameter => semanticArgumentName parameter.name).Nodup)
    (hi : args[i]? = some argument) (hj : function.params[j]? = some formal)
    (hbinding : (callBindings function args).actual i = some j)
    (hfixed : Fixed args argument (semanticArgumentName formal.name))
    (dots : List (Option String)) (haccepted : (expandedCall function dots args).Accepted) :
    (expandedCall function dots args).binds (position dots args i) j = true := by
  rcases hfixed with hnone | ⟨hdots, htag, hname⟩
  · rw [position_of_forwardsNone hnone dots (List.getElem?_eq_some_iff.mp hi).1,
      ← actual_matchArgumentNames hnodup haccepted]
    rw [expandedCall, expandedTags_of_forwardsNone hnone]
    exact hbinding
  · have hexact : (expandedCall function dots args).exact (position dots args i) j = true := by
      rw [exact_some (htag ▸ getElem?_expandedTags hi hdots)]
      exact ⟨by rw [expandedCall, List.getElem?_map, hj]; rfl, hname⟩
    rw [RCall.binds, RCall.tagged, hexact]
    rfl

/-! ## The mismatches of a call -/

theorem checkActual_eq_some {signature : List DeclaredParameter} {params : List UserParam}
    {bindings : ArgumentMatch} {argument : Arg} {actual : RType} {index : Nat} {m : Mismatch}
    (h : checkActual signature params bindings ((argument, actual), index) = some m) :
    ∃ j formal, bindings.actual index = some j ∧ params[j]? = some formal ∧
      (∃ declared ∈ signature, declared.name = semanticArgumentName formal.name ∧
        declared.constraint = some m.constraint) ∧
      m.span = Arg.span argument ∧ m.formal = formal.name ∧
      compareActual actual argument.value m.constraint = .incompatible := by
  rw [checkActual] at h
  split at h
  · cases h
  · simp only [Option.bind_eq_some_iff] at h
    obtain ⟨formal, ⟨j, hj, hformal⟩, constraint, ⟨declared, hfind, hconstraint⟩, h⟩ := h
    split at h
    · rename_i hincompatible
      obtain rfl := Option.some.inj h
      have hname := List.find?_some hfind
      rw [decide_eq_true_eq] at hname
      exact ⟨j, formal, hj, hformal, ⟨declared, List.mem_of_find?_eq_some hfind, hname, hconstraint⟩,
        rfl, rfl, hincompatible⟩
    · cases h

theorem mem_callMismatches {target : FunctionId → Option (List DeclaredParameter)}
    {discarding : Bool} {originalName : String} {function : Option UserFn} {args : List Arg}
    {argTypes : List RType} {m : Mismatch}
    (h : m ∈ callMismatches target discarding originalName function args argTypes) :
    ∃ called signature i argument actual, function = some called ∧
      target called.id = some signature ∧ args[i]? = some argument ∧ argTypes[i]? = some actual ∧
      checkActual signature called.params (callBindings called args) ((argument, actual), i) =
        some m := by
  rw [callMismatches.eq_def] at h
  split at h
  · exact absurd h List.not_mem_nil
  · cases function with
    | none => exact absurd h List.not_mem_nil
    | some called =>
      cases htarget : target called.id with
      | none => simp [htarget] at h
      | some signature =>
        simp only [htarget] at h
        split at h
        · exact absurd h List.not_mem_nil
        · obtain ⟨⟨⟨argument, actual⟩, i⟩, hmem, hcheck⟩ := List.mem_filterMap.mp h
          rw [List.mem_zipIdx_iff_getElem?, List.getElem?_zip_eq_some] at hmem
          exact ⟨called, signature, i, argument, actual, rfl, htarget, hmem.1, hmem.2, hcheck⟩

/-- What a finding about a call says: an actual is bound to a formal whose constraint none of its
values satisfies. -/
structure Conflict (target : FunctionId → Option (List DeclaredParameter)) (function : UserFn)
    (args : List Arg) (argTypes : List RType) (finding : DeclarationFinding) where
  actual : Nat
  formal : Nat
  argument : Arg
  type : RType
  parameter : UserParam
  signature : List DeclaredParameter
  declared : DeclaredParameter
  constraint : TypeExpr
  args_actual : args[actual]? = some argument
  argTypes_actual : argTypes[actual]? = some type
  params_formal : function.params[formal]? = some parameter
  target_id : target function.id = some signature
  declared_mem : declared ∈ signature
  declared_name : declared.name = semanticArgumentName parameter.name
  declared_constraint : declared.constraint = some constraint
  span_eq : finding.span = Arg.span argument
  binding : (callBindings function args).actual actual = some formal
  incompatible : compareActual type argument.value constraint = .incompatible

theorem conflict_of_mem {canonical : TypeExpr → String}
    {target : FunctionId → Option (List DeclaredParameter)} {discarding : Bool}
    {path originalName lookupName : String} {function : Option UserFn} {args : List Arg}
    {argTypes : List RType} {finding : DeclarationFinding}
    (h : finding ∈ checkDeclarationCall canonical target discarding path originalName lookupName
      function args argTypes) :
    ∃ called, function = some called ∧ Nonempty (Conflict target called args argTypes finding) := by
  obtain ⟨m, hm, rfl⟩ := List.mem_map.mp h
  obtain ⟨called, signature, i, argument, actual, hfunction, htarget, hi, htype, hcheck⟩ :=
    mem_callMismatches hm
  obtain ⟨j, parameter, hj, hparameter, ⟨declared, hmem, hname, hconstraint⟩, hspan, -,
    hincompatible⟩ := checkActual_eq_some hcheck
  exact ⟨called, hfunction, ⟨i, j, argument, actual, parameter, signature, declared, m.constraint,
    hi, htype, hparameter, htarget, hmem, hname, hconstraint, hspan, hj, hincompatible⟩⟩

/-- Verdicts, the type of a declared formal and the findings about calls are never false. -/
theorem declarations_sound :
    (∀ (implicitClass : RValue → List String) (constraint : TypeExpr) (t : RType), Inferred t →
      (compare constraint t = .incompatible →
        ∀ v, t.describes v = true → ¬ constraint.satisfied implicitClass v) ∧
      (compare constraint t = .compatible →
        ∀ v, t.describes v = true → constraint.satisfied implicitClass v)) ∧
    (∀ (constraint : TypeExpr) (t : RType), bodyEntryType constraint = some t →
      (∀ (implicitClass : RValue → List String) (v : RValue), WellFormed v →
        constraint.satisfied implicitClass v → t.describes v = true) ∧
      (compare constraint t = .compatible ↔ ¬ Within .unknown constraint)) ∧
    ∀ (canonical : TypeExpr → String) (target : FunctionId → Option (List DeclaredParameter))
      (discarding : Bool) (path originalName lookupName : String) (function : Option UserFn)
      (args : List Arg) (argTypes : List RType) (finding : DeclarationFinding),
      (∀ t ∈ argTypes, Inferred t) →
      finding ∈ checkDeclarationCall canonical target discarding path originalName lookupName
        function args argTypes →
      ∃ called, function = some called ∧ ∃ c : Conflict target called args argTypes finding,
        (∀ (implicitClass : RValue → List String) (v : RValue),
          ValueOf implicitClass c.type c.argument.value v → ¬ c.constraint.satisfied implicitClass v) ∧
        ((called.params.map fun parameter => semanticArgumentName parameter.name).Nodup →
          Fixed args c.argument (semanticArgumentName c.parameter.name) →
          ∀ dots, (expandedCall called dots args).Accepted →
            (expandedCall called dots args).binds (position dots args c.actual) c.formal = true) := by
  refine ⟨fun implicitClass constraint t ht => ?_, fun constraint t h => ?_, ?_⟩
  · have hsound := sound_compare ht constraint implicitClass
    exact ⟨hsound.2, hsound.1⟩
  · exact ⟨fun implicitClass v hv => describes_bodyEntryType hv h, compare_bodyEntryType_iff h⟩
  · intro canonical target discarding path originalName lookupName function args argTypes finding
      htypes hfinding
    obtain ⟨called, hfunction, ⟨c⟩⟩ := conflict_of_mem hfinding
    refine ⟨called, hfunction, c, fun implicitClass v => ?_, fun hnodup hfixed dots haccepted => ?_⟩
    · have htype := htypes c.type (List.mem_of_getElem? c.argTypes_actual)
      exact (sound_compareActual htype c.argument.value c.constraint implicitClass).2 c.incompatible v
    · exact binds_of_fixed hnodup c.args_actual c.params_formal c.binding hfixed dots haccepted

/-- `f <- function(n) n`, declared with an integer `n`. -/
def countFn : UserFn :=
  ⟨[⟨"n", .unknown, true, false, false, [], false, false, false, none⟩], "R/f.R", none,
    ⟨5, 18, 1, 6⟩, 0⟩

def countTarget (_ : FunctionId) : Option (List DeclaredParameter) :=
  some [⟨"n", .ordinary, .required, .value, some (.atomic .integer none)⟩]

/-- `f("a")` -/
def countArgs : List Arg := [.mk none (.string "a" ⟨2, 5, 1, 3⟩) ⟨2, 5, 1, 3⟩]

theorem declarations_sound_count :
    ∃ called, some countFn = some called ∧
      ∃ c : Conflict countTarget called countArgs [RType.scalar .character]
          ⟨"R/g.R", ⟨2, 5, 1, 3⟩, "argument for `f` formal `n` conflicts with adopted constraint `integer`"⟩,
        (expandedCall called [] countArgs).binds (position [] countArgs c.actual) c.formal = true := by
  have hinferred : ∀ t ∈ [RType.scalar .character], Inferred t := by
    intro t ht
    obtain rfl := List.mem_singleton.mp ht
    exact ⟨_, nofun, nofun, nofun⟩
  obtain ⟨called, hcalled, c, -, hbinds⟩ := declarations_sound.2.2 (fun _ => "integer") countTarget
    false "R/g.R" "f" "f" (some countFn) countArgs [RType.scalar .character]
    ⟨"R/g.R", ⟨2, 5, 1, 3⟩, "argument for `f` formal `n` conflicts with adopted constraint `integer`"⟩
    hinferred (by decide +kernel)
  obtain rfl := Option.some.inj hcalled
  refine ⟨_, rfl, c, hbinds (by decide) (.inl (by decide)) [] ?_⟩
  have hexact : ∀ i j, (expandedCall countFn [] countArgs).exact i j = false := by
    intro i j
    cases i <;> rfl
  have hpartially : ∀ i j, (expandedCall countFn [] countArgs).partially i j = false := by
    intro i j
    have hbegins : (expandedCall countFn [] countArgs).begins i j = false := by
      cases i <;> rfl
    rw [RCall.partially, hbegins, Bool.and_false, Bool.false_and, Bool.false_and]
  constructor
  · exact fun i i' j h => absurd ((hexact i j).symm.trans h) nofun
  · exact fun i j j' h => absurd ((hexact i j).symm.trans h) nofun
  · exact fun i i' j h => absurd ((hpartially i j).symm.trans h) nofun
  · exact fun i j j' h => absurd ((hpartially i j).symm.trans h) nofun
  · intro _ i hi
    obtain rfl : i = 0 := Nat.lt_one_iff.mp hi
    exact ⟨0, by decide⟩

/-- A formal declared without a claim has a type that is compatible with no predicate. -/
theorem unknown_not_compatible :
    ¬ ∀ (constraint : TypeExpr) (t : RType), bodyEntryType constraint = some t →
      compare constraint t = .compatible := by
  intro h
  exact absurd (h .unknown .unknown rfl) nofun

end Ry.Declared
