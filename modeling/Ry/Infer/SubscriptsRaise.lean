import Ry.Infer.SubscriptsSound

/-! # A reported subscript raises an error

Base's `[` and `[[` fail on a subscript of both signs.  Where the scope describes the moment that
the index is reached, and what is evaluated on the way leaves alone what the findings rest on
(`Undisturbed`), so does every index with a finding.
-/

namespace Ry

open Progression

/-! ## What indexing does with it -/

theorem places_mixed {l : List Int} (h : Progression.Mixed l) (extent : Nat) :
    places extent (l.map some) = .error .mixedSigns := by
  obtain ⟨⟨x, hx, hneg⟩, ⟨y, hy, hpos⟩⟩ := h
  unfold places
  rw [if_pos, if_pos]
  · exact List.any_eq_true.mpr ⟨some y, List.mem_map_of_mem hy, by simpa using hpos⟩
  · exact List.any_eq_true.mpr ⟨some x, List.mem_map_of_mem hx, by simpa using hneg⟩

namespace Access

variable (a : Access) {v : NumberedValue}

theorem ofSingle_mixed (h : v.Mixed) (extent : Nat) :
    ∃ failure, a.ofSingle extent v = .error failure := by
  obtain ⟨l, hl, hmixed⟩ := h
  exact ⟨.mixedSigns, by rw [ofSingle, if_pos hl.storage, hl.subscripts, places_mixed hmixed]⟩

theorem ofDouble_mixed (h : v.Mixed) (extent : Nat) :
    ∃ failure, a.ofDouble extent v = .error failure := by
  obtain ⟨l, hl, hmixed⟩ := h
  refine ⟨.notOne, ?_⟩
  rw [ofDouble, if_pos hl.storage, if_pos]
  rw [hl.subscripts, List.length_map]
  exact hmixed.length_ne_one

/-- One subscript without places fails them all. -/
theorem resolve_error {place : Nat → NumberedValue → Except IndexFailure (List (Option Nat))}
    (hfail : ∀ extent, ∃ failure, place extent v = .error failure) (extents : List Nat)
    {subs : List (Option NumberedValue)} (h : some v ∈ subs) :
    ∃ failure, resolve place extents subs = .error failure := by
  induction subs generalizing extents with
  | nil => cases h
  | cons sub subs ih =>
    cases extents with
    | nil => exact ⟨.dimensions, by cases sub <;> rfl⟩
    | cons extent extents =>
      cases sub with
      | none =>
        have hmem : some v ∈ subs := by simpa using h
        obtain ⟨failure, hrest⟩ := ih extents hmem
        exact ⟨failure, by rw [resolve, hrest]; rfl⟩
      | some w =>
        rw [resolve]
        cases hhere : place extent w with
        | error failure => exact ⟨failure, rfl⟩
        | ok here =>
          rcases List.mem_cons.mp h with heq | hmem
          · cases heq
            obtain ⟨failure, hv⟩ := hfail extent
            rw [hhere] at hv
            cases hv
          · obtain ⟨failure, hrest⟩ := ih extents hmem
            exact ⟨failure, by rw [hrest]; rfl⟩

/-- Base's `[` fails on a mixed subscript of any vector or list, `[[` of an atomic vector. -/
theorem index_mixed {kind : IndexKind} {x : RValue} {subs : List (Option NumberedValue)}
    (h : v.Mixed) (hv : some v ∈ subs) (hx : x.storage ≠ .null)
    (hkind : kind = .single ∨ kind = .double ∧ x.storage ≠ .list) :
    ∃ failure, a.index kind x subs = .error failure := by
  rcases hkind with rfl | ⟨rfl, hlist⟩
  · obtain ⟨failure, hresolve⟩ :=
      resolve_error (a.ofSingle_mixed h) a.extents hv
    exact ⟨failure, by rw [index, if_neg hx, hresolve]; rfl⟩
  · obtain ⟨failure, hresolve⟩ :=
      resolve_error (a.ofDouble_mixed h) a.extents hv
    exact ⟨failure, by rw [index, if_neg hx, if_neg hlist, hresolve]; rfl⟩

end Access

namespace NameTables

variable {c : NameTables} {s : Scope}

/-- What the receiver has to be, of a value that its type describes. -/
theorem receiverOk_cases {receiver : RType} {kind : IndexKind} {x : RValue}
    (h : c.receiverOk s receiver kind = true) (hproxy : receiver.cls.storageProxy = false)
    (hx : receiver.presents x = true) :
    x.cls = [] ∧ x.storage ≠ .null ∧ (kind = .single ∨ kind = .double ∧ x.storage ≠ .list) ∧
      ∀ replacing, c.operatorRebound s (indexSymbol kind replacing) = false := by
  have hmode : receiver.cls.isClassless = true ∧
      (receiver.mode.isAtomic = true ∨ kind = .single ∧ receiver.mode = .list) ∧
      (kind = .single ∨ kind = .double) ∧
      ∀ replacing, c.operatorRebound s (indexSymbol kind replacing) = false := by
    cases kind with
    | single =>
      simp only [receiverOk, Bool.and_eq_true, Bool.or_eq_true, Bool.not_eq_true',
        decide_eq_true_eq] at h
      obtain ⟨⟨hplain, hread⟩, hreplace⟩ := h
      refine ⟨hplain.elim (·.1) (·.1), hplain.imp (·.2) fun hlist => ⟨rfl, hlist.2⟩, .inl rfl, ?_⟩
      intro replacing
      cases replacing with
      | false => exact hread
      | true => exact hreplace
    | double =>
      simp only [receiverOk, Bool.and_eq_true, Bool.not_eq_true'] at h
      obtain ⟨⟨⟨hclass, hatomic⟩, hread⟩, hreplace⟩ := h
      refine ⟨hclass, .inl hatomic, .inr rfl, ?_⟩
      intro replacing
      cases replacing with
      | false => exact hread
      | true => exact hreplace
    | dollar => cases h
    | slot => cases h
  obtain ⟨hclass, hmode, hkind, hbase⟩ := hmode
  have hunion : receiver.mode ≠ .union := by
    intro hunion
    rw [hunion] at hmode
    simp [Mode.isAtomic] at hmode
  obtain ⟨hstorage, -, hcls⟩ := RType.presents_plain hclass hproxy hx hunion
  refine ⟨hcls, ?_, ?_, hbase⟩
  · intro hnull
    rw [hnull] at hstorage
    cases hm : receiver.mode <;> simp_all [Mode.describes, Mode.isAtomic]
  · rcases hmode with hatomic | ⟨hsingle, -⟩
    · refine hkind.imp id fun hdouble => ⟨hdouble, fun hlist => ?_⟩
      rw [hlist] at hstorage
      cases hm : receiver.mode <;> simp_all [Mode.describes, Mode.isAtomic]
    · exact .inl hsingle

/-- The first subscript reads the bindings that the scope has; no later one reads any. -/
theorem bindsEndpoints_of_describes {m : Moment} (h : Describes c s m) {e : Expr}
    (hlexical : ∀ name ∈ e.idents, ∀ t, s.get name = some t →
      s.maskShadows name = false ∧ t.cls.storageProxy = false) :
    BindsEndpoints c s m true e := by
  intro name hname sp n v hn hv
  rw [provenIntegralEndpoint, if_pos rfl] at hn
  split at hn
  · cases hn
  · rename_i hplain
    simp only [Bool.or_eq_true, decide_eq_true_eq, not_or] at hplain
    obtain ⟨⟨hparameter, hdefault⟩, hnarrowed⟩ := hplain
    obtain ⟨t, ht, hpinned⟩ := Option.bind_eq_some_iff.mp hn
    obtain ⟨hmask, hproxy⟩ := hlexical name hname t ht
    have hlocal : name ∉ s.parameterBindings := by simpa [Scope.isParameter] using hparameter
    obtain ⟨hpresents, hbound⟩ := h.binding name t v ht hv hlocal hdefault hnarrowed hmask
    exact is_of_pinnedNumber hpinned hproxy hpresents hbound

theorem bindsEndpoints_false {m : Moment} (e : Expr) : BindsEndpoints c s m false e := by
  intro name _ sp n v hn
  cases hn

end NameTables

/-! ## Overflow -/

def InI64 (n : Int) : Prop := -2 ^ 63 ≤ n ∧ n < 2 ^ 63

def InI128 (n : Int) : Prop := -2 ^ 127 ≤ n ∧ n < 2 ^ 127

/-- Where the step leads towards the other end, nothing on the way to the last term overflows
an `i128`, and the term is an `i64`. -/
theorem sequenceLastTerm_fits {start stop step : Int} (hstart : InI64 start) (hstop : InI64 stop)
    (hstep : step ≠ 0) :
    InI128 (stop - start) ∧ InI128 ((stop - start).tdiv step) ∧
      (0 ≤ (stop - start).tdiv step → InI128 ((stop - start).tdiv step * step) ∧
        NameTables.sequenceLastTerm start stop step =
          some (start + (stop - start).tdiv step * step)) := by
  obtain ⟨hlow, hhigh⟩ := hstart
  obtain ⟨hlow', hhigh'⟩ := hstop
  have hquotient : ((stop - start).tdiv step).natAbs ≤ (stop - start).natAbs := by
    rw [Int.natAbs_tdiv]
    exact Nat.div_le_self _ _
  refine ⟨⟨by omega, by omega⟩, ⟨by omega, by omega⟩, fun hsteps => ?_⟩
  obtain ⟨hmin, hmax⟩ := last_between hsteps
  have hlast : InI64 (start + (stop - start).tdiv step * step) :=
    ⟨le_trans (le_min hlow hlow') hmin, lt_of_le_of_lt hmax (max_lt hhigh hhigh')⟩
  obtain ⟨hbelow, habove⟩ := hlast
  refine ⟨⟨by omega, by omega⟩, ?_⟩
  rw [NameTables.sequenceLastTerm, if_neg hstep]
  dsimp only
  rw [if_neg (by omega), NameTables.i64TryFrom, if_pos ⟨hbelow, habove⟩]

/-- An endpoint is in R's integer range, where a negation is no overflow. -/
theorem provenIntegralEndpoint_range {c : NameTables} {s : Scope} {allowIdent : Bool} {e : Expr}
    {n : Int} (h : c.provenIntegralEndpoint s allowIdent e = some n) : |n| ≤ 2147483647 := by
  fun_induction NameTables.provenIntegralEndpoint c s allowIdent e generalizing n with
  | case1 value sp => exact (wholeInIntRange_eq_some.mp h).2
  | case2 bits sp => exact (wholeInIntRange_eq_some.mp h).2
  | case3 => cases h
  | case4 operand sp hbase ih =>
    obtain ⟨k, hk, hneg⟩ := Option.bind_eq_some_iff.mp h
    unfold NameTables.checkedNeg at hneg
    split at hneg
    · cases hneg
    · obtain rfl := Option.some.inj hneg
      rw [abs_neg]
      exact ih hk
  | case5 => cases h
  | case6 name sp hallow hplain =>
    obtain ⟨t, -, hpinned⟩ := Option.bind_eq_some_iff.mp h
    unfold NameTables.pinnedNumber at hpinned
    split at hpinned
    · split at hpinned
      · split at hpinned
        · exact (wholeInIntRange_eq_some.mp hpinned).2
        · cases hpinned
      · cases hpinned
    · cases hpinned
  | case7 => cases h
  | case8 => cases h

/-! ## The findings -/

/-- What is evaluated on the way to the index leaves alone what the findings rest on: the type of
the receiver is no stand-in for a method's result; earlier subscripts leave the functions and the
methods as they are; the identifiers of the first subscript are lexical bindings, behind no data
mask; no method of `seq` is for the class of its first actual; `seq2` is rlang's. -/
structure Undisturbed (c : NameTables) (receiver : RType) (args : List Arg) (s : Scope)
    (run : Nat → Moment) : Prop where
  receiver : receiver.cls.storageProxy = false
  kept : ∀ position < args.length, (run position).called = (run 0).called ∧
    (run position).qualified = (run 0).qualified
  lexical : ∀ arg ∈ args.head?, ∀ name ∈ arg.value.idents, ∀ t, s.get name = some t →
    s.maskShadows name = false ∧ t.cls.storageProxy = false
  methods : ∀ position arg, args[position]? = some arg →
    NameTables.Undispatched (run 0) (run position) arg.value
  seq2 : ∀ arg ∈ args, NameTables.FindsSeq2 c arg.value

/-- Where the subscript of a finding gives a value it mixes signs, and indexing any value of the
receiver's type with it fails, whether read or replaced.  `run` is the moment each subscript is
evaluated at. -/
def Raises (c : NameTables) (receiver : RType) (kind : IndexKind) (args : List Arg) (s : Scope)
    (run : Nat → Moment) : Prop :=
  ∀ finding ∈ c.mixedSignSequenceFindings s receiver kind args,
    ∃ position value sp, args[position]? = some (.mk none value sp) ∧ value.span = finding.1 ∧
      ∀ v, (run position).gives value v → v.Mixed ∧
        ∀ x, receiver.presents x = true → ∀ subs, some v ∈ subs → ∀ replacing,
          ∃ failure, (run 0).index kind replacing x subs = .error failure

/-- A finding is on one of the unnamed subscripts. -/
theorem exists_of_mem_findings {c : NameTables} {receiver : RType} {kind : IndexKind}
    {args : List Arg} {s : Scope} {finding : Span × String}
    (h : finding ∈ c.mixedSignSequenceFindings s receiver kind args) :
    c.receiverOk s receiver kind = true ∧ ∃ position value sp ends,
      args[position]? = some (.mk none value sp) ∧ value.span = finding.1 ∧
        c.provenMixedSignSequence s (position == 0) value = some ends := by
  unfold NameTables.mixedSignSequenceFindings at h
  split at h
  · rename_i hreceiver
    refine ⟨hreceiver, ?_⟩
    obtain ⟨⟨arg, position⟩, hmem, hfinding⟩ := List.mem_filterMap.mp h
    have hget : args[position]? = some arg := List.mem_zipIdx_iff_getElem?.mp hmem
    obtain ⟨name, value, sp⟩ := arg
    unfold NameTables.subscriptFinding at hfinding
    split at hfinding
    · cases hfinding
    · cases hfinding
    · rename_i value' sp' position' hmissing heq
      cases heq
      obtain ⟨ends, hends, rfl⟩ := Option.map_eq_some_iff.mp hfinding
      exact ⟨position, value, sp, ends, hget, rfl, hends⟩
  · cases h

/-- In every execution that the scope describes and nothing disturbs on the way, a reported
subscript only gives sequences that contain both a negative and a positive whole number, and base's
`[` and `[[` fail on it; and no step of the computation overflows. -/
theorem mixedSignSequenceFindings_raise (c : NameTables) (receiver : RType) (kind : IndexKind)
    (args : List Arg) (s : Scope) :
    (∀ run : Nat → Moment, Describes c s (run 0) → Undisturbed c receiver args s run →
      Raises c receiver kind args s run) ∧
    (∀ allowIdent e n, c.provenIntegralEndpoint s allowIdent e = some n → |n| ≤ 2147483647) ∧
    ∀ start stop step : Int, InI64 start → InI64 stop → step ≠ 0 →
      InI128 (stop - start) ∧ InI128 ((stop - start).tdiv step) ∧
        (0 ≤ (stop - start).tdiv step → InI128 ((stop - start).tdiv step * step) ∧
          NameTables.sequenceLastTerm start stop step =
            some (start + (stop - start).tdiv step * step)) := by
  refine ⟨fun run hscope hrun finding hfinding => ?_, fun _ _ _ => provenIntegralEndpoint_range,
    fun _ _ _ => sequenceLastTerm_fits⟩
  obtain ⟨hreceiver, position, value, sp, ends, hget, hspan, hends⟩ :=
    exists_of_mem_findings hfinding
  refine ⟨position, value, sp, hget, hspan, fun v hv => ?_⟩
  have hlt : position < args.length := lt_length_of_getElem? hget
  have hkeeps : NameTables.Keeps c s (run 0) (run position) :=
    ⟨hscope, (hrun.kept position hlt).1, (hrun.kept position hlt).2⟩
  have hidents : NameTables.BindsEndpoints c s (run position) (position == 0) value := by
    by_cases hfirst : position = 0
    · subst hfirst
      refine NameTables.bindsEndpoints_of_describes hscope (hrun.lexical (.mk none value sp) ?_)
      rw [List.head?_eq_getElem?, hget]
      rfl
    · rw [beq_eq_false_iff_ne.mpr hfirst]
      exact NameTables.bindsEndpoints_false value
  have hmixed : v.Mixed :=
    NameTables.mixed_of_provenMixedSignSequence hkeeps hidents (hrun.methods position _ hget)
      (hrun.seq2 _ (List.mem_of_getElem? hget)) hends hv
  refine ⟨hmixed, fun x hx subs hmem replacing => ?_⟩
  obtain ⟨hcls, hnull, hkind, hbase⟩ := NameTables.receiverOk_cases hreceiver hrun.receiver hx
  obtain ⟨access, haccess⟩ := hscope.index kind replacing (hbase replacing)
  rw [haccess x subs hcls]
  exact (access x).index_mixed hmixed hmem hnull hkind

/-! ## Fresh sessions -/

/-- Nothing is on record. -/
def NameTables.empty : NameTables where
  functions := ∅
  knownVars := ∅
  hasEscapedBindingNames := false
  hasEscapedOperatorNames := false
  hasEscapedSlotNames := false
  escapedExternalBindings := false
  escapedOperatorBindings := false
  escapedSlotBindings := false
  importedFrom := ∅
  externalBindings := ∅
  userStubs := ∅
  packageTypeshed := fun _ => none
  bareLoaded := ∅
  baseBeforeSearchPath := false
  sourceText := fun _ => none

/-- Reads the elements of a vector. -/
def Access.ofVector (x : RValue) : Access where
  extents := [x.length]
  unnumbered := fun _ _ => .error .other
  finish := fun _ => .ok x
  recursive := fun _ => .error .other
  null := .ok x

/-- Without variables, and with these methods of `seq`. -/
def Moment.fresh (method : String → Option RFunction) : Moment where
  binding := fun _ => none
  called := fun name => (RFunction.ofPackage method "base" name).getD fun _ _ => False
  qualified := fun name =>
    match rsplitOnceColons name.toList with
    | some (before, bare) =>
      (RFunction.ofPackage method (String.ofList (before.rdropWhile (· = ':')))
        (String.ofList bare)).getD fun _ _ => False
    | none => fun _ _ => False
  seqMethod := method
  index := fun kind _ x subs => (Access.ofVector x).index kind x subs
  other := fun _ _ => False

theorem rdropWhile_append_colons (l : List Char) (k : Nat) :
    (l ++ List.replicate k ':').rdropWhile (· = ':') = l.rdropWhile (· = ':') := by
  induction k with
  | zero => rw [List.replicate_zero, List.append_nil]
  | succ k ih =>
    rw [List.replicate_succ', ← List.append_assoc, List.rdropWhile_concat_pos _ _ _ (by simp), ih]

theorem describes_fresh (s : Scope) (method : String → Option RFunction) :
    Describes .empty s (.fresh method) where
  binding := fun name t v _ hv => by cases hv
  operator := by
    intro symbol hsymbol _ _
    rcases List.mem_pair.mp hsymbol with rfl | rfl <;> rfl
  standard := by
    intro name hname _ _ _ _
    rcases List.mem_pair.mp hname with rfl | rfl <;> rfl
  imported := by
    intro package name function _ himport
    rw [show NameTables.empty.importedFrom = ∅ from rfl, Finmap.lookup_empty] at himport
    cases himport
  absent := fun _ _ _ _ _ _ actuals v hv => hv
  qualified := by
    intro package name hname function k hfunction _
    have hcolon : ':' ∉ name.toList := by
      rcases List.mem_cons.mp hname with rfl | hname
      · decide
      · rcases List.mem_pair.mp hname with rfl | rfl <;> decide
    have hpackage : (package.toList ++ List.replicate k ':').rdropWhile (· = ':') =
        package.toList := by
      rw [rdropWhile_append_colons]
      unfold Moment.packageFunction RFunction.ofPackage at hfunction
      split at hfunction <;> first | decide | cases hfunction
    have hsplit : rsplitOnceColons
        (package.toList ++ List.replicate (k + 2) ':' ++ name.toList) =
          some (package.toList ++ List.replicate k ':', name.toList) := by
      rw [← rsplitOnceColons_append hcolon, List.replicate_add, ← List.append_assoc package.toList]
      rfl
    have hfound : RFunction.ofPackage method package name = some function := hfunction
    simp only [Moment.fresh, String.toList_ofList, hsplit, hpackage, String.ofList_toList, hfound,
      Option.getD_some]
  index := fun kind replacing _ => ⟨Access.ofVector, fun _ _ _ => rfl⟩

def here : Span := ⟨0, 0, 1, 1⟩

/-- `seq(from = 2L, to = -3L, by = -2L)` as a subscript -/
def steppedSubscript : List Arg :=
  [.mk none (.call (.ident "seq" here)
    [.mk (some "from") (.integer 2 here) here,
      .mk (some "to") (.unaryOp .neg (.integer 3 here) here) here,
      .mk (some "by") (.unaryOp .neg (.integer 2 here) here) here] here) here]

/-- `2, 0, -2` -/
theorem mixedSignSequenceFindings_raise_stepped :
    NameTables.empty.mixedSignSequenceFindings .default (.new .double .nonempty) .single
        steppedSubscript ≠ [] ∧
      Raises .empty (.new .double .nonempty) .single steppedSubscript .default
        fun _ => .fresh fun _ => none := by
  refine ⟨by decide +kernel, (mixedSignSequenceFindings_raise .empty (.new .double .nonempty)
    .single steppedSubscript .default).1 (fun _ => .fresh fun _ => none)
      (describes_fresh _ _) ⟨rfl, fun _ _ => ⟨rfl, rfl⟩, ?_, ?_, ?_⟩⟩
  · intro arg _ name _ t ht
    cases ht
  · intro position arg _ func args sp name actuals _ _ _ _ actual _
    exact List.findSome?_eq_none_iff.mpr fun _ _ => rfl
  · intro arg harg func args sp hcall hcallee
    rw [steppedSubscript, List.mem_singleton] at harg
    subst harg
    cases hcall
    exact absurd (Option.some.inj hcallee) (by decide)

/-- Loaded with a method `seq.numeric` that gives `1L`. -/
def seqNumeric (cls : String) : Option RFunction :=
  if cls = "numeric" then some fun _ v => v.Is [1] else none

/-- The integer `n` -/
def NumberedValue.whole (n : Int) : NumberedValue where
  storage := .integer
  length := 1
  cls := []
  fields := []
  results := []
  numbers := [some n]
  counted := fun _ => rfl

theorem NumberedValue.is_whole (n : Int) : (whole n).Is [n] := ⟨.inl rfl, rfl, rfl⟩

/-- `seq(from = 1L, to = -1L)` as a subscript, where the scope has a function `seq.numeric` -/
theorem method_of_seq_unread :
    ¬ ∀ (c : NameTables) (receiver : RType) (kind : IndexKind) (args : List Arg) (s : Scope)
      (run : Nat → Moment), Describes c s (run 0) → Raises c receiver kind args s run := by
  intro h
  let straddling : Expr := .call (.ident "seq" here)
    [.mk (some "from") (.integer 1 here) here,
      .mk (some "to") (.unaryOp .neg (.integer 1 here) here) here] here
  let s : Scope :=
    { Scope.default with bindings := Bindings.empty.insert "seq.numeric" (.new .function .one) }
  have hraises := h .empty (.new .double .nonempty) .single [.mk none straddling here] s
    (fun _ => .fresh seqNumeric) (describes_fresh s seqNumeric)
  have hfinding : (NameTables.empty.mixedSignSequenceFindings s (.new .double .nonempty) .single
      [.mk none straddling here]).head?.isSome = true := by decide +kernel
  obtain ⟨finding, hfinding⟩ := Option.isSome_iff_exists.mp hfinding
  obtain ⟨position, value, sp, hget, -, hvalue⟩ := hraises finding (List.mem_of_head? hfinding)
  obtain rfl : value = straddling := by
    cases position with
    | zero => exact (Arg.mk.inj (Option.some.inj hget)).2.1.symm
    | succ position => cases hget
  have hgives : (Moment.fresh seqNumeric).gives straddling (.whole 1) :=
    ⟨[(some "from", .whole 1), (some "to", (NumberedValue.whole 1).negated)],
      ⟨⟨rfl, NumberedValue.is_whole 1⟩, ⟨rfl, .whole 1, NumberedValue.is_whole 1, by
        intro w hw _ _
        cases hw
        rfl⟩, trivial⟩, NumberedValue.is_whole 1⟩
  obtain ⟨l, hl, hmixed⟩ := (hvalue (.whole 1) hgives).1
  refine hmixed.length_ne_one ?_
  have hlength := congrArg List.length hl.numbers
  rw [List.length_map] at hlength
  exact hlength.symm

end Ry
