import Ry.Infer.Subscripts
import Mathlib.Tactic.IntervalCases

/-! # A reported subscript mixes signs

A subscript that the source proves to mix signs gives, at any moment with the functions that the
scope describes, only sequences with a term on either side of zero: its endpoints are the numbers
the source takes them for, R matches its arguments the same way, and its name finds the package's
function.
-/

namespace Ry

open Progression

/-! ## Endpoints -/

theorem wholeInIntRange_eq_some {value : Option ℚ} {n : Int} :
    wholeInIntRange value = some n ↔ value = some (n : ℚ) ∧ |n| ≤ 2147483647 := by
  cases value with
  | none => simp [wholeInIntRange]
  | some q =>
    simp only [wholeInIntRange, Option.some.injEq]
    constructor
    · intro h
      split at h
      · rename_i hq
        obtain rfl := Option.some.inj h
        have hnum : (q.num : ℚ) = q := Rat.coe_int_num_of_den_eq_one hq.1
        refine ⟨hnum.symm, ?_⟩
        have hle := hq.2
        rw [← hnum] at hle
        exact_mod_cast hle
      · cases h
    · rintro ⟨rfl, hn⟩
      rw [if_pos ⟨Rat.den_intCast n, by exact_mod_cast hn⟩, Rat.num_intCast]

theorem RType.presents_plain {t : RType} {v : RValue} (hclass : t.cls.isClassless = true)
    (hproxy : t.cls.storageProxy = false) (h : t.presents v = true) (hmode : t.mode ≠ .union) :
    t.mode.describes v.storage = true ∧ t.length.describes v.length = true ∧ v.cls = [] := by
  have hdescribes : t.describes v = true := by
    rw [RType.presents, hproxy] at h
    exact h
  obtain ⟨mode, length, cls, columns, fnSig, members, facts⟩ := t
  rw [RType.describes, RType.describesUnder, if_neg hmode] at hdescribes
  simp only [Bool.and_eq_true, Option.getD_none] at hdescribes
  obtain ⟨⟨hstorage, hlength⟩, ⟨hcls, -⟩, -⟩ := hdescribes
  refine ⟨hstorage, hlength, ?_⟩
  simp only [ClassVector.isClassless, Bool.and_eq_true, Bool.not_eq_true', List.isEmpty_iff]
    at hclass
  obtain ⟨⟨hknown, hguarded⟩, hnames⟩ := hclass
  rw [ClassVector.describes, hknown, hguarded, hnames] at hcls
  have htake : v.cls.take 4 = [] := (eq_of_beq hcls).symm
  simpa using htake

/-- What pins a number leaves a value no choice. -/
theorem is_of_pinnedNumber {t : RType} {v : NumberedValue} {n : Int}
    (h : NameTables.pinnedNumber t = some n) (hproxy : t.cls.storageProxy = false)
    (hpresents : t.presents v.toRValue = true) (hbound : t.valueFacts.Bound v.numbers) :
    v.Is [n] := by
  unfold NameTables.pinnedNumber at h
  split at h
  · rename_i hpinned
    obtain ⟨hlength, hmode, hclass, hknown, hprior, hnew⟩ := hpinned
    have hunion : t.mode ≠ .union := by
      rcases hmode with hmode | hmode <;> simp [hmode]
    obtain ⟨hstorage, hone, hcls⟩ := RType.presents_plain hclass hproxy hpresents hunion
    have hnumber : v.storage.isNumber := by
      rcases hmode with hmode | hmode
      · rw [hmode] at hstorage
        cases hv : v.storage <;> simp_all [Mode.describes, Storage.isNumber]
      · rw [hmode] at hstorage
        cases hv : v.storage <;> simp_all [Mode.describes, Storage.isNumber]
    have hcount : v.numbers.length = 1 := by
      rw [v.counted hnumber]
      rcases hlength with hlength | hlength
      · rw [hlength] at hone
        exact eq_of_beq hone
      · rw [hlength] at hone
        exact eq_of_beq hone
    split at h
    · rename_i low high hextrema
      split at h
      · rename_i heq
        subst heq
        obtain ⟨hvalue, -⟩ := wholeInIntRange_eq_some.mp h
        obtain ⟨x, hx⟩ := List.length_eq_one_iff.mp hcount
        obtain ⟨q, rfl, hle, hge⟩ := hbound hknown (by simpa using hprior) hnew low low hextrema n n
          hvalue hvalue x (by simp [hx])
        have hq : q = n := le_antisymm hge hle
        exact ⟨hnumber, hcls, by simp [hx, hq]⟩
      · cases h
    · cases h
  · cases h

namespace NameTables

variable {c : NameTables} {s : Scope} {m : Moment} {allowIdent : Bool}

/-- The identifiers of the expression that count as endpoints hold those numbers. -/
def BindsEndpoints (c : NameTables) (s : Scope) (m : Moment) (allowIdent : Bool) (e : Expr) :
    Prop :=
  ∀ name ∈ e.idents, ∀ sp n v, c.provenIntegralEndpoint s allowIdent (.ident name sp) = some n →
    m.binding name = some v → v.Is [n]

/-- Where the operator is not rebound it is base's own. -/
def KeepsOperator (c : NameTables) (s : Scope) (m : Moment) (symbol : String) : Prop :=
  c.operatorRebound s symbol = false →
    c.hasExplicitOperatorMask s symbol (quotedName symbol) = false →
      some (m.called symbol) = m.packageFunction "base" symbol

theorem is_of_provenIntegralEndpoint (hminus : KeepsOperator c s m "-") {e : Expr} {n : Int}
    {v : NumberedValue} (hidents : BindsEndpoints c s m allowIdent e)
    (h : c.provenIntegralEndpoint s allowIdent e = some n) (hv : m.gives e v) : v.Is [n] := by
  fun_induction provenIntegralEndpoint c s allowIdent e generalizing n v with
  | case1 value sp =>
    obtain ⟨hvalue, -⟩ := wholeInIntRange_eq_some.mp h
    have hn : value = n := by exact_mod_cast Option.some.inj hvalue
    exact hn ▸ hv
  | case2 bits sp =>
    obtain ⟨hstorage, hcls, hnumbers⟩ := hv
    obtain ⟨hvalue, -⟩ := wholeInIntRange_eq_some.mp h
    exact ⟨.inr hstorage, hcls, by rw [hnumbers, hvalue, List.map_singleton]⟩
  | case3 => cases h
  | case4 operand sp hbase ih =>
    obtain ⟨k, hk, hneg⟩ := Option.bind_eq_some_iff.mp h
    obtain ⟨w, hw, hcall⟩ := hv
    have hwhole := ih hidents hk hw
    simp only [Bool.or_eq_true, not_or, Bool.not_eq_true] at hbase
    have hfunction : m.called "-" = .minus := Option.some.inj (hminus hbase.1 hbase.2)
    rw [hfunction] at hcall
    obtain rfl := hcall w rfl hwhole.storage hwhole.cls
    unfold checkedNeg at hneg
    split at hneg
    · cases hneg
    · obtain rfl := Option.some.inj hneg
      exact hwhole.negated
  | case5 => cases h
  | case6 name sp hallow hplain =>
    refine hidents name (List.mem_singleton_self name) sp n v ?_ hv
    rw [provenIntegralEndpoint, if_pos hallow, if_neg hplain]
    exact h
  | case7 => cases h
  | case8 => cases h

/-! ## The ends of a sequence -/

theorem straddles_iff {first last : Int} : sequenceStraddlesZero first last = true ↔
    (0 < first ∧ last < 0) ∨ (first < 0 ∧ 0 < last) := by
  simp [sequenceStraddlesZero]

/-- A sequence that holds both ends is mixed if they lie on either side of zero. -/
theorem mixed_of_ends {v : NumberedValue} {l : List Int} {first last : Int} (hv : v.Is l)
    (hfirst : first ∈ l) (hlast : last ∈ l) (h : sequenceStraddlesZero first last = true) :
    v.Mixed :=
  ⟨l, hv, mixed_of_mem hfirst hlast (straddles_iff.mp h)⟩

/-- The last term that the source computes is in what R counts up or down to. -/
theorem last_mem_of_stepsTo {start stop step last : Int} {l : List Int}
    (hlast : sequenceLastTerm start stop step = some last) (h : StepsTo start stop step l) :
    start ∈ l ∧ last ∈ l := by
  unfold sequenceLastTerm at hlast
  cases h with
  | still hstep => rw [if_pos hstep] at hlast; cases hlast
  | steps n hreaches =>
    split at hlast
    · cases hlast
    · dsimp only at hlast
      rw [hreaches.tdiv_eq] at hlast
      split at hlast
      · cases hlast
      · unfold i64TryFrom at hlast
        split at hlast
        · obtain rfl := Option.some.inj hlast
          exact ⟨first_mem_terms start step n, last_mem_terms start step n⟩
        · cases hlast

/-! ## The actual arguments -/

theorem map_fst_of_givesAll {args : List Arg} {actuals : List (Option String × NumberedValue)}
    (h : m.givesAll args actuals) : actuals.map Prod.fst = args.map Arg.name := by
  induction args generalizing actuals with
  | nil =>
    cases actuals with
    | nil => rfl
    | cons => exact h.elim
  | cons arg args ih =>
    cases actuals with
    | nil => exact h.elim
    | cons actual actuals =>
      obtain ⟨harg, hrest⟩ := h
      obtain ⟨name, value, sp⟩ := arg
      rw [List.map_cons, List.map_cons, ih hrest, harg.1]
      rfl

theorem gives_of_givesAll {args : List Arg} {actuals : List (Option String × NumberedValue)}
    (h : m.givesAll args actuals) {i : Nat} {arg : Arg} (hi : args[i]? = some arg) :
    ∃ v, actuals[i]? = some (arg.name, v) ∧ m.gives arg.value v := by
  induction args generalizing actuals i with
  | nil => cases hi
  | cons head args ih =>
    cases actuals with
    | nil => exact h.elim
    | cons actual actuals =>
      obtain ⟨hhead, hrest⟩ := h
      cases i with
      | zero =>
        obtain rfl := Option.some.inj hi
        obtain ⟨name, value, sp⟩ := head
        obtain ⟨tag, v⟩ := actual
        obtain ⟨rfl, hv⟩ := hhead
        exact ⟨v, rfl, hv⟩
      | succ i => exact ih hrest hi

theorem mem_idents_of_argument {args : List Arg} {i : Nat} {arg : Arg} (hi : args[i]? = some arg)
    {name : String} (h : name ∈ arg.value.idents) : name ∈ argIdents args := by
  induction args generalizing i with
  | nil => cases hi
  | cons head args ih =>
    rw [argIdents, List.mem_append]
    cases i with
    | zero =>
      obtain rfl := Option.some.inj hi
      obtain ⟨tag, value, sp⟩ := head
      exact .inl h
    | succ i => exact .inr (ih hi)

section Call

variable {formals : List String} {args : List Arg}
variable {actuals : List (Option String × NumberedValue)}

/-- A call whose actuals R matches to these formals. -/
structure Matches (m : Moment) (formals : List String) (args : List Arg)
    (actuals : List (Option String × NumberedValue)) : Prop where
  nodup : formals.Nodup
  given : m.givesAll args actuals
  accepted : (RCall.mk formals (actuals.map Prod.fst)).Accepted

theorem Matches.actual_iff (h : Matches m formals args actuals) {i j : Nat} :
    (matchArguments formals args).actual i = some j ↔
      (RCall.mk formals (actuals.map Prod.fst)).binds i j = true := by
  rw [matchArguments, ← map_fst_of_givesAll h.given]
  exact actual_matchArgumentNames h.nodup h.accepted

theorem Matches.supplied_iff (h : Matches m formals args actuals) {j : Nat} :
    RFunction.Supplied ⟨formals, actuals.map Prod.fst⟩ j ↔
      (matchArguments formals args).argForParam j ≠ none := by
  constructor
  · rintro ⟨i, hi⟩ hnone
    exact argForParam_eq_none hnone i (h.actual_iff.mpr hi)
  · intro hsome
    obtain ⟨i, hi⟩ := Option.ne_none_iff_exists'.mp hsome
    exact ⟨i, h.actual_iff.mp (argForParam_eq_some hi)⟩

/-- What the source takes for an endpoint is what R takes. -/
theorem Matches.endpoint (h : Matches m formals args actuals) (hminus : KeepsOperator c s m "-")
    (hidents : ∀ arg ∈ args, BindsEndpoints c s m allowIdent arg.value) {j : Nat}
    {default : Option Int} {n : Int}
    (hn : c.seqEndpoint s (matchArguments formals args) args j allowIdent default = some n) :
    RFunction.Endpoint ⟨formals, actuals.map Prod.fst⟩ actuals j default n := by
  unfold seqEndpoint at hn
  split at hn
  · rename_i i hi
    obtain ⟨arg, harg, hproven⟩ := Option.bind_eq_some_iff.mp hn
    obtain ⟨v, hactual, hv⟩ := gives_of_givesAll h.given harg
    have hwhole := is_of_provenIntegralEndpoint hminus (hidents arg (List.mem_of_getElem? harg))
      hproven hv
    exact .supplied i arg.name v n (h.actual_iff.mp (argForParam_eq_some hi)) hactual hwhole
  · rename_i hnone
    exact .omitted n (fun hsupplied => h.supplied_iff.mp hsupplied hnone) hn

end Call

/-! ## `seq` and `seq2` -/

/-- All that the ends of a `seq` call come from. -/
theorem seqEnds_cases {args : List Arg} {first last : Int}
    (h : c.seqEnds s args allowIdent = some (first, last)) :
    let matched := matchArguments seqFormals args
    matched.isOneToOne = true ∧ matched.argForParam 3 = none ∧ matched.argForParam 4 = none ∧
      sequenceStraddlesZero first last = true ∧ ∃ stop,
        c.seqEndpoint s matched args 0 allowIdent (some 1) = some first ∧
        c.seqEndpoint s matched args 1 allowIdent (some 1) = some stop ∧
        ((matched.argForParam 2 = none ∧ last = stop) ∨
          ∃ step, matched.argForParam 2 ≠ none ∧
            c.seqEndpoint s matched args 2 allowIdent none = some step ∧
            sequenceLastTerm first stop step = some last) := by
  intro matched
  unfold seqEnds at h
  dsimp only at h
  split at h
  · cases h
  · rename_i hshape
    simp only [Bool.or_eq_true, Bool.not_eq_true', not_or, Bool.not_eq_false,
      Option.not_isSome_iff_eq_none] at hshape
    obtain ⟨start, hstart, h⟩ := Option.bind_eq_some_iff.mp h
    obtain ⟨stop, hstop, h⟩ := Option.bind_eq_some_iff.mp h
    obtain ⟨reached, hreached, h⟩ := Option.bind_eq_some_iff.mp h
    split at h
    · rename_i hstraddles
      cases h
      refine ⟨hshape.1.1, hshape.1.2, hshape.2, hstraddles, stop, hstart, hstop, ?_⟩
      unfold seqLast at hreached
      split at hreached
      · rename_i byArg hby
        obtain ⟨step, hstep, hreached⟩ := Option.bind_eq_some_iff.mp hreached
        refine .inr ⟨step, by simp [matched, hby], ?_, hreached⟩
        unfold seqEndpoint
        simp only [matched, hby]
        exact hstep
      · rename_i hby
        exact .inl ⟨hby, (Option.some.inj hreached).symm⟩
    · cases h

section Call

variable {args : List Arg} {actuals : List (Option String × NumberedValue)}

/-- Every actual of a one-to-one match that leaves `length.out` and `along.with` out is an
endpoint or the step. -/
theorem actual_of_isOneToOne (honeToOne : (matchArguments seqFormals args).isOneToOne = true)
    (hlength : (matchArguments seqFormals args).argForParam 3 = none)
    (halong : (matchArguments seqFormals args).argForParam 4 = none) {i : Nat}
    (hi : i < args.length) :
    ∃ j < 3, (matchArguments seqFormals args).paramForArg[i]? = some (some j) := by
  have hkept := kept_matchArgumentNames ⟨seqFormals, args.map Arg.name⟩
  have hcount : i < (matchArguments seqFormals args).paramForArg.length := by
    rw [matchArguments, hkept.args, List.length_map]
    exact hi
  obtain ⟨hall, -⟩ := Bool.and_eq_true_iff.mp honeToOne
  have hsome := List.all_eq_true.mp hall _ (List.getElem_mem hcount)
  obtain ⟨j, hj⟩ := Option.isSome_iff_exists.mp hsome
  have hget : (matchArguments seqFormals args).paramForArg[i]? = some (some j) := by
    rw [List.getElem?_eq_getElem hcount, hj]
  have hactual : (matchArguments seqFormals args).actual i = some j := by
    rw [ArgumentMatch.actual, hget, Option.join_some]
  refine ⟨j, ?_, hget⟩
  have hne : ∀ k, (matchArguments seqFormals args).argForParam k = none → j ≠ k := by
    rintro k hk rfl
    exact argForParam_eq_none hk i hactual
  have hthree := hne 3 hlength
  have hfour := hne 4 halong
  obtain ⟨formal, hformal, hdots⟩ := named_matchArgumentNames _ _ i j hactual
  have hlt := lt_length_of_getElem? hformal
  have hfive : j ≠ 5 := by
    rintro rfl
    exact hdots (Option.some.inj hformal).symm
  have hsix : seqFormals.length = 6 := rfl
  omega

/-- The first actual, which `seq` and `seq.int` dispatch on, is a plain number. -/
theorem whole_of_seqEnds (h : m.givesAll args actuals) (hminus : KeepsOperator c s m "-")
    (hidents : ∀ arg ∈ args, BindsEndpoints c s m allowIdent arg.value) {first last : Int}
    (hends : c.seqEnds s args allowIdent = some (first, last)) :
    ∀ actual ∈ actuals.head?, ∃ n, actual.2.Is [n] := by
  obtain ⟨honeToOne, hlength, halong, -, stop, hstart, hstop, hlast⟩ := seqEnds_cases hends
  intro actual hactual
  cases args with
  | nil =>
    cases actuals with
    | nil => cases hactual
    | cons => exact h.elim
  | cons arg args =>
    obtain ⟨j, hj, hget⟩ := actual_of_isOneToOne honeToOne hlength halong (i := 0) (by simp)
    have hzero : (matchArguments seqFormals (arg :: args)).argForParam j = some 0 := by
      rw [ArgumentMatch.argForParam, List.findIdx?_eq_some_iff_getElem]
      obtain ⟨hlt, hvalue⟩ := List.getElem?_eq_some_iff.mp hget
      exact ⟨hlt, by simp [hvalue], fun k hk => absurd hk k.not_lt_zero⟩
    have hproven : ∀ default n,
        c.seqEndpoint s (matchArguments seqFormals (arg :: args)) (arg :: args) j allowIdent default
          = some n → ∃ n, actual.2.Is [n] := by
      intro default n hn
      unfold seqEndpoint at hn
      rw [hzero] at hn
      obtain ⟨v, hv, hgives⟩ := gives_of_givesAll h (i := 0) rfl
      rw [List.head?_eq_getElem?, hv] at hactual
      cases hactual
      exact ⟨n, is_of_provenIntegralEndpoint hminus (hidents arg (List.mem_cons_self ..)) hn hgives⟩
    interval_cases j
    · exact hproven _ _ hstart
    · exact hproven _ _ hstop
    · rcases hlast with ⟨hby, -⟩ | ⟨step, -, hstep, -⟩
      · rw [hby] at hzero
        cases hzero
      · exact hproven _ _ hstep

/-- R's default method gives a mixed sequence wherever the source finds its ends. -/
theorem mixed_of_seqEnds (h : m.givesAll args actuals) (hminus : KeepsOperator c s m "-")
    (hidents : ∀ arg ∈ args, BindsEndpoints c s m allowIdent arg.value) {first last : Int}
    (hends : c.seqEnds s args allowIdent = some (first, last)) {v : NumberedValue}
    (hv : RFunction.seqDefault actuals v) : v.Mixed := by
  obtain ⟨honeToOne, hlength, halong, hstraddles, stop, hstart, hstop, hlast⟩ :=
    seqEnds_cases hends
  obtain ⟨haccepted, hgives⟩ := hv
  have hmatches : Matches m seqFormals args actuals := ⟨by decide, h, haccepted⟩
  have hcount : actuals.length = args.length := by
    rw [← List.length_map Prod.fst, map_fst_of_givesAll h, List.length_map]
  have hbelow : ∀ i < actuals.length,
      ∃ formal < 3, (RCall.mk seqFormals (actuals.map Prod.fst)).binds i formal = true := by
    intro i hi
    obtain ⟨j, hj, hget⟩ := actual_of_isOneToOne honeToOne hlength halong (hcount ▸ hi)
    refine ⟨j, hj, hmatches.actual_iff.mp ?_⟩
    rw [ArgumentMatch.actual, hget, Option.join_some]
  have hfirst := hmatches.endpoint hminus hidents hstart
  obtain ⟨hlone, hspan, hsteps⟩ :=
    hgives hbelow first stop hfirst (hmatches.endpoint hminus hidents hstop)
  rcases hlast with ⟨hby, rfl⟩ | ⟨step, hby, hstep, hreached⟩
  · have hfree : ¬ RFunction.Supplied ⟨seqFormals, actuals.map Prod.fst⟩ 2 :=
      fun hsupplied => hmatches.supplied_iff.mp hsupplied hby
    by_cases halone : actuals.length = 1 ∧ RFunction.Supplied ⟨seqFormals, actuals.map Prod.fst⟩ 0
    · -- the other end is the default
      have hone : last = 1 := by
        unfold seqEndpoint at hstop
        split at hstop
        · rename_i i hi
          obtain ⟨arg, harg, -⟩ := Option.bind_eq_some_iff.mp hstop
          obtain ⟨hcount, i', hi'⟩ := halone
          obtain ⟨w, hactual, -⟩ := gives_of_givesAll h harg
          have hzero : i = 0 := by
            have hlt := lt_length_of_getElem? hactual
            omega
          have hzero' : i' = 0 := by
            have hlt := binds_lt_tags hi'
            simp only [List.length_map] at hlt
            omega
          subst hzero hzero'
          have hto := argForParam_eq_some hi
          have hfrom := hmatches.actual_iff.mpr hi'
          rw [hto] at hfrom
          cases hfrom
        · exact (Option.some.inj hstop).symm
      subst hone
      refine mixed_of_ends (hlone hfree halone) (last_mem_span 1 first) (first_mem_span 1 first) ?_
      exact hstraddles
    · exact mixed_of_ends (hspan hfree halone) (first_mem_span first last)
        (last_mem_span first last) hstraddles
  · obtain ⟨l, hl, hvl⟩ := hsteps step (hmatches.endpoint hminus hidents hstep)
    obtain ⟨hmem, hmem'⟩ := last_mem_of_stepsTo hreached hl
    exact mixed_of_ends hvl hmem hmem' hstraddles

theorem mixed_of_seq2Ends (h : m.givesAll args actuals) (hminus : KeepsOperator c s m "-")
    (hidents : ∀ arg ∈ args, BindsEndpoints c s m allowIdent arg.value) {first last : Int}
    (hends : c.seq2Ends s args allowIdent = some (first, last)) {v : NumberedValue}
    (hv : RFunction.seq2 actuals v) : v.Mixed := by
  unfold seq2Ends at hends
  dsimp only at hends
  split at hends
  · cases hends
  · obtain ⟨start, hstart, hends⟩ := Option.bind_eq_some_iff.mp hends
    obtain ⟨stop, hstop, hends⟩ := Option.bind_eq_some_iff.mp hends
    split at hends
    · rename_i hstraddles
      cases hends
      obtain ⟨haccepted, hgives⟩ := hv
      have hmatches : Matches m ["from", "to"] args actuals := ⟨by decide, h, haccepted⟩
      have hspan := hgives first last (hmatches.endpoint hminus hidents hstart)
        (hmatches.endpoint hminus hidents hstop)
      rw [if_neg (by omega)] at hspan
      exact mixed_of_ends hspan (first_mem_span first last) (last_mem_span first last)
        (straddles_iff.mpr (.inr hstraddles))
    · cases hends

end Call

/-! ## Which function a name finds -/

/-- A package's name behind which some colons may stand. -/
theorem colons_of_rdropWhile (l : List Char) :
    ∃ k, l = l.rdropWhile (· = ':') ++ List.replicate k ':' := by
  refine ⟨(l.rtakeWhile (· = ':')).length, ?_⟩
  have hcolons : ∀ ch ∈ l.rtakeWhile (· = ':'), ch = ':' := fun ch hch => by
    simpa using List.mem_rtakeWhile_imp hch
  rw [← List.eq_replicate_of_mem hcolons, List.rdropWhile_append_rtakeWhile]

section Provenance

variable {name package : String} {func : Expr}

/-- A proven qualified name is the package's, and is no text. -/
theorem qualified_of_proven {before bare : List Char}
    (hsplit : rsplitOnceColons name.toList = some (before, bare))
    (h : c.specialCallProvenance s name func name (Divergence.bareName name) package = .proven) :
    (∀ text sp, func ≠ .string text sp) ∧
      c.literalBindingsMayBeShadowed s ["::", "`::`", ":::", "`:::`"] = false ∧
      ∃ k, name.toList = package.toList ++ List.replicate (k + 2) ':'
        ++ (Divergence.bareName name).toList := by
  unfold specialCallProvenance specialCallProvenanceAfterEffects at h
  by_cases hspelled : name ≠ name ∨ calledByText func name = true
  · rw [if_pos hspelled] at h
    cases h
  · rw [if_neg hspelled, hsplit] at h
    simp only [ne_eq, not_true_eq_false, false_or] at hspelled
    dsimp only at h
    split at h
    · cases h
    · rename_i hcolons
      split at h
      · unfold contracted at h
        split at h <;> cases h
      · rename_i hpackage
        refine ⟨?_, by simpa using hcolons, ?_⟩
        · rintro text sp rfl
          exact hspelled (by rw [calledByText, hsplit]; rfl)
        · obtain ⟨k, hk⟩ := colons_of_rdropWhile before
          have hname := name_of_rsplitOnceColons hsplit
          have hbare : (Divergence.bareName name).toList = bare := by
            rw [Divergence.bareName, hsplit, String.toList_ofList]
          have hbefore : before.rdropWhile (· = ':') = package.toList := by
            rw [← not_not.mp hpackage, String.toList_ofList]
          refine ⟨k, ?_⟩
          rw [hname, hbare]
          conv_lhs => rw [hk, hbefore]
          rw [List.append_assoc package.toList, List.replicate_add]
          rfl

/-- A proven bare name is bound nowhere else, and imported or not masked. -/
theorem bare_of_proven (hsplit : rsplitOnceColons name.toList = none)
    (h : c.specialCallProvenance s name func name (Divergence.bareName name) package = .proven) :
    s.isParameter name = false ∧
      c.literalBindingsMayShadowPackage s [name, quotedName name] package = false ∧
      s.dataMaskUnknown = false ∧
      (c.importedFrom.lookup name = some package ∨
        c.importedFrom.lookup name = none ∧ c.searchPathMayMaskBase s = false) := by
  unfold specialCallProvenance specialCallProvenanceAfterEffects at h
  by_cases hspelled : name ≠ name ∨ calledByText func name = true
  · rw [if_pos hspelled] at h
    cases h
  · rw [if_neg hspelled, hsplit] at h
    dsimp only at h
    split at h
    · cases h
    · rename_i hparameter
      split at h
      · cases h
      · split at h
        · unfold contracted at h
          split at h <;> cases h
        · rename_i hother
          split at h
          · cases h
          · rename_i hshadow
            split at h
            · cases h
            · rename_i hmask
              simp only [Bool.or_eq_true, not_or, Bool.not_eq_true] at hmask
              refine ⟨by simpa using hparameter, by simpa using hshadow, hmask.1, ?_⟩
              cases himport : c.importedFrom.lookup name with
              | none =>
                rw [himport] at hmask
                exact .inr ⟨rfl, by simpa using hmask.2⟩
              | some imported =>
                rw [himport] at hother
                exact .inl (congrArg some (by simpa using hother))

end Provenance

/-- A moment with the functions of a moment that the scope describes. -/
structure Keeps (c : NameTables) (s : Scope) (m₀ m : Moment) : Prop where
  describes : Describes c s m₀
  called : m.called = m₀.called
  qualified : m.qualified = m₀.qualified

theorem Keeps.operator {m₀ : Moment} (h : Keeps c s m₀ m) {symbol : String}
    (hsymbol : symbol ∈ ["-", ":"]) (hbase : c.operatorRebound s symbol = false)
    (hmask : c.hasExplicitOperatorMask s symbol (quotedName symbol) = false) :
    some (m.called symbol) = m₀.packageFunction "base" symbol := by
  rw [h.called]
  exact h.describes.operator symbol hsymbol hbase hmask

/-- The head of a call with proven provenance finds the package's function, or an unbound name
that the search path does not mask. -/
theorem Keeps.head {m₀ : Moment} (h : Keeps c s m₀ m) {name package : String} {func : Expr}
    {function : RFunction} (hcallee : calleeName func = some name)
    (hproven : c.specialCallProvenance s name func name (Divergence.bareName name) package =
      .proven)
    (hfunction : m₀.packageFunction package (Divergence.bareName name) = some function)
    (hseq : Divergence.bareName name ∈ ["seq", "seq.int", "seq2"]) :
    m.head func = some function ∨
      (Divergence.bareName name = name ∧ m.head func = some (m₀.called name) ∧
        c.importedFrom.lookup name = none ∧ s.isParameter name = false ∧
        c.literalBindingsMayShadowPackage s [name, quotedName name] package = false ∧
        s.dataMaskUnknown = false ∧ c.searchPathMayMaskBase s = false) := by
  cases hsplit : rsplitOnceColons name.toList with
  | some parts =>
    left
    obtain ⟨hident, hcolons, k, hname⟩ := qualified_of_proven hsplit hproven
    have hq := h.describes.qualified package _ hseq function k hfunction hcolons
    rw [← hname, String.ofList_toList] at hq
    unfold calleeName at hcallee
    split at hcallee
    · cases hcallee
      rw [Moment.head, if_pos (by simp [hsplit]), h.qualified, hq]
    · exact absurd rfl (hident _ _)
    · cases hcallee
  | none =>
    obtain ⟨hparameter, hshadow, hmask, hfound⟩ := bare_of_proven hsplit hproven
    have hbare : Divergence.bareName name = name := by rw [Divergence.bareName, hsplit]
    have hhead : m.head func = some (m₀.called name) := by
      unfold calleeName at hcallee
      split at hcallee
      · cases hcallee
        rw [Moment.head, if_neg (by simp [hsplit]), h.called]
      · cases hcallee
        rw [Moment.head, h.called]
      · cases hcallee
    rcases hfound with himport | ⟨himport, hpath⟩
    · left
      rw [hbare] at hfunction
      rw [hhead, h.describes.imported package name function hfunction himport hparameter hshadow
        hmask]
    · exact .inr ⟨hbare, hhead, himport, hparameter, hshadow, hmask, hpath⟩

/-- The methods of `seq` are those of the moment at which the functions were described. -/
def Undispatched (m₀ m : Moment) (e : Expr) : Prop :=
  ∀ func args sp name actuals, e = .call func args sp → calleeName func = some name →
    Divergence.bareName name = "seq" → m.givesAll args actuals →
      ∀ actual ∈ actuals.head?, actual.2.implicitClass.findSome? m₀.seqMethod = none

/-- A bare `seq2` is imported, or there is no search path behind base. -/
def FindsSeq2 (c : NameTables) (e : Expr) : Prop :=
  ∀ func args sp, e = .call func args sp → calleeName func = some "seq2" →
    c.importedFrom.lookup "seq2" = some "rlang" ∨ c.baseBeforeSearchPath = false

section Sequence

variable {m₀ : Moment} {ends : Int × Int} {v : NumberedValue} {args : List Arg} {func : Expr}
variable {name : String} {sp : Span}

theorem Keeps.minus (hkeeps : Keeps c s m₀ m) : KeepsOperator c s m "-" := fun hbase hmask => by
  rw [hkeeps.operator (by simp) hbase hmask]
  rfl

/-- The name of a call of proven provenance that base has finds base's function. -/
theorem Keeps.base_head (hkeeps : Keeps c s m₀ m) {function : RFunction}
    (hcallee : calleeName func = some name)
    (hproven : c.specialCallProvenance s name func name (Divergence.bareName name) "base" = .proven)
    (hfunction : m₀.packageFunction "base" (Divergence.bareName name) = some function)
    (hseq : Divergence.bareName name ∈ ["seq", "seq.int"]) : m.head func = some function := by
  rcases hkeeps.head hcallee hproven hfunction (List.mem_append_left ["seq2"] hseq) with hhead |
    ⟨hbare, hhead, -, hparameter, hshadow, hmask, hpath⟩
  · exact hhead
  · rw [hbare] at hseq hfunction
    rw [hhead, hkeeps.describes.standard name hseq hparameter hshadow hmask hpath, hfunction]

theorem mixed_of_colon (hkeeps : Keeps c s m₀ m) {lhs rhs : Expr}
    (hidents : BindsEndpoints c s m allowIdent (.binOp .colon lhs rhs sp))
    (h : c.provenMixedSignSequence s allowIdent (.binOp .colon lhs rhs sp) = some ends)
    (hv : m.gives (.binOp .colon lhs rhs sp) v) : v.Mixed := by
  unfold provenMixedSignSequence at h
  dsimp only at h
  split at h
  · cases h
  · rename_i hbase
    simp only [Bool.or_eq_true, not_or, Bool.not_eq_true] at hbase
    obtain ⟨start, hstart, h⟩ := Option.bind_eq_some_iff.mp h
    obtain ⟨stop, hstop, h⟩ := Option.bind_eq_some_iff.mp h
    split at h
    · rename_i hstraddles
      obtain ⟨w, w', hw, hw', hcall⟩ := hv
      have hcolon : m.called ":" = .colon :=
        Option.some.inj (hkeeps.operator (by simp) hbase.2 hbase.1)
      rw [hcolon] at hcall
      have hleft : w.Is [start] := is_of_provenIntegralEndpoint hkeeps.minus
        (fun name hname => hidents name (List.mem_append_left _ hname)) hstart hw
      have hright : w'.Is [stop] := is_of_provenIntegralEndpoint hkeeps.minus
        (fun name hname => hidents name (List.mem_append_right _ hname)) hstop hw'
      exact mixed_of_ends (hcall w w' start stop rfl hleft hright) (first_mem_span start stop)
        (last_mem_span start stop) hstraddles
    · cases h

theorem mixed_of_seq (hkeeps : Keeps c s m₀ m) (hcallee : calleeName func = some name)
    (hargs : ∀ arg ∈ args, BindsEndpoints c s m allowIdent arg.value)
    (hmethods : Undispatched m₀ m (.call func args sp)) (hseq : Divergence.bareName name = "seq")
    (hproven : c.specialCallProvenance s name func name (Divergence.bareName name) "base" = .proven)
    (hends : c.seqEnds s args allowIdent = some ends) (hv : m.gives (.call func args sp) v) :
    v.Mixed := by
  have hhead : m.head func = some (.seq m₀.seqMethod) :=
    hkeeps.base_head hcallee hproven (by rw [hseq]; rfl) (by simp [hseq])
  rw [Moment.gives, hhead] at hv
  obtain ⟨actuals, hactuals, hv⟩ := hv
  have hnone : (actuals.head?.bind fun actual =>
      actual.2.implicitClass.findSome? m₀.seqMethod) = none := by
    rw [Option.bind_eq_none_iff]
    exact hmethods func args sp name actuals rfl hcallee hseq hactuals
  unfold RFunction.seq at hv
  rw [hnone] at hv
  exact mixed_of_seqEnds hactuals hkeeps.minus hargs hends hv

theorem mixed_of_seqInt (hkeeps : Keeps c s m₀ m) (hcallee : calleeName func = some name)
    (hargs : ∀ arg ∈ args, BindsEndpoints c s m allowIdent arg.value)
    (hseq : Divergence.bareName name = "seq.int")
    (hproven : c.specialCallProvenance s name func name (Divergence.bareName name) "base" = .proven)
    (hends : c.seqEnds s args allowIdent = some ends) (hv : m.gives (.call func args sp) v) :
    v.Mixed := by
  have hhead : m.head func = some .seqInt :=
    hkeeps.base_head hcallee hproven (by rw [hseq]; rfl) (by simp [hseq])
  rw [Moment.gives, hhead] at hv
  obtain ⟨actuals, hactuals, hv⟩ := hv
  refine mixed_of_seqEnds hactuals hkeeps.minus hargs hends (hv fun actual hactual => ?_)
  obtain ⟨n, hn⟩ := whole_of_seqEnds hactuals hkeeps.minus hargs hends actual hactual
  exact hn.cls

theorem mixed_of_seq2 (hkeeps : Keeps c s m₀ m) (hcallee : calleeName func = some name)
    (hargs : ∀ arg ∈ args, BindsEndpoints c s m allowIdent arg.value)
    (hfinds : FindsSeq2 c (.call func args sp)) (hseq : Divergence.bareName name = "seq2")
    (hproven : c.specialCallProvenance s name func name (Divergence.bareName name) "rlang" =
      .proven)
    (hends : c.seq2Ends s args allowIdent = some ends) (hv : m.gives (.call func args sp) v) :
    v.Mixed := by
  rcases hkeeps.head hcallee hproven (by rw [hseq]; rfl) (by simp [hseq]) with hhead |
    ⟨hbare, hhead, himport, hparameter, hshadow, hmask, hpath⟩
  · rw [Moment.gives, hhead] at hv
    obtain ⟨actuals, hactuals, hv⟩ := hv
    exact mixed_of_seq2Ends hactuals hkeeps.minus hargs hends hv
  · -- the name is not found
    obtain rfl := hbare.symm.trans hseq
    rw [Moment.gives, hhead] at hv
    obtain ⟨actuals, -, hv⟩ := hv
    rcases hfinds func args sp rfl hcallee with himported | hsearch
    · rw [himport] at himported
      cases himported
    · exact absurd hv
        (hkeeps.describes.absent himport hparameter hshadow hmask hpath hsearch actuals v)

theorem mixed_of_provenMixedSignSequence (hkeeps : Keeps c s m₀ m) {e : Expr}
    (hidents : BindsEndpoints c s m allowIdent e) (hmethods : Undispatched m₀ m e)
    (hfinds : FindsSeq2 c e) (h : c.provenMixedSignSequence s allowIdent e = some ends)
    (hv : m.gives e v) : v.Mixed := by
  have hcases := h
  unfold provenMixedSignSequence at hcases
  split at hcases
  · exact mixed_of_colon hkeeps hidents h hv
  · rename_i func args sp
    have hargs : ∀ arg ∈ args, BindsEndpoints c s m allowIdent arg.value := by
      intro arg harg name hname
      obtain ⟨i, hi⟩ := List.mem_iff_getElem?.mp harg
      exact hidents name (List.mem_append_right _ (mem_idents_of_argument hi hname))
    split at hcases
    · cases hcases
    · rename_i name hcallee
      dsimp only at hcases
      split at hcases
      · rename_i hseq
        split at hcases
        · rename_i hproven
          rcases hseq with hseq | hseq
          · exact mixed_of_seq hkeeps hcallee hargs hmethods hseq hproven hcases hv
          · exact mixed_of_seqInt hkeeps hcallee hargs hseq hproven hcases hv
        · cases hcases
      · split at hcases
        · rename_i hseq
          split at hcases
          · rename_i hproven
            exact mixed_of_seq2 hkeeps hcallee hargs hfinds hseq hproven hcases hv
          · cases hcases
        · cases hcases
  · cases hcases

end Sequence

end NameTables

end Ry
