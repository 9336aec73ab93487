import Ry.Infer.Args

/-! # The three passes bind what R binds

Each pass keeps the two tables of a match in step (`Kept`), and after each turn of its loop
an actual is bound to exactly what R's pass has bound it to.  The last pass walks the formals
with a cursor: what is unbound from the cursor on is what R has still open
(`unboundFrom`).
-/

namespace Ry

namespace ArgumentMatch

variable {m : ArgumentMatch} {i j n k : Nat}

theorem actual_assign (hi : i < m.paramForArg.length) (i' : Nat) :
    (m.assign i j).actual i' = if i' = i then some j else m.actual i' := by
  simp only [actual, assign, List.getElem?_set]
  split
  · rename_i h
    subst h
    simp
  · rename_i h
    rw [if_neg (Ne.symm h)]

theorem bound_assign (hj : j < m.boundParams.length) (j' : Nat) :
    (m.assign i j).bound j' = (decide (j' = j) || m.bound j') := by
  simp only [bound, assign, List.getElem?_set]
  by_cases h : j = j'
  · subst h
    simp [hj]
  · simp [h, Ne.symm h]

/-- The bound parameters are those some actual is for. -/
structure Kept (c : RCall) (m : ArgumentMatch) : Prop where
  args : m.paramForArg.length = c.tags.length
  params : m.boundParams.length = c.formals.length
  bound_iff : ∀ j, m.bound j = true ↔ ∃ i, m.actual i = some j

variable {c : RCall}

theorem Kept.assign (h : m.Kept c) (hi : i < c.tags.length) (hj : j < c.formals.length)
    (hfree : m.actual i = none) : (m.assign i j).Kept c where
  args := by simpa [ArgumentMatch.assign] using h.args
  params := by simpa [ArgumentMatch.assign] using h.params
  bound_iff j' := by
    rw [bound_assign (h.params ▸ hj), Bool.or_eq_true, decide_eq_true_eq, h.bound_iff]
    constructor
    · rintro (rfl | ⟨i', hi'⟩)
      · exact ⟨i, by rw [actual_assign (h.args ▸ hi), if_pos rfl]⟩
      · refine ⟨i', ?_⟩
        rw [actual_assign (h.args ▸ hi), if_neg, hi']
        rintro rfl
        rw [hfree] at hi'
        exact nomatch hi'
    · rintro ⟨i', hi'⟩
      rw [actual_assign (h.args ▸ hi)] at hi'
      split at hi'
      · exact .inl (Option.some.inj hi').symm
      · exact .inr ⟨i', hi'⟩

end ArgumentMatch

theorem partialEnd_le (formals : List String) : partialEnd formals ≤ formals.length := by
  unfold partialEnd
  cases h : formals.findIdx? (· == "...") with
  | none => exact le_rfl
  | some k => exact (List.findIdx?_eq_some_iff_findIdx_eq.mp h).1.le

theorem lt_length_of_getElem? {A : Type} {xs : List A} {i : Nat} {x : A} (h : xs[i]? = some x) :
    i < xs.length := (List.getElem?_eq_some_iff.mp h).1

section Passes

variable (c : RCall) {m : ArgumentMatch} {next i j k : Nat} {tag : Option String}

/-! ## What every pass keeps -/

/-- A match on the way: an actual without a tag waits for the last pass. -/
structure Waiting (m : ArgumentMatch) : Prop extends m.Kept c where
  unnamed : ∀ i, c.tags[i]? = some none → m.actual i = none

def unmatched : ArgumentMatch :=
  { paramForArg := List.replicate c.tags.length none
    boundParams := List.replicate c.formals.length false
    unmatchedNamed := []
    dots := c.formals.findIdx? (· == "...") }

theorem actual_unmatched : (unmatched c).actual i = none := by
  simp only [unmatched, ArgumentMatch.actual, List.getElem?_replicate]
  split <;> rfl

theorem waiting_unmatched : Waiting c (unmatched c) where
  args := List.length_replicate
  params := List.length_replicate
  bound_iff j := by
    have hbound : (unmatched c).bound j = false := by
      simp only [unmatched, ArgumentMatch.bound, List.getElem?_replicate]
      split <;> rfl
    simp [hbound, actual_unmatched]
  unnamed i _ := actual_unmatched c

variable {c}

theorem Waiting.assign (h : Waiting c m) {name : String} (hi : c.tags[i]? = some (some name))
    (hj : j < c.formals.length) (hfree : m.actual i = none) : Waiting c (m.assign i j) where
  toKept := h.toKept.assign (lt_length_of_getElem? hi) hj hfree
  unnamed i' hi' := by
    rw [ArgumentMatch.actual_assign (h.args ▸ lt_length_of_getElem? hi), if_neg, h.unnamed i' hi']
    rintro rfl
    rw [hi] at hi'
    exact nomatch hi'

theorem waiting_matchExact (h : Waiting c m) (hi : c.tags[i]? = some tag)
    (hfree : m.actual i = none) : Waiting c (matchExact c.formals m (tag, i)) := by
  cases tag with
  | none => exact h
  | some name =>
    simp only [matchExact]
    split
    · rename_i j hj
      exact h.assign hi (List.findIdx?_eq_some_iff_findIdx_eq.mp hj).1 hfree
    · exact h

theorem waiting_matchPartial (h : Waiting c m) (hi : c.tags[i]? = some tag) :
    Waiting c (matchPartial c.formals m (tag, i)) := by
  cases tag with
  | none => exact h
  | some name =>
    simp only [matchPartial]
    split
    · exact h
    · rename_i hfree
      split
      · rename_i j hj
        have hmem : j ∈ (List.range (partialEnd c.formals)).filter fun parameter =>
            !m.bound parameter && (c.formals[parameter]?).any (startsWith · name) := by
          rw [hj]
          exact List.mem_singleton_self j
        have hlt := List.mem_range.mp (List.mem_filter.mp hmem).1
        exact h.assign hi (hlt.trans_le (partialEnd_le c.formals)) (by simpa using hfree)
      · exact h

/-! ## Exact names -/

theorem exact_some {name : String} (hi : c.tags[i]? = some (some name)) :
    c.exact i j = true ↔ c.formals[j]? = some name ∧ name ≠ "..." := by
  unfold RCall.exact
  rw [hi]
  cases hj : c.formals[j]? with
  | none => simp
  | some formal =>
    simp only [Bool.and_eq_true, beq_iff_eq, bne_iff_ne, Option.some.injEq]
    constructor
    · rintro ⟨rfl, hdots⟩
      exact ⟨rfl, hdots⟩
    · rintro ⟨rfl, hdots⟩
      exact ⟨rfl, hdots⟩

theorem exact_none (hi : c.tags[i]? = some none) : c.exact i j = false := by
  unfold RCall.exact
  rw [hi]

theorem exact_lt (h : c.exact i j = true) : i < c.tags.length ∧ j < c.formals.length := by
  unfold RCall.exact at h
  split at h
  · rename_i hi hj
    exact ⟨lt_length_of_getElem? hi, lt_length_of_getElem? hj⟩
  · exact nomatch h

/-- The first formal of the name is the only one. -/
theorem findIdx?_eq_some_iff_exact (hnodup : c.formals.Nodup) {name : String}
    (hi : c.tags[i]? = some (some name)) :
    (c.formals.findIdx? fun parameter => parameter != "..." && parameter == name) = some j ↔
      c.exact i j = true := by
  rw [exact_some hi, List.findIdx?_eq_some_iff_getElem]
  constructor
  · rintro ⟨hlt, hname, -⟩
    simp only [Bool.and_eq_true, bne_iff_ne, ne_eq, beq_iff_eq] at hname
    obtain ⟨hdots, rfl⟩ := hname
    exact ⟨List.getElem?_eq_getElem hlt, hdots⟩
  · rintro ⟨hj, hdots⟩
    obtain ⟨hlt, rfl⟩ := List.getElem?_eq_some_iff.mp hj
    refine ⟨hlt, by simpa using hdots, fun j' hj' => ?_⟩
    have hne : c.formals[j'] ≠ c.formals[j] := fun h =>
      hj'.ne ((hnodup.getElem_inj_iff).mp h)
    simp [hne]

/-- After `k` turns. -/
structure Exactly (c : RCall) (k : Nat) (m : ArgumentMatch) : Prop extends Waiting c m where
  actual_iff : ∀ i j, m.actual i = some j ↔ i < k ∧ c.exact i j = true

theorem exactly_step (hnodup : c.formals.Nodup) (h : Exactly c k m)
    (hk : c.tags[k]? = some tag) : Exactly c (k + 1) (matchExact c.formals m (tag, k)) := by
  have hfree : m.actual k = none := by
    refine Option.eq_none_iff_forall_ne_some.mpr fun j hj => ?_
    exact lt_irrefl k ((h.actual_iff k j).mp hj).1
  refine ⟨waiting_matchExact h.toWaiting hk hfree, fun i j => ?_⟩
  have hlast : m.actual i = some j ↔ i < k + 1 ∧ i ≠ k ∧ c.exact i j = true := by
    rw [h.actual_iff]
    constructor
    · exact fun ⟨hlt, hexact⟩ => ⟨by omega, by omega, hexact⟩
    · exact fun ⟨hlt, hne, hexact⟩ => ⟨by omega, hexact⟩
  cases tag with
  | none =>
    rw [matchExact, hlast]
    refine and_congr_right fun _ => and_iff_right_of_imp ?_
    rintro hexact rfl
    rw [exact_none hk] at hexact
    exact nomatch hexact
  | some name =>
    have hfind := fun j => findIdx?_eq_some_iff_exact (j := j) hnodup hk
    simp only [matchExact]
    split
    · rename_i j' hj'
      rw [ArgumentMatch.actual_assign (h.args ▸ lt_length_of_getElem? hk)]
      split
      · rename_i hik
        subst hik
        rw [← hfind, hj']
        simp
      · rename_i hik
        rw [hlast]
        simp [hik]
    · rename_i hnone
      rw [hlast]
      refine and_congr_right fun _ => and_iff_right_of_imp ?_
      rintro hexact rfl
      rw [← hfind, hnone] at hexact
      exact nomatch hexact

/-! ## Partial names -/

theorem partially_iff {name : String} (hi : c.tags[i]? = some (some name)) :
    c.partially i j = true ↔ j < partialEnd c.formals ∧
      (c.formals[j]?).any (startsWith · name) = true ∧ (∀ j', c.exact i j' = false) ∧
      ∀ i', c.exact i' j = false := by
  have hbegins : c.begins i j = (c.formals[j]?).any (startsWith · name) := by
    unfold RCall.begins
    rw [hi]
    cases c.formals[j]? <;> rfl
  have hactual : (List.range c.formals.length).any (c.exact i ·) = false ↔
      ∀ j', c.exact i j' = false := by
    simp only [List.any_eq_false, List.mem_range, Bool.not_eq_true]
    refine ⟨fun h j' => ?_, fun h j' _ => h j'⟩
    by_contra hexact
    rw [Bool.not_eq_false] at hexact
    exact absurd ((h j' (exact_lt hexact).2).symm.trans hexact) nofun
  have hformal : (List.range c.tags.length).any (c.exact · j) = false ↔
      ∀ i', c.exact i' j = false := by
    simp only [List.any_eq_false, List.mem_range, Bool.not_eq_true]
    refine ⟨fun h i' => ?_, fun h i' _ => h i'⟩
    by_contra hexact
    rw [Bool.not_eq_false] at hexact
    exact absurd ((h i' (exact_lt hexact).1).symm.trans hexact) nofun
  unfold RCall.partially
  rw [hbegins]
  simp only [Bool.and_eq_true, decide_eq_true_eq, Bool.not_eq_true', hactual, hformal, and_assoc]

theorem partially_none (hi : c.tags[i]? = some none) : c.partially i j = false := by
  unfold RCall.partially RCall.begins
  rw [hi]
  simp

/-- After `k` turns. -/
structure Partially (c : RCall) (k : Nat) (m : ArgumentMatch) : Prop extends Waiting c m where
  actual_iff : ∀ i j, m.actual i = some j ↔ c.exact i j = true ∨ i < k ∧ c.partially i j = true

theorem partially_step (haccepted : c.Accepted) (h : Partially c k m)
    (hk : c.tags[k]? = some tag) : Partially c (k + 1) (matchPartial c.formals m (tag, k)) := by
  have hnext := waiting_matchPartial h.toWaiting hk
  refine ⟨hnext, fun i j => ?_⟩
  -- another actual, or one with no partial match, stays as it was
  have hkeep : (i = k → c.partially i j = false) →
      (m.actual i = some j ↔ c.exact i j = true ∨ i < k + 1 ∧ c.partially i j = true) := by
    intro hother
    rw [h.actual_iff]
    refine or_congr_right (and_congr_left fun hpart => ?_)
    have hne : i ≠ k := fun hik => absurd ((hother hik).symm.trans hpart) nofun
    omega
  cases tag with
  | none => exact hkeep fun hik => partially_none (hik ▸ hk)
  | some name =>
    have hpartially := fun j => partially_iff (j := j) hk
    simp only [matchPartial]
    split
    · rename_i hsome
      obtain ⟨j', hj'⟩ := Option.isSome_iff_exists.mp hsome
      have hexact : c.exact k j' = true :=
        ((h.actual_iff k j').mp hj').resolve_right fun hlt => lt_irrefl k hlt.1
      refine hkeep fun hik => ?_
      by_contra hpart
      rw [Bool.not_eq_false, hik, hpartially] at hpart
      exact absurd ((hpart.2.2.1 j').symm.trans hexact) nofun
    · rename_i hfree
      have hnotExact : ∀ j', c.exact k j' = false := by
        intro j'
        by_contra hexact
        rw [Bool.not_eq_false] at hexact
        exact hfree (by rw [(h.actual_iff k j').mpr (.inl hexact)]; rfl)
      -- what is still unbound and begins with the name is R's partial match
      have hcandidates : ∀ j', (j' ∈ (List.range (partialEnd c.formals)).filter fun parameter =>
          !m.bound parameter && (c.formals[parameter]?).any (startsWith · name)) ↔
          c.partially k j' = true := by
        intro j'
        rw [List.mem_filter, List.mem_range, hpartially, Bool.and_eq_true, Bool.not_eq_true']
        refine and_congr_right fun hlt => ?_
        rw [and_comm]
        refine and_congr_right fun hlead => ?_
        constructor
        · intro hunbound
          refine ⟨hnotExact, fun i' => ?_⟩
          by_contra hexact
          rw [Bool.not_eq_false] at hexact
          have hbound := (h.bound_iff j').mpr ⟨i', (h.actual_iff i' j').mpr (.inl hexact)⟩
          exact absurd (hunbound.symm.trans hbound) nofun
        · rintro ⟨-, hunused⟩
          by_contra hbound
          rw [Bool.not_eq_false, h.bound_iff] at hbound
          obtain ⟨i', hi'⟩ := hbound
          rcases (h.actual_iff i' j').mp hi' with hexact | ⟨hlt', hpart⟩
          · exact absurd ((hunused i').symm.trans hexact) nofun
          · have hself := (hpartially j').mpr ⟨hlt, hlead, hnotExact, hunused⟩
            exact hlt'.ne (haccepted.partial_formal i' k j' hpart hself)
      have hnodup := (List.nodup_range (n := partialEnd c.formals)).filter fun parameter =>
          !m.bound parameter && (c.formals[parameter]?).any (startsWith · name)
      split
      · rename_i j' hsingle
        have hself : c.partially k j' = true := (hcandidates j').mp (by rw [hsingle]; simp)
        rw [ArgumentMatch.actual_assign (h.args ▸ lt_length_of_getElem? hk)]
        split
        · rename_i hik
          subst hik
          constructor
          · rintro hj
            obtain rfl := Option.some.inj hj
            exact .inr ⟨Nat.lt_succ_self i, hself⟩
          · rintro (hexact | ⟨-, hpart⟩)
            · exact absurd ((hnotExact j).symm.trans hexact) nofun
            · rw [haccepted.partial_actual i j j' hpart hself]
        · rename_i hik
          exact hkeep fun hik' => absurd hik' hik
      · rename_i hmany
        refine hkeep fun hik => ?_
        by_contra hpart
        rw [Bool.not_eq_false, hik] at hpart
        -- a partial match is the only candidate
        rcases (hnodup.ne_singleton_iff j).mp (hmany j) with hempty | ⟨j', hj', hne⟩
        · have hmem := (hcandidates j).mpr hpart
          rw [hempty] at hmem
          exact absurd hmem List.not_mem_nil
        · exact hne (haccepted.partial_actual k j' j ((hcandidates j').mp hj') hpart)

/-! ## Positions -/

/-- The formals from `next` on that nothing is bound to. -/
def unboundFrom (m : ArgumentMatch) (stop next : Nat) : List Nat :=
  (List.range' next (stop - next)).filter (!m.bound ·)

theorem unboundFrom_of_lt {stop : Nat} (h : next < stop) :
    unboundFrom m stop next =
      if m.bound next then unboundFrom m stop (next + 1)
      else next :: unboundFrom m stop (next + 1) := by
  have hlen : stop - next = stop - (next + 1) + 1 := by omega
  unfold unboundFrom
  rw [hlen, List.range'_succ, List.filter_cons]
  cases m.bound next <;> rfl

theorem unboundFrom_of_le {stop : Nat} (h : stop ≤ next) : unboundFrom m stop next = [] := by
  unfold unboundFrom
  rw [Nat.sub_eq_zero_of_le h]
  rfl

/-- The cursor stops at the first of them. -/
theorem unboundFrom_eq (m : ArgumentMatch) (stop next : Nat) :
    unboundFrom m stop next =
      if nextUnbound m stop next < stop then
        nextUnbound m stop next :: unboundFrom m stop (nextUnbound m stop next + 1)
      else [] := by
  induction next using nextUnbound.induct m stop with
  | case1 next h ih =>
    rw [nextUnbound, if_pos h, unboundFrom_of_lt h.1, if_pos h.2]
    exact ih
  | case2 next h =>
    rw [nextUnbound, if_neg h]
    split
    · rename_i hlt
      rw [unboundFrom_of_lt hlt, if_neg fun hbound => h ⟨hlt, hbound⟩]
    · rename_i hle
      exact unboundFrom_of_le (not_lt.mp hle)

theorem unboundFrom_assign {stop : Nat} (hj : j < m.boundParams.length) :
    unboundFrom (m.assign i j) stop (j + 1) = unboundFrom m stop (j + 1) := by
  unfold unboundFrom
  refine List.filter_congr fun j' hj' => ?_
  have hlt := (List.mem_range'_1.mp hj').1
  rw [ArgumentMatch.bound_assign hj, decide_eq_false (by omega), Bool.false_or]

/-- What the last pass keeps, for any call. -/
structure Placing (c : RCall) (k : Nat) (m : ArgumentMatch) : Prop extends m.Kept c where
  unnamed : ∀ i, k ≤ i → c.tags[i]? = some none → m.actual i = none

theorem unbound_of_nextUnbound {stop : Nat} (h : nextUnbound m stop next < stop) :
    m.bound (nextUnbound m stop next) = false := by
  have hmem : nextUnbound m stop next ∈ unboundFrom m stop next := by
    rw [unboundFrom_eq, if_pos h]
    exact List.mem_cons_self
  simpa using (List.mem_filter.mp hmem).2

theorem placing_step (h : Placing c k m) (hk : c.tags[k]? = some tag) :
    Placing c (k + 1) (matchPositional c.formals (m, next) (tag, k)).1 := by
  have hlater : Placing c (k + 1) m := ⟨h.toKept, fun i hi => h.unnamed i (by omega)⟩
  cases tag with
  | some name =>
    simp only [matchPositional]
    split
    · exact ⟨⟨h.args, h.params, h.bound_iff⟩, hlater.unnamed⟩
    · exact hlater
  | none =>
    simp only [matchPositional]
    split
    · rename_i hlt
      have hi := lt_length_of_getElem? hk
      refine ⟨h.toKept.assign hi (hlt.trans_le (partialEnd_le c.formals)) (h.unnamed k le_rfl hk),
        fun i hi' htag => ?_⟩
      rw [ArgumentMatch.actual_assign (h.args ▸ hi), if_neg (by omega)]
      exact hlater.unnamed i hi' htag
    · exact hlater

/-- After `k` turns: the unnamed actuals so far have the first open formals, and the cursor
stands before the others. -/
structure Positionally (c : RCall) (k : Nat) (p : ArgumentMatch × Nat) : Prop extends
    Placing c k p.1 where
  actual_iff : ∀ i j, p.1.actual i = some j ↔
    c.tagged i j = true ∨ i < k ∧ c.positional i j = true
  unbound : unboundFrom p.1 (partialEnd c.formals) p.2 =
    c.openFormals.drop ((c.tags.take k).count none)

theorem count_take_succ (hk : c.tags[k]? = some tag) :
    (c.tags.take (k + 1)).count none =
      (c.tags.take k).count none + if tag = none then 1 else 0 := by
  rw [List.take_add_one, hk, List.count_append]
  cases tag <;> simp

theorem positional_none (hi : c.tags[i]? = some none) :
    c.positional i j = true ↔ c.openFormals[(c.tags.take i).count none]? = some j := by
  simp [RCall.positional, hi]

theorem positional_some {name : String} (hi : c.tags[i]? = some (some name)) :
    c.positional i j = false := by
  simp [RCall.positional, hi]

theorem tagged_none (hi : c.tags[i]? = some none) : c.tagged i j = false := by
  rw [RCall.tagged, exact_none hi, partially_none hi]
  rfl

theorem positionally_step {p : ArgumentMatch × Nat} (h : Positionally c k p)
    (hk : c.tags[k]? = some tag) :
    Positionally c (k + 1) (matchPositional c.formals p (tag, k)) := by
  obtain ⟨m, next⟩ := p
  refine ⟨placing_step h.toPlacing hk, ?_, ?_⟩
  · intro i j
    have hkeep : (i = k → c.positional i j = false) →
        (m.actual i = some j ↔ c.tagged i j = true ∨ i < k + 1 ∧ c.positional i j = true) := by
      intro hother
      rw [h.actual_iff]
      refine or_congr_right (and_congr_left fun hpositional => ?_)
      have hne : i ≠ k := fun hik => absurd ((hother hik).symm.trans hpositional) nofun
      omega
    have hunbound := h.unbound
    cases tag with
    | some name =>
      have hsame : (matchPositional c.formals (m, next) (some name, k)).1.actual i = m.actual i := by
        simp only [matchPositional]
        split <;> rfl
      rw [hsame]
      exact hkeep fun hik => positional_some (hik ▸ hk)
    | none =>
      rw [unboundFrom_eq] at hunbound
      simp only [matchPositional]
      split
      · rename_i hlt
        rw [if_pos hlt] at hunbound
        have hopen : c.openFormals[(c.tags.take k).count none]? =
            some (nextUnbound m (partialEnd c.formals) next) := by
          rw [← List.head?_drop, ← hunbound]
          rfl
        rw [ArgumentMatch.actual_assign (h.args ▸ lt_length_of_getElem? hk)]
        split
        · rename_i hik
          subst hik
          rw [tagged_none hk, positional_none hk, hopen]
          simp
        · rename_i hik
          exact hkeep fun hik' => absurd hik' hik
      · rename_i hle
        rw [if_neg hle] at hunbound
        refine hkeep fun hik => ?_
        by_contra hpositional
        rw [Bool.not_eq_false, hik, positional_none hk, ← List.head?_drop, ← hunbound] at hpositional
        exact nomatch hpositional
  · rw [count_take_succ hk]
    have hunbound := h.unbound
    cases tag with
    | some name =>
      have hsame : unboundFrom (matchPositional c.formals (m, next) (some name, k)).1
          (partialEnd c.formals) (matchPositional c.formals (m, next) (some name, k)).2 =
          unboundFrom m (partialEnd c.formals) next := by
        simp only [matchPositional]
        split <;> rfl
      rw [hsame]
      exact hunbound
    | none =>
      rw [unboundFrom_eq] at hunbound
      simp only [matchPositional]
      rw [if_true, ← List.tail_drop, ← hunbound]
      split
      · rename_i hlt
        exact unboundFrom_assign (h.params ▸ hlt.trans_le (partialEnd_le c.formals))
      · rename_i hle
        exact unboundFrom_of_le (not_lt.mp hle)

/-! ## The whole match -/

theorem tagged_lt (h : c.tagged i j = true) : i < c.tags.length := by
  rcases Bool.or_eq_true_iff.mp h with hexact | hpart
  · exact (exact_lt hexact).1
  · by_contra hlt
    have hnone : c.tags[i]? = none := List.getElem?_eq_none (not_lt.mp hlt)
    unfold RCall.partially RCall.begins at hpart
    rw [hnone] at hpart
    simp at hpart

theorem mem_openFormals :
    j ∈ c.openFormals ↔ j < partialEnd c.formals ∧ ∀ i, c.tagged i j = false := by
  simp only [RCall.openFormals, List.mem_filter, List.mem_range, Bool.not_eq_true',
    List.any_eq_false, Bool.not_eq_true]
  refine and_congr_right fun _ => ⟨fun h i => ?_, fun h i _ => h i⟩
  by_contra htagged
  rw [Bool.not_eq_false] at htagged
  exact absurd ((h i (tagged_lt htagged)).symm.trans htagged) nofun

theorem waiting_passes :
    Waiting c (c.tags.zipIdx.foldl (matchPartial c.formals)
      (c.tags.zipIdx.foldl (matchExact c.formals) (unmatched c))) := by
  have hexact := Loop.zipIdx_inv (f := matchExact c.formals) (l := c.tags) (s := unmatched c)
    (fun k m => Waiting c m ∧ ∀ i, k ≤ i → m.actual i = none)
    ⟨waiting_unmatched c, fun i _ => actual_unmatched c⟩ ?_
  · exact Loop.zipIdx_inv (f := matchPartial c.formals) (fun _ m => Waiting c m) hexact.1
      fun i tag m hi h => waiting_matchPartial h hi
  · rintro i tag m hi ⟨h, hlater⟩
    refine ⟨waiting_matchExact h hi (hlater i le_rfl), fun i' hi' => ?_⟩
    cases tag with
    | none => exact hlater i' (by omega)
    | some name =>
      simp only [matchExact]
      split
      · rw [ArgumentMatch.actual_assign (h.args ▸ lt_length_of_getElem? hi), if_neg (by omega),
          hlater i' (by omega)]
      · exact hlater i' (by omega)

theorem kept_matchArgumentNames (c : RCall) : (matchArgumentNames c.formals c.tags).Kept c := by
  have hlast := Loop.zipIdx_inv (f := matchPositional c.formals) (l := c.tags)
    (s := (c.tags.zipIdx.foldl (matchPartial c.formals)
      (c.tags.zipIdx.foldl (matchExact c.formals) (unmatched c)), 0))
    (fun k p => Placing c k p.1)
    ⟨waiting_passes.toKept, fun i _ => waiting_passes.unnamed i⟩
    fun i tag ⟨m, next⟩ hi h => placing_step h hi
  exact hlast.toKept

theorem actual_matchArgumentNames (hnodup : c.formals.Nodup) (haccepted : c.Accepted) :
    (matchArgumentNames c.formals c.tags).actual i = some j ↔ c.binds i j = true := by
  have hexact := Loop.zipIdx_inv (f := matchExact c.formals) (Exactly c) (l := c.tags)
    (s := unmatched c)
    ⟨waiting_unmatched c, fun i j => by simp [actual_unmatched]⟩
    fun i tag m hi h => exactly_step hnodup h hi
  have hpart := Loop.zipIdx_inv (f := matchPartial c.formals) (Partially c) (l := c.tags)
    (s := c.tags.zipIdx.foldl (matchExact c.formals) (unmatched c))
    ⟨hexact.toWaiting, fun i j => by
      rw [hexact.actual_iff]
      simp only [Nat.not_lt_zero, false_and, or_false]
      exact and_iff_right_of_imp fun h => (exact_lt h).1⟩
    fun i tag m hi h => partially_step haccepted h hi
  have htagged : ∀ i j, (c.tags.zipIdx.foldl (matchPartial c.formals)
      (c.tags.zipIdx.foldl (matchExact c.formals) (unmatched c))).actual i = some j ↔
      c.tagged i j = true := by
    intro i j
    rw [hpart.actual_iff, RCall.tagged, Bool.or_eq_true]
    refine or_congr_right (and_iff_right_of_imp fun h => tagged_lt (j := j) ?_)
    rw [RCall.tagged, h, Bool.or_true]
  have hopen : unboundFrom (c.tags.zipIdx.foldl (matchPartial c.formals)
      (c.tags.zipIdx.foldl (matchExact c.formals) (unmatched c))) (partialEnd c.formals) 0 =
      c.openFormals := by
    unfold unboundFrom RCall.openFormals
    rw [Nat.sub_zero, ← List.range_eq_range']
    refine List.filter_congr fun j _ => congrArg (!·) (Bool.eq_iff_iff.mpr ?_)
    rw [hpart.bound_iff, List.any_eq_true]
    constructor
    · rintro ⟨i, hi⟩
      have h := (htagged i j).mp hi
      exact ⟨i, List.mem_range.mpr (tagged_lt h), h⟩
    · rintro ⟨i, -, h⟩
      exact ⟨i, (htagged i j).mpr h⟩
  have hlast := Loop.zipIdx_inv (f := matchPositional c.formals) (Positionally c) (l := c.tags)
    (s := (c.tags.zipIdx.foldl (matchPartial c.formals)
      (c.tags.zipIdx.foldl (matchExact c.formals) (unmatched c)), 0))
    ⟨⟨hpart.toKept, fun i _ => hpart.unnamed i⟩, fun i j => by simp [htagged], hopen⟩
    fun i tag p hi h => positionally_step h hi
  refine (hlast.actual_iff i j).trans ?_
  rw [RCall.binds, Bool.or_eq_true]
  refine or_congr_right (and_iff_right_of_imp fun h => ?_)
  have hnamed : c.tags[i]? = some none := by simpa using (Bool.and_eq_true_iff.mp h).1
  exact lt_length_of_getElem? hnamed

/-- The unnamed actuals before a later one are more. -/
theorem count_lt_of_lt {i' : Nat} (hi : c.tags[i]? = some none) (h : i < i') :
    (c.tags.take i).count none < (c.tags.take i').count none := by
  have hsucc := count_take_succ hi
  have hlead : (c.tags.take (i + 1)).Sublist (c.tags.take i') :=
    (List.take_prefix_take_left h).sublist
  have hle := hlead.count_le none
  rw [if_pos rfl] at hsucc
  omega

/-- In an accepted call a formal is for one actual. -/
theorem RCall.Accepted.binds_inj (haccepted : c.Accepted) {i' : Nat} (h : c.binds i j = true)
    (h' : c.binds i' j = true) : i = i' := by
  have hexactPartial : ∀ {i i'}, c.exact i j = true → c.partially i' j = true → i = i' := by
    intro i i' hexact hpart
    have hunused := (Bool.and_eq_true_iff.mp hpart).2
    rw [Bool.not_eq_true', List.any_eq_false] at hunused
    exact absurd hexact (hunused i (List.mem_range.mpr (exact_lt hexact).1))
  have htaggedOpen : ∀ {i i'}, c.tagged i j = true → c.positional i' j = true → i = i' := by
    intro i i' htagged hpositional
    have hopen : j ∈ c.openFormals := by
      have hget := (Bool.and_eq_true_iff.mp hpositional).2
      exact List.mem_of_getElem? (by simpa using hget)
    exact absurd ((mem_openFormals.mp hopen).2 i ▸ htagged) nofun
  rcases Bool.or_eq_true_iff.mp h with htagged | hpositional <;>
    rcases Bool.or_eq_true_iff.mp h' with htagged' | hpositional'
  · rcases Bool.or_eq_true_iff.mp htagged with hexact | hpart <;>
      rcases Bool.or_eq_true_iff.mp htagged' with hexact' | hpart'
    · exact haccepted.exact_formal i i' j hexact hexact'
    · exact hexactPartial hexact hpart'
    · exact (hexactPartial hexact' hpart).symm
    · exact haccepted.partial_formal i i' j hpart hpart'
  · exact htaggedOpen htagged hpositional'
  · exact (htaggedOpen htagged' hpositional).symm
  · have hnamed : c.tags[i]? = some none := by simpa using (Bool.and_eq_true_iff.mp hpositional).1
    have hnamed' : c.tags[i']? = some none := by
      simpa using (Bool.and_eq_true_iff.mp hpositional').1
    have hget := (positional_none hnamed).mp hpositional
    have hget' := (positional_none hnamed').mp hpositional'
    have hnodup : c.openFormals.Nodup := List.nodup_range.filter _
    have hrank := (List.getElem?_inj (lt_length_of_getElem? hget) hnodup).mp
      (hget.trans hget'.symm)
    by_contra hne
    rcases Nat.lt_or_gt_of_ne hne with hlt | hgt
    · exact (count_lt_of_lt hnamed hlt).ne hrank
    · exact (count_lt_of_lt hnamed' hgt).ne' hrank

end Passes

theorem binds_lt_tags {c : RCall} {i j : Nat} (h : c.binds i j = true) : i < c.tags.length := by
  rcases Bool.or_eq_true_iff.mp h with htagged | hpositional
  · exact tagged_lt htagged
  · have hnamed : c.tags[i]? = some none := by
      simpa using (Bool.and_eq_true_iff.mp hpositional).1
    exact lt_length_of_getElem? hnamed

theorem named_of_lt_partialEnd {formals : List String} {j : Nat} (h : j < partialEnd formals) :
    ∃ formal, formals[j]? = some formal ∧ formal ≠ "..." := by
  have hlt := h.trans_le (partialEnd_le formals)
  refine ⟨formals[j], List.getElem?_eq_getElem hlt, ?_⟩
  unfold partialEnd at h
  cases hdots : formals.findIdx? (· == "...") with
  | none =>
    have hne := List.findIdx?_eq_none_iff.mp hdots formals[j] (List.getElem_mem hlt)
    simpa using hne
  | some k =>
    rw [hdots, Option.getD_some] at h
    obtain ⟨hk, _, hbefore⟩ := List.findIdx?_eq_some_iff_getElem.mp hdots
    simpa using hbefore j h

theorem ArgumentMatch.actual_of_assign {m : ArgumentMatch} {i i' j j' : Nat}
    (h : (m.assign i j).actual i' = some j') : j' = j ∨ m.actual i' = some j' := by
  by_cases hi : i < m.paramForArg.length
  · rw [actual_assign hi] at h
    split at h
    · exact .inl (Option.some.inj h).symm
    · exact .inr h
  · rw [actual, assign, List.set_eq_of_length_le (not_lt.mp hi)] at h
    exact .inr h

/-- No actual is bound to the dots. -/
def ArgumentMatch.Named (formals : List String) (m : ArgumentMatch) : Prop :=
  ∀ i j, m.actual i = some j → ∃ formal, formals[j]? = some formal ∧ formal ≠ "..."

theorem named_matchArgumentNames (formals : List String) (tags : List (Option String)) :
    (matchArgumentNames formals tags).Named formals := by
  have hexact := Loop.zipIdx_inv (f := matchExact formals) (l := tags)
    (s := unmatched ⟨formals, tags⟩)
    (fun _ m => m.Named formals) (fun i j h => by rw [actual_unmatched] at h; cases h) ?_
  · have hpartial := Loop.zipIdx_inv (f := matchPartial formals) (l := tags)
      (fun _ m => m.Named formals) hexact ?_
    · refine Loop.zipIdx_inv (f := matchPositional formals) (l := tags) (s := (_, 0))
        (fun _ p => p.1.Named formals) hpartial ?_
      rintro k tag ⟨m, next⟩ - hm i j hj
      cases tag with
      | some name =>
        simp only [matchPositional] at hj
        split at hj <;> exact hm i j hj
      | none =>
        simp only [matchPositional] at hj
        split at hj
        · rename_i hnext
          rcases ArgumentMatch.actual_of_assign hj with rfl | hj
          · exact named_of_lt_partialEnd hnext
          · exact hm i j hj
        · exact hm i j hj
    · rintro k tag m - hm i j hj
      cases tag with
      | none => exact hm i j hj
      | some name =>
        simp only [matchPartial] at hj
        split at hj
        · exact hm i j hj
        · split at hj
          · rename_i parameter hcandidates
            rcases ArgumentMatch.actual_of_assign hj with rfl | hj
            · have hmem := List.mem_filter.mp (hcandidates ▸ List.mem_singleton_self j)
              exact named_of_lt_partialEnd (List.mem_range.mp hmem.1)
            · exact hm i j hj
          · exact hm i j hj
  · rintro k tag m - hm i j hj
    cases tag with
    | none => exact hm i j hj
    | some name =>
      simp only [matchExact] at hj
      split at hj
      · rename_i parameter hparameter
        rcases ArgumentMatch.actual_of_assign hj with rfl | hj
        · obtain ⟨hlt, hname, -⟩ := List.findIdx?_eq_some_iff_getElem.mp hparameter
          refine ⟨formals[j], List.getElem?_eq_getElem hlt, ?_⟩
          simpa using (Bool.and_eq_true_iff.mp hname).1
        · exact hm i j hj
      · exact hm i j hj

/-- The actual that is found is one for the formal. -/
theorem argForParam_eq_some {m : ArgumentMatch} {index actual : Nat}
    (h : m.argForParam index = some actual) : m.actual actual = some index := by
  obtain ⟨hlt, hfound, -⟩ := List.findIdx?_eq_some_iff_getElem.mp h
  rw [ArgumentMatch.actual, List.getElem?_eq_getElem hlt, Option.join_some]
  simpa using hfound

theorem argForParam_eq_none {m : ArgumentMatch} {index : Nat} (h : m.argForParam index = none)
    (actual : Nat) : m.actual actual ≠ some index := by
  intro hactual
  rw [ArgumentMatch.argForParam, List.findIdx?_eq_none_iff] at h
  have hbound := h (some index) (List.mem_of_getElem? (Option.join_eq_some_iff.mp hactual))
  simp at hbound

theorem dots_matchArgumentNames (formals : List String) (tags : List (Option String)) :
    (matchArgumentNames formals tags).dots = formals.findIdx? (· == "...") := by
  have hexact := Loop.zipIdx_inv (f := matchExact formals) (l := tags)
    (s := unmatched ⟨formals, tags⟩) (fun _ m => m.dots = formals.findIdx? (· == "...")) rfl
    fun i tag m _ h => by
      cases tag with
      | none => exact h
      | some name =>
        simp only [matchExact]
        split <;> exact h
  have hpart := Loop.zipIdx_inv (f := matchPartial formals) (l := tags)
    (fun _ m => m.dots = formals.findIdx? (· == "...")) hexact fun i tag m _ h => by
      cases tag with
      | none => exact h
      | some name =>
        simp only [matchPartial]
        split
        · exact h
        · split <;> exact h
  exact Loop.zipIdx_inv (f := matchPositional formals) (l := tags)
    (s := (_, 0)) (fun _ p => p.1.dots = formals.findIdx? (· == "...")) hpart
    fun i tag p _ h => by
      cases tag <;> simp only [matchPositional] <;> split <;> exact h

/-- A call that R accepts is matched as R matches it: an actual is bound to the formal that one
of R's passes has it for, one that no pass takes goes to the dots, and no formal is bound
twice.  Of any call, the bound parameters are exactly those some actual is bound to. -/
theorem matches_rCall (formals : List String) (tags : List (Option String)) :
    (formals.Nodup → (RCall.mk formals tags).Accepted →
      (∀ i < tags.length,
        (∀ j, (matchArgumentNames formals tags).paramForArg[i]? = some (some j) ↔
          (RCall.mk formals tags).binds i j = true) ∧
        ((matchArgumentNames formals tags).paramForArg[i]? = some none →
          ∃ dots, (matchArgumentNames formals tags).dots = some dots ∧
            formals[dots]? = some "...")) ∧
      ∀ i i' j : Nat, (matchArgumentNames formals tags).paramForArg[i]? = some (some j) →
        (matchArgumentNames formals tags).paramForArg[i']? = some (some j) → i = i') ∧
    (matchArgumentNames formals tags).paramForArg.length = tags.length ∧
    (matchArgumentNames formals tags).boundParams.length = formals.length ∧
    ∀ j : Nat, (matchArgumentNames formals tags).boundParams[j]? = some true ↔
      ∃ i : Nat, (matchArgumentNames formals tags).paramForArg[i]? = some (some j) := by
  have hkept := kept_matchArgumentNames ⟨formals, tags⟩
  have hactual : ∀ i j, (matchArgumentNames formals tags).paramForArg[i]? = some (some j) ↔
      (matchArgumentNames formals tags).actual i = some j := by
    intro i j
    rw [ArgumentMatch.actual, Option.join_eq_some_iff]
  refine ⟨fun hnodup haccepted => ⟨fun i hi => ⟨fun j => ?_, fun hnone => ?_⟩, fun i i' j h h' => ?_⟩,
    hkept.args, hkept.params, fun j => ?_⟩
  · exact (hactual i j).trans (actual_matchArgumentNames hnodup haccepted)
  · have hdots : "..." ∈ formals := by
      by_contra hnot
      obtain ⟨j, hj⟩ := haccepted.used hnot i hi
      have hbound := (hactual i j).mpr ((actual_matchArgumentNames hnodup haccepted).mpr hj)
      rw [hnone] at hbound
      exact nomatch hbound
    rw [dots_matchArgumentNames]
    have hsome : (formals.findIdx? (· == "...")).isSome = true := by
      rw [List.findIdx?_isSome, List.any_eq_true]
      exact ⟨"...", hdots, beq_self_eq_true _⟩
    obtain ⟨dots, hat⟩ := Option.isSome_iff_exists.mp hsome
    obtain ⟨hlt, hname, -⟩ := List.findIdx?_eq_some_iff_getElem.mp hat
    exact ⟨dots, hat, List.getElem?_eq_some_iff.mpr ⟨hlt, by simpa using hname⟩⟩
  · rw [hactual, actual_matchArgumentNames hnodup haccepted] at h h'
    exact haccepted.binds_inj h h'
  · have hbound : (matchArgumentNames formals tags).boundParams[j]? = some true ↔
        (matchArgumentNames formals tags).bound j = true := by
      rw [ArgumentMatch.bound]
      cases (matchArgumentNames formals tags).boundParams[j]? <;> simp
    rw [hbound, hkept.bound_iff]
    exact exists_congr fun i => (hactual i j).symm

/-- `f(aft = , , after = )` for `function(x, ..., after)` -/
def dotsCall : RCall := ⟨["x", "...", "after"], [some "aft", none, some "after"]⟩

theorem dotsCall_exact (i j : Nat) (h : dotsCall.exact i j = true) : i = 2 ∧ j = 2 := by
  obtain ⟨hi, hj⟩ := exact_lt h
  have hall : ∀ i < 3, ∀ j < 3, dotsCall.exact i j = true → i = 2 ∧ j = 2 := by decide +kernel
  exact hall i hi j hj h

theorem dotsCall_partially (i j : Nat) : dotsCall.partially i j = false := by
  by_contra h
  rw [Bool.not_eq_false] at h
  have hi : i < 3 := tagged_lt (c := dotsCall) (Bool.or_eq_true_iff.mpr (.inr h))
  have hj : j < partialEnd dotsCall.formals := by
    unfold RCall.partially at h
    simp only [Bool.and_eq_true, decide_eq_true_eq] at h
    exact h.1.1.1
  have hall : ∀ i < 3, ∀ j < partialEnd dotsCall.formals, dotsCall.partially i j = false := by
    decide +kernel
  exact absurd ((hall i hi j hj).symm.trans h) nofun

/-- The exact name binds past the dots, the partial one goes to them. -/
theorem matches_rCall_dots :
    (matchArgumentNames dotsCall.formals dotsCall.tags).paramForArg[2]? = some (some 2) ∧
      ∃ dots, (matchArgumentNames dotsCall.formals dotsCall.tags).dots = some dots ∧
        dotsCall.formals[dots]? = some "..." := by
  have haccepted : dotsCall.Accepted :=
    { exact_formal := fun i i' j h h' => (dotsCall_exact i j h).1.trans (dotsCall_exact i' j h').1.symm
      exact_actual := fun i j j' h h' => (dotsCall_exact i j h).2.trans (dotsCall_exact i j' h').2.symm
      partial_formal := fun i i' j h => absurd ((dotsCall_partially i j).symm.trans h) nofun
      partial_actual := fun i j j' h => absurd ((dotsCall_partially i j).symm.trans h) nofun
      used := fun h => absurd (by decide +kernel) h }
  have hmatch := (matches_rCall dotsCall.formals dotsCall.tags).1 (by decide +kernel) haccepted
  exact ⟨((hmatch.1 2 (by decide)).1 2).mpr (by decide +kernel),
    (hmatch.1 0 (by decide)).2 (by decide +kernel)⟩

/-- No parameter is bound before the call. -/
theorem no_parameter_bound_before :
    ¬ ∀ (formals : List String) (tags : List (Option String)) (before : Nat),
      before ≤ formals.length →
        ∀ j < before, (matchArgumentNames formals tags).boundParams[j]? = some true := by
  intro h
  have hbound := h ["x"] [] 1 le_rfl 0 Nat.one_pos
  exact absurd hbound (by decide)

end Ry
