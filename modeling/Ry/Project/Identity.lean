import Ry.Project.Definitions

/-! # What the table of definitions keeps

`Definitions.Indexed` is the invariant of every table: an indexed literal is live under its
spelling, a literal ever bound is found by its identity, and the two sets of names know of
every disagreement.  It holds whatever order an append visits names in.

The index is not complete: a literal bound to two names leaves it when the one the index
has is bound anew (`Definitions.Orphans`).  `Build.exact_iff` says this is all that can
go wrong.
-/

namespace Ry

/-- What a binding says of its name: which literal, and its formals. -/
structure Binding where
  name : String
  id : FunctionId
  formals : List (String × Bool)

namespace UserFn

/-- What two literals of a name have to agree on. -/
def formals (f : UserFn) : List (String × Bool) := f.params.map fun p => (p.name, p.required)

theorem formalsAgree_iff (f g : UserFn) : f.formalsAgree g = true ↔ f.formals = g.formals := by
  obtain ⟨ps, _⟩ := f
  obtain ⟨qs, _⟩ := g
  simp only [formalsAgree, formals]
  induction ps generalizing qs with
  | nil => cases qs <;> simp
  | cons p ps ih =>
    cases qs with
    | nil => simp
    | cons q qs =>
      have hrest := ih qs
      simp only [Bool.and_eq_true, beq_iff_eq] at hrest
      simp only [List.length_cons, List.zip_cons_cons, List.all_cons, Bool.and_eq_true, beq_iff_eq,
        Nat.add_right_cancel_iff, List.map_cons, List.cons.injEq, Prod.mk.injEq, ← hrest]
      tauto

def binding (f : UserFn) (raw : String) : Binding := ⟨raw, f.id, f.formals⟩

@[simp] theorem id_shift (f : UserFn) (slotOffset : Nat) : (f.shift slotOffset).id = f.id := rfl

@[simp] theorem binding_shift (f : UserFn) (slotOffset : Nat) (raw : String) :
    (f.shift slotOffset).binding raw = f.binding raw := rfl

end UserFn

theorem mem_spellings (raw : String) : raw ∈ spellings (semanticArgumentName raw) := by
  unfold semanticArgumentName
  split
  · rename_i c rest hraw
    split
    · rename_i hquoted
      obtain ⟨hlast, hquote⟩ := hquoted
      have hne : rest ≠ [] := by
        rintro rfl
        simp at hlast
      have hrest : rest.dropLast ++ [c] = rest := by
        have hgetLast := List.dropLast_append_getLast hne
        rwa [show rest.getLast hne = c from by
          rw [List.getLast?_eq_some_getLast hne] at hlast
          exact Option.some.inj hlast] at hgetLast
      have hquotedRaw : raw = quoted c (String.ofList rest.dropLast) := by
        rw [quoted, String.toList_ofList, List.cons_append, hrest, ← hraw, String.ofList_toList]
      simp only [List.mem_cons, List.not_mem_nil, or_false] at hquote
      rcases hquote with rfl | rfl | rfl <;> rw [hquotedRaw] <;> simp [spellings]
    · simp [spellings]
  · simp [spellings]

namespace Definitions

variable {d later : Definitions} {raw : String} {f : UserFn} {id : FunctionId}

/-! ## One binding -/

/-- Binding `raw` drops the literal from the index. -/
def drops (d : Definitions) (raw : String) (f : UserFn) (id : FunctionId) : Bool :=
  (d.live.lookup raw).any (·.id == id) && id != f.id && d.liveIds.lookup id == some raw

theorem bindLive_of_none (h : d.live.lookup raw = none) :
    (d.bindLive raw f).1 = { d.noteBinding raw f with live := d.live.insert raw f } := by
  have hnote : (d.noteBinding raw f).live.lookup raw = none := h
  unfold bindLive
  dsimp only
  rw [hnote]
  rfl

theorem bindLive_of_some {previous : UserFn} (h : d.live.lookup raw = some previous) :
    (d.bindLive raw f).1 =
      if d.drops raw f previous.id then
        { d.noteBinding raw f with
          live := d.live.insert raw f
          liveIds := d.liveIds.erase previous.id
          replaced := d.replaced.insert previous.id previous }
      else { d.noteBinding raw f with live := d.live.insert raw f } := by
  have hnote : (d.noteBinding raw f).live.lookup raw = some previous := h
  have hdrops : d.drops raw f previous.id = true ↔
      previous.id ≠ f.id ∧ (d.noteBinding raw f).liveIds.lookup previous.id = some raw := by
    simp [drops, h, noteBinding]
  unfold bindLive
  dsimp only
  rw [hnote]
  dsimp only
  by_cases hdrop : d.drops raw f previous.id = true
  · rw [if_pos hdrop, if_pos (hdrops.mp hdrop)]
    rfl
  · rw [if_neg hdrop, if_neg (mt hdrops.mpr hdrop)]
    rfl

theorem drops_of_none (h : d.live.lookup raw = none) : d.drops raw f id = false := by
  simp [drops, h]

theorem drops_of_ne {previous : UserFn} (h : d.live.lookup raw = some previous)
    (hid : id ≠ previous.id) : d.drops raw f id = false := by
  simp [drops, h, Ne.symm hid]

theorem live_bindLive (n : String) :
    (d.bindLive raw f).1.live.lookup n = if n = raw then some f else d.live.lookup n := by
  rw [← Table.lookup_insert]
  cases h : d.live.lookup raw with
  | none => rw [bindLive_of_none h]
  | some previous =>
    rw [bindLive_of_some h]
    split <;> rfl

theorem liveIds_bindLive :
    (d.bindLive raw f).1.liveIds.lookup id =
      if d.drops raw f id then none else d.liveIds.lookup id := by
  cases h : d.live.lookup raw with
  | none =>
    rw [bindLive_of_none h, drops_of_none h]
    rfl
  | some previous =>
    rw [bindLive_of_some h]
    by_cases hid : id = previous.id
    · subst hid
      split
      · simp
      · rfl
    · rw [drops_of_ne h hid]
      split
      · simp [hid]
      · rfl

theorem replaced_bindLive :
    (d.bindLive raw f).1.replaced.lookup id =
      if d.drops raw f id then d.live.lookup raw else d.replaced.lookup id := by
  cases h : d.live.lookup raw with
  | none =>
    rw [bindLive_of_none h, drops_of_none h]
    rfl
  | some previous =>
    rw [bindLive_of_some h]
    by_cases hid : id = previous.id
    · subst hid
      split
      · simp
      · rfl
    · rw [drops_of_ne h hid]
      split
      · simp [hid]
      · rfl

theorem names_bindLive :
    (d.bindLive raw f).1.unstable = (d.noteBinding raw f).unstable ∧
      (d.bindLive raw f).1.redefined = (d.noteBinding raw f).redefined := by
  cases h : d.live.lookup raw with
  | none => rw [bindLive_of_none h]; exact ⟨rfl, rfl⟩
  | some previous =>
    rw [bindLive_of_some h]
    split <;> exact ⟨rfl, rfl⟩

/-! ## The invariant -/

/-- The table is a faithful record of the bindings. -/
structure Indexed (d : Definitions) (bindings : Set Binding) : Prop where
  live_bound : ∀ raw f, d.live.lookup raw = some f → f.binding raw ∈ bindings
  bound_live : ∀ b ∈ bindings, (d.live.lookup b.name).isSome = true
  index : ∀ id raw, d.liveIds.lookup id = some raw →
    ∃ f, d.live.lookup raw = some f ∧ f.id = id
  replaced : ∀ id f, d.replaced.lookup id = some f → f.id = id
  formals : ∀ b ∈ bindings, ∀ b' ∈ bindings,
    semanticArgumentName b.name = semanticArgumentName b'.name →
    semanticArgumentName b.name ∉ d.unstable → b.formals = b'.formals
  literal : ∀ b ∈ bindings, ∀ b' ∈ bindings,
    semanticArgumentName b.name = semanticArgumentName b'.name →
    semanticArgumentName b.name ∉ d.redefined → b.id = b'.id

/-- An identity is one literal's. -/
def Sourced (bindings : Set Binding) : Prop :=
  ∀ b ∈ bindings, ∀ b' ∈ bindings, b.id = b'.id → b.formals = b'.formals

theorem Sourced.mono {bs bs' : Set Binding} (h : Sourced bs') (hsub : bs ⊆ bs') : Sourced bs :=
  fun b hb b' hb' => h b (hsub hb) b' (hsub hb')

/-- The literal is found by its identity. -/
def Recorded (d : Definitions) (id : FunctionId) : Prop :=
  d.isLive id = true ∨ (d.replaced.lookup id).isSome = true

theorem indexed_empty : empty.Indexed ∅ where
  live_bound raw f h := by simp [empty] at h
  bound_live b hb := absurd hb (Set.notMem_empty b)
  index id raw h := by simp [empty] at h
  replaced id f h := by simp [empty] at h
  formals b hb := absurd hb (Set.notMem_empty b)
  literal b hb := absurd hb (Set.notMem_empty b)

section BindLive

variable {bindings : Set Binding} (hd : d.Indexed bindings)
include hd

/-- A binding of the name that is on record is live under its spelling, and is one of
the others unless it is the same literal. -/
theorem Indexed.mem_others {b : Binding} (hb : b ∈ bindings)
    (hname : semanticArgumentName b.name = semanticArgumentName raw) :
    ∃ g, g.binding b.name ∈ bindings ∧ (g.id = id ∨ g ∈ d.others raw id) := by
  obtain ⟨g, hg⟩ := Option.isSome_iff_exists.mp (hd.bound_live b hb)
  refine ⟨g, hd.live_bound b.name g hg, or_iff_not_imp_left.mpr fun hne => ?_⟩
  have hspelled : b.name ∈ spellings (semanticArgumentName raw) := hname ▸ mem_spellings b.name
  simp only [others, List.mem_filter, List.mem_filterMap, bne_iff_ne, ne_eq]
  exact ⟨⟨b.name, hspelled, hg⟩, hne⟩

theorem Indexed.formals_bindLive (hsourced : Sourced (insert (f.binding raw) bindings))
    {b : Binding} (hb : b ∈ bindings)
    (hname : semanticArgumentName b.name = semanticArgumentName raw)
    (hstable : semanticArgumentName raw ∉ (d.noteBinding raw f).unstable) :
    b.formals = f.formals := by
  have hagree : (d.others raw f.id).any (!·.formalsAgree f) = false := by
    by_contra hnot
    rw [Bool.not_eq_false] at hnot
    exact hstable (by simp [noteBinding, hnot])
  have hold : semanticArgumentName raw ∉ d.unstable := by
    simpa [noteBinding, hagree] using hstable
  obtain ⟨g, hg, hid | hmem⟩ : ∃ g, g.binding b.name ∈ bindings ∧
      (g.id = f.id ∨ g ∈ d.others raw f.id) := hd.mem_others hb hname
  · have hsame := hd.formals b hb _ hg rfl (hname ▸ hold)
    exact hsame.trans (hsourced _ (.inr hg) _ (.inl rfl) hid)
  · have hsame := hd.formals b hb _ hg rfl (hname ▸ hold)
    have hg : g.formalsAgree f = true := by simpa using List.any_eq_false.mp hagree g hmem
    exact hsame.trans ((g.formalsAgree_iff f).mp hg)

theorem Indexed.literal_bindLive {b : Binding} (hb : b ∈ bindings)
    (hname : semanticArgumentName b.name = semanticArgumentName raw)
    (honce : semanticArgumentName raw ∉ (d.noteBinding raw f).redefined) : b.id = f.id := by
  have hempty : (d.others raw f.id).isEmpty = true := by
    by_contra hnot
    exact honce (by simp [noteBinding, hnot])
  have hold : semanticArgumentName raw ∉ d.redefined := by
    simpa [noteBinding, hempty] using honce
  obtain ⟨g, hg, hid | hmem⟩ : ∃ g, g.binding b.name ∈ bindings ∧
      (g.id = f.id ∨ g ∈ d.others raw f.id) := hd.mem_others hb hname
  · exact (hd.literal b hb _ hg rfl (hname ▸ hold)).trans hid
  · rw [List.isEmpty_iff.mp hempty] at hmem
    simp at hmem

theorem Indexed.bindLive (hsourced : Sourced (insert (f.binding raw) bindings)) :
    (d.bindLive raw f).1.Indexed (insert (f.binding raw) bindings) where
  live_bound n g h := by
    rw [live_bindLive] at h
    split at h
    · rename_i hn
      obtain rfl := Option.some.inj h
      exact .inl (hn ▸ rfl)
    · exact .inr (hd.live_bound n g h)
  bound_live b hb := by
    rw [live_bindLive]
    split
    · rfl
    · rename_i hn
      rcases hb with rfl | hb
      · exact absurd rfl hn
      · exact hd.bound_live b hb
  index id n h := by
    rw [liveIds_bindLive] at h
    split at h
    · simp at h
    · rename_i hkept
      obtain ⟨g, hg, hid⟩ := hd.index id n h
      rw [live_bindLive]
      split
      · -- the index has `raw` for `id`, and it was not dropped: the literal is bound again
        rename_i hn
        subst hn
        refine ⟨f, rfl, ?_⟩
        by_contra hne
        exact hkept (by simp [drops, hg, hid, h, Ne.symm hne])
      · exact ⟨g, hg, hid⟩
  replaced id g h := by
    rw [replaced_bindLive] at h
    split at h
    · rename_i hdrop
      simpa [drops, h, and_assoc] using (Bool.and_eq_true_iff.mp (Bool.and_eq_true_iff.mp hdrop).1).1
    · exact hd.replaced id g h
  formals b hb b' hb' hname hstable := by
    rw [names_bindLive.1] at hstable
    rcases hb with rfl | hb <;> rcases hb' with rfl | hb'
    · rfl
    · exact (hd.formals_bindLive hsourced hb' hname.symm hstable).symm
    · exact hd.formals_bindLive hsourced hb hname (hname ▸ hstable)
    · refine hd.formals b hb b' hb' hname fun hold => hstable ?_
      simp only [noteBinding]
      split
      · exact Finset.mem_insert_of_mem hold
      · exact hold
  literal b hb b' hb' hname honce := by
    rw [names_bindLive.2] at honce
    rcases hb with rfl | hb <;> rcases hb' with rfl | hb'
    · rfl
    · exact (hd.literal_bindLive hb' hname.symm honce).symm
    · exact hd.literal_bindLive hb hname (hname ▸ honce)
    · refine hd.literal b hb b' hb' hname fun hold => honce ?_
      simp only [noteBinding]
      split
      · exact hold
      · exact Finset.mem_insert_of_mem hold

end BindLive

theorem Recorded.bindLive (h : d.Recorded id) : (d.bindLive raw f).1.Recorded id := by
  unfold Recorded isLive
  rw [liveIds_bindLive, replaced_bindLive]
  split
  · rename_i hdrop
    right
    have hlive : (d.live.lookup raw).any (·.id == id) = true :=
      (Bool.and_eq_true_iff.mp (Bool.and_eq_true_iff.mp hdrop).1).1
    cases hraw : d.live.lookup raw with
    | none => simp [hraw] at hlive
    | some g => rfl
  · exact h

/-! ## Appending -/

/-- The bindings a table's live entries make. -/
def liveBindings (later : Definitions) (names : List String) : Set Binding :=
  { b | ∃ raw ∈ names, ∃ f, later.live.lookup raw = some f ∧ b = f.binding raw }

section Append

variable {slotOffset : Nat} {names : List String}

theorem indexed_appendLives {bindings : Set Binding} (hd : d.Indexed bindings)
    (hsourced : Sourced (bindings ∪ later.liveBindings names)) :
    (names.foldl (later.appendLive slotOffset) d).Indexed
      (bindings ∪ later.liveBindings names) := by
  induction names generalizing d bindings with
  | nil => simpa [liveBindings] using hd
  | cons raw names ih =>
    rw [List.foldl_cons]
    cases hraw : later.live.lookup raw with
    | none =>
      have hskip : later.appendLive slotOffset d raw = d := by simp [appendLive, hraw]
      have hlive : later.liveBindings (raw :: names) = later.liveBindings names := by
        ext b
        simp [liveBindings, hraw]
      rw [hskip, hlive]
      exact ih hd (hlive ▸ hsourced)
    | some f =>
      have hstep : later.appendLive slotOffset d raw = (d.bindLive raw (f.shift slotOffset)).1 := by
        simp [appendLive, hraw]
      have hlive : bindings ∪ later.liveBindings (raw :: names) =
          insert (f.binding raw) bindings ∪ later.liveBindings names := by
        ext b
        simp only [liveBindings, List.mem_cons, Set.mem_union, Set.mem_ofPred_eq, Set.mem_insert_iff,
          exists_eq_or_imp, hraw, Option.some.injEq, exists_eq_left']
        tauto
      rw [hstep, hlive]
      rw [hlive] at hsourced
      exact ih (hd.bindLive (hsourced.mono Set.subset_union_left)) hsourced

theorem live_appendLive (n raw : String) :
    (later.appendLive slotOffset d n).live.lookup raw =
      if raw = n then ((later.live.lookup raw).map (·.shift slotOffset)).or (d.live.lookup raw)
      else d.live.lookup raw := by
  unfold appendLive
  cases hraw : later.live.lookup n with
  | none =>
    split
    · rename_i hn
      rw [hn, hraw]
      rfl
    · rfl
  | some f =>
    rw [Option.elim_some, live_bindLive]
    split
    · rename_i hn
      rw [hn, hraw]
      rfl
    · rfl

theorem live_appendLives (raw : String) :
    (names.foldl (later.appendLive slotOffset) d).live.lookup raw =
      if raw ∈ names then
        ((later.live.lookup raw).map (·.shift slotOffset)).or (d.live.lookup raw)
      else d.live.lookup raw := by
  induction names generalizing d with
  | nil => rfl
  | cons n names ih =>
    rw [List.foldl_cons, ih, live_appendLive]
    by_cases hn : raw = n
    · subst hn
      cases later.live.lookup raw <;> simp
    · simp [hn]

theorem recorded_appendLives (h : d.Recorded id) :
    (names.foldl (later.appendLive slotOffset) d).Recorded id := by
  induction names generalizing d with
  | nil => exact h
  | cons raw names ih =>
    rw [List.foldl_cons]
    refine ih ?_
    unfold appendLive
    cases later.live.lookup raw with
    | none => exact h
    | some f => exact h.bindLive

/-- The later table binds a spelling that the index has for the literal anew. -/
def rebinds (later : Definitions) (names : List String) (id : FunctionId) (raw : String) : Bool :=
  raw ∈ names && (later.live.lookup raw).any (·.id != id)

theorem rebinds_cons (n : String) :
    later.rebinds (n :: names) id raw =
      (decide (raw = n) && (later.live.lookup raw).any (·.id != id) || later.rebinds names id raw) := by
  by_cases hn : raw = n <;> by_cases hmem : raw ∈ names <;> simp [rebinds, hn, hmem]

variable (later slotOffset) in
theorem liveIds_appendLive (n : String)
    (hindex : ∀ raw, d.liveIds.lookup id = some raw →
      ∃ f, d.live.lookup raw = some f ∧ f.id = id) :
    (later.appendLive slotOffset d n).liveIds.lookup id =
      if (d.liveIds.lookup id).any (fun raw => decide (raw = n) &&
        (later.live.lookup raw).any (·.id != id)) then none
      else d.liveIds.lookup id := by
  unfold appendLive
  cases hn : later.live.lookup n with
  | none =>
    cases hid : d.liveIds.lookup id with
    | none => simp [hid]
    | some raw =>
      by_cases hraw : raw = n
      · simp [hid, hraw, hn]
      · simp [hid, hraw]
  | some f =>
    rw [Option.elim_some, liveIds_bindLive]
    congr 1
    cases hid : d.liveIds.lookup id with
    | none => simp [drops, hid]
    | some raw =>
      by_cases hraw : raw = n
      · obtain ⟨g, hg, rfl⟩ := hindex raw hid
        subst hraw
        simp [drops, hg, hid, hn]
        exact ne_comm
      · simp [drops, hid, hraw]

theorem liveIds_appendLives
    (hindex : ∀ raw, d.liveIds.lookup id = some raw →
      ∃ f, d.live.lookup raw = some f ∧ f.id = id) :
    (names.foldl (later.appendLive slotOffset) d).liveIds.lookup id =
      if (d.liveIds.lookup id).any (later.rebinds names id) then none
      else d.liveIds.lookup id := by
  induction names generalizing d with
  | nil => cases h : d.liveIds.lookup id <;> simp [rebinds, h]
  | cons n names ih =>
    have hstep := liveIds_appendLive later slotOffset n hindex
    rw [List.foldl_cons, ih]
    · rw [hstep]
      cases hid : d.liveIds.lookup id with
      | none => simp
      | some raw =>
        cases hdrop : decide (raw = n) && (later.live.lookup raw).any (·.id != id) <;>
          simp [rebinds_cons, hdrop]
    · intro raw hraw
      rw [hstep] at hraw
      split at hraw
      · simp at hraw
      · rename_i hkept
        obtain ⟨g, hg, hid⟩ := hindex raw hraw
        rw [live_appendLive]
        split
        · rename_i hn
          cases hlater : later.live.lookup raw with
          | none => exact ⟨g, hg, hid⟩
          | some f => exact ⟨f.shift slotOffset, rfl, by
            subst hn
            simpa [hraw, hlater] using hkept⟩
        · exact ⟨g, hg, hid⟩

/-- An append keeps the invariant, whatever order it visits the later names in. -/
theorem Indexed.append {bindings laterBindings : Set Binding} (hd : d.Indexed bindings)
    (hlater : later.Indexed laterBindings) (hsourced : Sourced (bindings ∪ laterBindings))
    (order : IterOrder) :
    (d.append later order slotOffset).Indexed (bindings ∪ laterBindings) := by
  have hlive : ∀ b ∈ later.liveBindings (order.list later.live.keys), b ∈ laterBindings := by
    rintro b ⟨raw, -, f, hf, rfl⟩
    exact hlater.live_bound raw f hf
  have hvisited : ∀ raw f, later.live.lookup raw = some f → raw ∈ order.list later.live.keys := by
    intro raw f hf
    rw [order.mem, Table.mem_keys_iff, hf]
    rfl
  have hmerged : ((order.list later.live.keys).foldl (later.appendLive slotOffset) d).Indexed
      (bindings ∪ later.liveBindings (order.list later.live.keys)) :=
    indexed_appendLives hd (hsourced.mono (Set.union_subset_union_right bindings hlive))
  -- a binding of either table has one beside it in the merged entries
  have hrepresented : ∀ b ∈ bindings ∪ laterBindings, ∃ c ∈ bindings ∪
      later.liveBindings (order.list later.live.keys), c.name = b.name ∧
        (semanticArgumentName b.name ∉ later.unstable → c.formals = b.formals) ∧
        (semanticArgumentName b.name ∉ later.redefined → c.id = b.id) := by
    rintro b (hb | hb)
    · exact ⟨b, .inl hb, rfl, fun _ => rfl, fun _ => rfl⟩
    · obtain ⟨f, hf⟩ := Option.isSome_iff_exists.mp (hlater.bound_live b hb)
      have hc := hlater.live_bound b.name f hf
      exact ⟨f.binding b.name, .inr ⟨b.name, hvisited _ f hf, f, hf, rfl⟩, rfl,
        fun hstable => hlater.formals _ hc b hb rfl hstable,
        fun honce => hlater.literal _ hc b hb rfl honce⟩
  exact {
    live_bound := fun raw f h => Set.union_subset_union_right bindings hlive
      (hmerged.live_bound raw f h)
    bound_live := by
      intro b hb
      obtain ⟨c, hc, hname, -⟩ := hrepresented b hb
      exact hname ▸ hmerged.bound_live c hc
    index := by
      intro id raw h
      rw [show (d.append later order slotOffset).liveIds.lookup id = _ from
        Table.lookup_extend _ later.liveIds id] at h
      cases hid : later.liveIds.lookup id with
      | none =>
        rw [hid] at h
        exact hmerged.index id raw h
      | some raw' =>
        rw [hid, Option.some_or] at h
        obtain rfl := Option.some.inj h
        obtain ⟨f, hf, rfl⟩ := hlater.index id raw' hid
        refine ⟨f.shift slotOffset, ?_, rfl⟩
        refine (live_appendLives raw').trans ?_
        rw [if_pos (hvisited raw' f hf), hf]
        rfl
    replaced := by
      intro id f h
      rw [show (d.append later order slotOffset).replaced.lookup id = _ from
        Table.lookup_extend _ _ id, Table.lookup_mapValues] at h
      cases hid : later.replaced.lookup id with
      | none =>
        rw [hid] at h
        exact hmerged.replaced id f h
      | some g =>
        rw [hid] at h
        obtain rfl := Option.some.inj h
        exact hlater.replaced id g hid
    formals := by
      intro b hb b' hb' hname hstable
      obtain ⟨hmergedStable, hlaterStable⟩ := not_or.mp (mt Finset.mem_union.mpr hstable)
      obtain ⟨c, hc, hcname, hcformals, -⟩ := hrepresented b hb
      obtain ⟨c', hc', hcname', hcformals', -⟩ := hrepresented b' hb'
      have hsame := hmerged.formals c hc c' hc' (by rw [hcname, hcname', hname])
        (by rwa [hcname])
      exact (hcformals hlaterStable).symm.trans
        (hsame.trans (hcformals' (hname ▸ hlaterStable)))
    literal := by
      intro b hb b' hb' hname honce
      obtain ⟨hmergedOnce, hlaterOnce⟩ := not_or.mp (mt Finset.mem_union.mpr honce)
      obtain ⟨c, hc, hcname, -, hcid⟩ := hrepresented b hb
      obtain ⟨c', hc', hcname', -, hcid'⟩ := hrepresented b' hb'
      have hsame := hmerged.literal c hc c' hc' (by rw [hcname, hcname', hname])
        (by rwa [hcname])
      exact (hcid hlaterOnce).symm.trans (hsame.trans (hcid' (hname ▸ hlaterOnce))) }

theorem Recorded.append (h : d.Recorded id ∨ later.Recorded id) (order : IterOrder) :
    (d.append later order slotOffset).Recorded id := by
  unfold Recorded isLive
  rw [show (d.append later order slotOffset).liveIds.lookup id = _ from
      Table.lookup_extend _ later.liveIds id,
    show (d.append later order slotOffset).replaced.lookup id = _ from
      Table.lookup_extend _ _ id, Table.lookup_mapValues]
  simp only [Option.isSome_or, Option.isSome_map, Bool.or_eq_true]
  rcases h with h | h
  · have hmerged : ((order.list later.live.keys).foldl (later.appendLive slotOffset) d).Recorded id :=
      recorded_appendLives h
    exact hmerged.imp .inr .inr
  · exact h.imp .inl .inl

end Append

/-! ## What the index misses -/

/-- Every literal with a live entry is in the index. -/
def Listed (d : Definitions) : Prop :=
  ∀ raw f, d.live.lookup raw = some f → d.isLive f.id = true

/-- Binding `raw` takes a literal out of the index that another spelling goes on binding. -/
def Orphans (d : Definitions) (raw : String) (f : UserFn) : Prop :=
  ∃ other g, other ≠ raw ∧ d.live.lookup other = some g ∧ d.drops raw f g.id = true

/-- The later table binds the spelling a literal is indexed under to another literal, and
knows neither that literal nor the spelling that goes on binding it. -/
def AppendOrphans (d later : Definitions) : Prop :=
  ∃ other g raw f, d.live.lookup other = some g ∧ later.live.lookup other = none ∧
    d.liveIds.lookup g.id = some raw ∧ later.live.lookup raw = some f ∧ f.id ≠ g.id ∧
    later.liveIds.lookup g.id = none

theorem isLive_bind :
    (d.bind raw f).1.isLive id = if id = f.id then true else !d.drops raw f id && d.isLive id := by
  have hindex : (d.bind raw f).1.liveIds = (d.bindLive raw f).1.liveIds.insert f.id raw := rfl
  unfold isLive
  rw [hindex, Table.lookup_insert, liveIds_bindLive]
  split
  · rfl
  · cases d.drops raw f id <;> rfl

theorem live_bind (n : String) :
    (d.bind raw f).1.live.lookup n = if n = raw then some f else d.live.lookup n :=
  live_bindLive n

theorem Indexed.bind {bindings : Set Binding} (hd : d.Indexed bindings)
    (hsourced : Sourced (insert (f.binding raw) bindings)) :
    (d.bind raw f).1.Indexed (insert (f.binding raw) bindings) :=
  { hd.bindLive hsourced with
    index := by
      intro id n h
      rw [show (d.bind raw f).1.liveIds.lookup id = _ from Table.lookup_insert _ id f.id raw] at h
      split at h
      · rename_i hid
        obtain rfl := Option.some.inj h
        exact ⟨f, by rw [live_bind, if_pos rfl], hid.symm⟩
      · exact (hd.bindLive hsourced).index id n h }

theorem recorded_bind (raw : String) (f : UserFn) : (d.bind raw f).1.Recorded f.id :=
  .inl (by rw [isLive_bind, if_pos rfl])

theorem Recorded.bind (h : d.Recorded id) : (d.bind raw f).1.Recorded id := by
  by_cases hid : id = f.id
  · exact hid ▸ recorded_bind raw f
  · refine (show (d.bindLive raw f).1.Recorded id from h.bindLive).imp_left fun hlive => ?_
    unfold isLive at hlive ⊢
    rw [show (d.bind raw f).1.liveIds.lookup id = _ from Table.lookup_insert _ id f.id raw,
      if_neg hid]
    exact hlive

theorem Indexed.markUnstable {bindings : Set Binding} (hd : d.Indexed bindings) (name : String) :
    (d.markUnstable name).Indexed bindings :=
  { hd with
    formals := fun b hb b' hb' hname hstable =>
      hd.formals b hb b' hb' hname fun hold => hstable (Finset.mem_insert_of_mem hold) }

theorem listed_bind_iff (hlisted : d.Listed) : (d.bind raw f).1.Listed ↔ ¬ d.Orphans raw f := by
  constructor
  · rintro h ⟨other, g, hne, hg, hdrop⟩
    have hlive := h other g (by rw [live_bind, if_neg hne, hg])
    have hid : g.id ≠ f.id := by
      have hparts := Bool.and_eq_true_iff.mp (Bool.and_eq_true_iff.mp hdrop).1
      simpa using hparts.2
    rw [isLive_bind, if_neg hid, hdrop] at hlive
    exact absurd hlive nofun
  · intro h n g hg
    rw [live_bind] at hg
    rw [isLive_bind]
    split at hg
    · obtain rfl := Option.some.inj hg
      rw [if_pos rfl]
    · rename_i hne
      split
      · rfl
      · rw [hlisted n g hg, Bool.and_true, Bool.not_eq_true']
        by_contra hdrop
        exact h ⟨n, g, hne, hg, by simpa using hdrop⟩

section Append

variable {slotOffset : Nat}

variable (later slotOffset) in
theorem isLive_append (order : IterOrder)
    (hindex : ∀ raw, d.liveIds.lookup id = some raw →
      ∃ f, d.live.lookup raw = some f ∧ f.id = id) :
    (d.append later order slotOffset).isLive id =
      (later.isLive id ||
        !(d.liveIds.lookup id).any (later.rebinds (order.list later.live.keys) id) &&
          d.isLive id) := by
  unfold isLive
  rw [show (d.append later order slotOffset).liveIds.lookup id = _ from
    Table.lookup_extend _ later.liveIds id, liveIds_appendLives hindex, Option.isSome_or]
  congr 1
  split
  · rename_i h
    rw [h]
    rfl
  · rename_i h
    rw [Bool.not_eq_true] at h
    rw [h]
    rfl

theorem live_append (order : IterOrder) (n : String) :
    (d.append later order slotOffset).live.lookup n =
      ((later.live.lookup n).map (·.shift slotOffset)).or (d.live.lookup n) := by
  refine (live_appendLives n).trans ?_
  split
  · rfl
  · rename_i h
    rw [order.mem, Table.mem_keys_iff, Bool.not_eq_true, Option.isSome_eq_false_iff,
      Option.isNone_iff_eq_none] at h
    rw [h]
    rfl

theorem rebinds_keys (order : IterOrder) :
    later.rebinds (order.list later.live.keys) id raw =
      (later.live.lookup raw).any (·.id != id) := by
  unfold rebinds
  cases h : later.live.lookup raw with
  | none => simp
  | some f =>
    have hmem : raw ∈ order.list later.live.keys := by
      rw [order.mem, Table.mem_keys_iff, h]
      rfl
    simp [hmem]

theorem listed_append_iff {bindings : Set Binding} (hd : d.Indexed bindings)
    (hlisted : d.Listed) (hlater : later.Listed) (order : IterOrder) :
    (d.append later order slotOffset).Listed ↔ ¬ d.AppendOrphans later := by
  have hlive := fun id => isLive_append later slotOffset order (hd.index id)
  constructor
  · rintro h ⟨other, g, raw, f, hg, hother, hraw, hf, hne, hid⟩
    have hgone := h other g (by rw [live_append, hother, hg]; rfl)
    rw [hlive, hraw, Option.any_some, rebinds_keys, hf] at hgone
    simp [isLive, hid, hne] at hgone
  · intro h n g hg
    rw [live_append] at hg
    rw [hlive, Bool.or_eq_true]
    cases hn : later.live.lookup n with
    | some f =>
      rw [hn] at hg
      obtain rfl := Option.some.inj hg
      exact .inl (hlater n f hn)
    | none =>
      rw [hn] at hg
      by_cases hid : later.isLive g.id = true
      · exact .inl hid
      · right
        rw [hlisted n g hg, Bool.and_true, Bool.not_eq_true']
        by_contra hdrop
        rw [Bool.not_eq_false, Option.any_eq_true] at hdrop
        obtain ⟨raw, hraw, hrebinds⟩ := hdrop
        rw [rebinds_keys, Option.any_eq_true] at hrebinds
        obtain ⟨f, hf, hne⟩ := hrebinds
        exact h ⟨n, g, raw, f, hg, hn, hraw, hf, by simpa using hne, by
          simpa [isLive] using hid⟩

end Append

end Definitions

namespace Build

open Definitions

variable {b : Build}

def bindings (b : Build) : Set Binding := { c | ∃ p ∈ b.bound, c = p.2.binding p.1 }

/-- An identity is one literal's, under whatever names. -/
def Sourced (b : Build) : Prop := Definitions.Sourced b.bindings

/-- No step takes a literal out of the index that a spelling goes on binding. -/
def NeverOrphans : Build → Prop
  | new => True
  | bind earlier raw f => earlier.NeverOrphans ∧ ¬ earlier.table.Orphans raw f
  | append earlier later _ _ =>
    earlier.NeverOrphans ∧ later.NeverOrphans ∧ ¬ earlier.table.AppendOrphans later.table
  | markUnstable earlier _ => earlier.NeverOrphans

/-- The table answers exactly: which literals are live, which literal has an identity, and
which names have one contract or one literal. -/
structure Exact (b : Build) : Prop where
  isLive_iff : ∀ id, b.table.isLive id = true ↔
    ∃ raw f, b.table.live.lookup raw = some f ∧ f.id = id
  get_bound : ∀ p ∈ b.bound, ∃ f, b.table.get p.2.id = some f ∧ f.id = p.2.id
  contract : ∀ name, ∀ p ∈ b.bound, ∀ q ∈ b.bound,
    semanticArgumentName p.1 = semanticArgumentName name →
    semanticArgumentName q.1 = semanticArgumentName name →
    p.2.id ≠ q.2.id → p.2.formalsAgree q.2 = false → b.table.hasSingleContract name = false
  definition : ∀ name, ∀ p ∈ b.bound, ∀ q ∈ b.bound,
    semanticArgumentName p.1 = semanticArgumentName name →
    semanticArgumentName q.1 = semanticArgumentName name →
    p.2.id ≠ q.2.id → b.table.hasSingleDefinition name = false

theorem mem_bindings {p : String × UserFn} (hp : p ∈ b.bound) : p.2.binding p.1 ∈ b.bindings :=
  ⟨p, hp, rfl⟩

theorem bindings_new : bindings new = ∅ := by
  ext c
  simp [bindings, bound]

theorem bindings_bind (raw : String) (f : UserFn) :
    (bind b raw f).bindings = insert (f.binding raw) b.bindings := by
  ext c
  simp [bindings, bound]

theorem bindings_append (later : Build) (order : IterOrder) (slotOffset : Nat) :
    (append b later order slotOffset).bindings = b.bindings ∪ later.bindings := by
  ext c
  simp only [bindings, bound, List.mem_append, Set.mem_ofPred_eq, Set.mem_union, or_and_right,
    exists_or]

/-- Every table has the invariant, by induction on how it was built. -/
theorem indexed (hsourced : b.Sourced) : b.table.Indexed b.bindings := by
  induction b with
  | new => exact bindings_new ▸ indexed_empty
  | bind earlier raw f ih =>
    have hall : Definitions.Sourced (insert (f.binding raw) earlier.bindings) :=
      bindings_bind raw f ▸ hsourced
    exact bindings_bind raw f ▸ (ih (hall.mono (Set.subset_insert _ _))).bind hall
  | append earlier later order slotOffset ihEarlier ihLater =>
    have hall : Definitions.Sourced (earlier.bindings ∪ later.bindings) :=
      bindings_append later order slotOffset ▸ hsourced
    rw [bindings_append]
    exact (ihEarlier (hall.mono Set.subset_union_left)).append
      (ihLater (hall.mono Set.subset_union_right)) hall order
  | markUnstable earlier name ih => exact (ih hsourced).markUnstable name

theorem recorded {p : String × UserFn} (hp : p ∈ b.bound) : b.table.Recorded p.2.id := by
  induction b with
  | new => simp [bound] at hp
  | bind earlier raw f ih =>
    rcases List.mem_cons.mp hp with rfl | hp
    · exact recorded_bind raw f
    · exact (ih hp).bind
  | append earlier later order slotOffset ihEarlier ihLater =>
    exact Recorded.append ((List.mem_append.mp hp).imp ihEarlier ihLater) order
  | markUnstable earlier name ih => exact ih hp

/-- All that a table can get wrong is which literals are live. -/
theorem exact_iff_listed (hsourced : b.Sourced) : b.Exact ↔ b.table.Listed := by
  have hb := indexed hsourced
  constructor
  · exact fun h raw f hf => (h.isLive_iff f.id).mpr ⟨raw, f, hf, rfl⟩
  · intro hlisted
    have hformals : ∀ name, b.table.hasSingleContract name = true → ∀ p ∈ b.bound, ∀ q ∈ b.bound,
        semanticArgumentName p.1 = semanticArgumentName name →
        semanticArgumentName q.1 = semanticArgumentName name → p.2.formalsAgree q.2 = true := by
      intro name hsingle p hp q hq hpname hqname
      rw [UserFn.formalsAgree_iff]
      refine hb.formals _ (mem_bindings hp) _ (mem_bindings hq) (hpname.trans hqname.symm) ?_
      have hstable : semanticArgumentName name ∉ b.table.unstable := by
        simpa [hasSingleContract, marked] using hsingle
      exact hpname.symm ▸ hstable
    refine ⟨fun id => ⟨fun h => ?_, ?_⟩, fun p hp => ?_, ?_, ?_⟩
    · obtain ⟨raw, hraw⟩ := Option.isSome_iff_exists.mp h
      exact ⟨raw, hb.index id raw hraw⟩
    · rintro ⟨raw, f, hf, rfl⟩
      exact hlisted raw f hf
    · unfold Definitions.get
      cases hid : b.table.liveIds.lookup p.2.id with
      | some raw => exact hb.index _ raw hid
      | none =>
        have hreplaced : (b.table.replaced.lookup p.2.id).isSome = true :=
          (recorded hp).resolve_left (by simp [isLive, hid])
        obtain ⟨f, hf⟩ := Option.isSome_iff_exists.mp hreplaced
        exact ⟨f, hf, hb.replaced _ f hf⟩
    · intro name p hp q hq hpname hqname _ hdisagree
      by_contra hsingle
      rw [hformals name (by simpa using hsingle) p hp q hq hpname hqname] at hdisagree
      cases hdisagree
    · intro name p hp q hq hpname hqname hne
      by_contra hsingle
      have honce : semanticArgumentName name ∉ b.table.redefined := by
        have hparts := Bool.and_eq_true_iff.mp ((Bool.not_eq_false _).mp hsingle)
        simpa [marked] using hparts.2
      exact hne (hb.literal _ (mem_bindings hp) _ (mem_bindings hq) (hpname.trans hqname.symm)
        (hpname.symm ▸ honce))

theorem self_mem_reached (b : Build) : b ∈ b.reached := by
  cases b <;> simp [reached]

theorem bindings_subset_of_reached {b' : Build} (h : b' ∈ b.reached) : b'.bindings ⊆ b.bindings := by
  induction b with
  | new => rw [List.mem_singleton.mp h]
  | bind earlier raw f ih =>
    rcases List.mem_cons.mp h with rfl | h
    · exact subset_rfl
    · exact (ih h).trans (bindings_bind raw f ▸ Set.subset_insert _ _)
  | append earlier later order slotOffset ihEarlier ihLater =>
    rcases List.mem_cons.mp h with rfl | h
    · exact subset_rfl
    rw [bindings_append]
    rcases List.mem_append.mp h with h | h
    · exact (ihEarlier h).trans Set.subset_union_left
    · exact (ihLater h).trans Set.subset_union_right
  | markUnstable earlier name ih =>
    rcases List.mem_cons.mp h with rfl | h
    · exact subset_rfl
    · exact ih h

/-- The index stays complete exactly while no step orphans a literal. -/
theorem listed_iff (hsourced : b.Sourced) :
    (∀ b' ∈ b.reached, b'.table.Listed) ↔ b.NeverOrphans := by
  induction b with
  | new =>
    simp only [reached, List.mem_singleton, forall_eq, NeverOrphans, iff_true]
    intro raw f h
    simp [table, Definitions.empty] at h
  | bind earlier raw f ih =>
    have hearlier : earlier.Sourced :=
      hsourced.mono (bindings_bind raw f ▸ Set.subset_insert _ _)
    rw [reached, List.forall_mem_cons, ih hearlier, NeverOrphans, and_comm]
    refine and_congr_right fun hnever => ?_
    exact listed_bind_iff ((ih hearlier).mpr hnever _ (self_mem_reached earlier))
  | append earlier later order slotOffset ihEarlier ihLater =>
    have hall : Definitions.Sourced (earlier.bindings ∪ later.bindings) :=
      bindings_append later order slotOffset ▸ hsourced
    have hearlier : earlier.Sourced := hall.mono Set.subset_union_left
    have hlater : later.Sourced := hall.mono Set.subset_union_right
    rw [reached, List.forall_mem_cons, List.forall_mem_append, ihEarlier hearlier, ihLater hlater,
      NeverOrphans, and_comm, and_assoc]
    refine and_congr_right fun hneverEarlier => and_congr_right fun hneverLater => ?_
    exact listed_append_iff (indexed hearlier)
      ((ihEarlier hearlier).mpr hneverEarlier _ (self_mem_reached earlier))
      ((ihLater hlater).mpr hneverLater _ (self_mem_reached later)) order
  | markUnstable earlier name ih =>
    have hearlier : earlier.Sourced := hsourced
    rw [reached, List.forall_mem_cons, ih hearlier, NeverOrphans]
    refine and_iff_right_of_imp fun hnever => ?_
    have hlisted := (ih hearlier).mpr hnever earlier (self_mem_reached earlier)
    exact hlisted

/-- Every table on the way is exact if and only if no step takes a literal out of the index
that another spelling goes on binding. -/
theorem exact_iff (hsourced : b.Sourced) : (∀ b' ∈ b.reached, b'.Exact) ↔ b.NeverOrphans := by
  rw [← listed_iff hsourced]
  exact forall₂_congr fun b' hb' =>
    exact_iff_listed (hsourced.mono (bindings_subset_of_reached hb'))

end Build

/-! ## A literal of two names -/

/-- A literal without formals. -/
def literalAt (start : Nat) : UserFn where
  params := []
  sourcePath := "a.R"
  sourcePackage := none
  definitionSpan := ⟨start, start + 10, 1, start⟩
  returnSlot := 0

/-- One literal bound as `f` and as `g`, then another bound as `last`. -/
def twoNames (last : String) : Build :=
  .bind (.bind (.bind .new "f" (literalAt 1)) "g" (literalAt 1)) last (literalAt 20)

theorem twoNames_sourced (last : String) : (twoNames last).Sourced := by
  have hformals : ∀ c ∈ (twoNames last).bindings, c.formals = [] := by
    rintro c ⟨p, hp, rfl⟩
    simp only [twoNames, Build.bound, List.mem_cons, List.not_mem_nil, or_false] at hp
    rcases hp with rfl | rfl | rfl <;> rfl
  exact fun c hc c' hc' _ => (hformals c hc).trans (hformals c' hc').symm

theorem not_orphans_of_new {d : Definitions} {raw : String} {f : UserFn}
    (h : d.live.lookup raw = none) : ¬ d.Orphans raw f := by
  rintro ⟨other, g, -, -, hdrop⟩
  rw [Definitions.drops_of_none h] at hdrop
  exact absurd hdrop nofun

/-- A name of its own takes nothing from the index. -/
theorem neverOrphans_twoNames : (twoNames "h").NeverOrphans := by
  refine ⟨⟨⟨trivial, ?_⟩, ?_⟩, ?_⟩
  · exact not_orphans_of_new rfl
  · exact not_orphans_of_new ((Definitions.live_bind "g").trans rfl)
  · refine not_orphans_of_new ((Definitions.live_bind "h").trans ?_)
    exact (Definitions.live_bind "h").trans rfl

theorem exact_iff_twoNames :
    (twoNames "h").NeverOrphans ∧
      ((∀ b' ∈ (twoNames "h").reached, b'.Exact) ↔ (twoNames "h").NeverOrphans) :=
  ⟨neverOrphans_twoNames, Build.exact_iff (twoNames_sourced "h")⟩

/-- The index has `g` for the literal when `g` is bound anew, and `f` still binds it. -/
theorem twoNames_not_listed :
    ¬ ((twoNames "g").table.isLive (literalAt 1).id = true ↔
      ∃ raw f, (twoNames "g").table.live.lookup raw = some f ∧ f.id = (literalAt 1).id) := by
  have hgone : (twoNames "g").table.isLive (literalAt 1).id = false := by decide +kernel
  have hlive : (twoNames "g").table.live.lookup "f" = some (literalAt 1) :=
    (Definitions.live_bind "f").trans ((Definitions.live_bind "f").trans
      ((Definitions.live_bind "f").trans rfl))
  intro h
  exact absurd (hgone.symm.trans (h.mpr ⟨"f", literalAt 1, hlive, rfl⟩)) nofun

end Ry
