import Ry.Core.Lengths

/-! # The length of a built string vector

`longest_arg_length` is the length of what `paste` and `sprintf` return.  `paste` drops
empty arguments, so its result is as long as the longest one; an empty argument makes the
whole of `sprintf`'s result empty.  The cases `longest_arg_length` has no answer for
(nothing but empty arguments, an empty argument of `sprintf`) are answered by its callers
before they ask.
-/

namespace Ry

open Length (describes)

/-- The length of `paste`'s result: empty arguments are dropped. -/
def pasted (ns : List Nat) : Nat := ns.foldr max 0

/-- The length of `sprintf`'s result: an empty argument empties it. -/
def formatted (ns : List Nat) : Nat := if 0 ∈ ns then 0 else pasted ns

namespace Length

/-- One turn of the loop; `none` returns `Unknown` at once. -/
def longestStep : Length → Length → Option Length
  | zero, l | l, zero => some l
  | one, l | l, one => some l
  | known m, known n => some (known (max m n))
  | atLeast m, atLeast n => some (atLeast (max m n))
  | atLeast m, known n | known n, atLeast m => some (atLeast (max m n))
  -- a possibly empty operand cannot pull the maximum down
  | atLeast m, nonempty | atLeast m, unknown | nonempty, atLeast m | unknown, atLeast m =>
    some (atLeast m)
  | nonempty, known _ | known _, nonempty | nonempty, nonempty => some nonempty
  | nonempty, unknown | unknown, nonempty => some nonempty
  | _, _ => none

def longestFrom (longest : Length) : List RType → Length
  | [] => longest
  | t :: ts =>
    match longest.longestStep t.length with
    | some longest => longestFrom longest ts
    | none => unknown

def longestArgLength (argTypes : List RType) : Length := longestFrom one argTypes

/-- `sprintf`: an empty argument empties the result, and one that may be empty leaves no
lower bound. -/
def longestArgOrZero (argTypes : List RType) : Length :=
  if argTypes.any fun t => t.length = zero then zero
  else if argTypes.any fun t => t.length.minPossible = 0 then unknown
  else longestArgLength argTypes

/-- `paste` without `collapse` and `recycle0`, of the values bound to `...`. -/
def recycledValues (valueTypes : List RType) : Length :=
  if valueTypes.isEmpty || valueTypes.all fun t => t.length = zero then zero
  else longestArgLength valueTypes

/-! ## The longest argument -/

/-- An empty argument spelled `Known(0)` beside nothing longer than a scalar. -/
def MixesEmpty (ls : List Length) : Prop :=
  one ∈ ls ∧ known 0 ∈ ls ∧ ∀ l ∈ ls, l = zero ∨ l = one ∨ l = known 0

instance (ls : List Length) : Decidable (MixesEmpty ls) := by
  unfold MixesEmpty
  infer_instance

/-- No spelling of a length of one or of none; `Known(1)` counts as neither. -/
def Long (l : Length) : Prop := l ≠ zero ∧ l ≠ one ∧ l ≠ known 0

instance (l : Length) : Decidable l.Long := by
  unfold Long
  infer_instance

/-- What the loop knows after the arguments `ls`, the longest of them `n` long: that length, or
that nothing longer than a scalar was seen. -/
def Accounts (ls : List Length) (n : Nat) (longest : Length) : Prop :=
  longest = one ∧ (∀ l ∈ ls, l = zero ∨ l = one) ∧ n = (if one ∈ ls then 1 else 0) ∨
  longest = known 0 ∧ known 0 ∈ ls ∧ (∀ l ∈ ls, l = zero ∨ l = one ∨ l = known 0) ∧
    n = (if one ∈ ls then 1 else 0) ∨
  longest.Long ∧ longest.describes n = true

theorem accounts_start : Accounts [] 0 one := .inl ⟨rfl, by simp, by simp⟩

theorem le_one_of_scalars {ls : List Length} {n : Nat} (hn : n = if one ∈ ls then 1 else 0) :
    n ≤ 1 := by
  split at hn <;> omega

theorem accounts_scalars {ls : List Length} {n k : Nat} {l next : Length}
    (hsmall : ∀ l ∈ ls, l = zero ∨ l = one) (hn : n = if one ∈ ls then 1 else 0)
    (hk : l.describes k = true) (hstep : one.longestStep l = some next) :
    Accounts (ls ++ [l]) (max n k) next := by
  have hle := le_one_of_scalars hn
  cases l with
  | zero =>
    obtain rfl := (describes_zero k).mp hk
    obtain rfl := Option.some.inj hstep
    exact .inl ⟨rfl, List.forall_mem_append.mpr ⟨hsmall, by simp⟩, by simpa using hn⟩
  | one =>
    obtain rfl := (describes_one k).mp hk
    obtain rfl := Option.some.inj hstep
    refine .inl ⟨rfl, List.forall_mem_append.mpr ⟨hsmall, by simp⟩, ?_⟩
    simp only [List.mem_append, List.mem_singleton, or_true, if_true]
    omega
  | known m =>
    obtain rfl := (describes_known m k).mp hk
    obtain rfl := Option.some.inj hstep
    rcases k with _ | k
    · refine .inr (.inl ⟨rfl, by simp, ?_, by simpa using hn⟩)
      intro l hl
      rcases List.mem_append.mp hl with hl | hl
      · exact (hsmall l hl).imp_right .inl
      · exact .inr (.inr (List.mem_singleton.mp hl))
    · exact .inr (.inr ⟨by simp [Long], (describes_known _ _).mpr (by omega)⟩)
  | unknown => 
    obtain rfl := Option.some.inj hstep
    exact .inr (.inr ⟨by decide, describes_unknown _⟩)
  | nonempty =>
    obtain rfl := Option.some.inj hstep
    rw [describes_nonempty] at hk
    exact .inr (.inr ⟨by decide, (describes_nonempty _).mpr (by omega)⟩)
  | atLeast m =>
    obtain rfl := Option.some.inj hstep
    rw [describes_atLeast] at hk
    exact .inr (.inr ⟨by simp [Long], (describes_atLeast _ _).mpr (by omega)⟩)

theorem accounts_empty {ls : List Length} {n k : Nat} {l next : Length}
    (hempty : known 0 ∈ ls) (hsmall : ∀ l ∈ ls, l = zero ∨ l = one ∨ l = known 0)
    (hn : n = if one ∈ ls then 1 else 0) (hk : l.describes k = true)
    (hstep : (known 0).longestStep l = some next) : Accounts (ls ++ [l]) (max n k) next := by
  have hle := le_one_of_scalars hn
  have hempty' : known 0 ∈ ls ++ [l] := List.mem_append_left _ hempty
  cases l with
  | zero =>
    obtain rfl := (describes_zero k).mp hk
    obtain rfl := Option.some.inj hstep
    exact .inr (.inl ⟨rfl, hempty', List.forall_mem_append.mpr ⟨hsmall, by simp⟩, by simpa using hn⟩)
  | one =>
    obtain rfl := (describes_one k).mp hk
    obtain rfl := Option.some.inj hstep
    refine .inr (.inl ⟨rfl, hempty', List.forall_mem_append.mpr ⟨hsmall, by simp⟩, ?_⟩)
    simp only [List.mem_append, List.mem_singleton, or_true, if_true]
    omega
  | known m =>
    obtain rfl := (describes_known m k).mp hk
    obtain rfl := Option.some.inj hstep
    rcases k with _ | k
    · exact .inr (.inl ⟨rfl, hempty', List.forall_mem_append.mpr ⟨hsmall, by simp⟩, by simpa using hn⟩)
    · exact .inr (.inr ⟨by simp [Long], (describes_known _ _).mpr (by omega)⟩)
  | unknown => cases hstep
  | nonempty =>
    obtain rfl := Option.some.inj hstep
    rw [describes_nonempty] at hk
    exact .inr (.inr ⟨by decide, (describes_nonempty _).mpr (by omega)⟩)
  | atLeast m =>
    obtain rfl := Option.some.inj hstep
    rw [describes_atLeast] at hk
    exact .inr (.inr ⟨by simp [Long], (describes_atLeast _ _).mpr (by omega)⟩)

theorem long_longestStep {longest l next : Length} (h : longest.Long)
    (hstep : longest.longestStep l = some next) : next.Long := by
  obtain ⟨hzero, hone, hempty⟩ := h
  cases longest with
  | zero | one => contradiction
  | known m =>
    have hm : m ≠ 0 := fun h => hempty (h ▸ rfl)
    cases l <;> cases hstep <;> simp_all [Long]
  | unknown | nonempty | atLeast m => cases l <;> cases hstep <;> simp [Long]

theorem describes_longestStep {longest l next : Length} {n k : Nat} (h : longest.Long)
    (hn : longest.describes n = true) (hk : l.describes k = true)
    (hstep : longest.longestStep l = some next) : next.describes (max n k) = true := by
  obtain ⟨hzero, hone, hempty⟩ := h
  cases longest with
  | zero | one => contradiction
  | known m =>
    have hm : m ≠ 0 := fun h => hempty (h ▸ rfl)
    cases l <;> cases hstep <;> simp_all <;> omega
  | unknown | nonempty => cases l <;> cases hstep <;> simp_all
  | atLeast m => cases l <;> cases hstep <;> simp_all <;> omega

theorem accounts_step {ls : List Length} {n k : Nat} {longest l next : Length}
    (h : Accounts ls n longest) (hk : l.describes k = true)
    (hstep : longest.longestStep l = some next) : Accounts (ls ++ [l]) (max n k) next := by
  rcases h with ⟨rfl, hsmall, hn⟩ | ⟨rfl, hempty, hsmall, hn⟩ | ⟨hlong, hn⟩
  · exact accounts_scalars hsmall hn hk hstep
  · exact accounts_empty hempty hsmall hn hk hstep
  · exact .inr (.inr ⟨long_longestStep hlong hstep, describes_longestStep hlong hn hk hstep⟩)

theorem pasted_append (ns : List Nat) (k : Nat) : pasted (ns ++ [k]) = max (pasted ns) k := by
  induction ns with
  | nil => simp [pasted]
  | cons n ns ih =>
    simp only [pasted, List.cons_append, List.foldr_cons] at ih ⊢
    omega

/-- The loop accounts for every argument, or gave up. -/
theorem accounts_longestFrom {ts : List RType} {ks : List Nat}
    (h : List.Forall₂ (fun t k => t.length.describes k = true) ts ks) {ls : List Length}
    {ns : List Nat} {longest : Length} (hseen : Accounts ls (pasted ns) longest) :
    longest.longestFrom ts = unknown ∨
      Accounts (ls ++ ts.map RType.length) (pasted (ns ++ ks)) (longest.longestFrom ts) := by
  induction h generalizing ls ns longest with
  | nil => exact .inr (by simpa [longestFrom] using hseen)
  | @cons t k ts ks hk _ ih =>
    cases hstep : longest.longestStep t.length with
    | none => exact .inl (by simp [longestFrom, hstep])
    | some next =>
      have hnext := accounts_step hseen hk hstep
      rw [← pasted_append] at hnext
      simpa [longestFrom, hstep] using ih hnext

/-- `longest_arg_length` allows what `paste` returns, for any actual lengths, unless every
argument is `Zero`, which is its caller's case. -/
theorem describes_longestArgLength {ts : List RType} {ks : List Nat}
    (h : List.Forall₂ (fun t k => t.length.describes k = true) ts ks)
    (hzero : ∃ t ∈ ts, t.length ≠ zero) (hmixed : ¬ MixesEmpty (ts.map RType.length)) :
    (longestArgLength ts).describes (pasted ks) = true := by
  rcases @accounts_longestFrom ts ks h [] [] one accounts_start with hunknown | haccounts
  · rw [longestArgLength, hunknown]
    exact describes_unknown _
  · rw [List.nil_append, List.nil_append] at haccounts
    rcases haccounts with ⟨hone, hsmall, hn⟩ | ⟨hnone, hempty, hsmall, hn⟩ | ⟨-, h⟩
    · -- scalars and empty arguments: some argument is a scalar
      obtain ⟨t, ht, hne⟩ := hzero
      have hmem := List.mem_map_of_mem (f := RType.length) ht
      rw [(hsmall _ hmem).resolve_left hne] at hmem
      rw [longestArgLength, hone, hn, if_pos hmem]
      rfl
    · -- nothing but empty arguments, for a scalar beside them is excluded
      have hscalar : one ∉ ts.map RType.length := fun hmem => hmixed ⟨hmem, hempty, hsmall⟩
      rw [longestArgLength, hnone, hn, if_neg hscalar]
      rfl
    · exact h

theorem formatted_of_pos {ks : List Nat} (h : 0 ∉ ks) : formatted ks = pasted ks := if_neg h

theorem pasted_of_empty {ts : List RType} {ks : List Nat}
    (h : List.Forall₂ (fun t k => t.length.describes k = true) ts ks)
    (hzero : ∀ t ∈ ts, t.length = zero) : pasted ks = 0 := by
  induction h with
  | nil => rfl
  | @cons t k ts ks hk _ ih =>
    rw [List.forall_mem_cons] at hzero
    rw [hzero.1, describes_zero] at hk
    have hks := ih hzero.2
    simp only [pasted, List.foldr_cons] at hks ⊢
    omega

theorem zero_not_mem {ts : List RType} {ks : List Nat}
    (h : List.Forall₂ (fun t k => t.length.describes k = true) ts ks)
    (hpos : ∀ t ∈ ts, t.length.minPossible ≠ 0) : 0 ∉ ks := by
  induction h with
  | nil => simp
  | @cons t k ts ks hk _ ih =>
    rw [List.forall_mem_cons] at hpos
    have hmin := minPossible_le hk
    rw [List.mem_cons, not_or]
    exact ⟨by omega, ih hpos.2⟩

theorem zero_mem {ts : List RType} {ks : List Nat}
    (h : List.Forall₂ (fun t k => t.length.describes k = true) ts ks) {t : RType} (ht : t ∈ ts)
    (hzero : t.length = zero) : 0 ∈ ks := by
  induction h with
  | nil => cases ht
  | @cons u k ts ks hk _ ih =>
    rcases List.mem_cons.mp ht with rfl | ht
    · rw [hzero, describes_zero] at hk
      simp [hk]
    · exact List.mem_cons_of_mem k (ih ht)

theorem describes_formatted {ts : List RType} {ks : List Nat} (hne : ts ≠ [])
    (h : List.Forall₂ (fun t k => t.length.describes k = true) ts ks)
    (hpos : ∀ t ∈ ts, t.length.minPossible ≠ 0) :
    (longestArgLength ts).describes (formatted ks) = true := by
  rw [formatted_of_pos (zero_not_mem h hpos)]
  refine describes_longestArgLength h ?_ ?_
  · obtain ⟨t, ht⟩ := List.exists_mem_of_ne_nil ts hne
    refine ⟨t, ht, fun hzero => hpos t ht ?_⟩
    rw [hzero]
    rfl
  · rintro ⟨-, hempty, -⟩
    obtain ⟨t, ht, hzero⟩ := List.mem_map.mp hempty
    exact hpos t ht (by rw [hzero]; rfl)

/-- What `longest_arg_length` is an answer to, and that with its callers' own cases the
lengths of `paste` and `sprintf` are covered. -/
theorem built_lengths {ts : List RType} {ks : List Nat}
    (h : List.Forall₂ (fun t k => t.length.describes k = true) ts ks) :
    ((∃ t ∈ ts, t.length ≠ zero) → ¬ MixesEmpty (ts.map RType.length) →
      pasted ks ∈ (longestArgLength ts).set) ∧
    (ts ≠ [] → (∀ t ∈ ts, t.length.minPossible ≠ 0) →
      formatted ks ∈ (longestArgLength ts).set) ∧
    (¬ MixesEmpty (ts.map RType.length) → pasted ks ∈ (recycledValues ts).set) ∧
    (ts ≠ [] → formatted ks ∈ (longestArgOrZero ts).set) := by
  refine ⟨describes_longestArgLength h, fun hne => describes_formatted hne h, ?_, ?_⟩
  · intro hmixed
    unfold recycledValues
    split
    · rename_i hzero
      have hall : ∀ t ∈ ts, t.length = zero := by
        intro t ht
        have hne : ts ≠ [] := List.ne_nil_of_mem ht
        simp only [Bool.or_eq_true, List.isEmpty_iff, hne, false_or, List.all_eq_true,
          decide_eq_true_eq] at hzero
        exact hzero t ht
      rw [pasted_of_empty h hall]
      rfl
    · rename_i hzero
      refine describes_longestArgLength h ?_ hmixed
      simp only [Bool.or_eq_true, not_or, List.all_eq_true, decide_eq_true_eq, not_forall] at hzero
      obtain ⟨-, t, ht, hne⟩ := hzero
      exact ⟨t, ht, hne⟩
  · intro hne
    unfold longestArgOrZero
    split
    · rename_i hzero
      obtain ⟨t, ht, htzero⟩ := List.any_eq_true.mp hzero
      rw [formatted, if_pos (zero_mem h ht (of_decide_eq_true htzero))]
      rfl
    · split
      · exact describes_unknown _
      · rename_i hpos
        refine describes_formatted hne h fun t ht hmin => hpos ?_
        exact List.any_eq_true.mpr ⟨t, ht, decide_eq_true hmin⟩

/-- `paste("a", x, 1:3)` with an `x` that may be empty. -/
theorem built_lengths_paste :
    pasted [1, 0, 3] ∈ (recycledValues [RType.scalar .character, RType.new .character .unknown,
      RType.new .integer (.known 3)]).set :=
  (built_lengths (.cons rfl (.cons rfl (.cons rfl .nil)))).2.2.1 (by decide)

/-- `sprintf("%d", integer(0))` is empty, and so is `paste(character(0))`. -/
theorem longestArgLength_alone : ¬ ∀ (ts : List RType) (ks : List Nat),
    List.Forall₂ (fun t k => t.length.describes k = true) ts ks →
      pasted ks ∈ (longestArgLength ts).set ∧ formatted ks ∈ (longestArgLength ts).set := by
  intro h
  have hsprintf := h [RType.scalar .character, RType.new .integer .zero] [1, 0]
    (.cons rfl (.cons rfl .nil))
  exact absurd hsprintf.2 (by decide)

end Length
end Ry
