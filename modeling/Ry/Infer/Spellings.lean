import Ry.Infer.Condition

/-! # Two spellings of one length

`Zero` and `Known(0)` allow the same lengths, and so do `One` and `Known(1)`, `Unknown` and
`AtLeast(0)`, `Nonempty` and `AtLeast(1)`.  The questions the checker asks of a length match
its constructors, each for itself.  `respects_iff` lists which respellings, at any place
inside a type, leave which question's answer alone.
-/

namespace Ry

namespace Length

/-- One of the two lengths is spelled `a`, the other `b`. -/
def Swap (l l' a b : Length) : Prop := l = a ∧ l' = b ∨ l = b ∧ l' = a

instance (l l' a b : Length) : Decidable (Swap l l' a b) := by
  unfold Swap
  infer_instance

theorem le_of_set {l l' : Length} (h : l.set = l'.set) : l ≤ l' := fun _ hn => h ▸ hn

theorem exact_eq_of_set {l l' : Length} (h : l.set = l'.set) : l.exact = l'.exact := by
  cases hl : l.exact with
  | some k => exact (exact_eq_of_le (le_of_set h.symm) hl).symm
  | none =>
    cases hl' : l'.exact with
    | none => rfl
    | some k => simp [exact_eq_of_le (le_of_set h) hl'] at hl

theorem minPossible_eq_of_set {l l' : Length} (h : l.set = l'.set) :
    l.minPossible = l'.minPossible := by
  have hl : l.minPossible ∈ l'.set := h ▸ describes_minPossible l
  have hl' : l'.minPossible ∈ l.set := h ▸ describes_minPossible l'
  exact le_antisymm (minPossible_le hl') (minPossible_le hl)

/-- The spellings that differ and allow the same lengths. -/
theorem spellings {l l' : Length} (h : l.set = l'.set) :
    l = l' ∨ Swap l l' zero (known 0) ∨ Swap l l' one (known 1) ∨
      Swap l l' unknown (atLeast 0) ∨ Swap l l' nonempty (atLeast 1) := by
  have hexact := exact_eq_of_set h
  have hmin := minPossible_eq_of_set h
  cases l <;> cases l' <;> simp_all [exact, minPossible, Swap, eq_comm]

end Length

namespace RType

/-- `t'` is `t` with one length `l`, its own or one inside it, spelled `l'`. -/
inductive Respelled (l l' : Length) : RType → RType → Prop
  | own {t : RType} (h : t.length = l) : Respelled l l' t { t with length := l' }
  | member {t m m' : RType} {before after : List RType}
      (hms : t.members = some (before ++ m :: after)) (h : Respelled l l' m m') :
      Respelled l l' t { t with members := some (before ++ m' :: after) }
  | column {t c c' : RType} {s : ColumnSchema RType} {name : String}
      {before after : List (String × RType)} (hs : t.columns = some s)
      (hcs : s.columns = before ++ (name, c) :: after) (h : Respelled l l' c c') :
      Respelled l l' t
        { t with columns := some { s with columns := before ++ (name, c') :: after } }
  | param {t p p' : RType} {s : FunctionSignature RType} {before after : List RType}
      (hs : t.fnSig = some s) (hps : s.params = before ++ p :: after) (h : Respelled l l' p p') :
      Respelled l l' t { t with fnSig := some { s with params := before ++ p' :: after } }
  | returned {t r : RType} {s : FunctionSignature RType} (hs : t.fnSig = some s)
      (h : Respelled l l' s.returnType r) :
      Respelled l l' t { t with fnSig := some { s with returnType := r } }

/-- A walk over the leaves that reads lengths only sees a respelling as its test does. -/
theorem anyLeaf_respelled {q : Length → Bool} {l l' : Length} (hq : q l = q l') {t t' : RType}
    (h : Respelled l l' t t') : anyLeaf (q ·.length) t = anyLeaf (q ·.length) t' := by
  induction h with
  | @own t h =>
    obtain ⟨mode, length, cls, columns, fnSig, members, facts⟩ := t
    obtain rfl : length = l := h
    simp only [anyLeaf, hq]
  | @member t m m' before after hms _ ih =>
    obtain ⟨mode, length, cls, columns, fnSig, members, facts⟩ := t
    obtain rfl : members = _ := hms
    simp only [anyLeaf, anyLeafIn?, anyLeafIn_eq, List.any_append, List.any_cons, ih]
  | @column t | @param t | @returned t =>
    cases t
    rfl

theorem allInvalid_eq (ms : List RType) : allInvalid ms = ms.all invalidCondition := by
  induction ms with
  | nil => rfl
  | cons m ms ih => simp [allInvalid, ih]

theorem invalidCondition_respelled {l l' : Length} (hzero : l = .zero ↔ l' = .zero) {t t' : RType}
    (h : Respelled l l' t t') : t.invalidCondition = t'.invalidCondition := by
  induction h with
  | @own t h =>
    obtain ⟨mode, length, cls, columns, fnSig, members, facts⟩ := t
    obtain rfl : length = l := h
    cases mode <;> simp only [invalidCondition, hzero]
  | @member t m m' before after hms _ ih =>
    obtain ⟨mode, length, cls, columns, fnSig, members, facts⟩ := t
    obtain rfl : members = _ := hms
    cases mode <;> simp only [invalidCondition, allInvalid?, allInvalid_eq, List.all_append,
      List.all_cons, ih]
  | @column t | @param t | @returned t =>
    cases t
    rfl

theorem respelled_self {l : Length} {t t' : RType} (h : Respelled l l t t') : t' = t := by
  induction h with
  | @own t h =>
    cases t
    simpa using h.symm
  | @member t _ _ _ _ hms _ ih =>
    rw [ih, ← hms]
    cases t
    rfl
  | @column t _ _ _ _ _ _ hs hcs _ ih =>
    rw [ih, ← hcs, ← hs]
    cases t
    rfl
  | @param t _ _ _ _ _ hs hps _ ih =>
    rw [ih, ← hps, ← hs]
    cases t
    rfl
  | @returned t _ _ hs _ ih =>
    rw [ih, ← hs]
    cases t
    rfl

end RType

open RType

/-- A question the checker asks of a length, or of a type for its lengths. -/
inductive LengthVerdict
  | mayBeEmpty | provenAboveOne
  | conditionDiagnostic | switchExprLengthRejected | invalidCondition | carriesZeroLengthLeaf
deriving DecidableEq

namespace LengthVerdict

/-- The question has one answer for both types. -/
def Agrees (t t' : RType) : LengthVerdict → Prop
  | mayBeEmpty => t.length.mayBeEmpty = t'.length.mayBeEmpty
  | provenAboveOne => t.length.provenAboveOne = t'.length.provenAboveOne
  | conditionDiagnostic => t.conditionDiagnostic = t'.conditionDiagnostic
  | switchExprLengthRejected => t.switchExprLengthRejected = t'.switchExprLengthRejected
  | invalidCondition => t.invalidCondition = t'.invalidCondition
  | carriesZeroLengthLeaf => t.carriesZeroLengthLeaf = t'.carriesZeroLengthLeaf

/-- No type's answer changes when one of its lengths `l` is spelled `l'`. -/
def Respects (v : LengthVerdict) (l l' : Length) : Prop :=
  ∀ t t' : RType, Respelled l l' t t' → v.Agrees t t'

/-- The respellings that change no answer. -/
def Keeps (l l' : Length) : LengthVerdict → Prop
  | mayBeEmpty => ¬ l.Swap l' .zero (.known 0) ∧ ¬ l.Swap l' .unknown (.atLeast 0)
  | provenAboveOne => ¬ l.Swap l' .unknown (.atLeast 0) ∧ ¬ l.Swap l' .nonempty (.atLeast 1)
  | conditionDiagnostic => l = l'
  | switchExprLengthRejected => ¬ l.Swap l' .zero (.known 0) ∧
      ¬ l.Swap l' .unknown (.atLeast 0) ∧ ¬ l.Swap l' .nonempty (.atLeast 1)
  | invalidCondition | carriesZeroLengthLeaf => ¬ l.Swap l' .zero (.known 0)

/-- What decides a question's answer about a vector of this length. -/
def Test (l l' : Length) : LengthVerdict → Prop
  | mayBeEmpty => l.mayBeEmpty = l'.mayBeEmpty
  | provenAboveOne => l.provenAboveOne = l'.provenAboveOne
  | conditionDiagnostic => l = l'
  | switchExprLengthRejected => rejectedLength l = rejectedLength l'
  | invalidCondition | carriesZeroLengthLeaf => l = .zero ↔ l' = .zero

/-- Among equal lengths the tests tell these spellings apart. -/
theorem test_iff {l l' : Length} (h : l.set = l'.set) (v : LengthVerdict) :
    v.Test l l' ↔ v.Keeps l l' := by
  rcases Length.spellings h with rfl | h | h | h | h
  · cases v <;> simp only [Test, Keeps, Length.Swap, true_iff, iff_self] <;> grind
  all_goals
    rcases h with ⟨rfl, rfl⟩ | ⟨rfl, rfl⟩ <;> cases v <;>
      simp [Test, Keeps, Length.Swap, Length.mayBeEmpty, Length.provenAboveOne, rejectedLength]

theorem respelled_new (m : Mode) (l l' : Length) : Respelled l l' (new m l) (new m l') :=
  .own rfl

/-- The length of a type itself is all that `may_be_empty` and `proven_above_one` read. -/
theorem own_length {l l' : Length} {t t' : RType} (h : Respelled l l' t t') :
    t'.length = t.length ∨ t.length = l ∧ t'.length = l' := by
  cases h with
  | own h => exact .inr ⟨h, rfl⟩
  | member _ _ | column _ _ _ | param _ _ _ | returned _ _ => exact .inl rfl

/-- Of two equal lengths that a logical and a character condition do not tell apart, one is
the other. -/
theorem spelling_of_conditions {l l' : Length} (h : l.set = l'.set)
    (hlogical : (new .logical l).conditionDiagnostic = (new .logical l').conditionDiagnostic)
    (hcharacter : (new .character l).conditionDiagnostic = (new .character l').conditionDiagnostic) :
    l = l' := by
  rcases Length.spellings h with h | h | h | h | h
  · exact h
  · rcases h with ⟨rfl, rfl⟩ | ⟨rfl, rfl⟩ <;> exact absurd hlogical (by decide)
  · rcases h with ⟨rfl, rfl⟩ | ⟨rfl, rfl⟩ <;> exact absurd hcharacter (by decide)
  · rcases h with ⟨rfl, rfl⟩ | ⟨rfl, rfl⟩ <;> exact absurd hlogical (by decide)
  · rcases h with ⟨rfl, rfl⟩ | ⟨rfl, rfl⟩ <;> exact absurd hlogical (by decide)

/-- A respelling keeps a question's answers where the question's test does not see it. -/
theorem respects_iff_test {l l' : Length} (h : l.set = l'.set) (v : LengthVerdict) :
    v.Respects l l' ↔ v.Test l l' := by
  constructor
  · intro hv
    have hlogical := hv _ _ (respelled_new .logical l l')
    have hcharacter := hv _ _ (respelled_new .character l l')
    cases v with
    | mayBeEmpty | provenAboveOne | switchExprLengthRejected => exact hlogical
    | conditionDiagnostic => exact spelling_of_conditions h hlogical hcharacter
    | invalidCondition | carriesZeroLengthLeaf => exact decide_eq_decide.mp hlogical
  · intro htest t t' ht
    cases v with
    | mayBeEmpty =>
      rcases own_length ht with h | ⟨rfl, rfl⟩
      · rw [Agrees, h]
      · exact htest
    | provenAboveOne =>
      rcases own_length ht with h | ⟨rfl, rfl⟩
      · rw [Agrees, h]
      · exact htest
    | conditionDiagnostic =>
      obtain rfl : l = l' := htest
      rw [Agrees, respelled_self ht]
    | switchExprLengthRejected => exact anyLeaf_respelled (q := rejectedLength) htest ht
    | invalidCondition => exact invalidCondition_respelled htest ht
    | carriesZeroLengthLeaf =>
      exact anyLeaf_respelled (q := fun l => decide (l = .zero)) (decide_eq_decide.mpr htest) ht

end LengthVerdict
end Ry
