import Mathlib.Data.List.Basic
import Mathlib.Tactic.Common

/-! # A sweep over nested intervals

Intervals in the order in which they begin, where each is inside an earlier one or begins after its
end.  `advance` moves a position forward over them, with a stack of the intervals that are open: what
has ended is taken from the top, and what begins is put on.  The top is then the innermost interval
over the position (`Swept.head?_advance`), as long as the positions do not go back.
-/

namespace Sweep

variable {α : Type} (lo hi : α → Nat)

def Over (a : α) (pos : Nat) : Prop := lo a ≤ pos ∧ pos < hi a

instance (a : α) (pos : Nat) : Decidable (Over lo hi a pos) := instDecidableAnd

def Inside (b a : α) : Prop := lo a ≤ lo b ∧ hi b ≤ hi a

/-- Two intervals are nested or apart, and the later one begins later. -/
def Laminar (l : List α) : Prop := l.Pairwise fun a b => lo a < lo b ∧ (hi b ≤ hi a ∨ hi a ≤ lo b)

/-- The interval is over the position, and inside every other that is. -/
structure Innermost (l : List α) (pos : Nat) (a : α) : Prop where
  mem : a ∈ l
  around : Over lo hi a pos
  inside : ∀ b ∈ l, Over lo hi b pos → Inside lo hi a b

/-- The last that begins among those over the position. -/
def innermost? (l : List α) (pos : Nat) : Option α :=
  (l.filter fun a => decide (Over lo hi a pos)).getLast?

/-- Take off what has ended. -/
def settle (stack : List α) (pos : Nat) : List α := stack.dropWhile fun a => decide (hi a ≤ pos)

/-- Open what begins by the position: what is left, and the stack. -/
def openUpTo : List α → List α → Nat → List α × List α
  | [], stack, _ => ([], stack)
  | a :: rest, stack, pos =>
    if pos < lo a then (a :: rest, stack) else openUpTo rest (a :: settle hi stack (lo a)) pos

def advance (state : List α × List α) (pos : Nat) : List α × List α :=
  let opened := openUpTo lo hi state.1 state.2 pos
  (opened.1, settle hi opened.2 pos)

/-- What holds between two positions: `done` are the intervals that have begun. -/
structure Swept (l : List α) (pos : Nat) (rest stack : List α) : Prop where
  split : ∃ done, l = done ++ rest ∧ (∀ a ∈ done, lo a ≤ pos) ∧ (∀ a ∈ stack, a ∈ done) ∧
    ∀ a ∈ done, pos < hi a → a ∈ stack
  ahead : ∀ a ∈ rest, pos ≤ lo a
  nested : stack.Pairwise (Inside lo hi)

variable {lo hi}

/-! ## The innermost interval -/

theorem innermost?_iff {l : List α} (hl : Laminar lo hi l) {pos : Nat} {a : α} :
    innermost? lo hi l pos = some a ↔ Innermost lo hi l pos a := by
  have hover : ∀ b, b ∈ l.filter (fun a => decide (Over lo hi a pos)) ↔ b ∈ l ∧ Over lo hi b pos := by
    intro b
    rw [List.mem_filter, decide_eq_true_iff]
  have hsorted := List.Pairwise.filter (fun a => decide (Over lo hi a pos)) hl
  constructor
  · intro h
    obtain ⟨before, heq⟩ := List.getLast?_eq_some_iff.mp h
    have ha := (hover a).mp (by rw [heq]; exact List.mem_append_right _ List.mem_cons_self)
    refine ⟨ha.1, ha.2, fun b hb hbover => ?_⟩
    have hmem := (hover b).mpr ⟨hb, hbover⟩
    rw [heq] at hmem hsorted
    rcases List.mem_append.mp hmem with hmem | hmem
    · -- an earlier one that is over the position too is around it
      obtain ⟨hlt, hhi⟩ := (List.pairwise_append.mp hsorted).2.2 b hmem a List.mem_cons_self
      refine ⟨Nat.le_of_lt hlt, ?_⟩
      rcases hhi with hhi | hhi
      · exact hhi
      · have hle := ha.2.1
        have hend := hbover.2
        omega
    · rw [List.mem_singleton.mp hmem]
      exact ⟨Nat.le_refl _, Nat.le_refl _⟩
  · intro h
    have hmem := (hover a).mpr ⟨h.mem, h.around⟩
    obtain ⟨before, after, heq⟩ := List.append_of_mem hmem
    have hnil : after = [] := by
      refine List.eq_nil_iff_forall_not_mem.mpr fun b hb => ?_
      have hbmem : b ∈ l.filter (fun a => decide (Over lo hi a pos)) := by
        rw [heq]
        exact List.mem_append_right _ (List.mem_cons_of_mem _ hb)
      rw [heq] at hsorted
      have hlt := (List.pairwise_cons.mp (List.pairwise_append.mp hsorted).2.1).1 b hb
      have hle := (h.inside b ((hover b).mp hbmem).1 ((hover b).mp hbmem).2).1
      omega
    rw [innermost?, heq, hnil]
    exact List.getLast?_concat

/-- No two intervals begin together. -/
theorem Laminar.eq_of_lo_eq {l : List α} (hl : Laminar lo hi l) {a b : α} (ha : a ∈ l) (hb : b ∈ l)
    (heq : lo a = lo b) : a = b := by
  induction l with
  | nil => exact absurd ha List.not_mem_nil
  | cons c l ih =>
    obtain ⟨hc, hl⟩ := List.pairwise_cons.mp hl
    rcases List.mem_cons.mp ha with rfl | hatail
    · rcases List.mem_cons.mp hb with rfl | hbtail
      · rfl
      · have hlt := (hc b hbtail).1
        omega
    · rcases List.mem_cons.mp hb with rfl | hbtail
      · have hlt := (hc a hatail).1
        omega
      · exact ih hl hatail hbtail

/-! ## The stack -/

theorem mem_settle {stack : List α} {pos : Nat} {a : α} (ha : a ∈ stack) (hopen : pos < hi a) :
    a ∈ settle hi stack pos := by
  induction stack with
  | nil => exact absurd ha List.not_mem_nil
  | cons b stack ih =>
    rw [settle, List.dropWhile_cons]
    by_cases hb : hi b ≤ pos
    · rw [if_pos (decide_eq_true hb)]
      rcases List.mem_cons.mp ha with rfl | ha
      · omega
      · exact ih ha
    · rw [if_neg (by simpa using hb)]
      exact ha

/-- If the intervals of a stack are nested, taking off from the top takes off all that has ended. -/
theorem open_of_mem_settle {stack : List α} (hnested : stack.Pairwise (Inside lo hi)) {pos : Nat}
    {a : α} (ha : a ∈ settle hi stack pos) : pos < hi a := by
  induction stack with
  | nil => exact absurd ha List.not_mem_nil
  | cons b stack ih =>
    obtain ⟨hb, hnested⟩ := List.pairwise_cons.mp hnested
    rw [settle, List.dropWhile_cons] at ha
    by_cases hend : hi b ≤ pos
    · rw [if_pos (decide_eq_true hend)] at ha
      exact ih hnested ha
    · rw [if_neg (by simpa using hend)] at ha
      rcases List.mem_cons.mp ha with rfl | ha
      · omega
      · have hle := (hb a ha).2
        omega

namespace Swept

variable {l rest stack : List α} {pos : Nat}

theorem start (l : List α) : Swept lo hi l 0 l [] :=
  ⟨⟨[], rfl, fun _ h => absurd h List.not_mem_nil, fun _ h => absurd h List.not_mem_nil,
    fun _ h => absurd h List.not_mem_nil⟩, fun _ _ => Nat.zero_le _, List.Pairwise.nil⟩

theorem settled (h : Swept lo hi l pos rest stack) {pos' : Nat} (hpos : pos ≤ pos')
    (hahead : ∀ a ∈ rest, pos' ≤ lo a) : Swept lo hi l pos' rest (settle hi stack pos') := by
  obtain ⟨done, hl, hbegun, hsub, hkeeps⟩ := h.split
  have hsuffix : (settle hi stack pos').Sublist stack := List.dropWhile_sublist _
  refine ⟨⟨done, hl, fun a ha => Nat.le_trans (hbegun a ha) hpos, fun a ha => hsub a (hsuffix.subset ha),
    fun a ha hopen => ?_⟩, hahead, h.nested.sublist hsuffix⟩
  exact mem_settle (hkeeps a ha (by omega)) hopen

/-- The next interval begins. -/
theorem opened {a : α} (hl : Laminar lo hi l) (h : Swept lo hi l pos (a :: rest) stack) :
    Swept lo hi l (lo a) rest (a :: settle hi stack (lo a)) := by
  have hsorted : ∀ b ∈ rest, lo a < lo b := by
    obtain ⟨done, hsplit, -⟩ := h.split
    rw [Laminar, hsplit] at hl
    exact fun b hb => ((List.pairwise_cons.mp (List.pairwise_append.mp hl).2.1).1 b hb).1
  have hsettled := h.settled (h.ahead a List.mem_cons_self) (List.forall_mem_cons.mpr
    ⟨Nat.le_refl _, fun b hb => Nat.le_of_lt (hsorted b hb)⟩)
  obtain ⟨done, hsplit, hbegun, hsub, hkeeps⟩ := hsettled.split
  refine ⟨⟨done ++ [a], by rw [hsplit, List.append_assoc]; rfl, ?_, ?_, ?_⟩,
    fun b hb => Nat.le_of_lt (hsorted b hb), List.pairwise_cons.mpr ⟨fun b hb => ?_, hsettled.nested⟩⟩
  · exact fun b hb => (List.mem_append.mp hb).elim (hbegun b)
      fun hb => Nat.le_of_eq (congrArg lo (List.mem_singleton.mp hb))
  · intro b hb
    rcases List.mem_cons.mp hb with rfl | hb
    · exact List.mem_append_right _ List.mem_cons_self
    · exact List.mem_append_left _ (hsub b hb)
  · intro b hb hopen
    rcases List.mem_append.mp hb with hb | hb
    · exact List.mem_cons_of_mem _ (hkeeps b hb hopen)
    · exact List.mem_singleton.mp hb ▸ List.mem_cons_self
  · -- what is still open where `a` begins is around it
    have hopen := open_of_mem_settle h.nested hb
    rw [Laminar, hsplit] at hl
    obtain ⟨hlt, hhi⟩ := (List.pairwise_append.mp hl).2.2 b (hsub b hb) a List.mem_cons_self
    exact ⟨Nat.le_of_lt hlt, hhi.resolve_right (by omega)⟩

theorem openUpTo (hl : Laminar lo hi l) (h : Swept lo hi l pos rest stack) {pos' : Nat}
    (hpos : pos ≤ pos') : ∃ mid, mid ≤ pos' ∧
      Swept lo hi l mid (openUpTo lo hi rest stack pos').1 (openUpTo lo hi rest stack pos').2 ∧
      ∀ a ∈ (Sweep.openUpTo lo hi rest stack pos').1, pos' < lo a := by
  induction rest generalizing pos stack with
  | nil => exact ⟨pos, hpos, h, fun a ha => absurd ha List.not_mem_nil⟩
  | cons a rest ih =>
    rw [Sweep.openUpTo]
    by_cases hlo : pos' < lo a
    · rw [if_pos hlo]
      refine ⟨pos, hpos, h, List.forall_mem_cons.mpr ⟨hlo, fun b hb => ?_⟩⟩
      obtain ⟨done, hsplit, -⟩ := h.split
      rw [Laminar, hsplit] at hl
      exact Nat.lt_trans hlo ((List.pairwise_cons.mp (List.pairwise_append.mp hl).2.1).1 b hb).1
    · rw [if_neg hlo]
      exact ih (h.opened hl) (by omega)

theorem advance (hl : Laminar lo hi l) (h : Swept lo hi l pos rest stack) {pos' : Nat}
    (hpos : pos ≤ pos') : Swept lo hi l pos' (advance lo hi (rest, stack) pos').1
      (advance lo hi (rest, stack) pos').2 := by
  obtain ⟨mid, hmid, hopened, hahead⟩ := h.openUpTo hl hpos
  exact hopened.settled hmid fun a ha => Nat.le_of_lt (hahead a ha)

/-- The top of the stack is the innermost interval over the position. -/
theorem head?_advance (hl : Laminar lo hi l) (h : Swept lo hi l pos rest stack) {pos' : Nat}
    (hpos : pos ≤ pos') :
    (Sweep.advance lo hi (rest, stack) pos').2.head? = innermost? lo hi l pos' := by
  obtain ⟨mid, hmid, hopened, hahead⟩ := h.openUpTo hl hpos
  have hswept := hopened.settled hmid fun a ha => Nat.le_of_lt (hahead a ha)
  obtain ⟨done, hsplit, hbegun, hsub, hkeeps⟩ := hswept.split
  have hmem : ∀ b, b ∈ (Sweep.advance lo hi (rest, stack) pos').2 ↔ b ∈ l ∧ Over lo hi b pos' := by
    intro b
    constructor
    · intro hb
      refine ⟨hsplit ▸ List.mem_append_left _ (hsub b hb), hbegun b (hsub b hb), ?_⟩
      exact open_of_mem_settle hopened.nested hb
    · rintro ⟨hb, hover⟩
      rw [hsplit] at hb
      rcases List.mem_append.mp hb with hb | hb
      · exact hkeeps b hb hover.2
      · have hlt := hahead b hb
        have hle := hover.1
        omega
  cases hstack : (Sweep.advance lo hi (rest, stack) pos').2 with
  | nil =>
    rw [hstack] at hmem
    symm
    rw [List.head?_nil, innermost?, List.getLast?_eq_none_iff, List.filter_eq_nil_iff]
    exact fun b hb hover => List.not_mem_nil ((hmem b).mpr ⟨hb, of_decide_eq_true hover⟩)
  | cons a stack' =>
    have hnested := hswept.nested
    change (Sweep.advance lo hi (rest, stack) pos').2.Pairwise _ at hnested
    rw [hstack] at hmem hnested
    symm
    rw [List.head?_cons, innermost?_iff hl]
    have ha := (hmem a).mp List.mem_cons_self
    refine ⟨ha.1, ha.2, fun b hb hover => ?_⟩
    rcases List.mem_cons.mp ((hmem b).mpr ⟨hb, hover⟩) with rfl | hb
    · exact ⟨Nat.le_refl _, Nat.le_refl _⟩
    · exact (List.pairwise_cons.mp hnested).1 b hb

end Swept

end Sweep
