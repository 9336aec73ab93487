import Ry.Reads.Occurs

/-! # What an unread formal means

The entry of a function literal is what the scan keeps of it.  A formal the entry lacks may still
occur in an opaque form, and only there: the entries are right for the literals whose formals, if
they occur in such a form, are also mentioned outside.
-/

namespace Ry.Reads

/-! ## The literals of a file -/

def Literal.node (l : Literal) : Cst := .functionDefinition l.parameters l.body l.span

def Literal.In (l : Literal) (source : List Cst) : Prop := ∃ node ∈ source, Cst.Part l.node node

/-- Two function literals of a file stand at different places. -/
def DistinctSpans (source : List Cst) : Prop :=
  ∀ l l' : Literal, l.In source → l'.In source → l.span = l'.span → l = l'

/-- The literals the scan enters. -/
def entered (source : List Cst) : List Literal := (foundStmts keptName nothing source).literals

@[simp] theorem Found.literals_empty : Found.empty.literals = [] := rfl

@[simp] theorem Found.literals_append (f g : Found) :
    (f.append g).literals = f.literals ++ g.literals := rfl

@[simp] theorem Found.literals_hide (f : Found) (formals : Finset String) :
    (f.hide formals).literals = f.literals := rfl

@[simp] theorem Found.literals_literal (f : Found) (l : Literal) :
    (f.literal l).literals = f.literals ++ [l] := rfl

@[simp] theorem literals_foundName (leaf : String → List String) (name : String) :
    (foundName leaf name).literals = [] := rfl

section Parts

variable (leaf : String → List String) (form : Cst → List String) {l : Literal}

theorem literals_foundBinary (operator : String) (lhs rhs : Found) :
    l ∈ (foundBinary leaf operator lhs rhs).literals ↔ l ∈ lhs.literals ∨ l ∈ rhs.literals := by
  rw [foundBinary]
  split
  · simp [or_comm]
  · split <;> simp

/-- What the walk enters, in each position, is part of the node. -/
structure Entered (l : Literal) (node : Cst) : Prop where
  expr : l ∈ (foundExpr leaf form node).literals → Cst.Part l.node node
  target : l ∈ (foundTarget leaf form node).literals → Cst.Part l.node node
  stmt : l ∈ (foundStmt leaf form node).literals → Cst.Part l.node node
  block : l ∈ (foundBlock leaf form node).literals → Cst.Part l.node node

variable {leaf form}

theorem entered_alternative {node : Option Cst} (h : ∀ child ∈ node.toList, Entered leaf form l child)
    (hl : l ∈ (foundAlternative leaf form node).literals) :
    ∃ child ∈ node.toList, Cst.Part l.node child := by
  cases node with
  | none => exact absurd hl (by simp [foundAlternative])
  | some node =>
    rw [foundAlternative] at hl
    exact ⟨node, by simp, (h node (by simp)).expr hl⟩

theorem entered_alternativeBlock {node : Option Cst}
    (h : ∀ child ∈ node.toList, Entered leaf form l child)
    (hl : l ∈ (foundAlternativeBlock leaf form node).literals) :
    ∃ child ∈ node.toList, Cst.Part l.node child := by
  cases node with
  | none => exact absurd hl (by simp [foundAlternativeBlock])
  | some node =>
    rw [foundAlternativeBlock] at hl
    exact ⟨node, by simp, (h node (by simp)).block hl⟩

theorem entered_args {slots : List CstArg}
    (h : ∀ slot ∈ slots, ∀ value ∈ slot.values, Entered leaf form l value)
    (hl : l ∈ (foundArgs leaf form slots).literals) :
    ∃ child ∈ slots.flatMap CstArg.values, Cst.Part l.node child := by
  induction slots with
  | nil => exact absurd hl (by simp [foundArgs])
  | cons slot slots ih =>
    rw [foundArgs, Found.literals_append, List.mem_append] at hl
    rcases hl with hl | hl
    · have hslot := h slot List.mem_cons_self
      cases slot with
      | omitted span => exact absurd hl (by simp [foundArg])
      | argument name value span =>
        rw [foundArg] at hl
        obtain ⟨child, hchild, hpart⟩ := entered_alternative hslot hl
        exact ⟨child, List.mem_flatMap.mpr ⟨_, List.mem_cons_self, hchild⟩, hpart⟩
    · obtain ⟨child, hchild, hpart⟩ := ih (fun slot hslot => h slot (List.mem_cons_of_mem _ hslot)) hl
      exact ⟨child, by rw [List.flatMap_cons]; exact List.mem_append_right _ hchild, hpart⟩

theorem entered_params {parameters : List CstParam}
    (h : ∀ parameter ∈ parameters, ∀ default ∈ parameter.defaults, Entered leaf form l default)
    (hl : l ∈ (foundParams leaf form parameters).literals) :
    ∃ child ∈ parameters.flatMap CstParam.defaults, Cst.Part l.node child := by
  induction parameters with
  | nil => exact absurd hl (by simp [foundParams])
  | cons parameter parameters ih =>
    rw [foundParams, Found.literals_append, List.mem_append] at hl
    rcases hl with hl | hl
    · have hparameter := h parameter List.mem_cons_self
      obtain ⟨name, default, span⟩ := parameter
      rw [foundParam] at hl
      obtain ⟨child, hchild, hpart⟩ := entered_alternative hparameter hl
      exact ⟨child, List.mem_flatMap.mpr ⟨_, List.mem_cons_self, hchild⟩, hpart⟩
    · obtain ⟨child, hchild, hpart⟩ :=
        ih (fun parameter hparameter => h parameter (List.mem_cons_of_mem _ hparameter)) hl
      exact ⟨child, by rw [List.flatMap_cons]; exact List.mem_append_right _ hchild, hpart⟩

theorem entered_stmts {nodes : List Cst} (h : ∀ node ∈ nodes, Entered leaf form l node)
    (hl : l ∈ (foundStmts leaf form nodes).literals) : ∃ child ∈ nodes, Cst.Part l.node child := by
  induction nodes with
  | nil => exact absurd hl (by simp [foundStmts])
  | cons node nodes ih =>
    rw [foundStmts, Found.literals_append, List.mem_append] at hl
    rcases hl with hl | hl
    · exact ⟨node, List.mem_cons_self, (h node List.mem_cons_self).stmt hl⟩
    · obtain ⟨child, hchild, hpart⟩ := ih (fun node hnode => h node (List.mem_cons_of_mem _ hnode)) hl
      exact ⟨child, List.mem_cons_of_mem _ hchild, hpart⟩

attribute [local simp] foundExpr foundTarget foundStmt foundBlock

theorem entered_call {function : Cst} {arguments : List CstArg} (span : Span)
    (hfunction : Entered leaf form l function)
    (harguments : ∀ slot ∈ arguments, ∀ value ∈ slot.values, Entered leaf form l value) :
    Entered leaf form l (.call function arguments span) := by
  have hparts : l ∈ (foundExpr leaf form function).literals ∨
      l ∈ (foundArgs leaf form arguments).literals → Cst.Part l.node (.call function arguments span) := by
    rintro (hl | hl)
    · exact .child List.mem_cons_self (hfunction.expr hl)
    · obtain ⟨child, hchild, hpart⟩ := entered_args harguments hl
      exact .child (List.mem_cons_of_mem _ hchild) hpart
  constructor <;> simpa using hparts

theorem entered_subset (double : Bool) {function : Cst} {arguments : List CstArg} (span : Span)
    (hfunction : Entered leaf form l function)
    (harguments : ∀ slot ∈ arguments, ∀ value ∈ slot.values, Entered leaf form l value) :
    Entered leaf form l (.subset double function arguments span) := by
  have hbase : Cst.Part l.node function → Cst.Part l.node (.subset double function arguments span) :=
    fun hpart => .child List.mem_cons_self hpart
  have hargs : l ∈ (foundArgs leaf form arguments).literals →
      Cst.Part l.node (.subset double function arguments span) := by
    intro hl
    obtain ⟨child, hchild, hpart⟩ := entered_args harguments hl
    exact .child (List.mem_cons_of_mem _ hchild) hpart
  constructor
  · simpa [or_imp] using ⟨fun hl => hbase (hfunction.expr hl), hargs⟩
  · simpa [or_imp] using ⟨fun hl => hbase (hfunction.target hl), hargs⟩
  · simpa [or_imp] using ⟨fun hl => hbase (hfunction.expr hl), hargs⟩
  · simpa [or_imp] using ⟨fun hl => hbase (hfunction.expr hl), hargs⟩

theorem entered_binary (operator : String) (operatorSpan span : Span) {lhs rhs : Cst}
    (hlhs : Entered leaf form l lhs) (hrhs : Entered leaf form l rhs) :
    Entered leaf form l (.binary operator operatorSpan lhs rhs span) := by
  have hleft : Cst.Part l.node lhs → Cst.Part l.node (.binary operator operatorSpan lhs rhs span) :=
    fun hpart => .child (by simp [Cst.children]) hpart
  have hright : Cst.Part l.node rhs → Cst.Part l.node (.binary operator operatorSpan lhs rhs span) :=
    fun hpart => .child (by simp [Cst.children]) hpart
  have hexpr : l ∈ (foundExpr leaf form (.binary operator operatorSpan lhs rhs span)).literals →
      Cst.Part l.node (.binary operator operatorSpan lhs rhs span) := by
    rw [foundExpr, literals_foundBinary]
    rintro (hl | hl)
    · exact hleft (hlhs.expr hl)
    · exact hright (hrhs.expr hl)
  have hstmt : l ∈ (foundStmt leaf form (.binary operator operatorSpan lhs rhs span)).literals →
      Cst.Part l.node (.binary operator operatorSpan lhs rhs span) := by
    simp only [foundStmt]
    split
    · exact hexpr
    · split
      · simp only [Found.literals_append, List.mem_append]
        rintro (hl | hl | hl)
        · exact hleft (hlhs.target hl)
        · exact hleft (hlhs.expr hl)
        · exact hright (hrhs.expr hl)
      · split
        · simp only [Found.literals_append, List.mem_append]
          rintro (hl | hl | hl)
          · exact hright (hrhs.target hl)
          · exact hright (hrhs.expr hl)
          · exact hleft (hlhs.expr hl)
        · split
          · simp only [Found.literals_append, List.mem_append]
            rintro (hl | hl)
            · exact hright (hrhs.target hl)
            · exact hleft (hlhs.expr hl)
          · simp only [Found.literals_append, List.mem_append]
            rintro (hl | hl)
            · exact hleft (hlhs.target hl)
            · exact hright (hrhs.expr hl)
  constructor
  · exact hexpr
  · rw [foundTarget]
    · exact hexpr
    all_goals simp
  · exact hstmt
  · rw [foundBlock]
    · exact hstmt
    · simp

theorem entered_unary (operator : String) {operand : Cst} (span : Span)
    (hoperand : Entered leaf form l operand) :
    Entered leaf form l (.unary operator operand span) := by
  have hin : Cst.Part l.node operand → Cst.Part l.node (.unary operator operand span) :=
    fun hpart => .child (by simp [Cst.children]) hpart
  have hexpr : l ∈ (foundExpr leaf form (.unary operator operand span)).literals →
      Cst.Part l.node (.unary operator operand span) := by
    rw [foundExpr]
    split
    · exact fun hl => hin (hoperand.expr hl)
    · exact fun hl => absurd hl List.not_mem_nil
  constructor
  · exact hexpr
  · rw [foundTarget]
    split
    · exact fun hl => hin (hoperand.target hl)
    · exact hexpr
  · simpa using hexpr
  · simpa using hexpr

theorem entered_function {parameters : List CstParam} {body : Cst} (span : Span)
    (hparameters : ∀ parameter ∈ parameters, ∀ default ∈ parameter.defaults,
      Entered leaf form l default) (hbody : Entered leaf form l body) :
    Entered leaf form l (.functionDefinition parameters body span) := by
  have hparts : l ∈ (foundParams leaf form parameters).literals ∨
        l ∈ (foundBlock leaf form body).literals ∨ l = ⟨parameters, body, span⟩ →
      Cst.Part l.node (.functionDefinition parameters body span) := by
    rintro (hl | hl | rfl)
    · obtain ⟨child, hchild, hpart⟩ := entered_params hparameters hl
      exact .child (List.mem_append_left _ hchild) hpart
    · exact .child (by simp [Cst.children]) (hbody.block hl)
    · exact .refl
  constructor <;> simpa using hparts

theorem entered_if {condition consequence : Cst} {alternative : Option Cst} (span : Span)
    (hcondition : Entered leaf form l condition) (hconsequence : Entered leaf form l consequence)
    (halternative : ∀ child ∈ alternative.toList, Entered leaf form l child) :
    Entered leaf form l (.ifStatement condition consequence alternative span) := by
  have hcond : Cst.Part l.node condition →
      Cst.Part l.node (.ifStatement condition consequence alternative span) :=
    fun hpart => .child List.mem_cons_self hpart
  have hcons : Cst.Part l.node consequence →
      Cst.Part l.node (.ifStatement condition consequence alternative span) :=
    fun hpart => .child (by simp [Cst.children]) hpart
  have halt : (∃ child ∈ alternative.toList, Cst.Part l.node child) →
      Cst.Part l.node (.ifStatement condition consequence alternative span) := by
    rintro ⟨child, hchild, hpart⟩
    exact .child (List.mem_cons_of_mem _ (List.mem_cons_of_mem _ hchild)) hpart
  have hexpr : (l ∈ (foundExpr leaf form condition).literals ∨
        l ∈ (foundExpr leaf form consequence).literals) ∨
        l ∈ (foundAlternative leaf form alternative).literals →
      Cst.Part l.node (.ifStatement condition consequence alternative span) := by
    rintro ((hl | hl) | hl)
    · exact hcond (hcondition.expr hl)
    · exact hcons (hconsequence.expr hl)
    · exact halt (entered_alternative halternative hl)
  have hstmt : (l ∈ (foundExpr leaf form condition).literals ∨
        l ∈ (foundBlock leaf form consequence).literals) ∨
        l ∈ (foundAlternativeBlock leaf form alternative).literals →
      Cst.Part l.node (.ifStatement condition consequence alternative span) := by
    rintro ((hl | hl) | hl)
    · exact hcond (hcondition.expr hl)
    · exact hcons (hconsequence.block hl)
    · exact halt (entered_alternativeBlock halternative hl)
  constructor
  · simpa only [foundExpr, Found.literals_append, List.mem_append] using hexpr
  · simpa only [foundTarget, foundExpr, Found.literals_append, List.mem_append] using hexpr
  · simpa only [foundStmt, Found.literals_append, List.mem_append] using hstmt
  · simpa only [foundBlock, foundStmt, Found.literals_append, List.mem_append] using hstmt

/-- A loop enters literals in statement position only. -/
theorem entered_loop (node head body : Cst) (hhead : head ∈ node.children)
    (hbody : body ∈ node.children) (hin : Entered leaf form l head)
    (hinBody : Entered leaf form l body)
    (hexpr : (foundExpr leaf form node).literals = [])
    (htarget : foundTarget leaf form node = foundExpr leaf form node)
    (hstmt : l ∈ (foundStmt leaf form node).literals →
      l ∈ (foundExpr leaf form head).literals ∨ l ∈ (foundBlock leaf form body).literals)
    (hblock : foundBlock leaf form node = foundStmt leaf form node) :
    Entered leaf form l node := by
  have hparts : l ∈ (foundStmt leaf form node).literals → Cst.Part l.node node := by
    intro hl
    rcases hstmt hl with hl | hl
    · exact .child hhead (hin.expr hl)
    · exact .child hbody (hinBody.block hl)
  constructor
  · rw [hexpr]
    exact fun hl => absurd hl List.not_mem_nil
  · rw [htarget, hexpr]
    exact fun hl => absurd hl List.not_mem_nil
  · exact hparts
  · rw [hblock]
    exact hparts

theorem entered_part (node : Cst) : Entered leaf form l node := by
  induction node using Cst.induction with
  | h node ih =>
    cases node with
    | logical | number | string | null | na | other | namespaced | identifier =>
      constructor <;> simp
    | jump kind => cases kind <;> constructor <;> simp
    | call function arguments span =>
      refine entered_call span (ih function List.mem_cons_self) fun slot hslot value hvalue => ?_
      exact ih value (List.mem_cons_of_mem _ (List.mem_flatMap.mpr ⟨slot, hslot, hvalue⟩))
    | subset double function arguments span =>
      refine entered_subset double span (ih function List.mem_cons_self)
        fun slot hslot value hvalue => ?_
      exact ih value (List.mem_cons_of_mem _ (List.mem_flatMap.mpr ⟨slot, hslot, hvalue⟩))
    | binary operator operatorSpan lhs rhs span =>
      exact entered_binary operator operatorSpan span (ih lhs (by simp [Cst.children]))
        (ih rhs (by simp [Cst.children]))
    | extract operator lhs rhs span =>
      have hlhs := ih lhs (by simp [Cst.children])
      have hin : Cst.Part l.node lhs → Cst.Part l.node (.extract operator lhs rhs span) :=
        fun hpart => .child (by simp [Cst.children]) hpart
      constructor
      · simpa using fun hl => hin (hlhs.expr hl)
      · simpa using fun hl => hin (hlhs.target hl)
      · simpa using fun hl => hin (hlhs.expr hl)
      · simpa using fun hl => hin (hlhs.expr hl)
    | unary operator operand span =>
      exact entered_unary operator span (ih operand (by simp [Cst.children]))
    | functionDefinition parameters body span =>
      refine entered_function span (fun parameter hparameter default hdefault => ?_)
        (ih body (by simp [Cst.children]))
      exact ih default (List.mem_append_left _ (List.mem_flatMap.mpr ⟨parameter, hparameter, hdefault⟩))
    | parenthesized inner span =>
      have hinner := ih inner (by simp [Cst.children])
      have hin : Cst.Part l.node inner → Cst.Part l.node (.parenthesized inner span) :=
        fun hpart => .child (by simp [Cst.children]) hpart
      constructor
      · simpa using fun hl => hin (hinner.expr hl)
      · simpa using fun hl => hin (hinner.target hl)
      · simpa using fun hl => hin (hinner.expr hl)
      · simpa using fun hl => hin (hinner.expr hl)
    | braced doubled body span =>
      have hparts : l ∈ (foundStmts leaf form body).literals →
          Cst.Part l.node (.braced doubled body span) := by
        intro hl
        obtain ⟨child, hchild, hpart⟩ := entered_stmts ih hl
        exact .child hchild hpart
      constructor <;> simpa using hparts
    | ifStatement condition consequence alternative span =>
      refine entered_if span (ih condition (by simp [Cst.children]))
        (ih consequence (by simp [Cst.children])) fun child hchild => ?_
      exact ih child (List.mem_cons_of_mem _ (List.mem_cons_of_mem _ hchild))
    | forStatement name nameSpan sequence body span =>
      refine entered_loop _ sequence body (by simp [Cst.children]) (by simp [Cst.children])
        (ih sequence (by simp [Cst.children])) (ih body (by simp [Cst.children])) ?_ ?_ ?_ ?_ <;> simp
    | whileStatement condition body span =>
      refine entered_loop _ condition body (by simp [Cst.children]) (by simp [Cst.children])
        (ih condition (by simp [Cst.children])) (ih body (by simp [Cst.children])) ?_ ?_ ?_ ?_ <;> simp
    | repeatStatement body span =>
      refine entered_loop _ body body (by simp [Cst.children]) (by simp [Cst.children])
        (ih body (by simp [Cst.children])) (ih body (by simp [Cst.children])) ?_ ?_ ?_ ?_ <;>
        simp +contextual

end Parts

theorem in_of_entered {source : List Cst} {l : Literal} (h : l ∈ entered source) : l.In source :=
  entered_stmts (fun node _ => entered_part node) h

/-! ## The map -/

theorem indexFormalReads_lowered (source : List Cst) :
    indexFormalReads (lowerStmts source) ∅ =
      (entered source).foldl (fun map l => map.insert l.span l.reads) ∅ := by
  rw [indexFormalReads, scan_stmts (fun node _ => scanned node)]
  rfl

open scoped Classical in
theorem lookup_foldl_insert {ls : List Literal} {map : FormalReads} {l : Literal}
    (hdistinct : ∀ l' ∈ ls, l'.span = l.span → l' = l) :
    (ls.foldl (fun map l => map.insert l.span l.reads) map).lookup l.span =
      if l ∈ ls then some l.reads else map.lookup l.span := by
  induction ls generalizing map with
  | nil => rfl
  | cons l' ls ih =>
    rw [List.foldl_cons, ih fun l'' hl'' => hdistinct l'' (List.mem_cons_of_mem _ hl'')]
    by_cases hrest : l ∈ ls
    · rw [if_pos hrest, if_pos (List.mem_cons_of_mem _ hrest)]
    · rw [if_neg hrest, Table.lookup_insert]
      by_cases hspan : l.span = l'.span
      · obtain rfl := hdistinct l' List.mem_cons_self hspan.symm
        rw [if_pos rfl, if_pos List.mem_cons_self]
      · have hne : l ≠ l' := fun h => hspan (by rw [h])
        rw [if_neg hspan, if_neg]
        rw [List.mem_cons, not_or]
        exact ⟨hne, hrest⟩

open scoped Classical in
/-- The entry of a literal is what the scan keeps in it. -/
theorem lookup_indexFormalReads {source : List Cst} (hdistinct : DistinctSpans source) {l : Literal}
    (hl : l.In source) : (indexFormalReads (lowerStmts source) ∅).lookup l.span =
      if l ∈ entered source then some l.reads else none := by
  rw [indexFormalReads_lowered, lookup_foldl_insert]
  · rfl
  · exact fun l' hl' hspan => hdistinct l' l (in_of_entered hl') hl hspan

/-! ## Unread formals -/

/-- The map records the formal as unread. -/
def Unread (source : List Cst) (l : Literal) (p : String) : Prop :=
  p ∈ l.formals ∧
    ∃ reads, (indexFormalReads (lowerStmts source) ∅).lookup l.span = some reads ∧ p ∉ reads

theorem unread_iff {source : List Cst} (hdistinct : DistinctSpans source) {l : Literal}
    (hl : l.In source) (p : String) :
    Unread source l p ↔ l ∈ entered source ∧ p ∈ l.formals ∧ p ∉ l.found.names := by
  have hreads : p ∈ l.formals → (p ∈ l.reads ↔ p ∈ l.found.names) := by
    intro hformal
    rw [Literal.reads, Finset.mem_inter, List.mem_toFinset, and_iff_left hformal]
  rw [Unread, lookup_indexFormalReads hdistinct hl]
  split
  · rename_i hentered
    constructor
    · rintro ⟨hformal, reads, hsome, hnot⟩
      obtain rfl := Option.some.inj hsome
      exact ⟨hentered, hformal, fun h => hnot ((hreads hformal).mpr h)⟩
    · rintro ⟨-, hformal, hnot⟩
      exact ⟨hformal, l.reads, rfl, fun h => hnot ((hreads hformal).mp h)⟩
  · rename_i hentered
    constructor
    · rintro ⟨-, reads, hnone, -⟩
      cases hnone
    · exact fun h => absurd h.1 hentered

theorem occurs_split (l : Literal) (p : String) :
    (p ∈ l.occurs → p ∈ l.found.names ∨ p ∈ l.hidden) ∧ (p ∈ l.hidden → p ∈ l.occurs) := by
  obtain ⟨hkept, hhidden⟩ := split_params fun parameter (_ : parameter ∈ l.parameters) default _ =>
    split p default
  have hbody := split p l.body
  simp only [Literal.occurs, Literal.found, Literal.hidden, Found.names_append, List.mem_append]
  exact ⟨split_or hkept hbody.block, Or.imp hhidden hbody.hidden_block⟩

/-- An unread formal occurs nowhere, for exactly the literals in which each formal that an opaque
form hides is mentioned outside such forms. -/
theorem unread_iff_mentioned (source : List Cst) (hdistinct : DistinctSpans source) (l : Literal)
    (hl : l.In source) :
    (∀ p, Unread source l p → p ∉ l.occurs) ↔
      (l ∈ entered source → ∀ p ∈ l.formals, p ∈ l.hidden → p ∈ l.found.names) := by
  constructor
  · intro h hentered p hformal hhidden
    by_contra hnot
    have hunread := (unread_iff hdistinct hl p).mpr ⟨hentered, hformal, hnot⟩
    exact h p hunread ((occurs_split l p).2 hhidden)
  · intro h p hunread hoccurs
    obtain ⟨hentered, hformal, hnot⟩ := (unread_iff hdistinct hl p).mp hunread
    rcases (occurs_split l p).1 hoccurs with hkept | hhidden
    · exact hnot hkept
    · exact hnot (h hentered p hformal hhidden)

/-! ## A formula -/

def formulaParameter : CstParam := .mk "p" none ⟨14, 15, 0, 14⟩

def formulaBody : Cst := .unary "~" (.identifier "p" ⟨18, 19, 0, 18⟩) ⟨17, 19, 0, 17⟩

def formulaLiteral : Literal := ⟨[formulaParameter], formulaBody, ⟨5, 19, 0, 5⟩⟩

/-- `f <- function(p) ~p` -/
def formulaSource : List Cst :=
  [.binary "<-" ⟨2, 4, 0, 2⟩ (.identifier "f" ⟨0, 1, 0, 0⟩) formulaLiteral.node ⟨0, 19, 0, 0⟩]

theorem in_formulaSource {l : Literal} (h : l.In formulaSource) : l = formulaLiteral := by
  obtain ⟨node, hnode, hpart⟩ := h
  obtain rfl := List.mem_singleton.mp hnode
  rcases hpart.cases with heq | ⟨child, hchild, hpart⟩
  · cases heq
  simp only [Cst.children, List.mem_cons, List.not_mem_nil, or_false] at hchild
  rcases hchild with rfl | rfl
  · rcases hpart.cases with heq | ⟨child, hchild, -⟩
    · cases heq
    · exact absurd hchild List.not_mem_nil
  rcases hpart.cases with heq | ⟨child, hchild, hpart⟩
  · obtain ⟨parameters, body, span⟩ := l
    cases heq
    rfl
  rw [Literal.node, formulaLiteral, Cst.children, formulaParameter] at hchild
  simp only [List.flatMap_cons, CstParam.defaults, Option.toList_none, List.flatMap_nil,
    List.nil_append, List.mem_singleton] at hchild
  subst hchild
  rcases hpart.cases with heq | ⟨child, hchild, hpart⟩
  · cases heq
  obtain rfl := List.mem_singleton.mp hchild
  rcases hpart.cases with heq | ⟨child, hchild, -⟩
  · cases heq
  · exact absurd hchild List.not_mem_nil

theorem distinct_formulaSource : DistinctSpans formulaSource :=
  fun _ _ h h' _ => (in_formulaSource h).trans (in_formulaSource h').symm

theorem formulaLiteral_in : formulaLiteral.In formulaSource :=
  ⟨_, List.mem_singleton_self _, .child (by simp [Cst.children]) .refl⟩

theorem formulaLiteral_entered : formulaLiteral ∈ entered formulaSource := by
  rw [entered, formulaSource, foundStmts, Found.literals_append, List.mem_append]
  left
  simp [foundStmt, assignOperators, formulaLiteral, Literal.node, foundExpr]

theorem unread_iff_mentioned_formula :
    (∀ p, Unread formulaSource formulaLiteral p → p ∉ formulaLiteral.occurs) ↔
      (formulaLiteral ∈ entered formulaSource →
        ∀ p ∈ formulaLiteral.formals, p ∈ formulaLiteral.hidden → p ∈ formulaLiteral.found.names) :=
  unread_iff_mentioned formulaSource distinct_formulaSource formulaLiteral formulaLiteral_in

/-- The formula reads the formal that is recorded as unread. -/
theorem unread_formula_occurs :
    ¬ ∀ (source : List Cst) (l : Literal), DistinctSpans source → l.In source →
      ∀ p, Unread source l p → p ∉ l.occurs := by
  intro h
  refine h formulaSource formulaLiteral distinct_formulaSource formulaLiteral_in "p" ?_ ?_
  · refine (unread_iff distinct_formulaSource formulaLiteral_in "p").mpr
      ⟨formulaLiteral_entered, ?_, ?_⟩
    · have hformals : formulaLiteral.formals = {"p"} := by
        simp only [Literal.formals, formulaLiteral, cstFormalNames, lowerParams, formulaParameter,
          lowerParam, lowerAlternative]
        decide
      rw [hformals]
      exact Finset.mem_singleton_self _
    · simp [Literal.found, formulaLiteral, foundParams, formulaParameter, foundParam,
        foundAlternative, foundBlock, foundStmt, formulaBody, foundExpr, isUnaryKept, nothing]
  · have hname : semanticArgumentName "p" = "p" := by decide
    simp [Literal.occurs, formulaLiteral, occursParams, formulaParameter, occursParam, occursOption,
      formulaBody, occurs, hname]

end Ry.Reads
