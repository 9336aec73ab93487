import Ry.Lib.Table
import Ry.Scope.State
import Ry.Syntax.Lower

/-! # The reads of formals

`index_formal_reads` walks a lowered file with a stack of frames, one for each enclosing
function or `for` loop, and puts a read on the innermost frame that has the name.
-/

namespace Ry.Reads

structure ReadFrame where
  span : Span
  formals : Finset String
  reads : Finset String

abbrev FormalReads := Table Span (Finset String)

/-- The frames, innermost first, and the entries so far. -/
structure Scan where
  frames : List ReadFrame
  map : FormalReads

/-- A read belongs to the innermost frame that owns the name. -/
def attributeRead (tag : String) : List ReadFrame → List ReadFrame
  | [] => []
  | frame :: frames =>
    if tag ∈ frame.formals then { frame with reads := insert tag frame.reads } :: frames
    else frame :: attributeRead tag frames

def formalNames (params : List Param) : Finset String :=
  (params.filterMap fun
    | .mk name _ _ => if name = "..." then none else some (semanticArgumentName name)).toFinset

namespace Scan

def read (s : Scan) (name : String) : Scan :=
  { s with frames := attributeRead (semanticArgumentName name) s.frames }

def enter (s : Scan) (span : Span) (formals : Finset String) : Scan :=
  { s with frames := ⟨span, formals, ∅⟩ :: s.frames }

/-- The frame of a function is an entry when it is left. -/
def leave (s : Scan) : Scan :=
  match s.frames with
  | [] => s
  | frame :: frames => ⟨frames, s.map.insert frame.span frame.reads⟩

/-- The frame of a loop is a binding and no function. -/
def leaveLoop (s : Scan) : Scan := { s with frames := s.frames.tail }

end Scan

mutual
def scanExpr : Expr → Scan → Scan
  | .function params body span, s =>
    (scanStmts body (scanDefaults params (s.enter span (formalNames params)))).leave
  | .block body _, s => scanStmts body s
  | .call func args _, s => scanArgs args (scanExpr func s)
  | .binOp _ lhs rhs _, s => scanExpr rhs (scanExpr lhs s)
  | .unaryOp _ expr _, s => scanExpr expr s
  | .index base _ args _, s => scanArgs args (scanExpr base s)
  | .ite cond thenBranch elseBranch _, s =>
    scanOption elseBranch (scanExpr thenBranch (scanExpr cond s))
  | .ident name _, s => s.read name
  | .logical .., s | .integer .., s | .double .., s | .string .., s | .null _, s | .na .., s
  | .missing _, s | .unknown _, s => s
termination_by e => (sizeOf e, 0)
/-- A plain root is written and not read. -/
def scanTarget : Expr → Scan → Scan
  | .ident .., s => s
  | .index base _ args _, s => scanArgs args (scanTarget base s)
  | other, s => scanExpr other s
termination_by e => (sizeOf e, 1)
def scanStmt : Stmt → Scan → Scan
  | .assign target value _, s => scanExpr value (scanTarget target s)
  | .expr e, s => scanExpr e s
  | .ite cond thenBranch elseBranch _, s =>
    scanOptionStmts elseBranch (scanStmts thenBranch (scanExpr cond s))
  -- the iterated value is evaluated before the binding
  | .forLoop name _ iter body span, s =>
    (scanStmts body ((scanExpr iter s).enter span {semanticArgumentName name})).leaveLoop
  | .whileLoop cond body _, s => scanStmts body (scanExpr cond s)
  | .functionDef params body span, s =>
    (scanStmts body (scanDefaults params (s.enter span (formalNames params)))).leave
  | .ret value _, s => scanOption value s
termination_by statement => (sizeOf statement, 0)
def scanStmts : List Stmt → Scan → Scan
  | [], s => s
  | statement :: statements, s => scanStmts statements (scanStmt statement s)
termination_by statements => (sizeOf statements, 0)
/-- The defaults evaluate in the function's own scope. -/
def scanDefaults : List Param → Scan → Scan
  | [], s => s
  | parameter :: parameters, s => scanDefaults parameters (scanDefault parameter s)
termination_by parameters => (sizeOf parameters, 0)
def scanDefault : Param → Scan → Scan
  | .mk _ default _, s => scanOption default s
termination_by parameter => (sizeOf parameter, 0)
def scanArgs : List Arg → Scan → Scan
  | [], s => s
  | argument :: arguments, s => scanArgs arguments (scanArg argument s)
termination_by arguments => (sizeOf arguments, 0)
/-- The tag of an argument is a name and no read. -/
def scanArg : Arg → Scan → Scan
  | .mk _ value _, s => scanExpr value s
termination_by argument => (sizeOf argument, 0)
def scanOption : Option Expr → Scan → Scan
  | none, s => s
  | some e, s => scanExpr e s
termination_by e => (sizeOf e, 0)
def scanOptionStmts : Option (List Stmt) → Scan → Scan
  | none, s => s
  | some statements, s => scanStmts statements s
termination_by statements => (sizeOf statements, 0)
end

def indexFormalReads (stmts : List Stmt) (map : FormalReads) : FormalReads :=
  (scanStmts stmts ⟨[], map⟩).map

end Ry.Reads
