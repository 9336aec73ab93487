import Ry.Promise.Frame

/-! # Which code mentions a formal

`mention_step` and the walks that use it: a formal is mentioned by an identifier, by a word of
a string, by the binder of a loop, by a formal or a default of a nested function, and by
whatever can reach the frame without naming it.
-/

namespace Ry.Promise

/-- Calls that can reach a frame's promises without naming the formal. -/
def frameReflection : List String :=
  ["UseMethod", "NextMethod", "standardGeneric", "callNextMethod", "callGeneric", "Recall",
   "environment", "parent.frame", "sys.frame", "sys.frames", "sys.call", "sys.calls",
   "sys.function", "sys.status", "sys.parent", "sys.parents", "match.call", "match.fun",
   "as.environment", "pos.to.env", "new.env", "parent.env", "topenv", "list2env", "local",
   "with", "within", "subset", "transform", "eval", "evalq", "eval.parent", "source",
   "sys.source", "get", "get0", "mget", "exists", "dynGet", "ls", "objects", "eapply",
   "delayedAssign", "makeActiveBinding", "save", "dump", "as.function", "browser", "parse",
   "str2lang", "str2expression", "as.name", "as.symbol", "sym", "syms", "current_env",
   "current_call", "current_fn", "caller_env", "caller_fn", "caller_call", "frame_call",
   "frame_fn", "env", "child_env", "new_environment", "env_clone", "env_parent", "env_tail",
   "env_names", "env_get", "env_get_list", "env_has", "env_print", "fn_env", "as_environment",
   "with_env", "locally", "eval_bare", "eval_tidy", "parse_expr", "parse_exprs", "quo", "quos",
   "quo_get_env", "new_quosure", "as_quosure"]

section Words

variable (identifier : Char → Bool)

/-- Whether an occurrence of `word` begins in the text after `prev`, `skip` characters of which
belong to the occurrence found last, and stands between characters of no identifier. -/
def mentionsWordAfter (word : List Char) (prev : Option Char) (skip : Nat) : List Char → Bool
  | [] => skip = 0 && word.isEmpty && !prev.any identifier
  | c :: rest =>
    if skip = 0 ∧ word.isPrefixOf (c :: rest) then
      !prev.any identifier && !((c :: rest).drop word.length).head?.any identifier
        || mentionsWordAfter word (some c) (word.length - 1) rest
    else mentionsWordAfter word (some c) (skip - 1) rest

end Words

section Mentions

-- `char::is_alphanumeric`
variable (alphanumeric : Char → Bool)

/-- Whether `text` contains `word` delimited by characters of no identifier. -/
def mentionsWord (text word : String) : Bool :=
  mentionsWordAfter (fun c => alphanumeric c || c = '.' || c = '_') word.toList none 0 text.toList

/-- `mention_step`, apart from the defaults of a nested function. -/
def mentionStep (parameter : String) : AstNode → Bool
  | .expr (.ident name _) =>
    let name := semanticArgumentName name
    name = parameter || (parameter = "..." && Divergence.bareName name = "...elt")
      || Divergence.bareName name ∈ frameReflection
  | .expr (.string text _) => mentionsWord alphanumeric text parameter || text ∈ frameReflection
  | .expr (.unknown _) => true
  | .expr (.function params _ _) | .stmt (.functionDef params _ _) =>
    params.any fun | .mk name _ _ => semanticArgumentName name = parameter
  | .stmt (.forLoop name _ _ _ _) => semanticArgumentName name = parameter
  | _ => false

/-- The walk of a mention: everywhere, with the defaults that `mention_step` walks. -/
def mentionWalk : WalkPolicy := { defaults := true }

def exprMentions (expression : Expr) (parameter : String) : Bool :=
  anyInExpr mentionWalk (mentionStep alphanumeric parameter) expression

end Mentions

end Ry.Promise
