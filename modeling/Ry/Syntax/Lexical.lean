import Ry.Lib.Slices
import Ry.Lib.Sweep
import Ry.Suppress.Directives
import Mathlib.Data.List.Sort

/-! # Comments and function bodies

`collect_lexical` of `parser.rs`: the comments of a file and the spans of its functions, from one
walk over the parser's tree, whose nodes are taken from a stack.  A file nested past the limits has
no tree here.  The spans of the functions are nested or apart, and so is each comment with each of
them.
-/

namespace Ry.Lexical

/-- What the walk tells apart of a node's kind. -/
inductive NodeKind
  | comment
  | functionDefinition
  | bracedExpression
  /-- A keyword or a bracket. -/
  | token
  | other
  deriving DecidableEq

/-- A node of the tree with the field of its parent that it is in, and its bytes. -/
inductive Node
  | mk (kind : NodeKind) (field : Option String) (start stop : Nat) (children : List Node)

namespace Node

def kind : Node → NodeKind
  | mk kind _ _ _ _ => kind

def field : Node → Option String
  | mk _ field _ _ _ => field

def start : Node → Nat
  | mk _ _ start _ _ => start

def stop : Node → Nat
  | mk _ _ _ stop _ => stop

def children : Node → List Node
  | mk _ _ _ _ children => children

def childByFieldName (node : Node) (name : String) : Option Node :=
  node.children.find? fun child => child.field = some name

mutual
/-- The nodes as the stack gives them: the children were put on from first to last. -/
def popped : Node → List Node
  | mk kind field start stop children =>
    mk kind field start stop children :: poppedAll children
termination_by structural node => node
def poppedAll : List Node → List Node
  | [] => []
  | node :: nodes => poppedAll nodes ++ popped node
termination_by structural nodes => nodes
end

end Node

/-- The text since the last line feed. -/
def lastLine (cs : List Char) : List Char := (cs.reverse.takeWhile (· ≠ '\n')).reverse

/-- `self_span`: the row counts line feeds, and the column bytes. -/
def selfSpan (src : List Char) (node : Node) : Span :=
  let before := prefixBytes src node.start
  ⟨node.start, node.stop, before.count '\n', byteLen (lastLine before)⟩

structure FunctionBody where
  function : Span
  /-- The span of a braced body. -/
  body : Option Span

/-- The comment of a comment node: its body is what follows one `#`. -/
def commentOf (src : List Char) (node : Node) : Option Comment :=
  if node.kind = .comment then
    (slice src node.start node.stop).map fun full =>
      let span := selfSpan src node
      ⟨span.line, span.col, match full with
        | '#' :: body => body
        | full => full⟩
  else none

def functionOf (src : List Char) (node : Node) : Option FunctionBody :=
  if node.kind = .functionDefinition then
    some ⟨selfSpan src node, ((node.childByFieldName "body").filter
      fun body => body.kind = .bracedExpression).map (selfSpan src)⟩
  else none

def collectComments (src : List Char) (root : Node) : List Comment :=
  (root.popped.filterMap (commentOf src)).mergeSort fun c d => decide (c.line ≤ d.line)

def collectFunctions (src : List Char) (root : Node) : List FunctionBody :=
  (root.popped.filterMap (functionOf src)).mergeSort fun f g =>
    decide (f.function.start < g.function.start ∨
      f.function.start = g.function.start ∧ f.function.stop ≤ g.function.stop)

/-! ## Trees -/

namespace Node

structure IsToken (node : Node) : Prop where
  kind : node.kind = .token
  leaf : node.children = []
  nonempty : node.start < node.stop

/-- What tree-sitter's trees are, and what R's grammar gives a file without errors. -/
structure Grammatical (src : List Char) (node : Node) : Prop where
  text : ∃ text, slice src node.start node.stop = some text
  within : ∀ child ∈ node.children, node.start ≤ child.start ∧ child.stop ≤ node.stop
  ordered : node.children.Pairwise fun a b => a.stop ≤ b.start
  comment : node.kind = .comment →
    node.children = [] ∧ ∃ body, slice src node.start node.stop = some ('#' :: body)
  /-- A function begins with its keyword. -/
  function : node.kind = .functionDefinition →
    ∃ keyword rest, node.children = keyword :: rest ∧ keyword.IsToken
  /-- Its braces are tokens. -/
  braced : node.kind = .bracedExpression → ∃ first inner last,
    node.children = first :: (inner ++ [last]) ∧ first.IsToken ∧ last.IsToken

/-- `b` stands in `a`. -/
def Inside (b a : Node) : Prop := a.start ≤ b.start ∧ b.stop ≤ a.stop

def Apart (a b : Node) : Prop := a.stop ≤ b.start ∨ b.stop ≤ a.start

variable {src : List Char}

theorem Grammatical.le {node : Node} (h : node.Grammatical src) : node.start ≤ node.stop := by
  obtain ⟨text, htext⟩ := h.text
  have hlen := byteLen_of_slice htext
  omega

theorem popped_eq (node : Node) : node.popped = node :: poppedAll node.children := by
  cases node with
  | mk kind field start stop children => rw [popped]; rfl

theorem mem_popped_self (node : Node) : node ∈ node.popped := by
  rw [popped_eq]
  exact List.mem_cons_self

theorem mem_poppedAll {nodes : List Node} {node : Node} :
    node ∈ poppedAll nodes ↔ ∃ child ∈ nodes, node ∈ child.popped := by
  induction nodes with
  | nil => simp [poppedAll]
  | cons child nodes ih =>
    rw [poppedAll, List.mem_append, ih, List.exists_mem_cons_iff, or_comm]

/-- An induction over what is in a node. -/
theorem popped_induction {P : Node → Prop}
    (h : ∀ node, (∀ child ∈ node.children, P child) → P node) (node : Node) : P node := by
  apply @Node.rec P (fun nodes => ∀ child ∈ nodes, P child)
  case mk => exact fun kind field start stop children hchildren => h _ hchildren
  case nil => exact fun child hchild => absurd hchild List.not_mem_nil
  case cons => exact fun _ _ hhead htail => List.forall_mem_cons.mpr ⟨hhead, htail⟩

theorem popped_subset {node inner : Node} (h : inner ∈ node.popped) {part : Node}
    (hpart : part ∈ inner.popped) : part ∈ node.popped := by
  induction node using popped_induction with
  | h node ih =>
    rw [popped_eq] at h ⊢
    rcases List.mem_cons.mp h with rfl | h
    · rwa [popped_eq] at hpart
    · obtain ⟨child, hchild, h⟩ := mem_poppedAll.mp h
      exact List.mem_cons_of_mem _ (mem_poppedAll.mpr ⟨child, hchild, ih child hchild h⟩)

theorem mem_popped_of_child {node child : Node} (h : child ∈ node.children) :
    child ∈ node.popped := by
  rw [popped_eq]
  exact List.mem_cons_of_mem _ (mem_poppedAll.mpr ⟨child, h, mem_popped_self child⟩)

theorem inside_of_mem {root : Node} (hroot : ∀ node ∈ root.popped, node.Grammatical src)
    {node : Node} (h : node ∈ root.popped) : node.Inside root := by
  induction root using popped_induction with
  | h root ih =>
    rw [popped_eq] at h
    rcases List.mem_cons.mp h with rfl | h
    · exact ⟨Nat.le_refl _, Nat.le_refl _⟩
    · obtain ⟨child, hchild, h⟩ := mem_poppedAll.mp h
      have hin := ih child hchild
        (fun node hnode => hroot node (popped_subset (mem_popped_of_child hchild) hnode)) h
      have hbounds := (hroot root (mem_popped_self root)).within child hchild
      exact ⟨Nat.le_trans hbounds.1 hin.1, Nat.le_trans hin.2 hbounds.2⟩

theorem apart_of_ordered {nodes : List Node} (h : nodes.Pairwise fun a b => a.stop ≤ b.start)
    {a b : Node} (ha : a ∈ nodes) (hb : b ∈ nodes) (hne : a ≠ b) : a.Apart b := by
  induction nodes with
  | nil => exact absurd ha List.not_mem_nil
  | cons node nodes ih =>
    obtain ⟨hnode, hnodes⟩ := List.pairwise_cons.mp h
    rcases List.mem_cons.mp ha with rfl | hatail
    · exact .inl (hnode b (List.mem_of_ne_of_mem (Ne.symm hne) hb))
    · rcases List.mem_cons.mp hb with rfl | hbtail
      · exact .inr (hnode a hatail)
      · exact ih hnodes hatail hbtail

/-- Of two nodes of a tree one is part of the other, or they stand apart. -/
theorem nested_or_apart {root : Node} (hroot : ∀ node ∈ root.popped, node.Grammatical src)
    {a b : Node} (ha : a ∈ root.popped) (hb : b ∈ root.popped) :
    b ∈ a.popped ∨ a ∈ b.popped ∨ a.Apart b := by
  induction root using popped_induction with
  | h root ih =>
    by_cases haroot : a = root
    · exact .inl (haroot ▸ hb)
    by_cases hbroot : b = root
    · exact .inr (.inl (hbroot ▸ ha))
    obtain ⟨child, hchild, hain⟩ := mem_poppedAll.mp
      (List.mem_of_ne_of_mem haroot (popped_eq root ▸ ha))
    obtain ⟨child', hchild', hbin⟩ := mem_poppedAll.mp
      (List.mem_of_ne_of_mem hbroot (popped_eq root ▸ hb))
    have hbelow : ∀ {child : Node}, child ∈ root.children →
        ∀ node ∈ child.popped, node.Grammatical src := fun hchild node hnode =>
      hroot node (popped_subset (mem_popped_of_child hchild) hnode)
    have hina := inside_of_mem (hbelow hchild) hain
    have hinb := inside_of_mem (hbelow hchild') hbin
    by_cases heq : child = child'
    · subst heq
      exact ih child hchild (hbelow hchild) hain hbin
    · -- in different children
      have hapart := apart_of_ordered (hroot root (mem_popped_self root)).ordered hchild hchild' heq
      refine .inr (.inr ?_)
      rcases hapart with hle | hle
      · exact .inl (Nat.le_trans hina.2 (Nat.le_trans hle hinb.1))
      · exact .inr (Nat.le_trans hinb.2 (Nat.le_trans hle hina.1))

/-- A node below the root that is no token is in a child that is none. -/
theorem exists_child {root node : Node} (h : node ∈ poppedAll root.children)
    (hkind : node.kind ≠ .token) :
    ∃ child ∈ root.children, node ∈ child.popped ∧ ¬ child.IsToken := by
  obtain ⟨child, hchild, hin⟩ := mem_poppedAll.mp h
  refine ⟨child, hchild, hin, fun htoken => ?_⟩
  rw [popped_eq, htoken.leaf] at hin
  rcases List.mem_cons.mp hin with rfl | hin
  · exact hkind htoken.kind
  · exact List.not_mem_nil hin

theorem after_token {root node first : Node} {rest : List Node}
    (hroot : ∀ node ∈ root.popped, node.Grammatical src) (hchildren : root.children = first :: rest)
    (hfirst : first.IsToken) (h : node ∈ poppedAll root.children)
    (hkind : node.kind ≠ .token) : first.stop ≤ node.start := by
  obtain ⟨child, hchild, hin, hnot⟩ := exists_child h hkind
  have hinside := inside_of_mem
    (fun node hnode => hroot node (popped_subset (mem_popped_of_child hchild) hnode)) hin
  have hordered := (hroot root (mem_popped_self root)).ordered
  rw [hchildren] at hchild hordered
  rcases List.mem_cons.mp hchild with rfl | hrest
  · exact absurd hfirst hnot
  · exact Nat.le_trans ((List.pairwise_cons.mp hordered).1 child hrest) hinside.1

theorem before_token {root node last : Node} {rest : List Node}
    (hroot : ∀ node ∈ root.popped, node.Grammatical src)
    (hchildren : root.children = rest ++ [last]) (hlast : last.IsToken)
    (h : node ∈ poppedAll root.children) (hkind : node.kind ≠ .token) : node.stop ≤ last.start := by
  obtain ⟨child, hchild, hin, hnot⟩ := exists_child h hkind
  have hinside := inside_of_mem
    (fun node hnode => hroot node (popped_subset (mem_popped_of_child hchild) hnode)) hin
  have hordered := (hroot root (mem_popped_self root)).ordered
  rw [hchildren] at hchild hordered
  rcases List.mem_append.mp hchild with hrest | hchild
  · exact Nat.le_trans hinside.2
      ((List.pairwise_append.mp hordered).2.2 child hrest last List.mem_cons_self)
  · exact absurd hlast (List.mem_singleton.mp hchild ▸ hnot)

/-- Of two nodes in the order of the stack, the later one is in the earlier or stands before it. -/
theorem popped_pairwise {root : Node} (hroot : ∀ node ∈ root.popped, node.Grammatical src) :
    root.popped.Pairwise fun a b => b ∈ poppedAll a.children ∨ b.stop ≤ a.start := by
  induction root using popped_induction with
  | h root ih =>
    have hbelow : ∀ child ∈ root.children, ∀ node ∈ child.popped, node.Grammatical src :=
      fun child hchild node hnode =>
        hroot node (popped_subset (mem_popped_of_child hchild) hnode)
    have hordered := (hroot root (mem_popped_self root)).ordered
    rw [popped_eq, List.pairwise_cons]
    refine ⟨fun b hb => .inl hb, ?_⟩
    generalize root.children = nodes at ih hbelow hordered
    induction nodes with
    | nil => exact List.Pairwise.nil
    | cons node nodes ihnodes =>
      obtain ⟨hnode, hnodes⟩ := List.pairwise_cons.mp hordered
      obtain ⟨hbelownode, hbelow⟩ := List.forall_mem_cons.mp hbelow
      rw [poppedAll, List.pairwise_append]
      refine ⟨ihnodes (fun child hchild => ih child (List.mem_cons_of_mem _ hchild)) hbelow hnodes,
        ih node List.mem_cons_self hbelownode, fun a ha b hb => .inr ?_⟩
      -- `a` is in a later child than `b`
      obtain ⟨child, hchild, ha⟩ := mem_poppedAll.mp ha
      exact Nat.le_trans (inside_of_mem hbelownode hb).2
        (Nat.le_trans (hnode child hchild) (inside_of_mem (hbelow child hchild) ha).1)

end Node

/-! ## The functions -/

/-- The parser's tree of a text without errors. -/
structure SyntaxTree (src : List Char) where
  root : Node
  grammatical : ∀ node ∈ root.popped, node.Grammatical src

variable {src : List Char}

theorem mem_collectFunctions {root : Node} {function : FunctionBody} :
    function ∈ collectFunctions src root ↔
      ∃ node ∈ root.popped, functionOf src node = some function := by
  rw [collectFunctions, List.mem_mergeSort, List.mem_filterMap]

theorem functionOf_eq_some {node : Node} {function : FunctionBody}
    (h : functionOf src node = some function) : node.kind = .functionDefinition ∧
      function.function = selfSpan src node ∧ ∀ body, function.body = some body →
        ∃ child ∈ node.children, child.kind = .bracedExpression ∧ body = selfSpan src child := by
  rw [functionOf] at h
  split at h
  case isFalse => cases h
  case isTrue hkind =>
    obtain rfl := Option.some.inj h
    refine ⟨hkind, rfl, fun body hbody => ?_⟩
    obtain ⟨child, hchild, rfl⟩ := Option.map_eq_some_iff.mp hbody
    obtain ⟨hfind, hbraced⟩ := Option.filter_eq_some_iff.mp hchild
    exact ⟨child, List.mem_of_find?_eq_some hfind, of_decide_eq_true hbraced, rfl⟩

/-- A function is not empty, and what is in it begins after it does. -/
theorem SyntaxTree.keyword (tree : SyntaxTree src) {node : Node} (h : node ∈ tree.root.popped)
    (hkind : node.kind = .functionDefinition) : node.start < node.stop ∧
      ∀ inner ∈ Node.poppedAll node.children, inner.kind = .functionDefinition →
        node.start < inner.start ∧ inner.stop ≤ node.stop := by
  have hnode := tree.grammatical node h
  have hbelow : ∀ inner ∈ node.popped, inner.Grammatical src := fun inner hinner =>
    tree.grammatical inner (Node.popped_subset h hinner)
  obtain ⟨keyword, rest, hchildren, hkeyword⟩ := hnode.function hkind
  have hwithin := hnode.within keyword (hchildren ▸ List.mem_cons_self)
  have hlt := hkeyword.nonempty
  refine ⟨by omega, fun inner hinner hinnerKind => ?_⟩
  have hmem : inner ∈ node.popped := by
    rw [Node.popped_eq]
    exact List.mem_cons_of_mem _ hinner
  have hafter := Node.after_token hbelow hchildren hkeyword hinner (by rw [hinnerKind]; decide)
  exact ⟨by omega, (Node.inside_of_mem hbelow hmem).2⟩

/-- The functions are nested or apart, in the order in which they begin. -/
theorem SyntaxTree.laminar (tree : SyntaxTree src) :
    Sweep.Laminar (·.function.start) (·.function.stop) (collectFunctions src tree.root) := by
  -- of two functions, in any order, one is in the other or they are apart
  let Separate : FunctionBody → FunctionBody → Prop := fun f g =>
    f.function.start < g.function.start ∧
        (g.function.stop ≤ f.function.stop ∨ f.function.stop ≤ g.function.start) ∨
      g.function.start < f.function.start ∧
        (f.function.stop ≤ g.function.stop ∨ g.function.stop ≤ f.function.start)
  have hseparate : (tree.root.popped.filterMap (functionOf src)).Pairwise Separate := by
    refine List.Pairwise.filterMap _ (fun a b hab f hf g hg => ?_)
      (List.Pairwise.and_mem.mp (Node.popped_pairwise tree.grammatical))
    obtain ⟨ha, hb, hab⟩ := hab
    obtain ⟨hakind, hfspan, -⟩ := functionOf_eq_some hf
    obtain ⟨hbkind, hgspan, -⟩ := functionOf_eq_some hg
    have hbody := (tree.keyword hb hbkind).1
    show _ ∨ _
    rw [hfspan, hgspan]
    rcases hab with hin | hbefore
    · obtain ⟨hlt, hle⟩ := (tree.keyword ha hakind).2 b hin hbkind
      exact .inl ⟨hlt, .inl hle⟩
    · exact .inr ⟨Nat.lt_of_lt_of_le hbody hbefore, .inr hbefore⟩
  have hperm := (List.mergeSort_perm (tree.root.popped.filterMap (functionOf src)) fun f g =>
    decide (f.function.start < g.function.start ∨
      f.function.start = g.function.start ∧ f.function.stop ≤ g.function.stop)).symm
  have hpairs := (hperm.pairwise_iff (R := Separate) fun hab => hab.symm).mp hseparate
  have hsorted := @List.pairwise_mergeSort _ (fun f g : FunctionBody =>
      decide (f.function.start < g.function.start ∨
        f.function.start = g.function.start ∧ f.function.stop ≤ g.function.stop))
    (fun a b c hab hbc => by simp at hab hbc ⊢; omega) (fun a b => by simp; omega)
    (tree.root.popped.filterMap (functionOf src))
  refine (hpairs.and hsorted).imp fun hab => ?_
  have hle := of_decide_eq_true hab.2
  rcases hab.1 with hlt | hgt
  · exact hlt
  · omega

/-! ## The comments -/

theorem lineFeeds_append (offset : Nat) (cs ds : List Char) :
    lineFeeds offset (cs ++ ds) = lineFeeds offset cs ++ lineFeeds (offset + byteLen cs) ds := by
  induction cs generalizing offset with
  | nil => rfl
  | cons c cs ih =>
    rw [List.cons_append, lineFeeds, lineFeeds, byteLen_cons]
    by_cases hc : c = '\n'
    · have hsize : c.utf8Size = 1 := by rw [hc]; decide
      rw [if_pos hc, if_pos hc, ih, hsize, Nat.add_assoc]
      rfl
    · rw [if_neg hc, if_neg hc, ih, Nat.add_assoc]

theorem length_lineFeeds (offset : Nat) (cs : List Char) :
    (lineFeeds offset cs).length = cs.count '\n' := by
  induction cs generalizing offset with
  | nil => rfl
  | cons c cs ih =>
    rw [lineFeeds]
    by_cases hc : c = '\n'
    · rw [if_pos hc, List.length_cons, ih, hc, List.count_cons_self]
    · rw [if_neg hc, ih, List.count_cons_of_ne hc]

theorem lastLine_concat (cs : List Char) (c : Char) :
    lastLine (cs ++ [c]) = if c = '\n' then [] else lastLine cs ++ [c] := by
  rw [lastLine, List.reverse_concat, List.takeWhile_cons]
  by_cases hc : c = '\n'
  · rw [if_neg (by simpa using hc), if_pos hc]
    rfl
  · rw [if_pos (by simpa using hc), if_neg hc, List.reverse_cons]
    rfl

/-- The line of an offset begins where its row says, and the column counts from there. -/
theorem lineStarts_row (before after : List Char) :
    ∃ line, (lineStarts (before ++ after))[before.count '\n']? = some line ∧
      line + byteLen (lastLine before) = byteLen before := by
  induction before using List.reverseRecOn generalizing after with
  | nil => exact ⟨0, rfl, rfl⟩
  | append_singleton before c ih =>
    rw [List.append_assoc, List.singleton_append, List.count_append, List.count_singleton,
      lastLine_concat]
    by_cases hc : c = '\n'
    · subst hc
      refine ⟨byteLen before + 1, ?_, by rw [byteLen_append]; rfl⟩
      have hlen := length_lineFeeds 0 before
      rw [if_pos (beq_self_eq_true _), lineStarts, lineFeeds_append, Nat.zero_add, lineFeeds,
        if_pos rfl, List.getElem?_cons_succ, ← hlen, List.getElem?_append_right (Nat.le_refl _),
        Nat.sub_self]
      rfl
    · obtain ⟨line, hline, hcol⟩ := ih (c :: after)
      rw [if_neg (by simpa using hc), Nat.add_zero, if_neg hc]
      refine ⟨line, hline, ?_⟩
      rw [byteLen_append, byteLen_append, ← hcol, Nat.add_assoc]

theorem lastLine_suffix (cs : List Char) : lastLine cs <:+ cs := by
  rw [← List.reverse_prefix, lastLine, List.reverse_reverse]
  exact List.takeWhile_prefix _

/-- The place of a comment: where its line begins, and its text. -/
structure CommentAt (src : List Char) (root : Node) (comment : Comment) (start : Nat) : Prop where
  node : ∃ node ∈ root.popped, node.kind = .comment ∧ node.children = [] ∧ node.start = start ∧
    node.stop = start + (1 + byteLen comment.body)
  line : ∃ line, (lineStarts src)[comment.line]? = some line ∧ line + comment.col = start
  text : slice src start (start + (1 + byteLen comment.body)) = some ('#' :: comment.body)
  before : ∃ before, slice src (start - comment.col) start = some before

/-- Every comment of a tree stands where it says. -/
theorem SyntaxTree.commentAt (tree : SyntaxTree src) {comment : Comment}
    (h : comment ∈ collectComments src tree.root) : ∃ start, CommentAt src tree.root comment start := by
  rw [collectComments, List.mem_mergeSort, List.mem_filterMap] at h
  obtain ⟨node, hnode, hcomment⟩ := h
  have hgrammar := tree.grammatical node hnode
  rw [commentOf] at hcomment
  split at hcomment
  case isFalse => cases hcomment
  case isTrue hkind =>
    obtain ⟨hleaf, body, htext⟩ := hgrammar.comment hkind
    rw [htext, Option.map_some] at hcomment
    obtain rfl := Option.some.inj hcomment
    obtain ⟨before, after, hsrc, hbefore, hstop⟩ := slice_eq_some.mp htext
    have hprefix : prefixBytes src node.start = before := by
      rw [hsrc, ← hbefore, prefixBytes_append]
    have hsize : byteLen ('#' :: body) = 1 + byteLen body := by rw [byteLen_cons]; rfl
    rw [hsize] at hstop
    obtain ⟨line, hline, hcol⟩ := lineStarts_row before ('#' :: body ++ after)
    obtain ⟨lead, hlead⟩ := lastLine_suffix before
    refine ⟨node.start, ⟨node, hnode, hkind, hleaf, rfl, hstop⟩, ⟨line, ?_, ?_⟩, ?_,
      lastLine before, ?_⟩
    · simpa only [selfSpan, hprefix, ← hsrc] using hline
    · simpa only [selfSpan, hprefix, hbefore] using hcol
    · rw [hstop] at htext
      exact htext
    · simp only [selfSpan, hprefix]
      have hlen := congrArg byteLen hlead
      rw [byteLen_append] at hlen
      refine slice_eq_some.mpr ⟨lead, '#' :: body ++ after, ?_, ?_, ?_⟩
      · rw [← List.append_assoc, hlead]
        exact hsrc
      · omega
      · omega

/-- A node that a comment meets is around it, unless it is the comment. -/
theorem SyntaxTree.around (tree : SyntaxTree src) {comment node : Node}
    (hcomment : comment ∈ tree.root.popped) (hkind : comment.kind = .comment)
    (hleaf : comment.children = []) (hnode : node ∈ tree.root.popped) (hne : node.kind ≠ .comment)
    (hleft : node.start < comment.stop) (hright : comment.start < node.stop) :
    comment ∈ Node.poppedAll node.children := by
  have hdiff : comment ≠ node := fun heq => hne (heq ▸ hkind)
  rcases Node.nested_or_apart tree.grammatical hcomment hnode with hin | hin | hapart | hapart
  · rw [Node.popped_eq, hleaf] at hin
    exact absurd (List.mem_singleton.mp hin).symm hdiff
  · rw [Node.popped_eq] at hin
    exact List.mem_of_ne_of_mem hdiff hin
  · omega
  · omega

/-- The position of a comment is in a function just when the whole comment is. -/
theorem SyntaxTree.over_iff (tree : SyntaxTree src) {comment : Comment} {start : Nat}
    (h : CommentAt src tree.root comment start) {function : FunctionBody}
    (hf : function ∈ collectFunctions src tree.root) :
    Sweep.Over (·.function.start) (·.function.stop) function start ↔
      function.function.start ≤ start ∧
        start + (1 + byteLen comment.body) ≤ function.function.stop := by
  obtain ⟨node, hnode, hkind, hleaf, rfl, hstop⟩ := h.node
  obtain ⟨owner, howner, hfunction⟩ := mem_collectFunctions.mp hf
  obtain ⟨hownerKind, hspan, -⟩ := functionOf_eq_some hfunction
  rw [Sweep.Over, hspan, ← hstop]
  refine ⟨fun hover => ⟨hover.1, ?_⟩, fun hin => ⟨hin.1, ?_⟩⟩
  · have hbelow := tree.around hnode hkind hleaf howner (by rw [hownerKind]; decide)
      (by rw [hstop]; exact Nat.lt_of_le_of_lt hover.1 (by omega)) hover.2
    refine (Node.inside_of_mem (fun inner hinner =>
      tree.grammatical inner (Node.popped_subset howner hinner)) ?_).2
    rw [Node.popped_eq]
    exact List.mem_cons_of_mem _ hbelow
  · have hle : node.stop ≤ (selfSpan src owner).stop := hin.2
    show node.start < (selfSpan src owner).stop
    omega

/-- Where a comment may be cut does not decide whether it is in a braced body. -/
theorem SyntaxTree.inBody_iff (tree : SyntaxTree src) {comment : Comment} {start : Nat}
    (h : CommentAt src tree.root comment start) {function : FunctionBody} {body : Span}
    (hf : function ∈ collectFunctions src tree.root) (hbody : function.body = some body) {cut : Nat}
    (hcut : start ≤ cut) (hle : cut ≤ start + (1 + byteLen comment.body)) :
    body.start < start ∧ cut < body.stop ↔
      body.start ≤ start ∧ start + (1 + byteLen comment.body) ≤ body.stop := by
  obtain ⟨node, hnode, hkind, hleaf, rfl, hstop⟩ := h.node
  obtain ⟨owner, howner, hfunction⟩ := mem_collectFunctions.mp hf
  obtain ⟨-, -, hbraced⟩ := functionOf_eq_some hfunction
  obtain ⟨block, hblock, hblockKind, rfl⟩ := hbraced body hbody
  have hmem : block ∈ tree.root.popped :=
    Node.popped_subset howner (Node.mem_popped_of_child hblock)
  have hbelow : ∀ inner ∈ block.popped, inner.Grammatical src := fun inner hinner =>
    tree.grammatical inner (Node.popped_subset hmem hinner)
  -- inside a block a comment stands between its braces
  have hbetween : block.start < node.stop → node.start < block.stop →
      block.start < node.start ∧ node.stop < block.stop := by
    intro hleft hright
    have hin := tree.around hnode hkind hleaf hmem (by rw [hblockKind]; decide) hleft hright
    have hcomment : node.kind ≠ .token := by rw [hkind]; decide
    obtain ⟨first, inner, last, hchildren, hfirst, hlast⟩ :=
      (tree.grammatical block hmem).braced hblockKind
    have hwithin := (tree.grammatical block hmem).within
    rw [hchildren] at hwithin
    have hfirstIn := hwithin first List.mem_cons_self
    have hlastIn := hwithin last
      (List.mem_cons_of_mem _ (List.mem_append_right _ List.mem_cons_self))
    have hafter := Node.after_token hbelow hchildren hfirst hin hcomment
    have hbefore := Node.before_token hbelow (hchildren.trans (List.cons_append ..).symm) hlast hin
      hcomment
    have hopen := hfirst.nonempty
    have hclose := hlast.nonempty
    omega
  rw [← hstop] at hle ⊢
  show block.start < node.start ∧ cut < block.stop ↔
    block.start ≤ node.start ∧ node.stop ≤ block.stop
  refine ⟨fun hin => ?_, fun hin => ?_⟩
  · have hstrict := hbetween (by omega) (by omega)
    omega
  · have hstrict := hbetween (by omega) (by omega)
    omega

end Ry.Lexical
