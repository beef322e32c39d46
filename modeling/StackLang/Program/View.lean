import StackLang.Program.Basic

/-!
# Nested views of a tree

The nested tree below a node of a flat tree.  Every node of a view is marked with its number and its
line, so that an analysis can walk the view and keep its findings in the notes.

The number of nodes bounds the depth of a tree without cycles; a node on a cycle, or with a missing
child, has no view.
-/

namespace StackLang

/-- The number and the line of a node. -/
structure Mark where
  id : Nat
  line : Line
  deriving DecidableEq, Repr

namespace Tree

/-- The expression with the given number, if its depth is at most the fuel. -/
def exprWithin (t : Tree) : Nat → ExprId → Option (Expr Mark)
  | 0, _ => none
  | fuel + 1, id => do
    let node ← t.exprs[id]?
    return .node ⟨id, node.line⟩ (← node.shape.traverse (t.exprWithin fuel))

/-- The expression with the given number. -/
def expr? (t : Tree) (id : ExprId) : Option (Expr Mark) :=
  t.exprWithin t.exprs.size id

/-- The statement with the given number, if its depth is at most the fuel. -/
def stmtWithin (t : Tree) : Nat → StmtId → Option (Stmt Mark)
  | 0, _ => none
  | fuel + 1, id => do
    let node ← t.stmts[id]?
    return .node ⟨id, node.line⟩ (← node.shape.traverse (t.stmtWithin fuel) t.expr?)

/-- The statement with the given number. -/
def stmt? (t : Tree) (id : StmtId) : Option (Stmt Mark) :=
  t.stmtWithin t.stmts.size id

/-- The function with the given number, with its body in view. -/
def function? (t : Tree) (id : FunctionId) : Option (Function (Stmt Mark)) := do
  let f ← t.functions[id]?
  return { f with body := ← t.stmt? f.body }

/-- The functions that have a view, with their numbers. -/
def views (t : Tree) : List (FunctionId × Function (Stmt Mark)) :=
  (List.range t.functions.size).filterMap fun id => (t.function? id).map (id, ·)

end Tree

/-! ## The nodes of a view -/

mutual

/-- The tags of an expression, its own last. -/
def Expr.tags {τ : Type} : Expr τ → List τ
  | .node t (.binary l _ r) => l.tags ++ r.tags ++ [t]
  | .node t (.grouping e) => e.tags ++ [t]
  | .node t (.literal _) => [t]
  | .node t (.unary _ e _) => e.tags ++ [t]
  | .node t (.name _) => [t]
  | .node t (.assign _ none v) => v.tags ++ [t]
  | .node t (.assign _ (some i) v) => i.tags ++ v.tags ++ [t]
  | .node t (.call _ args) => Expr.tagsList args ++ [t]
  | .node t (.element _ i) => i.tags ++ [t]
  | .node t (.braces es) => Expr.tagsList es ++ [t]
  | .node t (.random _ e) => e.tags ++ [t]

/-- The tags of several expressions. -/
def Expr.tagsList {τ : Type} : List (Expr τ) → List τ
  | [] => []
  | e :: es => e.tags ++ Expr.tagsList es

end

namespace Stmt

variable {τ : Type}

mutual

/-- The tags of a statement and of the statements in it, its own last. -/
def tags : Stmt τ → List τ
  | .node t (.block body) => tagsList body ++ [t]
  | .node t (.choice branches otherwise) => tagsBranches branches ++ tagsOption otherwise ++ [t]
  | .node t (.whileLoop _ body) => body.tags ++ [t]
  | .node t (.forLoop init _ _ body) => tagsOption init ++ body.tags ++ [t]
  | .node t (.ret _ _) | .node t (.expression _) | .node t (.output _ _) | .node t (.input _)
  | .node t (.var _ _ _) | .node t (.array _ _ _ _) | .node t (.stop _) | .node t (.skip _) => [t]

def tagsList : List (Stmt τ) → List τ
  | [] => []
  | s :: ss => s.tags ++ tagsList ss

def tagsBranches : List (Expr τ × Stmt τ) → List τ
  | [] => []
  | (_, s) :: rest => s.tags ++ tagsBranches rest

def tagsOption : Option (Stmt τ) → List τ
  | none => []
  | some s => s.tags

end

/-- The tags of all expressions in the expressions given. -/
def exprTagsOf (es : List (Expr τ)) : List τ :=
  es.flatMap Expr.tags

mutual

/-- The tags of the expressions in a statement. -/
def exprTags : Stmt τ → List τ
  | .node _ (.block body) => exprTagsList body
  | .node _ (.ret _ v) => exprTagsOf v.toList
  | .node _ (.expression e) => e.tags
  | .node _ (.choice branches otherwise) => exprTagsBranches branches ++ exprTagsOption otherwise
  | .node _ (.whileLoop c body) => c.tags ++ body.exprTags
  | .node _ (.forLoop init c u body) =>
    exprTagsOption init ++ exprTagsOf c.toList ++ exprTagsOf u.toList ++ body.exprTags
  | .node _ (.output _ vs) => exprTagsOf vs
  | .node _ (.input _) => []
  | .node _ (.var _ _ i) => exprTagsOf i.toList
  | .node _ (.array _ _ _ i) => exprTagsOf i.toList
  | .node _ (.stop _) | .node _ (.skip _) => []

def exprTagsList : List (Stmt τ) → List τ
  | [] => []
  | s :: ss => s.exprTags ++ exprTagsList ss

def exprTagsBranches : List (Expr τ × Stmt τ) → List τ
  | [] => []
  | (c, s) :: rest => c.tags ++ s.exprTags ++ exprTagsBranches rest

def exprTagsOption : Option (Stmt τ) → List τ
  | none => []
  | some s => s.exprTags

end

end Stmt

/-- The numbers below `n` that occur among the marks, in ascending order. -/
def Mark.numbers (n : Nat) (marks : List Mark) : List Nat :=
  let seen := marks.foldl (fun seen m => seen.setIfInBounds m.id true) (Array.replicate n false)
  (List.range n).filter fun id => seen.getD id false

namespace Tree

/-- The statements that some function reaches, in ascending order. -/
def reachableStmts (t : Tree) : List StmtId :=
  Mark.numbers t.stmts.size (t.views.flatMap fun (_, f) => f.body.tags)

/-- The expressions that some function reaches, in ascending order. -/
def reachableExprs (t : Tree) : List ExprId :=
  Mark.numbers t.exprs.size (t.views.flatMap fun (_, f) => f.body.exprTags)

/-- The expressions that the given one reaches, in ascending order. -/
def exprsBelow (t : Tree) (root : ExprId) : List ExprId :=
  Mark.numbers t.exprs.size ((t.expr? root).map Expr.tags |>.getD [])

end Tree

end StackLang
