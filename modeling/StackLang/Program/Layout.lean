import StackLang.Parse.Stmt
import StackLang.Program.View

/-!
# Laying out programs

A parsed program is laid out as a flat tree: children come before their parents and siblings follow
each other as in the source.  Of an assignment the target is laid out first, as the name or element
it was read as, and then the value; the target node itself is not referred to again.

When all nodes are in place, every statement is linked to what it is part of.
-/

namespace StackLang

/-! ## Nodes -/

/-- Adds an expression to the tree that is being laid out. -/
def putExpr (line : Line) (shape : Expr.Shape ExprId) : StateM Tree ExprId :=
  modifyGet fun t => t.addExpr ⟨shape, line⟩

/-- Adds a statement to the tree that is being laid out. -/
def putStmt (line : Line) (shape : Stmt.Shape StmtId ExprId) : StateM Tree StmtId :=
  modifyGet fun t => t.addStmt ⟨shape, line⟩

namespace Expr

mutual

/-- Lays out an expression. -/
def lay : Expr Line → StateM Tree ExprId
  | .node line (.binary l op r) => do
    let l ← lay l
    let r ← lay r
    putExpr line (.binary l op r)
  | .node line (.grouping e) => do
    let e ← lay e
    putExpr line (.grouping e)
  | .node line (.literal v) => putExpr line (.literal v)
  | .node line (.unary op e trailing) => do
    let e ← lay e
    putExpr line (.unary op e trailing)
  | .node line (.name n) => putExpr line (.name n)
  | .node line (.assign n none v) => do
    let _ ← putExpr n.line (.name n)
    let v ← lay v
    putExpr line (.assign n none v)
  | .node line (.assign n (some i) v) => do
    let i ← lay i
    let _ ← putExpr n.line (.element n i)
    let v ← lay v
    putExpr line (.assign n (some i) v)
  | .node line (.call n args) => do
    let args ← layList args
    putExpr line (.call n args)
  | .node line (.element n i) => do
    let i ← lay i
    putExpr line (.element n i)
  | .node line (.braces es) => do
    let es ← layList es
    putExpr line (.braces es)
  | .node line (.random k e) => do
    let e ← lay e
    putExpr line (.random k e)

/-- Lays out expressions in order. -/
def layList : List (Expr Line) → StateM Tree (List ExprId)
  | [] => return []
  | e :: es => do
    let first ← lay e
    return first :: (← layList es)

end

/-- Lays out an optional expression. -/
def layOption : Option (Expr Line) → StateM Tree (Option ExprId)
  | none => return none
  | some e => return some (← e.lay)

end Expr

namespace Stmt

mutual

/-- Lays out a statement. -/
def lay : Stmt Line → StateM Tree StmtId
  | .node line (.block body) => do
    let body ← layList body
    putStmt line (.block body)
  | .node line (.ret k v) => do
    let v ← Expr.layOption v
    putStmt line (.ret k v)
  | .node line (.expression e) => do
    let e ← e.lay
    putStmt line (.expression e)
  | .node line (.choice branches otherwise) => do
    let branches ← layBranches branches
    let otherwise ← layOption otherwise
    putStmt line (.choice branches otherwise)
  | .node line (.whileLoop c body) => do
    let c ← c.lay
    let body ← lay body
    putStmt line (.whileLoop c body)
  | .node line (.forLoop init c u body) => do
    let init ← layOption init
    let c ← Expr.layOption c
    let u ← Expr.layOption u
    let body ← lay body
    putStmt line (.forLoop init c u body)
  | .node line (.output k vs) => do
    let vs ← Expr.layList vs
    putStmt line (.output k vs)
  | .node line (.input n) => putStmt line (.input n)
  | .node line (.var n type init) => do
    let init ← Expr.layOption init
    putStmt line (.var n type init)
  | .node line (.array n type length init) => do
    let init ← Expr.layOption init
    putStmt line (.array n type length init)
  | .node line (.stop k) => putStmt line (.stop k)
  | .node line (.skip k) => putStmt line (.skip k)

/-- Lays out statements in order. -/
def layList : List (Stmt Line) → StateM Tree (List StmtId)
  | [] => return []
  | s :: ss => do
    let first ← lay s
    return first :: (← layList ss)

/-- Lays out conditions with their blocks, in order. -/
def layBranches : List (Expr Line × Stmt Line) → StateM Tree (List (ExprId × StmtId))
  | [] => return []
  | (c, s) :: rest => do
    let c ← c.lay
    let s ← lay s
    return (c, s) :: (← layBranches rest)

/-- Lays out an optional statement. -/
def layOption : Option (Stmt Line) → StateM Tree (Option StmtId)
  | none => return none
  | some s => return some (← lay s)

end

end Stmt

/-- Lays out a function. -/
def Function.lay (f : Function (Stmt Line)) : StateM Tree Unit := do
  let body ← f.body.lay
  modify fun t => { t with functions := t.functions.push { f with body := body } }

/-- Lays out functions in order. -/
def layFunctions : List (Function (Stmt Line)) → StateM Tree Unit
  | [] => return
  | f :: fs => do
    f.lay
    layFunctions fs

/-! ## Links -/

namespace Stmt

mutual

/-- Notes for a statement, and for the statements in it, what they are part of. -/
def link (owner : Owner) : Stmt Mark → Notes → Notes
  | .node m shape, n =>
    let n := n.modifyStmt m.id ({ · with parent := some owner })
    match shape with
    | .block body => linkList (.stmt m.id) body n
    | .choice branches otherwise =>
      linkOption (.stmt m.id) otherwise (linkBranches (.stmt m.id) branches n)
    | .whileLoop _ body => link (.stmt m.id) body n
    | .forLoop init _ _ body => link (.stmt m.id) body (linkOption (.stmt m.id) init n)
    | _ => n

def linkList (owner : Owner) : List (Stmt Mark) → Notes → Notes
  | [], n => n
  | s :: ss, n => linkList owner ss (link owner s n)

def linkBranches (owner : Owner) : List (Expr Mark × Stmt Mark) → Notes → Notes
  | [], n => n
  | (_, s) :: rest, n => linkBranches owner rest (link owner s n)

def linkOption (owner : Owner) : Option (Stmt Mark) → Notes → Notes
  | none, n => n
  | some s, n => link owner s n

end

end Stmt

/-- Links the statements of all functions, in order. -/
def Tree.link (t : Tree) (n : Notes) : Notes :=
  t.views.foldl (fun n (id, f) => f.body.link (.function id) n) n

/-! ## Programs -/

namespace Program

/-- The program with the given tree, about which nothing else is known. -/
def ofTree (t : Tree) : Program :=
  ⟨t, t.link (.blank t), .empty⟩

/-- The program of the given functions. -/
def ofFunctions (fs : List (Function (Stmt Line))) : Program :=
  ofTree ((layFunctions fs).run {}).2

/-- A program put together from nodes, with what is known about them from the start.  The statements
listed last are cut off from what they are part of. -/
def assemble (t : Tree) (n : Notes) (unlinked : List StmtId) : Program :=
  let linked := t.link n
  ⟨t, unlinked.foldl (fun n s => n.modifyStmt s ({ · with parent := none })) linked, .empty⟩

/-- Parses a token stream as a program. -/
def parse (tokens : List Token) : Except ParseError Program :=
  (Parse.functions.run (.start tokens)).map fun (fs, _) => ofFunctions fs

end Program

/-- An expression that starts a token stream: its number, and the tree of it and of the functions
that make up the rest of the stream, or what is wrong with that rest. -/
def Tree.parseExpr (tokens : List Token) :
    Except ParseError (ExprId × Except ParseError Tree) := do
  let (e, rest) ← Parse.expression.run (.start tokens)
  let (id, t) := e.lay.run {}
  return (id, (Parse.functions.run rest).map fun (fs, _) => ((layFunctions fs).run t).2)

end StackLang
