import StackLang.Scope
import StackLang.Tree.Basic

/-!
# Programs

A program is a flat tree together with what is known about its nodes.

* `Tree` lists the functions, statements and expressions; a node refers to others by their numbers.
  Nodes may be shared and some may not be reachable from any function.
* `Notes` says about each node what the analyses have found out: its scope, the declaration its name
  stands for, its type, its place in the frame, its surroundings.

Analyses change the notes and never the tree.
-/

namespace StackLang

/-! ## The tree -/

structure ExprNode where
  shape : Expr.Shape ExprId
  line : Line
  deriving Repr

structure StmtNode where
  shape : Stmt.Shape StmtId ExprId
  line : Line
  deriving Repr

/-- The nodes of a program, by number. -/
structure Tree where
  functions : Array (Function StmtId) := #[]
  stmts : Array StmtNode := #[]
  exprs : Array ExprNode := #[]

namespace Tree

/-- The first function of the given name. -/
def findFunction? (t : Tree) (name : String) : Option FunctionId :=
  t.functions.findIdx? fun f => f.name.lexeme = name

/-- Adds an expression. -/
def addExpr (t : Tree) (n : ExprNode) : ExprId × Tree :=
  (t.exprs.size, { t with exprs := t.exprs.push n })

/-- Adds a statement. -/
def addStmt (t : Tree) (n : StmtNode) : StmtId × Tree :=
  (t.stmts.size, { t with stmts := t.stmts.push n })

end Tree

/-! ## The notes -/

/-- What a statement is part of. -/
inductive Owner where
  | stmt (id : StmtId)
  | function (id : FunctionId)
  deriving DecidableEq, Repr

structure ExprNote where
  scope : Option ScopeId := none
  type : Option ValueType := none
  /-- What the name of a variable, an assignment, an element or a call stands for. -/
  binding : Option Binding := none
  deriving DecidableEq, Repr, Inhabited

structure StmtNote where
  parent : Option Owner := none
  scope : Option ScopeId := none
  /-- What the name of an input statement stands for. -/
  binding : Option Binding := none
  /-- The place of a declared variable, or of the first element of an array, in the frame. -/
  slot : Option Int := none
  /-- The loop that a jump leaves or continues. -/
  target : Option StmtId := none
  deriving DecidableEq, Repr, Inhabited

structure FunctionNote where
  scope : Option ScopeId := none
  /-- The places of the parameters in the frame. -/
  slots : List Int := []
  /-- The return statements of the function. -/
  returns : List StmtId := []
  /-- The number of cells that the variables of the function take. -/
  frameSlots : Int := 0
  deriving DecidableEq, Repr, Inhabited

/-- What is known about the nodes of a tree, by number. -/
structure Notes where
  functions : Array FunctionNote := #[]
  stmts : Array StmtNote := #[]
  exprs : Array ExprNote := #[]

namespace Notes

def expr (n : Notes) (id : ExprId) : ExprNote :=
  n.exprs.getD id {}

def stmt (n : Notes) (id : StmtId) : StmtNote :=
  n.stmts.getD id {}

def function (n : Notes) (id : FunctionId) : FunctionNote :=
  n.functions.getD id {}

def modifyExpr (n : Notes) (id : ExprId) (f : ExprNote → ExprNote) : Notes :=
  { n with exprs := n.exprs.modify id f }

def modifyStmt (n : Notes) (id : StmtId) (f : StmtNote → StmtNote) : Notes :=
  { n with stmts := n.stmts.modify id f }

def modifyFunction (n : Notes) (id : FunctionId) (f : FunctionNote → FunctionNote) : Notes :=
  { n with functions := n.functions.modify id f }

/-- Nothing is known yet about the nodes of the tree. -/
def blank (t : Tree) : Notes where
  functions := t.functions.map fun f => { slots := f.params.map fun _ => 0 }
  stmts := t.stmts.map fun _ => {}
  exprs := t.exprs.map fun _ => {}

end Notes

/-- A program and what is known about it. -/
structure Program where
  tree : Tree
  notes : Notes
  scopes : ScopeGraph := .empty

/-! ## Variables -/

/-- A declared variable: its type, the length if it is an array, and its place in the frame. -/
structure VarInfo where
  type : ValueType
  length : Option Nat
  slot : Option Int
  deriving DecidableEq, Repr

namespace Tree

/-- The variable that a binding stands for, if it does. -/
def varInfo? (t : Tree) (n : Notes) : Binding → Option VarInfo
  | .param f i => do
    let function ← t.functions[f]?
    let p ← function.params[i]?
    return ⟨p.type, none, some ((n.function f).slots.getD i 0)⟩
  | .localVar s => do
    let node ← t.stmts[s]?
    match node.shape with
    | .var _ type _ => return ⟨type, none, (n.stmt s).slot⟩
    | .array _ type length _ => return ⟨type, some length, (n.stmt s).slot⟩
    | _ => none
  | .function _ => none

/-! ## Surroundings -/

/-- Follows the owners from `o` upwards to a function; the fuel bounds the number of steps. -/
def functionAbove (n : Notes) : Nat → Option Owner → Option FunctionId
  | _, none => none
  | _, some (.function f) => some f
  | 0, some (.stmt _) => none
  | fuel + 1, some (.stmt s) => functionAbove n fuel (n.stmt s).parent

/-- Whether the statement is a loop. -/
def isLoop (t : Tree) (s : StmtId) : Bool :=
  match t.stmts[s]? with
  | some node => node.shape.isLoop
  | none => false

/-- Follows the owners from `o` upwards to a loop; the fuel bounds the number of steps. -/
def loopAbove (t : Tree) (n : Notes) : Nat → Option Owner → Option StmtId
  | _, none | _, some (.function _) => none
  | 0, some (.stmt _) => none
  | fuel + 1, some (.stmt s) =>
    if t.isLoop s then some s else loopAbove t n fuel (n.stmt s).parent

/-- The function that the statement belongs to. -/
def enclosingFunction (t : Tree) (n : Notes) (s : StmtId) : Option FunctionId :=
  functionAbove n t.stmts.size (n.stmt s).parent

/-- The innermost loop around the statement. -/
def enclosingLoop (t : Tree) (n : Notes) (s : StmtId) : Option StmtId :=
  t.loopAbove n t.stmts.size (n.stmt s).parent

end Tree

end StackLang
