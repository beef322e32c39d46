import StackLang.Program.Basic
import StackLang.Text.Outline
import StackLang.Token.Names

/-!
# Printouts of programs

A program in full, as indented text: all functions, statements and expressions in the order of
their numbers, with what is known about them, and the scopes.
-/

namespace StackLang

open Text (Outline)
open Text.Outline

namespace Printout

/-! ## Leaves -/

def functionId (id : FunctionId) : Outline := wrap "FunctionId" [ofNat id]

def stmtId (id : StmtId) : Outline := wrap "StmtId" [ofNat id]

def exprId (id : ExprId) : Outline := wrap "ExprId" [ofNat id]

def scopeId (id : ScopeId) : Outline := wrap "ScopeId" [ofNat id]

def flag (b : Bool) : Outline := leaf (if b then "true" else "false")

def type (t : ValueType) : Outline :=
  leaf (match t with
    | .int => "Int"
    | .float => "Float"
    | .bool => "Bool"
    | .char => "Char"
    | .string => "String"
    | .void => "Void")

def literal (v : Literal) : Outline :=
  let name := match v with
    | .int _ => "Int"
    | .float _ => "Float"
    | .bool _ => "Bool"
    | .char _ => "Char"
    | .str _ => "Str"
  wrap name [leaf (Token.literalValue v)]

def kind : Token.Kind → Outline
  | .ident s => wrap "Ident" [leaf (Text.quote s)]
  | .literal v => wrap (Token.literalName v) [leaf (Token.literalValue v)]
  | k => leaf k.name

def token (t : Token) : Outline :=
  record "Token" [("kind", kind t.kind), ("lexeme", leaf (Text.quote t.lexeme)),
    ("line", ofNat t.pos.line), ("col", ofNat t.pos.col)]

def binding : Binding → Outline
  | .param f i => record "Param" [("function", functionId f), ("index", ofNat i)]
  | .localVar s => wrap "Local" [stmtId s]
  | .function f => wrap "Function" [functionId f]

def owner : Owner → Outline
  | .stmt s => wrap "Stmt" [stmtId s]
  | .function f => wrap "Function" [functionId f]

/-! ## Nodes -/

def expr (node : ExprNode) (note : ExprNote) : Outline :=
  let bound := ("binding", optional binding note.binding)
  let shape := match node.shape with
    | .binary l op r =>
      record "Binary" [("left", exprId l), ("op", token op), ("right", exprId r)]
    | .grouping e => wrap "Grouping" [exprId e]
    | .literal v => wrap "Literal" [literal v]
    | .unary op e after =>
      record "Unary" [("op", token op), ("operand", exprId e), ("postfix", flag after)]
    | .name x => record "Variable" [("name", token x), bound]
    | .assign x i v =>
      record "Assign" [("name", token x), ("index", optional exprId i), ("value", exprId v), bound]
    | .call f args =>
      record "Call" [("callee", token f), ("args", sequence (args.map exprId)), bound]
    | .element x i => record "ArrayAccess" [("name", token x), ("index", exprId i), bound]
    | .braces es => record "ArrayCreate" [("elements", sequence (es.map exprId))]
    | .random k e => record "Random" [("keyword", token k), ("bound", exprId e)]
  record "Expr" [("kind", shape), ("line", ofNat node.line), ("scope", optional scopeId note.scope),
    ("ty", optional type note.type)]

def stmt (node : StmtNode) (note : StmtNote) : Outline :=
  let slot := ("slot", optional ofInt note.slot)
  let target := ("target", optional stmtId note.target)
  let shape := match node.shape with
    | .block ss => wrap "Block" [sequence (ss.map stmtId)]
    | .ret k v => record "Return" [("keyword", token k), ("value", optional exprId v)]
    | .expression e => wrap "Expression" [exprId e]
    | .choice branches otherwise =>
      record "If" [
        ("branches", sequence (branches.map fun (c, s) => wrap "" [exprId c, stmtId s])),
        ("else_block", optional stmtId otherwise)]
    | .whileLoop c s => record "While" [("condition", exprId c), ("body", stmtId s)]
    | .forLoop i c u s =>
      record "For" [("init", optional stmtId i), ("condition", optional exprId c),
        ("update", optional exprId u), ("body", stmtId s)]
    | .output k es => record "Output" [("keyword", token k), ("values", sequence (es.map exprId))]
    | .input x => record "Input" [("name", token x), ("binding", optional binding note.binding)]
    | .var x t i =>
      wrap "Var" [record "VarDecl" [("name", token x), ("ty", type t),
        ("initializer", optional exprId i), slot]]
    | .array x t n i =>
      wrap "Array" [record "ArrayDecl" [("name", token x), ("ty", type t), ("len", ofNat n),
        ("initializer", optional exprId i), slot]]
    | .stop k => record "Break" [("keyword", token k), target]
    | .skip k => record "Continue" [("keyword", token k), target]
  record "Stmt" [("kind", shape), ("line", ofNat node.line),
    ("parent", optional owner note.parent), ("scope", optional scopeId note.scope)]

def param (p : Param) (slot : Int) : Outline :=
  record "Param" [("name", token p.name), ("ty", type p.type), ("slot", ofInt slot)]

def function (f : Function StmtId) (note : FunctionNote) : Outline :=
  record "Function" [("return_type", type f.returnType), ("name", token f.name),
    ("params", sequence (f.params.zipWith param note.slots)), ("body", stmtId f.body),
    ("returns", sequence (note.returns.map stmtId)), ("frame_slots", ofInt note.frameSlots),
    ("scope", optional scopeId note.scope)]

def nameKind : NameKind → Outline
  | .variableName => leaf "Variable"
  | .functionName => leaf "Function"

def scope (s : Scope) : Outline :=
  record "Scope" [("parent", optional scopeId s.parent),
    ("symbols", table (s.listed.map fun ((name, k), b) =>
      (wrap "" [leaf (Text.quote name), nameKind k], binding b)))]

end Printout

namespace Program

/-- A program and all that is known about it, as an outline. -/
def outline (p : Program) : Outline :=
  record "Program" [
    ("functions", sequence (p.tree.functions.toList.mapIdx fun i f =>
      Printout.function f (p.notes.function i))),
    ("stmts", sequence (p.tree.stmts.toList.mapIdx fun i s => Printout.stmt s (p.notes.stmt i))),
    ("exprs", sequence (p.tree.exprs.toList.mapIdx fun i e => Printout.expr e (p.notes.expr i))),
    ("scopes", record "ScopeGraph"
      [("scopes", sequence (p.scopes.scopes.toList.map Printout.scope))])]

/-- The printout of a program. -/
def printout (p : Program) : String :=
  p.outline.render ""

end Program

end StackLang
