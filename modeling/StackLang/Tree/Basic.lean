import StackLang.Token.Basic

/-!
# Syntax trees

The shape of an expression or a statement is given once, over a type of children.  With nodes as
children it makes a tree whose nodes carry a tag; with numbers as children it makes one entry of a
flat table.

* `Expr τ` and `Stmt τ` are trees with a tag of type `τ` at every node.  The parser tags a node
  with its line.
* `Expr.Shape ρ` and `Stmt.Shape ρ ε` are single nodes, with sub-statements `ρ` and
  sub-expressions `ε`.
-/

namespace StackLang

/-! ## Expressions -/

/-- One expression over its sub-expressions. -/
inductive Expr.Shape (ε : Type) where
  | binary (left : ε) (op : Token) (right : ε)
  | grouping (inner : ε)
  | literal (value : Literal)
  /-- An operator before its operand, or behind it if `trailing` holds. -/
  | unary (op : Token) (operand : ε) (trailing : Bool)
  | name (name : Token)
  /-- Stores into a variable or, with an index, into an element. -/
  | assign (name : Token) (index : Option ε) (value : ε)
  | call (callee : Token) (args : List ε)
  | element (name : Token) (index : ε)
  /-- A list in braces, which initializes an array. -/
  | braces (elements : List ε)
  | random (keyword : Token) (bound : ε)
  deriving Repr

/-- An expression with a tag at every node. -/
inductive Expr (τ : Type) where
  | node (tag : τ) (shape : Expr.Shape (Expr τ))

namespace Expr

variable {τ : Type}

def tag : Expr τ → τ
  | node t _ => t

def shape : Expr τ → Shape (Expr τ)
  | node _ s => s

namespace Shape

variable {α β : Type}

/-- Replaces the children one by one, from left to right, if all replacements succeed. -/
def traverse (f : α → Option β) : Shape α → Option (Shape β)
  | binary l op r => do return binary (← f l) op (← f r)
  | grouping e => do return grouping (← f e)
  | literal v => some (literal v)
  | unary op e trailing => do return unary op (← f e) trailing
  | name n => some (name n)
  | assign n none v => do return assign n none (← f v)
  | assign n (some i) v => do return assign n (some (← f i)) (← f v)
  | call n args => do return call n (← args.mapM f)
  | element n i => do return element n (← f i)
  | braces es => do return braces (← es.mapM f)
  | random k e => do return random k (← f e)

end Shape

end Expr

/-! ## Statements -/

/-- One statement over its sub-statements `ρ` and its expressions `ε`. -/
inductive Stmt.Shape (ρ ε : Type) where
  | block (body : List ρ)
  | ret (keyword : Token) (value : Option ε)
  | expression (value : ε)
  /-- Conditions with their blocks, tried in turn, and the block for when none holds. -/
  | choice (branches : List (ε × ρ)) (otherwise : Option ρ)
  | whileLoop (condition : ε) (body : ρ)
  | forLoop (init : Option ρ) (condition update : Option ε) (body : ρ)
  | output (keyword : Token) (values : List ε)
  | input (name : Token)
  | var (name : Token) (type : ValueType) (init : Option ε)
  | array (name : Token) (type : ValueType) (length : Nat) (init : Option ε)
  | stop (keyword : Token)
  | skip (keyword : Token)
  deriving Repr

/-- A statement with a tag at every node. -/
inductive Stmt (τ : Type) where
  | node (tag : τ) (shape : Stmt.Shape (Stmt τ) (Expr τ))

namespace Stmt

variable {τ : Type}

def tag : Stmt τ → τ
  | node t _ => t

def shape : Stmt τ → Shape (Stmt τ) (Expr τ)
  | node _ s => s

namespace Shape

variable {α β γ δ : Type}

/-- Whether the statement repeats its body. -/
def isLoop : Shape α γ → Bool
  | whileLoop _ _ | forLoop _ _ _ _ => true
  | _ => false

/-- The sub-statements, in source order. -/
def children : Shape α γ → List α
  | block body => body
  | choice branches otherwise => branches.map Prod.snd ++ otherwise.toList
  | whileLoop _ body => [body]
  | forLoop init _ _ body => init.toList ++ [body]
  | _ => []

/-- An optional child, if its replacement succeeds. -/
def traverseOption (f : α → Option β) : Option α → Option (Option β)
  | none => some none
  | some a => (f a).map some

/-- Replaces sub-statements by `f` and expressions by `g`, if all replacements succeed. -/
def traverse (f : α → Option β) (g : γ → Option δ) : Shape α γ → Option (Shape β δ)
  | block body => do return block (← body.mapM f)
  | ret k v => do return ret k (← traverseOption g v)
  | expression e => do return expression (← g e)
  | choice branches otherwise => do
    return choice (← branches.mapM fun (c, b) => do return (← g c, ← f b))
      (← traverseOption f otherwise)
  | whileLoop c b => do return whileLoop (← g c) (← f b)
  | forLoop i c u b => do
    return forLoop (← traverseOption f i) (← traverseOption g c) (← traverseOption g u) (← f b)
  | output k vs => do return output k (← vs.mapM g)
  | input n => some (input n)
  | var n t i => do return var n t (← traverseOption g i)
  | array n t len i => do return array n t len (← traverseOption g i)
  | stop k => some (stop k)
  | skip k => some (skip k)

end Shape

end Stmt

/-! ## Functions -/

/-- A parameter of a function. -/
structure Param where
  name : Token
  type : ValueType
  deriving DecidableEq, Repr

/-- A function with a body of type `ρ`. -/
structure Function (ρ : Type) where
  returnType : ValueType
  name : Token
  params : List Param
  body : ρ
  deriving Repr

end StackLang
