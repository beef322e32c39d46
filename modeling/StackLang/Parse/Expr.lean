import StackLang.Parse.Cursor
import StackLang.Tree.Basic

/-!
# Parsing expressions

An assignment is right-associative and has a name or an element on its left.  Below it are six
levels of binary operators, all left-associative, then operators before and behind an operand, then
the primary expressions.

`expression` and `unary` are recursive in a fuel.  Each nested expression or operand comes behind a
token of its own, and reaching an operand from an expression costs one more step, so twice the
number of remaining tokens, and two, is always enough: see `Cursor.exprFuel`.
-/

namespace StackLang

namespace Token

/-- The binary operators by level, the loosest first. -/
def binaryLevels : List (List Operator) :=
  [[.or], [.and], [.eq, .ne], [.lt, .le, .gt, .ge], [.plus, .minus], [.star, .slash, .percent]]

/-- Whether the token is one of the given operators. -/
def isOneOf (ops : List Operator) (t : Token) : Bool :=
  match t.kind with
  | .operator op => ops.contains op
  | _ => false

end Token

namespace Expr

variable {τ : Type}

/-- Whether the expression is just a name. -/
def isName : Expr τ → Bool
  | node _ (.name _) => true
  | _ => false

end Expr

/-- Fuel that is enough to parse an expression here. -/
def Cursor.exprFuel (c : Cursor) : Nat :=
  2 * c.rest.length + 2

namespace Parse

/-- Operands joined by operators of one level; the fuel bounds the number of operators. -/
def chain (operand : Parse (Expr Line)) (ops : List Token.Operator) :
    Nat → Expr Line → Parse (Expr Line)
  | 0, left => return left
  | fuel + 1, left => do
    match ← takeIf (Token.isOneOf ops) with
    | none => return left
    | some op =>
      let right ← operand
      chain operand ops fuel (.node op.line (.binary left op right))

/-- Binary expressions of the given levels. -/
def binary (operand : Parse (Expr Line)) : List (List Token.Operator) → Parse (Expr Line)
  | [] => operand
  | ops :: tighter => do
    let left ← binary operand tighter
    chain (binary operand tighter) ops (← get).rest.length left

/-- The assignment of a value to what has been read as an expression. -/
def assignTo (target : Expr Line) (eq : Token) (value : Expr Line) : Parse (Expr Line) :=
  match target with
  | .node _ (.name n) => return .node eq.line (.assign n none value)
  | .node _ (.element n i) => return .node eq.line (.assign n (some i) value)
  | _ => failAt eq.pos .invalidTarget

/-- An assignment or a binary expression. -/
def assignment (operand value : Parse (Expr Line)) : Parse (Expr Line) := do
  let target ← binary operand Token.binaryLevels
  match ← accept (.operator .assign) with
  | none => return target
  | some eq => assignTo target eq (← value)

/-- What follows a name: the arguments of a call, an index, or nothing. -/
def afterName (sub : Parse (Expr Line)) (n : Token) : Parse (Expr Line) := do
  match ← accept (.punctuation .lparen) with
  | some _ =>
    let args ← itemsBefore .rparen sub
    let _ ← mark .rparen .arguments
    return .node n.line (.call n args)
  | none =>
    match ← accept (.punctuation .lbracket) with
    | some _ =>
      let index ← sub
      let _ ← mark .rbracket .index
      return .node n.line (.element n index)
    | none => return .node n.line (.name n)

/-- A primary expression that starts with the token `t`, which has been taken. -/
def primaryFrom (sub : Parse (Expr Line)) (t : Token) : Parse (Expr Line) :=
  match t.kind with
  | .literal v => return .node t.line (.literal v)
  | .ident _ => afterName sub t
  | .punctuation .lparen => do
    let inner ← sub
    let _ ← mark .rparen .expression
    return .node t.line (.grouping inner)
  | .keyword .randomWord => do
    let _ ← mark .lparen .randomWord
    let bound ← sub
    let _ ← mark .rparen .randomBound
    return .node t.line (.random t bound)
  | .punctuation .lbrace => do
    let elements ← itemsBefore .rbrace sub
    let _ ← mark .rbrace .elements
    return .node t.line (.braces elements)
  | _ => failAt t.pos (.unexpected t.lexeme)

/-- A literal, a name with what follows it, or an expression in brackets of some kind. -/
def primary (sub : Parse (Expr Line)) : Parse (Expr Line) := do
  match ← takeIf fun t => t.kind ≠ .eof with
  | none => fail .missingExpression
  | some t => primaryFrom sub t

/-- A primary expression; a name may be counted up or down behind it. -/
def trailing (sub : Parse (Expr Line)) : Parse (Expr Line) := do
  let e ← primary sub
  if e.isName then
    match ← takeIf (Token.isOneOf [.increment, .decrement]) with
    | some op => return .node op.line (.unary op e true)
    | none => return e
  else return e

mutual

/-- An operand with the operators before it. -/
def unary : Nat → Parse (Expr Line)
  | 0 => fail .missingExpression
  | fuel + 1 => do
    match ← takeIf (Token.isOneOf [.not, .minus, .plus]) with
    | some op => return .node op.line (.unary op (← unary fuel) false)
    | none =>
      match ← takeIf (Token.isOneOf [.increment, .decrement]) with
      | some op =>
        let operand ← unary fuel
        if operand.isName then return .node op.line (.unary op operand false)
        else failAt op.pos (.invalidOperand op.lexeme)
      | none => trailing (expressionWithin fuel)

/-- An expression, within the given fuel. -/
def expressionWithin : Nat → Parse (Expr Line)
  | 0 => fail .missingExpression
  | fuel + 1 => assignment (unary fuel) (expressionWithin fuel)

end

/-- An expression. -/
def expression : Parse (Expr Line) := do
  expressionWithin (← get).exprFuel

end Parse

end StackLang
