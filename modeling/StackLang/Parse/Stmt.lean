import StackLang.Parse.Expr

/-!
# Parsing statements and functions

A program is a sequence of functions.  Bodies, branches and loops are blocks in braces, so every
nested statement comes behind an opening brace, and the number of remaining tokens bounds the
nesting.
-/

namespace StackLang

namespace Parse

/-- Statements up to the closing brace, which is taken; the fuel bounds their number. -/
def statements (item : Parse (Stmt Line)) : Nat → Parse (List (Stmt Line))
  | 0 => fail .unclosedBlock
  | fuel + 1 => do
    match ← accept (.punctuation .rbrace) with
    | some _ => return []
    | none =>
      if (← get).atEnd then fail .unclosedBlock
      else
        let first ← item
        return first :: (← statements item fuel)

/-- Statements in braces. -/
def block (item : Parse (Stmt Line)) : Parse (Stmt Line) := do
  let opening ← require (fun t => t.kind = .punctuation .lbrace) .openBrace
  let body ← statements item ((← get).rest.length + 1)
  return .node opening.line (.block body)

/-- A condition in parentheses behind the given keyword. -/
def condition (place : Place) : Parse (Expr Line) := do
  let _ ← mark .lparen place
  let c ← expression
  let _ ← mark .rparen .condition
  return c

/-- The branches of a choice, from the first condition on; the fuel bounds their number. -/
def branches (item : Parse (Stmt Line)) :
    Nat → Parse (List (Expr Line × Stmt Line) × Option (Stmt Line))
  | 0 => fail .missingExpression
  | fuel + 1 => do
    let c ← condition .ifWord
    let body ← block item
    match ← accept (.keyword .elseWord) with
    | none => return ([(c, body)], none)
    | some _ =>
      match ← accept (.keyword .ifWord) with
      | none => return ([(c, body)], some (← block item))
      | some _ =>
        let (more, otherwise) ← branches item fuel
        return ((c, body) :: more, otherwise)

/-- An expression, unless the given mark comes at once. -/
def optionalBefore (m : Token.Punctuation) : Parse (Option (Expr Line)) := do
  if ← peek (.punctuation m) then return none else return some (← expression)

/-- The value behind an equals sign, if there is one. -/
def initializer : Parse (Option (Expr Line)) := do
  match ← accept (.operator .assign) with
  | some _ => return some (← expression)
  | none => return none

/-- The length in the brackets of an array declaration, if one is given. -/
def arrayLength : Parse (Option Nat) := do
  match ← takeIf fun t => match t.kind with | .literal (.int _) => true | _ => false with
  | some ⟨.literal (.int n), _, _⟩ =>
    if n ≤ 0 then fail .lengthNotPositive else return some n.toInt.toNat
  | _ => return none

/-- The number of elements of a list in braces that is not empty. -/
def elementCount? : Option (Expr Line) → Option Nat
  | some (.node _ (.braces (_ :: es))) => some (es.length + 1)
  | _ => none

/-- The declaration of a variable or an array. -/
def declaration : Parse (Stmt Line) := do
  let line ← line
  let type ← typeName .variableType
  if type = .void then fail .voidVariable
  else
    let name ← ident .variableName
    match ← accept (.punctuation .lbracket) with
    | some _ =>
      let declared ← arrayLength
      let _ ← mark .rbracket .arrayLength
      let init ← initializer
      let _ ← mark .semicolon .declaration
      match declared <|> elementCount? init with
      | some length => return .node line (.array name type length init)
      | none => fail .lengthRequired
    | none =>
      let init ← initializer
      let _ ← mark .semicolon .declaration
      return .node line (.var name type init)

/-- An expression followed by a semicolon. -/
def expressionStatement (place : Place) : Parse (Stmt Line) := do
  let line ← line
  let e ← expression
  let _ ← mark .semicolon place
  return .node line (.expression e)

/-- The first clause of a counting loop, with its semicolon. -/
def forInit : Parse (Option (Stmt Line)) := do
  match ← accept (.punctuation .semicolon) with
  | some _ => return none
  | none =>
    if (← get).atType then return some (← declaration)
    else return some (← expressionStatement .forInit)

/-- A statement that starts with the given keyword, which has been taken. -/
def keywordStatement (item : Parse (Stmt Line)) (t : Token) :
    Token.Keyword → Parse (Stmt Line)
  | .ifWord => do
    let (arms, otherwise) ← branches item ((← get).rest.length + 1)
    return .node t.line (.choice arms otherwise)
  | .whileWord => do
    let c ← condition .whileWord
    return .node t.line (.whileLoop c (← block item))
  | .forWord => do
    let _ ← mark .lparen .forWord
    let init ← forInit
    let c ← optionalBefore .semicolon
    let _ ← mark .semicolon .forCondition
    let update ← optionalBefore .rparen
    let _ ← mark .rparen .forClauses
    return .node t.line (.forLoop init c update (← block item))
  | .returnWord => do
    let value ← optionalBefore .semicolon
    let _ ← mark .semicolon .returnWord
    return .node t.line (.ret t value)
  | .breakWord => do
    let _ ← mark .semicolon .breakWord
    return .node t.line (.stop t)
  | .continueWord => do
    let _ ← mark .semicolon .continueWord
    return .node t.line (.skip t)
  | .printWord => do
    let _ ← mark .lparen .printWord
    let values ← itemsBefore .rparen expression
    let _ ← mark .rparen .printArguments
    let _ ← mark .semicolon .printWord
    return .node t.line (.output t values)
  | .inputWord => do
    let _ ← mark .lparen .inputWord
    let name ← ident .inputName
    let _ ← mark .rparen .inputTarget
    let _ ← mark .semicolon .inputWord
    return .node t.line (.input name)
  | .elseWord | .randomWord => failAt t.pos (.unexpected t.lexeme)

/-- Whether a statement can start with the keyword. -/
def startsStatement : Token.Keyword → Bool
  | .elseWord | .randomWord => false
  | _ => true

/-- Takes a keyword that a statement can start with. -/
def takeKeyword? : Parse (Option (Token × Token.Keyword)) := do
  let taken ← takeIf fun t => match t.kind with
    | .keyword w => startsStatement w
    | _ => false
  match taken with
  | some t => match t.kind with
    | .keyword w => return some (t, w)
    | _ => return none
  | none => return none

/-- One statement, where `item` reads the statements nested in it. -/
def statementOver (item : Parse (Stmt Line)) : Parse (Stmt Line) := do
  if ← peek (.punctuation .lbrace) then block item
  else
    match ← takeKeyword? with
    | some (t, w) => keywordStatement item t w
    | none => if (← get).atType then declaration else expressionStatement .expression

/-- A statement, within the given depth of nesting. -/
def statementWithin : Nat → Parse (Stmt Line)
  | 0 => fail .missingExpression
  | fuel + 1 => statementOver (statementWithin fuel)

/-- A block. -/
def body : Parse (Stmt Line) := do
  block (statementWithin (← get).rest.length)

/-- One parameter. -/
def parameter : Parse Param := do
  let type ← typeName .parameterType
  if type = .void then fail .voidParameter
  else return ⟨← ident .parameterName, type⟩

/-- One function. -/
def function : Parse (Function (Stmt Line)) := do
  let returnType ← typeName .returnType
  let name ← ident .functionName
  let _ ← mark .lparen .functionName
  let params ← itemsBefore .rparen parameter
  let _ ← mark .rparen .parameters
  return ⟨returnType, name, params, ← body⟩

/-- Functions up to the end of the stream; the fuel bounds their number. -/
def functionsWithin : Nat → Parse (List (Function (Stmt Line)))
  | 0 => return []
  | fuel + 1 => do
    if (← get).atEnd then return []
    else
      let first ← function
      return first :: (← functionsWithin fuel)

/-- All functions up to the end of the stream. -/
def functions : Parse (List (Function (Stmt Line))) := do
  functionsWithin (← get).rest.length

end Parse

end StackLang
