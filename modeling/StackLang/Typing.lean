import StackLang.Naming

/-!
# Checking types

Every expression is given its type, every jump the loop it belongs to and every function its return
statements.  An expression whose type cannot be told has none, and what is built from it is not
reported again.  All errors of a program are collected.
-/

namespace StackLang

/-! ## Errors -/

/-- What is wrong with the types of a program. -/
inductive TypeFault where
  | noReturn (function : String)
  | mainParams
  | mainReturn (found : ValueType)
  | condition (found : ValueType)
  | printVoid
  | inputArray (name : String)
  | initializer (name : String) (target source : ValueType)
  | bracesRequired (name : String)
  | tooManyElements (name : String) (given length : Nat)
  | element (name : String) (target source : ValueType)
  | outsideLoop (keyword : String)
  | outsideFunction
  | voidReturn (function : String)
  | missingValue (function : String) (expected : ValueType)
  | returnType (function : String) (expected found : ValueType)
  | operand (op : String) (found : ValueType)
  | arrayAsValue (name : String)
  | notArray (name : String)
  | wholeArray (name : String)
  | index (found : ValueType)
  | assign (name : String) (target source : ValueType)
  | argumentCount (function : String) (expected found : Nat)
  | argument (position : Nat) (function : String) (expected found : ValueType)
  | braces
  | bound (found : ValueType)
  | operands (op : String) (left right : ValueType)
  deriving DecidableEq, Repr

/-- The text in single quotation marks. -/
def inQuotes (s : String) : String :=
  "'" ++ s ++ "'"

def TypeFault.message : TypeFault → String
  | noReturn f => "function " ++ inQuotes f ++ " has no return statements"
  | mainParams => "function 'main' must not take parameters"
  | mainReturn t => "function 'main' must return INT or VOID, found " ++ t.name
  | condition t => "condition should be boolean, found " ++ t.name
  | printVoid => "cannot print a VOID value"
  | inputArray n => "cannot read input into array " ++ inQuotes n
  | initializer n t s =>
    "cannot initialize variable " ++ inQuotes n ++ " of type " ++ t.name ++ " with " ++ s.name
  | bracesRequired n => "array " ++ inQuotes n ++ " must be initialized with a brace list"
  | tooManyElements n given length =>
    "too many initializer elements for array " ++ inQuotes n ++ " (" ++ toString given ++ " > " ++
      toString length ++ ")"
  | element n t s => "cannot store " ++ s.name ++ " in array " ++ inQuotes n ++ " of " ++ t.name
  | outsideLoop k => inQuotes k ++ " must be inside of a loop"
  | outsideFunction => "return statement outside of a function"
  | voidReturn f => "void function " ++ inQuotes f ++ " cannot return a value"
  | missingValue f t => "function " ++ inQuotes f ++ " must return a value of type " ++ t.name
  | returnType f t s => "function " ++ inQuotes f ++ " returns " ++ t.name ++ ", found " ++ s.name
  | operand op t => "invalid operand " ++ t.name ++ " for unary " ++ inQuotes op
  | arrayAsValue n => "array " ++ inQuotes n ++ " used as a value"
  | notArray n => inQuotes n ++ " is not an array"
  | wholeArray n => "cannot assign to array " ++ inQuotes n ++ " as a whole"
  | index t => "array index must be INT, found " ++ t.name
  | assign n t s => "cannot assign " ++ s.name ++ " to " ++ inQuotes n ++ " of type " ++ t.name
  | argumentCount f e n =>
    "function " ++ inQuotes f ++ " expects " ++ toString e ++ " arguments, found " ++ toString n
  | argument i f t s =>
    "argument " ++ toString i ++ " of " ++ inQuotes f ++ " expects " ++ t.name ++ ", found " ++
      s.name
  | braces => "array literal is only allowed as an array initializer"
  | bound t => "random bound must be INT, found " ++ t.name
  | operands op l r =>
    "operator " ++ inQuotes op ++ " cannot be applied to " ++ l.name ++ " and " ++ r.name

structure TypeError where
  fault : TypeFault
  line : Line
  deriving DecidableEq, Repr

def TypeError.message (e : TypeError) : String :=
  NameError.onLine e.line e.fault.message

/-! ## Operators -/

namespace ValueType

/-- The type of a binary operation.  Logical operators take operands of any type. -/
def binary? (op : Token.Kind) (l r : ValueType) : Option ValueType :=
  match op with
  | .operator .plus | .operator .minus | .operator .star | .operator .slash =>
    if l = int ∧ r = int then some int
    else if l.isNumeric && r.isNumeric then some float
    else none
  | .operator .percent => if l = int ∧ r = int then some int else none
  | .operator .lt | .operator .le | .operator .gt | .operator .ge =>
    if l.isNumeric && r.isNumeric then some bool else none
  | .operator .eq | .operator .ne => if l ≠ void ∧ r ≠ void then some bool else none
  | .operator .and | .operator .or => some bool
  | _ => none

/-- Whether a unary operator takes an operand of the given type. -/
def takesUnary (op : Token.Kind) (t : ValueType) : Bool :=
  match op with
  | .operator .not => t = bool
  | .operator .increment | .operator .decrement => t = int
  | _ => t.isNumeric

end ValueType

/-! ## The walk -/

namespace Typing

structure State where
  notes : Notes
  errors : List TypeError

end Typing

/-- A step of the walk. -/
abbrev Typing := StateM Typing.State

namespace Typing

def report (line : Line) (fault : TypeFault) : Typing Unit :=
  modify fun s => { s with errors := s.errors ++ [⟨fault, line⟩] }

/-- Reports a fault if the condition holds. -/
def reportIf (c : Bool) (line : Line) (fault : TypeFault) : Typing Unit :=
  if c then report line fault else return

def noteStmt (m : Mark) (f : StmtNote → StmtNote) : Typing Unit :=
  modify fun s => { s with notes := s.notes.modifyStmt m.id f }

def noteFunction (id : FunctionId) (f : FunctionNote → FunctionNote) : Typing Unit :=
  modify fun s => { s with notes := s.notes.modifyFunction id f }

/-- Notes the type of an expression, or that it has none. -/
def noteType (m : Mark) (type : Option ValueType) : Typing Unit :=
  modify fun s => { s with notes := s.notes.modifyExpr m.id ({ · with type := type }) }

/-- What the name at an expression stands for. -/
def bindingOf (m : Mark) : Typing (Option Binding) :=
  return ((← get).notes.expr m.id).binding

/-- The variable that the name at an expression stands for. -/
def variableOf (t : Tree) (m : Mark) : Typing (Option VarInfo) :=
  return (← bindingOf m).bind (t.varInfo? (← get).notes)

/-- Reports a type that can be told and is not an integer. -/
def requireInt (line : Line) (fault : ValueType → TypeFault) : Option ValueType → Typing Unit
  | some found => reportIf (found ≠ .int) line (fault found)
  | none => return

/-- Reports a type that can be told and cannot be stored as `target`. -/
def requireStore (line : Line) (target : ValueType) (fault : ValueType → TypeFault) :
    Option ValueType → Typing Unit
  | some source => reportIf (target.store? source).isNone line (fault source)
  | none => return

/-- The type of a binary operation whose operands have the given types, if they can be told. -/
def binaryType (line : Line) (op : Token) : Option ValueType → Option ValueType →
    Typing (Option ValueType)
  | some l, some r => do
    let result := ValueType.binary? op.kind l r
    reportIf result.isNone line (.operands op.lexeme l r)
    return result
  | _, _ => return none

/-- The type of a unary operation. -/
def unaryType (line : Line) (op : Token) : Option ValueType → Typing (Option ValueType)
  | some type => do
    reportIf (!type.takesUnary op.kind) line (.operand op.lexeme type)
    return some type
  | none => return none

/-- The type of a variable used as a value. -/
def nameType (t : Tree) (m : Mark) (name : Token) : Typing (Option ValueType) := do
  match ← variableOf t m with
  | some info =>
    reportIf info.length.isSome m.line (.arrayAsValue name.lexeme)
    return some info.type
  | none => return none

/-- The type of an element used as a value. -/
def elementType (t : Tree) (m : Mark) (name : Token) (index : Option ValueType) :
    Typing (Option ValueType) := do
  requireInt m.line .index index
  match ← variableOf t m with
  | some info =>
    reportIf info.length.isNone m.line (.notArray name.lexeme)
    return some info.type
  | none => return none

/-- The type of an assignment; `index` is given if it is to an element. -/
def assignType (t : Tree) (m : Mark) (name : Token) (index : Option (Option ValueType))
    (source : Option ValueType) : Typing (Option ValueType) := do
  match ← variableOf t m with
  | some info =>
    match index with
    | some found =>
      reportIf info.length.isNone m.line (.notArray name.lexeme)
      requireInt m.line .index found
    | none => reportIf info.length.isSome m.line (.wholeArray name.lexeme)
    requireStore m.line info.type (.assign name.lexeme info.type) source
    return source.map fun _ => info.type
  | none => return none

/-- Compares arguments with parameters, from the given position on. -/
def arguments (line : Line) (callee : Token) :
    Nat → List Param → List (Option ValueType) → Typing Unit
  | i, p :: ps, a :: as => do
    requireStore line p.type (.argument i callee.lexeme p.type) a
    arguments line callee (i + 1) ps as
  | _, _, _ => return

/-- The type of a call. -/
def callType (t : Tree) (m : Mark) (callee : Token) (args : List (Option ValueType)) :
    Typing (Option ValueType) := do
  match ← bindingOf m with
  | some (.function id) =>
    match t.functions[id]? with
    | some f =>
      if f.params.length = args.length then arguments m.line callee 1 f.params args
      else report m.line (.argumentCount callee.lexeme f.params.length args.length)
      return some f.returnType
    | none => return none
  | _ => return none

mutual

/-- Finds and notes the type of an expression.  The value of an assignment comes before its
index. -/
def expr (t : Tree) : Expr Mark → Typing (Option ValueType)
  | .node m shape => do
    let type ← match shape with
      | .binary l op r => do
        let left ← expr t l
        let right ← expr t r
        binaryType m.line op left right
      | .grouping e => expr t e
      | .literal v => pure (some v.type)
      | .unary op e _ => do unaryType m.line op (← expr t e)
      | .name n => nameType t m n
      | .assign n none v => do assignType t m n none (← expr t v)
      | .assign n (some i) v => do
        let source ← expr t v
        let index ← expr t i
        assignType t m n (some index) source
      | .call n args => do callType t m n (← exprs t args)
      | .element n i => do elementType t m n (← expr t i)
      | .braces es => do
        let _ ← exprs t es
        report m.line .braces
        pure none
      | .random _ e => do
        requireInt m.line .bound (← expr t e)
        pure (some .int)
    noteType m type
    return type

/-- Finds and notes the types of expressions in order. -/
def exprs (t : Tree) : List (Expr Mark) → Typing (List (Option ValueType))
  | [] => return []
  | e :: es => do
    let first ← expr t e
    return first :: (← exprs t es)

end

/-- Checks that a condition is a truth value. -/
def condition (t : Tree) (c : Expr Mark) : Typing Unit := do
  match ← expr t c with
  | some found => reportIf (found ≠ .bool) c.tag.line (.condition found)
  | none => return

/-- Checks the values of a print statement. -/
def outputs (t : Tree) : List (Expr Mark) → Typing Unit
  | [] => return
  | e :: es => do
    reportIf ((← expr t e) = some .void) e.tag.line .printVoid
    outputs t es

/-- Checks the elements that initialize an array. -/
def elements (t : Tree) (name : Token) (type : ValueType) : List (Expr Mark) → Typing Unit
  | [] => return
  | e :: es => do
    requireStore e.tag.line type (.element name.lexeme type) (← expr t e)
    elements t name type es

/-- Checks what an array is initialized with.  The list as a whole is given the type of the
elements. -/
def arrayInit (t : Tree) (line : Line) (name : Token) (type : ValueType) (length : Nat) :
    Expr Mark → Typing Unit
  | .node m (.braces es) => do
    noteType m (some type)
    reportIf (length < es.length) line (.tooManyElements name.lexeme es.length length)
    elements t name type es
  | e => do
    let _ ← expr t e
    report line (.bracesRequired name.lexeme)

/-- Checks a return statement of a function, whose value has the given type if it has a value. -/
def returnValue (line : Line) (f : Function StmtId) : Option (Option ValueType) → Typing Unit
  | some found =>
    if f.returnType = .void then report line (.voidReturn f.name.lexeme)
    else requireStore line f.returnType (.returnType f.name.lexeme f.returnType) found
  | none => reportIf (f.returnType ≠ .void) line (.missingValue f.name.lexeme f.returnType)

/-- Checks a return statement and adds it to those of its function. -/
def ret (t : Tree) (m : Mark) (value : Option (Expr Mark)) : Typing Unit := do
  let found ← exprs t value.toList
  match t.enclosingFunction (← get).notes m.id with
  | some id =>
    noteFunction id fun n => { n with returns := n.returns ++ [m.id] }
    match t.functions[id]? with
    | some f => returnValue m.line f found.head?
    | none => return
  | none => report m.line .outsideFunction

/-- Finds the loop that a jump belongs to. -/
def jump (t : Tree) (m : Mark) (keyword : Token) : Typing Unit := do
  match t.enclosingLoop (← get).notes m.id with
  | some found => noteStmt m ({ · with target := some found })
  | none => report m.line (.outsideLoop keyword.lexeme)

/-- Checks that input is not read into an array. -/
def input (t : Tree) (m : Mark) (name : Token) : Typing Unit := do
  let notes := (← get).notes
  let info := (notes.stmt m.id).binding.bind (t.varInfo? notes)
  reportIf (info.bind VarInfo.length).isSome m.line (.inputArray name.lexeme)

mutual

/-- Checks a statement. -/
def stmt (t : Tree) : Stmt Mark → Typing Unit
  | .node m shape =>
    match shape with
    | .block body => stmts t body
    | .ret _ value => ret t m value
    | .expression e => do
      let _ ← expr t e
    | .choice branches otherwise => do
      arms t branches
      optionalStmt t otherwise
    | .whileLoop c body => do
      condition t c
      stmt t body
    | .forLoop init c u body => do
      optionalStmt t init
      match c with
      | some c => condition t c
      | none => pure ()
      let _ ← exprs t u.toList
      stmt t body
    | .output _ values => outputs t values
    | .input n => input t m n
    | .var n type init => do
      match init with
      | some e => requireStore m.line type (.initializer n.lexeme type) (← expr t e)
      | none => return
    | .array n type length init =>
      match init with
      | some e => arrayInit t m.line n type length e
      | none => return
    | .stop k | .skip k => jump t m k

def stmts (t : Tree) : List (Stmt Mark) → Typing Unit
  | [] => return
  | s :: ss => do
    stmt t s
    stmts t ss

def arms (t : Tree) : List (Expr Mark × Stmt Mark) → Typing Unit
  | [] => return
  | (c, body) :: rest => do
    condition t c
    stmt t body
    arms t rest

def optionalStmt (t : Tree) : Option (Stmt Mark) → Typing Unit
  | none => return
  | some s => stmt t s

end

/-- Checks a function. -/
def function (t : Tree) (id : FunctionId) (f : Function (Stmt Mark)) : Typing Unit := do
  noteFunction id ({ · with returns := [] })
  stmt t f.body
  let returns := ((← get).notes.function id).returns
  reportIf (f.returnType ≠ .void && returns.isEmpty) f.name.line (.noReturn f.name.lexeme)

/-- Checks functions in order. -/
def functions (t : Tree) : List (FunctionId × Function (Stmt Mark)) → Typing Unit
  | [] => return
  | (id, f) :: rest => do
    function t id f
    functions t rest

/-- Checks the function that a program starts with, if there is one. -/
def entryPoint (t : Tree) : Typing Unit := do
  match (t.findFunction? "main").bind (t.functions[·]?) with
  | some main =>
    reportIf (!main.params.isEmpty) main.name.line .mainParams
    reportIf (main.returnType ≠ .int && main.returnType ≠ .void) main.name.line
      (.mainReturn main.returnType)
  | none => return

/-- Checks all functions. -/
def all (t : Tree) : Typing Unit := do
  functions t t.views
  entryPoint t

end Typing

/-- Checks the types of a program and lists the errors. -/
def Program.check (p : Program) : Program × List TypeError :=
  let s := ((Typing.all p.tree).run ⟨p.notes, []⟩).2
  (⟨p.tree, s.notes, p.scopes⟩, s.errors)

end StackLang
