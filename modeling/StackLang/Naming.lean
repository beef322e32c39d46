import StackLang.Program.View

/-!
# Resolving names

Every node is given the scope it stands in, every use of a name the declaration it stands for, and
every declaration a place in the frame of its function.

Seen from the base of a frame, the parameters lie below three cells for the saved state of the
caller, and the variables lie upwards from the base, in the order in which they are visited.
All errors of a program are collected.
-/

namespace StackLang

/-! ## Errors -/

/-- A name that is declared twice, or not at all. -/
inductive NameError where
  | duplicate (kind : NameKind) (name : String) (line : Line)
  | notFound (kind : NameKind) (name : String) (line : Line)
  deriving DecidableEq, Repr

namespace NameError

def line : NameError → Line
  | duplicate _ _ l | notFound _ _ l => l

def name : NameError → String
  | duplicate _ n _ | notFound _ n _ => n

/-- The text of an error on a line. -/
def onLine (line : Line) (message : String) : String :=
  "[line " ++ toString line ++ "] " ++ message

def message : NameError → String
  | duplicate k n l => onLine l ("duplicate " ++ k.text ++ " name in scope: '" ++ n ++ "'")
  | notFound k n l => onLine l (k.text ++ " not found in current scope: '" ++ n ++ "'")

end NameError

/-! ## Frames -/

/-- The number of cells that a call puts between the arguments and the base of the new frame: the
saved instruction pointer, base and stack pointer. -/
def frameHeader : Int := 3

/-- The place of a parameter among `count` ones, seen from the base of the frame. -/
def paramSlot (index count : Nat) : Int :=
  index - count - frameHeader

/-! ## The walk -/

namespace Naming

structure State where
  notes : Notes
  scopes : ScopeGraph
  /-- The first free cell of the frame. -/
  nextSlot : Int
  errors : List NameError

end Naming

/-- A step of the walk. -/
abbrev Naming := StateM Naming.State

namespace Naming

def report (e : NameError) : Naming Unit :=
  modify fun s => { s with errors := s.errors ++ [e] }

/-- Opens a scope inside `parent`. -/
def enter (parent : ScopeId) : Naming ScopeId :=
  modifyGet fun s =>
    let (id, scopes) := s.scopes.push parent
    (id, { s with scopes := scopes })

/-- Declares a name, or reports that the scope has it already. -/
def declare (scope : ScopeId) (name : Token) (b : Binding) : Naming Unit := do
  let s ← get
  match s.scopes.declare scope name.lexeme b with
  | (none, scopes) => set { s with scopes := scopes }
  | (some _, _) => report (.duplicate b.kind name.lexeme name.line)

/-- Looks a name up, and reports if there is none. -/
def lookup (scope : ScopeId) (name : Token) (kind : NameKind) : Naming (Option Binding) := do
  match (← get).scopes.resolve scope name.lexeme kind with
  | some b => return some b
  | none =>
    report (.notFound kind name.lexeme name.line)
    return none

/-- Takes the next `count` cells of the frame. -/
def allocate (count : Nat) : Naming Int :=
  modifyGet fun s => (s.nextSlot, { s with nextSlot := s.nextSlot + count })

def noteExpr (m : Mark) (f : ExprNote → ExprNote) : Naming Unit :=
  modify fun s => { s with notes := s.notes.modifyExpr m.id f }

def noteStmt (m : Mark) (f : StmtNote → StmtNote) : Naming Unit :=
  modify fun s => { s with notes := s.notes.modifyStmt m.id f }

def noteFunction (id : FunctionId) (f : FunctionNote → FunctionNote) : Naming Unit :=
  modify fun s => { s with notes := s.notes.modifyFunction id f }

/-- Binds a use of a name.  A name that is not found keeps the binding it had. -/
def bindUse (scope : ScopeId) (m : Mark) (name : Token) (kind : NameKind) : Naming Unit := do
  match ← lookup scope name kind with
  | some b => noteExpr m ({ · with binding := some b })
  | none => return

mutual

/-- Resolves the names of an expression.  The value of an assignment comes before its index. -/
def expr (scope : ScopeId) : Expr Mark → Naming Unit
  | .node m shape => do
    noteExpr m ({ · with scope := some scope })
    match shape with
    | .binary l _ r => do
      expr scope l
      expr scope r
    | .grouping e => expr scope e
    | .literal _ => return
    | .unary _ e _ => expr scope e
    | .name n => bindUse scope m n .variableName
    | .assign n none v => do
      expr scope v
      bindUse scope m n .variableName
    | .assign n (some i) v => do
      expr scope v
      expr scope i
      bindUse scope m n .variableName
    | .call n args => do
      exprs scope args
      bindUse scope m n .functionName
    | .element n i => do
      expr scope i
      bindUse scope m n .variableName
    | .braces es => exprs scope es
    | .random _ e => expr scope e

/-- Resolves the names of expressions in order. -/
def exprs (scope : ScopeId) : List (Expr Mark) → Naming Unit
  | [] => return
  | e :: es => do
    expr scope e
    exprs scope es

end

/-- Resolves the names of an optional expression. -/
def optionalExpr (scope : ScopeId) (e : Option (Expr Mark)) : Naming Unit :=
  exprs scope e.toList

/-- Declares the name of a statement and gives it `count` cells. -/
def declareLocal (scope : ScopeId) (m : Mark) (name : Token) (count : Nat) : Naming Unit := do
  declare scope name (.localVar m.id)
  let slot ← allocate count
  noteStmt m ({ · with slot := some slot })

mutual

/-- Resolves the names of a statement.  A block opens a scope of its own unless it is the body of
something that has opened one for it. -/
def stmt (isBody : Bool) (scope : ScopeId) : Stmt Mark → Naming Unit
  | .node m shape => do
    noteStmt m ({ · with scope := some scope })
    match shape with
    | .block body => do
      if isBody then stmts scope body
      else stmts (← enter scope) body
    | .ret _ v => optionalExpr scope v
    | .expression e => expr scope e
    | .choice branches otherwise => do
      arms scope branches
      elseArm scope otherwise
    | .whileLoop c body => do
      expr scope c
      stmt true (← enter scope) body
    | .forLoop init c u body => do
      let header ← enter scope
      optionalStmt header init
      optionalExpr header c
      optionalExpr header u
      stmt true (← enter header) body
    | .output _ vs => exprs scope vs
    | .input n => do
      let found ← lookup scope n .variableName
      noteStmt m ({ · with binding := found })
    | .var n _ init => do
      optionalExpr scope init
      declareLocal scope m n 1
    | .array n _ length init => do
      optionalExpr scope init
      declareLocal scope m n length
    | .stop _ | .skip _ => return

def stmts (scope : ScopeId) : List (Stmt Mark) → Naming Unit
  | [] => return
  | s :: ss => do
    stmt false scope s
    stmts scope ss

def arms (scope : ScopeId) : List (Expr Mark × Stmt Mark) → Naming Unit
  | [] => return
  | (c, body) :: rest => do
    expr scope c
    stmt true (← enter scope) body
    arms scope rest

def elseArm (scope : ScopeId) : Option (Stmt Mark) → Naming Unit
  | none => return
  | some body => do stmt true (← enter scope) body

def optionalStmt (scope : ScopeId) : Option (Stmt Mark) → Naming Unit
  | none => return
  | some s => stmt false scope s

end

/-- Declares the parameters of a function, from the given index on. -/
def params (scope : ScopeId) (id : FunctionId) : Nat → List Param → Naming Unit
  | _, [] => return
  | index, p :: ps => do
    declare scope p.name (.param id index)
    params scope id (index + 1) ps

/-- Resolves the names of a function. -/
def function (id : FunctionId) (f : Function (Stmt Mark)) : Naming Unit := do
  let scope ← enter ScopeGraph.root
  params scope id 0 f.params
  let count := f.params.length
  noteFunction id ({ · with slots := (List.range count).map (paramSlot · count) })
  modify fun s => { s with nextSlot := 0 }
  stmt true scope f.body
  let slots := (← get).nextSlot
  noteFunction id ({ · with scope := some scope, frameSlots := slots })

/-- Declares all functions in the root scope. -/
def declareFunctions : List (FunctionId × Function (Stmt Mark)) → Naming Unit
  | [] => return
  | (id, f) :: rest => do
    declare ScopeGraph.root f.name (.function id)
    declareFunctions rest

/-- Resolves the names of functions in order. -/
def functions : List (FunctionId × Function (Stmt Mark)) → Naming Unit
  | [] => return
  | (id, f) :: rest => do
    function id f
    functions rest

/-- Resolves all names.  A function is visible everywhere, also before it is defined. -/
def all (fs : List (FunctionId × Function (Stmt Mark))) : Naming Unit := do
  declareFunctions fs
  functions fs

end Naming

/-- Resolves the names of a program and lists the errors. -/
def Program.resolve (p : Program) : Program × List NameError :=
  let s := ((Naming.all p.tree.views).run ⟨p.notes, p.scopes, 0, []⟩).2
  (⟨p.tree, s.notes, s.scopes⟩, s.errors)

/-- Whether the cells of every function can be counted in a word. -/
def Program.framesFit (p : Program) : Bool :=
  p.notes.functions.all fun f => Word.inRange f.frameSlots

end StackLang
