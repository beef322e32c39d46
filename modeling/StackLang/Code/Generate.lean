import StackLang.Code.StringPool
import StackLang.Code.Symbolic
import StackLang.Program.View

/-!
# Generating code

A program becomes symbolic code: a stub that calls `main` and exits, then the functions in order.
A function reserves the cells of its variables, if it has any, and ends with a return.

The code of an expression leaves exactly one value on the stack; that of a statement leaves none.
A call pushes the address of the function before the arguments, and a zero after the return of a
function without a result.  A floating-point number is narrowed wherever it is stored as an integer,
and an integer is widened next to a floating-point number, except by the logical operators, which
take their operands as they are.
-/

namespace StackLang

/-! ## Errors -/

/-- Why there is no code for a program. -/
inductive GenerateError where
  | unsupported (op : String) (line : Line)
  | unresolved (name : String) (line : Line)
  | untyped (line : Line)
  | missingEntryPoint
  | arityMismatch (op : Op) (found : Nat)
  | noEnclosingLoop (keyword : String) (line : Line)
  | unplacedLabel (label : LabelId)
  deriving DecidableEq, Repr

def GenerateError.message : GenerateError → String
  | unsupported op l =>
    "compile error: [line " ++ toString l ++ "] no lowering for operator '" ++ op ++ "'"
  | unresolved n l => "compile error: [line " ++ toString l ++ "] unresolved name '" ++ n ++ "'"
  | untyped l => "compile error: [line " ++ toString l ++ "] expression has no type"
  | missingEntryPoint => "compile error: program has no 'main' function"
  | arityMismatch op found =>
    "compile error: " ++ op.mnemonic ++ " takes " ++ toString op.arity ++ " operand(s), got " ++
      toString found
  | noEnclosingLoop k l =>
    "compile error: [line " ++ toString l ++ "] " ++ k ++ " outside of a loop"
  | unplacedLabel l => "compile error: label " ++ toString l ++ " referenced but never placed"

/-! ## State -/

/-- Where the jumps of a loop go. -/
structure LoopLabels where
  next : LabelId
  stop : LabelId
  deriving DecidableEq, Repr

namespace Generate

structure State where
  /-- The number of labels so far. -/
  labels : Nat
  strings : StringPool
  /-- The labels of the loops so far, the latest first. -/
  loops : List (StmtId × LoopLabels)

/-- What the code of a function depends on. -/
structure Context where
  tree : Tree
  notes : Notes
  /-- The type that the function returns. -/
  returnType : ValueType

end Generate

/-- Makes code, or fails. -/
abbrev Generate (α : Type) := StateT Generate.State (Except GenerateError) α

/-- The word of a literal; a string is added to the pool. -/
def Literal.word (pool : StringPool) : Literal → Word × StringPool
  | int w => (w, pool)
  | float w => (w, pool)
  | bool b => (Word.ofBool b, pool)
  | char c => (Word.ofNat c.toNat, pool)
  | str s => pool.intern s

namespace Generate

variable {α : Type}

def fail (e : GenerateError) : Generate α :=
  fun _ => .error e

/-- A label that has not been used. -/
def fresh : Generate LabelId :=
  modifyGet fun s => (s.labels, { s with labels := s.labels + 1 })

/-- An instruction with the given operands. -/
def instr (op : Op) (operands : List Operand) : Generate (List Item) :=
  if operands.length = op.arity then return [.instr op operands]
  else fail (.arityMismatch op operands.length)

/-- An instruction without operands. -/
def plain (op : Op) : Generate (List Item) :=
  instr op []

/-- An instruction with a word as its operand. -/
def withWord (op : Op) (w : Word) : Generate (List Item) :=
  instr op [.word w]

/-- An instruction on a place in the frame. -/
def withSlot (op : Op) (slot : Int) : Generate (List Item) :=
  withWord op (Int64.ofInt slot)

/-- An instruction with a label as its operand. -/
def withLabel (op : Op) (l : LabelId) : Generate (List Item) :=
  instr op [.label l]

/-- The instruction that narrows a value of type `source` to `target`, if it has to be. -/
def convert (target source : ValueType) : Generate (List Item) :=
  if target.narrows source then plain .floatToInt else return []

/-! ## Names and types -/

/-- The type of an expression. -/
def typeOf (c : Context) (m : Mark) : Generate ValueType :=
  match (c.notes.expr m.id).type with
  | some t => return t
  | none => fail (.untyped m.line)

def unresolved (name : Token) : Generate α :=
  fail (.unresolved name.lexeme name.line)

/-- The place and the type of the variable that a name stands for. -/
def variableAt (c : Context) (b : Option Binding) (name : Token) : Generate (Int × ValueType) :=
  match b.bind (c.tree.varInfo? c.notes) with
  | some ⟨type, _, some slot⟩ => return (slot, type)
  | _ => unresolved name

/-- The place of the declaration at the given statement. -/
def slotOf (c : Context) (m : Mark) (name : Token) : Generate Int :=
  match (c.notes.stmt m.id).slot with
  | some slot => return slot
  | none => unresolved name

/-- The labels of a loop. -/
def loopLabels (target : Option StmtId) (keyword : String) (line : Line) :
    Generate LoopLabels := do
  match target.bind ((← get).loops.lookup ·) with
  | some labels => return labels
  | none => fail (.noEnclosingLoop keyword line)

/-- Remembers the labels of a loop. -/
def enterLoop (id : StmtId) (labels : LoopLabels) : Generate Unit :=
  modify fun s => { s with loops := (id, labels) :: s.loops }

/-! ## Expressions -/

end Generate

namespace Op

/-- The operation of a binary operator on integers. -/
def ofOperator? : Token.Kind → Option Op
  | .operator .and => some and
  | .operator .or => some or
  | .operator .plus => some add
  | .operator .minus => some sub
  | .operator .star => some mul
  | .operator .slash => some div
  | .operator .percent => some mod
  | .operator .eq => some eq
  | .operator .ne => some ne
  | .operator .lt => some lt
  | .operator .le => some le
  | .operator .gt => some gt
  | .operator .ge => some ge
  | _ => none

/-- The operation of a binary operator when one of the operands is a floating-point number. -/
def ofFloatOperator? : Token.Kind → Option Op
  | .operator .and => some and
  | .operator .or => some or
  | .operator .plus => some addFloat
  | .operator .minus => some subFloat
  | .operator .star => some mulFloat
  | .operator .slash => some divFloat
  | .operator .eq => some eqFloat
  | .operator .ne => some neFloat
  | .operator .lt => some ltFloat
  | .operator .le => some leFloat
  | .operator .gt => some gtFloat
  | .operator .ge => some geFloat
  | _ => none

/-- The operation that prints a value of the given type. -/
def printing? : ValueType → Option Op
  | .int => some outInt
  | .float => some outFloat
  | .string => some outString
  | .char => some outChar
  | .bool => some outBool
  | .void => none

/-- The operation that reads a value of the given type.  Truth values are read as integers. -/
def reading : ValueType → Op
  | .float => inFloat
  | .char => inChar
  | .string => inString
  | .int | .bool | .void => inInt

theorem arity_reading (type : ValueType) : (reading type).arity = 0 := by
  cases type <;> rfl

end Op

namespace Generate

/-- The operation of a binary operator on operands of the given types. -/
def binaryOp (op : Token) (line : Line) (isFloat : Bool) : Generate Op :=
  match if isFloat then Op.ofFloatOperator? op.kind else Op.ofOperator? op.kind with
  | some o => return o
  | none => fail (.unsupported op.lexeme line)

/-- The instruction that widens an operand of type `t`, if it has to be. -/
def widen (isFloat : Bool) (op : Op) (t : ValueType) : Generate (List Item) :=
  if isFloat && op ≠ .and && op ≠ .or && t = .int then plain .intToFloat else return []

/-- Counts a variable up or down, and leaves the old value if `trailing` holds, else the new one. -/
def count (c : Context) (op : Token) (step : Op) (trailing : Bool) (line : Line) :
    Expr Mark → Generate (List Item)
  | .node m (.name n) => do
    let (slot, _) ← variableAt c (c.notes.expr m.id).binding n
    let before ← withSlot .peek slot
    let dup ← plain .dup
    let one ← withWord .push 1
    let change ← plain step
    let store ← withSlot .poke slot
    return before ++
      if trailing then dup ++ one ++ change ++ store else one ++ change ++ dup ++ store
  | _ => fail (.unsupported op.lexeme line)

mutual

/-- The code of an expression. -/
def expr (c : Context) : Expr Mark → Generate (List Item)
  | .node m shape =>
    match shape with
    | .literal v => do
      let w ← modifyGet fun s =>
        let (w, pool) := v.word s.strings
        (w, { s with strings := pool })
      withWord .push w
    | .grouping e => expr c e
    | .binary l op r => do
      let lt ← typeOf c l.tag
      let rt ← typeOf c r.tag
      let isFloat := lt = .float || rt = .float
      let o ← binaryOp op m.line isFloat
      let left ← expr c l
      let wideLeft ← widen isFloat o lt
      let right ← expr c r
      let wideRight ← widen isFloat o rt
      return left ++ wideLeft ++ right ++ wideRight ++ (← plain o)
    | .unary op e trailing =>
      match op.kind with
      | .operator .plus => expr c e
      | .operator .minus => do
        let isFloat := (← typeOf c e.tag) = .float
        let zero ← withWord .push 0
        let operand ← expr c e
        return zero ++ operand ++ (← plain (if isFloat then .subFloat else .sub))
      | .operator .not => do
        let operand ← expr c e
        return operand ++ (← plain .not)
      | .operator .increment => count c op .add trailing m.line e
      | .operator .decrement => count c op .sub trailing m.line e
      | _ => fail (.unsupported op.lexeme m.line)
    | .name n => do
      let (slot, _) ← variableAt c (c.notes.expr m.id).binding n
      withSlot .peek slot
    | .assign n none v => do
      let (slot, target) ← variableAt c (c.notes.expr m.id).binding n
      let value ← expr c v
      let narrow ← convert target (← typeOf c v.tag)
      let dup ← plain .dup
      return value ++ narrow ++ dup ++ (← withSlot .poke slot)
    | .assign n (some i) v => do
      let (slot, target) ← variableAt c (c.notes.expr m.id).binding n
      let value ← expr c v
      let narrow ← convert target (← typeOf c v.tag)
      let dup ← plain .dup
      let index ← expr c i
      return value ++ narrow ++ dup ++ index ++ (← withSlot .pokeAt slot)
    | .call n args =>
      match (c.notes.expr m.id).binding with
      | some (.function id) =>
        match c.tree.functions[id]? with
        | some f => do
          let address ← withLabel .push id
          let arguments ← arguments c args f.params
          let call ← withWord .call (Word.ofNat args.length)
          let result ← if f.returnType = .void then withWord .push 0 else pure []
          return address ++ arguments ++ call ++ result
        | none => unresolved n
      | _ => unresolved n
    | .element n i => do
      let (slot, _) ← variableAt c (c.notes.expr m.id).binding n
      let index ← expr c i
      return index ++ (← withSlot .peekAt slot)
    | .braces _ => fail (.unsupported "\x7b...\x7d" m.line)
    | .random _ e => do
      let bound ← expr c e
      return bound ++ (← plain .random)

/-- The code of arguments, as far as there are parameters for them. -/
def arguments (c : Context) : List (Expr Mark) → List Param → Generate (List Item)
  | e :: es, p :: ps => do
    let value ← expr c e
    let narrow ← convert p.type (← typeOf c e.tag)
    return value ++ narrow ++ (← arguments c es ps)
  | _, _ => return []

end

/-! ## Statements -/

/-- The code that stores a value of type `target` in the frame. -/
def store (c : Context) (target : ValueType) (slot : Int) (e : Expr Mark) :
    Generate (List Item) := do
  let value ← expr c e
  let narrow ← convert target (← typeOf c e.tag)
  return value ++ narrow ++ (← withSlot .poke slot)

/-- The code that stores the elements of an array, from the given place on. -/
def elements (c : Context) (type : ValueType) : Int → List (Expr Mark) → Generate (List Item)
  | _, [] => return []
  | slot, e :: es => do
    let first ← store c type slot e
    return first ++ (← elements c type (slot + 1) es)

/-- The code that prints values in order. -/
def outputs (c : Context) : List (Expr Mark) → Generate (List Item)
  | [] => return []
  | e :: es => do
    let value ← expr c e
    match Op.printing? (← typeOf c e.tag) with
    | some op =>
      let print ← plain op
      return value ++ print ++ (← outputs c es)
    | none => fail (.untyped e.tag.line)

/-- The code that evaluates an optional expression for its effect. -/
def effect (c : Context) : Option (Expr Mark) → Generate (List Item)
  | some e => do
    let value ← expr c e
    return value ++ (← plain .pop)
  | none => return []

/-- The code that leaves a loop unless an optional condition holds. -/
def guard (c : Context) (stop : LabelId) : Option (Expr Mark) → Generate (List Item)
  | some e => do
    let value ← expr c e
    return value ++ (← withLabel .jumpZero stop)
  | none => return []

mutual

/-- The code of a statement. -/
def stmt (c : Context) : Stmt Mark → Generate (List Item)
  | .node m shape =>
    match shape with
    | .block body => stmts c body
    | .ret _ (some e) => do
      let value ← expr c e
      let narrow ← convert c.returnType (← typeOf c e.tag)
      return value ++ narrow ++ (← plain .retValue)
    | .ret _ none => plain .ret
    | .expression e => effect c (some e)
    | .choice branches otherwise => do
      let stop ← fresh
      let tried ← arms c stop branches
      let last ← optionalStmt c otherwise
      return tried ++ last ++ [.place stop]
    | .whileLoop e body => do
      let top ← fresh
      let stop ← fresh
      enterLoop m.id ⟨top, stop⟩
      let test ← guard c stop (some e)
      let inner ← stmt c body
      return [.place top] ++ test ++ inner ++ (← withLabel .jump top) ++ [.place stop]
    | .forLoop init e update body => do
      let start ← optionalStmt c init
      let top ← fresh
      let next ← fresh
      let stop ← fresh
      enterLoop m.id ⟨next, stop⟩
      let test ← guard c stop e
      let inner ← stmt c body
      let change ← effect c update
      return start ++ [.place top] ++ test ++ inner ++ [.place next] ++ change ++
        (← withLabel .jump top) ++ [.place stop]
    | .output _ values => outputs c values
    | .input n => do
      let (slot, type) ← variableAt c (c.notes.stmt m.id).binding n
      let read ← plain (Op.reading type)
      return read ++ (← withSlot .poke slot)
    | .var n type (some e) => do store c type (← slotOf c m n) e
    | .var _ _ none => return []
    | .array n type _ (some e) => do
      let slot ← slotOf c m n
      match e with
      | .node _ (.braces es) => elements c type slot es
      | e => fail (.untyped e.tag.line)
    | .array _ _ _ none => return []
    | .stop _ => do
      let labels ← loopLabels (c.notes.stmt m.id).target "break" m.line
      withLabel .jump labels.stop
    | .skip _ => do
      let labels ← loopLabels (c.notes.stmt m.id).target "continue" m.line
      withLabel .jump labels.next

/-- The code of statements in order. -/
def stmts (c : Context) : List (Stmt Mark) → Generate (List Item)
  | [] => return []
  | s :: ss => do
    let first ← stmt c s
    return first ++ (← stmts c ss)

/-- The code of branches, each of which jumps to `stop` at its end. -/
def arms (c : Context) (stop : LabelId) : List (Expr Mark × Stmt Mark) → Generate (List Item)
  | [] => return []
  | (e, body) :: rest => do
    let next ← fresh
    let test ← guard c next (some e)
    let inner ← stmt c body
    let done ← withLabel .jump stop
    return test ++ inner ++ done ++ [.place next] ++ (← arms c stop rest)

/-- The code of an optional statement. -/
def optionalStmt (c : Context) : Option (Stmt Mark) → Generate (List Item)
  | none => return []
  | some s => stmt c s

end

/-! ## Functions -/

/-- The code of a function, whose label has its number.  Cells are reserved when their number, as
the word that the code holds, is positive. -/
def function (p : Program) (id : FunctionId) (f : Function (Stmt Mark)) :
    Generate (List Item) := do
  let slots := (p.notes.function id).frameSlots
  let reserve ← if 0 < Int64.ofInt slots then withSlot .alloc slots else pure []
  let body ← stmt ⟨p.tree, p.notes, f.returnType⟩ f.body
  return [.place id] ++ reserve ++ body ++ (← plain .ret)

/-- The code of functions in order. -/
def functions (p : Program) : List (FunctionId × Function (Stmt Mark)) → Generate (List Item)
  | [] => return []
  | (id, f) :: rest => do
    let first ← function p id f
    return first ++ (← functions p rest)

/-- The code that starts a program. -/
def stub (main : FunctionId) : Generate (List Item) := do
  let address ← withLabel .push main
  let call ← withWord .call 0
  return address ++ call ++ (← plain .exit)

/-- The code of a program. -/
def program (p : Program) : Generate (List Item) :=
  match p.tree.findFunction? "main" with
  | none => fail .missingEntryPoint
  | some main => do
    let start ← stub main
    return start ++ (← functions p p.tree.views)

end Generate

/-- Code with what belongs to it: the labels it was made with, the strings it refers to and the
addresses of the functions. -/
structure Generated where
  code : Array Word
  labels : Array Label
  strings : StringPool
  symbols : List (String × Nat)
  deriving DecidableEq, Repr

namespace Program

/-- Generates the code of a program.  The labels of the functions come first, so a function's label
has the function's number. -/
def generate (p : Program) : Except GenerateError Generated := do
  let (items, s) ← (Generate.program p).run ⟨p.tree.functions.size, .empty, []⟩
  let a := (Assembly.withLabels s.labels).items items
  match a.unplaced with
  | l :: _ => throw (.unplacedLabel l)
  | [] =>
    let symbols := p.tree.functions.toList.mapIdx fun id f =>
      (f.name.lexeme, ((a.labels.getD id {}).value).getD 0)
    return ⟨a.code, a.labels, s.strings, symbols⟩

end Program

end StackLang
