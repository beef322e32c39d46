import Mathlib.Logic.Function.Basic
import StackLang.Proofs.Code.Shape
import StackLang.Proofs.Machine.Steps

/-!
# Evaluation of the tree

The meaning of a checked program, given by evaluating its tree.  Values are words.  Each activation
of a function owns the cells of its parameters and of its declarations; a cell that has not been
written holds whatever it held when the activation began.  Operands and arguments are evaluated from
left to right, both operands of a logical operator are evaluated, and a value is evaluated before
the index of the element that it is stored into.

The fuel bounds how deep the evaluation is nested, the depth how many activations are nested.

* `Reference.expr`, `Reference.stmt` — the evaluation of expressions and statements.
* `Reference.Ends` — how the evaluation of a program ends.
-/

namespace StackLang

/-! ## Results -/

/-- A failure of the program, without the place in the code where it is noticed. -/
inductive RunFailure where
  | divisionByZero
  | unknownString (key : Word)
  | invalidInput (e : InputError)
  | notText
  deriving DecidableEq, Repr

/-- The failure of the program that a fault of the machine reports. -/
def Fault.failure? : Fault → Option RunFailure
  | divisionByZero _ => some .divisionByZero
  | unknownString _ key => some (.unknownString key)
  | invalidInput e => some (.invalidInput e)
  | notText => some .notText
  | unknownOp _ _ | memory _ _ | stepLimit _ => none

/-- Why an evaluation has no value. -/
inductive Halt where
  | failure (f : RunFailure)
  /-- An element outside an array, or a function that ends without its result. -/
  | undefined
  /-- The evaluation is nested too deep. -/
  | unfinished
  deriving DecidableEq, Repr

/-- How a statement is left. -/
inductive Completion where
  | next
  | stop
  | skip
  | ret (value : Option Word)
  deriving DecidableEq, Repr

/-- The contents of the cells of an activation, by declaration and index. -/
abbrev Store := Binding → Nat → Word

/-- What an evaluation changes. -/
structure Situation where
  store : Store
  world : World
  /-- The number of activations that have begun. -/
  calls : Nat

/-- An evaluation.  A failure keeps the situation in which it arose. -/
abbrev Eval := EStateM Halt Situation

namespace Eval

variable {α : Type}

/-- A value that every checked program has. -/
def require : Option α → Eval α
  | some a => pure a
  | none => throw .undefined

/-- The value of a computation that may fail. -/
def attempt : Except RunFailure α → Eval α
  | .ok a => pure a
  | .error f => throw (.failure f)

def load (b : Binding) (i : Nat) : Eval Word := fun s =>
  .ok (s.store b i) s

def save (b : Binding) (i : Nat) (w : Word) : Eval Unit := fun s =>
  .ok () { s with store := Function.update s.store b (Function.update (s.store b) i w) }

def write (text : String) : Eval Unit := fun s =>
  .ok () { s with world := { s.world with output := s.world.output ++ text } }

/-- Reads a line and the value of the given type in it. -/
def read (type : ValueType) : Eval Word := fun s =>
  match s.world.read type with
  | .ok (w, world) => .ok w { s with world := world }
  | .error e => .error (e.failure?.elim .undefined .failure) s

/-- Draws a random number below a bound. -/
def draw (bound : Word) : Eval Word := fun s =>
  .ok (Machine.randomBelow (Machine.nextRandom s.world.rng) bound)
    { s with world := { s.world with rng := Machine.nextRandom s.world.rng } }

/-- Prints a value of the given type. -/
def print (type : ValueType) (w : Word) : Eval Unit :=
  match type with
  | .int => write (toString w.toInt)
  | .float => write (Double.write w)
  | .char => write (Machine.charOf w).toString
  | .bool => write (if w = 0 then "false" else "true")
  | .string => fun s =>
    match s.world.strings.get? w with
    | some text => write text s
    | none => .error (.failure (.unknownString w)) s
  | .void => throw .undefined

/-- The index of an element of a variable, if it has that many. -/
def index (info : VarInfo) (w : Word) : Eval Nat :=
  match w.toIndex? with
  | some i => if i < info.length.getD 0 then pure i else throw .undefined
  | none => throw .undefined

end Eval

/-! ## Operators -/

/-- A value of type `source`, stored as `target`. -/
def ValueType.convert (target source : ValueType) (w : Word) : Word :=
  if target.narrows source then Double.toInt w else w

/-- An operand of type `t` of an operation on floating-point numbers. -/
def ValueType.widen (t : ValueType) (w : Word) : Word :=
  if t = .int then Double.ofInt w else w

namespace Token.Operator

/-- A quotient or a remainder. -/
def divide (f : Word → Word → Word) (a b : Word) : Except RunFailure Word :=
  if b = 0 then .error .divisionByZero else .ok (f a b)

/-- A binary operator on words that are not floating-point numbers. -/
def onIntegers (a b : Word) : Operator → Option (Except RunFailure Word)
  | plus => some (.ok (a + b))
  | minus => some (.ok (a - b))
  | star => some (.ok (a * b))
  | slash => some (divide (· / ·) a b)
  | percent => some (divide (· % ·) a b)
  | eq => some (.ok (Word.ofBool (a == b)))
  | ne => some (.ok (Word.ofBool (a != b)))
  | lt => some (.ok (Word.ofBool (decide (a < b))))
  | le => some (.ok (Word.ofBool (decide (a ≤ b))))
  | gt => some (.ok (Word.ofBool (decide (b < a))))
  | ge => some (.ok (Word.ofBool (decide (b ≤ a))))
  | and => some (.ok (Word.ofBool (a != 0 && b != 0)))
  | or => some (.ok (Word.ofBool (a != 0 || b != 0)))
  | _ => none

/-- An arithmetic operator or a comparison on floating-point numbers. -/
def onFloats (a b : Word) : Operator → Option Word
  | plus => some (Double.add a b)
  | minus => some (Double.sub a b)
  | star => some (Double.mul a b)
  | slash => some (Double.div a b)
  | eq => some (Word.ofBool (Double.eq a b))
  | ne => some (Word.ofBool (!Double.eq a b))
  | lt => some (Word.ofBool (Double.lt a b))
  | le => some (Word.ofBool (Double.le a b))
  | gt => some (Word.ofBool (Double.lt b a))
  | ge => some (Word.ofBool (Double.le b a))
  | _ => none

/-- A binary operator on operands of types `l` and `r`.  Logical operators only ask whether the
words are zero. -/
def apply (l r : ValueType) (a b : Word) (op : Operator) : Option (Except RunFailure Word) :=
  if op = and ∨ op = or then op.onIntegers a b
  else if l = .float ∨ r = .float then (op.onFloats (l.widen a) (r.widen b)).map .ok
  else op.onIntegers a b

end Token.Operator

/-! ## Evaluation -/

/-- What an evaluation depends on: the program, the keys of its literals, and what the cells of each
activation hold when it begins. -/
structure Reference where
  program : Program
  strings : StringPool
  fresh : Nat → Store

namespace Reference

variable (R : Reference)

/-- The variable that a binding stands for. -/
def variableOf (b : Option Binding) : Eval (Binding × VarInfo) :=
  Eval.require do
    let b ← b
    let info ← R.program.tree.varInfo? R.program.notes b
    return (b, info)

/-- The variable that the name at an expression stands for. -/
def variableAt (m : Mark) : Eval (Binding × VarInfo) :=
  R.variableOf (R.program.notes.expr m.id).binding

/-- The type noted at an expression. -/
def typeOf (e : Expr Mark) : Eval ValueType :=
  Eval.require (R.program.notes.typeOf e)

/-- The function that the name at an expression stands for. -/
def functionAt (m : Mark) : Eval (FunctionId × Function (Stmt Mark)) :=
  Eval.require <|
    match (R.program.notes.expr m.id).binding with
    | some (.function id) => (R.program.tree.function? id).map (id, ·)
    | _ => none

/-- A value of an expression, stored as `target`. -/
def stored (target : ValueType) (e : Expr Mark) (w : Word) : Eval Word := do
  return target.convert (← R.typeOf e) w

/-- A binary operator on the values of two expressions. -/
def operate (op : Token) (l r : Expr Mark) (a b : Word) : Eval Word := do
  let lt ← R.typeOf l
  let rt ← R.typeOf r
  match op.kind with
  | .operator o => Eval.attempt (← Eval.require (o.apply lt rt a b))
  | _ => throw .undefined

/-- Changes a variable; the value is the one before or behind the change. -/
def count (trailing : Bool) (f : Word → Word) : Expr Mark → Eval Word
  | .node m (.name _) => do
    let v ← R.variableAt m
    let old ← Eval.load v.1 0
    Eval.save v.1 0 (f old)
    return if trailing then old else f old
  | _ => throw .undefined

/-- The cells of an activation when it begins: its parameters hold the arguments. -/
def entered (n : Nat) (id : FunctionId) (args : List Word) : Store
  | .param g j, i => if g = id then args.getD j 0 else R.fresh n (.param g j) i
  | b, i => R.fresh n b i

/-- Begins an activation. -/
def enter (id : FunctionId) (args : List Word) : Eval Unit := fun s =>
  .ok () { s with store := R.entered s.calls id args, calls := s.calls + 1 }

/-- Ends an activation; the cells are again those of the caller. -/
def leave (store : Store) : Eval Unit := fun s =>
  .ok () { s with store := store }

/-- The value of a call, given what the function returned. -/
def result (f : Function (Stmt Mark)) : Option Word → Eval Word
  | some w => pure w
  | none => if f.returnType = .void then pure 0 else throw .undefined

/-- The value of an optional expression, one if there is none. -/
def optionally (eval : Expr Mark → Eval Word) : Option (Expr Mark) → Eval Word
  | none => pure 1
  | some e => eval e

mutual

/-- The value of an expression. -/
def expr : Nat → Nat → Expr Mark → Eval Word
  | 0, _, _ => throw .unfinished
  | fuel + 1, depth, .node m shape =>
    match shape with
    | .literal v => Eval.require (v.word? R.strings)
    | .grouping e => expr fuel depth e
    | .binary l op r => do
      let a ← expr fuel depth l
      let b ← expr fuel depth r
      R.operate op l r a b
    | .unary op e trailing =>
      match op.kind with
      | .operator .plus => expr fuel depth e
      | .operator .minus => do
        let a ← expr fuel depth e
        return if (← R.typeOf e) = .float then Double.sub 0 a else 0 - a
      | .operator .not => do return Word.ofBool ((← expr fuel depth e) == 0)
      | .operator .increment => R.count trailing (· + 1) e
      | .operator .decrement => R.count trailing (· - 1) e
      | _ => throw .undefined
    | .name _ => do
      let v ← R.variableAt m
      Eval.load v.1 0
    | .assign _ none e => do
      let w ← expr fuel depth e
      let v ← R.variableAt m
      let w ← R.stored v.2.type e w
      Eval.save v.1 0 w
      return w
    | .assign _ (some i) e => do
      let w ← expr fuel depth e
      let v ← R.variableAt m
      let w ← R.stored v.2.type e w
      let k ← Eval.index v.2 (← expr fuel depth i)
      Eval.save v.1 k w
      return w
    | .call _ es => do
      let f ← R.functionAt m
      let ws ← args fuel depth es f.2.params
      result f.2 (← activation fuel depth f.1 f.2 ws)
    | .element _ i => do
      let w ← expr fuel depth i
      let v ← R.variableAt m
      Eval.load v.1 (← Eval.index v.2 w)
    | .braces _ => throw .undefined
    | .random _ e => do Eval.draw (← expr fuel depth e)

/-- The values of the arguments of a call, stored as the parameters. -/
def args : Nat → Nat → List (Expr Mark) → List Param → Eval (List Word)
  | fuel + 1, depth, e :: es, p :: ps => do
    let w ← expr fuel depth e
    let w ← R.stored p.type e w
    return w :: (← args fuel depth es ps)
  | _ + 1, _, _, _ => return []
  | 0, _, _, _ => throw .unfinished

/-- One activation of a function gives the word that it returns, if it does. -/
def activation : Nat → Nat → FunctionId → Function (Stmt Mark) → List Word → Eval (Option Word)
  | fuel + 1, depth + 1, id, f, ws => do
    let store := (← get).store
    R.enter id ws
    let c ← stmt fuel depth f.returnType f.body
    leave store
    match c with
    | .next => return none
    | .ret value => return value
    | .stop | .skip => throw .undefined
  | _, _, _, _, _ => throw .unfinished

/-- Executes a statement of a function that returns `type`. -/
def stmt : Nat → Nat → ValueType → Stmt Mark → Eval Completion
  | 0, _, _, _ => throw .unfinished
  | fuel + 1, depth, type, .node m shape =>
    match shape with
    | .block body => list fuel depth type body
    | .ret _ none => return .ret none
    | .ret _ (some e) => do
      let w ← expr fuel depth e
      return .ret (some (← R.stored type e w))
    | .expression e => do
      let _ ← expr fuel depth e
      return .next
    | .choice branches otherwise => arms fuel depth type branches otherwise
    | .whileLoop c body => loop fuel depth type (some c) none body
    | .forLoop none c u body => loop fuel depth type c u body
    | .forLoop (some init) c u body => do
      match ← stmt fuel depth type init with
      | .next => loop fuel depth type c u body
      | c => return c
    | .output _ es => do
      outputs fuel depth es
      return .next
    | .input _ => do
      let v ← R.variableOf (R.program.notes.stmt m.id).binding
      Eval.save v.1 0 (← Eval.read v.2.type)
      return .next
    | .var _ _ none | .array _ _ _ none => return .next
    | .var _ target (some e) => do
      let w ← expr fuel depth e
      Eval.save (.localVar m.id) 0 (← R.stored target e w)
      return .next
    | .array _ target _ (some (.node _ (.braces es))) => do
      elements fuel depth target (.localVar m.id) 0 es
      return .next
    | .array _ _ _ (some _) => throw .undefined
    | .stop _ => return .stop
    | .skip _ => return .skip

/-- Executes statements in order, until one is left otherwise than to the next. -/
def list : Nat → Nat → ValueType → List (Stmt Mark) → Eval Completion
  | 0, _, _, _ => throw .unfinished
  | _ + 1, _, _, [] => return .next
  | fuel + 1, depth, type, s :: ss => do
    match ← stmt fuel depth type s with
    | .next => list fuel depth type ss
    | c => return c

/-- Executes the first branch whose condition holds. -/
def arms : Nat → Nat → ValueType → List (Expr Mark × Stmt Mark) → Option (Stmt Mark) →
    Eval Completion
  | 0, _, _, _, _ => throw .unfinished
  | _ + 1, _, _, [], none => return .next
  | fuel + 1, depth, type, [], some s => stmt fuel depth type s
  | fuel + 1, depth, type, b :: rest, otherwise => do
    if (← expr fuel depth b.1) = 0 then arms fuel depth type rest otherwise
    else stmt fuel depth type b.2

/-- Repeats the body while the condition holds; the update follows each repetition. -/
def loop : Nat → Nat → ValueType → Option (Expr Mark) → Option (Expr Mark) → Stmt Mark →
    Eval Completion
  | 0, _, _, _, _, _ => throw .unfinished
  | fuel + 1, depth, type, c, u, body => do
    if (← optionally (expr fuel depth) c) = 0 then return .next
    match ← stmt fuel depth type body with
    | .stop => return .next
    | .ret value => return .ret value
    | .next | .skip =>
      let _ ← optionally (expr fuel depth) u
      loop fuel depth type c u body

/-- Prints values in order. -/
def outputs : Nat → Nat → List (Expr Mark) → Eval Unit
  | 0, _, _ => throw .unfinished
  | _ + 1, _, [] => return ()
  | fuel + 1, depth, e :: es => do
    let w ← expr fuel depth e
    Eval.print (← R.typeOf e) w
    outputs fuel depth es

/-- Stores values into the elements of an array, from the given one on. -/
def elements : Nat → Nat → ValueType → Binding → Nat → List (Expr Mark) → Eval Unit
  | 0, _, _, _, _, _ => throw .unfinished
  | _ + 1, _, _, _, _, [] => return ()
  | fuel + 1, depth, target, b, k, e :: es => do
    let w ← expr fuel depth e
    Eval.save b k (← R.stored target e w)
    elements fuel depth target b (k + 1) es

end

/-! ## Programs -/

/-- The status of a program: what `main` returns, or zero. -/
def status (fuel depth : Nat) : Eval Word := do
  let main ← Eval.require do
    let id ← R.program.tree.findFunction? "main"
    let f ← R.program.tree.function? id
    return (id, f)
  return (← R.activation fuel depth main.1 main.2 []).getD 0

end Reference

/-- How a program ends, and what it has written until then. -/
inductive Ending where
  | exited (status : Word) (output : String)
  | failed (f : RunFailure) (output : String)
  deriving DecidableEq, Repr

/-- The ending of an evaluation, if the program has one. -/
def Ending.ofResult? : EStateM.Result Halt Situation Word → Option Ending
  | .ok status s => some (.exited status s.world.output)
  | .error (.failure f) s => some (.failed f s.world.output)
  | .error _ _ => none

/-- The evaluation of the program in a world, with at most `depth` activations at a time, comes to
the ending. -/
def Reference.Ends (R : Reference) (depth : Nat) (world : World) (ending : Ending) : Prop :=
  ∃ fuel, Ending.ofResult? (R.status fuel depth ⟨R.fresh 0, world, 0⟩) = some ending

end StackLang
