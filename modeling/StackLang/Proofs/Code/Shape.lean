import StackLang.Code.Generate
import StackLang.Proofs.Analysis.TypeRules

/-!
# The shape of generated code

How the symbolic code of a node is put together from that of its parts, said without the state that
the generator keeps: literals are looked up in the finished pool of strings, and the labels of a
statement are whatever the generator has chosen.

* `Expr.Code` — the code of an expression.
* `Stmt.Code` — the code of a statement inside the loop with the given labels.
-/

namespace StackLang

open Generate (Context)

/-! ## Items -/

namespace Item

/-- An instruction without operands. -/
def plain (op : Op) : Item :=
  .instr op []

/-- An instruction with a word as its operand. -/
def withWord (op : Op) (w : Word) : Item :=
  .instr op [.word w]

/-- An instruction on a place in the frame. -/
def withSlot (op : Op) (slot : Int) : Item :=
  .withWord op (Int64.ofInt slot)

/-- An instruction with a label as its operand. -/
def withLabel (op : Op) (l : LabelId) : Item :=
  .instr op [.label l]

/-- The conversion of a value of type `source` that is stored as `target`. -/
def narrowing (target source : ValueType) : List Item :=
  if target.narrows source then [plain .floatToInt] else []

/-- The conversion of an operand of type `t`. -/
def widening (isFloat : Bool) (op : Op) (t : ValueType) : List Item :=
  if isFloat && op ≠ .and && op ≠ .or && t = .int then [plain .intToFloat] else []

/-- Counting the variable at `slot` up or down. -/
def counting (step : Op) (trailing : Bool) (slot : Int) : List Item :=
  [withSlot .peek slot] ++
    if trailing then [plain .dup, withWord .push 1, plain step, withSlot .poke slot]
    else [withWord .push 1, plain step, plain .dup, withSlot .poke slot]

end Item

/-- The word of a literal, with the keys of the given pool. -/
def Literal.word? (P : StringPool) : Literal → Option Word
  | int w => some w
  | float w => some w
  | bool b => some (Word.ofBool b)
  | char c => some (Word.ofNat c.toNat)
  | str s => (P.key? s).map Word.ofNat

/-- Whether an operation on operands of the given types is one on floating-point numbers. -/
def ValueType.isFloatOperation (l r : ValueType) : Bool :=
  l = .float || r = .float

/-- The operation of a binary operator on operands of the given types. -/
def Op.ofBinary? (kind : Token.Kind) (l r : ValueType) : Option Op :=
  if l.isFloatOperation r then ofFloatOperator? kind else ofOperator? kind

/-- The step by which an operator counts. -/
def Op.ofCounting? : Token.Kind → Option Op
  | .operator .increment => some add
  | .operator .decrement => some sub
  | _ => none

/-! ## Expressions -/

mutual

/-- The code of an expression. -/
inductive Expr.Code (c : Context) (P : StringPool) : Expr Mark → List Item → Prop where
  | literal {m : Mark} {v : Literal} {w : Word} (hw : v.word? P = some w) :
    Code c P (.node m (.literal v)) [.withWord .push w]
  | grouping {m : Mark} {e : Expr Mark} {is : List Item} (he : Code c P e is) :
    Code c P (.node m (.grouping e)) is
  | binary {m : Mark} {l r : Expr Mark} {op : Token} {o : Op} {lt rt : ValueType}
    {ls rs : List Item} (hl : c.notes.typeOf l = some lt) (hr : c.notes.typeOf r = some rt)
    (ho : Op.ofBinary? op.kind lt rt = some o) (left : Code c P l ls) (right : Code c P r rs) :
    Code c P (.node m (.binary l op r))
      (ls ++ Item.widening (lt.isFloatOperation rt) o lt ++ rs ++
        Item.widening (lt.isFloatOperation rt) o rt ++ [.plain o])
  | plus {m : Mark} {op : Token} {e : Expr Mark} {trailing : Bool} {is : List Item}
    (hop : op.kind = .operator .plus) (he : Code c P e is) :
    Code c P (.node m (.unary op e trailing)) is
  | minus {m : Mark} {op : Token} {e : Expr Mark} {trailing : Bool} {T : ValueType}
    {is : List Item} (hop : op.kind = .operator .minus) (ht : c.notes.typeOf e = some T)
    (he : Code c P e is) :
    Code c P (.node m (.unary op e trailing))
      ([.withWord .push 0] ++ is ++ [.plain (if T = .float then .subFloat else .sub)])
  | not {m : Mark} {op : Token} {e : Expr Mark} {trailing : Bool} {is : List Item}
    (hop : op.kind = .operator .not) (he : Code c P e is) :
    Code c P (.node m (.unary op e trailing)) (is ++ [.plain .not])
  | count {m m' : Mark} {op n : Token} {trailing : Bool} {step : Op} {info : VarInfo} {slot : Int}
    (hop : Op.ofCounting? op.kind = some step) (hv : c.notes.variableAt c.tree m' = some info)
    (hs : info.slot = some slot) :
    Code c P (.node m (.unary op (.node m' (.name n)) trailing)) (Item.counting step trailing slot)
  | name {m : Mark} {n : Token} {info : VarInfo} {slot : Int}
    (hv : c.notes.variableAt c.tree m = some info) (hs : info.slot = some slot) :
    Code c P (.node m (.name n)) [.withSlot .peek slot]
  | assign {m : Mark} {n : Token} {v : Expr Mark} {info : VarInfo} {slot : Int} {T : ValueType}
    {vs : List Item} (hv : c.notes.variableAt c.tree m = some info) (hs : info.slot = some slot)
    (ht : c.notes.typeOf v = some T) (value : Code c P v vs) :
    Code c P (.node m (.assign n none v))
      (vs ++ Item.narrowing info.type T ++ [.plain .dup] ++ [.withSlot .poke slot])
  | assignElement {m : Mark} {n : Token} {i v : Expr Mark} {info : VarInfo} {slot : Int}
    {T : ValueType} {vs is : List Item} (hv : c.notes.variableAt c.tree m = some info)
    (hs : info.slot = some slot) (ht : c.notes.typeOf v = some T) (value : Code c P v vs)
    (index : Code c P i is) :
    Code c P (.node m (.assign n (some i) v))
      (vs ++ Item.narrowing info.type T ++ [.plain .dup] ++ is ++ [.withSlot .pokeAt slot])
  | call {m : Mark} {n : Token} {args : List (Expr Mark)} {id : FunctionId} {f : Function StmtId}
    {is : List Item} (hb : (c.notes.expr m.id).binding = some (.function id))
    (hf : c.tree.functions[id]? = some f) (hargs : Expr.ArgsCode c P args f.params is) :
    Code c P (.node m (.call n args))
      ([.withLabel .push id] ++ is ++ [.withWord .call (Word.ofNat args.length)] ++
        if f.returnType = .void then [.withWord .push 0] else [])
  | element {m : Mark} {n : Token} {i : Expr Mark} {info : VarInfo} {slot : Int} {is : List Item}
    (hv : c.notes.variableAt c.tree m = some info) (hs : info.slot = some slot)
    (index : Code c P i is) :
    Code c P (.node m (.element n i)) (is ++ [.withSlot .peekAt slot])
  | random {m : Mark} {k : Token} {e : Expr Mark} {is : List Item} (he : Code c P e is) :
    Code c P (.node m (.random k e)) (is ++ [.plain .random])

/-- The code of arguments, each for its parameter. -/
inductive Expr.ArgsCode (c : Context) (P : StringPool) :
    List (Expr Mark) → List Param → List Item → Prop where
  | nil : ArgsCode c P [] [] []
  | cons {e : Expr Mark} {es : List (Expr Mark)} {p : Param} {ps : List Param} {T : ValueType}
    {is rest : List Item} (ht : c.notes.typeOf e = some T) (he : Expr.Code c P e is)
    (hes : Expr.ArgsCode c P es ps rest) :
    ArgsCode c P (e :: es) (p :: ps) (is ++ Item.narrowing p.type T ++ rest)

end

theorem Expr.ArgsCode.length_eq {c : Context} {P : StringPool} {es : List (Expr Mark)}
    {ps : List Param} {is : List Item} : Expr.ArgsCode c P es ps is → es.length = ps.length
  | .nil => rfl
  | .cons _ _ hes => congrArg (· + 1) hes.length_eq

/-- The code that stores the elements of an array, from the given place on. -/
inductive Expr.ElementsCode (c : Context) (P : StringPool) (type : ValueType) :
    Int → List (Expr Mark) → List Item → Prop where
  | nil {slot : Int} : ElementsCode c P type slot [] []
  | cons {slot : Int} {e : Expr Mark} {es : List (Expr Mark)} {T : ValueType} {is rest : List Item}
    (ht : c.notes.typeOf e = some T) (he : e.Code c P is)
    (hes : ElementsCode c P type (slot + 1) es rest) :
    ElementsCode c P type slot (e :: es)
      (is ++ Item.narrowing type T ++ [.withSlot .poke slot] ++ rest)

/-- The code that prints values in order. -/
inductive Expr.OutputsCode (c : Context) (P : StringPool) :
    List (Expr Mark) → List Item → Prop where
  | nil : OutputsCode c P [] []
  | cons {e : Expr Mark} {es : List (Expr Mark)} {T : ValueType} {op : Op} {is rest : List Item}
    (ht : c.notes.typeOf e = some T) (hop : Op.printing? T = some op) (he : e.Code c P is)
    (hes : OutputsCode c P es rest) : OutputsCode c P (e :: es) (is ++ [.plain op] ++ rest)

/-- The code of an optional expression, and behind it what uses its value. -/
inductive Expr.OptionalCode (c : Context) (P : StringPool) (use : List Item) :
    Option (Expr Mark) → List Item → Prop where
  | none : OptionalCode c P use none []
  | some {e : Expr Mark} {is : List Item} (he : e.Code c P is) :
    OptionalCode c P use (some e) (is ++ use)

/-- The code that evaluates an optional expression for its effect. -/
abbrev Expr.EffectCode (c : Context) (P : StringPool) : Option (Expr Mark) → List Item → Prop :=
  OptionalCode c P [.plain .pop]

/-- The code that goes on at a label unless an optional condition holds. -/
abbrev Expr.GuardCode (c : Context) (P : StringPool) (stop : LabelId) :
    Option (Expr Mark) → List Item → Prop :=
  OptionalCode c P [.withLabel .jumpZero stop]

/-! ## Statements -/

mutual

/-- The code of a statement; the labels are those of the innermost loop around it. -/
inductive Stmt.Code (c : Context) (P : StringPool) :
    Option LoopLabels → Stmt Mark → List Item → Prop where
  | block {loop : Option LoopLabels} {m : Mark} {body : List (Stmt Mark)} {is : List Item}
    (hbody : Stmt.ListCode c P loop body is) : Code c P loop (.node m (.block body)) is
  | ret {loop : Option LoopLabels} {m : Mark} {k : Token} {e : Expr Mark} {T : ValueType}
    {is : List Item} (ht : c.notes.typeOf e = some T) (he : e.Code c P is) :
    Code c P loop (.node m (.ret k (some e)))
      (is ++ Item.narrowing c.returnType T ++ [.plain .retValue])
  | retVoid {loop : Option LoopLabels} {m : Mark} {k : Token} :
    Code c P loop (.node m (.ret k none)) [.plain .ret]
  | expression {loop : Option LoopLabels} {m : Mark} {e : Expr Mark} {is : List Item}
    (he : Expr.EffectCode c P (some e) is) : Code c P loop (.node m (.expression e)) is
  | choice {loop : Option LoopLabels} {m : Mark} {branches : List (Expr Mark × Stmt Mark)}
    {otherwise : Option (Stmt Mark)} {stop : LabelId} {is os : List Item}
    (hbranches : Stmt.ArmsCode c P loop stop branches is)
    (hotherwise : Stmt.OptionCode c P loop otherwise os) :
    Code c P loop (.node m (.choice branches otherwise)) (is ++ os ++ [.place stop])
  | whileLoop {loop : Option LoopLabels} {m : Mark} {e : Expr Mark} {body : Stmt Mark}
    {top stop : LabelId} {ts bs : List Item} (hguard : Expr.GuardCode c P stop (some e) ts)
    (hbody : Code c P (some ⟨top, stop⟩) body bs) :
    Code c P loop (.node m (.whileLoop e body))
      ([.place top] ++ ts ++ bs ++ [.withLabel .jump top] ++ [.place stop])
  | forLoop {loop : Option LoopLabels} {m : Mark} {init : Option (Stmt Mark)}
    {e u : Option (Expr Mark)} {body : Stmt Mark} {top next stop : LabelId}
    {is ts bs us : List Item} (hinit : Stmt.OptionCode c P none init is)
    (hguard : Expr.GuardCode c P stop e ts) (hbody : Code c P (some ⟨next, stop⟩) body bs)
    (hupdate : Expr.EffectCode c P u us) :
    Code c P loop (.node m (.forLoop init e u body))
      (is ++ [.place top] ++ ts ++ bs ++ [.place next] ++ us ++ [.withLabel .jump top] ++
        [.place stop])
  | output {loop : Option LoopLabels} {m : Mark} {k : Token} {values : List (Expr Mark)}
    {is : List Item} (hvalues : Expr.OutputsCode c P values is) :
    Code c P loop (.node m (.output k values)) is
  | input {loop : Option LoopLabels} {m : Mark} {n : Token} {info : VarInfo} {slot : Int}
    (hv : (c.notes.stmt m.id).binding.bind (c.tree.varInfo? c.notes) = some info)
    (hs : info.slot = some slot) :
    Code c P loop (.node m (.input n)) [.plain (Op.reading info.type), .withSlot .poke slot]
  | var {loop : Option LoopLabels} {m : Mark} {n : Token} {type T : ValueType} {e : Expr Mark}
    {slot : Int} {is : List Item} (hs : (c.notes.stmt m.id).slot = some slot)
    (ht : c.notes.typeOf e = some T) (he : e.Code c P is) :
    Code c P loop (.node m (.var n type (some e)))
      (is ++ Item.narrowing type T ++ [.withSlot .poke slot])
  | varBlank {loop : Option LoopLabels} {m : Mark} {n : Token} {type : ValueType} :
    Code c P loop (.node m (.var n type none)) []
  | array {loop : Option LoopLabels} {m m' : Mark} {n : Token} {type : ValueType} {length : Nat}
    {es : List (Expr Mark)} {slot : Int} {is : List Item}
    (hs : (c.notes.stmt m.id).slot = some slot) (hes : Expr.ElementsCode c P type slot es is) :
    Code c P loop (.node m (.array n type length (some (.node m' (.braces es))))) is
  | arrayBlank {loop : Option LoopLabels} {m : Mark} {n : Token} {type : ValueType} {length : Nat} :
    Code c P loop (.node m (.array n type length none)) []
  | stop {labels : LoopLabels} {m : Mark} {k : Token} :
    Code c P (some labels) (.node m (.stop k)) [.withLabel .jump labels.stop]
  | skip {labels : LoopLabels} {m : Mark} {k : Token} :
    Code c P (some labels) (.node m (.skip k)) [.withLabel .jump labels.next]

/-- The code of statements in order. -/
inductive Stmt.ListCode (c : Context) (P : StringPool) :
    Option LoopLabels → List (Stmt Mark) → List Item → Prop where
  | nil {loop : Option LoopLabels} : ListCode c P loop [] []
  | cons {loop : Option LoopLabels} {s : Stmt Mark} {ss : List (Stmt Mark)} {is rest : List Item}
    (hs : Stmt.Code c P loop s is) (hss : Stmt.ListCode c P loop ss rest) :
    ListCode c P loop (s :: ss) (is ++ rest)

/-- The code of branches, each of which goes on at `stop`. -/
inductive Stmt.ArmsCode (c : Context) (P : StringPool) :
    Option LoopLabels → LabelId → List (Expr Mark × Stmt Mark) → List Item → Prop where
  | nil {loop : Option LoopLabels} {stop : LabelId} : ArmsCode c P loop stop [] []
  | cons {loop : Option LoopLabels} {stop next : LabelId} {e : Expr Mark} {body : Stmt Mark}
    {branches : List (Expr Mark × Stmt Mark)} {ts bs rest : List Item}
    (hguard : Expr.GuardCode c P next (some e) ts) (hbody : Stmt.Code c P loop body bs)
    (hrest : Stmt.ArmsCode c P loop stop branches rest) :
    ArmsCode c P loop stop ((e, body) :: branches)
      (ts ++ bs ++ [.withLabel .jump stop] ++ [.place next] ++ rest)

/-- The code of an optional statement. -/
inductive Stmt.OptionCode (c : Context) (P : StringPool) :
    Option LoopLabels → Option (Stmt Mark) → List Item → Prop where
  | none {loop : Option LoopLabels} : OptionCode c P loop none []
  | some {loop : Option LoopLabels} {s : Stmt Mark} {is : List Item}
    (hs : Stmt.Code c P loop s is) : OptionCode c P loop (some s) is

end

/-! ## Functions -/

/-- The code that reserves the cells of a function, if it has any. -/
def Item.reserving (cells : Nat) : List Item :=
  if 0 < cells then [.withSlot .alloc cells] else []

/-- The code of a function, whose label has its number. -/
inductive Function.Code (p : Program) (P : StringPool) (id : FunctionId)
    (f : Function (Stmt Mark)) : List Item → Prop where
  | mk {is : List Item} (hbody : f.body.Code ⟨p.tree, p.notes, f.returnType⟩ P none is) :
    Code p P id f ([.place id] ++ Item.reserving (p.tree.cells f.body.tags) ++ is ++ [.plain .ret])

/-- The code of functions in order. -/
inductive Function.ListCode (p : Program) (P : StringPool) :
    List (FunctionId × Function (Stmt Mark)) → List Item → Prop where
  | nil : ListCode p P [] []
  | cons {id : FunctionId} {f : Function (Stmt Mark)}
    {vs : List (FunctionId × Function (Stmt Mark))} {is rest : List Item}
    (hf : Function.Code p P id f is) (hvs : ListCode p P vs rest) :
    ListCode p P ((id, f) :: vs) (is ++ rest)

/-- The code of a program: a stub that calls `main` and exits, then the functions. -/
inductive Program.Code (p : Program) (P : StringPool) : List Item → Prop where
  | mk {main : FunctionId} {is : List Item} (hmain : p.tree.findFunction? "main" = some main)
    (hfunctions : Function.ListCode p P p.tree.views is) :
    Code p P ([.withLabel .push main, .withWord .call 0, .plain .exit] ++ is)

end StackLang
