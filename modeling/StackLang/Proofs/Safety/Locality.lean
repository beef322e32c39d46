import StackLang.Proofs.Analysis.Lexical
import StackLang.Proofs.Safety.StackMap

/-!
# Accesses to the frame

The code of a function reaches into its frame where the source uses a variable, in the order of the
source, and each time at the place of the declaration that the scoping rules find for the name.

* `Stmt.accesses` — the uses of variables in a statement, each with what it stands for.
* `FrameAccess.Own` — the place of a parameter, of a variable or of an element of an array of the
  function.
* `compileSource_accesses` — these are the accesses in the code of a compiled function.
-/

namespace StackLang

open Generate (Context)

variable {op step : Op} {e : Expr Mark} {K : Compiled} {es : List (Expr Mark)} {type : ValueType}
  {l : LabelId} {x : Int} {kind : Token.Kind} {cells : Nat}
  {w : FunctionId × Function (Stmt Mark)}

/-! ## Accesses of the source -/

/-- Whether the operand of the operation is a place in the frame. -/
def Op.isFrameAccess : Op → Bool
  | peek | poke | peekAt | pokeAt => true
  | _ => false

/-- The use of a variable: the operation, the declaration, and which of its cells is meant. -/
structure FrameAccess where
  op : Op
  binding : Option Binding
  index : Nat

/-- The use of the variable that a name stands for. -/
def FrameAccess.ofName (scopes : Surroundings) (op : Op) (n : Token) : FrameAccess :=
  ⟨op, scopes.find? n.lexeme, 0⟩

/-- The variable that is written again when the operator counts. -/
def Expr.counted (op : Token) : Expr Mark → List Token
  | .node _ (.name n) => if (Op.ofCounting? op.kind).isSome then [n] else []
  | _ => []

mutual

/-- The uses of variables in an expression, in the order of its evaluation. -/
def Expr.accesses (scopes : Surroundings) : Expr Mark → List FrameAccess
  | .node _ shape =>
    match shape with
    | .literal _ => []
    | .grouping e | .random _ e => e.accesses scopes
    | .binary l _ r => l.accesses scopes ++ r.accesses scopes
    | .unary op e _ => e.accesses scopes ++ (e.counted op).map (.ofName scopes .poke)
    | .name n => [.ofName scopes .peek n]
    | .assign n none v => v.accesses scopes ++ [.ofName scopes .poke n]
    | .assign n (some i) v => v.accesses scopes ++ i.accesses scopes ++ [.ofName scopes .pokeAt n]
    | .call _ es | .braces es => accessesAll scopes es
    | .element n i => i.accesses scopes ++ [.ofName scopes .peekAt n]

def Expr.accessesAll (scopes : Surroundings) : List (Expr Mark) → List FrameAccess
  | [] => []
  | e :: es => e.accesses scopes ++ accessesAll scopes es

end

/-- The elements that an array is declared with. -/
def Expr.elements : Option (Expr Mark) → List (Expr Mark)
  | some (.node _ (.braces es)) => es
  | _ => []

/-- The elements of an array are stored one by one, from the given one on. -/
def Expr.accessesElements (scopes : Surroundings) (s : StmtId) :
    Nat → List (Expr Mark) → List FrameAccess
  | _, [] => []
  | i, e :: es =>
    e.accesses scopes ++ [⟨.poke, some (.localVar s), i⟩] ++ accessesElements scopes s (i + 1) es

mutual

/-- The uses of variables in a statement, which stands behind the declarations `here` of its scope,
in the order of the code. -/
def Stmt.accesses (isBody : Bool) (here : List Declaration) (outer : Surroundings) :
    Stmt Mark → List FrameAccess
  | .node m shape =>
    match shape with
    | .block body =>
      if isBody then accessesAll here outer body else accessesAll [] (here :: outer) body
    | .ret _ v => Expr.accessesAll (here :: outer) v.toList
    | .expression e => e.accesses (here :: outer)
    | .choice branches otherwise =>
      accessesArms (here :: outer) branches ++ accessesOption true (here :: outer) otherwise
    | .whileLoop c body => c.accesses (here :: outer) ++ body.accesses true [] (here :: outer)
    | .forLoop init c u body =>
      let header := init.toList.flatMap declared :: here :: outer
      accessesOption false (here :: outer) init ++ Expr.accessesAll header c.toList ++
        body.accesses true [] header ++ Expr.accessesAll header u.toList
    | .output _ vs => Expr.accessesAll (here :: outer) vs
    | .input n => [.ofName (here :: outer) .poke n]
    | .var _ _ (some e) => e.accesses (here :: outer) ++ [⟨.poke, some (.localVar m.id), 0⟩]
    | .array _ _ _ init => Expr.accessesElements (here :: outer) m.id 0 (Expr.elements init)
    | .var _ _ none | .stop _ | .skip _ => []

def Stmt.accessesAll (here : List Declaration) (outer : Surroundings) :
    List (Stmt Mark) → List FrameAccess
  | [] => []
  | s :: ss => s.accesses false here outer ++ accessesAll (here ++ s.declared) outer ss

def Stmt.accessesArms (outer : Surroundings) : List (Expr Mark × Stmt Mark) → List FrameAccess
  | [] => []
  | (c, body) :: rest => c.accesses outer ++ body.accesses true [] outer ++ accessesArms outer rest

def Stmt.accessesOption (isBody : Bool) (outer : Surroundings) :
    Option (Stmt Mark) → List FrameAccess
  | none => []
  | some s => s.accesses isBody [] outer

end

/-- The uses of variables in a function, whose body has the scope of the parameters. -/
def Function.accesses (id : FunctionId) (f : Function (Stmt Mark)) : List FrameAccess :=
  f.body.accesses true (f.declared id) []

/-! ## Places -/

namespace FrameAccess

/-- The place in the frame that is accessed. -/
def slot? (p : Program) (a : FrameAccess) : Option Int :=
  (a.binding.bind (p.tree.varInfo? p.notes)).bind fun info => info.slot.map (· + (a.index : Int))

/-- The operation and the operand of the access in the code. -/
def encoded (p : Program) (a : FrameAccess) : Op × Option Word :=
  (a.op, (a.slot? p).map Int64.ofInt)

/-- The access goes to a declaration of the function `v`, and `x` is a place that belongs to it. -/
inductive Own (p : Program) (v : FunctionId × Function (Stmt Mark)) : FrameAccess → Int → Prop where
  | param {op : Op} {i : Nat} (hop : op = .peek ∨ op = .poke) (hi : i < v.2.params.length) :
    Own p v ⟨op, some (.param v.1 i), 0⟩ (i - v.2.params.length - 3)
  | var {op : Op} {m : Mark} {name : Token} {type : ValueType} {init : Option ExprId} {line : Nat}
    {x : Int} (hop : op = .peek ∨ op = .poke) (hm : m ∈ v.2.body.tags)
    (hnode : p.tree.stmts[m.id]? = some ⟨.var name type init, line⟩) (hx : 0 ≤ x)
    (hlt : x < (p.notes.function v.1).frameSlots) : Own p v ⟨op, some (.localVar m.id), 0⟩ x
  /-- An element that the array is declared with, and that lies in it. -/
  | initial {m : Mark} {name : Token} {type : ValueType} {length : Nat} {e : ExprId}
    {es : List ExprId} {line line' i : Nat} {x : Int} (hm : m ∈ v.2.body.tags)
    (hnode : p.tree.stmts[m.id]? = some ⟨.array name type length (some e), line⟩)
    (hinit : p.tree.exprs[e]? = some ⟨.braces es, line'⟩) (hi : i < es.length)
    (hin : i < length) (hx : 0 ≤ x) (hlt : x < (p.notes.function v.1).frameSlots) :
    Own p v ⟨.poke, some (.localVar m.id), i⟩ x
  /-- Some element of the array that begins at the place. -/
  | element {op : Op} {m : Mark} {name : Token} {type : ValueType} {length : Nat}
    {init : Option ExprId} {line : Nat} {x : Int} (hop : op = .peekAt ∨ op = .pokeAt)
    (hm : m ∈ v.2.body.tags)
    (hnode : p.tree.stmts[m.id]? = some ⟨.array name type length init, line⟩) (hx : 0 ≤ x)
    (hle : x + length ≤ (p.notes.function v.1).frameSlots) :
    Own p v ⟨op, some (.localVar m.id), 0⟩ x

section

variable {p : Program} {v : FunctionId × Function (Stmt Mark)} {b : Binding} {info : VarInfo}
  {x : Int}

/-- A variable that is not an array is a parameter or declared on its own. -/
theorem own_of_usable (hop : op = .peek ∨ op = .poke) (hn : p.tree.Named p.notes v.1 v.2)
    (hb : p.tree.Usable v.1 v.2 b) (hinfo : p.tree.varInfo? p.notes b = some info)
    (hl : info.length = none) (hs : info.slot = some x) : Own p v ⟨op, some b, 0⟩ x := by
  have hcell : p.tree.CellAt p.notes v.1 v.2 b 0 x :=
    ⟨hb, info, x, hinfo, hs, by simp [hl], by simp⟩
  rcases hcell.cases hn with ⟨i, hi, rfl, -, rfl⟩ | ⟨m, hm, cells, slot, rfl, hc, hslot, hlt, hx⟩
  · exact .param hop hi
  · obtain rfl : x = slot := by simpa using hx
    have hrange := hn.slots.slot_range hm hc hslot
    simp only [Tree.varInfo?, Option.bind_eq_bind, Option.bind_eq_some_iff] at hinfo
    obtain ⟨⟨shape, line⟩, hnode, hinfo⟩ := hinfo
    cases shape with
    | var name type init =>
      refine .var hop hm hnode hrange.1 ?_
      rw [hn.frame]
      omega
    | array name type length init =>
      cases hinfo
      cases hl
    | _ => cases hinfo

/-- An array is declared in the body. -/
theorem own_of_usable_array (hop : op = .peekAt ∨ op = .pokeAt)
    (hn : p.tree.Named p.notes v.1 v.2) (hb : p.tree.Usable v.1 v.2 b)
    (hinfo : p.tree.varInfo? p.notes b = some info) (hl : info.length.isSome = true)
    (hs : info.slot = some x) : Own p v ⟨op, some b, 0⟩ x := by
  cases b with
  | param g i =>
    simp only [Tree.varInfo?, Option.bind_eq_bind, Option.bind_eq_some_iff] at hinfo
    obtain ⟨_, -, _, -, hinfo⟩ := hinfo
    cases hinfo
    cases hl
  | localVar s =>
    obtain ⟨⟨m, hm, rfl⟩, -⟩ := hb
    simp only [Tree.varInfo?, Option.bind_eq_bind, Option.bind_eq_some_iff] at hinfo
    obtain ⟨⟨shape, line⟩, hnode, hinfo⟩ := hinfo
    cases shape with
    | var name type init =>
      cases hinfo
      cases hl
    | array name type length init =>
      cases hinfo
      have hc : p.tree.cells? m.id = some length := by
        rw [Tree.cells?, hnode]
        rfl
      have hrange := hn.slots.slot_range hm hc hs
      refine .element hop hm hnode hrange.1 ?_
      rw [hn.frame]
      omega
    | _ => cases hinfo
  | function g => cases hinfo

end

end FrameAccess

/-! ## Accesses of the code -/

/-- The operation and the operand of an instruction that reaches into the frame. -/
def Instruction.access? (i : Instruction) : Option (Op × Option Word) :=
  if i.op.isFrameAccess then some (i.op, i.operand) else none

/-- The operation and the operand of an item that reaches into the frame. -/
def Item.access? (env : Addresses) : Item → Option (Op × Option Word)
  | instr op operands =>
    if op.isFrameAccess then some (op, (operands.map (Operand.resolve env)).head?) else none
  | place _ => none

theorem Item.filterMap_access?_instructions (env : Addresses) (a : Nat) (is : List Item) :
    (Item.instructions env a is).filterMap Instruction.access? =
      is.filterMap (Item.access? env) := by
  induction is generalizing a with
  | nil => rfl
  | cons i is ih =>
    cases i with
    | place l => exact ih a
    | instr op operands =>
      rw [Item.instructions, List.filterMap_cons, List.filterMap_cons, ih]
      rfl

/-- The items reach into the frame of the function by the given accesses, in their order. -/
structure Compiled.Reaches (K : Compiled) (is : List Item) (as : List FrameAccess) : Prop where
  fits : ∀ i ∈ is, i.Fits
  items : is.filterMap (Item.access? K.env) = as.map (FrameAccess.encoded K.program)
  own : ∀ a ∈ as, ∃ x, a.slot? K.program = some x ∧ a.Own K.program (K.id, K.f) x

namespace Compiled.Reaches

variable {K : Compiled} {is js : List Item} {as bs : List FrameAccess}

theorem nil : K.Reaches [] [] :=
  ⟨by simp, rfl, by simp⟩

theorem append (hi : K.Reaches is as) (hj : K.Reaches js bs) : K.Reaches (is ++ js) (as ++ bs) := by
  refine ⟨List.forall_mem_append.mpr ⟨hi.fits, hj.fits⟩, ?_,
    List.forall_mem_append.mpr ⟨hi.own, hj.own⟩⟩
  rw [List.filterMap_append, List.map_append, hi.items, hj.items]

/-- Code that does not reach into the frame, behind some that does. -/
theorem appendQuiet (hi : K.Reaches is as) (hj : K.Reaches js []) : K.Reaches (is ++ js) as := by
  have h := hi.append hj
  rwa [List.append_nil] at h

theorem place : K.Reaches [.place l] [] :=
  ⟨by simp [Item.Fits], rfl, by simp⟩

/-- An instruction that does not reach into the frame. -/
theorem quiet {operands : List Operand} (harity : operands.length = op.arity)
    (hop : op.isFrameAccess = false) : K.Reaches [.instr op operands] [] := by
  refine ⟨by simpa [Item.Fits] using harity, ?_, by simp⟩
  simp [Item.access?, hop]

/-- An instruction on a place of the frame. -/
theorem access {a : FrameAccess} (harity : a.op.arity = 1) (hop : a.op.isFrameAccess = true)
    (hx : a.slot? K.program = some x) (hown : a.Own K.program (K.id, K.f) x) :
    K.Reaches [.withSlot a.op x] [a] := by
  refine ⟨?_, ?_, by simpa using ⟨x, hx, hown⟩⟩
  · simp [Item.withSlot, Item.withWord, Item.Fits, harity]
  · simp [Item.withSlot, Item.withWord, Item.access?, hop, FrameAccess.encoded, hx, Operand.resolve]

theorem narrowing {target source : ValueType} : K.Reaches (Item.narrowing target source) [] := by
  rw [Item.narrowing]
  split
  · exact quiet rfl rfl
  · exact nil

theorem widening {isFloat : Bool} {T : ValueType} : K.Reaches (Item.widening isFloat op T) [] := by
  rw [Item.widening]
  split
  · exact quiet rfl rfl
  · exact nil

/-- Counting reads the variable and then writes it. -/
theorem counting {trailing : Bool} (harity : step.arity = 0) (hquiet : step.isFrameAccess = false)
    (hpeek : K.Reaches [.withSlot .peek x] as) (hpoke : K.Reaches [.withSlot .poke x] bs) :
    K.Reaches (Item.counting step trailing x) (as ++ bs) := by
  have hstep : K.Reaches [.plain step] [] := quiet harity.symm hquiet
  have hone : K.Reaches [.withWord .push 1] [] := quiet rfl rfl
  have hdup : K.Reaches [.plain .dup] [] := quiet rfl rfl
  cases trailing with
  | true => exact hpeek.append (hdup.append (hone.append (hstep.append hpoke)))
  | false => exact hpeek.append (hone.append (hstep.append (hdup.append hpoke)))

section

variable {scopes : Surroundings} {op : Op} {n : Token} {b : Binding} {info : VarInfo} {x : Int}

theorem ofBinding (hop : op.arity = 1 ∧ op.isFrameAccess = true)
    (hb : scopes.find? n.lexeme = some b)
    (hinfo : K.program.tree.varInfo? K.program.notes b = some info) (hs : info.slot = some x)
    (hown : FrameAccess.Own K.program (K.id, K.f) ⟨op, some b, 0⟩ x) :
    K.Reaches [.withSlot op x] [.ofName scopes op n] := by
  refine access (a := .ofName scopes op n) hop.1 hop.2 ?_ ?_
  · simp [FrameAccess.slot?, FrameAccess.ofName, hb, hinfo, hs]
  · rwa [FrameAccess.ofName, hb]

variable (hn : K.program.tree.Named K.program.notes K.id K.f) (hb : scopes.find? n.lexeme = some b)
  (husable : K.program.tree.Usable K.id K.f b)
  (hinfo : K.program.tree.varInfo? K.program.notes b = some info)

include hn hb husable hinfo

/-- The use of a variable that is not an array. -/
theorem ofName (hop : op = .peek ∨ op = .poke) (hl : info.length = none) (hs : info.slot = some x) :
    K.Reaches [.withSlot op x] [.ofName scopes op n] := by
  refine ofBinding ?_ hb hinfo hs (FrameAccess.own_of_usable hop hn husable hinfo hl hs)
  rcases hop with rfl | rfl <;> exact ⟨rfl, rfl⟩

/-- The use of some element of an array. -/
theorem ofElement (hop : op = .peekAt ∨ op = .pokeAt) (hl : info.length.isSome = true)
    (hs : info.slot = some x) : K.Reaches [.withSlot op x] [.ofName scopes op n] := by
  refine ofBinding ?_ hb hinfo hs (FrameAccess.own_of_usable_array hop hn husable hinfo hl hs)
  rcases hop with rfl | rfl <;> exact ⟨rfl, rfl⟩

end

end Compiled.Reaches

/-! ## Expressions -/

/-- The expression is checked, and its names are bound as the scopes around it say. -/
structure Compiled.Resolves (K : Compiled) (scopes : Surroundings) (e : Expr Mark) : Prop where
  checks : K.Checks e
  visits : ∀ v ∈ e.visits scopes, v.Bound K.program.tree K.program.notes

namespace Compiled.Resolves

variable {K : Compiled} {scopes : Surroundings} {m : Mark} {shape : Expr.Shape (Expr Mark)}

theorem child (h : K.Resolves scopes (.node m shape)) (he : e ∈ shape.children) :
    K.Resolves scopes e :=
  ⟨h.checks.child he, fun v hv => h.visits v (Expr.visits_subset_of_child he hv)⟩

/-- The declaration that the name at the root stands for. -/
theorem exists_binding {n : Token} {info : VarInfo} (h : K.Resolves scopes (.node m shape))
    (hown : shape.ownVisit scopes m = [.use scopes n m]) (huse : shape.use? = some .variableName)
    (hv : K.program.notes.variableAt K.program.tree m = some info) :
    ∃ b, scopes.find? n.lexeme = some b ∧ K.program.tree.Usable K.id K.f b ∧
      K.program.tree.varInfo? K.program.notes b = some info := by
  obtain ⟨b, hb, -, husable⟩ := h.checks.bound.root _ huse
  have hfind : (K.program.notes.expr m.id).binding = scopes.find? n.lexeme := by
    refine h.visits (.use scopes n m) ?_
    unfold Expr.visits
    simp [hown]
  rw [Notes.variableAt, hb] at hv
  exact ⟨b, hfind.symm.trans hb, husable, hv⟩

end Compiled.Resolves

/-- The operator that counts stands for an operation on the stack. -/
theorem Op.quiet_of_ofCounting? (h : Op.ofCounting? kind = some step) :
    step.arity = 0 ∧ step.isFrameAccess = false := by
  unfold Op.ofCounting? at h
  split at h <;> cases h <;> exact ⟨rfl, rfl⟩

theorem Op.quiet_of_ofBinary? {l r : ValueType} {o : Op} (h : Op.ofBinary? kind l r = some o) :
    o.arity = 0 ∧ o.isFrameAccess = false := by
  unfold Op.ofBinary? Op.ofFloatOperator? Op.ofOperator? at h
  split at h <;> split at h <;> cases h <;> exact ⟨rfl, rfl⟩

/-- Nothing is written again behind an operator that does not count. -/
theorem Expr.counted_eq_nil {op : Token} (h : Op.ofCounting? op.kind = none) (e : Expr Mark) :
    e.counted op = [] := by
  unfold Expr.counted
  split
  · simp [h]
  · rfl

section

variable {K : Compiled}

open Compiled.Reaches

mutual

/-- The code of an expression uses the variables that the expression uses. -/
theorem Expr.Code.reaches {e : Expr Mark} {is : List Item} {scopes : Surroundings}
    (hn : K.program.tree.Named K.program.notes K.id K.f) :
    e.Code K.context K.generated.strings is → K.Resolves scopes e → K.Reaches is (e.accesses scopes)
  | .literal _, _ => by
    rw [Expr.accesses]
    exact quiet rfl rfl
  | .grouping hc, he => by
    rw [Expr.accesses]
    exact hc.reaches hn (he.child (List.mem_singleton_self _))
  | .binary _ _ ho left right, he => by
    obtain ⟨harity, hquiet⟩ := Op.quiet_of_ofBinary? ho
    have hleft := left.reaches hn (he.child (by simp))
    have hright := right.reaches hn (he.child (by simp))
    rw [Expr.accesses]
    exact (((hleft.appendQuiet widening).append hright).appendQuiet widening).appendQuiet
      (quiet harity.symm hquiet)
  | .plus hop hc, he => by
    rw [Expr.accesses, Expr.counted_eq_nil (by rw [hop]; rfl), List.map_nil, List.append_nil]
    exact hc.reaches hn (he.child (List.mem_singleton_self _))
  | .minus hop _ hc, he => by
    have hvalue := hc.reaches hn (he.child (List.mem_singleton_self _))
    rw [Expr.accesses, Expr.counted_eq_nil (by rw [hop]; rfl), List.map_nil, List.append_nil]
    refine ((quiet rfl rfl).append hvalue).appendQuiet ?_
    split
    · exact quiet rfl rfl
    · exact quiet rfl rfl
  | .not hop hc, he => by
    rw [Expr.accesses, Expr.counted_eq_nil (by rw [hop]; rfl), List.map_nil, List.append_nil]
    exact (hc.reaches hn (he.child (List.mem_singleton_self _))).appendQuiet (quiet rfl rfl)
  | .count hop hv hs, he => by
    have hname := he.child (List.mem_singleton_self _)
    obtain ⟨T, -, info, hv', hl, -⟩ := hname.checks.typed.root
    cases hv.symm.trans hv'
    obtain ⟨b, hb, husable, hinfo⟩ := hname.exists_binding rfl rfl hv
    obtain ⟨harity, hquiet⟩ := Op.quiet_of_ofCounting? hop
    rw [Expr.accesses, Expr.accesses, Expr.counted, hop]
    exact counting harity hquiet (ofName hn hb husable hinfo (.inl rfl) hl hs)
      (ofName hn hb husable hinfo (.inr rfl) hl hs)
  | .name hv hs, he => by
    obtain ⟨T, -, info, hv', hl, -⟩ := he.checks.typed.root
    cases hv.symm.trans hv'
    obtain ⟨b, hb, husable, hinfo⟩ := he.exists_binding rfl rfl hv
    rw [Expr.accesses]
    exact ofName hn hb husable hinfo (.inl rfl) hl hs
  | .assign hv hs _ value, he => by
    obtain ⟨T, -, info, hv', hl, -⟩ := he.checks.typed.root
    cases hv.symm.trans hv'
    obtain ⟨b, hb, husable, hinfo⟩ := he.exists_binding rfl rfl hv
    have hvalue := value.reaches hn (he.child (List.mem_singleton_self _))
    rw [Expr.accesses]
    exact ((hvalue.appendQuiet narrowing).appendQuiet (quiet rfl rfl)).append
      (ofName hn hb husable hinfo (.inr rfl) hl hs)
  | .assignElement hv hs _ value index, he => by
    obtain ⟨T, -, info, hv', hl, -⟩ := he.checks.typed.root
    cases hv.symm.trans hv'
    obtain ⟨b, hb, husable, hinfo⟩ := he.exists_binding rfl rfl hv
    have hvalue := value.reaches hn (he.child (by simp))
    have hindex := index.reaches hn (he.child (by simp))
    rw [Expr.accesses]
    exact (((hvalue.appendQuiet narrowing).appendQuiet (quiet rfl rfl)).append hindex).append
      (ofElement hn hb husable hinfo (.inr rfl) hl hs)
  | .call _ _ hargs, he => by
    have hvalues := hargs.reaches hn fun e hmem => he.child hmem
    rw [Expr.accesses]
    refine (((quiet rfl rfl).append hvalues).appendQuiet (quiet rfl rfl)).appendQuiet ?_
    split
    · exact quiet rfl rfl
    · exact nil
  | .element hv hs index, he => by
    obtain ⟨T, -, info, hv', hl, -⟩ := he.checks.typed.root
    cases hv.symm.trans hv'
    obtain ⟨b, hb, husable, hinfo⟩ := he.exists_binding rfl rfl hv
    rw [Expr.accesses]
    exact (index.reaches hn (he.child (List.mem_singleton_self _))).append
      (ofElement hn hb husable hinfo (.inl rfl) hl hs)
  | .random hc, he => by
    rw [Expr.accesses]
    exact (hc.reaches hn (he.child (List.mem_singleton_self _))).appendQuiet (quiet rfl rfl)

theorem Expr.ArgsCode.reaches {es : List (Expr Mark)} {ps : List Param} {is : List Item}
    {scopes : Surroundings} (hn : K.program.tree.Named K.program.notes K.id K.f) :
    Expr.ArgsCode K.context K.generated.strings es ps is → (∀ e ∈ es, K.Resolves scopes e) →
      K.Reaches is (Expr.accessesAll scopes es)
  | .nil, _ => by
    rw [Expr.accessesAll]
    exact nil
  | .cons _ hc hcs, he => by
    rw [List.forall_mem_cons] at he
    rw [Expr.accessesAll]
    exact ((hc.reaches hn he.1).appendQuiet narrowing).append (hcs.reaches hn he.2)

end

end

/-! ## Parts of statements -/

/-- All these names are bound by the scoping rules. -/
def Compiled.Binds (K : Compiled) (vs : List Visit) : Prop :=
  ∀ v ∈ vs, v.Bound K.program.tree K.program.notes

theorem Compiled.binds_append {vs ws : List Visit} : K.Binds (vs ++ ws) ↔ K.Binds vs ∧ K.Binds ws :=
  List.forall_mem_append

theorem Compiled.Binds.expr {scopes : Surroundings} (h : K.Binds (Expr.visitsAll scopes es))
    (he : e ∈ es) : K.Binds (e.visits scopes) :=
  fun v hv => h v (Expr.visits_subset_visitsAll scopes he hv)

namespace Compiled.Reaches

variable {K : Compiled} {is tail : List Item} {scopes : Surroundings} {e : Option (Expr Mark)}

theorem jump : K.Reaches [.withLabel .jump l] [] :=
  quiet rfl rfl

variable (hn : K.program.tree.Named K.program.notes K.id K.f)

include hn

/-- The value of an expression is used by code that does not reach into the frame. -/
theorem optional {use : List Item}
    (h : Expr.OptionalCode K.context K.generated.strings use e is)
    (huse : K.Reaches use []) (he : ∀ x ∈ e.toList, K.Resolves scopes x) :
    K.Reaches is (Expr.accessesAll scopes e.toList) := by
  cases h with
  | none => exact nil
  | some hc =>
    rw [Option.toList_some, Expr.accessesAll, Expr.accessesAll, List.append_nil]
    exact (hc.reaches hn (he _ (List.mem_singleton_self _))).appendQuiet huse

theorem outputs (h : Expr.OutputsCode K.context K.generated.strings es is)
    (he : ∀ x ∈ es, K.Resolves scopes x) : K.Reaches is (Expr.accessesAll scopes es) := by
  induction h with
  | nil => exact nil
  | @cons e es T op is rest hT hop hc _ ih =>
    rw [List.forall_mem_cons] at he
    have hprint : K.Reaches [.plain op] [] := by
      cases T <;> cases hop <;> exact quiet rfl rfl
    rw [Expr.accessesAll]
    exact ((hc.reaches hn he.1).appendQuiet hprint).append (ih he.2)

/-- The elements of an array are stored in its cells, in their order. -/
theorem elements {s : StmtId} {base : Int}
    (h : Expr.ElementsCode K.context K.generated.strings type x es is)
    (he : ∀ e ∈ es, K.Resolves scopes e) {i : Nat} (hx : x = base + i)
    (hs : ∀ j < i + es.length, FrameAccess.slot? K.program ⟨.poke, some (.localVar s), j⟩ = some
      (base + j) ∧ FrameAccess.Own K.program (K.id, K.f) ⟨.poke, some (.localVar s), j⟩ (base +
      j)) : K.Reaches is (Expr.accessesElements scopes s i es) := by
  induction h generalizing i with
  | nil => exact nil
  | cons _ hc _ ih =>
    subst hx
    rw [List.forall_mem_cons] at he
    obtain ⟨hslot, hown⟩ := hs i (by simp)
    rw [Expr.accessesElements]
    refine (((hc.reaches hn he.1).appendQuiet narrowing).append
      (access (a := ⟨.poke, some (.localVar s), i⟩) rfl rfl hslot hown)).append
        (ih he.2 (by rw [Int.natCast_add, Int.add_assoc]; rfl) fun j hj => hs j ?_)
    rw [List.length_cons]
    omega

end Compiled.Reaches

/-! ## Statements -/

namespace Program.Allows

variable {p : Program} {id : FunctionId} {f : Function (Stmt Mark)} {m : Mark} {slot : Int}
  {name : Token}

theorem slot?_localVar {shape : Stmt.Shape (Stmt Mark) (Expr Mark)}
    (h : p.Allows id f (.node m shape))
    (hc : shape.cells? = some cells) (hslot : (p.notes.stmt m.id).slot = some slot)
    (op : Op) (i : Nat) :
    FrameAccess.slot? p ⟨op, some (.localVar m.id), i⟩ = some (slot + i) := by
  have hinfo := Tree.varInfo?_of_held (n := p.notes) h.held
  cases shape with
  | var name type init | array name type length init => simp [FrameAccess.slot?, hinfo, hslot]
  | _ => cases hc

/-- A variable is stored where it is declared. -/
theorem own_var {init : Option (Expr Mark)} (h : p.Allows id f (.node m (.var name type init)))
    (hn : p.tree.Named p.notes id f)
    (hslot : (p.notes.stmt m.id).slot = some slot) :
    FrameAccess.Own p (id, f) ⟨.poke, some (.localVar m.id), 0⟩ slot := by
  have hm := h.within m (Stmt.mem_tags_self m _)
  have hrange := hn.slots.slot_range hm (Tree.cells?_of_held h.held) hslot
  refine .var (.inr rfl) hm h.held.root.1 hrange.1 ?_
  rw [hn.frame]
  omega

/-- The elements of an array are stored where it is declared. -/
theorem own_array {m' : Mark} {length : Nat}
    (h : p.Allows id f (.node m (.array name type length (some (.node m' (.braces es))))))
    (hn : p.tree.Named p.notes id f)
    (hslot : (p.notes.stmt m.id).slot = some slot) (hlength : es.length ≤ length)
    {i : Nat} (hi : i < es.length) :
    FrameAccess.Own p (id, f) ⟨.poke, some (.localVar m.id), i⟩ (slot + i) := by
  have hm := h.within m (Stmt.mem_tags_self m _)
  have hrange := hn.slots.slot_range hm (Tree.cells?_of_held h.held) hslot
  have hbraces := (h.held.root.2 _ (List.mem_singleton_self _)).1.root
  refine .initial hm h.held.root.1 hbraces (by simpa using hi) (by omega) (by omega) ?_
  rw [hn.frame]
  omega

end Program.Allows

section

variable {K : Compiled}

open Compiled.Reaches Compiled

mutual

/-- The code of a statement uses the variables that the statement uses. -/
theorem Stmt.Code.reaches {loop : Option LoopLabels} {s : Stmt Mark} {is : List Item}
    {isBody : Bool} {here : List Declaration} {outer : Surroundings}
    (hn : K.program.tree.Named K.program.notes K.id K.f) :
    s.Code K.context K.generated.strings loop is → K.Allows s →
      K.Binds (s.visits isBody here outer) → K.Reaches is (s.accesses isBody here outer)
  | .block hbody, hs, hv => by
    rw [Stmt.visits, binds_append] at hv
    rw [Stmt.accesses]
    cases isBody with
    | true | false => exact hbody.reaches hn (fun x hx => hs.child hx) hv.1
  | .ret _ hc, hs, hv => by
    obtain ⟨_, typed⟩ := hs.typed
    obtain ⟨-, htyped, -⟩ := typed.root
    rw [Stmt.visits, binds_append] at hv
    rw [Stmt.accesses, Option.toList_some, Expr.accessesAll, Expr.accessesAll, List.append_nil]
    have hvalue := hc.reaches hn ⟨hs.checks (List.mem_singleton_self _) htyped,
      hv.1.expr (List.mem_singleton_self _)⟩
    exact (hvalue.appendQuiet narrowing).appendQuiet (quiet rfl rfl)
  | .retVoid, _, _ => by
    rw [Stmt.accesses]
    exact quiet rfl rfl
  | .expression hc, hs, hv => by
    obtain ⟨_, typed⟩ := hs.typed
    rw [Stmt.visits, binds_append] at hv
    rw [Stmt.accesses]
    have heffect := optional hn hc (quiet rfl rfl) (List.forall_mem_singleton.mpr
      ⟨hs.checks (List.mem_singleton_self _) typed.root, hv.1⟩)
    rwa [Option.toList_some, Expr.accessesAll, Expr.accessesAll, List.append_nil] at heffect
  | .choice hbranches hotherwise, hs, hv => by
    obtain ⟨_, typed⟩ := hs.typed
    rw [Stmt.visits, binds_append, binds_append] at hv
    obtain ⟨⟨harms, helse⟩, -⟩ := hv
    rw [Stmt.accesses]
    have hfirst := hbranches.reaches hn
      (fun b hb => hs.checks (List.mem_map_of_mem hb) (typed.root b hb).typed)
      (fun b hb => hs.child (List.mem_append_left _ (List.mem_map_of_mem hb))) harms
    have hlast := hotherwise.reaches hn
      (fun x hx => hs.child (List.mem_append_right _ (Option.mem_toList.mpr hx))) helse
    exact (hfirst.append hlast).appendQuiet place
  | .whileLoop hguard hbody, hs, hv => by
    obtain ⟨_, typed⟩ := hs.typed
    rw [Stmt.visits, binds_append, binds_append] at hv
    obtain ⟨⟨hcond, hinner⟩, -⟩ := hv
    have htest := optional hn hguard (quiet rfl rfl) (List.forall_mem_singleton.mpr
      ⟨hs.checks (List.mem_singleton_self _) typed.root.typed, hcond⟩)
    rw [Option.toList_some, Expr.accessesAll, Expr.accessesAll, List.append_nil] at htest
    have hrepeat := hbody.reaches hn (hs.child (by simp)) hinner
    rw [Stmt.accesses]
    exact (((place.append htest).append hrepeat).appendQuiet jump).appendQuiet place
  | .forLoop hinit hguard hbody hupdate, hs, hv => by
    obtain ⟨_, typed⟩ := hs.typed
    rw [Stmt.visits, binds_append, binds_append, binds_append, binds_append] at hv
    obtain ⟨⟨⟨⟨hfirst, hcond⟩, hchange⟩, hinner⟩, -⟩ := hv
    have hstart := hinit.reaches hn
      (fun x hx => hs.child (List.mem_append_left _ (Option.mem_toList.mpr hx))) hfirst
    have htest :=
      optional hn hguard (quiet rfl rfl) fun x hx => ⟨hs.checks (List.mem_append_left _ hx)
      (typed.root.1 x (Option.mem_toList.mp hx)).typed, hcond.expr hx⟩
    have hrepeat := hbody.reaches hn (hs.child (by simp)) hinner
    have hstep :=
      optional hn hupdate (quiet rfl rfl) fun x hx => ⟨hs.checks (List.mem_append_right _ hx)
      (typed.root.2 x (Option.mem_toList.mp hx)), hchange.expr hx⟩
    rw [Stmt.accesses]
    exact (((((((hstart.appendQuiet place).append htest).append hrepeat).appendQuiet place).append
      hstep).appendQuiet jump).appendQuiet place)
  | .output hvalues, hs, hv => by
    obtain ⟨_, typed⟩ := hs.typed
    rw [Stmt.visits, binds_append] at hv
    rw [Stmt.accesses]
    refine outputs hn hvalues fun x hx => ⟨?_, hv.1.expr hx⟩
    obtain ⟨T, -, hT⟩ := typed.root x hx
    exact hs.checks hx hT.typed
  | @Stmt.Code.input _ _ _ _ _ info _ hinfo hslot, hs, hv => by
    obtain ⟨_, typed⟩ := hs.typed
    obtain ⟨_, hinfo', hl⟩ := typed.root
    cases hinfo.symm.trans hinfo'
    rw [Stmt.visits] at hv
    obtain ⟨b, hb, -, husable⟩ := hs.bound.root.2 _ rfl
    have hfind : (K.program.notes.stmt _).binding = _ := hv _ (List.mem_singleton_self _)
    rw [hb] at hfind hinfo'
    have hquiet : K.Reaches [.plain (Op.reading info.type)] [] := by
      cases info.type <;> exact quiet rfl rfl
    rw [Stmt.accesses]
    exact hquiet.append (ofName hn hfind.symm husable hinfo' (.inr rfl) hl hslot)
  | .var hslot _ hc, hs, hv => by
    obtain ⟨_, typed⟩ := hs.typed
    obtain ⟨htyped, -⟩ := typed.root _ rfl
    rw [Stmt.visits, binds_append] at hv
    have hvalue := hc.reaches hn ⟨hs.checks (List.mem_singleton_self _) htyped,
      hv.1.expr (List.mem_singleton_self _)⟩
    have hplace := hs.slot?_localVar rfl hslot .poke 0
    rw [Int.natCast_zero, Int.add_zero] at hplace
    rw [Stmt.accesses]
    exact (hvalue.appendQuiet narrowing).append (access rfl rfl hplace (hs.own_var hn hslot))
  | .varBlank, _, _ => by
    rw [Stmt.accesses]
    exact nil
  | .array hslot hes, hs, hv => by
    obtain ⟨_, typed⟩ := hs.typed
    obtain ⟨_, _, ⟨⟩, -, hlength, hfits⟩ := typed.root _ rfl
    rw [Stmt.visits, binds_append] at hv
    have hbraces := hv.1.expr (List.mem_singleton_self _)
    rw [Stmt.accesses, Expr.elements]
    refine elements hn hes (fun e he => ⟨⟨(hfits e he).1, ?_⟩, fun v hmem => ?_⟩) (by simp)
      fun j hj => ⟨hs.slot?_localVar rfl hslot .poke j, hs.own_array hn hslot hlength (by omega)⟩
    · exact (hs.bound.root.1 _ (List.mem_singleton_self _)).child e he
    · exact hbraces v (Expr.visits_subset_of_child he hmem)
  | .arrayBlank, _, _ => by
    rw [Stmt.accesses]
    exact nil
  | .stop, _, _ | .skip, _, _ => by
    rw [Stmt.accesses]
    exact jump

theorem Stmt.ListCode.reaches {loop : Option LoopLabels} {ss : List (Stmt Mark)} {is : List Item}
    {here : List Declaration} {outer : Surroundings}
    (hn : K.program.tree.Named K.program.notes K.id K.f) :
    Stmt.ListCode K.context K.generated.strings loop ss is → (∀ s ∈ ss, K.Allows s) →
      K.Binds (Stmt.visitsAll here outer ss) → K.Reaches is (Stmt.accessesAll here outer ss)
  | .nil, _, _ => by
    rw [Stmt.accessesAll]
    exact nil
  | .cons hc hcs, hs, hv => by
    rw [Stmt.visitsAll, binds_append] at hv
    rw [List.forall_mem_cons] at hs
    rw [Stmt.accessesAll]
    exact (hc.reaches hn hs.1 hv.1).append (hcs.reaches hn hs.2 hv.2)

theorem Stmt.ArmsCode.reaches {loop : Option LoopLabels} {stop : LabelId}
    {bs : List (Expr Mark × Stmt Mark)} {is : List Item} {outer : Surroundings}
    (hn : K.program.tree.Named K.program.notes K.id K.f) :
    Stmt.ArmsCode K.context K.generated.strings loop stop bs is → (∀ b ∈ bs, K.Checks b.1) →
      (∀ b ∈ bs, K.Allows b.2) → K.Binds (Stmt.visitsArms outer bs) →
        K.Reaches is (Stmt.accessesArms outer bs)
  | .nil, _, _, _ => by
    rw [Stmt.accessesArms]
    exact nil
  | .cons hguard hbody hrest, he, hs, hv => by
    rw [Stmt.visitsArms, binds_append, binds_append] at hv
    obtain ⟨⟨hve, hvs⟩, hvr⟩ := hv
    rw [List.forall_mem_cons] at he hs
    have htest := optional hn hguard (quiet rfl rfl) (List.forall_mem_singleton.mpr ⟨he.1, hve⟩)
    rw [Option.toList_some, Expr.accessesAll, Expr.accessesAll, List.append_nil] at htest
    rw [Stmt.accessesArms]
    exact (((htest.append (hbody.reaches hn hs.1 hvs)).appendQuiet jump).appendQuiet place).append
      (hrest.reaches hn he.2 hs.2 hvr)

theorem Stmt.OptionCode.reaches {loop : Option LoopLabels} {s : Option (Stmt Mark)}
    {is : List Item} {isBody : Bool} {outer : Surroundings}
    (hn : K.program.tree.Named K.program.notes K.id K.f) :
    Stmt.OptionCode K.context K.generated.strings loop s is → (∀ x ∈ s, K.Allows x) →
      K.Binds (Stmt.visitsOption isBody outer s) → K.Reaches is (Stmt.accessesOption isBody outer s)
  | .none, _, _ => by
    rw [Stmt.accessesOption]
    exact nil
  | .some hc, hs, hv => by
    rw [Stmt.visitsOption] at hv
    rw [Stmt.accessesOption]
    exact hc.reaches hn (hs _ rfl) hv

end

end

/-! ## Functions -/

theorem Compiled.Reaches.reserving : K.Reaches (Item.reserving cells) [] := by
  rw [Item.reserving]
  split
  · exact quiet rfl rfl
  · exact nil

open Compiled.Reaches in
/-- The code of a function uses the variables that the function uses. -/
theorem Function.Code.reaches {is : List Item} (hp : K.program.Checked)
    (hv : (K.id, K.f) ∈ K.program.tree.views) (hb : K.Binds (K.f.visits K.id))
    (hcode : Function.Code K.program K.generated.strings K.id K.f is) :
    K.Reaches is (K.f.accesses K.id) := by
  obtain ⟨hbody⟩ := hcode
  have hn := hp.named _ hv
  have hallows : K.Allows K.f.body := hp.allows hv
  rw [Function.visits, Compiled.binds_append] at hb
  exact ((place.append reserving).append (hbody.reaches hn hallows hb.2)).appendQuiet
    (quiet rfl rfl)

/-- A statement is one of one function only. -/
theorem Tree.Orderly.eq_of_mem_tags {t : Tree} (ht : t.Orderly)
    {v : FunctionId × Function (Stmt Mark)} (hv : v ∈ t.views) (hw : w ∈ t.views) {m m' : Mark}
    (hm : m ∈ v.2.body.tags) (hm' : m' ∈ w.2.body.tags) (hid : m.id = m'.id) : v = w := by
  obtain ⟨before, after, hviews⟩ := List.append_of_mem hv
  have hids := ht.stmtIds
  rw [Mark.Ascending, hviews, List.flatMap_append, List.flatMap_cons, List.pairwise_append,
    List.pairwise_append] at hids
  obtain ⟨-, ⟨-, -, hbehind⟩, hbefore⟩ := hids
  rw [hviews, List.mem_append, List.mem_cons] at hw
  rcases hw with hw | rfl | hw
  · have := hbefore m' (List.mem_flatMap.mpr ⟨w, hw, hm'⟩) m (List.mem_append_left _ hm)
    omega
  · rfl
  · have := hbehind m hm m' (List.mem_flatMap.mpr ⟨w, hw, hm'⟩)
    omega

namespace FrameAccess.Own

variable {p : Program} {v : FunctionId × Function (Stmt Mark)} {a : FrameAccess} {x : Int}

/-- The place is that of a parameter or one that the function reserves. -/
theorem range (h : a.Own p v x) :
    -(v.2.params.length + 3 : Int) ≤ x ∧ x < -3 ∨
      0 ≤ x ∧ x ≤ (p.notes.function v.1).frameSlots := by
  cases h with
  | param _ hi => omega
  | var => omega
  | initial => omega
  | element => omega

/-- The declaration is that of no other function. -/
theorem function_eq (h : a.Own p v x) (ht : p.tree.Orderly) (hv : v ∈ p.tree.views)
    (hw : w ∈ p.tree.views) {b : Binding} (hb : a.binding = some b)
    (husable : p.tree.Usable w.1 w.2 b) : w = v := by
  have hmarks : ∀ m ∈ v.2.body.tags, p.tree.Usable w.1 w.2 (.localVar m.id) → w = v := by
    rintro m hm ⟨⟨m', hm', hid⟩, -⟩
    exact ht.eq_of_mem_tags hw hv hm' hm hid
  cases h with
  | param _ hi =>
    cases hb
    obtain ⟨hid, -⟩ := husable
    have hv' := Tree.function?_of_mem_views hv
    rw [hid, Tree.function?_of_mem_views hw] at hv'
    exact Prod.ext hid.symm (Option.some.inj hv')
  | var _ hm | initial hm | element _ hm =>
    cases hb
    exact hmarks _ hm husable

end FrameAccess.Own

/-! ## Programs -/

/-- The instructions of the function `v` that reach into the frame are the uses of variables in its
source, in their order, each at the place of the declaration that the name stands for: a parameter,
a variable or an array of this function and of no other.  None is at the header of the frame. -/
def Generated.KeepsToFrame (g : Generated) (p : Program) (is : List Instruction)
    (v : FunctionId × Function (Stmt Mark)) : Prop :=
  ∃ start, g.start? v.1 = some start ∧
    (is.filter fun i => start ≤ i.address ∧ i.address < g.stop v.1).filterMap
      Instruction.access? = (v.2.accesses v.1).map (FrameAccess.encoded p) ∧
    ∀ a ∈ v.2.accesses v.1, ∃ x, a.slot? p = some x ∧ a.Own p v x ∧ ¬(-3 ≤ x ∧ x < 0) ∧
      (v.2.params.length + 3 ≤ 0x8000000000000000 → (Int64.ofInt x).toInt = x) ∧
      ∀ w ∈ p.tree.views, ∀ b, a.binding = some b → p.tree.Usable w.1 w.2 b → w = v

/-- Compiled functions keep to their frames. -/
theorem compileSource_accesses {source : String} {g : Generated}
    (hg : compileSource source = .ok g) :
    ∃ p is, analyzeSource source = .ok p ∧ Code.decode g.code.toList = .ok is ∧
      ∀ v ∈ p.tree.views, g.KeepsToFrame p is v := by
  obtain ⟨p, hanalyze⟩ := analyzeSource_of_compileSource hg
  obtain ⟨env, items, hall, hsymbols⟩ := symbols_of_compileSource hanalyze hg
  have hp := checked_of_analyzeSource hanalyze
  have hreaches : ∀ v ∈ p.tree.views, ∀ js, Function.Code p g.strings v.1 v.2 js →
      Compiled.Reaches ⟨p, g, env, v.1, v.2, fun _ => True⟩ js (v.2.accesses v.1) :=
    fun v hv js hcode => hcode.reaches (K := ⟨p, g, env, v.1, v.2, fun _ => True⟩) hp hv
      (bound_of_analyzeSource hanalyze v hv)
  refine ⟨p, Item.instructions env 0 items, hanalyze, ?_, fun v hv => ?_⟩
  · exact hall.decode fun v hv js hcode => (hreaches v hv js hcode).fits
  · obtain ⟨pre, js, suf, rfl, hcode, -, hstart, hstop⟩ := hall.region hp hsymbols hv
    have hreach := hreaches v hv js hcode
    refine ⟨Item.size pre, hstart, ?_, fun a ha => ?_⟩
    · have hpart := @Item.filter_instructions_part env 0 js pre suf
      simp only [Nat.zero_add] at hpart
      rw [hstop, hpart, Item.filterMap_access?_instructions]
      exact hreach.items
    · obtain ⟨x, hx, hown⟩ : ∃ x, a.slot? p = some x ∧ a.Own p v x := hreach.own a ha
      have hrange := hown.range
      have hframe := hp.frames v hv
      have hsize := (hp.named v hv).frame
      refine ⟨x, hx, hown, by omega, fun hparams => ?_, fun w hw b hb husable => ?_⟩
      · exact Int64.toInt_ofInt_of_le (by omega) (by omega)
      · exact hown.function_eq hp.orderly hv hw hb husable

set_option maxRecDepth 20000 in
/-- A program that counts, shadows a parameter, and writes and reads the elements of an array. -/
theorem compileSource_accesses_shadowed :
    ∃ source g is', compileSource source = .ok g ∧ Code.decode g.code.toList = .ok is' ∧
      (∀ op ∈ [Op.peek, .poke, .peekAt, .pokeAt], ∃ i ∈ is', i.op = op) ∧
      ∃ p is, analyzeSource source = .ok p ∧ Code.decode g.code.toList = .ok is ∧
        ∀ v ∈ p.tree.views, g.KeepsToFrame p is v := by
  obtain ⟨source, h⟩ : ∃ source, ((compileSource source).toOption.any fun g =>
      (Code.decode g.code.toList).toOption.any fun is =>
        [Op.peek, .poke, .peekAt, .pokeAt].all fun op => is.any fun i => i.op = op) = true := by
    refine ⟨"int f(int n, int k) \x7b int a[3] = \x7b n, 2 \x7d; int i = 0; " ++
      "while (i < n) \x7b i++; int n = a[i]; a[0] = n + k; \x7d return a[0]; \x7d " ++
      "int main() \x7b int n = f(2, 5); return n; \x7d", ?_⟩
    decide +kernel
  simp only [any_toOption_iff, List.all_eq_true, List.any_eq_true, decide_eq_true_eq] at h
  obtain ⟨g, hg, is, hd, h⟩ := h
  exact ⟨source, g, is, hg, hd, h, compileSource_accesses hg⟩

end StackLang
