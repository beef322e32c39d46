import StackLang.Proofs.Code.Assembled

/-!
# Where statements begin

How many words the code of a node has follows from the names and types in it; the labels and strings
of the code have no part in it.  So the address at which the code of each statement begins can be
told from the tree.

* `Stmt.starts` — the statements in a statement, with the addresses at which their code begins.
* `Expr.Code.size_eq`, `Stmt.Code.size_eq` — the number of words of the code of a node.
-/

namespace StackLang

open Generate (Context)

/-! ## Expressions -/

namespace Generate.Context

/-- The type of an expression. -/
def typeOf (c : Context) (e : Expr Mark) : ValueType :=
  (c.notes.typeOf e).getD .void

/-- The type of the variable that the name at an expression stands for. -/
def targetOf (c : Context) (m : Mark) : ValueType :=
  ((c.notes.variableAt c.tree m).map VarInfo.type).getD .void

/-- The number of words that convert an expression whose value is stored as `target`. -/
def narrowing (c : Context) (target : ValueType) (e : Expr Mark) : Nat :=
  Item.size (Item.narrowing target (c.typeOf e))

/-- The number of words that convert the operands of a binary operator. -/
def widening (c : Context) (kind : Token.Kind) (l r : Expr Mark) : Nat :=
  let isFloat := (c.typeOf l).isFloatOperation (c.typeOf r)
  match Op.ofBinary? kind (c.typeOf l) (c.typeOf r) with
  | none => 0
  | some op => Item.size (Item.widening isFloat op (c.typeOf l)) +
      Item.size (Item.widening isFloat op (c.typeOf r))

/-- The function that is called at an expression. -/
def callee? (c : Context) (m : Mark) : Option (Function StmtId) :=
  match (c.notes.expr m.id).binding with
  | some (.function id) => c.tree.functions[id]?
  | _ => none

end Generate.Context

mutual

/-- The number of words of the code of an expression. -/
def Expr.width (c : Context) : Expr Mark → Nat
  | .node m shape =>
    match shape with
    | .literal _ | .name _ => 2
    | .grouping e => e.width c
    | .binary l op r => l.width c + r.width c + c.widening op.kind l r + 1
    | .unary op e _ =>
      match op.kind with
      | .operator .plus => e.width c
      | .operator .minus => e.width c + 3
      | .operator .not => e.width c + 1
      | _ => 8
    | .assign _ none v => v.width c + c.narrowing (c.targetOf m) v + 3
    | .assign _ (some i) v => v.width c + c.narrowing (c.targetOf m) v + i.width c + 3
    | .call _ args =>
      match c.callee? m with
      | none => 0
      | some f => Expr.widthArgs c args f.params + if f.returnType = .void then 6 else 4
    | .element _ i => i.width c + 2
    | .braces _ => 0
    | .random _ e => e.width c + 1

def Expr.widthArgs (c : Context) : List (Expr Mark) → List Param → Nat
  | e :: es, p :: ps => e.width c + c.narrowing p.type e + Expr.widthArgs c es ps
  | _, _ => 0

end

namespace Item

@[simp] theorem size_plain (op : Op) (is : List Item) : size (plain op :: is) = 1 + size is :=
  size_instr op [] is

@[simp] theorem size_withWord (op : Op) (w : Word) (is : List Item) :
    size (withWord op w :: is) = 2 + size is :=
  size_instr op [_] is

@[simp] theorem size_withSlot (op : Op) (slot : Int) (is : List Item) :
    size (withSlot op slot :: is) = 2 + size is :=
  size_instr op [_] is

@[simp] theorem size_withLabel (op : Op) (l : LabelId) (is : List Item) :
    size (withLabel op l :: is) = 2 + size is :=
  size_instr op [_] is

@[simp] theorem size_counting (step : Op) (trailing : Bool) (slot : Int) :
    size (counting step trailing slot) = 8 := by
  cases trailing <;> rfl

end Item

section

variable {c : Context} {P : StringPool}

theorem Generate.Context.typeOf_eq {e : Expr Mark} {T : ValueType}
    (h : c.notes.typeOf e = some T) : c.typeOf e = T := by
  rw [Context.typeOf, h, Option.getD_some]

theorem Generate.Context.targetOf_eq {m : Mark} {info : VarInfo}
    (h : c.notes.variableAt c.tree m = some info) : c.targetOf m = info.type := by
  rw [Context.targetOf, h, Option.map_some, Option.getD_some]

mutual

/-- The words of the code of an expression. -/
theorem Expr.Code.size_eq {e : Expr Mark} {is : List Item} :
    e.Code c P is → Item.size is = e.width c
  | .literal _ => by simp [Expr.width]
  | .grouping he => by rw [Expr.width, he.size_eq]
  | .binary hl hr ho left right => by
    simp only [Item.size_append, Item.size_plain, Item.size_nil, Expr.width, left.size_eq,
      right.size_eq, Context.widening, Context.typeOf_eq hl, Context.typeOf_eq hr, ho]
    omega
  | .plus hop he => by rw [Expr.width, hop, he.size_eq]
  | .minus hop _ he => by
    simp [Expr.width, hop, he.size_eq]
    omega
  | .not hop he => by simp [Expr.width, hop, he.size_eq]
  | .count hop _ _ => by
    rw [Expr.width, Item.size_counting]
    unfold Op.ofCounting? at hop
    split at hop <;> first | cases hop; done | rename_i hkind; rw [hkind]
  | .name _ _ => by simp [Expr.width]
  | .assign hv _ ht value => by
    simp [Expr.width, value.size_eq, Context.narrowing, Context.typeOf_eq ht,
      Context.targetOf_eq hv, Nat.add_assoc]
  | .assignElement hv _ ht value index => by
    simp [Expr.width, value.size_eq, index.size_eq, Context.narrowing, Context.typeOf_eq ht,
      Context.targetOf_eq hv]
    omega
  | .call hb hf hargs => by
    simp only [Expr.width, Context.callee?, hb, hf, Item.size_append, Item.size_withLabel,
      Item.size_withWord, Item.size_nil, hargs.size_eq]
    split
    · rw [Item.size_withWord, Item.size_nil]
      omega
    · rw [Item.size_nil]
      omega
  | .element _ _ index => by simp [Expr.width, index.size_eq]
  | .random he => by simp [Expr.width, he.size_eq]

theorem Expr.ArgsCode.size_eq {es : List (Expr Mark)} {ps : List Param} {is : List Item} :
    Expr.ArgsCode c P es ps is → Item.size is = Expr.widthArgs c es ps
  | .nil => rfl
  | .cons ht he hes => by
    simp only [Item.size_append, Expr.widthArgs, he.size_eq, hes.size_eq, Context.narrowing,
      Context.typeOf_eq ht]

end

end

/-! ## Statements -/

namespace Generate.Context

/-- The number of words of the code that stores an expression as `target`, before the store. -/
def storing (c : Context) (target : ValueType) (e : Expr Mark) : Nat :=
  e.width c + c.narrowing target e

end Generate.Context

/-- The number of words of the code that leaves a loop unless an optional condition holds. -/
def Expr.widthGuard (c : Context) : Option (Expr Mark) → Nat
  | none => 0
  | some e => e.width c + 2

/-- The number of words of the code that evaluates an optional expression for its effect. -/
def Expr.widthEffect (c : Context) : Option (Expr Mark) → Nat
  | none => 0
  | some e => e.width c + 1

mutual

/-- The number of words of the code of a statement. -/
def Stmt.width (c : Context) : Stmt Mark → Nat
  | .node _ shape =>
    match shape with
    | .block body => widthAll c body
    | .ret _ none => 1
    | .ret _ (some e) => c.storing c.returnType e + 1
    | .expression e => Expr.widthEffect c (some e)
    | .choice branches otherwise => widthArms c branches + widthOption c otherwise
    | .whileLoop e body => Expr.widthGuard c (some e) + body.width c + 2
    | .forLoop init e u body =>
      widthOption c init + Expr.widthGuard c e + body.width c + Expr.widthEffect c u + 2
    | .output _ values => (values.map fun e => e.width c + 1).sum
    | .input _ => 3
    | .var _ type (some e) => c.storing type e + 2
    | .array _ type _ (some (.node _ (.braces es))) => (es.map fun e => c.storing type e + 2).sum
    | .var _ _ none | .array _ _ _ _ => 0
    | .stop _ | .skip _ => 2

def Stmt.widthAll (c : Context) : List (Stmt Mark) → Nat
  | [] => 0
  | s :: ss => s.width c + widthAll c ss

def Stmt.widthArms (c : Context) : List (Expr Mark × Stmt Mark) → Nat
  | [] => 0
  | (e, body) :: rest => Expr.widthGuard c (some e) + body.width c + 2 + widthArms c rest

def Stmt.widthOption (c : Context) : Option (Stmt Mark) → Nat
  | none => 0
  | some s => s.width c

end

mutual

/-- The statement and those in it, each with the address at which its code begins if the code of the
statement begins at `a`. -/
def Stmt.starts (c : Context) (a : Nat) : Stmt Mark → List (Stmt Mark × Nat)
  | .node m shape =>
    (match shape with
    | .block body => startsAll c a body
    | .choice branches otherwise =>
      startsArms c a branches ++ startsOption c (a + widthArms c branches) otherwise
    | .whileLoop e body => body.starts c (a + Expr.widthGuard c (some e))
    | .forLoop init e _ body =>
      startsOption c a init ++ body.starts c (a + widthOption c init + Expr.widthGuard c e)
    | .ret _ _ | .expression _ | .output _ _ | .input _ | .var _ _ _ | .array _ _ _ _ | .stop _
    | .skip _ => []) ++ [(.node m shape, a)]

def Stmt.startsAll (c : Context) (a : Nat) : List (Stmt Mark) → List (Stmt Mark × Nat)
  | [] => []
  | s :: ss => s.starts c a ++ startsAll c (a + s.width c) ss

def Stmt.startsArms (c : Context) (a : Nat) : List (Expr Mark × Stmt Mark) → List (Stmt Mark × Nat)
  | [] => []
  | (e, body) :: rest => body.starts c (a + Expr.widthGuard c (some e)) ++
      startsArms c (a + Expr.widthGuard c (some e) + body.width c + 2) rest

def Stmt.startsOption (c : Context) (a : Nat) : Option (Stmt Mark) → List (Stmt Mark × Nat)
  | none => []
  | some s => s.starts c a

end

mutual

/-- Every statement has its place among the starts, in the order of the marks. -/
theorem Stmt.map_tag_starts (c : Context) : ∀ (s : Stmt Mark) (a : Nat),
    (s.starts c a).map (fun x => x.1.tag) = s.tags
  | .node m shape, a => by
    cases shape with
    | block body =>
      rw [Stmt.starts, List.map_append, Stmt.map_tag_startsAll c body, Stmt.tags]
      rfl
    | choice branches otherwise =>
      rw [Stmt.starts, List.map_append, List.map_append, Stmt.map_tag_startsArms c branches,
        Stmt.map_tag_startsOption c otherwise, Stmt.tags]
      rfl
    | whileLoop e body =>
      rw [Stmt.starts, List.map_append, Stmt.map_tag_starts c body, Stmt.tags]
      rfl
    | forLoop init e u body =>
      rw [Stmt.starts, List.map_append, List.map_append, Stmt.map_tag_startsOption c init,
        Stmt.map_tag_starts c body, Stmt.tags]
      rfl
    | _ => rfl

theorem Stmt.map_tag_startsAll (c : Context) : ∀ (ss : List (Stmt Mark)) (a : Nat),
    (Stmt.startsAll c a ss).map (fun x => x.1.tag) = Stmt.tagsList ss
  | [], _ => rfl
  | s :: ss, a => by
    rw [Stmt.startsAll, List.map_append, Stmt.map_tag_starts c s, Stmt.map_tag_startsAll c ss,
      Stmt.tagsList]

theorem Stmt.map_tag_startsArms (c : Context) : ∀ (bs : List (Expr Mark × Stmt Mark)) (a : Nat),
    (Stmt.startsArms c a bs).map (fun x => x.1.tag) = Stmt.tagsBranches bs
  | [], _ => rfl
  | (e, body) :: bs, a => by
    rw [Stmt.startsArms, List.map_append, Stmt.map_tag_starts c body, Stmt.map_tag_startsArms c bs,
      Stmt.tagsBranches]

theorem Stmt.map_tag_startsOption (c : Context) : ∀ (s : Option (Stmt Mark)) (a : Nat),
    (Stmt.startsOption c a s).map (fun x => x.1.tag) = Stmt.tagsOption s
  | none, _ => rfl
  | some s, a => by rw [Stmt.startsOption, Stmt.map_tag_starts c s, Stmt.tagsOption]

end

section

variable {c : Context} {P : StringPool} {e : Option (Expr Mark)} {is : List Item}

theorem Expr.GuardCode.size_eq {stop : LabelId} (h : Expr.GuardCode c P stop e is) :
    Item.size is = Expr.widthGuard c e := by
  cases h with
  | none => rfl
  | some he => simp [Expr.widthGuard, he.size_eq]

theorem Expr.EffectCode.size_eq (h : Expr.EffectCode c P e is) :
    Item.size is = Expr.widthEffect c e := by
  cases h with
  | none => rfl
  | some he => simp [Expr.widthEffect, he.size_eq]

theorem Expr.OutputsCode.size_eq {es : List (Expr Mark)} (h : Expr.OutputsCode c P es is) :
    Item.size is = (es.map fun e => e.width c + 1).sum := by
  induction h with
  | nil => rfl
  | cons _ _ he _ ih => simp [he.size_eq, ih, Nat.add_assoc]

theorem Expr.ElementsCode.size_eq {type : ValueType} {slot : Int} {es : List (Expr Mark)}
    (h : Expr.ElementsCode c P type slot es is) :
    Item.size is = (es.map fun e => c.storing type e + 2).sum := by
  induction h with
  | nil => rfl
  | cons ht he _ ih =>
    simp [he.size_eq, ih, Context.storing, Context.narrowing, Context.typeOf_eq ht, Nat.add_assoc]

mutual

/-- The words of the code of a statement. -/
theorem Stmt.Code.size_eq {loop : Option LoopLabels} {s : Stmt Mark} {is : List Item} :
    s.Code c P loop is → Item.size is = s.width c
  | .block hbody => by rw [Stmt.width, hbody.size_eq]
  | .ret ht he => by
    simp [Stmt.width, Context.storing, Context.narrowing, he.size_eq, Context.typeOf_eq ht,
      Nat.add_assoc]
  | .retVoid => by simp [Stmt.width]
  | .expression he => by rw [Stmt.width, he.size_eq]
  | .choice hbranches hotherwise => by
    simp [Stmt.width, hbranches.size_eq, hotherwise.size_eq]
  | .whileLoop hguard hbody => by
    simp [Stmt.width, hguard.size_eq, hbody.size_eq, Nat.add_assoc]
  | .forLoop hinit hguard hbody hupdate => by
    simp [Stmt.width, hinit.size_eq, hguard.size_eq, hbody.size_eq, hupdate.size_eq, Nat.add_assoc]
  | .output hvalues => by rw [Stmt.width, hvalues.size_eq]
  | .input _ _ => by simp [Stmt.width]
  | .var _ ht he => by
    simp [Stmt.width, Context.storing, Context.narrowing, he.size_eq, Context.typeOf_eq ht,
      Nat.add_assoc]
  | .varBlank => rfl
  | .array _ hes => by rw [Stmt.width, hes.size_eq]
  | .arrayBlank => rfl
  | .stop | .skip => by simp [Stmt.width]

theorem Stmt.ListCode.size_eq {loop : Option LoopLabels} {ss : List (Stmt Mark)} {is : List Item} :
    Stmt.ListCode c P loop ss is → Item.size is = Stmt.widthAll c ss
  | .nil => rfl
  | .cons hs hss => by rw [Item.size_append, Stmt.widthAll, hs.size_eq, hss.size_eq]

theorem Stmt.ArmsCode.size_eq {loop : Option LoopLabels} {stop : LabelId}
    {bs : List (Expr Mark × Stmt Mark)} {is : List Item} :
    Stmt.ArmsCode c P loop stop bs is → Item.size is = Stmt.widthArms c bs
  | .nil => rfl
  | .cons hguard hbody hrest => by
    simp [Stmt.widthArms, hguard.size_eq, hbody.size_eq, hrest.size_eq, Nat.add_assoc]

theorem Stmt.OptionCode.size_eq {loop : Option LoopLabels} {s : Option (Stmt Mark)}
    {is : List Item} : Stmt.OptionCode c P loop s is → Item.size is = Stmt.widthOption c s
  | .none => rfl
  | .some hs => by rw [Stmt.widthOption, hs.size_eq]

end

end

end StackLang
