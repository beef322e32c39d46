import Mathlib.Data.List.Perm.Basic
import StackLang.Proofs.Code.Decoding
import StackLang.Proofs.Code.Starts
import StackLang.Proofs.Program.Held

/-!
# Calls in the code

The code of a call pushes the address of the function, evaluates the arguments and calls.  Both
instructions have addresses that can be told from the tree, and there are no other calls in the code
of a function; nor are cells reserved in the code of its body.

* `Expr.callSites`, `Stmt.callSites` — the calls in a node, with the addresses of their code.
* `Generate.Context.Sites` — the calls in some code are those of the nodes it was made from.
* `Expr.Code.sites`, `Stmt.Code.sites` — so they are in the code of a node.
-/

namespace StackLang

open Generate (Context)

variable {m : Mark} {T : ValueType}

/-! ## Nodes that are calls -/

def Expr.Shape.isCall {ε : Type} : Shape ε → Bool
  | call _ _ => true
  | _ => false

/-- Whether the expression of the mark is a call. -/
def Tree.isCall (t : Tree) (m : Mark) : Bool :=
  t.exprs[m.id]?.any fun n => n.shape.isCall

theorem Expr.Shape.isCall_ids (shape : Shape (Expr Mark)) : shape.ids.isCall = shape.isCall := by
  cases shape <;> rfl

theorem Expr.Held.isCall_root {t : Tree} {shape : Expr.Shape (Expr Mark)}
    (h : (Expr.node m shape).Held t) : t.isCall m = shape.isCall := by
  rw [Tree.isCall, h.root, Option.any_some, Expr.Shape.isCall_ids]

/-! ## Where the calls are -/

/-- A call in the code: the mark of the expression, the number of its arguments, and the addresses
of the instruction that pushes the address of the function and of the one that calls it. -/
structure CallSite where
  mark : Mark
  arguments : Nat
  push : Nat
  call : Nat
  deriving DecidableEq

namespace Generate.Context

/-- The number of words that convert the left operand of a binary operator. -/
def wideningLeft (c : Context) (kind : Token.Kind) (l r : Expr Mark) : Nat :=
  match Op.ofBinary? kind (c.typeOf l) (c.typeOf r) with
  | none => 0
  | some op => Item.size
      (Item.widening ((c.typeOf l).isFloatOperation (c.typeOf r)) op (c.typeOf l))

/-- The parameters of the function that is called at an expression. -/
def paramsAt (c : Context) (m : Mark) : List Param :=
  ((c.callee? m).map Function.params).getD []

end Generate.Context

mutual

/-- The calls in an expression whose code begins at `a`, in the order of their code. -/
def Expr.callSites (c : Context) (a : Nat) : Expr Mark → List CallSite
  | .node m shape =>
    match shape with
    | .literal _ | .name _ | .braces _ => []
    | .grouping e | .element _ e | .random _ e | .assign _ none e => e.callSites c a
    | .binary l op r =>
      l.callSites c a ++ r.callSites c (a + l.width c + c.wideningLeft op.kind l r)
    -- The operand of a minus is subtracted from a zero, which is pushed first.
    | .unary op e _ => e.callSites c (if op.kind = .operator .minus then a + 2 else a)
    | .assign _ (some i) v =>
      v.callSites c a ++ i.callSites c (a + c.storing (c.targetOf m) v + 1)
    | .call _ args =>
      ⟨m, args.length, a, a + 2 + Expr.widthArgs c args (c.paramsAt m)⟩ ::
        Expr.callSitesArgs c (a + 2) args (c.paramsAt m)

def Expr.callSitesArgs (c : Context) (a : Nat) : List (Expr Mark) → List Param → List CallSite
  | e :: es, p :: ps => e.callSites c a ++ Expr.callSitesArgs c (a + c.storing p.type e) es ps
  | _, _ => []

end

/-- The calls in values that are printed in order. -/
def Expr.callSitesOutputs (c : Context) (a : Nat) : List (Expr Mark) → List CallSite
  | [] => []
  | e :: es => e.callSites c a ++ callSitesOutputs c (a + e.width c + 1) es

/-- The calls in the elements of an array that are stored in order. -/
def Expr.callSitesElements (c : Context) (type : ValueType) (a : Nat) :
    List (Expr Mark) → List CallSite
  | [] => []
  | e :: es => e.callSites c a ++ callSitesElements c type (a + c.storing type e + 2) es

/-- The calls in an optional expression. -/
def Expr.callSitesOption (c : Context) (a : Nat) : Option (Expr Mark) → List CallSite
  | none => []
  | some e => e.callSites c a

mutual

/-- The calls in a statement whose code begins at `a`, in the order of their code. -/
def Stmt.callSites (c : Context) (a : Nat) : Stmt Mark → List CallSite
  | .node _ shape =>
    match shape with
    | .block body => callSitesAll c a body
    | .ret _ e | .var _ _ e => Expr.callSitesOption c a e
    | .expression e => e.callSites c a
    | .choice branches otherwise =>
      callSitesArms c a branches ++ callSitesElse c (a + widthArms c branches) otherwise
    | .whileLoop e body =>
      e.callSites c a ++ body.callSites c (a + Expr.widthGuard c (some e))
    | .forLoop init e u body =>
      callSitesElse c a init ++ Expr.callSitesOption c (a + widthOption c init) e ++
        body.callSites c (a + widthOption c init + Expr.widthGuard c e) ++
        Expr.callSitesOption c (a + widthOption c init + Expr.widthGuard c e + body.width c) u
    | .output _ values => Expr.callSitesOutputs c a values
    | .array _ type _ (some (.node _ (.braces es))) => Expr.callSitesElements c type a es
    | .array _ _ _ _ | .input _ | .stop _ | .skip _ => []

def Stmt.callSitesAll (c : Context) (a : Nat) : List (Stmt Mark) → List CallSite
  | [] => []
  | s :: ss => s.callSites c a ++ callSitesAll c (a + s.width c) ss

def Stmt.callSitesArms (c : Context) (a : Nat) : List (Expr Mark × Stmt Mark) → List CallSite
  | [] => []
  | (e, body) :: rest =>
    e.callSites c a ++ body.callSites c (a + Expr.widthGuard c (some e)) ++
      callSitesArms c (a + Expr.widthGuard c (some e) + body.width c + 2) rest

def Stmt.callSitesElse (c : Context) (a : Nat) : Option (Stmt Mark) → List CallSite
  | none => []
  | some s => s.callSites c a

end

/-! ## Calls among instructions -/

/-- The addresses of the calls among instructions. -/
def Code.callAddresses (is : List Instruction) : List Nat :=
  (is.filter fun i => i.op = .call).map Instruction.address

@[simp] theorem Code.callAddresses_append (is js : List Instruction) :
    callAddresses (is ++ js) = callAddresses is ++ callAddresses js := by
  rw [callAddresses, List.filter_append, List.map_append, callAddresses, callAddresses]

/-- An item that neither calls nor reserves cells. -/
def Item.isOrdinary : Item → Bool
  | instr op _ => op ≠ .call && op ≠ .alloc
  | place _ => true

namespace Item

variable {kind : Token.Kind}

theorem callAddresses_of_ordinary (env : Addresses) (a : Nat) {is : List Item}
    (h : is.all isOrdinary = true) : Code.callAddresses (instructions env a is) = [] := by
  rw [Code.callAddresses, List.map_eq_nil_iff, List.filter_eq_nil_iff]
  intro i hi
  obtain ⟨pre, op, operands, suf, rfl, rfl⟩ := exists_of_mem_instructions hi
  have := List.all_eq_true.mp h (.instr op operands) (by simp)
  simp_all [isOrdinary]

theorem all_ordinary_narrowing (target source : ValueType) :
    (narrowing target source).all isOrdinary = true := by
  rw [narrowing]
  split <;> rfl

theorem all_ordinary_widening (isFloat : Bool) (op : Op) (t : ValueType) :
    (widening isFloat op t).all isOrdinary = true := by
  rw [widening]
  split <;> rfl

theorem all_ordinary_counting {step : Op} (h : Op.ofCounting? kind = some step) (trailing : Bool)
    (slot : Int) : (counting step trailing slot).all isOrdinary = true := by
  unfold Op.ofCounting? at h
  split at h <;> cases h <;> cases trailing <;> rfl

theorem all_ordinary_binary {l r : ValueType} {op : Op} (h : Op.ofBinary? kind l r = some op) :
    [plain op].all isOrdinary = true := by
  unfold Op.ofBinary? Op.ofFloatOperator? Op.ofOperator? at h
  split at h <;> split at h <;> cases h <;> rfl

theorem all_ordinary_printing {op : Op} (h : Op.printing? T = some op) :
    [plain op].all isOrdinary = true := by
  cases T <;> cases h <;> rfl

theorem all_ordinary_reading (T : ValueType) (slot : Int) :
    [plain (Op.reading T), withSlot .poke slot].all isOrdinary = true := by
  cases T <;> rfl

end Item

/-! ## The calls in some code -/

namespace Generate.Context

/-- The instructions of the call are among those of the items, which begin at `a`. -/
def Calls (c : Context) (a : Nat) (is : List Item) (x : CallSite) : Prop :=
  ∃ pre args suf id f, is = pre ++ ([.withLabel .push id] ++ args ++
      [.withWord .call (Word.ofNat x.arguments)]) ++ suf ∧
    (c.notes.expr x.mark.id).binding = some (.function id) ∧ c.tree.functions[id]? = some f ∧
    x.push = a + Item.size pre ∧ x.call = x.push + 2 + Item.size args

/-- The calls in the items, which begin at `a`, are those of the nodes among the marks, and no cells
are reserved. -/
structure Sites (c : Context) (a : Nat) (is : List Item) (ms : List Mark) (xs : List CallSite) :
    Prop where
  marks : (xs.map CallSite.mark).Perm (ms.filter c.tree.isCall)
  found : ∀ x ∈ xs, c.Calls a is x
  ascending : (xs.map CallSite.push).Pairwise (· < ·)
  all : ∀ env, (Code.callAddresses (Item.instructions env a is)).Perm (xs.map CallSite.call)
  reserved : ∀ operands, .instr .alloc operands ∉ is

variable {c : Context} {a : Nat} {is js : List Item} {ms ms' : List Mark} {x : CallSite}
  {xs ys : List CallSite}

theorem Calls.range (h : c.Calls a is x) : a ≤ x.push ∧ x.push < a + Item.size is := by
  obtain ⟨pre, args, suf, id, f, rfl, -, -, hpush, -⟩ := h
  simp only [Item.size_append, Item.size_withLabel, Item.size_withWord, Item.size_nil]
  omega

theorem Calls.appendRight (h : c.Calls a is x) (js : List Item) : c.Calls a (is ++ js) x := by
  obtain ⟨pre, args, suf, id, f, rfl, hrest⟩ := h
  exact ⟨pre, args, suf ++ js, id, f, by rw [List.append_assoc], hrest⟩

theorem Calls.appendLeft (h : c.Calls (a + Item.size is) js x) : c.Calls a (is ++ js) x := by
  obtain ⟨pre, args, suf, id, f, rfl, hb, hf, hpush, hcall⟩ := h
  refine ⟨is ++ pre, args, suf, id, f, ?_, hb, hf, ?_, hcall⟩
  · rw [List.append_assoc is, ← List.append_assoc is, List.append_assoc, List.append_assoc]
  · rw [hpush, Item.size_append, Nat.add_assoc]

namespace Sites

theorem ordinary (h : is.all Item.isOrdinary = true) : c.Sites a is [] [] where
  marks := .nil
  found _ hx := absurd hx List.not_mem_nil
  ascending := .nil
  all env := by
    rw [Item.callAddresses_of_ordinary env a h]
    exact .nil
  reserved operands hmem := by
    have := List.all_eq_true.mp h _ hmem
    simp [Item.isOrdinary] at this

theorem append {b : Nat} (h : c.Sites a is ms xs) (h' : c.Sites b js ms' ys)
    (hb : b = a + Item.size is) : c.Sites a (is ++ js) (ms ++ ms') (xs ++ ys) := by
  subst hb
  refine ⟨?_, ?_, ?_, fun env => ?_, fun operands hmem => ?_⟩
  · rw [List.map_append, List.filter_append]
    exact h.marks.append h'.marks
  · rw [List.forall_mem_append]
    exact ⟨fun x hx => (h.found x hx).appendRight js, fun x hx => (h'.found x hx).appendLeft⟩
  · rw [List.map_append, List.pairwise_append]
    -- The calls of the second part push behind the end of the first.
    refine ⟨h.ascending, h'.ascending, fun k hk k' hk' => ?_⟩
    obtain ⟨x, hx, rfl⟩ := List.mem_map.mp hk
    obtain ⟨y, hy, rfl⟩ := List.mem_map.mp hk'
    exact Nat.lt_of_lt_of_le (h.found x hx).range.2 (h'.found y hy).range.1
  · rw [Item.instructions_append, Code.callAddresses_append, List.map_append]
    exact (h.all env).append (h'.all env)
  · rcases List.mem_append.mp hmem with hmem | hmem
    · exact h.reserved operands hmem
    · exact h'.reserved operands hmem

/-- Behind the code there may be more without calls. -/
theorem behind (h : c.Sites a is ms xs) (hjs : js.all Item.isOrdinary = true) :
    c.Sites a (is ++ js) ms xs := by
  have := h.append (ordinary hjs) rfl
  rwa [List.append_nil, List.append_nil] at this

/-- Before the code there may be more without calls. -/
theorem before {b : Nat} (h : c.Sites b js ms xs) (his : is.all Item.isOrdinary = true)
    (hb : b = a + Item.size is) : c.Sites a (is ++ js) ms xs :=
  (ordinary his).append h hb

theorem perm (h : c.Sites a is ms xs) (hms : ms.Perm ms') : c.Sites a is ms' xs :=
  { h with marks := h.marks.trans (hms.filter _) }

/-- A node that is no call adds none. -/
theorem node (h : c.Sites a is ms xs) (hm : c.tree.isCall m = false) :
    c.Sites a is (ms ++ [m]) xs := by
  refine { h with marks := ?_ }
  rw [List.filter_append, List.filter_singleton, hm]
  simpa using h.marks

/-- The code of a call has that of its arguments between its instructions. -/
theorem call {m : Mark} {args : List Item} {k : Nat} {id : FunctionId} {f : Function StmtId}
    (h : c.Sites (a + 2) args ms xs) (hm : c.tree.isCall m = true)
    (hb : (c.notes.expr m.id).binding = some (.function id)) (hf : c.tree.functions[id]? = some f) :
    c.Sites a ([.withLabel .push id] ++ args ++ [.withWord .call (Word.ofNat k)]) (ms ++ [m])
      (⟨m, k, a, a + 2 + Item.size args⟩ :: xs) := by
  have hargs : c.Sites a ([.withLabel .push id] ++ args) ms xs := h.before rfl rfl
  -- The call is before those in its arguments by where it pushes, behind them by where it calls.
  refine ⟨?_, ?_, ?_, fun env => ?_, fun operands hmem => ?_⟩
  · rw [List.filter_append, List.filter_singleton, hm, List.map_cons]
    exact (List.Perm.cons m h.marks).trans (List.perm_append_singleton _ _).symm
  · rw [List.forall_mem_cons]
    refine ⟨⟨[], args, [], id, f, by simp, hb, hf, rfl, rfl⟩, fun x hx => ?_⟩
    exact (hargs.found x hx).appendRight _
  · refine List.pairwise_cons.mpr ⟨fun k hk => ?_, h.ascending⟩
    obtain ⟨x, hx, rfl⟩ := List.mem_map.mp hk
    have := (h.found x hx).range.1
    simp only
    omega
  · rw [Item.instructions_append, Code.callAddresses_append, List.map_cons]
    have hown : Code.callAddresses (Item.instructions env
        (a + Item.size ([.withLabel .push id] ++ args)) [.withWord .call (Word.ofNat k)]) =
          [a + 2 + Item.size args] := by
      rw [Item.size_append, Item.size_withLabel, Item.size_nil, Nat.add_zero, ← Nat.add_assoc]
      rfl
    rw [hown]
    exact (List.perm_append_singleton _ _).trans (List.Perm.cons _ (hargs.all env))
  · rcases List.mem_append.mp hmem with hmem | hmem
    · exact hargs.reserved operands hmem
    · cases List.mem_singleton.mp hmem

end Sites

theorem storing_eq {P : StringPool} {e : Expr Mark} (ht : c.notes.typeOf e = some T)
    (he : e.Code c P is) (target : ValueType) :
    c.storing target e = Item.size (is ++ Item.narrowing target T) := by
  rw [storing, narrowing, typeOf_eq ht, Item.size_append, he.size_eq]

end Generate.Context

/-! ## Expressions -/

section

open Item Generate.Context.Sites

variable {c : Context} {P : StringPool} {is : List Item} {e : Option (Expr Mark)}
  {es : List (Expr Mark)}

mutual

/-- The calls in the code of an expression. -/
theorem Expr.Code.sites {e : Expr Mark} {is : List Item} :
    e.Code c P is → e.Held c.tree → ∀ a, c.Sites a is e.tags (e.callSites c a)
  | .literal _, h, a => by
    rw [Expr.tags, Expr.callSites]
    exact (ordinary rfl).node h.isCall_root
  | .grouping he, h, a => by
    rw [Expr.tags, Expr.callSites]
    exact (he.sites (h.child _ (List.mem_singleton_self _)) a).node h.isCall_root
  | .binary hl hr ho left right, h, a => by
    rw [Expr.tags, Expr.callSites]
    have hleft := left.sites (h.child _ List.mem_cons_self) a
    have hright := right.sites (h.child _ (List.mem_cons_of_mem _ (List.mem_singleton_self _)))
    refine (((((hleft.behind (all_ordinary_widening _ _ _)).append (hright _) ?_).behind
      (all_ordinary_widening _ _ _)).behind (all_ordinary_binary ho))).node h.isCall_root
    rw [size_append, left.size_eq, Generate.Context.wideningLeft, Generate.Context.typeOf_eq hl,
      Generate.Context.typeOf_eq hr, ho, Nat.add_assoc]
  | .plus hop he, h, a => by
    rw [Expr.tags, Expr.callSites, hop, if_neg (by decide)]
    exact (he.sites (h.child _ (List.mem_singleton_self _)) a).node h.isCall_root
  | .minus hop _ he, h, a => by
    rw [Expr.tags, Expr.callSites, if_pos hop]
    have hinner := he.sites (h.child _ (List.mem_singleton_self _)) (a + 2)
    refine ((hinner.before rfl rfl).behind ?_).node h.isCall_root
    split <;> rfl
  | .not hop he, h, a => by
    rw [Expr.tags, Expr.callSites, hop, if_neg (by decide)]
    exact ((he.sites (h.child _ (List.mem_singleton_self _)) a).behind rfl).node h.isCall_root
  | .count hop _ _, h, a => by
    rw [Expr.tags, Expr.callSites, Expr.tags, Expr.callSites]
    have hname : Expr.Held c.tree _ := h.child _ (List.mem_singleton_self _)
    exact ((ordinary (all_ordinary_counting hop _ _)).node hname.isCall_root).node h.isCall_root
  | .name _ _, h, a => by
    rw [Expr.tags, Expr.callSites]
    exact (ordinary rfl).node h.isCall_root
  | .assign _ _ _ value, h, a => by
    rw [Expr.tags, Expr.callSites]
    have hvalue := value.sites (h.child _ (List.mem_singleton_self _)) a
    exact (((hvalue.behind (all_ordinary_narrowing _ _)).behind rfl).behind rfl).node h.isCall_root
  | .assignElement hv _ ht value index, h, a => by
    rw [Expr.tags, Expr.callSites]
    have hindex := index.sites (h.child _ List.mem_cons_self)
    have hvalue := value.sites (h.child _ (List.mem_cons_of_mem _ (List.mem_singleton_self _))) a
    -- The code of the value is before that of the index, its marks are behind.
    refine Generate.Context.Sites.node (perm (((hvalue.behind (all_ordinary_narrowing _ _)).behind
      rfl).append (hindex _) ?_ |>.behind rfl) List.perm_append_comm) h.isCall_root
    rw [size_append, Generate.Context.storing_eq ht value, Generate.Context.targetOf_eq hv,
      size_plain, size_nil, Nat.add_assoc]
  | @Expr.Code.call _ _ m n args id f is hb hf hargs, h, a => by
    have hparams : c.paramsAt m = f.params := by
      rw [Generate.Context.paramsAt, Generate.Context.callee?, hb]
      simp only [hf, Option.map_some, Option.getD_some]
    rw [Expr.tags, Expr.callSites, hparams, ← hargs.size_eq]
    refine behind (call (hargs.sites (fun e he => h.child e he) (a + 2)) h.isCall_root hb hf) ?_
    split <;> rfl
  | .element _ _ index, h, a => by
    rw [Expr.tags, Expr.callSites]
    exact ((index.sites (h.child _ (List.mem_singleton_self _)) a).behind rfl).node h.isCall_root
  | .random he, h, a => by
    rw [Expr.tags, Expr.callSites]
    exact ((he.sites (h.child _ (List.mem_singleton_self _)) a).behind rfl).node h.isCall_root

theorem Expr.ArgsCode.sites {es : List (Expr Mark)} {ps : List Param} {is : List Item} :
    Expr.ArgsCode c P es ps is → (∀ e ∈ es, e.Held c.tree) → ∀ a,
      c.Sites a is (Expr.tagsList es) (Expr.callSitesArgs c a es ps)
  | .nil, _, a => by
    rw [Expr.tagsList, Expr.callSitesArgs]
    · exact ordinary rfl
    · simp
  | .cons ht he hes, h, a => by
    rw [List.forall_mem_cons] at h
    rw [Expr.tagsList, Expr.callSitesArgs]
    refine ((he.sites h.1 a).behind (all_ordinary_narrowing _ _)).append (hes.sites h.2 _) ?_
    rw [Generate.Context.storing_eq ht he]

end

theorem Expr.OutputsCode.sites (hc : Expr.OutputsCode c P es is) (h : ∀ e ∈ es, e.Held c.tree)
    (a : Nat) : c.Sites a is (Stmt.exprTagsOf es) (Expr.callSitesOutputs c a es) := by
  induction hc generalizing a with
  | nil => exact ordinary rfl
  | cons _ hop he _ ih =>
    rw [List.forall_mem_cons] at h
    rw [Expr.callSitesOutputs, Stmt.exprTagsOf, List.flatMap_cons]
    refine ((he.sites h.1 a).behind (all_ordinary_printing hop)).append (ih h.2 _) ?_
    rw [size_append, size_plain, size_nil, he.size_eq, Nat.add_assoc]

theorem Expr.ElementsCode.sites {type : ValueType} {slot : Int}
    (hc : Expr.ElementsCode c P type slot es is) (h : ∀ e ∈ es, e.Held c.tree) (a : Nat) :
    c.Sites a is (Expr.tagsList es) (Expr.callSitesElements c type a es) := by
  induction hc generalizing a with
  | nil => exact ordinary rfl
  | cons ht he _ ih =>
    rw [List.forall_mem_cons] at h
    rw [Expr.callSitesElements, Expr.tagsList]
    refine (((he.sites h.1 a).behind (all_ordinary_narrowing _ _)).behind rfl).append (ih h.2 _) ?_
    rw [size_append, size_withSlot, size_nil, Generate.Context.storing_eq ht he, Nat.add_assoc]

theorem Expr.OptionalCode.sites {use : List Item} (hc : Expr.OptionalCode c P use e is)
    (huse : use.all Item.isOrdinary = true) (h : ∀ x ∈ e.toList, x.Held c.tree) (a : Nat) :
    c.Sites a is (Stmt.exprTagsOf e.toList) (Expr.callSitesOption c a e) := by
  cases hc with
  | none => exact ordinary rfl
  | some he =>
    rw [Expr.callSitesOption, Stmt.exprTagsOf, Option.toList_some, List.flatMap_singleton]
    exact (he.sites (h _ (List.mem_singleton_self _)) a).behind huse

/-! ## Statements -/

theorem Stmt.Held.expr {t : Tree} {shape : Stmt.Shape (Stmt Mark) (Expr Mark)}
    (h : (Stmt.node m shape).Held t) : ∀ e ∈ shape.exprs, e.Held t :=
  fun e he => (h.root.2 e he).1

mutual

/-- The calls in the code of a statement. -/
theorem Stmt.Code.sites {loop : Option LoopLabels} {s : Stmt Mark} {is : List Item} :
    s.Code c P loop is → s.Held c.tree → ∀ a, c.Sites a is s.exprTags (s.callSites c a)
  | .block hbody, h, a => by
    rw [Stmt.exprTags, Stmt.callSites]
    exact hbody.sites (fun s hs => h.child s hs) a
  | .ret _ he, h, a => by
    rw [Stmt.exprTags, Stmt.callSites, Expr.callSitesOption, Stmt.exprTagsOf, Option.toList_some,
      List.flatMap_singleton]
    have hvalue := he.sites (h.expr _ (List.mem_singleton_self _)) a
    exact (hvalue.behind (all_ordinary_narrowing _ _)).behind rfl
  | .retVoid, _, a => by
    rw [Stmt.exprTags, Stmt.callSites]
    exact ordinary rfl
  | .expression he, h, a => by
    rw [Stmt.exprTags, Stmt.callSites]
    have := he.sites rfl (fun x hx => h.expr x hx) a
    rwa [Expr.callSitesOption, Stmt.exprTagsOf, Option.toList_some, List.flatMap_singleton] at this
  | .choice hbranches hotherwise, h, a => by
    rw [Stmt.exprTags, Stmt.callSites]
    have harms := hbranches.sites (fun b hb => h.expr _ (List.mem_map_of_mem hb))
      (fun b hb => h.child _ (List.mem_append_left _ (List.mem_map_of_mem hb))) a
    have helse := hotherwise.sites
      (fun x hx => h.child _ (List.mem_append_right _ (Option.mem_toList.mpr hx)))
    refine (harms.append (helse _) ?_).behind rfl
    rw [hbranches.size_eq]
  | .whileLoop hguard hbody, h, a => by
    rw [Stmt.exprTags, Stmt.callSites]
    have htest := hguard.sites rfl (fun x hx => h.expr x hx) a
    rw [Expr.callSitesOption, Stmt.exprTagsOf, Option.toList_some, List.flatMap_singleton] at htest
    have hinner := hbody.sites (h.child _ (by simp))
    refine (((htest.before (by rfl) (by rfl)).append (hinner _) ?_).behind rfl).behind rfl
    rw [size_append, size_place, size_nil, Nat.zero_add, hguard.size_eq]
  | .forLoop hinit hguard hbody hupdate, h, a => by
    rw [Stmt.exprTags, Stmt.callSites]
    have hfirst := hinit.sites
      (fun x hx => h.child _ (List.mem_append_left _ (Option.mem_toList.mpr hx))) a
    have htest := hguard.sites rfl fun x hx => h.expr x (List.mem_append_left _ hx)
    have hinner := hbody.sites (h.child _ (by simp))
    have hstep := hupdate.sites rfl fun x hx => h.expr x (List.mem_append_right _ hx)
    refine perm (((((((hfirst.behind (by rfl)).append (htest _) ?_).append (hinner _) ?_).behind
      (by rfl)).append (hstep _) ?_).behind rfl).behind rfl) ?_
    · rw [size_append, size_place, size_nil, Nat.add_zero, hinit.size_eq]
    · simp only [size_append, size_place, size_nil, Nat.add_zero, hinit.size_eq, hguard.size_eq,
        Nat.add_assoc]
    · simp only [size_append, size_place, size_nil, Nat.add_zero, hinit.size_eq, hguard.size_eq,
        hbody.size_eq, Nat.add_assoc]
    · -- The code of the body is before that of the update, its marks are behind.
      simp only [List.append_assoc]
      exact (List.perm_append_comm.append_left _).append_left _
  | .output hvalues, h, a => by
    rw [Stmt.exprTags, Stmt.callSites]
    exact hvalues.sites (fun x hx => h.expr x hx) a
  | .input _ _, _, a => by
    rw [Stmt.exprTags, Stmt.callSites]
    exact ordinary (all_ordinary_reading _ _)
  | .var _ _ he, h, a => by
    rw [Stmt.exprTags, Stmt.callSites, Expr.callSitesOption, Stmt.exprTagsOf, Option.toList_some,
      List.flatMap_singleton]
    have hvalue := he.sites (h.expr _ (List.mem_singleton_self _)) a
    exact (hvalue.behind (all_ordinary_narrowing _ _)).behind rfl
  | .varBlank, _, a => by
    rw [Stmt.exprTags, Stmt.callSites]
    exact ordinary rfl
  | .array _ hes, h, a => by
    have hbraces : Expr.Held c.tree _ := h.expr _ (List.mem_singleton_self _)
    rw [Stmt.exprTags, Stmt.callSites, Stmt.exprTagsOf, Option.toList_some, List.flatMap_singleton,
      Expr.tags]
    exact (hes.sites (fun e he => hbraces.child e he) a).node hbraces.isCall_root
  | .arrayBlank, _, a => by
    rw [Stmt.exprTags, Stmt.callSites]
    · exact ordinary rfl
    · simp
  | .stop, _, a | .skip, _, a => by
    rw [Stmt.exprTags, Stmt.callSites]
    exact ordinary rfl

theorem Stmt.ListCode.sites {loop : Option LoopLabels} {ss : List (Stmt Mark)} {is : List Item} :
    Stmt.ListCode c P loop ss is → (∀ s ∈ ss, s.Held c.tree) → ∀ a,
      c.Sites a is (Stmt.exprTagsList ss) (Stmt.callSitesAll c a ss)
  | .nil, _, a => by
    rw [Stmt.exprTagsList, Stmt.callSitesAll]
    exact ordinary rfl
  | .cons hs hss, h, a => by
    rw [List.forall_mem_cons] at h
    rw [Stmt.exprTagsList, Stmt.callSitesAll]
    refine (hs.sites h.1 a).append (hss.sites h.2 _) ?_
    rw [hs.size_eq]

theorem Stmt.ArmsCode.sites {loop : Option LoopLabels} {stop : LabelId}
    {bs : List (Expr Mark × Stmt Mark)} {is : List Item} :
    Stmt.ArmsCode c P loop stop bs is → (∀ b ∈ bs, b.1.Held c.tree) → (∀ b ∈ bs, b.2.Held c.tree) →
      ∀ a, c.Sites a is (Stmt.exprTagsBranches bs) (Stmt.callSitesArms c a bs)
  | .nil, _, _, a => by
    rw [Stmt.exprTagsBranches, Stmt.callSitesArms]
    exact ordinary rfl
  | .cons hguard hbody hrest, he, hs, a => by
    rw [List.forall_mem_cons] at he hs
    rw [Stmt.exprTagsBranches, Stmt.callSitesArms]
    have htest := hguard.sites rfl (List.forall_mem_singleton.mpr he.1) a
    rw [Expr.callSitesOption, Stmt.exprTagsOf, Option.toList_some, List.flatMap_singleton] at htest
    have harm := htest.append (hbody.sites hs.1 _) rfl
    rw [hguard.size_eq] at harm
    refine ((harm.behind (by rfl)).behind (by rfl)).append (hrest.sites he.2 hs.2 _) ?_
    simp only [size_append, size_place, size_withLabel, size_nil, Nat.add_zero, hguard.size_eq,
      hbody.size_eq, Nat.add_assoc]

theorem Stmt.OptionCode.sites {loop : Option LoopLabels} {s : Option (Stmt Mark)}
    {is : List Item} : Stmt.OptionCode c P loop s is → (∀ x ∈ s, x.Held c.tree) → ∀ a,
      c.Sites a is (Stmt.exprTagsOption s) (Stmt.callSitesElse c a s)
  | .none, _, a => by
    rw [Stmt.exprTagsOption, Stmt.callSitesElse]
    exact ordinary rfl
  | .some hs, h, a => by
    rw [Stmt.exprTagsOption, Stmt.callSitesElse]
    exact hs.sites (h _ rfl) a

end

end

end StackLang
