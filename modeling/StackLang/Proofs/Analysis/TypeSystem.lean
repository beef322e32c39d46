import StackLang.Proofs.Analysis.TypeRules
import StackLang.Proofs.Tree.Formed

/-!
# The type system

Which programs are well-typed, given by rules.  The rules look at the declarations that names stand
for, and not at types that may have been noted.

* `Expr.OfType` — an expression has a type; it has one at most.
* `Stmt.WellTyped`, `Program.WellTyped` — the expressions of a program are used as their types
  allow.
-/

namespace StackLang

variable {e : Expr Mark}

/-! ## Operators -/

namespace ValueType

variable {op : Token.Operator} {type : ValueType}

/-- A value of type `source` may be stored as `target`. -/
inductive Assignable : (target source : ValueType) → Prop where
  | same (type : ValueType) : Assignable type type
  | narrowing : Assignable .int .float

/-- A binary operator on operands of types `l` and `r` has a result. -/
inductive BinaryRule : Token.Operator → (l r result : ValueType) → Prop where
  | integers {op : Token.Operator} (hop : op ∈ [.plus, .minus, .star, .slash]) :
    BinaryRule op .int .int .int
  | floats {op : Token.Operator} {l r : ValueType} (hop : op ∈ [.plus, .minus, .star, .slash])
    (hl : l.isNumeric = true) (hr : r.isNumeric = true) (hfloat : l = .float ∨ r = .float) :
    BinaryRule op l r .float
  | remainder : BinaryRule .percent .int .int .int
  | ordering {op : Token.Operator} {l r : ValueType} (hop : op ∈ [.lt, .le, .gt, .ge])
    (hl : l.isNumeric = true) (hr : r.isNumeric = true) : BinaryRule op l r .bool
  | equality {op : Token.Operator} {l r : ValueType} (hop : op ∈ [.eq, .ne]) (hl : l ≠ .void)
    (hr : r ≠ .void) : BinaryRule op l r .bool
  | logic {op : Token.Operator} {l r : ValueType} (hop : op ∈ [.and, .or]) :
    BinaryRule op l r .bool

/-- A unary operator takes an operand of the given type, which is that of the result as well. -/
inductive UnaryRule : Token.Operator → ValueType → Prop where
  | sign {op : Token.Operator} {type : ValueType} (hop : op ∈ [.plus, .minus])
    (hnum : type.isNumeric = true) : UnaryRule op type
  | counting {op : Token.Operator} (hop : op ∈ [.increment, .decrement]) : UnaryRule op .int
  | negation : UnaryRule .not .bool

theorem assignable_of_store? {target source : ValueType}
    (h : (target.store? source).isSome = true) : target.Assignable source := by
  revert h
  cases target <;> cases source <;> first | exact fun _ => .same _ | exact fun _ => .narrowing |
    exact fun h => absurd h (by decide)

theorem Assignable.store? {target source : ValueType} (h : target.Assignable source)
    (hvoid : target ≠ .void) : (target.store? source).isSome = true := by
  cases h with
  | same =>
    rw [ValueType.store?, if_pos ⟨rfl, hvoid⟩]
    rfl
  | narrowing => rfl

theorem BinaryRule.binary? {l r result : ValueType} (h : BinaryRule op l r result) :
    ValueType.binary? (.operator op) l r = some result := by
  cases h with
  | integers hop =>
    simp only [List.mem_cons, List.not_mem_nil, or_false] at hop
    rcases hop with rfl | rfl | rfl | rfl <;> rfl
  | floats hop hl hr hfloat =>
    have hint : ¬(l = .int ∧ r = .int) := by
      rintro ⟨rfl, rfl⟩
      simp at hfloat
    simp only [List.mem_cons, List.not_mem_nil, or_false] at hop
    rcases hop with rfl | rfl | rfl | rfl <;> simp [ValueType.binary?, hint, hl, hr]
  | remainder => rfl
  | ordering hop hl hr =>
    simp only [List.mem_cons, List.not_mem_nil, or_false] at hop
    rcases hop with rfl | rfl | rfl | rfl <;> simp [ValueType.binary?, hl, hr]
  | equality hop hl hr =>
    simp only [List.mem_cons, List.not_mem_nil, or_false] at hop
    rcases hop with rfl | rfl <;> simp [ValueType.binary?, hl, hr]
  | logic hop =>
    simp only [List.mem_cons, List.not_mem_nil, or_false] at hop
    rcases hop with rfl | rfl <;> rfl

theorem eq_float_of_isNumeric {l r : ValueType} (hl : l.isNumeric = true) (hr : r.isNumeric = true)
    (hint : ¬(l = .int ∧ r = .int)) : l = .float ∨ r = .float := by
  cases l <;> cases r <;> simp_all [isNumeric]

theorem binaryRule_of_binary? {kind : Token.Kind} {l r result : ValueType}
    (h : binary? kind l r = some result) :
    ∃ op, kind = .operator op ∧ BinaryRule op l r result := by
  have arithmetic : ∀ op ∈ [.plus, .minus, .star, .slash],
      (if l = int ∧ r = int then some int
        else if l.isNumeric && r.isNumeric then some float else none) = some result →
      BinaryRule op l r result := by
    intro op hop hif
    split at hif
    · rename_i hint
      obtain ⟨rfl, rfl⟩ := hint
      cases hif
      exact .integers hop
    · rename_i hint
      split at hif
      · rename_i hnum
        rw [Bool.and_eq_true] at hnum
        cases hif
        exact .floats hop hnum.1 hnum.2 (eq_float_of_isNumeric hnum.1 hnum.2 hint)
      · cases hif
  have ordering : ∀ op ∈ [.lt, .le, .gt, .ge],
      (if l.isNumeric && r.isNumeric then some bool else none) = some result →
      BinaryRule op l r result := by
    intro op hop hif
    split at hif
    · rename_i hnum
      rw [Bool.and_eq_true] at hnum
      cases hif
      exact .ordering hop hnum.1 hnum.2
    · cases hif
  have equality : ∀ op ∈ [.eq, .ne],
      (if l ≠ void ∧ r ≠ void then some bool else none) = some result →
      BinaryRule op l r result := by
    intro op hop hif
    split at hif
    · rename_i hvoid
      cases hif
      exact .equality hop hvoid.1 hvoid.2
    · cases hif
  unfold binary? at h
  split at h
  · exact ⟨_, rfl, arithmetic _ (by simp) h⟩
  · exact ⟨_, rfl, arithmetic _ (by simp) h⟩
  · exact ⟨_, rfl, arithmetic _ (by simp) h⟩
  · exact ⟨_, rfl, arithmetic _ (by simp) h⟩
  · split at h
    · rename_i hint
      obtain ⟨rfl, rfl⟩ := hint
      cases h
      exact ⟨_, rfl, .remainder⟩
    · cases h
  · exact ⟨_, rfl, ordering _ (by simp) h⟩
  · exact ⟨_, rfl, ordering _ (by simp) h⟩
  · exact ⟨_, rfl, ordering _ (by simp) h⟩
  · exact ⟨_, rfl, ordering _ (by simp) h⟩
  · exact ⟨_, rfl, equality _ (by simp) h⟩
  · exact ⟨_, rfl, equality _ (by simp) h⟩
  · cases h
    exact ⟨_, rfl, .logic (by simp)⟩
  · cases h
    exact ⟨_, rfl, .logic (by simp)⟩
  · cases h

theorem UnaryRule.takesUnary (h : UnaryRule op type) : type.takesUnary (.operator op) = true := by
  cases h with
  | sign hop hnum =>
    simp only [List.mem_cons, List.not_mem_nil, or_false] at hop
    rcases hop with rfl | rfl <;> exact hnum
  | counting hop =>
    simp only [List.mem_cons, List.not_mem_nil, or_false] at hop
    rcases hop with rfl | rfl <;> rfl
  | negation => rfl

/-- The operator of a parsed expression is one that the rules know. -/
theorem unaryRule_of_takesUnary {op : Token} {trailing : Bool}
    (h : type.takesUnary op.kind = true) (hfits : (Expr.Shape.unary op e trailing).OperandFits) :
    ∃ o, op.kind = .operator o ∧ UnaryRule o type := by
  rcases hfits with (hk | hk | hk) | ⟨hk | hk, -⟩
  · rw [hk] at h
    obtain rfl : type = .bool := by simpa [takesUnary] using h
    exact ⟨_, hk, .negation⟩
  · rw [hk] at h
    exact ⟨_, hk, .sign (by simp) h⟩
  · rw [hk] at h
    exact ⟨_, hk, .sign (by simp) h⟩
  · rw [hk] at h
    obtain rfl : type = .int := by simpa [takesUnary] using h
    exact ⟨_, hk, .counting (by simp)⟩
  · rw [hk] at h
    obtain rfl : type = .int := by simpa [takesUnary] using h
    exact ⟨_, hk, .counting (by simp)⟩

end ValueType

/-! ## Expressions -/

/-- The expression has the type, where names stand for the declarations that `n` says. -/
inductive Expr.OfType (t : Tree) (n : Notes) : Expr Mark → ValueType → Prop where
  | binary {m : Mark} {l r : Expr Mark} {op : Token} {o : Token.Operator} {L R T : ValueType}
    (hop : op.kind = .operator o) (hl : OfType t n l L) (hr : OfType t n r R)
    (hrule : ValueType.BinaryRule o L R T) : OfType t n (.node m (.binary l op r)) T
  | grouping {m : Mark} {e : Expr Mark} {T : ValueType} (he : OfType t n e T) :
    OfType t n (.node m (.grouping e)) T
  | literal {m : Mark} {v : Literal} : OfType t n (.node m (.literal v)) v.type
  | unary {m : Mark} {e : Expr Mark} {op : Token} {o : Token.Operator} {trailing : Bool}
    {T : ValueType} (hop : op.kind = .operator o) (he : OfType t n e T)
    (hrule : ValueType.UnaryRule o T) : OfType t n (.node m (.unary op e trailing)) T
  | name {m : Mark} {c : Token} {info : VarInfo} (hv : n.variableAt t m = some info)
    (hlength : info.length = none) : OfType t n (.node m (.name c)) info.type
  | assign {m : Mark} {c : Token} {v : Expr Mark} {info : VarInfo} {S : ValueType}
    (hv : n.variableAt t m = some info) (hlength : info.length = none) (he : OfType t n v S)
    (hstore : info.type.Assignable S) : OfType t n (.node m (.assign c none v)) info.type
  | assignElement {m : Mark} {c : Token} {i v : Expr Mark} {info : VarInfo} {S : ValueType}
    (hv : n.variableAt t m = some info) (hlength : info.length.isSome = true)
    (hi : OfType t n i .int) (he : OfType t n v S) (hstore : info.type.Assignable S) :
    OfType t n (.node m (.assign c (some i) v)) info.type
  | call {m : Mark} {c : Token} {args : List (Expr Mark)} {id : FunctionId} {f : Function StmtId}
    {types : List ValueType} (hb : (n.expr m.id).binding = some (.function id))
    (hf : t.functions[id]? = some f) (hlength : args.length = types.length)
    (hargs : ∀ a ∈ args.zip types, OfType t n a.1 a.2)
    (hstore : List.Forall₂ (fun p S => p.type.Assignable S) f.params types) :
    OfType t n (.node m (.call c args)) f.returnType
  | element {m : Mark} {c : Token} {i : Expr Mark} {info : VarInfo}
    (hv : n.variableAt t m = some info) (hlength : info.length.isSome = true)
    (hi : OfType t n i .int) : OfType t n (.node m (.element c i)) info.type
  | random {m : Mark} {k : Token} {e : Expr Mark} (he : OfType t n e .int) :
    OfType t n (.node m (.random k e)) .int

/-- An expression has one type at most. -/
theorem Expr.OfType.unique {t : Tree} {n : Notes} {T T' : ValueType} (h : e.OfType t n T)
    (h' : e.OfType t n T') : T = T' := by
  induction h generalizing T' with
  | binary hop _ _ hrule ihl ihr =>
    cases h' with
    | binary hop' hl' hr' hrule' =>
      cases hop.symm.trans hop'
      cases ihl hl'
      cases ihr hr'
      exact Option.some.inj (hrule.binary?.symm.trans hrule'.binary?)
  | grouping _ ih =>
    cases h' with
    | grouping he' => exact ih he'
  | literal =>
    cases h'
    rfl
  | unary _ _ _ ih =>
    cases h' with
    | unary _ he' _ => exact ih he'
  | name hv _ =>
    cases h' with
    | name hv' _ =>
      cases hv.symm.trans hv'
      rfl
  | assign hv _ _ _ _ =>
    cases h' with
    | assign hv' _ _ _ =>
      cases hv.symm.trans hv'
      rfl
  | assignElement hv _ _ _ _ _ _ =>
    cases h' with
    | assignElement hv' _ _ _ _ =>
      cases hv.symm.trans hv'
      rfl
  | call hb hf _ _ _ _ =>
    cases h' with
    | call hb' hf' _ _ _ =>
      cases hb.symm.trans hb'
      cases hf.symm.trans hf'
      rfl
  | element hv _ _ _ =>
    cases h' with
    | element hv' _ _ =>
      cases hv.symm.trans hv'
      rfl
  | random _ _ =>
    cases h'
    rfl

/-! ## Statements -/

/-- The statement, in a function that returns `ret`, uses its expressions as their types allow;
`inLoop` says whether there is a loop around it. -/
inductive Stmt.WellTyped (t : Tree) (n : Notes) (ret : ValueType) : Bool → Stmt Mark → Prop where
  | block {inLoop : Bool} {m : Mark} {body : List (Stmt Mark)}
    (h : ∀ s ∈ body, WellTyped t n ret inLoop s) : WellTyped t n ret inLoop (.node m (.block body))
  | ret {inLoop : Bool} {m : Mark} {k : Token} {e : Expr Mark} {T : ValueType}
    (hret : ret ≠ .void) (he : e.OfType t n T) (hstore : ret.Assignable T) :
    WellTyped t n ret inLoop (.node m (.ret k (some e)))
  | retVoid {inLoop : Bool} {m : Mark} {k : Token} (hret : ret = .void) :
    WellTyped t n ret inLoop (.node m (.ret k none))
  | expression {inLoop : Bool} {m : Mark} {e : Expr Mark} {T : ValueType} (he : e.OfType t n T) :
    WellTyped t n ret inLoop (.node m (.expression e))
  | choice {inLoop : Bool} {m : Mark} {branches : List (Expr Mark × Stmt Mark)}
    {otherwise : Option (Stmt Mark)} (hconditions : ∀ b ∈ branches, b.1.OfType t n .bool)
    (hbranches : ∀ b ∈ branches, WellTyped t n ret inLoop b.2)
    (hotherwise : ∀ s ∈ otherwise, WellTyped t n ret inLoop s) :
    WellTyped t n ret inLoop (.node m (.choice branches otherwise))
  | whileLoop {inLoop : Bool} {m : Mark} {c : Expr Mark} {body : Stmt Mark}
    (hcondition : c.OfType t n .bool) (hbody : WellTyped t n ret true body) :
    WellTyped t n ret inLoop (.node m (.whileLoop c body))
  | forLoop {inLoop : Bool} {m : Mark} {init : Option (Stmt Mark)} {c u : Option (Expr Mark)}
    {body : Stmt Mark} (hinit : ∀ s ∈ init, WellTyped t n ret true s)
    (hcondition : ∀ e ∈ c, e.OfType t n .bool) (hupdate : ∀ e ∈ u, ∃ T, e.OfType t n T)
    (hbody : WellTyped t n ret true body) :
    WellTyped t n ret inLoop (.node m (.forLoop init c u body))
  | output {inLoop : Bool} {m : Mark} {k : Token} {values : List (Expr Mark)}
    (h : ∀ e ∈ values, ∃ T, T ≠ .void ∧ e.OfType t n T) :
    WellTyped t n ret inLoop (.node m (.output k values))
  | input {inLoop : Bool} {m : Mark} {c : Token} {info : VarInfo}
    (hv : (n.stmt m.id).binding.bind (t.varInfo? n) = some info) (hlength : info.length = none) :
    WellTyped t n ret inLoop (.node m (.input c))
  | var {inLoop : Bool} {m : Mark} {c : Token} {type : ValueType} {init : Option (Expr Mark)}
    (h : ∀ e ∈ init, ∃ S, e.OfType t n S ∧ type.Assignable S) :
    WellTyped t n ret inLoop (.node m (.var c type init))
  | array {inLoop : Bool} {m : Mark} {c : Token} {type : ValueType} {length : Nat} :
    WellTyped t n ret inLoop (.node m (.array c type length none))
  | arrayInit {inLoop : Bool} {m m' : Mark} {c : Token} {type : ValueType} {length : Nat}
    {es : List (Expr Mark)} (hlength : es.length ≤ length)
    (h : ∀ e ∈ es, ∃ S, e.OfType t n S ∧ type.Assignable S) :
    WellTyped t n ret inLoop (.node m (.array c type length (some (.node m' (.braces es)))))
  | stop {m : Mark} {k : Token} : WellTyped t n ret true (.node m (.stop k))
  | skip {m : Mark} {k : Token} : WellTyped t n ret true (.node m (.skip k))

/-- There is a return in the statement. -/
inductive Stmt.HasReturn : Stmt Mark → Prop where
  | here {m : Mark} {k : Token} {value : Option (Expr Mark)} : HasReturn (.node m (.ret k value))
  | inside {m : Mark} {shape : Stmt.Shape (Stmt Mark) (Expr Mark)} {s : Stmt Mark}
    (hs : s ∈ shape.children) (h : HasReturn s) : HasReturn (.node m shape)

theorem Stmt.hasReturn_node {m : Mark} {shape : Stmt.Shape (Stmt Mark) (Expr Mark)} :
    (Stmt.node m shape).HasReturn ↔
      (∃ k value, shape = .ret k value) ∨ ∃ s ∈ shape.children, s.HasReturn := by
  constructor
  · intro h
    cases h with
    | here => exact .inl ⟨_, _, rfl⟩
    | inside hs h => exact .inr ⟨_, hs, h⟩
  · rintro (⟨k, value, rfl⟩ | ⟨s, hs, h⟩)
    · exact .here
    · exact .inside hs h

/-- The body is well-typed, and there is a return in it if the function has a result. -/
structure Function.WellTyped (t : Tree) (n : Notes) (f : Function (Stmt Mark)) : Prop where
  body : f.body.WellTyped t n f.returnType false
  returns : f.returnType ≠ .void → f.body.HasReturn

/-- All functions are well-typed; `main` takes nothing and returns an integer or nothing. -/
structure Program.WellTyped (p : Program) : Prop where
  functions : ∀ v ∈ p.tree.views, v.2.WellTyped p.tree p.notes
  main : ∀ f, (p.tree.findFunction? "main").bind (p.tree.functions[·]?) = some f →
    f.params = [] ∧ (f.returnType = .int ∨ f.returnType = .void)

end StackLang
