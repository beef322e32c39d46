import StackLang.Naming
import StackLang.Proofs.Analysis.Bound

/-!
# Lexical scoping

Which declaration a name stands for, told from the place where it stands.  Every use sees the scopes
around it, from the innermost outwards, and in each of them the declarations that come before it.

* `Surroundings.find?` — the innermost scope that holds a declaration of the name, and in it the
  first one.
* `Tree.visits` — all uses and declarations of a program in the order of the walk, each with what it
  sees.
* `Visit.Bound`, `Visit.fault?` — what follows for the notes and the errors.
* `Stmt.Visited` — every use and every declaration in a statement is visited.
-/

namespace StackLang

variable {e : Expr Mark} {shape : Stmt.Shape (Stmt Mark) (Expr Mark)} {scopes : Surroundings}
  {vs : List Visit} {s : Stmt Mark}

/-! ## What can be seen -/

/-- A name and what it stands for. -/
structure Declaration where
  name : Token
  binding : Binding

/-- The declarations that come before a place, in the scopes around it, from the innermost
outwards. -/
abbrev Surroundings := List (List Declaration)

/-- The first declaration of a name in one scope. -/
def Declaration.first? (scope : List Declaration) (name : String) : Option Binding :=
  (scope.find? fun d => d.name.lexeme = name).map Declaration.binding

/-- The first declaration of a name in the innermost scope that holds one. -/
def Surroundings.find? (scopes : Surroundings) (name : String) : Option Binding :=
  scopes.findSome? (Declaration.first? · name)

theorem Declaration.first?_concat (scope : List Declaration) (d : Declaration) (name : String) :
    Declaration.first? (scope ++ [d]) name =
      (Declaration.first? scope name).or
        (if d.name.lexeme = name then some d.binding else none) := by
  rw [first?, first?, List.find?_append, Option.map_or, List.find?_singleton]
  split <;> simp_all

@[simp] theorem Surroundings.find?_nil (name : String) : Surroundings.find? [] name = none := rfl

theorem Surroundings.find?_cons (here : List Declaration) (outer : Surroundings) (name : String) :
    Surroundings.find? (here :: outer) name =
      (Declaration.first? here name).or (outer.find? name) := by
  rw [find?, List.findSome?_cons]
  cases Declaration.first? here name <;> rfl

/-- Something that name resolution has to look at. -/
inductive Visit where
  /-- A variable is used in an expression. -/
  | use (scopes : Surroundings) (name : Token) (m : Mark)
  /-- A variable is read from the input. -/
  | input (scopes : Surroundings) (name : Token) (m : Mark)
  | call (name : Token) (m : Mark)
  /-- A name is declared in a scope that holds the earlier declarations. -/
  | declaration (earlier : List Declaration) (d : Declaration)

namespace Visit

/-- The node of a function body at which something is visited. -/
inductive Site where
  | expr (id : ExprId)
  | stmt (id : StmtId)
  deriving DecidableEq

/-- Where a use or a local declaration is. -/
def site? : Visit → Option Site
  | use _ _ m | call _ m => some (.expr m.id)
  | input _ _ m => some (.stmt m.id)
  | declaration _ ⟨_, .localVar s⟩ => some (.stmt s)
  | declaration _ _ => none

/-- A use is bound to the declaration that it stands for, or not at all if there is none. -/
def Bound (t : Tree) (n : Notes) : Visit → Prop
  | use scopes name m => (n.expr m.id).binding = scopes.find? name.lexeme
  | input scopes name m => (n.stmt m.id).binding = scopes.find? name.lexeme
  | call name m => (n.expr m.id).binding = (t.findFunction? name.lexeme).map .function
  | declaration _ _ => True

/-- A use of a name that is not declared, or a declaration of one that the scope has already. -/
def fault? (t : Tree) : Visit → Option NameError
  | use scopes name _ | input scopes name _ =>
    if (scopes.find? name.lexeme).isSome then none
    else some (.notFound .variableName name.lexeme name.line)
  | call name _ =>
    if (t.findFunction? name.lexeme).isSome then none
    else some (.notFound .functionName name.lexeme name.line)
  | declaration earlier d =>
    if (Declaration.first? earlier d.name.lexeme).isSome then
      some (.duplicate d.binding.kind d.name.lexeme d.name.line)
    else none

end Visit

/-! ## Visits -/

/-- Declarations in one scope, behind the earlier ones. -/
def Declaration.visits : List Declaration → List Declaration → List Visit
  | _, [] => []
  | earlier, d :: ds => .declaration earlier d :: visits (earlier ++ [d]) ds

/-- The use at an expression itself. -/
def Expr.Shape.ownVisit (scopes : Surroundings) (m : Mark) : Shape (Expr Mark) → List Visit
  | name n | assign n _ _ | element n _ => [.use scopes n m]
  | call n _ => [.call n m]
  | _ => []

mutual

/-- The uses in an expression. -/
def Expr.visits (scopes : Surroundings) : Expr Mark → List Visit
  | .node m shape =>
    (match shape with
    | .binary l _ r => l.visits scopes ++ r.visits scopes
    | .grouping e | .unary _ e _ | .element _ e | .random _ e | .assign _ none e => e.visits scopes
    | .assign _ (some i) v => v.visits scopes ++ i.visits scopes
    | .call _ es | .braces es => visitsAll scopes es
    | .literal _ | .name _ => []) ++ shape.ownVisit scopes m

def Expr.visitsAll (scopes : Surroundings) : List (Expr Mark) → List Visit
  | [] => []
  | e :: es => e.visits scopes ++ visitsAll scopes es

end

/-- What a statement declares in the scope in which it stands. -/
def Stmt.declared : Stmt Mark → List Declaration
  | .node m (.var n _ _) | .node m (.array n _ _ _) => [⟨n, .localVar m.id⟩]
  | _ => []

/-- The use or the declaration at a statement itself. -/
def Stmt.Shape.ownVisit (here : List Declaration) (outer : Surroundings) (m : Mark) :
    Shape (Stmt Mark) (Expr Mark) → List Visit
  | input n => [.input (here :: outer) n m]
  | var n _ _ | array n _ _ _ => [.declaration here ⟨n, .localVar m.id⟩]
  | _ => []

mutual

/-- The uses and declarations in a statement, which stands behind the declarations `here` of its
scope.  A block is a scope of its own unless it is the body of something that has a scope for it. -/
def Stmt.visits (isBody : Bool) (here : List Declaration) (outer : Surroundings) :
    Stmt Mark → List Visit
  | .node m shape =>
    (match shape with
    | .block body =>
      if isBody then visitsAll here outer body else visitsAll [] (here :: outer) body
    | .ret _ v => Expr.visitsAll (here :: outer) v.toList
    | .expression e => e.visits (here :: outer)
    | .choice branches otherwise =>
      visitsArms (here :: outer) branches ++ visitsOption true (here :: outer) otherwise
    | .whileLoop c body => c.visits (here :: outer) ++ body.visits true [] (here :: outer)
    | .forLoop init c u body =>
      let header := init.toList.flatMap declared :: here :: outer
      visitsOption false (here :: outer) init ++ Expr.visitsAll header c.toList ++
        Expr.visitsAll header u.toList ++ body.visits true [] header
    | .output _ vs => Expr.visitsAll (here :: outer) vs
    | .var _ _ init | .array _ _ _ init => Expr.visitsAll (here :: outer) init.toList
    | .input _ | .stop _ | .skip _ => []) ++ shape.ownVisit here outer m

/-- The statements of one scope, each behind those before it. -/
def Stmt.visitsAll (here : List Declaration) (outer : Surroundings) : List (Stmt Mark) → List Visit
  | [] => []
  | s :: ss => s.visits false here outer ++ visitsAll (here ++ s.declared) outer ss

def Stmt.visitsArms (outer : Surroundings) : List (Expr Mark × Stmt Mark) → List Visit
  | [] => []
  | (c, body) :: rest => c.visits outer ++ body.visits true [] outer ++ visitsArms outer rest

def Stmt.visitsOption (isBody : Bool) (outer : Surroundings) : Option (Stmt Mark) → List Visit
  | none => []
  | some s => s.visits isBody [] outer

end

/-- The parameters of a function. -/
def Function.declared (id : FunctionId) (f : Function (Stmt Mark)) : List Declaration :=
  f.params.zipIdx.map fun p => ⟨p.1.name, .param id p.2⟩

/-- The uses and declarations in a function, whose body has the scope of the parameters. -/
def Function.visits (id : FunctionId) (f : Function (Stmt Mark)) : List Visit :=
  Declaration.visits [] (f.declared id) ++ f.body.visits true (f.declared id) []

/-- The functions of a program. -/
def Tree.declared (t : Tree) : List Declaration :=
  t.views.map fun v => ⟨v.2.name, .function v.1⟩

/-- The uses and declarations in a program: first all functions, then what is in them. -/
def Tree.visits (t : Tree) : List Visit :=
  Declaration.visits [] t.declared ++ t.views.flatMap fun v => v.2.visits v.1

/-! ## Everything is visited -/

/-- Every use in the expression is visited. -/
def Expr.Visited (vs : List Visit) (scopes : Surroundings) (e : Expr Mark) : Prop :=
  e.All fun m shape => ∀ v ∈ shape.ownVisit scopes m, v ∈ vs

/-- Every use and every declaration in the statement is visited. -/
def Stmt.Visited (vs : List Visit) (s : Stmt Mark) : Prop :=
  s.All fun m shape => (∃ here outer, ∀ v ∈ shape.ownVisit here outer m, v ∈ vs) ∧
    ∀ e ∈ shape.exprs, ∃ scopes, e.Visited vs scopes

theorem Expr.visitsAll_eq (scopes : Surroundings) (es : List (Expr Mark)) :
    Expr.visitsAll scopes es = es.flatMap (Expr.visits scopes) := by
  induction es with
  | nil => rfl
  | cons e es ih => rw [Expr.visitsAll, ih, List.flatMap_cons]

theorem Expr.visits_subset_visitsAll (scopes : Surroundings) {es : List (Expr Mark)} (he : e ∈ es) :
    e.visits scopes ⊆ Expr.visitsAll scopes es := by
  rw [Expr.visitsAll_eq]
  exact fun v hv => List.mem_flatMap.mpr ⟨e, he, hv⟩

theorem Expr.visits_subset_of_child {m : Mark} {shape : Shape (Expr Mark)}
    (he : e ∈ shape.children) : e.visits scopes ⊆ (Expr.node m shape).visits scopes := by
  intro v hv
  unfold Expr.visits
  refine List.mem_append_left _ ?_
  cases shape with
  | binary l op r =>
    rcases List.mem_cons.mp he with rfl | he
    · exact List.mem_append_left _ hv
    · obtain rfl := List.mem_singleton.mp he
      exact List.mem_append_right _ hv
  | assign c i v =>
    cases i with
    | none =>
      obtain rfl := List.mem_singleton.mp he
      exact hv
    | some i =>
      rcases List.mem_cons.mp he with rfl | he
      · exact List.mem_append_right _ hv
      · obtain rfl := List.mem_singleton.mp he
        exact List.mem_append_left _ hv
  | call c args | braces es => exact visits_subset_visitsAll scopes he hv
  | literal | name => cases he
  | grouping | unary | element | random =>
    obtain rfl := List.mem_singleton.mp he
    exact hv

theorem Expr.visited_of_subset (e : Expr Mark) (h : e.visits scopes ⊆ vs) :
    e.Visited vs scopes := by
  induction e using Expr.induction with
  | step m shape ih =>
    refine .node (fun v hv => h ?_) fun e he => ih e he fun v hv => h (visits_subset_of_child he hv)
    unfold Expr.visits
    exact List.mem_append_right _ hv

theorem Stmt.visits_subset_visitsAll (outer : Surroundings) {ss : List (Stmt Mark)} (hs : s ∈ ss)
    (here : List Declaration) :
    ∃ here', s.visits false here' outer ⊆ Stmt.visitsAll here outer ss := by
  induction ss generalizing here with
  | nil => cases hs
  | cons a ss ih =>
    rw [Stmt.visitsAll]
    rcases List.mem_cons.mp hs with rfl | hs
    · exact ⟨here, List.subset_append_left _ _⟩
    · obtain ⟨here', h⟩ := ih hs (here ++ a.declared)
      exact ⟨here', List.Subset.trans h (List.subset_append_right _ _)⟩

theorem Stmt.visits_subset_visitsArms (outer : Surroundings) {bs : List (Expr Mark × Stmt Mark)}
    {b : Expr Mark × Stmt Mark} (hb : b ∈ bs) :
    b.1.visits outer ++ b.2.visits true [] outer ⊆ Stmt.visitsArms outer bs := by
  induction bs with
  | nil => cases hb
  | cons a bs ih =>
    rw [Stmt.visitsArms]
    rcases List.mem_cons.mp hb with rfl | hb
    · exact List.subset_append_left _ _
    · exact List.Subset.trans (ih hb) (List.subset_append_right _ _)

/-- The statements in a node are visited with it. -/
theorem Stmt.visits_subset_of_child (m : Mark) (isBody : Bool) (here : List Declaration)
    (outer : Surroundings) (hs : s ∈ shape.children) :
    ∃ isBody' here' outer', ∀ v ∈ s.visits isBody' here' outer',
      v ∈ (Stmt.node m shape).visits isBody here outer := by
  cases shape with
  | block body =>
    rw [Stmt.visits]
    cases isBody with
    | true =>
      obtain ⟨here', h⟩ := visits_subset_visitsAll outer hs here
      exact ⟨false, here', outer, fun v hv => List.mem_append_left _ (h hv)⟩
    | false =>
      obtain ⟨here', h⟩ := visits_subset_visitsAll (here :: outer) hs []
      exact ⟨false, here', here :: outer, fun v hv => List.mem_append_left _ (h hv)⟩
  | choice branches otherwise =>
    refine ⟨true, [], here :: outer, fun v hv => ?_⟩
    rw [Stmt.visits]
    refine List.mem_append_left _ ?_
    rcases List.mem_append.mp hs with hs | hs
    · obtain ⟨b, hb, rfl⟩ := List.mem_map.mp hs
      exact List.mem_append_left _
        (visits_subset_visitsArms _ hb (List.mem_append_right _ hv))
    · obtain rfl : otherwise = some s := Option.mem_toList.mp hs
      exact List.mem_append_right _ hv
  | whileLoop c body =>
    obtain rfl := List.mem_singleton.mp hs
    refine ⟨true, [], here :: outer, fun v hv => ?_⟩
    rw [Stmt.visits]
    exact List.mem_append_left _ (List.mem_append_right _ hv)
  | forLoop init c u body =>
    rcases List.mem_append.mp hs with hs | hs
    · obtain rfl : init = some s := Option.mem_toList.mp hs
      refine ⟨false, [], here :: outer, fun v hv => ?_⟩
      rw [Stmt.visits]
      simp only [List.mem_append]
      exact .inl (.inl (.inl (.inl hv)))
    · obtain rfl := List.mem_singleton.mp hs
      refine ⟨true, [], init.toList.flatMap declared :: here :: outer, fun v hv => ?_⟩
      rw [Stmt.visits]
      exact List.mem_append_left _ (List.mem_append_right _ hv)
  | ret | expression | output | input | var | array | stop | skip => cases hs

/-- The expressions of a node are visited with it. -/
theorem Stmt.visits_subset_of_expr (m : Mark) (isBody : Bool) (here : List Declaration)
    (outer : Surroundings) (he : e ∈ shape.exprs) : ∃ scopes,
      ∀ v ∈ e.visits scopes, v ∈ (Stmt.node m shape).visits isBody here outer := by
  cases shape with
  | expression a =>
    obtain rfl := List.mem_singleton.mp he
    refine ⟨here :: outer, fun v hv => ?_⟩
    rw [Stmt.visits]
    exact List.mem_append_left _ hv
  | choice branches otherwise =>
    obtain ⟨b, hb, rfl⟩ := List.mem_map.mp he
    refine ⟨here :: outer, fun v hv => ?_⟩
    rw [Stmt.visits]
    exact List.mem_append_left _ (List.mem_append_left _
      (visits_subset_visitsArms _ hb (List.mem_append_left _ hv)))
  | whileLoop c body =>
    obtain rfl := List.mem_singleton.mp he
    refine ⟨here :: outer, fun v hv => ?_⟩
    rw [Stmt.visits]
    exact List.mem_append_left _ (List.mem_append_left _ hv)
  | forLoop init c u body =>
    refine ⟨init.toList.flatMap declared :: here :: outer, fun v hv => ?_⟩
    rw [Stmt.visits]
    simp only [List.mem_append]
    rcases List.mem_append.mp he with he | he
    · exact .inl (.inl (.inl (.inr (Expr.visits_subset_visitsAll _ he hv))))
    · exact .inl (.inl (.inr (Expr.visits_subset_visitsAll _ he hv)))
  | ret | output | var | array =>
    refine ⟨here :: outer, fun v hv => ?_⟩
    rw [Stmt.visits]
    exact List.mem_append_left _ (Expr.visits_subset_visitsAll _ he hv)
  | block | input | stop | skip => cases he

theorem Stmt.visited_of_subset (s : Stmt Mark) : ∀ isBody here outer,
    s.visits isBody here outer ⊆ vs → s.Visited vs := by
  induction s using Stmt.induction with
  | step m shape ih =>
    intro isBody here outer h
    refine .node ⟨⟨here, outer, fun v hv => h ?_⟩, fun e he => ?_⟩ fun s hs => ?_
    · unfold Stmt.visits
      exact List.mem_append_right _ hv
    · obtain ⟨scopes, hsub⟩ := visits_subset_of_expr m isBody here outer he
      exact ⟨scopes, e.visited_of_subset fun v hv => h (hsub v hv)⟩
    · obtain ⟨isBody', here', outer', hsub⟩ := visits_subset_of_child m isBody here outer hs
      exact ih s hs isBody' here' outer' fun v hv => h (hsub v hv)

end StackLang
