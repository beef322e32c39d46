import StackLang.Proofs.Analysis.Lexical
import StackLang.Proofs.Analysis.TypingEdits

/-!
# Analysing a program again

Names can be resolved and types checked a second time.  The second resolution works in new scopes,
beside the old ones, and finds all functions declared already; apart from that nothing changes, with
or without errors in the program.

* `Program.generate_unscoped` — the code does not depend on the scopes.
* `analyze_again` — what running both passes a second time does.
-/

namespace StackLang

/-! ## Code without scopes -/

namespace Generate

/-- The context without the scopes. -/
def Context.unscoped (c : Context) : Context :=
  { c with notes := c.notes.unscoped }

variable {c : Context}

@[simp] theorem Context.binding_expr_unscoped (id : ExprId) :
    (c.unscoped.notes.expr id).binding = (c.notes.expr id).binding := by
  rw [unscoped, Notes.expr_unscoped]

@[simp] theorem Context.binding_stmt_unscoped (id : StmtId) :
    (c.unscoped.notes.stmt id).binding = (c.notes.stmt id).binding := by
  rw [unscoped, Notes.stmt_unscoped]

@[simp] theorem Context.target_unscoped (id : StmtId) :
    (c.unscoped.notes.stmt id).target = (c.notes.stmt id).target := by
  rw [unscoped, Notes.stmt_unscoped]

@[simp] theorem typeOf_unscoped (m : Mark) : typeOf c.unscoped m = typeOf c m := by
  rw [typeOf, typeOf, Context.unscoped, Notes.expr_unscoped]

@[simp] theorem slotOf_unscoped (m : Mark) (name : Token) :
    slotOf c.unscoped m name = slotOf c m name := by
  rw [slotOf, slotOf, Context.unscoped, Notes.stmt_unscoped]

@[simp] theorem variableAt_unscoped (b : Option Binding) (name : Token) :
    variableAt c.unscoped b name = variableAt c b name := by
  have hsame : c.notes.Resembles c.notes.unscoped :=
    Notes.resembles_of_unscoped Notes.unscoped_unscoped
  rw [variableAt, variableAt, Context.unscoped, hsame.toRetains.varInfo?]

@[simp] theorem count_unscoped (op : Token) (step : Op) (trailing : Bool) (line : Line)
    (e : Expr Mark) :
    count c.unscoped op step trailing line e = count c op step trailing line e := by
  unfold count
  split
  · rw [variableAt_unscoped, Context.binding_expr_unscoped]
  · rfl

theorem arguments_unscoped {es : List (Expr Mark)} (h : ∀ e ∈ es, expr c.unscoped e = expr c e) :
    ∀ ps, arguments c.unscoped es ps = arguments c es ps := by
  induction es with
  | nil =>
    intro ps
    cases ps <;> rfl
  | cons e es ih =>
    rw [List.forall_mem_cons] at h
    intro ps
    cases ps with
    | nil => rfl
    | cons p ps => rw [arguments, arguments, h.1, ih h.2, typeOf_unscoped]

/-- The code of an expression does not depend on the scopes. -/
@[simp] theorem expr_unscoped (e : Expr Mark) : expr c.unscoped e = expr c e := by
  induction e using Expr.induction with
  | step m shape ih =>
    cases shape with
    | binary l op r =>
      rw [expr, expr, ih l (by simp), ih r (by simp),
        typeOf_unscoped, typeOf_unscoped]
    | grouping e => rw [expr, expr, ih e (by simp)]
    | literal v => rw [expr, expr]
    | unary op e trailing =>
      rw [expr, expr, ih e (by simp), typeOf_unscoped, count_unscoped,
        count_unscoped]
    | name n => rw [expr, expr, variableAt_unscoped, Context.binding_expr_unscoped]
    | assign n i v =>
      have value := ih v (by cases i <;> simp)
      cases i with
      | none =>
        rw [expr, expr, value, variableAt_unscoped, Context.binding_expr_unscoped, typeOf_unscoped]
      | some i =>
        rw [expr, expr, value, ih i (by simp), variableAt_unscoped,
          Context.binding_expr_unscoped, typeOf_unscoped]
    | call n args =>
      have hargs : ∀ ps, arguments c.unscoped args ps = arguments c args ps := arguments_unscoped ih
      simp only [expr, Context.binding_expr_unscoped, hargs]
      rfl
    | element n i =>
      rw [expr, expr, ih i (by simp), variableAt_unscoped,
        Context.binding_expr_unscoped]
    | braces es => rw [expr, expr]
    | random k e => rw [expr, expr, ih e (by simp)]

@[simp] theorem store_unscoped (target : ValueType) (slot : Int) (e : Expr Mark) :
    store c.unscoped target slot e = store c target slot e := by
  rw [store, store, expr_unscoped, typeOf_unscoped]

@[simp] theorem elements_unscoped (type : ValueType) (es : List (Expr Mark)) : ∀ slot,
    elements c.unscoped type slot es = elements c type slot es := by
  induction es with
  | nil => exact fun _ => rfl
  | cons e es ih =>
    intro slot
    rw [elements, elements, store_unscoped, ih]

@[simp] theorem outputs_unscoped (es : List (Expr Mark)) :
    outputs c.unscoped es = outputs c es := by
  induction es with
  | nil => rfl
  | cons e es ih => rw [outputs, outputs, expr_unscoped, typeOf_unscoped, ih]

@[simp] theorem effect_unscoped (e : Option (Expr Mark)) : effect c.unscoped e = effect c e := by
  cases e with
  | none => rfl
  | some e => rw [effect, effect, expr_unscoped]

@[simp] theorem guard_unscoped (stop : LabelId) (e : Option (Expr Mark)) :
    guard c.unscoped stop e = guard c stop e := by
  cases e with
  | none => rfl
  | some e => rw [guard, guard, expr_unscoped]

theorem stmts_unscoped {ss : List (Stmt Mark)} (h : ∀ s ∈ ss, stmt c.unscoped s = stmt c s) :
    stmts c.unscoped ss = stmts c ss := by
  induction ss with
  | nil => rw [stmts, stmts]
  | cons s ss ih =>
    rw [List.forall_mem_cons] at h
    rw [stmts, stmts, h.1, ih h.2]

theorem arms_unscoped (stop : LabelId) {bs : List (Expr Mark × Stmt Mark)}
    (h : ∀ b ∈ bs, stmt c.unscoped b.2 = stmt c b.2) :
    arms c.unscoped stop bs = arms c stop bs := by
  induction bs with
  | nil => rw [arms, arms]
  | cons b bs ih =>
    rw [List.forall_mem_cons] at h
    simp only [arms, guard_unscoped, h.1, ih h.2]

theorem optionalStmt_unscoped {s : Option (Stmt Mark)}
    (h : ∀ a ∈ s.toList, stmt c.unscoped a = stmt c a) :
    optionalStmt c.unscoped s = optionalStmt c s := by
  cases s with
  | none => rw [optionalStmt, optionalStmt]
  | some s => rw [optionalStmt, optionalStmt, h s (by simp)]

/-- The code of a statement does not depend on the scopes. -/
theorem stmt_unscoped (s : Stmt Mark) : stmt c.unscoped s = stmt c s := by
  induction s using Stmt.induction with
  | step m shape ih =>
    cases shape with
    | block body =>
      rw [stmt, stmt]
      exact stmts_unscoped ih
    | ret k v =>
      cases v with
      | none => rw [stmt, stmt]
      | some e =>
        rw [stmt, stmt, expr_unscoped, typeOf_unscoped]
        rfl
    | expression e => rw [stmt, stmt, effect_unscoped]
    | choice branches otherwise =>
      have tried := fun stop => arms_unscoped stop fun b hb =>
        ih b.2 (List.mem_append_left _ (List.mem_map_of_mem hb))
      have last := optionalStmt_unscoped fun s hs => ih s (List.mem_append_right _ hs)
      simp only [stmt, tried, last]
    | whileLoop e body =>
      simp only [stmt, guard_unscoped, ih body (by simp)]
    | forLoop init e u body =>
      have start := optionalStmt_unscoped fun s hs => ih s (List.mem_append_left _ hs)
      have inner := ih body (List.mem_append_right _ (by simp))
      simp only [stmt, start, guard_unscoped, inner, effect_unscoped]
    | output k values => rw [stmt, stmt, outputs_unscoped]
    | input n => rw [stmt, stmt, variableAt_unscoped, Context.binding_stmt_unscoped]
    | var n type init =>
      cases init with
      | none => rw [stmt, stmt]
      | some e => simp only [stmt, slotOf_unscoped, store_unscoped]
    | array n type length init =>
      cases init with
      | none => rw [stmt, stmt]
      | some e => simp only [stmt, slotOf_unscoped, elements_unscoped]
    | stop k | skip k => rw [stmt, stmt, Context.target_unscoped]

end Generate

/-- The program without the scopes. -/
def Program.unscoped (p : Program) : Program :=
  ⟨p.tree, p.notes.unscoped, .empty⟩

namespace Generate

theorem function_unscoped (p : Program) (id : FunctionId) (f : Function (Stmt Mark)) :
    function p.unscoped id f = function p id f := by
  have hframe : (p.unscoped.notes.function id).frameSlots = (p.notes.function id).frameSlots := by
    rw [Program.unscoped, Notes.function_unscoped]
  have hbody : stmt ⟨p.unscoped.tree, p.unscoped.notes, f.returnType⟩ f.body =
      stmt ⟨p.tree, p.notes, f.returnType⟩ f.body :=
    stmt_unscoped (c := ⟨p.tree, p.notes, f.returnType⟩) f.body
  simp only [function, hframe, hbody]

theorem functions_unscoped (p : Program) (fs : List (FunctionId × Function (Stmt Mark))) :
    functions p.unscoped fs = functions p fs := by
  induction fs with
  | nil => rfl
  | cons v fs ih => rw [functions, functions, function_unscoped, ih]

end Generate

/-- The code of a program does not depend on the scopes. -/
theorem Program.generate_unscoped (p : Program) : p.unscoped.generate = p.generate := by
  have hcode : Generate.program p.unscoped = Generate.program p := by
    unfold Generate.program
    rw [Generate.functions_unscoped]
    rfl
  rw [Program.generate, Program.generate, hcode]
  rfl

theorem Program.generate_congr {p q : Program} (htree : q.tree = p.tree)
    (h : q.notes.unscoped = p.notes.unscoped) : q.generate = p.generate := by
  rw [← generate_unscoped, ← p.generate_unscoped, unscoped, unscoped, htree, h]

/-! ## Resolving names again -/

theorem Declaration.first?_append (scope later : List Declaration) (name : String) :
    Declaration.first? (scope ++ later) name =
      (Declaration.first? scope name).or (Declaration.first? later name) := by
  rw [first?, first?, first?, List.find?_append, Option.map_or]

theorem Declaration.isSome_first?_of_mem {scope : List Declaration} {d : Declaration}
    (h : d ∈ scope) : (Declaration.first? scope d.name.lexeme).isSome = true := by
  rw [first?, Option.isSome_map, List.find?_isSome]
  exact ⟨d, h, by simp⟩

/-- A function whose name is in the root already is a duplicate. -/
theorem faults_visits_of_declared {t : Tree} {ds : List Declaration} : ∀ earlier,
    (∀ d ∈ ds, (Declaration.first? earlier d.name.lexeme).isSome = true) →
    (Declaration.visits earlier ds).filterMap (Visit.fault? t) =
      ds.map fun d => .duplicate d.binding.kind d.name.lexeme d.name.line := by
  induction ds with
  | nil => exact fun _ _ => rfl
  | cons d ds ih =>
    intro earlier h
    rw [List.forall_mem_cons] at h
    have hfault : (Visit.declaration earlier d).fault? t =
        some (.duplicate d.binding.kind d.name.lexeme d.name.line) := by
      rw [Visit.fault?, if_pos h.1]
    have rest := ih (earlier ++ [d]) fun e he => by
      rw [Declaration.first?_append, Option.isSome_or, h.2 e he, Bool.true_or]
    rw [Declaration.visits, Naming.faults_cons, hfault, rest]
    rfl

/-- When both passes have been run, resolving names again changes only scopes.  All functions are
declared already, and in the functions the same errors are found. -/
theorem Program.resolve_again {p : Program} (ht : p.tree.Orderly) (hs : p.scopes = .empty) :
    p.analyze.1.resolve.1.notes.unscoped = p.analyze.1.notes.unscoped ∧
      ∃ late,
        p.resolve.2 = ((Naming.declareFunctions p.tree.views).run
          ⟨p.notes, p.scopes, 0, []⟩).2.errors ++ late ∧
        p.analyze.1.resolve.2 = (p.tree.functions.toList.map fun f =>
          .duplicate .functionName f.name.lexeme f.name.line) ++ late := by
  obtain ⟨c, types, hc, hcheck⟩ := Program.exists_check_eq p.tree p.resolve.1.notes
  have hanalyze : p.analyze.1 = ⟨p.tree, c.apply p.resolve.1.notes, p.resolve.1.scopes⟩ :=
    congrArg Prod.fst (hcheck p.resolve.1 rfl ⟨.refl _, rfl⟩)
  have hempty : p.scopes.HasRoot [] := hs ▸ ScopeGraph.hasRoot_empty
  obtain ⟨hnotes₁, hnames₁, hroot⟩ :=
    Program.resolve_eq ht rfl hempty fun name => first?_declared ht name
  have hroot' : p.analyze.1.scopes.HasRoot p.tree.declared := by rwa [hanalyze]
  obtain ⟨hnotes₂, hnames₂, -⟩ := Program.resolve_eq (p := p.analyze.1) ht rfl hroot'
    fun name => by rw [Declaration.first?_append, Option.or_self, first?_declared ht]
  refine ⟨?_, (p.tree.views.flatMap fun v => v.2.visits v.1).filterMap (Visit.fault? p.tree),
    ?_, ?_⟩
  · -- What is written is there already.
    rw [hnotes₂, hanalyze, Notes.unscoped_apply_of_types hc, hnotes₁]
    exact (names_nameEdit p.tree).again hc _
  · obtain ⟨-, herrors, -⟩ := Naming.declareFunctions_run (t := p.tree) p.tree.views []
      ⟨p.notes, p.scopes, 0, []⟩ hempty
    rw [hnames₁, herrors]
    rfl
  · rw [hnames₂, faults_visits_of_declared, toList_functions ht, Tree.declared, List.map_map,
      List.map_map]
    · rfl
    · exact fun b hb => Declaration.isSome_first?_of_mem hb

/-! ## Checking types again -/

/-- Checking types again changes nothing, also if scopes have changed in between. -/
theorem Program.check_again {p q : Program} (ht : p.tree.Orderly)
    (hsize : p.notes.functions.size = p.tree.functions.size) (htree : q.tree = p.tree)
    (hq : q.notes.unscoped = p.check.1.notes.unscoped) :
    q.check.2 = p.check.2 ∧ q.check.1.notes.unscoped = p.check.1.notes.unscoped := by
  obtain ⟨c, types, hc, hcheck⟩ := Program.exists_check_eq p.tree p.notes
  have hfirst := hcheck p rfl ⟨.refl _, rfl⟩
  have hsecond := hcheck q htree (p.resembles_check.trans (Notes.resembles_of_unscoped hq))
  rw [hfirst] at hq
  rw [hfirst, hsecond]
  refine ⟨rfl, ?_⟩
  show (c.apply q.notes).unscoped = (c.apply p.notes).unscoped
  rw [Notes.unscoped_apply_of_types hc, hq, Notes.unscoped_apply_of_types hc]
  refine hc.again fun id hid => ?_
  rw [Notes.size_functions_unscoped, hsize] at hid
  rw [ht.ids]
  exact List.mem_range.mpr hid

/-! ## Both passes -/

/-- Running both passes a second time leaves everything but the scopes as it was, reports the same
errors in the types, and gives the same code or the same reason why there is none.  The errors in
the names are now a duplicate for every function, followed by those which the first run has found in
the functions. -/
structure Program.Repeats (p : Program) : Prop where
  notes : p.analyze.1.analyze.1.notes.unscoped = p.analyze.1.notes.unscoped
  types : p.analyze.1.analyze.2.2 = p.analyze.2.2
  code : p.analyze.1.analyze.1.generate = p.analyze.1.generate
  names : ∃ late,
    p.analyze.2.1 =
      ((Naming.declareFunctions p.tree.views).run ⟨p.notes, p.scopes, 0, []⟩).2.errors ++ late ∧
    p.analyze.1.analyze.2.1 = (p.tree.functions.toList.map fun f =>
      .duplicate .functionName f.name.lexeme f.name.line) ++ late

/-- The analysis of every parsed program can be repeated, with or without errors. -/
theorem analyze_again {tokens : List Token} {p : Program} (hparse : Program.parse tokens = .ok p) :
    p.Repeats := by
  obtain ⟨t, ht, rfl⟩ := orderly_of_parse hparse
  obtain ⟨-, covers, -⟩ := resolve_framed ht (covers_link ht)
  obtain ⟨hresolve, late, hearly, hagain⟩ := Program.resolve_again (p := .ofTree t) ht rfl
  obtain ⟨htypes, hcheck⟩ := Program.check_again (p := (Program.ofTree t).resolve.1)
    (q := (Program.ofTree t).analyze.1.resolve.1) ht covers.functions rfl hresolve
  exact ⟨hcheck, htypes, Program.generate_congr rfl hcheck, late, hearly, hagain⟩

set_option maxRecDepth 20000 in
/-- A program with errors of every kind: two functions of one name, unknown names, a wrong type and
a jump outside of a loop. -/
theorem analyze_again_errors :
    ∃ tokens p, Program.parse tokens = .ok p ∧
      p.analyze.2.1 = [.duplicate .functionName "f" 4, .notFound .variableName "x" 2,
        .duplicate .variableName "a" 3] ∧
      p.analyze.2.2 = [⟨.outsideLoop "break", 3⟩, ⟨.condition .int, 4⟩] ∧ p.Repeats := by
  obtain ⟨tokens, h⟩ : ∃ tokens, ((Program.parse tokens).toOption.any fun p =>
      decide (p.analyze.2.1 = [.duplicate .functionName "f" 4, .notFound .variableName "x" 2,
        .duplicate .variableName "a" 3]) &&
      decide (p.analyze.2.2 = [⟨.outsideLoop "break", 3⟩, ⟨.condition .int, 4⟩])) = true := by
    refine ⟨((Token.scan ("int f(int a) \x7b\n while (x) \x7b break; \x7d\n" ++
      " int a = 1; break; return a;\n\x7d void f() \x7b if (1) \x7b \x7d \x7d")).toOption).getD [],
        ?_⟩
    decide +kernel
  simp only [any_toOption_iff, Bool.and_eq_true, decide_eq_true_eq] at h
  obtain ⟨p, hp, h⟩ := h
  exact ⟨tokens, p, hp, h.1, h.2, analyze_again hp⟩

end StackLang
