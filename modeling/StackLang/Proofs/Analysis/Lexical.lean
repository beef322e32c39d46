import StackLang.Proofs.Analysis.Checked

/-!
# Names are resolved lexically

Whatever is visited in a program is treated by the scoping rules, and everything in the functions of
the program is visited.

* `resolve_lexical` — the bindings and the errors of a parsed program.
-/

namespace StackLang

variable {ds : List Declaration} {t : Tree} {n : Notes} {source : String} {p : Program}

/-! ## Programs -/

theorem filterMap_site?_visits
    (hd : ∀ d ∈ ds, ∀ earlier, (Visit.declaration earlier d).site? = none) :
    ∀ earlier, (Declaration.visits earlier ds).filterMap Visit.site? = [] := by
  induction ds with
  | nil => exact fun _ => rfl
  | cons d ds ih =>
    intro earlier
    rw [List.forall_mem_cons] at hd
    rw [Declaration.visits, List.filterMap_cons_none (hd.1 earlier), ih hd.2]

/-- Only in the bodies of functions something is visited at a node. -/
theorem filterMap_site?_tree (t : Tree) : t.visits.filterMap Visit.site? =
    (t.views.flatMap fun v => v.2.bodyVisits v.1).filterMap Visit.site? := by
  have hfunctions : (Declaration.visits [] t.declared).filterMap Visit.site? = [] := by
    refine filterMap_site?_visits (fun d hd _ => ?_) []
    obtain ⟨v, -, rfl⟩ := List.mem_map.mp hd
    rfl
  have hparams : ∀ v : FunctionId × Function (Stmt Mark),
      (v.2.visits v.1).filterMap Visit.site? = (v.2.bodyVisits v.1).filterMap Visit.site? := by
    intro v
    rw [Function.visits, List.filterMap_append, filterMap_site?_visits, List.nil_append]
    · rfl
    · intro d hd _
      obtain ⟨p, -, rfl⟩ := List.mem_map.mp hd
      rfl
  rw [Tree.visits, List.filterMap_append, hfunctions, List.nil_append, List.filterMap_flatMap,
    List.filterMap_flatMap]
  exact congrArg t.views.flatMap (funext hparams)

theorem bound_of_mem_visits :
    ∀ {earlier : List Declaration}, ∀ v ∈ Declaration.visits earlier ds, v.Bound t n := by
  induction ds with
  | nil =>
    intro earlier v hv
    cases hv
  | cons d ds ih =>
    intro earlier v hv
    rcases List.mem_cons.mp hv with rfl | hv
    · trivial
    · exact ih v hv

/-- Nothing is bound before names are resolved. -/
theorem binding_link (ht : t.Orderly) (id : ExprId) :
    ((t.link (.blank t)).expr id).binding = none := by
  have hblank : (Notes.blank t).stmts.size = t.stmts.size := by simp [Notes.blank]
  rw [Notes.expr, (link_linked ht hblank).1.exprs, Notes.blank, Array.getD_eq_getD_getElem?,
    Array.getElem?_map]
  cases t.exprs[id]? <;> rfl

/-- Every name in a function of a parsed program is bound by the rules. -/
theorem bound_of_visits (ht : t.Orderly)
    (hn : n.unscoped = t.nameEdit.apply (t.link (.blank t)).unscoped)
    {v : FunctionId × Function (Stmt Mark)} (hv : v ∈ t.views) {x : Visit}
    (hx : x ∈ v.2.visits v.1) : x.Bound t n := by
  rcases List.mem_append.mp hx with hx | hx
  · exact bound_of_mem_visits x hx
  · exact bound_of_bodyVisits ht (covers_link ht) hn hv hx (.inr (binding_link ht))

/-- Every name in the program stands for what the scoping rules say, and these are all errors:
everything is visited, nothing twice, every use is bound by the rules, and the errors are those of
the visits, in their order. -/
structure Program.Lexical (p : Program) : Prop where
  visited : ∀ v ∈ p.tree.views, v.2.body.Visited p.tree.visits
  once : (p.tree.visits.filterMap Visit.site?).Nodup
  bound : ∀ v ∈ p.tree.visits, v.Bound p.tree p.resolve.1.notes
  faults : p.resolve.2 = p.tree.visits.filterMap (Visit.fault? p.tree)

/-- The names of every parsed program are resolved lexically. -/
theorem resolve_lexical {tokens : List Token} {p : Program}
    (hparse : Program.parse tokens = .ok p) : p.Lexical := by
  obtain ⟨t, ht, rfl⟩ := orderly_of_parse hparse
  obtain ⟨hnotes, herrors⟩ := resolve_empty ht (t.link (.blank t))
  refine ⟨fun v hv => ?_, ?_, fun x hx => ?_, herrors⟩
  · refine v.2.body.visited_of_subset true (v.2.declared v.1) [] fun x hx => ?_
    exact List.mem_append_right _ (List.mem_flatMap.mpr ⟨v, hv, List.mem_append_right _ hx⟩)
  · show (t.visits.filterMap Visit.site?).Nodup
    rw [filterMap_site?_tree]
    exact nodup_sites_bodyVisits ht
  · rcases List.mem_append.mp hx with hx | hx
    · exact bound_of_mem_visits x hx
    · obtain ⟨v, hv, hx⟩ := List.mem_flatMap.mp hx
      exact bound_of_visits ht hnotes hv hx

set_option maxRecDepth 20000 in
/-- A program with shadowing, a use before a declaration, duplicates and unknown names. -/
theorem resolve_lexical_shadowing :
    ∃ tokens p, Program.parse tokens = .ok p ∧
      p.resolve.2 = [.duplicate .functionName "f" 9, .duplicate .variableName "a" 1,
        .notFound .variableName "x" 2, .duplicate .variableName "a" 5,
        .notFound .variableName "y" 6, .notFound .functionName "g" 7] ∧ p.Lexical := by
  obtain ⟨tokens, h⟩ : ∃ tokens, ((Program.parse tokens).toOption.any fun p =>
      decide (p.resolve.2 = [.duplicate .functionName "f" 9, .duplicate .variableName "a" 1,
        .notFound .variableName "x" 2, .duplicate .variableName "a" 5,
        .notFound .variableName "y" 6, .notFound .functionName "g" 7])) = true := by
    refine ⟨((Token.scan ("int f(int a, int a) \x7b\n int x = x;\n" ++
      " \x7b x = a; int x = a; int a = x; \x7d\n" ++
      " for (int i = 0; i < x; i++) \x7b int i = a; x = i; \x7d\n int a = x;\n" ++
      " x = y;\n return g() + f(x, a);\n\x7d\nint f() \x7b return 0; \x7d")).toOption).getD [], ?_⟩
    decide +kernel
  obtain ⟨p, hp, h⟩ := any_toOption_iff.mp h
  exact ⟨tokens, p, hp, of_decide_eq_true h, resolve_lexical hp⟩

/-! ## Accepted programs -/

/-- Every name in a program that is accepted is bound as the scoping rules say. -/
theorem bound_of_analyzeSource (h : analyzeSource source = .ok p) :
    ∀ v ∈ p.tree.views, ∀ x ∈ v.2.visits v.1, x.Bound p.tree p.notes := by
  obtain ⟨q, hparse, -, hnames, -, rfl⟩ := exists_analyze_of_analyzeSource h
  obtain ⟨t, ht, rfl⟩ := orderly_of_parseSource hparse
  obtain ⟨hretains, -⟩ := typed_of_check ht rfl hnames
  obtain ⟨hnotes, -⟩ := resolve_empty ht (t.link (.blank t))
  intro v hv x hx
  have hbound := bound_of_visits ht hnotes hv hx
  cases x with
  | use scopes name m | call name m => exact (hretains.exprs m.id).trans hbound
  | input scopes name m => exact (hretains.bindings m.id).trans hbound
  | declaration => trivial

end StackLang
