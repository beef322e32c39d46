import StackLang.Proofs.Analysis.ScopingWalk
import StackLang.Proofs.Program.Laying

/-!
# What name resolution finds out

Everything in the functions of a program is visited, and nothing twice.  So what is noted at a node
is what its visit asks for.

* `Tree.Framed` — the declarations of a function have places in its frame.
* `Tree.Named` — what is known about a function when its names are resolved.
* `Program.resolve_eq` — what is noted and reported when names are resolved.
* `resolve_framed` — every function has a frame, whatever is reported.
* `resolve_named` — the names of every function are resolved if no error is reported.
-/

namespace StackLang

variable {t : Tree} {n n' : Notes} {id : FunctionId} {f : Function (Stmt Mark)}
  {fs : List (FunctionId × Function (Stmt Mark))} {v : FunctionId × Function (Stmt Mark)}
  {found : Option Binding} {p : Int × Visit} {s : Visit.Site}

/-! ## Functions -/

/-- The declarations that may be used in a function: its own, and all functions. -/
def Tree.Usable (t : Tree) (id : FunctionId) (f : Function (Stmt Mark)) : Binding → Prop
  | .param g i => g = id ∧ i < f.params.length
  | .localVar s => (∃ m ∈ f.body.tags, m.id = s) ∧ (t.cells? s).isSome = true
  | .function g => g < t.functions.size

/-- The declarations of a function have places in its frame. -/
structure Tree.Framed (t : Tree) (n : Notes) (id : FunctionId) (f : Function (Stmt Mark)) :
    Prop where
  slots : t.Slotted n 0 f.body.tags
  params : (n.function id).slots =
    (List.range f.params.length).map (paramSlot · f.params.length)
  frame : (n.function id).frameSlots = t.cells f.body.tags

/-- The names of a function are resolved, and its declarations have places in its frame. -/
structure Tree.Named (t : Tree) (n : Notes) (id : FunctionId) (f : Function (Stmt Mark)) : Prop
    extends t.Framed n id f where
  bound : f.body.Bound (t.Usable id f) n

theorem Tree.Framed.congr (h : t.Framed n id f)
    (hs : ∀ m ∈ f.body.tags, (n'.stmt m.id).slot = (n.stmt m.id).slot)
    (hp : (n'.function id).slots = (n.function id).slots)
    (hf : (n'.function id).frameSlots = (n.function id).frameSlots) : t.Framed n' id f where
  slots := h.slots.congr hs
  params := hp.trans h.params
  frame := hf.trans h.frame

theorem Tree.Named.congr (h : t.Named n id f)
    (he : ∀ m ∈ f.body.exprTags, (n'.expr m.id).binding = (n.expr m.id).binding)
    (hb : ∀ m ∈ f.body.tags, (n'.stmt m.id).binding = (n.stmt m.id).binding)
    (hs : ∀ m ∈ f.body.tags, (n'.stmt m.id).slot = (n.stmt m.id).slot)
    (hp : (n'.function id).slots = (n.function id).slots)
    (hf : (n'.function id).frameSlots = (n.function id).frameSlots) : t.Named n' id f where
  toFramed := h.toFramed.congr hs hp hf
  bound := h.bound.congr he hb

/-- The notes have room for every node of the tree. -/
structure Notes.Covers (n : Notes) (t : Tree) : Prop where
  exprs : n.exprs.size = t.exprs.size
  stmts : n.stmts.size = t.stmts.size
  functions : n.functions.size = t.functions.size

/-! ## The root -/

/-- The root holds the functions `ds` and nothing else. -/
def ScopeGraph.HasRoot (g : ScopeGraph) (ds : List Declaration) : Prop :=
  ∃ s, g.scopes[ScopeGraph.root]? = some s ∧ s.parent = none ∧
    (∀ name, s.get? name .variableName = none) ∧
    ∀ name, s.get? name .functionName = Declaration.first? ds name

theorem ScopeGraph.hasRoot_empty : ScopeGraph.empty.HasRoot [] :=
  ⟨⟨none, []⟩, rfl, rfl, fun _ => rfl, fun _ => rfl⟩

theorem ScopeGraph.HasRoot.declare {g : ScopeGraph} {ds : List Declaration} (h : g.HasRoot ds)
    (d : Declaration) (hd : d.binding.kind = .functionName) :
    (g.declare ScopeGraph.root d.name.lexeme d.binding).1 =
        Declaration.first? ds d.name.lexeme ∧
      (g.declare ScopeGraph.root d.name.lexeme d.binding).2.HasRoot (ds ++ [d]) := by
  obtain ⟨s, hs, hparent, hvariables, hfunctions⟩ := h
  obtain ⟨hfirst, s', hs', hparent', hfunctions', hother⟩ := declare_of_first? hs hfunctions d hd
  refine ⟨hfirst, s', hs', hparent'.trans hparent, fun name => ?_, hfunctions'⟩
  rw [hother name .variableName (by simp), hvariables]

/-- All functions are declared before anything else. -/
theorem Naming.declareFunctions_run (fs : List (FunctionId × Function (Stmt Mark))) :
    ∀ earlier st, st.scopes.HasRoot earlier →
      ((declareFunctions fs).run st).2.notes = st.notes ∧
      ((declareFunctions fs).run st).2.errors = st.errors ++ (Declaration.visits earlier
        (fs.map fun v => ⟨v.2.name, .function v.1⟩)).filterMap (Visit.fault? t) ∧
      ((declareFunctions fs).run st).2.scopes.HasRoot
        (earlier ++ fs.map fun v => ⟨v.2.name, .function v.1⟩) := by
  induction fs with
  | nil =>
    intro earlier st hst
    rw [declareFunctions, List.map_nil, List.append_nil]
    exact ⟨rfl, (List.append_nil _).symm, hst⟩
  | cons v fs ih =>
    intro earlier st hst
    obtain ⟨hfirst, hroot⟩ := hst.declare ⟨v.2.name, .function v.1⟩ rfl
    have first := run_declare_of_first? (t := t) hfirst
    obtain ⟨hnotes, herrors, hlast⟩ := ih (earlier ++ [⟨v.2.name, .function v.1⟩])
      ((declare ScopeGraph.root v.2.name (.function v.1)).run st).2 (by rw [first]; exact hroot)
    have hrun : ((declareFunctions (v :: fs)).run st).2 = ((declareFunctions fs).run
        ((declare ScopeGraph.root v.2.name (.function v.1)).run st).2).2 := by
      rw [declareFunctions]
      rfl
    rw [hrun]
    refine ⟨by rw [hnotes, first], ?_, ?_⟩
    · rw [herrors, first, List.map_cons, Declaration.visits, faults_cons, List.append_assoc]
    · rw [List.append_assoc] at hlast
      exact hlast

/-- The first function of a name is the one that is found among consecutive numbers. -/
theorem first?_functions (name : String) (vs : List (FunctionId × Function (Stmt Mark))) :
    ∀ k, vs.map Prod.fst = List.range' k vs.length →
      Declaration.first? (vs.map fun v => ⟨v.2.name, .function v.1⟩) name =
        ((vs.map fun v => v.2.ids).findIdx? fun f => f.name.lexeme = name).map
          fun i => .function (i + k) := by
  induction vs with
  | nil => exact fun _ _ => rfl
  | cons v vs ih =>
    intro k hk
    rw [List.map_cons, List.length_cons, List.range'_succ, List.cons.injEq] at hk
    have rest := ih (k + 1) hk.2
    rw [Declaration.first?] at rest ⊢
    rw [List.map_cons, List.map_cons, List.find?_cons, List.findIdx?_cons]
    by_cases hname : v.2.name.lexeme = name
    · simp [hname, hk.1, Function.ids]
    · simp only [hname, decide_false, Bool.false_eq_true, ↓reduceIte, rest, Function.ids,
        Option.map_map]
      congr 1
      funext i
      simp only [Function.comp_apply]
      rw [Nat.add_assoc, Nat.add_comm 1 k]

theorem length_views (ht : t.Orderly) : t.views.length = t.functions.size := by
  rw [← List.length_map (f := Prod.fst), ht.ids, List.length_range]

/-- The functions of a program are viewed in order. -/
theorem toList_functions (ht : t.Orderly) : t.functions.toList = t.views.map fun v => v.2.ids := by
  refine List.ext_getElem? fun i => ?_
  rw [Array.getElem?_toList, List.getElem?_map]
  cases hv : t.views[i]? with
  | none =>
    rw [List.getElem?_eq_none_iff, length_views ht] at hv
    exact Array.getElem?_eq_none hv
  | some v =>
    have hid : (t.views.map Prod.fst)[i]? = some v.1 := by rw [List.getElem?_map, hv]; rfl
    rw [ht.ids, List.getElem?_range (length_views ht ▸ (List.getElem?_eq_some_iff.mp hv).1),
      Option.some.injEq] at hid
    rw [hid]
    exact ht.functions v (List.mem_of_getElem? hv)

/-- The functions of a program are found by their names. -/
theorem first?_declared (ht : t.Orderly) (name : String) :
    Declaration.first? t.declared name = (t.findFunction? name).map .function := by
  rw [Tree.declared, first?_functions name t.views 0 (by
    rw [ht.ids, length_views ht, List.range_eq_range']), ← toList_functions ht,
    ← List.findIdx?_toArray]
  rfl

/-! ## All visits -/

open Visit (placed edits taken)

/-- What is noted in a program. -/
def Tree.nameEdit (t : Tree) : Edit :=
  .all (t.views.map fun v => v.2.edit t v.1)

variable {t : Tree}

theorem names_nameEdit (t : Tree) : t.nameEdit.Names := by
  refine .all fun d hd => ?_
  obtain ⟨v, -, rfl⟩ := List.mem_map.mp hd
  exact (Edit.Names.onFunction v.1 (some _) none).andThen
    ((Visit.names_edits _).andThen (.onFunction v.1 none (some _)))

/-- In expressions and statements the visits count. -/
theorem agreesAt_functions (fs : List (FunctionId × Function (Stmt Mark))) (s : Visit.Site) :
    (Edit.all (fs.map fun v => v.2.edit t v.1)).AgreesAt
      (edits t (fs.flatMap fun v => placed t 0 (v.2.bodyVisits v.1))) s := by
  induction fs with
  | nil => cases s <;> rfl
  | cons v fs ih =>
    have first : (v.2.edit t v.1).AgreesAt (edits t (placed t 0 (v.2.bodyVisits v.1))) s := by
      cases s <;> rfl
    rw [List.flatMap_cons, Visit.edits_append]
    exact first.andThen ih

theorem function_edits (ps : List (Int × Visit)) (id : FunctionId) :
    (edits t ps).function id = fun x => x := by
  induction ps with
  | nil => rfl
  | cons p ps ih =>
    have hp : (p.2.edit t p.1).function id = fun x => x := by
      obtain ⟨k, v⟩ := p
      have hbind : ∀ i found, (Visit.bindTo i found).function id = fun x => x := by
        intro i found
        cases found <;> rfl
      cases v with
      | use | call => exact hbind _ _
      | input => rfl
      | declaration earlier d =>
        obtain ⟨name, b⟩ := d
        cases b <;> rfl
    show (edits t ps).function id ∘ (p.2.edit t p.1).function id = _
    rw [ih, hp]
    rfl

/-- What is noted about a function itself. -/
theorem function_edit (id j : FunctionId) (f : Function (Stmt Mark)) (x : FunctionNote) :
    (f.edit t id).function j x = if j = id then { x with
      slots := (List.range f.params.length).map (paramSlot · f.params.length)
      frameSlots := taken t (f.bodyVisits id) } else x := by
  simp only [Function.edit, Edit.andThen, Function.comp_apply, function_edits, Edit.onFunction]
  split <;> rfl

theorem function_functions_of_not_mem (h : id ∉ fs.map Prod.fst) :
    (Edit.all (fs.map fun v => v.2.edit t v.1)).function id = fun x => x := by
  induction fs with
  | nil => rfl
  | cons v fs ih =>
    rw [List.map_cons, List.mem_cons, not_or] at h
    show Edit.function (.all _) id ∘ (v.2.edit t v.1).function id = _
    rw [ih h.2]
    funext x
    exact (function_edit v.1 id v.2 x).trans (if_neg h.1)

theorem function_nameEdit (ht : t.Orderly) (hv : v ∈ t.views) :
    t.nameEdit.function v.1 = (v.2.edit t v.1).function v.1 := by
  have hnodup : (t.views.map Prod.fst).Nodup := ht.ids ▸ List.nodup_range
  rw [Tree.nameEdit]
  obtain ⟨as, bs, hviews⟩ := List.append_of_mem hv
  rw [hviews, List.map_append, List.map_cons, List.nodup_append, List.nodup_cons] at hnodup
  rw [hviews, List.map_append, List.map_cons, Edit.all_append]
  show (Edit.function (.all _) v.1 ∘ Edit.function _ v.1) ∘ Edit.function (.all _) v.1 = _
  rw [function_functions_of_not_mem fun hmem => hnodup.2.2 v.1 hmem v.1 (by simp) rfl]
  exact congrArg (· ∘ Edit.function _ v.1) (function_functions_of_not_mem hnodup.2.1.1)

theorem nodup_sites {es ms : List Mark} (he : Naming.Distinct es) (hm : Naming.Distinct ms) :
    (Naming.sites es ms).Nodup := by
  rw [Naming.sites, List.nodup_append]
  have he' : ((es.map Mark.id).map Visit.Site.expr).Nodup :=
    List.pairwise_map.mpr (he.imp fun hne h => hne (Visit.Site.expr.inj h))
  have hm' : ((ms.map Mark.id).map Visit.Site.stmt).Nodup :=
    List.pairwise_map.mpr (hm.imp fun hne h => hne (Visit.Site.stmt.inj h))
  rw [List.map_map] at he' hm'
  exact ⟨he', hm', by simp⟩

theorem sites_bodyVisits (h : ∀ v ∈ fs, v.2.body.Held t) :
    ((fs.flatMap fun v => v.2.bodyVisits v.1).filterMap Visit.site?).Subperm
      (Naming.sites (fs.flatMap fun v => v.2.body.exprTags)
        (fs.flatMap fun v => v.2.body.tags)) := by
  induction fs with
  | nil => exact .refl _
  | cons v fs ih =>
    rw [List.forall_mem_cons] at h
    obtain ⟨_, body⟩ := Naming.body_meets v.1 h.1 0
    simp only [List.flatMap_cons, List.filterMap_append]
    exact (Naming.subperm_append body.sites (ih h.2)).trans (Naming.sites_append ..).subperm

theorem nodup_sites_bodyVisits (ht : t.Orderly) :
    ((t.views.flatMap fun v => v.2.bodyVisits v.1).filterMap Visit.site?).Nodup := by
  obtain ⟨l, hperm, hsub⟩ := sites_bodyVisits ht.held
  exact hperm.nodup
    ((nodup_sites (.of_ascending ht.exprIds) (.of_ascending ht.stmtIds)).sublist hsub)

/-- At the site of a visit only that visit counts. -/
theorem nameEdit_agreesAt (ht : t.Orderly) (hv : v ∈ t.views)
    (hp : p ∈ placed t 0 (v.2.bodyVisits v.1)) (hs : p.2.site? = some s) :
    t.nameEdit.AgreesAt (p.2.edit t p.1) s := by
  have hall := agreesAt_functions (t := t) t.views s
  have honce : (((t.views.flatMap fun v => placed t 0 (v.2.bodyVisits v.1)).map
      Prod.snd).filterMap Visit.site?).Nodup := by
    simpa only [List.map_flatMap, Visit.map_snd_placed] using nodup_sites_bodyVisits ht
  have hone := Visit.edits_agreesAt (t := t) honce (List.mem_flatMap.mpr ⟨v, hv, hp⟩) hs
  cases s <;> exact hall.trans hone

/-- The tree has a node at the site. -/
def Visit.Site.Within (t : Tree) : Visit.Site → Prop
  | expr id => id < t.exprs.size
  | stmt id => id < t.stmts.size

theorem within_of_placed (ht : t.Orderly) (hv : v ∈ t.views)
    (hp : p ∈ placed t 0 (v.2.bodyVisits v.1)) (hs : p.2.site? = some s) : s.Within t := by
  obtain ⟨_, body⟩ := Naming.body_meets v.1 (ht.held v hv) 0
  have hmem : p.2 ∈ v.2.bodyVisits v.1 :=
    Visit.map_snd_placed (t := t) (v.2.bodyVisits v.1) 0 ▸ List.mem_map_of_mem hp
  have hsite := body.sites.subset (List.mem_filterMap.mpr ⟨p.2, hmem, hs⟩)
  rcases List.mem_append.mp hsite with hsite | hsite
  · obtain ⟨m, hm, rfl⟩ := List.mem_map.mp hsite
    exact (ht.held v hv).expr_lt_size_of_mem hm
  · obtain ⟨m, hm, rfl⟩ := List.mem_map.mp hsite
    exact (ht.held v hv).lt_size_of_mem hm

/-! ## Programs -/

/-- What is noted and reported when the names of a program are resolved.  The root may hold
functions already; those of the program are found in it then. -/
theorem Program.resolve_eq {p : Program} (ht : t.Orderly) (htree : p.tree = t)
    {earlier : List Declaration} (hroot : p.scopes.HasRoot earlier)
    (hfound : ∀ name, Declaration.first? (earlier ++ t.declared) name =
      (t.findFunction? name).map .function) :
    p.resolve.1.notes.unscoped = t.nameEdit.apply p.notes.unscoped ∧
      p.resolve.2 = (Declaration.visits earlier t.declared).filterMap (Visit.fault? t) ++
        (t.views.flatMap fun v => v.2.visits v.1).filterMap (Visit.fault? t) ∧
      p.resolve.1.scopes.HasRoot t.declared := by
  subst htree
  obtain ⟨hnotes, herrors, s, hs, hparent, hvariables, hfunctions⟩ :=
    Naming.declareFunctions_run (t := p.tree) p.tree.views earlier ⟨p.notes, p.scopes, 0, []⟩ hroot
  obtain ⟨k, edited⟩ := Naming.functions_edited p.tree.views _ ht.held
    (.root hs hparent hvariables fun name => (hfunctions name).trans (hfound name))
  refine ⟨?_, ?_, ?_⟩
  · refine edited.notes.trans ?_
    rw [hnotes]
    rfl
  · refine edited.errors.trans ?_
    rw [herrors]
    rfl
  · cases edited.shows with
    | root hs hparent hvariables hfunctions =>
      exact ⟨_, hs, hparent, hvariables, fun name =>
        (hfunctions name).trans (first?_declared ht name).symm⟩

/-- What is noted and reported in a program without scopes. -/
theorem resolve_empty (ht : t.Orderly) (n : Notes) :
    (Program.resolve ⟨t, n, .empty⟩).1.notes.unscoped = t.nameEdit.apply n.unscoped ∧
      (Program.resolve ⟨t, n, .empty⟩).2 = t.visits.filterMap (Visit.fault? t) := by
  obtain ⟨hnotes, herrors, -⟩ := Program.resolve_eq (p := ⟨t, n, .empty⟩) ht rfl
    ScopeGraph.hasRoot_empty fun name => first?_declared ht name
  rw [Tree.visits, List.filterMap_append]
  exact ⟨hnotes, herrors⟩

theorem isSome_of_unreported {e : NameError} (h : (if found.isSome then none else some e) = none) :
    found.isSome = true := by
  by_contra hnone
  rw [if_neg hnone] at h
  cases h

section Noted

variable {n n' : Notes} {v : FunctionId × Function (Stmt Mark)} {p : Int × Visit} {id : ExprId}

section

variable (ht : t.Orderly) (hc : n.Covers t) (hn : n'.unscoped = t.nameEdit.apply n.unscoped)
  (hv : v ∈ t.views) (hp : p ∈ placed t 0 (v.2.bodyVisits v.1))

include ht hc hn hv hp

/-- What is noted at an expression in which something is visited. -/
theorem expr_of_placed (hs : p.2.site? = some (.expr id)) : { n'.expr id with scope := none } =
      (p.2.edit t p.1).expr id { n.expr id with scope := none } := by
  have hid : id < n.unscoped.exprs.size := by
    rw [Notes.size_exprs_unscoped, hc.exprs]
    exact within_of_placed ht hv hp hs
  have hat : t.nameEdit.expr id = _ := nameEdit_agreesAt ht hv hp hs
  rw [← Notes.expr_unscoped, hn, Edit.expr_apply, if_pos hid, hat, Notes.expr_unscoped]

/-- What is noted at a statement in which something is visited. -/
theorem stmt_of_placed {id : StmtId} (hs : p.2.site? = some (.stmt id)) :
    { n'.stmt id with scope := none } =
      (p.2.edit t p.1).stmt id { n.stmt id with scope := none } := by
  have hid : id < n.unscoped.stmts.size := by
    rw [Notes.size_stmts_unscoped, hc.stmts]
    exact within_of_placed ht hv hp hs
  have hat : t.nameEdit.stmt id = _ := nameEdit_agreesAt ht hv hp hs
  rw [← Notes.stmt_unscoped, hn, Edit.stmt_apply, if_pos hid, hat, Notes.stmt_unscoped]

/-- A local declaration has its place. -/
theorem hasSlot_of_placed : p.2.HasSlot n' p.1 := by
  obtain ⟨k, x⟩ := p
  cases x with
  | use | input | call => trivial
  | declaration earlier d =>
    obtain ⟨name, b⟩ := d
    cases b with
    | param | function => trivial
    | localVar s =>
      refine (congrArg StmtNote.slot (stmt_of_placed ht hc hn hv hp rfl)).trans ?_
      simp [Visit.edit, Edit.onStmt]

end

theorem binding_of_bindTo
    (h : { n'.expr id with scope := none } = (Visit.bindTo id found).expr id { n.expr id with
      scope := none }) (hfound : found.isSome = true ∨ (n.expr id).binding = none) :
    (n'.expr id).binding = found := by
  have hnote := congrArg ExprNote.binding h
  cases found with
  | none => exact hnote.trans (hfound.resolve_left (by simp))
  | some b => simpa [Visit.bindTo, Edit.onExpr] using hnote

/-- A use is bound by the rules, if something is found or it was not bound before. -/
theorem bound_of_placed (ht : t.Orderly) (hc : n.Covers t)
    (hn : n'.unscoped = t.nameEdit.apply n.unscoped) (hv : v ∈ t.views)
    (hp : p ∈ placed t 0 (v.2.bodyVisits v.1))
    (hfound : p.2.fault? t = none ∨ ∀ id, (n.expr id).binding = none) : p.2.Bound t n' := by
  obtain ⟨k, x⟩ := p
  cases x with
  | use scopes name m =>
    exact binding_of_bindTo (expr_of_placed ht hc hn hv hp rfl)
      (hfound.imp isSome_of_unreported fun h => h m.id)
  | call name m =>
    rw [Visit.fault?, ← Option.isSome_map (f := Binding.function)] at hfound
    exact binding_of_bindTo (expr_of_placed ht hc hn hv hp rfl)
      (hfound.imp isSome_of_unreported fun h => h m.id)
  | input scopes name m =>
    have hnote := congrArg StmtNote.binding (stmt_of_placed ht hc hn hv hp rfl)
    simpa [Visit.Bound, Visit.edit, Edit.onStmt] using hnote
  | declaration => trivial

theorem bound_of_bodyVisits (ht : t.Orderly) (hc : n.Covers t)
    (hn : n'.unscoped = t.nameEdit.apply n.unscoped) (hv : v ∈ t.views) {x : Visit}
    (hx : x ∈ v.2.bodyVisits v.1) (hfound : x.fault? t = none ∨ ∀ id, (n.expr id).binding = none) :
    x.Bound t n' := by
  rw [← Visit.map_snd_placed (t := t) (v.2.bodyVisits v.1) 0] at hx
  obtain ⟨p, hp, rfl⟩ := List.mem_map.mp hx
  exact bound_of_placed ht hc hn hv hp hfound

end Noted

/-- The declarations of an orderly program get places in the frames of their functions, also if
there are errors. -/
theorem resolve_framed (ht : t.Orderly) (hn : n.Covers t) :
    (∀ v ∈ t.views, t.Framed (Program.resolve ⟨t, n, .empty⟩).1.notes v.1 v.2) ∧
      (Program.resolve ⟨t, n, .empty⟩).1.notes.Covers t ∧
      ∀ id, ((Program.resolve ⟨t, n, .empty⟩).1.notes.stmt id).parent = (n.stmt id).parent := by
  obtain ⟨hnotes, -⟩ := resolve_empty ht n
  generalize (Program.resolve ⟨t, n, .empty⟩).1.notes = n' at hnotes ⊢
  refine ⟨fun v hv => ?_, ⟨?_, ?_, ?_⟩, fun id => ?_⟩
  · obtain ⟨_, body⟩ := Naming.body_meets v.1 (ht.held v hv) 0
    have hid : v.1 < n.unscoped.functions.size := by
      rw [Notes.size_functions_unscoped, hn.functions]
      exact (Array.getElem?_eq_some_iff.mp (ht.functions v hv)).1
    have hnote : n'.unscoped.function v.1 =
        (v.2.edit t v.1).function v.1 (n.unscoped.function v.1) := by
      rw [hnotes, Edit.function_apply, if_pos hid, function_nameEdit ht hv]
    rw [Notes.function_unscoped, function_edit, if_pos rfl] at hnote
    refine ⟨body.slots n' 0 fun p hp => hasSlot_of_placed ht hn hnotes hv hp, ?_, ?_⟩
    · exact congrArg FunctionNote.slots hnote
    · rw [← body.cells]
      exact congrArg FunctionNote.frameSlots hnote
  · simpa [hn.exprs] using congrArg (·.exprs.size) hnotes
  · simpa [hn.stmts] using congrArg (·.stmts.size) hnotes
  · simpa [hn.functions] using congrArg (·.functions.size) hnotes
  · obtain ⟨b, k, h⟩ := (names_nameEdit t).exists_stmt_apply n.unscoped id
    rw [← hnotes, Notes.stmt_unscoped, Notes.stmt_unscoped] at h
    simpa using congrArg StmtNote.parent h

/-! ## Programs without errors -/

section Fits

variable {U : Binding → Prop} {vs : List Visit} {n : Notes}

/-- What is visited in an expression without errors is bound to something that can be used. -/
theorem Expr.Visited.bound {scopes : Surroundings} {e : Expr Mark} (h : e.Visited vs scopes)
    (hvs : ∀ v ∈ vs, v.Sees U ∧ v.fault? t = none ∧ v.Bound t n)
    (hU : ∀ g < t.functions.size, U (.function g)) : e.Bound U n := by
  have hname : ∀ name m, Visit.use scopes name m ∈ vs →
      Binding.Fits U .variableName (n.expr m.id).binding := by
    intro name m hmem
    obtain ⟨hsees, hfault, hbound⟩ := hvs _ hmem
    rw [show (n.expr m.id).binding = _ from hbound]
    exact Surroundings.All.fits hsees (isSome_of_unreported hfault)
  refine All.imp h fun m shape _ _ hown kind hk => ?_
  cases shape with
  | name c | assign c i v | element c i =>
    cases hk
    exact hname c m (hown _ (by simp [Shape.ownVisit]))
  | call c args =>
    cases hk
    obtain ⟨-, hfault, hbound⟩ := hvs _ (hown (.call c m) (by simp [Shape.ownVisit]))
    rw [Visit.fault?, ← Option.isSome_map (f := Binding.function)] at hfault
    have hfound := isSome_of_unreported hfault
    rw [Option.isSome_map] at hfound
    obtain ⟨g, hg⟩ := Option.isSome_iff_exists.mp hfound
    rw [show (n.expr m.id).binding = _ from hbound, hg]
    exact ⟨.function g, rfl, rfl, hU g (Array.findIdx?_eq_some_iff_getElem.mp hg).1⟩
  | binary | grouping | literal | unary | braces | random => cases hk

theorem Stmt.Visited.bound {s : Stmt Mark} (h : s.Visited vs)
    (hvs : ∀ v ∈ vs, v.Sees U ∧ v.fault? t = none ∧ v.Bound t n)
    (hU : ∀ g < t.functions.size, U (.function g)) : s.Bound U n := by
  refine All.imp h fun m shape _ hown => ⟨fun e he => ?_, fun kind hk => ?_⟩
  · obtain ⟨scopes, hvisited⟩ := hown.2 e he
    exact hvisited.bound hvs hU
  · obtain ⟨here, outer, hmem⟩ := hown.1
    cases shape with
    | input c =>
      cases hk
      obtain ⟨hsees, hfault, hbound⟩ := hvs (.input (here :: outer) c m) (hmem _ (by
        simp [Shape.ownVisit]))
      rw [show (n.stmt m.id).binding = _ from hbound]
      exact Surroundings.All.fits hsees (isSome_of_unreported hfault)
    | block | ret | expression | choice | whileLoop | forLoop | output | var | array | stop
    | skip =>
      cases hk

end Fits

/-- If no name error is found in an orderly program, its names are resolved. -/
theorem resolve_named (ht : t.Orderly) (hn : n.Covers t)
    (h : (Program.resolve ⟨t, n, .empty⟩).2 = []) :
    (∀ v ∈ t.views, t.Named (Program.resolve ⟨t, n, .empty⟩).1.notes v.1 v.2) ∧
      (Program.resolve ⟨t, n, .empty⟩).1.notes.Covers t ∧
      ∀ id, ((Program.resolve ⟨t, n, .empty⟩).1.notes.stmt id).parent = (n.stmt id).parent := by
  obtain ⟨framed, covers, parents⟩ := resolve_framed ht hn
  obtain ⟨hnotes, herrors⟩ := resolve_empty ht n
  rw [herrors, List.filterMap_eq_nil_iff] at h
  refine ⟨fun v hv => ⟨framed v hv, ?_⟩, covers, parents⟩
  obtain ⟨_, body⟩ := Naming.body_meets v.1 (ht.held v hv) 0
  have hparams : Surroundings.All (t.Usable v.1 v.2) [v.2.declared v.1] := by
    intro here hhere d hd
    obtain rfl := List.mem_singleton.mp hhere
    obtain ⟨p, hp, rfl⟩ := List.mem_map.mp hd
    exact ⟨rfl, rfl, by simpa using List.snd_lt_of_mem_zipIdx hp⟩
  obtain ⟨hsees, -⟩ := body.seen (t.Usable v.1 v.2) hparams fun m hm hc => ⟨⟨m, hm, rfl⟩, hc⟩
  have visited : v.2.body.Visited (v.2.bodyVisits v.1) :=
    v.2.body.visited_of_subset true _ _ (List.Subset.refl _)
  refine visited.bound (fun x hx => ?_) fun g hg => hg
  have hfault : x.fault? t = none := h x (List.mem_append_right _
    (List.mem_flatMap.mpr ⟨v, hv, List.mem_append_right _ hx⟩))
  exact ⟨hsees x hx, hfault, bound_of_bodyVisits ht hn hnotes hv hx (.inl hfault)⟩

end StackLang
