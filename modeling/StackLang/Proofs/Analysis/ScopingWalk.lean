import StackLang.Proofs.Analysis.Scopes
import StackLang.Proofs.Program.Edits

/-!
# The walk follows the scoping rules

At every step of the walk the scopes that are open show what can be seen there.  So what a step
notes and reports is told by the uses and declarations it visits, by the number of cells taken
before, and by nothing else: notes are never read, and the numbers of the scopes do not matter.

* `Visit.edit` — what is noted at a visit.
* `Naming.Meets` — a step that makes the edits and reports the errors of some visits.
* `Naming.expr_meets`, `Naming.stmt_meets` — so do the steps for a single expression or statement.
* `Naming.functions_edited` — what the walk through all functions notes and reports.
-/

namespace StackLang

variable {U : Binding → Prop}

/-! ## What is noted -/

/-- All declarations that can be seen are variables that satisfy `U`. -/
def Surroundings.All (U : Binding → Prop) (scopes : Surroundings) : Prop :=
  ∀ here ∈ scopes, ∀ d ∈ here, d.binding.kind = .variableName ∧ U d.binding

theorem Surroundings.all_cons {here : List Declaration} {outer : Surroundings} :
    Surroundings.All U (here :: outer) ↔
      (∀ d ∈ here, d.binding.kind = .variableName ∧ U d.binding) ∧ outer.All U := by
  rw [All, List.forall_mem_cons, All]

theorem Surroundings.All.fits {scopes : Surroundings} (h : scopes.All U) {name : String}
    (hname : (scopes.find? name).isSome = true) :
    Binding.Fits U .variableName (scopes.find? name) := by
  obtain ⟨b, hb⟩ := Option.isSome_iff_exists.mp hname
  obtain ⟨here, hhere, hfirst⟩ := List.exists_of_findSome?_eq_some hb
  obtain ⟨d, hd, rfl⟩ := Option.map_eq_some_iff.mp hfirst
  exact ⟨d.binding, hb, h here hhere d (List.mem_of_find?_eq_some hd)⟩

/-- Both edits do the same at a site. -/
def Edit.AgreesAt (d d' : Edit) : Visit.Site → Prop
  | .expr id => d.expr id = d'.expr id
  | .stmt id => d.stmt id = d'.stmt id

theorem Edit.AgreesAt.andThen {d₁ d₁' d₂ d₂' : Edit} {s : Visit.Site} (h : d₁.AgreesAt d₁' s)
    (h' : d₂.AgreesAt d₂' s) : (d₁.andThen d₂).AgreesAt (d₁'.andThen d₂') s := by
  cases s <;> simp only [AgreesAt, Edit.andThen] at * <;> rw [h, h']

namespace Visit

variable {t : Tree} {k : Int} {vs ws : List Visit} {v : Visit} {ps : List (Int × Visit)}
  {s : Site}

/-- The number of cells that a declaration takes. -/
def cells (t : Tree) : Visit → Nat
  | declaration _ ⟨_, .localVar s⟩ => (t.cells? s).getD 0
  | _ => 0

/-- The number of cells that the declarations among the visits take. -/
def taken (t : Tree) (vs : List Visit) : Nat :=
  (vs.map (cells t)).sum

/-- The visits, each with the number of cells taken before, which is `k` at the beginning. -/
def placed (t : Tree) : Int → List Visit → List (Int × Visit)
  | _, [] => []
  | k, v :: vs => (k, v) :: placed t (k + v.cells t) vs

/-- An expression is bound to what is found, and left as it is if there is nothing. -/
def bindTo (id : ExprId) (found : Option Binding) : Edit :=
  found.elim .none fun b => .onExpr id ({ · with binding := some b })

/-- What is noted at a visit when `k` cells are taken. -/
def edit (t : Tree) (k : Int) : Visit → Edit
  | use scopes name m => bindTo m.id (scopes.find? name.lexeme)
  | call name m => bindTo m.id ((t.findFunction? name.lexeme).map .function)
  | input scopes name m => .onStmt m.id ({ · with binding := scopes.find? name.lexeme })
  | declaration _ ⟨_, .localVar s⟩ => .onStmt s ({ · with slot := some k })
  | declaration _ _ => .none

/-- What is noted at the visits. -/
def edits (t : Tree) (ps : List (Int × Visit)) : Edit :=
  .all (ps.map fun p => p.2.edit t p.1)

/-- A local declaration has the place `k`. -/
def HasSlot (n : Notes) (k : Int) : Visit → Prop
  | declaration _ ⟨_, .localVar s⟩ => (n.stmt s).slot = some k
  | _ => True

/-- The variables that a use can see satisfy `U`. -/
def Sees (U : Binding → Prop) : Visit → Prop
  | use scopes _ _ | input scopes _ _ => scopes.All U
  | _ => True

theorem taken_append (vs ws : List Visit) : taken t (vs ++ ws) = taken t vs + taken t ws := by
  rw [taken, List.map_append, List.sum_append]
  rfl

theorem placed_append (vs ws : List Visit) : ∀ k,
    placed t k (vs ++ ws) = placed t k vs ++ placed t (k + taken t vs) ws := by
  induction vs with
  | nil =>
    exact fun k => by rw [taken, List.map_nil, List.sum_nil, Int.natCast_zero, Int.add_zero]; rfl
  | cons v vs ih =>
    intro k
    have hsum : k + v.cells t + taken t vs = k + taken t (v :: vs) := by
      rw [taken, taken, List.map_cons, List.sum_cons]
      omega
    rw [List.cons_append, placed, ih, hsum]
    rfl

theorem map_snd_placed (vs : List Visit) : ∀ k, (placed t k vs).map Prod.snd = vs := by
  induction vs with
  | nil => exact fun _ => rfl
  | cons v vs ih => exact fun k => by rw [placed, List.map_cons, ih]

theorem edits_append (ps qs : List (Int × Visit)) :
    edits t (ps ++ qs) = (edits t ps).andThen (edits t qs) := by
  rw [edits, List.map_append, Edit.all_append]
  rfl

theorem names_bindTo (id : ExprId) (found : Option Binding) : (bindTo id found).Names := by
  cases found with
  | none => exact .none
  | some b => exact .onExpr id (some b)

theorem names_edit (v : Visit) : (v.edit t k).Names := by
  cases v with
  | use scopes name m | call name m => exact names_bindTo ..
  | input scopes name m => exact .onStmt m.id (some (scopes.find? name.lexeme)) none
  | declaration earlier d =>
    obtain ⟨name, b⟩ := d
    cases b with
    | localVar s => exact .onStmt s none (some (some k))
    | param | function => exact .none

theorem names_edits (ps : List (Int × Visit)) : (edits t ps).Names := by
  refine .all fun d hd => ?_
  obtain ⟨p, -, rfl⟩ := List.mem_map.mp hd
  exact p.2.names_edit

/-- Nothing is noted elsewhere. -/
theorem edit_agreesAt_none (h : v.site? ≠ some s) : (v.edit t k).AgreesAt .none s := by
  have hexpr : ∀ {i id : Nat} (f : ExprNote → ExprNote), Site.expr i ≠ .expr id →
      (Edit.onExpr i f).expr id = Edit.none.expr id := fun f hne => funext fun x =>
    if_neg fun h => hne (congrArg Site.expr h.symm)
  have hstmt : ∀ {i id : Nat} (f : StmtNote → StmtNote), Site.stmt i ≠ .stmt id →
      (Edit.onStmt i f).stmt id = Edit.none.stmt id := fun f hne => funext fun x =>
    if_neg fun h => hne (congrArg Site.stmt h.symm)
  have hbind : ∀ (i : ExprId) found, Site.expr i ≠ s → (bindTo i found).AgreesAt .none s := by
    intro i found hne
    cases found <;> cases s with
    | expr id => first | rfl | exact hexpr _ hne
    | stmt id => rfl
  cases v with
  | use scopes name m | call name m => exact hbind _ _ fun hs => h (congrArg some hs)
  | input scopes name m =>
    cases s with
    | expr id => rfl
    | stmt id => exact hstmt _ fun hs => h (congrArg some hs)
  | declaration earlier d =>
    obtain ⟨name, b⟩ := d
    cases b with
    | localVar i =>
      cases s with
      | expr id => rfl
      | stmt id => exact hstmt _ fun hs => h (congrArg some hs)
    | param | function => cases s <;> rfl

theorem edits_agreesAt_none (h : s ∉ (ps.map Prod.snd).filterMap site?) :
    (edits t ps).AgreesAt .none s := by
  induction ps with
  | nil => cases s <;> rfl
  | cons p ps ih =>
    simp only [List.mem_filterMap, List.mem_map, not_exists, not_and] at h ih
    refine Edit.AgreesAt.andThen (edit_agreesAt_none fun hs => ?_) (ih fun v hv hs => ?_)
    · exact h p.2 ⟨p, by simp, rfl⟩ hs
    · obtain ⟨q, hq, rfl⟩ := hv
      exact h q.2 ⟨q, by simp [hq], rfl⟩ hs

/-- Where no site is visited twice, each has what its visit notes. -/
theorem edits_agreesAt (h : ((ps.map Prod.snd).filterMap site?).Nodup) {p : Int × Visit}
    (hp : p ∈ ps) (hs : p.2.site? = some s) : (edits t ps).AgreesAt (p.2.edit t p.1) s := by
  obtain ⟨as, bs, rfl⟩ := List.append_of_mem hp
  rw [List.map_append, List.map_cons, List.filterMap_append, List.filterMap_cons_some hs,
    List.nodup_append, List.nodup_cons] at h
  rw [edits_append]
  exact Edit.AgreesAt.andThen (edits_agreesAt_none fun hmem => h.2.2 s hmem s (by simp) rfl)
    (Edit.AgreesAt.andThen (by cases s <;> rfl) (edits_agreesAt_none h.2.1.1))

end Visit

/-! ## Steps of the walk -/

namespace Naming

open Visit (taken placed edits)

variable {α : Type} {t : Tree} {scope : ScopeId} {scopes scopes₁ scopes₂ outer : Surroundings}
  {here : List Declaration} {st st₁ st₂ : State} {k k₁ k₂ : Int} {d d₁ d₂ : Edit}
  {errs errs₁ errs₂ : List NameError} {name : Token} {found : Option Binding}
  {s : Option (Stmt Mark)} {m : Mark} {kind : NameKind} {b : Binding}

/-- From `st` to `st'` the notes have been edited by `d`, apart from scopes, the errors `errs` have
been reported, `k` cells are taken, and `scope` shows `scopes`. -/
structure Edited (t : Tree) (scope : ScopeId) (scopes : Surroundings) (k : Int) (d : Edit)
    (errs : List NameError) (st st' : State) : Prop where
  notes : st'.notes.unscoped = d.apply st.notes.unscoped
  errors : st'.errors = st.errors ++ errs
  nextSlot : st'.nextSlot = k
  shows : st'.scopes.Shows t scope scopes
  parents : ∀ i : Nat, i < st.scopes.size →
    st'.scopes.scopes[i]?.map Scope.parent = st.scopes.scopes[i]?.map Scope.parent

theorem Edited.trans (h : Edited t scope scopes₁ k₁ d₁ errs₁ st st₁)
    (h' : Edited t scope scopes₂ k₂ d₂ errs₂ st₁ st₂) :
    Edited t scope scopes₂ k₂ (d₁.andThen d₂) (errs₁ ++ errs₂) st st₂ where
  notes := by rw [h'.notes, h.notes, Edit.apply_andThen]
  errors := by rw [h'.errors, h.errors, List.append_assoc]
  nextSlot := h'.nextSlot
  shows := h'.shows
  parents i hi := by
    have hsize := ScopeGraph.size_le_of_parents h.parents
    exact (h'.parents i (Nat.lt_of_lt_of_le hi hsize)).trans (h.parents i hi)

/-- A step that only takes notes and cells. -/
theorem Edited.note (h : st.scopes.Shows t scope scopes) {n : Notes}
    (hn : n.unscoped = d.apply st.notes.unscoped) (k : Int) :
    Edited t scope scopes k d [] st { st with notes := n, nextSlot := k } :=
  ⟨hn, (List.append_nil _).symm, rfl, h, fun _ _ => rfl⟩

/-- A step in a scope opened for it. -/
theorem Edited.enter (h : Edited t st.scopes.size (here :: scopes) k d errs
      ⟨st.notes, (st.scopes.push scope).2, st.nextSlot, st.errors⟩ st₁) :
    Edited t scope scopes k d errs st st₁ := by
  have hnew : (st.scopes.push scope).2.scopes[st.scopes.size]?.map Scope.parent =
      some (some scope) := by
    simp [ScopeGraph.push, ScopeGraph.size]
  refine ⟨h.notes, h.errors, h.nextSlot, h.shows.outer_of_parent ?_, fun i hi => ?_⟩
  · rw [← hnew]
    exact h.parents st.scopes.size (by simp)
  · rw [← ScopeGraph.getElem?_push_of_lt hi]
    exact h.parents i (by simp only [ScopeGraph.size_push]; omega)

/-- The nodes with the given marks. -/
def sites (es ms : List Mark) : List Visit.Site :=
  es.map (.expr ·.id) ++ ms.map (.stmt ·.id)

theorem sites_append (es₁ es₂ ms₁ ms₂ : List Mark) :
    (sites es₁ ms₁ ++ sites es₂ ms₂).Perm (sites (es₁ ++ es₂) (ms₁ ++ ms₂)) := by
  simp only [sites, List.map_append, List.append_assoc]
  refine List.Perm.append_left _ ?_
  simp only [← List.append_assoc]
  exact List.Perm.append_right _ List.perm_append_comm

theorem subperm_append {α : Type} {as bs cs ds : List α} (h : as.Subperm cs) (h' : bs.Subperm ds) :
    (as ++ bs).Subperm (cs ++ ds) :=
  ((List.subperm_append_right bs).mpr h).trans ((List.subperm_append_left cs).mpr h')

variable {vs vs₁ vs₂ : List Visit} {es es₁ es₂ ms ms₁ ms₂ : List Mark}

/-- The step, in a scope that shows `scopes`, makes the edits and reports the errors of the visits
`vs`, each at another one of the given marks, and then the scope shows `scopes'`.  The declarations
among the visits are those at the marks `ms`, in their order. -/
structure Meets (t : Tree) (scope : ScopeId) (x : Naming α) (scopes scopes' : Surroundings)
    (vs : List Visit) (es ms : List Mark) : Prop where
  sites : (vs.filterMap Visit.site?).Subperm (sites es ms)
  cells : taken t vs = t.cells ms
  slots : ∀ (n : Notes) k, (∀ p ∈ placed t k vs, p.2.HasSlot n p.1) → t.Slotted n k ms
  seen : ∀ U, scopes.All U → (∀ m ∈ ms, (t.cells? m.id).isSome = true → U (.localVar m.id)) →
    (∀ v ∈ vs, v.Sees U) ∧ scopes'.All U
  run : ∀ st, st.scopes.Shows t scope scopes →
    Edited t scope scopes' (st.nextSlot + taken t vs) (edits t (placed t st.nextSlot vs))
      (vs.filterMap (Visit.fault? t)) st (x.run st).2

variable {x : Naming α} {y : Naming Unit}

theorem Meets.nil : Meets t scope (Pure.pure ()) scopes scopes [] [] [] where
  sites := .refl _
  cells := rfl
  slots _ _ _ := trivial
  seen _ h _ := ⟨by simp, h⟩
  run st hst := ⟨(Edit.apply_none _).symm, (List.append_nil _).symm, (Int.add_zero _).symm, hst,
    fun _ _ => rfl⟩

/-- One step after another. -/
theorem Meets.seq (hx : Meets t scope x scopes scopes₁ vs₁ es₁ ms₁)
    (hy : Meets t scope y scopes₁ scopes₂ vs₂ es₂ ms₂) :
    Meets t scope (x >>= fun _ => y) scopes scopes₂ (vs₁ ++ vs₂) (es₁ ++ es₂) (ms₁ ++ ms₂) where
  sites := by
    rw [List.filterMap_append]
    exact (subperm_append hx.sites hy.sites).trans (sites_append es₁ es₂ ms₁ ms₂).subperm
  cells := by rw [Visit.taken_append, hx.cells, hy.cells, Tree.cells_append]
  slots n k h := by
    rw [Visit.placed_append, hx.cells] at h
    exact Tree.slotted_append.mpr ⟨hx.slots n k fun p hp => h p (List.mem_append_left _ hp),
      hy.slots n _ fun p hp => h p (List.mem_append_right _ hp)⟩
  seen U h hm := by
    obtain ⟨hv₁, h₁⟩ := hx.seen U h fun m hmem => hm m (List.mem_append_left _ hmem)
    obtain ⟨hv₂, h₂⟩ := hy.seen U h₁ fun m hmem => hm m (List.mem_append_right _ hmem)
    exact ⟨fun v hv => (List.mem_append.mp hv).elim (hv₁ v) (hv₂ v), h₂⟩
  run st hst := by
    have first := hx.run st hst
    have second := hy.run _ first.shows
    rw [first.nextSlot] at second
    rw [Visit.taken_append, Int.natCast_add, ← Int.add_assoc, Visit.placed_append,
      Visit.edits_append, List.filterMap_append]
    exact first.trans second

/-- The marks of expressions may come in another order, and there may be more of them. -/
theorem Meets.mono (hx : Meets t scope x scopes scopes₁ vs es ms) (he : es.Subperm es₁) :
    Meets t scope x scopes scopes₁ vs es₁ ms := by
  obtain ⟨as, hperm, hsub⟩ := he
  exact { hx with sites := hx.sites.trans (subperm_append ⟨_, hperm.map _, hsub.map _⟩ (.refl _)) }

/-- A statement that declares nothing may be added. -/
theorem Meets.mark (hx : Meets t scope x scopes scopes₁ vs es ms) (hm : t.cells? m.id = none) :
    Meets t scope x scopes scopes₁ vs es (ms ++ [m]) where
  sites := hx.sites.trans (subperm_append (.refl _)
    (List.Sublist.map _ (List.sublist_append_left ms [m])).subperm)
  cells := by rw [hx.cells, Tree.cells_append, Tree.cells_singleton, hm]; rfl
  slots n k h := Tree.slotted_append.mpr ⟨hx.slots n k h, by simp [hm], trivial⟩
  seen U h hU := hx.seen U h fun u hu => hU u (List.mem_append_left _ hu)
  run := hx.run

/-- Parts are met in a scope opened for them. -/
theorem Meets.enter {f : ScopeId → Naming Unit}
    (hf : ∀ c, ∃ here, Meets t c (f c) ([] :: scopes) (here :: scopes) vs es ms) :
    Meets t scope (Naming.enter scope >>= f) scopes scopes vs es ms := by
  obtain ⟨_, h⟩ := hf 0
  refine ⟨h.sites, h.cells, h.slots, fun U hU hm => ?_, fun st hst => ?_⟩
  · exact ⟨(h.seen U (Surroundings.all_cons.mpr ⟨by simp, hU⟩) hm).1, hU⟩
  · obtain ⟨here, h⟩ := hf st.scopes.size
    exact .enter (h.run ⟨st.notes, (st.scopes.push scope).2, st.nextSlot, st.errors⟩ hst.push)

/-- A note of the scopes alone may be taken first. -/
theorem Meets.note {x : Naming Unit} (hy : Meets t scope y scopes scopes₁ vs es ms)
    (hx : ∀ st, ∃ n, x.run st = ((), { st with notes := n }) ∧ n.unscoped = st.notes.unscoped) :
    Meets t scope (x >>= fun _ => y) scopes scopes₁ vs es ms := by
  refine { hy with run := fun st hst => ?_ }
  obtain ⟨n, hrun, hn⟩ := hx st
  have first : Edited t scope scopes st.nextSlot .none [] st { st with notes := n } :=
    .note hst (hn.trans (Edit.apply_none _).symm) _
  rw [StateT.run_bind, hrun]
  exact first.trans (hy.run _ first.shows)

/-! ## Uses and declarations -/

theorem faults_cons (v : Visit) (vs : List Visit) : (v :: vs).filterMap (Visit.fault? t) =
    (v.fault? t).toList ++ vs.filterMap (Visit.fault? t) := by
  cases h : v.fault? t <;> simp [h]

/-- A single visit is met. -/
theorem Meets.single {v : Visit} (hsite : v.site?.toList.Subperm (Naming.sites es ms))
    (hcells : v.cells t = t.cells ms) (hslots : ∀ n k, v.HasSlot n k → t.Slotted n k ms)
    (hseen : ∀ U, scopes.All U → (∀ m ∈ ms, (t.cells? m.id).isSome = true → U (.localVar m.id)) →
      v.Sees U ∧ scopes₁.All U)
    (hrun : ∀ st, st.scopes.Shows t scope scopes → Edited t scope scopes₁ (st.nextSlot + v.cells t)
      (v.edit t st.nextSlot) (v.fault? t).toList st (x.run st).2) :
    Meets t scope x scopes scopes₁ [v] es ms where
  sites := by
    rw [show [v].filterMap Visit.site? = v.site?.toList by cases h : v.site? <;> simp [h]]
    exact hsite
  cells := hcells
  slots n k h := hslots n k (h (k, v) (by simp [placed]))
  seen U h hm := by
    obtain ⟨hv, h₁⟩ := hseen U h hm
    exact ⟨by simpa using hv, h₁⟩
  run st hst := by
    rw [faults_cons, List.filterMap_nil, List.append_nil]
    exact hrun st hst

/-- What a look-up finds and reports. -/
theorem run_lookup_of_resolve (h : st.scopes.resolve scope name.lexeme kind = found) :
    (lookup scope name kind).run st = (found, { st with errors := st.errors ++
      (if found.isSome then none else some (.notFound kind name.lexeme name.line)).toList }) := by
  subst h
  simp only [lookup, StateT.run_bind, StateT.run_get, pure_bind]
  cases st.scopes.resolve scope name.lexeme kind with
  | none => rfl
  | some b =>
    simp only [Option.isSome_some, ↓reduceIte, Option.toList_none, List.append_nil]
    rfl

/-- A use is bound to what a look-up finds. -/
theorem bindUse_edited (h : st.scopes.Shows t scope scopes)
    (hfound : st.scopes.resolve scope name.lexeme kind = found) (m : Mark) :
    Edited t scope scopes st.nextSlot (Visit.bindTo m.id found)
      (if found.isSome then none else some (.notFound kind name.lexeme name.line)).toList st
      ((bindUse scope m name kind).run st).2 := by
  rw [bindUse, StateT.run_bind, run_lookup_of_resolve hfound]
  cases found with
  | none => exact ⟨(Edit.apply_none _).symm, rfl, rfl, h, fun _ _ => rfl⟩
  | some b =>
    refine ⟨?_, rfl, rfl, h, fun _ _ => rfl⟩
    show (st.notes.modifyExpr m.id _).unscoped = _
    rw [← Edit.apply_onExpr]
    exact Notes.unscoped_apply_of_names (.onExpr m.id (some b))

theorem bindVariable_meets (m : Mark) (name : Token) :
    Meets t scope (bindUse scope m name .variableName) scopes scopes [.use scopes name m]
      [m] [] := by
  refine .single (.refl _) rfl (fun _ _ _ => trivial) (fun U h _ => ⟨h, h⟩) fun st hst => ?_
  have bound := bindUse_edited hst (hst.resolve_variable name.lexeme) m
  exact { bound with nextSlot := bound.nextSlot.trans (Int.add_zero _).symm }

theorem bindFunction_meets (m : Mark) (name : Token) :
    Meets t scope (bindUse scope m name .functionName) scopes scopes [.call name m] [m] [] := by
  refine .single (.refl _) rfl (fun _ _ _ => trivial) (fun U h _ => ⟨trivial, h⟩) fun st hst => ?_
  have bound := bindUse_edited hst (hst.resolve_function name.lexeme) m
  rw [Option.isSome_map] at bound
  exact { bound with nextSlot := bound.nextSlot.trans (Int.add_zero _).symm }

/-- Input is read into what a look-up finds. -/
theorem input_meets (hm : t.cells? m.id = none) (name : Token) :
    Meets t scope (do
        let found ← lookup scope name .variableName
        Naming.noteStmt m ({ · with binding := found })) scopes scopes [.input scopes name m] []
      [m] := by
  refine .single (.refl _) (by simp [Visit.cells, Tree.cells_singleton, hm])
    (fun _ _ _ => ⟨by simp [hm], trivial⟩) (fun U h _ => ⟨h, h⟩) fun st hst => ?_
  rw [StateT.run_bind, run_lookup_of_resolve (hst.resolve_variable name.lexeme)]
  refine ⟨?_, rfl, (Int.add_zero _).symm, hst, fun _ _ => rfl⟩
  show (st.notes.modifyStmt m.id _).unscoped = _
  rw [← Edit.apply_onStmt]
  exact Notes.unscoped_apply_of_names (.onStmt m.id (some (scopes.find? name.lexeme)) none)

/-- A declaration is reported if the scope holds one of the name already. -/
theorem run_declare_of_first?
    (h : (st.scopes.declare scope name.lexeme b).1 = Declaration.first? here name.lexeme) :
    (declare scope name b).run st = ((), { st with
      scopes := (st.scopes.declare scope name.lexeme b).2
      errors := st.errors ++ ((Visit.declaration here ⟨name, b⟩).fault? t).toList }) := by
  have hsame : ∀ c, (st.scopes.declare scope name.lexeme b).1 = some c →
      (st.scopes.declare scope name.lexeme b).2 = st.scopes :=
        fun _ => ScopeGraph.declare_snd_of_some
  simp only [declare, StateT.run_bind, StateT.run_get, pure_bind, Visit.fault?]
  generalize st.scopes.declare scope name.lexeme b = result at *
  obtain ⟨existing, scopes⟩ := result
  simp only at h hsame
  rw [← h]
  cases existing with
  | none =>
    simp only [Option.isSome_none, Bool.false_eq_true, ↓reduceIte, Option.toList_none,
      List.append_nil]
    rfl
  | some c =>
    rw [hsame c rfl]
    rfl

/-- A declaration is added to its scope, or it is a duplicate. -/
theorem declare_edited (h : st.scopes.Shows t scope (here :: outer)) (name : Token)
    (hb : b.kind = .variableName) :
    Edited t scope ((here ++ [⟨name, b⟩]) :: outer) st.nextSlot .none
      ((Visit.declaration here ⟨name, b⟩).fault? t).toList st
      ((declare scope name b).run st).2 := by
  obtain ⟨hfst, hsnd⟩ := h.declare ⟨name, b⟩ hb
  rw [run_declare_of_first? (t := t) hfst]
  exact ⟨(Edit.apply_none _).symm, rfl, rfl, hsnd, fun i _ => st.scopes.map_parent_declare i⟩

theorem declareLocal_meets {c : Nat} (hm : t.cells? m.id = some c) (name : Token) :
    Meets t scope (declareLocal scope m name c) (here :: outer)
      ((here ++ [⟨name, .localVar m.id⟩]) :: outer) [.declaration here ⟨name, .localVar m.id⟩]
      [] [m] := by
  refine .single (.refl _) (by rw [Tree.cells_singleton]; rfl)
    (fun n k h => ⟨fun _ _ => h, trivial⟩) (fun U h hU => ⟨trivial, ?_⟩) fun st hst => ?_
  · rw [Surroundings.all_cons] at h ⊢
    refine ⟨fun d hd => ?_, h.2⟩
    rcases List.mem_append.mp hd with hd | hd
    · exact h.1 d hd
    · obtain rfl := List.mem_singleton.mp hd
      exact ⟨rfl, hU m (by simp) (by rw [hm]; rfl)⟩
  · have first := declare_edited hst name (b := .localVar m.id) rfl
    have last := Edited.note first.shows (d := .onStmt m.id ({ · with slot := some st.nextSlot }))
      (n := ((declare scope name (.localVar m.id)).run st).2.notes.modifyStmt m.id
        ({ · with slot := some ((declare scope name (.localVar m.id)).run st).2.nextSlot })) (by
          rw [← Edit.apply_onStmt, first.nextSlot]
          exact Notes.unscoped_apply_of_names (.onStmt m.id none (some (some st.nextSlot))))
      (((declare scope name (.localVar m.id)).run st).2.nextSlot + c)
    have both := first.trans last
    rw [List.append_nil] at both
    refine { both with nextSlot := both.nextSlot.trans ?_ }
    rw [first.nextSlot, Visit.cells, hm]
    rfl

/-! ## Expressions -/

theorem exprs_meets {as : List (Expr Mark)}
    (h : ∀ e ∈ as, Meets t scope (expr scope e) scopes scopes (e.visits scopes) e.tags []) :
    Meets t scope (exprs scope as) scopes scopes (Expr.visitsAll scopes as)
      (as.flatMap Expr.tags) [] := by
  induction as with
  | nil =>
    rw [exprs]
    exact .nil
  | cons e as ih =>
    rw [List.forall_mem_cons] at h
    rw [exprs]
    exact h.1.seq (ih h.2)

/-- The uses in an expression are met. -/
theorem expr_meets (e : Expr Mark) :
    Meets t scope (expr scope e) scopes scopes (e.visits scopes) e.tags [] := by
  induction e using Expr.induction with
  | step m shape ih =>
    -- A node that uses no name is done with its children, and a use is bound behind them.
    have plain : ∀ {x : Naming Unit} {vs : List Visit} {es : List Mark},
        Meets t scope x scopes scopes vs es [] → es.Perm (shape.children.flatMap Expr.tags) →
        Meets t scope (Naming.noteExpr m ({ · with scope := some scope }) >>= fun _ => x) scopes
          scopes (vs ++ []) (Expr.node m shape).tags [] := by
      intro x vs es hx hp
      rw [Expr.tags_node, List.append_nil]
      refine (hx.mono (hp.subperm.trans ?_)).note fun st =>
        ⟨_, rfl, st.notes.unscoped_modifyExpr m.id scope⟩
      exact (List.sublist_append_left _ _).subperm
    have bound : ∀ {x y : Naming Unit} {vs vs' : List Visit} {es : List Mark},
        Meets t scope x scopes scopes vs es [] → es.Perm (shape.children.flatMap Expr.tags) →
        Meets t scope y scopes scopes vs' [m] [] →
        Meets t scope (Naming.noteExpr m ({ · with scope := some scope }) >>= fun _ =>
          x >>= fun _ => y) scopes scopes (vs ++ vs') (Expr.node m shape).tags [] := by
      intro x y vs vs' es hx hp hy
      rw [Expr.tags_node]
      exact ((hx.mono hp.subperm).seq hy).note fun st =>
        ⟨_, rfl, st.notes.unscoped_modifyExpr m.id scope⟩
    cases shape with
    | binary l op r =>
      rw [expr, Expr.visits]
      exact plain ((ih l (by simp)).seq (ih r (by simp))) (by simp)
    | grouping e =>
      rw [expr, Expr.visits]
      exact plain (ih e (by simp)) (by simp)
    | literal v =>
      rw [expr, Expr.visits]
      exact plain .nil (by simp)
    | unary op e trailing =>
      rw [expr, Expr.visits]
      exact plain (ih e (by simp)) (by simp)
    | name c =>
      rw [expr, Expr.visits]
      exact bound (x := Pure.pure ()) .nil (by simp) (bindVariable_meets m c)
    | assign c i v =>
      cases i with
      | none =>
        rw [expr, Expr.visits]
        exact bound (ih v (by simp)) (by simp) (bindVariable_meets m c)
      | some i =>
        have inner := (ih v (by simp)).seq (ih i (by simp))
        rw [expr, Expr.visits]
        exact bound (x := expr scope v >>= fun _ => expr scope i) inner
          (by simpa [Expr.Shape.children] using List.perm_append_comm) (bindVariable_meets m c)
    | call c args =>
      rw [expr, Expr.visits]
      exact bound (exprs_meets ih) (by simp) (bindFunction_meets m c)
    | element c i =>
      rw [expr, Expr.visits]
      exact bound (ih i (by simp)) (by simp) (bindVariable_meets m c)
    | braces es =>
      rw [expr, Expr.visits]
      exact plain (exprs_meets ih) (by simp)
    | random k e =>
      rw [expr, Expr.visits]
      exact plain (ih e (by simp)) (by simp)

/-! ## Statements -/

theorem optionalExpr_meets (e : Option (Expr Mark)) :
    Meets t scope (optionalExpr scope e) scopes scopes (Expr.visitsAll scopes e.toList)
      (Stmt.exprTagsOf e.toList) [] :=
  exprs_meets fun e _ => expr_meets e

/-- The uses and declarations in the statement are met, in whatever scope it stands. -/
def MeetsStmt (t : Tree) (s : Stmt Mark) : Prop :=
  ∀ isBody scope here outer, ∃ here', (isBody = false → here' = here ++ s.declared) ∧
    Meets t scope (stmt isBody scope s) (here :: outer) (here' :: outer)
      (s.visits isBody here outer) s.exprTags s.tags

/-- The body of something is met in a scope of its own. -/
theorem MeetsStmt.body {s : Stmt Mark} (h : MeetsStmt t s) :
    Meets t scope (Naming.enter scope >>= fun c => stmt true c s) scopes scopes
      (s.visits true [] scopes) s.exprTags s.tags := by
  refine .enter fun c => ?_
  obtain ⟨here, -, hs⟩ := h true c [] scopes
  exact ⟨here, hs⟩

theorem stmts_meets {ss : List (Stmt Mark)} (h : ∀ s ∈ ss, MeetsStmt t s) : ∀ here,
    Meets t scope (stmts scope ss) (here :: outer) ((here ++ ss.flatMap Stmt.declared) :: outer)
      (Stmt.visitsAll here outer ss) (Stmt.exprTagsList ss) (ss.flatMap Stmt.tags) := by
  induction ss with
  | nil =>
    intro here
    rw [stmts, List.flatMap_nil, List.append_nil]
    exact .nil
  | cons s ss ih =>
    intro here
    rw [List.forall_mem_cons] at h
    obtain ⟨here', hhere, hs⟩ := h.1 false scope here outer
    obtain rfl := hhere rfl
    have rest := ih h.2 (here ++ s.declared)
    rw [List.append_assoc] at rest
    rw [stmts]
    exact hs.seq rest

theorem arms_meets {bs : List (Expr Mark × Stmt Mark)} (h : ∀ b ∈ bs, MeetsStmt t b.2) :
    Meets t scope (arms scope bs) scopes scopes (Stmt.visitsArms scopes bs)
      (Stmt.exprTagsBranches bs) ((bs.map Prod.snd).flatMap Stmt.tags) := by
  induction bs with
  | nil =>
    rw [arms]
    exact .nil
  | cons b bs ih =>
    rw [List.forall_mem_cons] at h
    have all := ((expr_meets b.1).seq h.1.body).seq (ih h.2)
    rw [arms]
    exact all

theorem elseArm_meets (h : ∀ a ∈ s.toList, MeetsStmt t a) :
    Meets t scope (elseArm scope s) scopes scopes (Stmt.visitsOption true scopes s)
      (Stmt.exprTagsOption s) (s.toList.flatMap Stmt.tags) := by
  cases s with
  | none =>
    rw [elseArm]
    exact .nil
  | some s =>
    rw [elseArm, Option.toList, List.flatMap_singleton]
    exact (h s (by simp)).body

/-- The beginning of a counting loop declares something in the header. -/
theorem optionalStmt_meets (h : ∀ a ∈ s.toList, MeetsStmt t a) :
    Meets t scope (optionalStmt scope s) ([] :: outer) (s.toList.flatMap Stmt.declared :: outer)
      (Stmt.visitsOption false outer s) (Stmt.exprTagsOption s) (s.toList.flatMap Stmt.tags) := by
  cases s with
  | none =>
    rw [optionalStmt]
    exact .nil
  | some s =>
    obtain ⟨here', hhere, hs⟩ := h s (by simp) false scope [] outer
    obtain rfl := hhere rfl
    rw [optionalStmt, Option.toList, List.flatMap_singleton, List.flatMap_singleton]
    exact hs

/-- The uses and declarations in a statement are met. -/
theorem stmt_meets (s : Stmt Mark) (h : s.Held t) : MeetsStmt t s := by
  induction s using Stmt.induction with
  | step m shape ih =>
    intro isBody scope here outer
    have ih := fun s hs => ih s hs (h.child s hs)
    have hc := Tree.cells?_of_held h
    -- A note that does not bind anything comes first, and the mark of the node is one more.
    have plain : ∀ {x : Naming Unit} {vs : List Visit} {here' : List Declaration}
        {ms : List Mark},
        Meets t scope x (here :: outer) (here' :: outer) vs (Stmt.node m shape).exprTags ms →
        ms = shape.children.flatMap Stmt.tags → shape.ownVisit here outer m = [] →
        shape.cells? = none →
        Meets t scope (Naming.noteStmt m ({ · with scope := some scope }) >>= fun _ => x)
          (here :: outer) (here' :: outer) (vs ++ shape.ownVisit here outer m)
          (Stmt.node m shape).exprTags (Stmt.node m shape).tags := by
      rintro x vs here' ms hx rfl hown hcells
      rw [hown, List.append_nil, Stmt.tags_node]
      exact (hx.mark (hc.trans hcells)).note fun st =>
        ⟨_, rfl, st.notes.unscoped_modifyStmt m.id scope⟩
    cases shape with
    | block body =>
      rw [stmt, Stmt.visits]
      cases isBody with
      | true => exact ⟨_, by simp, plain (stmts_meets ih here) rfl rfl rfl⟩
      | false =>
        refine ⟨here, by simp [Stmt.declared], plain (.enter fun c => ?_) rfl rfl rfl⟩
        exact ⟨_, stmts_meets ih []⟩
    | ret k v =>
      rw [stmt, Stmt.visits]
      exact ⟨here, by simp [Stmt.declared], plain (optionalExpr_meets v) rfl rfl rfl⟩
    | expression e =>
      rw [stmt, Stmt.visits]
      exact ⟨here, by simp [Stmt.declared], plain (expr_meets e) rfl rfl rfl⟩
    | choice branches otherwise =>
      have tried : Meets t scope (arms scope branches) (here :: outer) (here :: outer) _ _ _ :=
        arms_meets fun b hmem => ih b.2 (List.mem_append_left _ (List.mem_map_of_mem hmem))
      have last := tried.seq (elseArm_meets fun s hmem => ih s (List.mem_append_right _ hmem))
      rw [stmt, Stmt.visits]
      refine ⟨here, by simp [Stmt.declared], plain last ?_ rfl rfl⟩
      rw [Stmt.Shape.children, List.flatMap_append]
    | whileLoop c body =>
      have inner := ih body (by simp)
      rw [stmt, Stmt.visits]
      exact ⟨here, by simp [Stmt.declared],
        plain ((expr_meets c).seq inner.body) (by simp) rfl rfl⟩
    | forLoop init c u body =>
      have inner := ih body (List.mem_append_right _ (by simp))
      have all : ∀ header, Meets t header (do
          optionalStmt header init
          optionalExpr header c
          optionalExpr header u
          stmt true (← Naming.enter header) body) ([] :: here :: outer)
          (init.toList.flatMap Stmt.declared :: here :: outer) _ _ _ := fun header =>
        (optionalStmt_meets fun s hmem => ih s (List.mem_append_left _ hmem)).seq
          ((optionalExpr_meets c).seq ((optionalExpr_meets u).seq inner.body))
      simp only [← List.append_assoc] at all
      rw [stmt, Stmt.visits]
      refine ⟨here, by simp [Stmt.declared], plain (.enter fun header => ⟨_, all header⟩) ?_
        rfl rfl⟩
      simp
    | output k values =>
      rw [stmt, Stmt.visits]
      exact ⟨here, by simp [Stmt.declared],
        plain (exprs_meets fun e _ => expr_meets e) rfl rfl rfl⟩
    | input name =>
      rw [stmt, Stmt.visits]
      exact ⟨here, by simp [Stmt.declared], (input_meets hc name).note fun st =>
        ⟨_, rfl, st.notes.unscoped_modifyStmt m.id scope⟩⟩
    | var name type init | array name type length init =>
      rw [stmt, Stmt.visits]
      have value : Meets t scope (optionalExpr scope init) (here :: outer) (here :: outer) _ _ _ :=
        optionalExpr_meets init
      have both := value.seq (declareLocal_meets hc name)
      rw [List.append_nil] at both
      exact ⟨_, fun _ => rfl, both.note fun st =>
        ⟨_, rfl, st.notes.unscoped_modifyStmt m.id scope⟩⟩
    | stop k | skip k =>
      rw [stmt, Stmt.visits]
      exact ⟨here, by simp [Stmt.declared], plain .nil rfl rfl rfl⟩

/-! ## Functions -/

/-- The parameters of a function are declared. -/
theorem params_edited (id : FunctionId) (ps : List Param) : ∀ index here st,
    st.scopes.Shows t scope (here :: outer) →
    Edited t scope ((here ++ (ps.zipIdx index).map fun p => ⟨p.1.name, .param id p.2⟩) :: outer)
      st.nextSlot .none ((Declaration.visits here
        ((ps.zipIdx index).map fun p => ⟨p.1.name, .param id p.2⟩)).filterMap (Visit.fault? t))
      st ((params scope id index ps).run st).2 := by
  induction ps with
  | nil =>
    intro index here st hst
    rw [params, List.zipIdx_nil, List.map_nil, List.append_nil]
    exact ⟨(Edit.apply_none _).symm, (List.append_nil _).symm, rfl, hst, fun _ _ => rfl⟩
  | cons p ps ih =>
    intro index here st hst
    have first := declare_edited hst p.name (b := .param id index) rfl
    have rest := ih (index + 1) (here ++ [⟨p.name, .param id index⟩]) _ first.shows
    rw [List.append_assoc, first.nextSlot] at rest
    rw [params, List.zipIdx_cons, List.map_cons, Declaration.visits, faults_cons]
    exact first.trans rest

end Naming

/-- The uses and declarations in the body of a function. -/
def Function.bodyVisits (id : FunctionId) (f : Function (Stmt Mark)) : List Visit :=
  f.body.visits true (f.declared id) []

/-- What is noted in a function: the places of the parameters, what there is in the body, and the
number of cells. -/
def Function.edit (t : Tree) (id : FunctionId) (f : Function (Stmt Mark)) : Edit :=
  (Edit.onFunction id ({ · with
    slots := (List.range f.params.length).map (paramSlot · f.params.length) })).andThen
  ((Visit.edits t (Visit.placed t 0 (f.bodyVisits id))).andThen
  (.onFunction id ({ · with frameSlots := Visit.taken t (f.bodyVisits id) })))

namespace Naming

variable {f : Function (Stmt Mark)}

/-- What is met in the body of a function, in the scope that holds the parameters. -/
theorem body_meets (id : FunctionId) (h : f.body.Held t) (scope : ScopeId) :
    ∃ here, Meets t scope (stmt true scope f.body) [f.declared id] [here]
      (f.bodyVisits id) f.body.exprTags f.body.tags := by
  obtain ⟨here, -, body⟩ := stmt_meets f.body h true scope (f.declared id) []
  exact ⟨here, body⟩

/-- The parameters have got their places, and the body begins. -/
theorem startBody_edited (h : st.scopes.Shows t scope scopes) (id : FunctionId) (ks : List Int) :
    Edited t scope scopes 0 (.onFunction id ({ · with slots := ks })) [] st
      ((do
        noteFunction id ({ · with slots := ks })
        modify fun s => { s with nextSlot := 0 } : Naming Unit).run st).2 := by
  refine .note h (n := st.notes.modifyFunction id _) ?_ 0
  rw [← Edit.apply_onFunction]
  exact Notes.unscoped_apply_of_names (.onFunction id (some ks) none)

/-- The body has ended, and all cells are taken. -/
theorem endBody_edited (h : st.scopes.Shows t scope scopes) (hk : st.nextSlot = k)
    (id : FunctionId) (c : ScopeId) :
    Edited t scope scopes k (.onFunction id ({ · with frameSlots := k })) [] st
      ((do
        let slots := (← get).nextSlot
        noteFunction id ({ · with scope := some c, frameSlots := slots }) :
          Naming Unit).run st).2 := by
  subst hk
  refine .note h (n := st.notes.modifyFunction id _) ?_ _
  rw [← Edit.apply_onFunction]
  refine Notes.unscoped_apply (fun _ _ => rfl) (fun _ _ => rfl) fun j x => ?_
  by_cases hj : j = id <;> simp [Edit.onFunction, hj]

/-- A function is walked. -/
theorem function_edited (id : FunctionId) (h : f.body.Held t)
    (hst : st.scopes.Shows t ScopeGraph.root []) :
    ∃ k, Edited t ScopeGraph.root [] k (f.edit t id) ((f.visits id).filterMap (Visit.fault? t)) st
      ((function id f).run st).2 := by
  obtain ⟨here, body⟩ := body_meets id h st.scopes.size
  have first := params_edited id f.params 0 []
    ⟨st.notes, (st.scopes.push ScopeGraph.root).2, st.nextSlot, st.errors⟩ hst.push
  have start := startBody_edited first.shows id
    ((List.range f.params.length).map (paramSlot · f.params.length))
  have walked := body.run _ start.shows
  rw [start.nextSlot, Int.zero_add] at walked
  have last := endBody_edited walked.shows walked.nextSlot id st.scopes.size
  have all := first.trans (start.trans (walked.trans last))
  rw [List.append_nil, List.nil_append, ← List.filterMap_append] at all
  exact ⟨_, .enter all⟩

/-- The functions are walked one after the other. -/
theorem functions_edited (fs : List (FunctionId × Function (Stmt Mark))) : ∀ st,
    (∀ v ∈ fs, v.2.body.Held t) → st.scopes.Shows t ScopeGraph.root [] →
    ∃ k, Edited t ScopeGraph.root [] k (.all (fs.map fun v => v.2.edit t v.1))
      ((fs.flatMap fun v => v.2.visits v.1).filterMap (Visit.fault? t)) st
      ((functions fs).run st).2 := by
  induction fs with
  | nil =>
    intro st _ hst
    rw [functions]
    exact ⟨_, (Edit.apply_none _).symm, (List.append_nil _).symm, rfl, hst, fun _ _ => rfl⟩
  | cons v fs ih =>
    intro st h hst
    rw [List.forall_mem_cons] at h
    obtain ⟨k₁, first⟩ := function_edited v.1 h.1 hst
    obtain ⟨k₂, rest⟩ := ih _ h.2 first.shows
    rw [functions, List.flatMap_cons, List.filterMap_append]
    exact ⟨k₂, first.trans rest⟩

end Naming

end StackLang
