import StackLang.Proofs.Program.Notes

/-!
# Edits

An analysis edits notes: what becomes of a note depends on that note alone.  An edit that overwrites
some entries and leaves the others does nothing when it is made again.

* `Edit` — what becomes of every note, and `Edit.all` what becomes of it by one edit after another.
* `Edit.Names` — an edit of bindings and places; `Edit.Types` — one of types, loops and returns.
* `Edit.Names.again`, `Edit.Types.again` — making such an edit again changes nothing.
* `Notes.unscoped` — the notes without the scopes.
-/

namespace StackLang

/-- What becomes of each note. -/
structure Edit where
  expr : ExprId → ExprNote → ExprNote
  stmt : StmtId → StmtNote → StmtNote
  function : FunctionId → FunctionNote → FunctionNote

namespace Edit

variable {α : Type} {cleared : List FunctionId}

/-- The notes behind the edit. -/
def apply (d : Edit) (n : Notes) : Notes where
  functions := n.functions.mapIdx d.function
  stmts := n.stmts.mapIdx d.stmt
  exprs := n.exprs.mapIdx d.expr

/-- Nothing is edited. -/
def none : Edit :=
  ⟨fun _ x => x, fun _ x => x, fun _ x => x⟩

/-- First `d`, then `d'`. -/
def andThen (d d' : Edit) : Edit where
  expr id := d'.expr id ∘ d.expr id
  stmt id := d'.stmt id ∘ d.stmt id
  function id := d'.function id ∘ d.function id

/-- One edit after another. -/
def all (ds : List Edit) : Edit :=
  ds.foldr andThen none

/-- One expression is edited. -/
def onExpr (id : ExprId) (f : ExprNote → ExprNote) : Edit :=
  { none with expr := fun j x => if j = id then f x else x }

/-- One statement is edited. -/
def onStmt (id : StmtId) (f : StmtNote → StmtNote) : Edit :=
  { none with stmt := fun j x => if j = id then f x else x }

/-- One function is edited. -/
def onFunction (id : FunctionId) (f : FunctionNote → FunctionNote) : Edit :=
  { none with function := fun j x => if j = id then f x else x }

variable {d d' : Edit} {n : Notes}

theorem all_append (ds ds' : List Edit) : all (ds ++ ds') = (all ds).andThen (all ds') := by
  induction ds with
  | nil => rfl
  | cons d ds ih =>
    rw [List.cons_append, all, List.foldr_cons, ← all, ih]
    rfl

@[simp] theorem size_exprs_apply : (d.apply n).exprs.size = n.exprs.size := by
  simp [apply]

@[simp] theorem size_stmts_apply : (d.apply n).stmts.size = n.stmts.size := by
  simp [apply]

@[simp] theorem size_functions_apply : (d.apply n).functions.size = n.functions.size := by
  simp [apply]

theorem mapIdx_self (as : Array α) : as.mapIdx (fun _ x => x) = as := by
  refine Array.ext_getElem? fun i => ?_
  rw [Array.getElem?_mapIdx, Option.map_id']

theorem mapIdx_at (as : Array α) (id : Nat) (f : α → α) :
    as.mapIdx (fun j x => if j = id then f x else x) = as.modify id f := by
  refine Array.ext_getElem? fun i => ?_
  rw [Array.getElem?_mapIdx, Array.getElem?_modify]
  by_cases hi : id = i
  · simp [hi]
  · have hne : i ≠ id := fun h => hi h.symm
    simp [hi, hne]

@[simp] theorem apply_none (n : Notes) : none.apply n = n := by
  simp only [apply, none, mapIdx_self]

@[simp] theorem apply_andThen (d d' : Edit) (n : Notes) :
    (d.andThen d').apply n = d'.apply (d.apply n) := by
  simp only [apply, andThen, Array.mapIdx_mapIdx]

theorem apply_onExpr (id : ExprId) (f : ExprNote → ExprNote) (n : Notes) :
    (onExpr id f).apply n = n.modifyExpr id f := by
  simp only [apply, onExpr, none, mapIdx_self, mapIdx_at, Notes.modifyExpr]

theorem apply_onStmt (id : StmtId) (f : StmtNote → StmtNote) (n : Notes) :
    (onStmt id f).apply n = n.modifyStmt id f := by
  simp only [apply, onStmt, none, mapIdx_self, mapIdx_at, Notes.modifyStmt]

theorem apply_onFunction (id : FunctionId) (f : FunctionNote → FunctionNote) (n : Notes) :
    (onFunction id f).apply n = n.modifyFunction id f := by
  simp only [apply, onFunction, none, mapIdx_self, mapIdx_at, Notes.modifyFunction]

theorem getD_mapIdx (as : Array α) (f : Nat → α → α) (i : Nat) (x : α) :
    (as.mapIdx f).getD i x = if i < as.size then f i (as.getD i x) else x := by
  rw [Array.getD_eq_getD_getElem?, Array.getElem?_mapIdx, Array.getD_eq_getD_getElem?]
  by_cases hi : i < as.size <;> simp [hi]

theorem expr_apply (id : ExprId) :
    (d.apply n).expr id = if id < n.exprs.size then d.expr id (n.expr id) else {} :=
  getD_mapIdx n.exprs d.expr id {}

theorem stmt_apply (id : StmtId) :
    (d.apply n).stmt id = if id < n.stmts.size then d.stmt id (n.stmt id) else {} :=
  getD_mapIdx n.stmts d.stmt id {}

theorem function_apply (id : FunctionId) :
    (d.apply n).function id =
      if id < n.functions.size then d.function id (n.function id) else {} :=
  getD_mapIdx n.functions d.function id {}

/-- Two edits do the same if they do the same to every note. -/
theorem apply_congr (he : ∀ id x, d.expr id x = d'.expr id x)
    (hs : ∀ id x, d.stmt id x = d'.stmt id x)
    (hf : ∀ id < n.functions.size, ∀ x, d.function id x = d'.function id x) :
    d.apply n = d'.apply n := by
  have hexpr : d.expr = d'.expr := funext fun id => funext (he id)
  have hstmt : d.stmt = d'.stmt := funext fun id => funext (hs id)
  have hfunction : n.functions.mapIdx d.function = n.functions.mapIdx d'.function := by
    refine Array.ext (by simp) fun i hi _ => ?_
    rw [Array.getElem_mapIdx, Array.getElem_mapIdx, hf i (by simpa using hi)]
  rw [apply, apply, hexpr, hstmt, hfunction]

/-! ## Types -/

/-- Some types and loops are overwritten, and return statements are added, to no others if the
function is listed. -/
structure Types (d : Edit) (cleared : List FunctionId) : Prop where
  expr : ∀ id, ∃ T : Option (Option ValueType), ∀ x, d.expr id x = { x with type := T.getD x.type }
  stmt : ∀ id, ∃ l : Option StmtId, ∀ x, d.stmt id x = { x with target := l.or x.target }
  function : ∀ id, ∃ (keeps : Bool) (added : List StmtId), (id ∈ cleared → keeps = false) ∧
    ∀ x, d.function id x = { x with returns := (if keeps then x.returns else []) ++ added }

theorem Types.none : Types none [] where
  expr _ := ⟨.none, fun _ => rfl⟩
  stmt _ := ⟨.none, fun _ => rfl⟩
  function _ := ⟨true, [], by simp, fun x => by simp [Edit.none]⟩

theorem Types.andThen {cleared' : List FunctionId} (h : d.Types cleared) (h' : d'.Types cleared') :
    (d.andThen d').Types (cleared ++ cleared') where
  expr id := by
    obtain ⟨T, hT⟩ := h.expr id
    obtain ⟨T', hT'⟩ := h'.expr id
    refine ⟨T'.or T, fun x => ?_⟩
    simp only [Edit.andThen, Function.comp_apply, hT, hT', Option.getD_or]
  stmt id := by
    obtain ⟨l, hl⟩ := h.stmt id
    obtain ⟨l', hl'⟩ := h'.stmt id
    refine ⟨l'.or l, fun x => ?_⟩
    simp only [Edit.andThen, Function.comp_apply, hl, hl', Option.or_assoc]
  function id := by
    obtain ⟨keeps, added, hkeeps, hadded⟩ := h.function id
    obtain ⟨keeps', added', hkeeps', hadded'⟩ := h'.function id
    refine ⟨keeps && keeps', (if keeps' then added else []) ++ added', fun hid => ?_, fun x => ?_⟩
    · rcases List.mem_append.mp hid with hid | hid
      · rw [hkeeps hid, Bool.false_and]
      · rw [hkeeps' hid, Bool.and_false]
    · simp only [Edit.andThen, Function.comp_apply, hadded, hadded']
      cases keeps <;> cases keeps' <;> simp

theorem Types.onExpr (id : ExprId) (type : Option ValueType) :
    (onExpr id ({ · with type := type })).Types [] :=
  { Types.none with
    expr := fun j => by
      by_cases hj : j = id
      · exact ⟨some type, fun x => by simp [Edit.onExpr, hj]⟩
      · exact ⟨.none, fun x => by simp [Edit.onExpr, hj]⟩ }

theorem Types.onStmt (id target : StmtId) :
    (onStmt id ({ · with target := some target })).Types [] :=
  { Types.none with
    stmt := fun j => by
      by_cases hj : j = id
      · exact ⟨some target, fun x => by simp [Edit.onStmt, hj]⟩
      · exact ⟨.none, fun x => by simp [Edit.onStmt, hj]⟩ }

/-- A return statement is added. -/
theorem Types.addReturn (id : FunctionId) (s : StmtId) :
    (onFunction id fun x => { x with returns := x.returns ++ [s] }).Types [] :=
  { Types.none with
    function := fun j => by
      by_cases hj : j = id
      · exact ⟨true, [s], by simp, fun x => by simp [Edit.onFunction, hj]⟩
      · exact ⟨true, [], by simp, fun x => by simp [Edit.onFunction, hj]⟩ }

/-- The return statements of a function are forgotten. -/
theorem Types.clearReturns (id : FunctionId) :
    (onFunction id ({ · with returns := [] })).Types [id] :=
  { Types.none with
    function := fun j => by
      by_cases hj : j = id
      · exact ⟨false, [], by simp, fun x => by simp [Edit.onFunction, hj]⟩
      · exact ⟨true, [], by simp [hj], fun x => by simp [Edit.onFunction, hj]⟩ }

/-- If the returns of every function are collected anew, doing it again changes nothing. -/
theorem Types.again (h : d.Types cleared) (hc : ∀ id < n.functions.size, id ∈ cleared) :
    d.apply (d.apply n) = d.apply n := by
  rw [← apply_andThen]
  refine apply_congr (fun id x => ?_) (fun id x => ?_) fun id hid x => ?_
  · obtain ⟨T, hT⟩ := h.expr id
    simp only [Edit.andThen, Function.comp_apply, hT]
    cases T <;> rfl
  · obtain ⟨l, hl⟩ := h.stmt id
    simp only [Edit.andThen, Function.comp_apply, hl]
    cases l <;> rfl
  · obtain ⟨keeps, added, hkeeps, hadded⟩ := h.function id
    simp only [Edit.andThen, Function.comp_apply, hadded, hkeeps (hc id hid)]
    simp

/-! ## Names -/

/-- Some bindings and places are overwritten. -/
structure Names (d : Edit) : Prop where
  expr : ∀ id, ∃ B : Option (Option Binding), ∀ x, d.expr id x =
    { x with binding := B.getD x.binding }
  stmt : ∀ id, ∃ (B : Option (Option Binding)) (k : Option (Option Int)), ∀ x, d.stmt id x =
    { x with binding := B.getD x.binding, slot := k.getD x.slot }
  function : ∀ id, ∃ (ks : Option (List Int)) (k : Option Int), ∀ x, d.function id x =
    { x with slots := ks.getD x.slots, frameSlots := k.getD x.frameSlots }

theorem Names.none : Names none where
  expr _ := ⟨.none, fun _ => rfl⟩
  stmt _ := ⟨.none, .none, fun _ => rfl⟩
  function _ := ⟨.none, .none, fun _ => rfl⟩

theorem Names.andThen (h : d.Names) (h' : d'.Names) : (d.andThen d').Names where
  expr id := by
    obtain ⟨B, hB⟩ := h.expr id
    obtain ⟨B', hB'⟩ := h'.expr id
    refine ⟨B'.or B, fun x => ?_⟩
    simp only [Edit.andThen, Function.comp_apply, hB, hB', Option.getD_or]
  stmt id := by
    obtain ⟨B, k, h⟩ := h.stmt id
    obtain ⟨B', k', h'⟩ := h'.stmt id
    refine ⟨B'.or B, k'.or k, fun x => ?_⟩
    simp only [Edit.andThen, Function.comp_apply, h, h', Option.getD_or]
  function id := by
    obtain ⟨ks, k, h⟩ := h.function id
    obtain ⟨ks', k', h'⟩ := h'.function id
    refine ⟨ks'.or ks, k'.or k, fun x => ?_⟩
    simp only [Edit.andThen, Function.comp_apply, h, h', Option.getD_or]

theorem Names.all {ds : List Edit} (h : ∀ d ∈ ds, d.Names) : (all ds).Names := by
  induction ds with
  | nil => exact .none
  | cons d ds ih =>
    rw [List.forall_mem_cons] at h
    exact h.1.andThen (ih h.2)

theorem Names.exists_stmt_apply (h : d.Names) (n : Notes) (id : StmtId) :
    ∃ b k, (d.apply n).stmt id = { n.stmt id with binding := b, slot := k } := by
  obtain ⟨B, k, hB⟩ := h.stmt id
  rw [stmt_apply, hB]
  split
  · exact ⟨_, _, rfl⟩
  · rename_i hid
    exact ⟨.none, .none, by rw [Notes.stmt_of_le (Nat.le_of_not_lt hid)]⟩

theorem Names.onExpr (id : ExprId) (b : Option Binding) :
    (onExpr id ({ · with binding := b })).Names :=
  { Names.none with
    expr := fun j => by
      by_cases hj : j = id
      · exact ⟨some b, fun x => by simp [Edit.onExpr, hj]⟩
      · exact ⟨.none, fun x => by simp [Edit.onExpr, hj]⟩ }

theorem Names.onStmt (id : StmtId) (B : Option (Option Binding)) (k : Option (Option Int)) :
    (onStmt id fun x => { x with binding := B.getD x.binding, slot := k.getD x.slot }).Names :=
  { Names.none with
    stmt := fun j => by
      by_cases hj : j = id
      · exact ⟨B, k, fun x => by simp [Edit.onStmt, hj]⟩
      · exact ⟨.none, .none, fun x => by simp [Edit.onStmt, hj]⟩ }

theorem Names.onFunction (id : FunctionId) (ks : Option (List Int)) (k : Option Int) :
    (onFunction id fun x =>
      { x with slots := ks.getD x.slots, frameSlots := k.getD x.frameSlots }).Names :=
  { Names.none with
    function := fun j => by
      by_cases hj : j = id
      · exact ⟨ks, k, fun x => by simp [Edit.onFunction, hj]⟩
      · exact ⟨.none, .none, fun x => by simp [Edit.onFunction, hj]⟩ }

/-- Overwriting names and places again changes nothing, also if types have been noted in between. -/
theorem Names.again (h : d.Names) (h' : d'.Types cleared) (n : Notes) :
    d.apply (d'.apply (d.apply n)) = d'.apply (d.apply n) := by
  simp only [← apply_andThen]
  refine apply_congr (fun id x => ?_) (fun id x => ?_) fun id _ x => ?_
  · obtain ⟨B, hB⟩ := h.expr id
    obtain ⟨T, hT⟩ := h'.expr id
    simp only [Edit.andThen, Function.comp_apply, hB, hT]
    cases B <;> rfl
  · obtain ⟨B, k, hB⟩ := h.stmt id
    obtain ⟨l, hl⟩ := h'.stmt id
    simp only [Edit.andThen, Function.comp_apply, hB, hl]
    cases B <;> cases k <;> rfl
  · obtain ⟨ks, k, hk⟩ := h.function id
    obtain ⟨keeps, added, -, hadded⟩ := h'.function id
    simp only [Edit.andThen, Function.comp_apply, hk, hadded]
    cases ks <;> cases k <;> rfl

end Edit

/-! ## Scopes -/

/-- The notes without the scopes. -/
def Notes.unscoped (n : Notes) : Notes where
  functions := n.functions.map ({ · with scope := none })
  stmts := n.stmts.map ({ · with scope := none })
  exprs := n.exprs.map ({ · with scope := none })

namespace Notes

variable {n : Notes} {d d' : Edit}

@[simp] theorem size_exprs_unscoped : n.unscoped.exprs.size = n.exprs.size := by
  simp [unscoped]

@[simp] theorem size_stmts_unscoped : n.unscoped.stmts.size = n.stmts.size := by
  simp [unscoped]

@[simp] theorem size_functions_unscoped : n.unscoped.functions.size = n.functions.size := by
  simp [unscoped]

theorem unscoped_unscoped : n.unscoped.unscoped = n.unscoped := by
  simp only [unscoped, Array.map_map]
  rfl

theorem getD_map {α : Type} (as : Array α) (f : α → α) (i : Nat) {x : α} (hx : f x = x) :
    (as.map f).getD i x = f (as.getD i x) := by
  rw [Array.getD_eq_getD_getElem?, Array.getElem?_map, Array.getD_eq_getD_getElem?]
  cases as[i]? with
  | none => exact hx.symm
  | some a => rfl

theorem expr_unscoped (id : ExprId) : n.unscoped.expr id = { n.expr id with scope := none } :=
  getD_map n.exprs ({ · with scope := none }) id rfl

theorem stmt_unscoped (id : StmtId) : n.unscoped.stmt id = { n.stmt id with scope := none } :=
  getD_map n.stmts ({ · with scope := none }) id rfl

theorem function_unscoped (id : FunctionId) :
    n.unscoped.function id = { n.function id with scope := none } :=
  getD_map n.functions ({ · with scope := none }) id rfl

theorem map_mapIdx {α : Type} (as : Array α) {f : α → α} {g g' : Nat → α → α}
    (h : ∀ i x, f (g i x) = g' i (f x)) : (as.mapIdx g).map f = (as.map f).mapIdx g' := by
  refine Array.ext_getElem? fun i => ?_
  simp only [Array.getElem?_map, Array.getElem?_mapIdx, Option.map_map, Function.comp_def, h]

/-- Without the scopes, the edit `d` comes to the edit `d'`. -/
theorem unscoped_apply (he : ∀ id x, { d.expr id x with scope := none } =
      d'.expr id { x with scope := none })
    (hs : ∀ id x, { d.stmt id x with scope := none } = d'.stmt id { x with scope := none })
    (hf : ∀ id x, { d.function id x with scope := none } =
      d'.function id { x with scope := none }) :
    (d.apply n).unscoped = d'.apply n.unscoped := by
  rw [Edit.apply, unscoped, map_mapIdx _ hf, map_mapIdx _ hs, map_mapIdx _ he]
  rfl

/-- Which scope a node stands in does not count. -/
theorem unscoped_modifyExpr (n : Notes) (id : ExprId) (c : ScopeId) :
    (n.modifyExpr id ({ · with scope := some c })).unscoped = n.unscoped := by
  rw [← Edit.apply_onExpr, ← Edit.apply_none n.unscoped]
  refine unscoped_apply (fun j x => ?_) (fun _ _ => rfl) fun _ _ => rfl
  by_cases hid : j = id <;> simp [Edit.onExpr, Edit.none, hid]

theorem unscoped_modifyStmt (n : Notes) (id : StmtId) (c : ScopeId) :
    (n.modifyStmt id ({ · with scope := some c })).unscoped = n.unscoped := by
  rw [← Edit.apply_onStmt, ← Edit.apply_none n.unscoped]
  refine unscoped_apply (fun _ _ => rfl) (fun j x => ?_) fun _ _ => rfl
  by_cases hid : j = id <;> simp [Edit.onStmt, Edit.none, hid]

theorem unscoped_apply_of_types {cleared : List FunctionId} (h : d.Types cleared) :
    (d.apply n).unscoped = d.apply n.unscoped := by
  refine unscoped_apply (fun id x => ?_) (fun id x => ?_) fun id x => ?_
  · obtain ⟨T, hT⟩ := h.expr id
    simp only [hT]
  · obtain ⟨l, hl⟩ := h.stmt id
    simp only [hl]
  · obtain ⟨keeps, added, -, hadded⟩ := h.function id
    simp only [hadded]

theorem unscoped_apply_of_names (h : d.Names) : (d.apply n).unscoped = d.apply n.unscoped := by
  refine unscoped_apply (fun id x => ?_) (fun id x => ?_) fun id x => ?_
  · obtain ⟨B, hB⟩ := h.expr id
    simp only [hB]
  · obtain ⟨B, k, hk⟩ := h.stmt id
    simp only [hk]
  · obtain ⟨ks, k, hk⟩ := h.function id
    simp only [hk]

end Notes

end StackLang
