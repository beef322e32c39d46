import StackLang.Proofs.Code.Emission

/-!
# Generating the code of statements

The labels of a loop are known to the generator while it makes the code of the body, so those that
`break` and `continue` refer to belong to the innermost loop.

* `Generate.stmt_makes` — the code of a statement is made.
* `Generate.program_emits` — the code of any program.
* `Program.code_made` — the code of a checked program that has a `main`.
-/

namespace StackLang

variable {ms : List Mark} {p : Program}

namespace Generate

variable {c : Context} {V : Binding → Prop} {A : LabelId → Prop} {st st₁ : State} {is : List Item}
  {loop : Option StmtId} {inner : Option LoopLabels} {labels : LoopLabels} {m : Mark}
  {stop : LabelId} {e : Expr Mark}

/-! ## Expressions of statements -/

section

variable (hA : ∀ l < c.tree.functions.size, A l)

include hA

theorem store_makes (target : ValueType) (slot : Int) (e : Expr Mark) (st : State) :
    Makes (Ready c V e) A [] (store c target slot e) st fun P is => ∃ T vs,
      c.notes.typeOf e = some T ∧ e.Code c P vs ∧
        is = vs ++ Item.narrowing target T ++ [.withSlot .poke slot] := by
  unfold store
  simp (disch := decide) only [convert_eq, withSlot_eq, pure_bind]
  refine (expr_makes hA e st).seq id fun value st₁ hvalue cvalue => ?_
  refine .typeOf Ready.hasType fun T hT =>
    .pure ⟨?_, fun h P hP => ⟨T, value, hT, cvalue h P hP, rfl⟩⟩
  exact (hvalue.append .narrowing).append (.withSlot rfl rfl)

theorem elements_makes (type : ValueType) (es : List (Expr Mark)) : ∀ (slot : Int) (st : State),
      Makes (∀ e ∈ es, Ready c V e) A [] (elements c type slot es) st fun P is =>
        Expr.ElementsCode c P type slot es is := by
  induction es with
  | nil => exact fun slot st => Ends.pure ⟨.nil, fun _ _ _ => .nil⟩
  | cons e es ih =>
    intro slot st
    rw [elements]
    simp only [List.forall_mem_cons]
    refine (store_makes hA type slot e st).seq And.left fun first st₁ hfirst cfirst => ?_
    refine (ih (slot + 1) st₁).seq And.right fun rest st₂ hrest crest =>
      .pure ⟨hfirst.append hrest, ?_⟩
    intro h P hP
    obtain ⟨T, vs, hT, hvs, rfl⟩ := cfirst h P (hrest.strings_extends.trans hP)
    exact .cons hT hvs (crest h P hP)

theorem outputs_makes (es : List (Expr Mark)) : ∀ st,
    Makes (∀ e ∈ es, Ready c V e ∧ c.notes.typeOf e ≠ some .void) A [] (outputs c es) st
      fun P is => Expr.OutputsCode c P es is := by
  induction es with
  | nil => exact fun st => Ends.pure ⟨.nil, fun _ _ _ => .nil⟩
  | cons e es ih =>
    intro st
    rw [outputs]
    simp only [List.forall_mem_cons]
    refine (expr_makes hA e st).seq (fun h => h.1.1) fun value st₁ hvalue cvalue => ?_
    refine .typeOf (fun h => h.1.1.hasType) fun T hT => ?_
    cases hop : Op.printing? T with
    | none =>
      refine .fail trivial fun h => h.1.2 ?_
      cases T <;> cases hop
      exact hT
    | some op =>
      have harity : op.arity = 0 := by
        cases T <;> cases hop <;> rfl
      simp only [plain_eq harity, pure_bind]
      refine (ih st₁).seq And.right fun rest st₂ hrest crest => .pure ⟨?_, fun h P hP => ?_⟩
      · exact (hvalue.append (.plain harity)).append hrest
      · exact .cons hT hop (cvalue h P (hrest.strings_extends.trans hP)) (crest h P hP)

theorem effect_makes (e : Option (Expr Mark)) (st : State) :
    Makes (∀ a ∈ e, Ready c V a) A [] (effect c e) st fun P is => Expr.EffectCode c P e is := by
  cases e with
  | none => exact Ends.pure ⟨.nil, fun _ _ _ => .none⟩
  | some e =>
    rw [effect]
    simp (disch := decide) only [plain_eq, pure_bind]
    refine (expr_makes hA e st).seq (fun h => h e rfl) fun value st₁ hvalue cvalue => .pure ⟨?_, ?_⟩
    · exact hvalue.append (.plain rfl)
    · exact fun h P hP => .some (cvalue h P hP)

theorem guard_makes (hstop : A stop) (e : Option (Expr Mark)) (st : State) :
    Makes (∀ a ∈ e, Ready c V a) A [] (guard c stop e) st fun P is =>
      Expr.GuardCode c P stop e is := by
  cases e with
  | none => exact Ends.pure ⟨.nil, fun _ _ _ => .none⟩
  | some e =>
    rw [guard]
    simp (disch := decide) only [withLabel_eq, pure_bind]
    refine (expr_makes hA e st).seq (fun h => h e rfl) fun value st₁ hvalue cvalue => .pure ⟨?_, ?_⟩
    · exact hvalue.append (.withLabel rfl (.inl hstop))
    · exact fun h P hP => .some (cvalue h P hP)

end

/-! ## Statements -/

/-- The names, the places and the loops of the statement are in order. -/
structure Prepared (c : Context) (V : Binding → Prop) (s : Stmt Mark) : Prop where
  places : Placing c V
  bound : s.Bound V c.notes
  formed : s.Formed
  held : s.Held c.tree
  ascending : Mark.Ascending s.tags
  slots : ∀ m ∈ s.tags, (c.tree.cells? m.id).isSome = true →
    ∃ slot, (c.notes.stmt m.id).slot = some slot

/-- The statements are in order inside the given loop, whose labels are known. -/
structure Fits (c : Context) (V : Binding → Prop) (loop : Option StmtId) (inner : Option LoopLabels)
    (loops : List (StmtId × LoopLabels)) (ss : List (Stmt Mark)) : Prop where
  prepared : ∀ s ∈ ss, Prepared c V s
  typed : ∀ s ∈ ss, s.Typed c.tree c.notes c.returnType loop
  /-- The marks of a statement in a loop come before that of the loop. -/
  before : ∀ l ∈ loop, ∀ m ∈ ss.flatMap Stmt.tags, m.id < l
  inside : ∀ l ∈ loop, ∃ labels, inner = some labels ∧ loops.lookup l = some labels

section Fits

variable {m : Mark} {shape : Stmt.Shape (Stmt Mark) (Expr Mark)} {ss ts : List (Stmt Mark)}
  {loops loops' : List (StmtId × LoopLabels)}

theorem Prepared.child (h : Prepared c V (.node m shape)) : ∀ s ∈ shape.children, Prepared c V s :=
  fun s hs => {
    places := h.places
    bound := h.bound.child s hs
    formed := h.formed.child s hs
    held := h.held.child s hs
    ascending := (Stmt.ascending_child h.ascending hs).1
    slots := fun u hu => h.slots u (Stmt.mem_tags_of_child hs hu) }

theorem Prepared.ready (h : Prepared c V (.node m shape)) (he : e ∈ shape.exprs)
    (ht : e.Typed c.tree c.notes) : Ready c V e :=
  ⟨h.places, h.bound.root.1 e he, ht, h.formed.root.2 e he⟩

theorem Prepared.exists_slot (h : Prepared c V (.node m shape)) {k : Nat}
    (hk : shape.cells? = some k) : ∃ slot, (c.notes.stmt m.id).slot = some slot := by
  refine h.slots m (Stmt.mem_tags_self m shape) ?_
  rw [Tree.cells?_of_held h.held, hk]
  rfl

/-- The statements behind others, whose code has been emitted. -/
theorem Fits.next (h : Fits c V loop inner loops ss) (hms : ∀ m ∈ ms, m ∈ ss.flatMap Stmt.tags)
    (hts : ∀ s ∈ ts, s ∈ ss)
    (hkept : ∀ l, (∀ m ∈ ms, m.id ≠ l) → loops'.lookup l = loops.lookup l) :
    Fits c V loop inner loops' ts where
  prepared s hs := h.prepared s (hts s hs)
  typed s hs := h.typed s (hts s hs)
  before l hl m hm := by
    obtain ⟨s, hs, hm⟩ := List.mem_flatMap.mp hm
    exact h.before l hl m (List.mem_flatMap.mpr ⟨s, hts s hs, hm⟩)
  inside l hl := by
    rw [hkept l fun m hm => Nat.ne_of_lt (h.before l hl m (hms m hm))]
    exact h.inside l hl

theorem Fits.of_subset (h : Fits c V loop inner loops ss) (hts : ∀ s ∈ ts, s ∈ ss) :
    Fits c V loop inner loops ts :=
  h.next (List.forall_mem_nil _) hts fun _ _ => rfl

theorem Fits.root (h : Fits c V loop inner loops [.node m shape]) : Prepared c V (.node m shape) :=
  h.prepared _ (List.mem_singleton_self _)

theorem Fits.rule (h : Fits c V loop inner loops [.node m shape]) :
    (Stmt.node m shape).Typed c.tree c.notes c.returnType loop :=
  h.typed _ (List.mem_singleton_self _)

/-- The body of a loop. -/
theorem Fits.body {body : Stmt Mark} (h : Fits c V loop inner loops [.node m shape])
    (hbody : body ∈ shape.children)
    (ht : body.Typed c.tree c.notes c.returnType (some m.id))
    (hl : loops'.lookup m.id = some labels) :
    Fits c V (some m.id) (some labels) loops' [body] where
  prepared s hs := by
    obtain rfl := List.mem_singleton.mp hs
    exact h.root.child s hbody
  typed s hs := by
    obtain rfl := List.mem_singleton.mp hs
    exact ht
  before l hl u hu := by
    cases hl
    rw [List.flatMap_singleton] at hu
    have ha := h.root.ascending
    rw [Mark.Ascending, Stmt.tags_node, List.pairwise_append] at ha
    exact ha.2.2 u (List.mem_flatMap.mpr ⟨body, hbody, hu⟩) m (List.mem_singleton_self m)
  inside l hl' := by
    cases hl'
    exact ⟨labels, rfl, hl⟩

/-- The labels that a jump refers to are those of the innermost loop. -/
theorem Fits.exists_labels (h : Fits c V loop inner loops ss) {target : Option StmtId}
    (ht : ∃ l, loop = some l ∧ target = some l) :
    ∃ labels, inner = some labels ∧ target.bind (loops.lookup ·) = some labels := by
  obtain ⟨l, rfl, rfl⟩ := ht
  exact h.inside l rfl

end Fits

/-- The code of a statement is emitted, whatever may be referred to besides functions. -/
def MakesStmt (c : Context) (V : Binding → Prop) (s : Stmt Mark) : Prop :=
  ∀ A : LabelId → Prop, (∀ l < c.tree.functions.size, A l) → ∀ loop inner st,
    Makes (Fits c V loop inner st.loops [s]) A s.tags (stmt c s) st fun P is => s.Code c P inner is

theorem stmts_makes {ss : List (Stmt Mark)} (h : ∀ s ∈ ss, MakesStmt c V s)
    (hA : ∀ l < c.tree.functions.size, A l) (loop : Option StmtId) (inner : Option LoopLabels) :
    ∀ st, Makes (Fits c V loop inner st.loops ss) A (ss.flatMap Stmt.tags) (stmts c ss) st
      fun P is => Stmt.ListCode c P inner ss is := by
  induction ss with
  | nil =>
    intro st
    rw [stmts]
    exact Ends.pure ⟨.nil, fun _ _ _ => .nil⟩
  | cons s ss ih =>
    intro st
    rw [List.forall_mem_cons] at h
    rw [stmts, List.flatMap_cons]
    refine (h.1 A hA loop inner st).seq (fun hf => hf.of_subset (by simp)) ?_
    intro first st₁ hfirst cfirst
    refine (ih h.2 st₁).seq
      (fun hf => hf.next (by simp +contextual) (by simp +contextual) hfirst.kept) ?_
    intro rest st₂ hrest crest
    refine .pure ⟨hfirst.append hrest, fun hf P hP => ?_⟩
    exact .cons (cfirst hf P (hrest.strings_extends.trans hP)) (crest hf P hP)

theorem optionalStmt_makes {s : Option (Stmt Mark)} (h : ∀ x ∈ s.toList, MakesStmt c V x)
    (hA : ∀ l < c.tree.functions.size, A l) (loop : Option StmtId) (inner : Option LoopLabels)
    (st : State) :
    Makes (Fits c V loop inner st.loops s.toList) A (s.toList.flatMap Stmt.tags)
      (optionalStmt c s) st fun P is => Stmt.OptionCode c P inner s is := by
  cases s with
  | none => exact Ends.pure ⟨.nil, fun _ _ _ => .none⟩
  | some s =>
    refine (h s (by simp) A hA loop inner st).imp id (fun m hm => ?_) fun _ _ _ => .some
    rwa [Option.toList_some, List.flatMap_singleton]

theorem arms_makes {bs : List (Expr Mark × Stmt Mark)} (h : ∀ b ∈ bs, MakesStmt c V b.2)
    (hA : ∀ l < c.tree.functions.size, A l) (hstop : A stop) (loop : Option StmtId)
    (inner : Option LoopLabels) : ∀ st,
    Makes (Fits c V loop inner st.loops (bs.map Prod.snd) ∧ ∀ b ∈ bs, Ready c V b.1) A
      ((bs.map Prod.snd).flatMap Stmt.tags) (arms c stop bs) st fun P is =>
        Stmt.ArmsCode c P inner stop bs is := by
  induction bs with
  | nil =>
    intro st
    rw [arms]
    exact Ends.pure ⟨.nil, fun _ _ _ => .nil⟩
  | cons b bs ih =>
    intro st
    obtain ⟨e, body⟩ := b
    rw [List.forall_mem_cons] at h
    rw [arms, List.map_cons, List.flatMap_cons]
    simp (disch := decide) only [withLabel_eq, pure_bind, List.forall_mem_cons]
    -- the label behind the branch may be referred to in it
    have hA' : ∀ l < c.tree.functions.size, A l ∨ st.labels ≤ l ∧ l < st.labels + 1 :=
      fun l hl => .inl (hA l hl)
    refine Ends.fresh ((guard_makes (V := V) hA' (.inr (by simp)) (some e) _).seq (fun hf => ?_) ?_)
    · rintro _ ⟨⟩
      exact hf.2.1
    intro test st₁ htest ctest
    refine (h.1 _ hA' loop inner st₁).seq (fun hf => ?_) fun branch st₂ hbody cbody => ?_
    · exact hf.1.next (by simp) (by simp) htest.kept
    have hdone : Emits (fun l => A l ∨ st.labels ≤ l ∧ l < st.labels + 1) [] [] st₂
      [.withLabel .jump stop] st₂ := .withLabel rfl (.inl (.inl hstop))
    have hbranch : Emits A [] body.tags st
        (test ++ branch ++ [Item.withLabel .jump stop] ++ [Item.place st.labels]) st₂ := by
      refine (((htest.append hbody).append hdone).mono (by simp)).enclose rfl rfl
        (fun l hl => .inl hl) (fun _ _ => rfl) ?_ ?_
      · refine List.perm_iff_count.mpr fun l => ?_
        simp [List.count_cons]
        omega
      · intro op os hmem
        simpa using hmem
    refine (ih h.2 st₂).seq (fun hf => ⟨?_, hf.2.2⟩) fun rest st₃ hrest crest => ?_
    · exact hf.1.next (by simp +contextual) (by simp +contextual) hbranch.kept
    refine .pure ⟨(hbranch.append hrest).mono (by simp), fun hf P hP => ?_⟩
    have hP₂ := hrest.strings_extends.trans hP
    exact .cons (ctest hf P (hbody.strings_extends.trans hP₂)) (cbody hf P hP₂) (crest hf P hP)

/-- Inside a loop, its labels are known. -/
theorem State.Knows.of_enter {st : State} {id : StmtId} {n l : Nat}
    (h : ({ st with labels := n, loops := (id, labels) :: st.loops } : State).Knows l) :
    st.Knows l ∨ l = labels.next ∨ l = labels.stop := by
  obtain ⟨entry, hentry, hl⟩ := h
  rcases List.mem_cons.mp hentry with rfl | hentry
  · exact .inr hl
  · exact .inl ⟨entry, hentry, hl⟩

/-- A declaration or an expression does not depend on the loop around it. -/
theorem typed_of_isSimple {s : Stmt Mark} {loop' : Option StmtId} (hs : s.isSimple = true)
    (h : s.Typed c.tree c.notes c.returnType loop) :
    s.Typed c.tree c.notes c.returnType loop' := by
  obtain ⟨m, shape⟩ := s
  cases shape with
  | var n type init | array n type length init | expression e =>
    exact .node h.root fun a ha => by simp at ha
  | _ => cases hs

theorem lookup_enter {id l : StmtId} {loops : List (StmtId × LoopLabels)} (h : id ≠ l) :
    List.lookup l ((id, labels) :: loops) = loops.lookup l := by
  rw [List.lookup_cons, beq_false_of_ne h.symm]

theorem whileLoop_makes {body : Stmt Mark} (hbody : MakesStmt c V body) :
    MakesStmt c V (.node m (.whileLoop e body)) := by
  intro A hA loop inner st
  rw [stmt]
  simp (disch := decide) only [withLabel_eq, pure_bind]
  -- Inside the loop its own labels may be referred to as well.
  have hA' : ∀ l < c.tree.functions.size, A l ∨ st.labels ≤ l ∧ l < st.labels + 2 :=
    fun l hl => .inl (hA l hl)
  refine Ends.fresh (.fresh (.enterLoop ?_))
  refine (guard_makes (V := V) hA' (.inr (by simp)) (some e) _).seq (fun hf => ?_) ?_
  · rintro _ ⟨⟩
    exact hf.root.ready (by simp) hf.rule.root.typed
  intro test st₁ htest ctest
  refine (hbody _ hA' (some m.id) (some ⟨st.labels, st.labels + 1⟩) st₁).seq (fun hf => ?_) ?_
  · refine hf.body (by simp) (hf.rule.child body (by simp)) ?_
    rw [htest.kept m.id (by simp), List.lookup_cons_self]
  intro inside st₂ hbody cbody
  have hjump : Emits (fun l => A l ∨ st.labels ≤ l ∧ l < st.labels + 2) [] [] st₂
    [.withLabel .jump st.labels] st₂ := .withLabel rfl (.inl (.inr (by simp)))
  refine .pure ⟨?_, fun hf P hP =>
    .whileLoop (ctest hf P (hbody.strings_extends.trans hP)) (cbody hf P hP)⟩
  refine (((htest.append hbody).append hjump).mono fun u hu => ?_).enclose rfl rfl (fun l hl => ?_)
    (fun l hl => lookup_enter (hl m ?_)) ?_ ?_
  · rw [List.nil_append, List.append_nil] at hu
    exact Stmt.mem_tags_of_child (by simp) hu
  · rcases hl.of_enter with hl | rfl | rfl
    · exact .inl hl
    · exact .inr (by simp)
    · exact .inr (by simp)
  · exact Stmt.mem_tags_self m _
  -- Each label of the loop is placed once.
  · refine List.perm_iff_count.mpr fun l => ?_
    simp [List.range', List.count_cons]
    omega
  · intro op os hmem
    simpa using hmem

theorem forLoop_makes {init : Option (Stmt Mark)} {e update : Option (Expr Mark)}
    {body : Stmt Mark} (hinit : ∀ s ∈ init.toList, MakesStmt c V s) (hbody : MakesStmt c V body) :
    MakesStmt c V (.node m (.forLoop init e update body)) := by
  intro A hA loop inner st₀
  rw [stmt]
  simp (disch := decide) only [withLabel_eq, pure_bind]
  refine (optionalStmt_makes hinit hA none none st₀).seq (fun hf => ?_) ?_
  · refine ⟨fun s hs => hf.root.child s (List.mem_append_left _ hs),
      fun s hs => ?_, by simp, by simp⟩
    have hsimple := hf.root.formed.root.1
    have htyped := hf.rule.child s (List.mem_append_left _ hs)
    obtain rfl := Option.mem_toList.mp hs
    exact typed_of_isSimple hsimple htyped
  intro start st hstart cstart
  -- The loop begins behind its start, which does not know its labels.
  have hA' : ∀ l < c.tree.functions.size, A l ∨ st.labels ≤ l ∧ l < st.labels + 3 :=
    fun l hl => .inl (hA l hl)
  refine .fresh (.fresh (.fresh (.enterLoop ?_)))
  have hstop : st.labels ≤ st.labels + 1 + 1 ∧ st.labels + 1 + 1 < st.labels + 3 := by omega
  refine (guard_makes (V := V) hA' (.inr hstop) e _).seq (fun hf a ha => ?_)
    fun test st₁ htest ctest => ?_
  · exact hf.root.ready (by simp [Option.mem_def.mp ha]) (hf.rule.root.1 a ha).typed
  refine (hbody _ hA' (some m.id) (some ⟨st.labels + 1, st.labels + 1 + 1⟩) st₁).seq
    (fun hf => ?_) ?_
  · refine hf.body (by simp) (hf.rule.child body (by simp)) ?_
    rw [htest.kept m.id (by simp), List.lookup_cons_self]
  intro inside st₂ hbody cbody
  refine (effect_makes (V := V) hA' update st₂).seq (fun hf a ha => ?_)
    fun change st₃ hchange cchange => ?_
  · exact hf.root.ready (by simp [Option.mem_def.mp ha]) (hf.rule.root.2 a ha)
  have hjump : Emits (fun l => A l ∨ st.labels ≤ l ∧ l < st.labels + 3) [] [] st₃
    [.withLabel .jump st.labels] st₃ := .withLabel rfl (.inl (.inr (by simp)))
  have hloop : Emits A [] (Stmt.node m (.forLoop init e update body)).tags st
      ([Item.place st.labels] ++ test ++ inside ++ [Item.place (st.labels + 1)] ++ change ++
        [Item.withLabel .jump st.labels] ++ [Item.place (st.labels + 1 + 1)]) st₃ := by
    refine ((((htest.append hbody).append hchange).append hjump).mono fun u hu => ?_).enclose
      rfl rfl (fun l hl => ?_) (fun l hl => lookup_enter (hl m ?_)) ?_ ?_
    · rw [List.nil_append, List.append_nil, List.append_nil] at hu
      exact Stmt.mem_tags_of_child (by simp) hu
    · rcases hl.of_enter with hl | rfl | rfl
      · exact .inl hl
      · exact .inr (by simp)
      · exact .inr hstop
    · exact Stmt.mem_tags_self m _
    · refine List.perm_iff_count.mpr fun l => ?_
      simp [List.range', List.count_cons]
      omega
    · intro op os hmem
      simpa using hmem
  refine .pure ⟨?_, fun hf P hP => ?_⟩
  · have hall : Emits A [] (Stmt.node m (.forLoop init e update body)).tags st₀ _ st₃ :=
      (hstart.append hloop).mono (by simp +contextual [Stmt.tags_node])
    simpa using hall
  · have hP₂ := hchange.strings_extends.trans hP
    have hP₁ := hbody.strings_extends.trans hP₂
    exact .forLoop (cstart hf P (htest.strings_extends.trans hP₁)) (ctest hf P hP₁)
      (cbody hf P hP₂) (cchange hf P hP)

theorem choice_makes {branches : List (Expr Mark × Stmt Mark)} {otherwise : Option (Stmt Mark)}
    (hbranches : ∀ b ∈ branches, MakesStmt c V b.2)
    (hotherwise : ∀ s ∈ otherwise.toList, MakesStmt c V s) :
    MakesStmt c V (.node m (.choice branches otherwise)) := by
  intro A hA loop inner st
  rw [stmt]
  have hA' : ∀ l < c.tree.functions.size, A l ∨ st.labels ≤ l ∧ l < st.labels + 1 :=
    fun l hl => .inl (hA l hl)
  have hfits : Fits c V loop inner st.loops [.node m (.choice branches otherwise)] →
      Fits c V loop inner st.loops (branches.map Prod.snd ++ otherwise.toList) := fun hf => {
    prepared := hf.root.child
    typed := hf.rule.child
    before := fun l hl u hu => hf.before l hl u (by
      rw [List.flatMap_singleton, Stmt.tags_node]
      exact List.mem_append_left _ hu)
    inside := hf.inside }
  refine Ends.fresh ((arms_makes hbranches hA' (.inr (by simp)) loop inner _).seq
    (fun hf => ⟨?_, ?_⟩) ?_)
  · exact (hfits hf).of_subset fun s hs => List.mem_append_left _ hs
  · exact fun b hb => hf.root.ready (List.mem_map_of_mem hb) (hf.rule.root b hb).typed
  intro tried st₁ htried ctried
  refine (optionalStmt_makes hotherwise hA' loop inner st₁).seq (fun hf => ?_)
    fun last st₂ hlast clast => ?_
  · refine (hfits hf).next (fun u hu => ?_) (fun s hs => List.mem_append_right _ hs) htried.kept
    rw [List.flatMap_append]
    exact List.mem_append_left _ hu
  refine .pure ⟨?_, fun hf P hP =>
    .choice (ctried hf P (hlast.strings_extends.trans hP)) (clast hf P hP)⟩
  refine ((htried.append hlast).mono fun u hu => ?_).enclose rfl rfl (fun l hl => .inl hl)
    (fun _ _ => rfl) ?_ ?_
  · rw [Stmt.tags_node]
    refine List.mem_append_left _ ?_
    rwa [Stmt.Shape.children, List.flatMap_append]
  · refine List.perm_iff_count.mpr fun l => ?_
    simp [List.count_cons]
    omega
  · intro op os hmem
    simpa using hmem

/-- The code of a statement is made. -/
theorem stmt_makes (s : Stmt Mark) : MakesStmt c V s := by
  induction s using Stmt.induction with
  | step m shape ih =>
    have none_mem : ∀ u ∈ ([] : List Mark), u ∈ (Stmt.node m shape).tags := by simp
    cases shape with
    | block body =>
      intro A hA loop inner st
      rw [stmt]
      refine (stmts_makes ih hA loop inner st).imp (fun hf => ?_) (fun u hu => ?_) fun _ _ _ =>
        .block
      · exact ⟨hf.root.child, hf.rule.child, fun l hl u hu => hf.before l hl u (by
          rw [List.flatMap_singleton, Stmt.tags_node]
          exact List.mem_append_left _ hu), hf.inside⟩
      · rw [Stmt.tags_node]
        exact List.mem_append_left _ hu
    | ret k v =>
      intro A hA loop inner st
      cases v with
      | none =>
        rw [stmt, plain_eq rfl]
        exact Ends.pure ⟨(Emits.plain rfl).mono none_mem, fun _ _ _ => .retVoid⟩
      | some e =>
        rw [stmt]
        simp (disch := decide) only [convert_eq, plain_eq, pure_bind]
        have hready : Fits c V loop inner st.loops [.node m (.ret k (some e))] → Ready c V e :=
          fun hf => hf.root.ready (by simp) hf.rule.root.2.1
        refine (expr_makes hA e st).seq hready fun value st₁ hvalue cvalue => ?_
        refine .typeOf (fun hf => (hready hf).hasType) fun T hT => .pure ⟨?_, ?_⟩
        · exact ((hvalue.append .narrowing).append (.plain rfl)).mono none_mem
        · exact fun hf P hP => .ret hT (cvalue hf P hP)
    | expression e =>
      intro A hA loop inner st
      rw [stmt]
      refine (effect_makes (V := V) hA (some e) st).imp (fun hf => ?_) none_mem fun _ _ _ =>
        .expression
      rintro _ ⟨⟩
      exact hf.root.ready (by simp) hf.rule.root
    | choice branches otherwise =>
      refine choice_makes (fun b hb => ih b.2 ?_) fun s hs => ih s ?_
      · exact List.mem_append_left _ (List.mem_map.mpr ⟨b, hb, rfl⟩)
      · exact List.mem_append_right _ hs
    | whileLoop e body => exact whileLoop_makes (ih body (by simp))
    | forLoop init e update body =>
      refine forLoop_makes (fun s hs => ih s ?_) (ih body ?_)
      · exact List.mem_append_left _ hs
      · exact List.mem_append_right _ (by simp)
    | output k vs =>
      intro A hA loop inner st
      rw [stmt]
      refine (outputs_makes (V := V) hA vs st).imp (fun hf e he => ?_) none_mem fun _ _ _ => .output
      obtain ⟨T, hvoid, hT⟩ := hf.rule.root e he
      refine ⟨hf.root.ready he hT.typed, fun h => hvoid ?_⟩
      cases hT.type.symm.trans h
      rfl
    | input n =>
      intro A hA loop inner st
      rw [stmt]
      simp (disch := decide) only [withSlot_eq, pure_bind]
      refine Ends.variableAt (fun hf => ?_) fun info slot hv hs => ?_
      · obtain ⟨info, hv, -⟩ := hf.rule.root
        obtain ⟨b, hb, -, hb'⟩ := hf.root.bound.root.2 _ rfl
        obtain ⟨slot, hs⟩ : ∃ slot, info.slot = some slot := by
          rw [hb] at hv
          exact hf.root.places b info hb' hv
        exact ⟨info, slot, hv, hs⟩
      · have harity := Op.arity_reading info.type
        simp only [plain_eq harity, pure_bind]
        refine .pure ⟨?_, fun _ _ _ => .input hv hs⟩
        exact ((Emits.plain harity).append (.withSlot rfl rfl)).mono none_mem
    | var n type init =>
      intro A hA loop inner st
      cases init with
      | none =>
        rw [stmt]
        exact Ends.pure ⟨Emits.nil.mono none_mem, fun _ _ _ => .varBlank⟩
      | some e =>
        rw [stmt]
        refine Ends.slotOf (fun hf => hf.root.exists_slot rfl) fun slot hs => ?_
        refine (store_makes (V := V) hA type slot e st).imp (fun hf => ?_) none_mem ?_
        · exact hf.root.ready (by simp) (hf.rule.root e rfl).1
        · rintro _ P _ ⟨T, vs, hT, hvs, rfl⟩
          exact .var hs hT hvs
    | array n type length init =>
      intro A hA loop inner st
      cases init with
      | none =>
        rw [stmt]
        exact Ends.pure ⟨Emits.nil.mono none_mem, fun _ _ _ => .arrayBlank⟩
      | some e =>
        rw [stmt]
        refine Ends.slotOf (fun hf => hf.root.exists_slot rfl) fun slot hs => ?_
        split
        · rename_i es
          refine (elements_makes (V := V) hA type es slot st).imp (fun hf a ha => ?_) none_mem
            fun _ _ _ => .array hs
          obtain ⟨_, _, ⟨⟩, -, -, hes⟩ := hf.rule.root _ rfl
          have hb := hf.root.bound.root.1 _ (List.mem_singleton_self _)
          have hformed := hf.root.formed.root.2 _ (List.mem_singleton_self _)
          exact ⟨hf.root.places, hb.child a ha, (hes a ha).1, hformed.child a ha⟩
        · rename_i hbraces
          refine .fail trivial fun hf => ?_
          obtain ⟨m', es, rfl, -⟩ := hf.rule.root _ rfl
          exact hbraces m' es rfl
    | stop k | skip k =>
      intro A hA loop inner st
      rw [stmt]
      simp (disch := decide) only [withLabel_eq]
      refine Ends.loopLabels (fun hf => ?_) fun labels hl => .pure ⟨?_, fun hf P _ => ?_⟩
      · obtain ⟨labels, -, hlookup⟩ := hf.exists_labels hf.rule.root
        exact ⟨labels, hlookup⟩
      · exact (Emits.withLabel rfl (.inr (by simp [State.knows_of_lookup hl]))).mono none_mem
      · obtain ⟨_, rfl, hlookup⟩ := hf.exists_labels hf.rule.root
        cases hl.symm.trans hlookup
        constructor

/-! ## Functions -/

variable {p : Program} {id : FunctionId} {f : Function (Stmt Mark)}

/-- The declarations among slotted marks have places. -/
theorem slot_of_slotted {t : Tree} {n : Notes} {k : Int} (h : t.Slotted n k ms) (hm : m ∈ ms)
    (hc : (t.cells? m.id).isSome = true) : ∃ slot, (n.stmt m.id).slot = some slot := by
  induction ms generalizing k with
  | nil => cases hm
  | cons a ms ih =>
    rcases List.mem_cons.mp hm with rfl | hm
    · obtain ⟨cells, hcells⟩ := Option.isSome_iff_exists.mp hc
      exact ⟨k, h.1 cells hcells⟩
    · exact ih h.2 hm

/-- What may be used in a function has a place. -/
theorem placing_of_named (h : p.tree.Named p.notes id f) :
    Placing ⟨p.tree, p.notes, f.returnType⟩ (p.tree.Usable id f) := by
  intro b info hb hinfo
  cases b with
  | param g i =>
    simp only [Tree.varInfo?, Option.bind_eq_bind, Option.bind_eq_some_iff] at hinfo
    obtain ⟨_, -, _, -, hinfo⟩ := hinfo
    cases hinfo
    exact ⟨_, rfl⟩
  | localVar s =>
    obtain ⟨⟨m, hm, rfl⟩, hc⟩ := hb
    obtain ⟨slot, hs⟩ := slot_of_slotted h.slots hm hc
    refine ⟨slot, ?_⟩
    simp only [Tree.varInfo?, Option.bind_eq_bind, Option.bind_eq_some_iff] at hinfo
    obtain ⟨⟨shape, line⟩, -, hinfo⟩ := hinfo
    cases shape <;> first | (cases hinfo; exact hs) | cases hinfo
  | function g => cases hinfo

theorem prepared_of_named (hp : p.Checked) (hv : (id, f) ∈ p.tree.views) :
    Prepared ⟨p.tree, p.notes, f.returnType⟩ (p.tree.Usable id f) f.body where
  places := placing_of_named (hp.named _ hv)
  bound := (hp.named _ hv).bound
  formed := (hp.orderly.formed _ hv).body
  held := hp.orderly.held _ hv
  ascending := by
    refine List.Pairwise.sublist ?_ hp.orderly.stmtIds
    obtain ⟨as, bs, hab⟩ := List.append_of_mem hv
    rw [hab, List.flatMap_append, List.flatMap_cons]
    exact List.Sublist.trans (List.sublist_append_left _ _) (List.sublist_append_right _ _)
  slots _ hm hc := slot_of_slotted (hp.named _ hv).slots hm hc

/-- A number of cells that can be counted in a word is positive if its word is. -/
theorem ofInt_pos_iff {k : Nat} (h : k < 0x8000000000000000) : 0 < Int64.ofInt k ↔ 0 < k := by
  rw [Int64.lt_iff_toInt_lt, Int64.toInt_zero, Int64.toInt_ofInt_of_le (by omega) (by omega)]
  omega

/-- The code ends with a return. -/
def EndsWithRet (is : List Item) : Prop :=
  ∃ front : List Item, is = front ++ [.plain .ret]

theorem function_emits (id : FunctionId) (f : Function (Stmt Mark)) (st : State) :
    Ends (p.Checked ∧ (id, f) ∈ p.tree.views) (function p id f) st fun is st' =>
      Emits (· < p.tree.functions.size) [id] f.body.tags st is st' ∧ EndsWithRet is ∧
        (p.Checked ∧ (id, f) ∈ p.tree.views →
          ∀ P, st'.strings.Extends P → Function.Code p P id f is) := by
  unfold function
  simp (disch := decide) only [withSlot_eq, plain_eq, pure_bind]
  have hreserve : ∀ reserve, Emits (· < p.tree.functions.size) [] [] st reserve st →
      (p.Checked ∧ (id, f) ∈ p.tree.views → reserve = Item.reserving (p.tree.cells f.body.tags)) →
      Ends (p.Checked ∧ (id, f) ∈ p.tree.views) (do
          let body ← stmt ⟨p.tree, p.notes, f.returnType⟩ f.body
          return [.place id] ++ reserve ++ body ++ [.plain .ret]) st fun is st' =>
        Emits (· < p.tree.functions.size) [id] f.body.tags st is st' ∧ EndsWithRet is ∧
          (p.Checked ∧ (id, f) ∈ p.tree.views →
            ∀ P, st'.strings.Extends P → Function.Code p P id f is) := by
    intro reserve hreserve heq
    refine (stmt_makes (V := p.tree.Usable id f) f.body _ (fun l hl => hl) none none st).seq
      (fun hg => ?_) fun body st₁ hbody cbody => .pure ⟨?_, ⟨_, rfl⟩, fun hg P hP => ?_⟩
    · refine ⟨?_, ?_, by simp, by simp⟩
      · simpa using prepared_of_named hg.1 hg.2
      · simpa using hg.1.typed _ hg.2
    · exact (((hreserve.append hbody).append (.plain rfl)).place id).mono (by simp)
    · rw [heq hg]
      exact .mk (cbody hg P hP)
  split
  · rename_i hpos
    refine hreserve _ (.withSlot rfl rfl) fun hg => ?_
    rw [(hg.1.named _ hg.2).frame, ofInt_pos_iff (hg.1.frames _ hg.2)] at hpos
    rw [Item.reserving, if_pos hpos, (hg.1.named _ hg.2).frame]
  · rename_i hpos
    refine hreserve _ .nil fun hg => ?_
    rw [(hg.1.named _ hg.2).frame, ofInt_pos_iff (hg.1.frames _ hg.2)] at hpos
    rw [Item.reserving, if_neg hpos]

theorem functions_emits (vs : List (FunctionId × Function (Stmt Mark))) : ∀ st : State,
    Ends (p.Checked ∧ ∀ v ∈ vs, v ∈ p.tree.views) (functions p vs) st fun is st' =>
      Emits (· < p.tree.functions.size) (vs.map Prod.fst) (vs.flatMap fun v => v.2.body.tags) st is
        st' ∧ (vs = [] ∧ is = [] ∨ EndsWithRet is) ∧
      (p.Checked ∧ (∀ v ∈ vs, v ∈ p.tree.views) →
        ∀ P, st'.strings.Extends P → Function.ListCode p P vs is) := by
  induction vs with
  | nil => exact fun st => .pure ⟨.nil, .inl ⟨rfl, rfl⟩, fun _ _ _ => .nil⟩
  | cons v vs ih =>
    intro st
    rw [functions]
    simp only [List.forall_mem_cons]
    refine .bind (function_emits v.1 v.2 st) (fun hg => ⟨hg.1, hg.2.1⟩) ?_
    rintro first st₁ ⟨hfirst, hret, cfirst⟩
    refine .bind (ih st₁) (fun hg => ⟨hg.1, hg.2.2⟩) ?_
    rintro rest st₂ ⟨hrest, hends, crest⟩
    refine .pure ⟨hfirst.append hrest, .inr ?_, fun hg P hP => ?_⟩
    · rcases hends with ⟨-, rfl⟩ | ⟨front, rfl⟩
      · simpa using hret
      · exact ⟨first ++ front, by rw [List.append_assoc]⟩
    · exact .cons (cfirst ⟨hg.1, hg.2.1⟩ P (hrest.strings_extends.trans hP))
        (crest ⟨hg.1, hg.2.2⟩ P hP)

/-- The code of a program: it places every label, exits, and ends with the return of a function if
all functions have a view.  It is made if the program is checked and has a `main`. -/
theorem program_emits (p : Program) (strings : StringPool) :
    Ends (p.Checked ∧ (p.tree.findFunction? "main").isSome = true) (program p)
      ⟨p.tree.functions.size, strings, []⟩ fun is st' =>
        (∃ ms, Emits (· < p.tree.functions.size) (p.tree.views.map Prod.fst) ms
          ⟨p.tree.functions.size, strings, []⟩ is st') ∧ .plain .exit ∈ is ∧
        (p.tree.views.map Prod.fst = List.range p.tree.functions.size → EndsWithRet is) ∧
        (p.Checked → p.Code st'.strings is) := by
  unfold program
  cases hmain : p.tree.findFunction? "main" with
  | none => exact .fail trivial fun hg => by cases hg.2
  | some main =>
    have hlt : main < p.tree.functions.size := (Array.findIdx?_eq_some_iff_getElem.mp hmain).1
    unfold stub
    simp (disch := decide) only [withLabel_eq, withWord_eq, plain_eq, pure_bind]
    refine .bind (functions_emits p.tree.views _) (fun hg => ⟨hg.1, fun _ => id⟩) ?_
    rintro rest st' ⟨hrest, hends, crest⟩
    have hpush : Emits (· < p.tree.functions.size) [] [] ⟨p.tree.functions.size, strings, []⟩
      [.withLabel .push main] ⟨p.tree.functions.size, strings, []⟩ := .withLabel rfl (.inl hlt)
    refine .pure
      ⟨⟨_, ((hpush.append (.withWord rfl rfl)).append (.plain rfl)).append hrest⟩, by simp,
        fun hviews => ?_, fun hp => .mk hmain (crest ⟨hp, fun _ => id⟩ _ (.refl _))⟩
    rcases hends with ⟨hnil, -⟩ | ⟨front, rfl⟩
    · -- there is a function, as there is a `main`
      rw [hnil, List.map_nil, eq_comm, List.range_eq_nil] at hviews
      exact absurd hlt (by rw [hviews]; exact Nat.not_lt_zero main)
    · exact ⟨_, (List.append_assoc _ _ _).symm⟩

end Generate

/-- The strings of any code that is generated have been added one behind the other. -/
theorem Program.exists_ofList {g : Generated} (h : p.generate = .ok g) :
    ∃ added, g.strings = .ofList added := by
  have hends := Generate.program_emits p .empty
  unfold Generate.Ends at hends
  cases hrun : Generate.program p ⟨p.tree.functions.size, .empty, []⟩ with
  | error e =>
    simp only [generate, StateT.run, hrun, bind, Except.bind] at h
    cases h
  | ok r =>
    rw [hrun] at hends
    obtain ⟨⟨_, hemits⟩, -⟩ := hends
    simp only [generate, StateT.run, hrun, bind, Except.bind] at h
    split at h
    · cases h
    · cases h
      exact hemits.strings

/-- The symbolic code of a program whose functions all have a view can be assembled: every label has
one place in it, and is not referred to without one. -/
theorem Program.placed_of_emits {st : Generate.State} {items : List Item} {strings : StringPool}
    (h : Generate.Emits (· < p.tree.functions.size) (List.range p.tree.functions.size) ms
      ⟨p.tree.functions.size, strings, []⟩ items st) :
    (Item.placed items).Perm (List.range st.labels) ∧
      ∀ l ∈ Item.refs items, l ∈ Item.placed items := by
  have hle : p.tree.functions.size ≤ st.labels := h.labels
  have hplaced : (Item.placed items).Perm (List.range st.labels) := by
    have hrange := List.range'_append_1 (s := 0) (m := p.tree.functions.size)
      (n := st.labels - p.tree.functions.size)
    rw [Nat.zero_add, Nat.add_sub_cancel' hle, ← List.range_eq_range', ← List.range_eq_range']
      at hrange
    rw [← hrange]
    exact h.placed
  refine ⟨hplaced, fun l hl => ?_⟩
  rcases h.refs l hl with hp | hfunction | ⟨_, hnone, -⟩
  · exact hp
  · rw [hplaced.mem_iff, List.mem_range]
    exact Nat.lt_of_lt_of_le hfunction hle
  · cases hnone

/-- The symbolic code of a checked program with a `main` is made.  Every label has one place in it,
and is not referred to without one. -/
theorem Program.code_made (hp : p.Checked) {main : FunctionId}
    (hmain : p.tree.findFunction? "main" = some main) :
    ∃ is st, Generate.program p ⟨p.tree.functions.size, .empty, []⟩ = .ok (is, st) ∧
      p.Code st.strings is ∧ p.tree.functions.size ≤ st.labels ∧
      (Item.placed is).Perm (List.range st.labels) ∧ ∀ l ∈ Item.refs is, l ∈ Item.placed is := by
  obtain ⟨is, st, hrun, ⟨ms, hemits⟩, -, -, hcode⟩ :=
    (Generate.program_emits p .empty).exists_ok ⟨hp, by rw [hmain]; rfl⟩
  rw [hp.orderly.ids] at hemits
  exact ⟨is, st, hrun, hcode hp, hemits.labels, placed_of_emits hemits⟩

end StackLang
