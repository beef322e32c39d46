import Mathlib.Data.List.Perm.Basic
import StackLang.Proofs.Code.Generation
import StackLang.Proofs.Code.Labels

/-!
# What the generator emits

Whatever the analyses have noted about a program, and even if nothing has, the code that is emitted
has instructions with the operands they take, every jump goes to a label, every label is placed
once, and no label is referred to but functions and labels that are placed.  A jump may go to a loop
that has been left: the labels of a loop are remembered, and were placed with it.  If names, types
and operators are in order, the code is made and has its shape.

* `Generate.Emits` — what is known about code that has been emitted.
* `Generate.Makes` — a step that emits code.
* `Generate.expr_makes` — expressions.
-/

namespace StackLang

/-- An instruction has as many operands as its operation takes, and a jump has a label. -/
def Item.Regular : Item → Prop
  | instr op operands =>
    operands.length = op.arity ∧ (op.isJump = true → ∃ l, operands = [.label l])
  | place _ => True

theorem Op.isJump_of_arity {op : Op} (h : op.arity = 0) : op.isJump = false := by
  cases op <;> first | rfl | cases h

namespace Item

/-- Code refers to what its instructions refer to. -/
theorem mem_refs_of_instr {is js : List Item} (h : ∀ op os, .instr op os ∈ js → .instr op os ∈ is)
    {l : LabelId} (hl : l ∈ refs js) : l ∈ refs is := by
  obtain ⟨i, hi, hl⟩ := List.mem_flatMap.mp hl
  cases i with
  | place k => cases hl
  | instr op os => exact List.mem_flatMap.mpr ⟨_, h op os hi, hl⟩

end Item

namespace Generate

/-! ## Emitted code -/

/-- The label belongs to a loop that has been come to. -/
def State.Knows (st : State) (l : LabelId) : Prop :=
  ∃ entry ∈ st.loops, l = entry.2.next ∨ l = entry.2.stop

theorem State.knows_of_lookup {st : State} {target : Option StmtId} {labels : LoopLabels}
    (h : target.bind (st.loops.lookup ·) = some labels) :
    st.Knows labels.next ∧ st.Knows labels.stop := by
  obtain ⟨id, -, hid⟩ := Option.bind_eq_some_iff.mp h
  obtain ⟨l₁, l₂, heq, -⟩ := List.lookup_eq_some_iff.mp hid
  have hmem : (id, labels) ∈ st.loops := by simp [heq]
  exact ⟨⟨_, hmem, .inl rfl⟩, ⟨_, hmem, .inr rfl⟩⟩

/-- From `st` to `st'` the code `is` has been emitted.  It places the labels `ids` and all that were
made meanwhile, each once; it refers to these, to the labels in `A` and to those of loops.  A loop
that is come to meanwhile has its labels in the code, and its mark is among `ms`.  Strings have only
been added. -/
structure Emits (A : LabelId → Prop) (ids : List LabelId) (ms : List Mark) (st : State)
    (is : List Item) (st' : State) : Prop where
  labels : st.labels ≤ st'.labels
  placed : (Item.placed is).Perm (ids ++ List.range' st.labels (st'.labels - st.labels))
  refs : Item.Within (fun l => A l ∨ st.Knows l) is
  loops : ∀ l, st'.Knows l → st.Knows l ∨ l ∈ Item.placed is
  regular : ∀ i ∈ is, i.Regular
  strings : ∃ added, st'.strings = st.strings.addAll added
  kept : ∀ l, (∀ m ∈ ms, m.id ≠ l) → st'.loops.lookup l = st.loops.lookup l

namespace Emits

variable {A : LabelId → Prop} {ids ids' : List LabelId} {ms ms' : List Mark} {st st₁ st₂ : State}
  {is js : List Item} {op : Op}

theorem strings_extends (h : Emits A ids ms st is st₁) : st.strings.Extends st₁.strings := by
  obtain ⟨added, hadded⟩ := h.strings
  rw [hadded]
  exact st.strings.addAll_extends added

theorem append (h : Emits A ids ms st is st₁) (h' : Emits A ids' ms' st₁ js st₂) :
    Emits A (ids ++ ids') (ms ++ ms') st (is ++ js) st₂ where
  labels := Nat.le_trans h.labels h'.labels
  placed := by
    have hlabels := h.labels
    have hlabels' := h'.labels
    have hrange : List.range' st.labels (st₁.labels - st.labels) ++
        List.range' st₁.labels (st₂.labels - st₁.labels) =
          List.range' st.labels (st₂.labels - st.labels) := by
      have happend := List.range'_append_1 (s := st.labels) (m := st₁.labels - st.labels)
        (n := st₂.labels - st₁.labels)
      have hcount : st₁.labels - st.labels + (st₂.labels - st₁.labels) =
          st₂.labels - st.labels := by
        omega
      rwa [Nat.add_sub_cancel' hlabels, hcount] at happend
    rw [Item.placed_append, ← hrange]
    refine (h.placed.append h'.placed).trans ?_
    simp only [List.append_assoc]
    refine List.Perm.append_left _ ?_
    simp only [← List.append_assoc]
    exact List.Perm.append_right _ List.perm_append_comm
  refs := by
    intro l hl
    rw [Item.refs_append, List.mem_append] at hl
    rw [Item.placed_append, List.mem_append]
    rcases hl with hl | hl
    · exact (h.refs l hl).imp_left .inl
    · rcases h'.refs l hl with hp | hA | hk
      · exact .inl (.inr hp)
      · exact .inr (.inl hA)
      · rcases h.loops l hk with hk | hp
        · exact .inr (.inr hk)
        · exact .inl (.inl hp)
  loops l hl := by
    rw [Item.placed_append, List.mem_append]
    rcases h'.loops l hl with hk | hp
    · exact (h.loops l hk).imp_right .inl
    · exact .inr (.inr hp)
  regular i hi := by
    rcases List.mem_append.mp hi with hi | hi
    · exact h.regular i hi
    · exact h'.regular i hi
  strings := by
    obtain ⟨added, hadded⟩ := h.strings
    obtain ⟨added', hadded'⟩ := h'.strings
    exact ⟨added ++ added', by rw [hadded', hadded, StringPool.addAll_append]⟩
  kept l hl := by
    rw [h'.kept l fun m hm => hl m (List.mem_append_right _ hm),
      h.kept l fun m hm => hl m (List.mem_append_left _ hm)]

theorem mono (h : Emits A ids ms st is st₁) (hms : ∀ m ∈ ms, m ∈ ms') : Emits A ids ms' st is st₁ :=
  { h with kept := fun l hl => h.kept l fun m hm => hl m (hms m hm) }

/-- Code without labels of its own. -/
theorem of_refs (hp : Item.placed is = []) (hr : ∀ l ∈ Item.refs is, A l ∨ st.Knows l)
    (hi : ∀ i ∈ is, i.Regular) : Emits A [] [] st is st where
  labels := Nat.le_refl _
  placed := by simp [hp]
  refs l hl := .inr (hr l hl)
  loops _ hl := .inl hl
  regular := hi
  strings := ⟨[], rfl⟩
  kept _ _ := rfl

theorem nil : Emits A [] [] st [] st :=
  of_refs rfl (by simp) (by simp)

theorem plain (h : op.arity = 0) : Emits A [] [] st [.plain op] st := by
  refine of_refs rfl (by simp) ?_
  intro i hi
  rw [List.mem_singleton] at hi
  subst hi
  exact ⟨h.symm, fun hj => absurd hj (by simp [Op.isJump_of_arity h])⟩

theorem withWord {w : Word} (h : op.arity = 1) (hj : op.isJump = false) :
    Emits A [] [] st [.withWord op w] st := by
  refine of_refs rfl (by simp) ?_
  intro i hi
  rw [List.mem_singleton] at hi
  subst hi
  exact ⟨h.symm, fun hj' => absurd hj' (by simp [hj])⟩

theorem withSlot {slot : Int} (h : op.arity = 1) (hj : op.isJump = false) :
    Emits A [] [] st [.withSlot op slot] st :=
  withWord h hj

theorem withLabel {l : LabelId} (h : op.arity = 1) (hl : A l ∨ st.Knows l) :
    Emits A [] [] st [.withLabel op l] st := by
  refine of_refs rfl (by simpa using hl) ?_
  intro i hi
  rw [List.mem_singleton] at hi
  subst hi
  exact ⟨h.symm, fun _ => ⟨l, rfl⟩⟩

theorem narrowing {target source : ValueType} :
    Emits A [] [] st (Item.narrowing target source) st := by
  unfold Item.narrowing
  split
  · exact plain rfl
  · exact nil

theorem widening {isFloat : Bool} {t : ValueType} :
    Emits A [] [] st (Item.widening isFloat op t) st := by
  unfold Item.widening
  split
  · exact plain rfl
  · exact nil

/-- Labels that are made before some code, which may refer to them, and placed around it. -/
theorem enclose {k : Nat}
    (h : Emits (fun l => A l ∨ st.labels ≤ l ∧ l < st.labels + k) [] ms st₁ is st₂)
    (hlabels : st₁.labels = st.labels + k) (hstrings : st₁.strings = st.strings)
    (hloops : ∀ l, st₁.Knows l → st.Knows l ∨ st.labels ≤ l ∧ l < st.labels + k)
    (hkept : ∀ l, (∀ m ∈ ms, m.id ≠ l) → st₁.loops.lookup l = st.loops.lookup l)
    (hplaced : (Item.placed js).Perm (List.range' st.labels k ++ Item.placed is))
    (hitems : ∀ op os, .instr op os ∈ js → .instr op os ∈ is) : Emits A [] ms st js st₂ := by
  have hle := h.labels
  have hmem : ∀ {l}, st.labels ≤ l ∧ l < st.labels + k ∨ l ∈ Item.placed is →
      l ∈ Item.placed js := by
    intro l hl
    rw [hplaced.mem_iff, List.mem_append, List.mem_range'_1]
    exact hl
  refine ⟨by omega, ?_, ?_, ?_, ?_, hstrings ▸ h.strings,
    fun l hl => (h.kept l hl).trans (hkept l hl)⟩
  · refine hplaced.trans ((h.placed.append_left _).trans ?_)
    rw [List.nil_append, List.nil_append, hlabels, List.range'_append_1]
    have : k + (st₂.labels - (st.labels + k)) = st₂.labels - st.labels := by omega
    rw [this]
  · intro l hl
    rcases h.refs l (Item.mem_refs_of_instr hitems hl) with hp | (hA | hnew) | hk
    · exact .inl (hmem (.inr hp))
    · exact .inr (.inl hA)
    · exact .inl (hmem (.inl hnew))
    · rcases hloops l hk with hk | hnew
      · exact .inr (.inr hk)
      · exact .inl (hmem (.inl hnew))
  · intro l hl
    rcases h.loops l hl with hk | hp
    · rcases hloops l hk with hk | hnew
      · exact .inl hk
      · exact .inr (hmem (.inl hnew))
    · exact .inr (hmem (.inr hp))
  · intro i hi
    cases i with
    | place l => trivial
    | instr op os => exact h.regular _ (hitems op os hi)

/-- Code that begins with a label that was made earlier. -/
theorem place (h : Emits A [] ms st is st₁) (l : LabelId) :
    Emits A [l] ms st (.place l :: is) st₁ where
  labels := h.labels
  placed := h.placed.cons l
  refs k hk := by
    rw [Item.refs_place] at hk
    exact (h.refs k hk).imp_left (List.mem_cons_of_mem l)
  loops k hk := (h.loops k hk).imp_right (List.mem_cons_of_mem l)
  regular i hi := by
    rcases List.mem_cons.mp hi with rfl | hi
    · trivial
    · exact h.regular i hi
  strings := h.strings
  kept := h.kept

end Emits

/-! ## Steps that emit code -/

section Makes

variable {β : Type} {G G' : Prop} {A : LabelId → Prop} {ms ms' : List Mark} {st : State}
  {x : Generate (List Item)} {C D : StringPool → List Item → Prop}

/-- The step emits code, which satisfies `C` in every pool that the strings so far are part of if
`G` holds of the program; it does not fail then. -/
def Makes (G : Prop) (A : LabelId → Prop) (ms : List Mark) (x : Generate (List Item)) (st : State)
    (C : StringPool → List Item → Prop) : Prop :=
  Ends G x st fun is st' => Emits A [] ms st is st' ∧ (G → ∀ P, st'.strings.Extends P → C P is)

/-- A step that emits code, and another behind it. -/
theorem Makes.seq {f : List Item → Generate β} {R : β → State → Prop} (hx : Makes G' A ms x st C)
    (hG : G → G') (hf : ∀ is st₁, Emits A [] ms st is st₁ →
      (G → ∀ P, st₁.strings.Extends P → C P is) → Ends G (f is) st₁ R) : Ends G (x >>= f) st R :=
  Ends.bind hx hG fun is st₁ his => hf is st₁ his.1 fun hg => his.2 (hG hg)

theorem Makes.imp (hx : Makes G' A ms x st C) (hG : G → G') (hms : ∀ m ∈ ms, m ∈ ms')
    (hCD : G → ∀ P is, C P is → D P is) : Makes G A ms' x st D :=
  Ends.mono hx hG fun is _ his => ⟨his.1.mono hms, fun hg P hP => hCD hg P is (his.2 (hG hg) P hP)⟩

end Makes

/-! ## Expressions -/

/-- Every variable that may be used has a place. -/
def Placing (c : Context) (V : Binding → Prop) : Prop :=
  ∀ b info, V b → c.tree.varInfo? c.notes b = some info → ∃ slot, info.slot = some slot

/-- The names, the types and the operators of the expression are in order. -/
structure Ready (c : Context) (V : Binding → Prop) (e : Expr Mark) : Prop where
  places : Placing c V
  bound : e.Bound V c.notes
  typed : e.Typed c.tree c.notes
  formed : e.Formed

section Exprs

variable {c : Context} {A : LabelId → Prop} {V : Binding → Prop} {m : Mark}
  {shape : Expr.Shape (Expr Mark)}

theorem Ready.child {e : Expr Mark} (h : Ready c V (.node m shape)) (he : e ∈ shape.children) :
    Ready c V e :=
  ⟨h.places, h.bound.child e he, h.typed.child e he, h.formed.child e he⟩

theorem Ready.hasType {e : Expr Mark} (h : Ready c V e) : ∃ T, c.notes.typeOf e = some T := by
  obtain ⟨m, shape⟩ := e
  obtain ⟨T, hT, -⟩ := h.typed.root
  exact ⟨T, hT⟩

/-- The variable that a name stands for has a place. -/
theorem Ready.variable (h : Ready c V (.node m shape)) (huse : shape.use? = some .variableName) :
    ∃ info slot, c.notes.variableAt c.tree m = some info ∧ info.slot = some slot := by
  obtain ⟨T, -, hrule⟩ := h.typed.root
  obtain ⟨info, hv⟩ : ∃ info, c.notes.variableAt c.tree m = some info := by
    cases shape with
    | name n | element n i => exact ⟨hrule.choose, hrule.choose_spec.1⟩
    | assign n i v => cases i <;> exact ⟨hrule.choose, hrule.choose_spec.1⟩
    | _ => cases huse
  obtain ⟨b, hb, -, hV⟩ := h.bound.root _ huse
  have hinfo := hv
  rw [Notes.variableAt, hb] at hinfo
  obtain ⟨slot, hs⟩ := h.places b info hV hinfo
  exact ⟨info, slot, hv, hs⟩

/-- A binary operator that has a type is an operation. -/
theorem exists_ofBinary? {kind : Token.Kind} {l r T : ValueType}
    (h : ValueType.binary? kind l r = some T) : ∃ o, Op.ofBinary? kind l r = some o := by
  unfold ValueType.binary? at h
  split at h <;> cases l <;> cases r <;> first | exact ⟨_, rfl⟩ | cases h

/-- The code of an expression is emitted, if functions may be referred to. -/
def MakesExpr (c : Context) (A : LabelId → Prop) (V : Binding → Prop) (e : Expr Mark) : Prop :=
  ∀ st, Makes (Ready c V e) A [] (expr c e) st fun P is => e.Code c P is

theorem count_makes {op : Token} {step : Op} (hop : Op.ofCounting? op.kind = some step)
    (trailing : Bool) (line : Line) (e : Expr Mark) (st : State) :
    Makes (Ready c V (.node m (.unary op e trailing))) A [] (count c op step trailing line e) st
      fun P is => (Expr.node m (.unary op e trailing)).Code c P is := by
  have hstep : step.arity = 0 := by
    unfold Op.ofCounting? at hop
    split at hop <;> cases hop <;> rfl
  unfold count
  split
  · rename_i m' n
    simp (disch := first | decide | exact hstep) only [withSlot_eq, plain_eq, withWord_eq,
      pure_bind]
    refine Ends.variableAt (fun h => (h.child (List.mem_singleton_self _)).variable rfl) ?_
    intro info slot hv hs
    have hpeek : Emits A [] [] st [.withSlot .peek slot] st := .withSlot rfl rfl
    have hpoke : Emits A [] [] st [.withSlot .poke slot] st := .withSlot rfl rfl
    have hone : Emits A [] [] st [.withWord .push 1] st := .withWord rfl rfl
    cases trailing with
    | true =>
      refine .pure ⟨?_, fun _ P _ => .count hop hv hs⟩
      exact hpeek.append (((Emits.plain rfl).append hone).append (.plain hstep) |>.append hpoke)
    | false =>
      refine .pure ⟨?_, fun _ P _ => .count hop hv hs⟩
      exact hpeek.append ((hone.append (.plain hstep)).append (.plain rfl) |>.append hpoke)
  · rename_i hname
    refine Ends.fail trivial fun h => ?_
    rcases h.formed.root with (hop' | hop' | hop') | ⟨-, hn⟩
    · simp [hop', Op.ofCounting?] at hop
    · simp [hop', Op.ofCounting?] at hop
    · simp [hop', Op.ofCounting?] at hop
    · obtain ⟨m', shape⟩ := e
      cases shape with
      | name n => exact hname m' n rfl
      | _ => cases hn

theorem arguments_makes {es : List (Expr Mark)} (h : ∀ e ∈ es, MakesExpr c A V e) :
    ∀ (ps : List Param) (st : State),
      Makes ((∀ e ∈ es, Ready c V e) ∧ es.length = ps.length) A [] (arguments c es ps) st
        fun P is => Expr.ArgsCode c P es ps is := by
  induction es with
  | nil =>
    intro ps st
    rw [arguments]
    · refine Ends.pure ⟨.nil, fun hg P _ => ?_⟩
      obtain rfl := List.length_eq_zero_iff.mp hg.2.symm
      exact .nil
    · simp
  | cons e es ih =>
    intro ps st
    cases ps with
    | nil =>
      rw [arguments]
      · exact Ends.pure ⟨.nil, fun hg => by cases hg.2⟩
      · simp
    | cons p ps =>
      rw [arguments]
      simp only [convert_eq, pure_bind]
      refine (h e List.mem_cons_self st).seq (fun hg => hg.1 e List.mem_cons_self) ?_
      intro value st₁ hvalue cvalue
      refine .typeOf (fun hg => (hg.1 e List.mem_cons_self).hasType) fun T hT => ?_
      refine (ih (fun x hx => h x (List.mem_cons_of_mem e hx)) ps st₁).seq (fun hg => ?_) ?_
      · exact ⟨fun x hx => hg.1 x (List.mem_cons_of_mem e hx), Nat.succ.inj hg.2⟩
      · intro rest st₂ hrest crest
        refine .pure ⟨(hvalue.append .narrowing).append hrest, fun hg P hP => ?_⟩
        exact .cons hT (cvalue hg P (hrest.strings_extends.trans hP)) (crest hg P hP)

/-- An operator before or behind its operand. -/
theorem unary_makes (m : Mark) (op : Token) {e : Expr Mark} (trailing : Bool)
    (h : MakesExpr c A V e) : MakesExpr c A V (.node m (.unary op e trailing)) := by
  intro st
  have he : e ∈ (Expr.Shape.unary op e trailing).children := List.mem_singleton_self e
  have operand := h st
  rw [expr]
  split
  · rename_i hop
    exact operand.imp (fun hr => hr.child he) (fun _ => id) fun _ _ _ => .plus hop
  · -- a minus subtracts the operand from a zero, which is pushed first
    rename_i hop
    simp (disch := decide) only [withWord_eq, pure_bind]
    refine Ends.typeOf (fun hr => (hr.child he).hasType) fun T hT => ?_
    refine operand.seq (fun hr => hr.child he) fun is st₁ his cis => ?_
    rw [plain_eq (by split <;> rfl)]
    refine .pure ⟨((Emits.withWord rfl rfl).append his).append (.plain ?_), fun hr P hP => ?_⟩
    · split <;> rfl
    · simpa using Expr.Code.minus hop hT (cis hr P hP)
  · rename_i hop
    simp (disch := decide) only [plain_eq, pure_bind]
    refine operand.seq (fun hr => hr.child he) fun is st₁ his cis => .pure ⟨?_, ?_⟩
    · exact his.append (.plain rfl)
    · exact fun hr P hP => .not hop (cis hr P hP)
  · rename_i hop
    exact count_makes (by rw [hop]; rfl) trailing m.line e st
  · rename_i hop
    exact count_makes (by rw [hop]; rfl) trailing m.line e st
  · -- a formed expression has no other operator
    rename_i hplus hminus hnot hinc hdec
    refine Ends.fail trivial fun hr => ?_
    rcases hr.formed.root with (hop | hop | hop) | ⟨hop | hop, -⟩
    · exact hnot hop
    · exact hminus hop
    · exact hplus hop
    · exact hinc hop
    · exact hdec hop

/-- A call; the callee leaves no word if it returns nothing, so that one is pushed for it. -/
theorem call_makes (hA : ∀ l < c.tree.functions.size, A l) (m : Mark) (n : Token)
    {args : List (Expr Mark)} (h : ∀ e ∈ args, MakesExpr c A V e) :
    MakesExpr c A V (.node m (.call n args)) := by
  intro st
  rw [expr]
  split
  · rename_i id hb
    split
    · rename_i f hf
      have hid : A id := hA id (Array.getElem?_eq_some_iff.mp hf).1
      have hG : Ready c V (.node m (.call n args)) →
          (∀ e ∈ args, Ready c V e) ∧ args.length = f.params.length := by
        intro hr
        obtain ⟨_, -, _, _, hb', hf', hargs, -⟩ := hr.typed.root
        cases hb.symm.trans hb'
        cases hf.symm.trans hf'
        exact ⟨fun e he => hr.child he, hargs.length_eq.symm⟩
      simp (disch := decide) only [withLabel_eq, withWord_eq, pure_bind]
      refine (arguments_makes h f.params st).seq hG fun arguments st₁ harguments carguments => ?_
      have hpush : Emits A [] [] st [.withLabel .push id] st := .withLabel rfl (.inl hid)
      have hcall : Emits A [] [] st₁ [.withWord .call (Word.ofNat args.length)] st₁ :=
        .withWord rfl rfl
      have hcode := fun P is (his : Expr.ArgsCode c P args f.params is) =>
        Expr.Code.call (m := m) (n := n) hb hf his
      by_cases hvoid : f.returnType = .void
      · simp only [hvoid, if_true] at hcode ⊢
        refine .pure ⟨((hpush.append harguments).append hcall).append (.withWord rfl rfl), ?_⟩
        exact fun hr P hP => hcode P _ (carguments hr P hP)
      · simp only [hvoid, if_false] at hcode ⊢
        refine .pure ⟨((hpush.append harguments).append hcall).append .nil, ?_⟩
        exact fun hr P hP => hcode P _ (carguments hr P hP)
    · -- a typed call is bound to a function, here and in the next case
      rename_i hnone
      refine Ends.fail trivial fun hr => ?_
      obtain ⟨_, -, _, _, hb', hf', -⟩ := hr.typed.root
      cases hb.symm.trans hb'
      cases hf'.symm.trans hnone
  · rename_i hnone
    refine Ends.fail trivial fun hr => ?_
    obtain ⟨_, -, _, _, hb, -⟩ := hr.typed.root
    exact hnone _ hb

theorem expr_makes (hA : ∀ l < c.tree.functions.size, A l) (e : Expr Mark) : MakesExpr c A V e := by
  induction e using Expr.induction with
  | step m shape ih =>
    intro st
    cases shape with
    | literal v =>
      rw [expr]
      simp (disch := decide) only [withWord_eq]
      obtain ⟨hadded, hword⟩ := v.word_spec st.strings
      have hpush : Emits A [] [] st [.withWord .push (v.word st.strings).1] st := .withWord rfl rfl
      have hall : Emits A [] [] st [.withWord .push (v.word st.strings).1]
          { st with strings := (v.word st.strings).2 } := { hpush with strings := hadded }
      exact And.intro hall fun _ P hP => .literal (Literal.word?_of_extends hP hword)
    | grouping e =>
      have he : e ∈ (Expr.Shape.grouping e).children := List.mem_singleton_self e
      rw [expr]
      exact (ih e he st).imp (fun h => h.child he) (fun _ => id) fun _ _ _ => .grouping
    | binary l op r =>
      have hl : l ∈ (Expr.Shape.binary l op r).children := by simp
      have hr : r ∈ (Expr.Shape.binary l op r).children := by simp
      rw [expr]
      simp only [widen_eq, pure_bind]
      refine Ends.typeOf (fun h => (h.child hl).hasType) fun lt hlt => ?_
      refine .typeOf (fun h => (h.child hr).hasType) fun rt hrt => .binaryOp (fun h => ?_) ?_
      · obtain ⟨T, -, _, _, hlt', hrt', hT⟩ := h.typed.root
        cases hlt.symm.trans hlt'
        cases hrt.symm.trans hrt'
        exact exists_ofBinary? hT
      · intro o ho harity
        simp only [plain_eq harity, pure_bind]
        refine (ih l hl st).seq (fun h => h.child hl) fun left st₁ hleft cleft => ?_
        refine (ih r hr st₁).seq (fun h => h.child hr) fun right st₂ hright cright => .pure ⟨?_, ?_⟩
        · exact (((hleft.append .widening).append hright).append .widening).append (.plain harity)
        · exact fun h P hP =>
            .binary hlt hrt ho (cleft h P (hright.strings_extends.trans hP)) (cright h P hP)
    | unary op e trailing => exact unary_makes m op trailing (ih e (List.mem_singleton_self e)) st
    | name n =>
      rw [expr]
      simp (disch := decide) only [withSlot_eq]
      refine Ends.variableAt (fun h => h.variable rfl) fun info slot hv hs => ?_
      exact .pure ⟨.withSlot rfl rfl, fun _ P _ => .name hv hs⟩
    | assign n i v =>
      have hv : v ∈ (Expr.Shape.assign n i v).children := by cases i <;> simp
      cases i with
      | none =>
        rw [expr]
        simp (disch := decide) only [convert_eq, plain_eq, withSlot_eq, pure_bind]
        refine Ends.variableAt (fun h => h.variable rfl) fun info slot hvar hs => ?_
        refine (ih v hv st).seq (fun h => h.child hv) fun value st₁ hvalue cvalue => ?_
        refine .typeOf (fun h => (h.child hv).hasType) fun T hT => .pure ⟨?_, ?_⟩
        · exact ((hvalue.append .narrowing).append (.plain rfl)).append (.withSlot rfl rfl)
        · exact fun h P hP => .assign hvar hs hT (cvalue h P hP)
      | some i =>
        have hi : i ∈ (Expr.Shape.assign n (some i) v).children := by simp
        rw [expr]
        simp (disch := decide) only [convert_eq, plain_eq, withSlot_eq, pure_bind]
        refine Ends.variableAt (fun h => h.variable rfl) fun info slot hvar hs => ?_
        refine (ih v hv st).seq (fun h => h.child hv) fun value st₁ hvalue cvalue => ?_
        refine .typeOf (fun h => (h.child hv).hasType) fun T hT => ?_
        refine (ih i hi st₁).seq (fun h => h.child hi) fun index st₂ hindex cindex => .pure ⟨?_, ?_⟩
        · exact (((hvalue.append .narrowing).append (.plain rfl)).append hindex).append
            (.withSlot rfl rfl)
        · exact fun h P hP =>
            .assignElement hvar hs hT (cvalue h P (hindex.strings_extends.trans hP)) (cindex h P hP)
    | call n args => exact call_makes hA m n ih st
    | element n i =>
      have hi : i ∈ (Expr.Shape.element n i).children := List.mem_singleton_self i
      rw [expr]
      simp (disch := decide) only [withSlot_eq, pure_bind]
      refine Ends.variableAt (fun h => h.variable rfl) fun info slot hv hs => ?_
      refine (ih i hi st).seq (fun h => h.child hi) fun index st₁ hindex cindex => .pure ⟨?_, ?_⟩
      · exact hindex.append (.withSlot rfl rfl)
      · exact fun h P hP => .element hv hs (cindex h P hP)
    | braces es =>
      rw [expr]
      refine Ends.fail trivial fun h => ?_
      obtain ⟨_, -, hrule⟩ := h.typed.root
      exact hrule
    | random k e =>
      have he : e ∈ (Expr.Shape.random k e).children := List.mem_singleton_self e
      rw [expr]
      simp (disch := decide) only [plain_eq, pure_bind]
      refine (ih e he st).seq (fun h => h.child he) fun bound st₁ hbound cbound => .pure ⟨?_, ?_⟩
      · exact hbound.append (.plain rfl)
      · exact fun h P hP => .random (cbound h P hP)

end Exprs

end Generate

end StackLang
