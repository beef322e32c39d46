import StackLang.Proofs.Analysis.Checked
import StackLang.Proofs.Code.Shape
import StackLang.Proofs.Image.Roundtrip

/-!
# Steps of the generator

A step of the generator succeeds, or fails for a reason in the program.  If the program is in order
it does not fail, so what is asked of the program goes with every step.

* `Generate.Ends` — a step of the generator and what holds when it succeeds.
* `Ends.typeOf`, `Ends.variableAt`, … — steps that look something up.
-/

namespace StackLang

/-- The error has its reason in the program, and not in the code that is made for it. -/
def GenerateError.OfProgram : GenerateError → Prop
  | .arityMismatch _ _ | .unplacedLabel _ => False
  | _ => True

/-! ## Strings -/

namespace StringPool

/-- The keys of the one pool are keys of the other. -/
def Extends (P P' : StringPool) : Prop :=
  ∀ s k, P.key? s = some k → P'.key? s = some k

variable {P P' P'' : StringPool}

theorem Extends.refl (P : StringPool) : P.Extends P :=
  fun _ _ h => h

theorem Extends.trans (h : P.Extends P') (h' : P'.Extends P'') : P.Extends P'' :=
  fun s k hk => h' s k (h s k hk)

/-- A string that is added gets a key, and the others keep theirs. -/
theorem intern_extends (P : StringPool) (s : String) :
    P.Extends (P.intern s).2 ∧
      ∃ k, (P.intern s).1 = Word.ofNat k ∧ (P.intern s).2.key? s = some k := by
  rw [intern]
  cases hk : P.key? s with
  | some k => exact ⟨.refl P, k, rfl, hk⟩
  | none =>
    refine ⟨fun s' k hk' => ?_, P.size, rfl, ?_⟩
    · have hne : s' ≠ s := by
        rintro rfl
        rw [hk] at hk'
        cases hk'
      rw [key?, List.lookup_cons, beq_false_of_ne hne]
      exact hk'
    · rw [key?, List.lookup_cons_self]

theorem addAll_extends (P : StringPool) (added : List String) : P.Extends (P.addAll added) := by
  induction added generalizing P with
  | nil => exact .refl P
  | cons s added ih => exact (P.intern_extends s).1.trans (ih _)

end StringPool

theorem Literal.word?_of_extends {P P' : StringPool} (h : P.Extends P') {v : Literal} {w : Word}
    (hw : v.word? P = some w) : v.word? P' = some w := by
  cases v with
  | str s =>
    obtain ⟨k, hk, rfl⟩ := Option.map_eq_some_iff.mp hw
    rw [Literal.word?, h s k hk, Option.map_some]
  | _ => exact hw

/-- A literal adds its string to the pool, if it is one, and its word can then be told from the
pool. -/
theorem Literal.word_spec (P : StringPool) (v : Literal) :
    (∃ added, (v.word P).2 = P.addAll added) ∧ v.word? (v.word P).2 = some (v.word P).1 := by
  cases v with
  | str s =>
    obtain ⟨-, k, hw, hk⟩ := P.intern_extends s
    refine ⟨⟨[s], rfl⟩, ?_⟩
    rw [Literal.word, Literal.word?, hk, hw, Option.map_some]
  | _ => exact ⟨⟨[], rfl⟩, rfl⟩

/-! ## Steps -/

namespace Generate

variable {α β : Type} {G G' : Prop} {x : Generate α} {st : State} {Q : α → State → Prop}
  {R : β → State → Prop} {c : Context} {op : Op} {e : GenerateError} {name : Token} {line : Line}

/-- If the step succeeds, its result satisfies `Q`; otherwise the program is at fault, and `G` does
not hold of it. -/
def Ends (G : Prop) (x : Generate α) (st : State) (Q : α → State → Prop) : Prop :=
  match x st with
  | .ok (a, st') => Q a st'
  | .error e => e.OfProgram ∧ ¬G

theorem Ends.pure {a : α} (h : Q a st) : Ends G (pure a) st Q := h

theorem Ends.fail (h : e.OfProgram) (hG : ¬G) : Ends G (fail e) st Q := ⟨h, hG⟩

theorem Ends.bind {f : α → Generate β} (hx : Ends G' x st Q) (hG : G → G')
    (hf : ∀ a st₁, Q a st₁ → Ends G (f a) st₁ R) : Ends G (x >>= f) st R := by
  have hrun : (x >>= f) st = x st >>= fun r => f r.1 r.2 := rfl
  unfold Ends at hx ⊢
  rw [hrun]
  cases h : x st with
  | ok r =>
    rw [h] at hx
    exact hf r.1 r.2 hx
  | error e =>
    rw [h] at hx
    exact ⟨hx.1, fun hg => hx.2 (hG hg)⟩

theorem Ends.mono {Q' : α → State → Prop} (h : Ends G' x st Q) (hG : G → G')
    (hQ : ∀ a st', Q a st' → Q' a st') : Ends G x st Q' := by
  have := Ends.bind h hG fun a st' ha => Ends.pure (hQ a st' ha)
  rwa [bind_pure] at this

/-- A step that succeeds if the program is in order. -/
theorem Ends.exists_ok (h : Ends G x st Q) (hG : G) : ∃ a st', x st = .ok (a, st') ∧ Q a st' := by
  unfold Ends at h
  cases hx : x st with
  | ok r =>
    rw [hx] at h
    exact ⟨r.1, r.2, rfl, h⟩
  | error e =>
    rw [hx] at h
    exact absurd hG h.2

/-! ### Steps that look something up -/

/-- A step that looks something up and fails if there is nothing. -/
theorem Ends.ofOption {o : Option α} {f : α → Generate β} (he : e.OfProgram)
    (hG : G → ∃ a, o = some a) (h : ∀ a, o = some a → Ends G (f a) st R) :
    Ends G (o.elim (Generate.fail e) Pure.pure >>= f) st R := by
  cases o with
  | some a => exact h a rfl
  | none =>
    refine ⟨he, fun hg => ?_⟩
    obtain ⟨a, ha⟩ := hG hg
    cases ha

theorem Ends.typeOf {e : Expr Mark} {f : ValueType → Generate β}
    (hG : G → ∃ T, c.notes.typeOf e = some T)
    (h : ∀ T, c.notes.typeOf e = some T → Ends G (f T) st R) :
    Ends G (typeOf c e.tag >>= f) st R := by
  have heq : Generate.typeOf c e.tag =
      (c.notes.typeOf e).elim (Generate.fail (.untyped e.tag.line)) Pure.pure := by
    rw [Generate.typeOf, Notes.typeOf]
    split <;> simp [*]
  rw [heq]
  exact .ofOption trivial hG h

theorem Ends.variableAt {b : Option Binding} {f : Int × ValueType → Generate β}
    (hG : G → ∃ info slot, b.bind (c.tree.varInfo? c.notes) = some info ∧ info.slot = some slot)
    (h : ∀ info slot, b.bind (c.tree.varInfo? c.notes) = some info → info.slot = some slot → Ends
      G (f (slot, info.type)) st R) : Ends G (variableAt c b name >>= f) st R := by
  unfold Generate.variableAt
  split
  · rename_i hb
    exact h _ _ hb rfl
  · rename_i hnone
    refine ⟨trivial, fun hg => ?_⟩
    obtain ⟨⟨type, length, _⟩, slot, hb, rfl⟩ := hG hg
    exact hnone _ _ _ hb

theorem Ends.slotOf {m : Mark} {f : Int → Generate β}
    (hG : G → ∃ slot, (c.notes.stmt m.id).slot = some slot)
    (h : ∀ slot, (c.notes.stmt m.id).slot = some slot → Ends G (f slot) st R) :
    Ends G (slotOf c m name >>= f) st R := by
  have heq : Generate.slotOf c m name =
      (c.notes.stmt m.id).slot.elim (unresolved name) Pure.pure := by
    rw [Generate.slotOf]
    split <;> simp [*]
  rw [heq]
  exact .ofOption trivial hG h

/-- The operation of a binary operator takes no operand of its own. -/
theorem Ends.binaryOp {op : Token} {l r : ValueType} {f : Op → Generate β}
    (hG : G → ∃ o, Op.ofBinary? op.kind l r = some o)
    (h : ∀ o : Op, Op.ofBinary? op.kind l r = some o → o.arity = 0 → Ends G (f o) st R) :
    Ends G (binaryOp op line (decide (l = .float) || decide (r = .float)) >>= f) st R := by
  have heq : Generate.binaryOp op line (decide (l = .float) || decide (r = .float)) =
      (Op.ofBinary? op.kind l r).elim (Generate.fail (.unsupported op.lexeme line)) Pure.pure := by
    rw [Generate.binaryOp, Op.ofBinary?, ValueType.isFloatOperation]
    split <;> rename_i ho <;> rw [ho] <;> rfl
  rw [heq]
  refine .ofOption trivial hG fun o ho => h o ho ?_
  unfold Op.ofBinary? Op.ofFloatOperator? Op.ofOperator? at ho
  split at ho <;> split at ho <;> cases ho <;> rfl

theorem Ends.get {f : State → Generate β} (h : Ends G (f st) st R) :
    Ends G (MonadState.get >>= f) st R := h

theorem Ends.loopLabels {target : Option StmtId} {keyword : String} {f : LoopLabels → Generate β}
    (hG : G → ∃ labels, target.bind (st.loops.lookup ·) = some labels)
    (h : ∀ labels, target.bind (st.loops.lookup ·) = some labels → Ends G (f labels) st R) :
    Ends G (loopLabels target keyword line >>= f) st R := by
  unfold Generate.loopLabels
  rw [bind_assoc]
  refine .get ?_
  split
  · rename_i labels hl
    exact h labels hl
  · rename_i hnone
    refine ⟨trivial, fun hg => ?_⟩
    obtain ⟨labels, hl⟩ := hG hg
    cases hl.symm.trans hnone

theorem Ends.fresh {f : LabelId → Generate β}
    (h : Ends G (f st.labels) { st with labels := st.labels + 1 } R) :
    Ends G (fresh >>= f) st R := h

theorem Ends.enterLoop {id : StmtId} {labels : LoopLabels} {f : Unit → Generate β}
    (h : Ends G (f ()) { st with loops := (id, labels) :: st.loops } R) :
    Ends G (enterLoop id labels >>= f) st R := h

/-! ### Steps that always give the same -/

theorem instr_eq {operands : List Operand} (h : operands.length = op.arity) :
    instr op operands = pure [.instr op operands] := by
  rw [instr, if_pos h]

theorem plain_eq (h : op.arity = 0) : plain op = pure [.plain op] :=
  instr_eq h.symm

theorem withWord_eq (h : op.arity = 1) (w : Word) : withWord op w = pure [.withWord op w] :=
  instr_eq h.symm

theorem withSlot_eq (h : op.arity = 1) (slot : Int) : withSlot op slot = pure [.withSlot op slot] :=
  withWord_eq h _

theorem withLabel_eq (h : op.arity = 1) (l : LabelId) : withLabel op l = pure [.withLabel op l] :=
  instr_eq h.symm

theorem convert_eq (target source : ValueType) :
    convert target source = pure (Item.narrowing target source) := by
  rw [convert, Item.narrowing]
  split
  · exact plain_eq rfl
  · rfl

theorem widen_eq (isFloat : Bool) (op : Op) (t : ValueType) :
    widen isFloat op t = pure (Item.widening isFloat op t) := by
  rw [widen, Item.widening]
  split
  · exact plain_eq rfl
  · rfl

end Generate

end StackLang
