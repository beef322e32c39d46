import StackLang.Proofs.Semantics.Following

/-!
# Instructions of an activation

What the instructions in the code of a function do to the words on the stack and to the cells of the
activation, beside what the evaluation does.

* `Activation.Valid.load`, `Activation.Valid.save` — reading and writing a cell.
* `Activation.operate` — a binary operator.
-/

namespace StackLang

/-! ## Operators -/

namespace Op

/-- An operand of type `t` of an operation on values of types `l` and `r`, as the code has it. -/
def operand (o : Op) (l r t : ValueType) (w : Word) : Word :=
  if l.isFloatOperation r && o ≠ .and && o ≠ .or then t.widen w else w

/-- The operation of a binary operator computes what the operator says. -/
theorem apply_of_ofBinary? {kind : Token.Kind} {l r : ValueType} {o : Op}
    (h : ofBinary? kind l r = some o) (a b : Word) : ∃ op, kind = .operator op ∧
      ((∃ f, o.binary? = some f ∧
        op.apply l r a b = some (.ok (f (o.operand l r l a) (o.operand l r r b)))) ∨
      ∃ f, o.division? = some f ∧
        op.apply l r a b =
          some (Token.Operator.divide f (o.operand l r l a) (o.operand l r r b))) := by
  have hfloat : l.isFloatOperation r = true ↔ l = .float ∨ r = .float := by
    simp [ValueType.isFloatOperation]
  cases kind with
  | operator op =>
    refine ⟨op, rfl, ?_⟩
    rw [ofBinary?] at h
    by_cases hf : l.isFloatOperation r = true
    · rw [if_pos hf] at h
      have hf' := hfloat.mp hf
      cases op <;> cases h <;>
        exact .inl ⟨_, rfl, by simp [Token.Operator.apply, Token.Operator.onIntegers,
          Token.Operator.onFloats, operand, hf, hf']⟩
    · rw [if_neg hf] at h
      have hf' := mt hfloat.mpr hf
      cases op <;> cases h <;> first
        | exact .inl ⟨_, rfl, by simp [Token.Operator.apply, Token.Operator.onIntegers, operand, hf,
            hf']⟩
        | exact .inr ⟨_, rfl, by simp [Token.Operator.apply, Token.Operator.onIntegers, operand, hf,
            hf']⟩
  | _ =>
    rw [ofBinary?] at h
    split at h <;> cases h

end Op

namespace Activation

open Machine (Yields Fails)

variable {X : Execution} {A : Activation X} {depth ip t i : Nat} {vs : List Word} {a b w : Word}
  {op : Op} {l : LabelId} {f : Word → Word → Word} {type : ValueType}

/-! ## Words on the stack -/

/-- A step that leaves the cells alone. -/
theorem step_within {ip' : Nat} {vs' : List Word} (hop : X.code[ip]? = some op.word)
    (hne : op ≠ .call) (hlen : vs.length ≤ ip → vs'.length ≤ ip')
    (h : vs.length ≤ ip → ∀ mem world, Yields X.code X.memory Machine.step (A.view ip vs mem
      world) none (A.view ip' vs' mem world)) : X.Steps (A.At ip vs) (A.At ip' vs') := by
  rintro s _ hV ⟨hheight, mem, rfl, hmem⟩
  exact ⟨_, hV.step hop hne (h hheight mem s.world), hlen hheight, mem, rfl, hmem⟩

/-- An instruction that puts its operand on the stack. -/
theorem Valid.pushOperand (hA : A.Valid depth) {o : Operand} (h : X.Located ip [.instr .push [o]]) :
    X.Steps (A.At ip vs) (A.At (ip + 2) (o.resolve X.env :: vs)) := by
  obtain ⟨hop, hw⟩ := h.words
  refine step_within hop (by decide) (by simp; omega) fun hheight mem world => ?_
  have := hA.fits hheight (Nat.lt_of_le_of_lt (Nat.le_add_right _ _) h.2)
  exact Machine.step_push hop (hw _ rfl) (by simp only [View.sp, view]; omega)

theorem Valid.push (hA : A.Valid depth) (h : X.Located ip [.withWord .push w]) :
    X.Steps (A.At ip vs) (A.At (ip + Item.size [.withWord .push w]) (w :: vs)) :=
  hA.pushOperand h

/-- Puts the address of a function on the stack. -/
theorem Valid.callee (hA : A.Valid depth) (h : X.Located ip [.withLabel .push l])
    (ht : X.env l = some t) :
    X.Steps (A.At ip vs) (A.At (ip + Item.size [.withLabel .push l]) (Word.ofNat t :: vs)) := by
  rw [← Operand.resolve_label ht]
  exact hA.pushOperand h

theorem unary {f : Word → Word} (hf : op.unary? = some f) (h : X.Located ip [.plain op]) :
    X.Steps (A.At ip (a :: vs)) (A.At (ip + Item.size [.plain op]) (f a :: vs)) := by
  refine step_within h.words.1 (by rintro rfl; cases hf) ?_ fun _ mem world => ?_
  · exact fun hheight => Nat.le_trans hheight (Nat.le_add_right _ _)
  · exact Machine.step_unary h.words.1 hf rfl

theorem binary (hf : op.binary? = some f) (h : X.Located ip [.plain op]) :
    X.Steps (A.At ip (b :: a :: vs)) (A.At (ip + Item.size [.plain op]) (f a b :: vs)) := by
  refine step_within h.words.1 (by rintro rfl; cases hf) ?_ fun _ mem world => ?_
  · exact fun hheight => Nat.le_trans (Nat.le_of_succ_le hheight) (Nat.le_add_right _ _)
  · exact Machine.step_binary h.words.1 hf rfl

theorem pop (h : X.Located ip [.plain .pop]) :
    X.Steps (A.At ip (a :: vs)) (A.At (ip + Item.size [.plain .pop]) vs) := by
  refine step_within h.words.1 (by decide) ?_ fun _ mem world => ?_
  · exact fun hheight => Nat.le_trans (Nat.le_of_succ_le hheight) (Nat.le_add_right _ _)
  · exact Machine.step_pop h.words.1 rfl

theorem Valid.dup (hA : A.Valid depth) (h : X.Located ip [.plain .dup]) :
    X.Steps (A.At ip (a :: vs)) (A.At (ip + Item.size [.plain .dup]) (a :: a :: vs)) := by
  refine step_within h.words.1 (by decide) ?_ fun hheight mem world => ?_
  · exact fun hheight => Nat.add_le_add_right hheight 1
  · have := hA.fits hheight (Nat.lt_of_le_of_lt (Nat.le_add_right _ _) h.2)
    exact Machine.step_dup h.words.1 rfl (by simp only [View.sp, view]; omega)

/-- The conversion of a value that is stored. -/
theorem narrowing {target source : ValueType} (h : X.Located ip (Item.narrowing target source)) :
    X.Steps (A.At ip (w :: vs))
      (A.At (ip + Item.size (Item.narrowing target source)) (target.convert source w :: vs)) := by
  rw [Item.narrowing] at h ⊢
  rw [ValueType.convert]
  split
  · rename_i hn
    rw [if_pos hn] at h
    exact unary rfl h
  · exact .refl _

/-- An operand is converted if the operation is one on floating-point numbers. -/
theorem widening {l r t : ValueType}
    (h : X.Located ip (Item.widening (l.isFloatOperation r) op t)) :
    X.Steps (A.At ip (w :: vs)) (A.At (ip + Item.size (Item.widening (l.isFloatOperation r) op t))
      (op.operand l r t w :: vs)) := by
  rw [Item.widening] at h ⊢
  rw [Op.operand]
  cases hop : l.isFloatOperation r && op ≠ .and && op ≠ .or with
  | false =>
    simp only [Bool.false_and, Bool.false_eq_true, if_false]
    exact .refl _
  | true =>
    simp only [hop, Bool.true_and, decide_eq_true_eq, if_true, ValueType.widen] at h ⊢
    split
    · rename_i ht
      rw [if_pos ht] at h
      exact unary rfl h
    · exact .refl _

/-! ## Operators -/

theorem divide (hf : op.division? = some f) (h : X.Located ip [.plain op]) :
    X.Follows (A.At ip (b :: a :: vs)) (Eval.attempt (Token.Operator.divide f a b)) fun w =>
      A.At (ip + Item.size [.plain op]) (w :: vs) := by
  have hop := h.words.1
  have hne : op ≠ .call := by
    rintro rfl
    cases hf
  rw [Token.Operator.divide]
  by_cases hb : b = 0
  · subst hb
    rintro s _ hV ⟨-, mem, rfl, -⟩
    exact hV.breaks (Machine.step_division_fails hop hf rfl) rfl
  · rw [if_neg hb]
    refine (step_within hop hne ?_ fun _ mem world => ?_).follows .pure
    · exact fun hheight => Nat.le_trans (Nat.le_of_succ_le hheight) (Nat.le_add_right _ _)
    · exact Machine.step_division hop hf rfl hb

/-- A binary operator on the values of two expressions, which have been converted. -/
theorem operate {op : Token} {l r : Expr Mark} {lt rt : ValueType} {o : Op}
    (hl : X.program.notes.typeOf l = some lt) (hr : X.program.notes.typeOf r = some rt)
    (ho : Op.ofBinary? op.kind lt rt = some o) (h : X.Located ip [.plain o]) :
    X.Follows (A.At ip (o.operand lt rt rt b :: o.operand lt rt lt a :: vs))
      (X.reference.operate op l r a b) fun w => A.At (ip + Item.size [.plain o]) (w :: vs) := by
  obtain ⟨op', hkind, happly⟩ := Op.apply_of_ofBinary? ho a b
  simp only [Reference.operate, Reference.typeOf, Execution.reference, hl, hr, hkind, Eval.require,
    pure_bind]
  rcases happly with ⟨f, hf, happly⟩ | ⟨f, hf, happly⟩
  · simp only [happly, pure_bind]
    exact (binary hf h).follows .pure
  · simp only [happly, pure_bind]
    exact divide hf h

/-! ## Jumps -/

theorem Valid.jump (hA : A.Valid depth) (h : X.Located ip [.withLabel .jump l])
    (ht : X.env l = some t) (hlt : t < X.code.size) : X.Steps (A.At ip []) (A.At t []) := by
  obtain ⟨hop, hw⟩ := h.words
  have hword := hw _ rfl
  rw [Operand.resolve_label ht] at hword
  have hM := hA.run.memory
  refine step_within hop (by decide) (fun _ => Nat.zero_le _) fun _ mem world => ?_
  exact Machine.step_jump hop hword hlt (by omega)

theorem Valid.jumpZero (hA : A.Valid depth) (h : X.Located ip [.withLabel .jumpZero l])
    (ht : X.env l = some t) (hlt : t < X.code.size) :
    X.Steps (A.At ip [w])
      (A.At (if w = 0 then t else ip + Item.size [.withLabel .jumpZero l]) []) := by
  obtain ⟨hop, hw⟩ := h.words
  have hword := hw _ rfl
  rw [Operand.resolve_label ht] at hword
  have hM := hA.run.memory
  refine step_within hop (by decide) (fun _ => Nat.zero_le _) fun _ mem world => ?_
  exact Machine.step_jumpZero hop hword rfl hlt (by omega)

/-! ## Cells -/

theorem Place.functional {b : Binding} {x y : Nat} (h : A.Place b i x) (h' : A.Place b i y) :
    x = y := by
  obtain ⟨_, hx, hax⟩ := h
  obtain ⟨_, hy, hay⟩ := h'
  rw [hx.functional hy] at hax
  exact Int.ofNat.inj (hax.trans hay.symm)

theorem Place.unique {b b' : Binding} {i' x : Nat} (hA : A.Valid depth) (h : A.Place b i x)
    (h' : A.Place b' i' x) : b = b' ∧ i = i' := by
  obtain ⟨y, hy, hay⟩ := h
  obtain ⟨y', hy', hay'⟩ := h'
  obtain rfl : y = y' := by omega
  exact hy.unique hy' hA.named

/-- The address of a cell. -/
theorem Valid.place (hA : A.Valid depth) {b : Binding} {x : Int}
    (h : X.program.tree.CellAt X.program.notes A.id A.f b i x) :
    ∃ y : Nat, A.Place b i y ∧ A.Owns y ∧ (A.bp : Int) + x = y ∧ (Int64.ofInt x).toInt = x ∧
      X.code.size ≤ y ∧ y < A.bp + A.cells := by
  have hbelow := hA.below
  have hroom := hA.room
  have hM := hA.run.memory
  have hcells := hA.cells_le
  have hrange := h.range hA.named
  rw [Execution.frame, Nat.succ_mul] at hroom
  rw [show X.program.tree.cells A.f.body.tags = A.cells from rfl] at hrange
  refine ⟨((A.bp : Int) + x).toNat, ⟨x, h, by omega⟩, ?_, by omega, ?_, by omega, by omega⟩
  · rw [Owns]
    omega
  · rw [Int64.toInt_ofInt_of_le (by omega) (by omega)]

/-- Writing a cell of the activation is writing it in the store. -/
theorem Holds.update {mem : Nat → Word} {σ : Store} (h : A.Holds mem σ) (hA : A.Valid depth)
    {b : Binding} {x : Nat} (hx : A.Place b i x) (hown : A.Owns x) (w : Word) :
    A.Holds (Function.update mem x w)
      (Function.update σ b (Function.update (σ b) i w)) where
  own b' i' x' hx' := by
    by_cases hxx : x' = x
    · subst hxx
      obtain ⟨rfl, rfl⟩ := hx.unique hA hx'
      simp
    · rw [Function.update_of_ne hxx, h.own _ _ _ hx']
      by_cases hb : b' = b
      · subst hb
        have hi : i' ≠ i := by
          rintro rfl
          exact hxx (hx'.functional hx)
        rw [Function.update_self, Function.update_of_ne hi]
      · rw [Function.update_of_ne hb]
  other y hy hnot := by
    have hne : y ≠ x := by
      rintro rfl
      exact hnot hown
    rw [Function.update_of_ne hne]
    exact h.other y hy hnot

section

variable {β : Binding} {i : Nat} {x : Int}

theorem Valid.load (hA : A.Valid depth)
    (hx : X.program.tree.CellAt X.program.notes A.id A.f β i x)
    (h : X.Located ip [.withSlot .peek x]) :
    X.Follows (A.At ip vs) (Eval.load β i) fun w =>
      A.At (ip + Item.size [.withSlot .peek x]) (w :: vs) := by
  rintro s _ hV ⟨hheight, mem, rfl, hmem⟩
  obtain ⟨y, hplace, -, haddr, hint, hlo, hhi⟩ := hA.place hx
  obtain ⟨hop, hw⟩ := h.words
  have hM := hA.run.memory
  have hroom := hA.fits hheight (Nat.lt_of_le_of_lt (Nat.le_add_right _ _) h.2)
  refine ⟨_, hV.step hop (by decide) (Machine.step_peek hop (hw _ rfl) (x := y) ?_ hlo hhi ?_ ?_),
    ?_, mem, ?_, hmem⟩
  · rw [Operand.resolve, hint]
    exact haddr
  · simp only [View.sp, view]
    omega
  · omega
  · simp only [Item.withSlot, Item.withWord, Item.size_instr, List.length_cons]
    omega
  · simp only [view, hmem.own _ _ _ hplace]
    rfl

theorem Valid.save (hA : A.Valid depth)
    (hx : X.program.tree.CellAt X.program.notes A.id A.f β i x)
    (h : X.Located ip [.withSlot .poke x]) :
    X.Follows (A.At ip (w :: vs)) (Eval.save β i w) fun _ =>
      A.At (ip + Item.size [.withSlot .poke x]) vs := by
  rintro s _ hV ⟨hheight, mem, rfl, hmem⟩
  obtain ⟨y, hplace, hown, haddr, hint, hlo, hhi⟩ := hA.place hx
  obtain ⟨hop, hw⟩ := h.words
  have hM := hA.run.memory
  refine ⟨_, hV.step hop (by decide) (Machine.step_poke hop (hw _ rfl) rfl (x := y) ?_ hlo hhi ?_),
    ?_, _, rfl, hmem.update hA hplace hown w⟩
  · rw [Operand.resolve, hint]
    exact haddr
  · omega
  · exact Nat.le_trans (Nat.le_of_succ_le hheight) (Nat.le_add_right _ _)

end

/-! ## Elements -/

/-- An index is one of the elements, or nothing is said. -/
theorem index {P : Assertion} {info : VarInfo} :
    X.Follows P (Eval.index info w) fun i s V =>
      (w.toInt = i ∧ i < info.length.getD 0) ∧ P s V := by
  rw [Eval.index]
  split
  · rename_i i hi
    split
    · rename_i hlt
      exact fun s V hV hP => ⟨V, hV, ⟨Word.toIndex?_eq_some_iff.mp hi, hlt⟩, hP⟩
    · exact .halt (by simp)
  · exact .halt (by simp)

section

variable {β : Binding} {i : Nat} {slot : Int}

section

variable (hA : A.Valid depth) (hx : X.program.tree.CellAt X.program.notes A.id A.f β i (slot + i))
  (hfirst : X.program.tree.CellAt X.program.notes A.id A.f β 0 slot) (hi : w.toInt = i)

include hA hx hfirst hi

/-- The address of an element is found from the place of the array and the index. -/
theorem Valid.element_address : (Int64.ofInt slot + w).toInt = slot + i := by
  obtain ⟨y, -, -, haddr, -, -, hhi⟩ := hA.place hx
  obtain ⟨z, -, -, -, hint, -⟩ := hA.place hfirst
  have hroom := hA.room
  have hM := hA.run.memory
  have hcells := hA.cells_le
  have hbelow := hA.below
  rw [Execution.frame, Nat.succ_mul] at hroom
  rw [Int64.toInt_add, hint, hi]
  exact Int.bmod_eq_of_le (by omega) (by omega)

theorem Valid.loadAt (h : X.Located ip [.withSlot .peekAt slot]) :
    X.Follows (A.At ip (w :: vs)) (Eval.load β i) fun v =>
      A.At (ip + Item.size [.withSlot .peekAt slot]) (v :: vs) := by
  rintro s _ hV ⟨hheight, mem, rfl, hmem⟩
  obtain ⟨y, hplace, -, haddr, -, hlo, hhi⟩ := hA.place hx
  obtain ⟨hop, hw⟩ := h.words
  have hM := hA.run.memory
  refine ⟨_,
    hV.step hop (by decide) (Machine.step_peekAt hop (hw _ rfl) rfl (x := y) ?_ hlo hhi ?_),
    ?_, mem, ?_, hmem⟩
  · rw [Operand.resolve, hA.element_address hx hfirst hi]
    exact haddr
  · omega
  · exact Nat.le_trans hheight (Nat.le_add_right _ _)
  · simp only [view, hmem.own _ _ _ hplace]
    rfl

theorem Valid.saveAt (h : X.Located ip [.withSlot .pokeAt slot]) :
    X.Follows (A.At ip (w :: a :: vs)) (Eval.save β i a) fun _ =>
      A.At (ip + Item.size [.withSlot .pokeAt slot]) vs := by
  rintro s _ hV ⟨hheight, mem, rfl, hmem⟩
  obtain ⟨y, hplace, hown, haddr, -, hlo, hhi⟩ := hA.place hx
  obtain ⟨hop, hw⟩ := h.words
  have hM := hA.run.memory
  refine ⟨_,
    hV.step hop (by decide) (Machine.step_pokeAt hop (hw _ rfl) rfl (x := y) ?_ hlo hhi ?_),
    ?_, _, rfl, hmem.update hA hplace hown a⟩
  · rw [Operand.resolve, hA.element_address hx hfirst hi]
    exact haddr
  · omega
  · rw [List.length_cons, List.length_cons] at hheight
    omega

end

end

/-! ## Input, output and random numbers -/

theorem Valid.read (hA : A.Valid depth) (h : X.Located ip [.plain (Op.reading type)]) :
    X.Follows (A.At ip vs) (Eval.read type) fun w =>
      A.At (ip + Item.size [.plain (Op.reading type)]) (w :: vs) := by
  rintro s _ hV ⟨hheight, mem, rfl, hmem⟩
  have hop := h.words.1
  rw [Eval.read]
  cases hread : s.world.read type with
  | ok r =>
    obtain ⟨w, world⟩ := r
    have hroom := hA.fits hheight (Nat.lt_of_le_of_lt (Nat.le_add_right _ _) h.2)
    refine ⟨_, hV.step hop ?_ (Machine.step_read hop hread ?_), ?_, mem, rfl, hmem⟩
    · cases type <;> decide
    · simp only [View.sp, view]
      omega
    · exact Nat.add_le_add_right hheight 1
  | error e =>
    cases he : e.failure? with
    | none =>
      simp only [he, Option.elim]
      trivial
    | some f =>
      simp only [he, Option.elim]
      exact hV.breaks (Machine.step_read_fails hop hread) he

theorem write {f : Word → String} (hf : op.text? = some f) (h : X.Located ip [.plain op]) :
    X.Follows (A.At ip (w :: vs)) (Eval.write (f w)) fun _ =>
      A.At (ip + Item.size [.plain op]) vs := by
  rintro s _ hV ⟨hheight, mem, rfl, hmem⟩
  refine ⟨_, hV.step h.words.1 (by rintro rfl; cases hf) (Machine.step_text h.words.1 hf rfl), ?_,
    mem, rfl, hmem⟩
  exact Nat.le_trans (Nat.le_of_succ_le hheight) (Nat.le_add_right _ _)

theorem print (hop : Op.printing? type = some op) (h : X.Located ip [.plain op]) :
    X.Follows (A.At ip (w :: vs)) (Eval.print type w) fun _ =>
      A.At (ip + Item.size [.plain op]) vs := by
  cases type with
  | string =>
    cases hop
    rintro s _ hV ⟨hheight, mem, rfl, hmem⟩
    simp only [Eval.print]
    cases htext : s.world.strings.get? w with
    | none => exact hV.breaks (Machine.step_outString_fails h.words.1 rfl htext) rfl
    | some text =>
      refine ⟨_, hV.step h.words.1 (by decide) (Machine.step_outString h.words.1 rfl htext),
        ?_, mem, rfl, hmem⟩
      exact Nat.le_trans (Nat.le_of_succ_le hheight) (Nat.le_add_right _ _)
  | void => cases hop
  | int =>
    cases hop
    exact write (f := fun a => toString a.toInt) rfl h
  | float =>
    cases hop
    exact write (f := Double.write) rfl h
  | char =>
    cases hop
    exact write (f := fun a => (Machine.charOf a).toString) rfl h
  | bool =>
    cases hop
    exact write (f := fun a => if a = 0 then "false" else "true") rfl h

theorem draw (h : X.Located ip [.plain .random]) :
    X.Follows (A.At ip (w :: vs)) (Eval.draw w) fun v =>
      A.At (ip + Item.size [.plain .random]) (v :: vs) := by
  rintro s _ hV ⟨hheight, mem, rfl, hmem⟩
  rw [Eval.draw]
  generalize hstate : Machine.nextRandom s.world.rng = state
  refine ⟨_, hV.step h.words.1 (by decide) (Machine.step_random h.words.1 rfl hstate), ?_, mem, rfl,
    hmem⟩
  exact Nat.le_trans hheight (Nat.le_add_right _ _)

end Activation

end StackLang
