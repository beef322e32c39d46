import StackLang.Proofs.Safety.Independence
import StackLang.Proofs.Safety.TypedCode

/-!
# Steps by types

What an instruction within a function does to the words on the stack and to the variables, if the
words have some property that goes with their types.

* `Computed` — the words that operations and literals give have the property.
* `Inv.place`, `Inv.target` — the cells and addresses that operands stand for.
* `Inv.effect` — what a step within a function leaves.
-/

namespace StackLang

open Machine (Yields Fails)

variable {vs us : List Word} {op : Op} {mem : Nat → Word} {T : ValueType}

/-! ## Words -/

/-- The cells tell the words. -/
theorem Stacked.unique {lo : Nat} (h : Stacked mem lo vs) (h' : Stacked mem lo us)
    (hlen : vs.length = us.length) : vs = us := by
  induction vs generalizing us with
  | nil => exact (List.eq_nil_of_length_eq_zero hlen.symm).symm
  | cons v vs ih =>
    cases us with
    | nil => cases hlen
    | cons u us =>
      obtain rfl := ih h.2 h'.2 (Nat.succ.inj hlen)
      rw [← h.1, ← h'.1]

/-- A word on the stack is what its type says: a value with the property, or the address of a
function. -/
def WordType.Admits (g : Generated) (Q : ValueType → Word → Prop) : WordType → Word → Prop
  | value T, w => Q T w
  | address id, w => ∃ a, g.start? id = some a ∧ w = Word.ofNat a

@[simp] theorem WordType.admits_value {g : Generated} {Q : ValueType → Word → Prop} {w : Word} :
    (WordType.value T).Admits g Q w ↔ Q T w :=
  Iff.rfl

/-- What is computed for a type has the property, whatever it is computed from. -/
structure Computed (strings : StringPool) (Q : ValueType → Word → Prop) : Prop where
  binary : ∀ {op : Op} {f ins T}, op.binary? = some f → op.signature? = some (ins, [T]) →
    ∀ a b, Q T (f a b)
  division : ∀ {op : Op} {f ins T}, op.division? = some f → op.signature? = some (ins, [T]) →
    ∀ a b, Q T (f a b)
  unary :
    ∀ {op : Op} {f ins T}, op.unary? = some f → op.signature? = some (ins, [T]) → ∀ a, Q T (f a)
  combination : ∀ {op : Op} {f}, op.binary? = some f → op.takesAny = true → ∀ a b, Q .bool (f a b)
  random : ∀ state a, Q .int (Machine.randomBelow state a)
  literal : ∀ {l : Literal} {w}, l.word? strings = some w → Q l.type w
  nothing : Q .void 0

/-- The kinds of the operations that take and leave the same types wherever they stand. -/
inductive Op.Form (op : Op) : List ValueType → List ValueType → Prop where
  | binary {f : Word → Word → Word} {S T U : ValueType} (hf : op.binary? = some f) :
      Form op [S, T] [U]
  | division {f : Word → Word → Word} {S T U : ValueType} (hf : op.division? = some f) :
    Form op [S, T] [U]
  | unary {f : Word → Word} {S T : ValueType} (hf : op.unary? = some f) : Form op [S] [T]
  | text {f : Word → String} {S : ValueType} (hf : op.text? = some f) : Form op [S] []
  | outString {S : ValueType} (hop : op = .outString) : Form op [S] []
  | jumpZero {S : ValueType} (hop : op = .jumpZero) : Form op [S] []
  | random {S : ValueType} (hop : op = .random) : Form op [S] [.int]

theorem Op.form_of_signature? {ins outs : List ValueType} (h : op.signature? = some (ins, outs)) :
    op.Form ins outs := by
  cases op <;> cases h <;>
    first
    | exact .binary rfl
    | exact .division rfl
    | exact .unary rfl
    | exact .text rfl
    | exact .outString rfl
    | exact .jumpZero rfl
    | exact .random rfl

theorem Op.binary?_of_takesAny (h : op.takesAny = true) : ∃ f, op.binary? = some f := by
  cases op <;> first | exact ⟨_, rfl⟩ | cases h

/-! ## Operands -/

/-- Whether the operand of an operation is a place or an address. -/
def Op.addresses : Op → Bool
  | peek | poke | peekAt | pokeAt | jump | jumpZero => true
  | _ => false

/-- The places and labels of an instruction are those of the routine. -/
structure Routine.Guides (K : Routine) (k : Nat) (op : Op) (operands : List Operand) : Prop where
  elementless : op ≠ .peekAt ∧ op ≠ .pokeAt
  place : op = .peek ∨ op = .poke → ∃ slot, operands = [.word (Int64.ofInt slot)] ∧ K.Fits k slot
  label : op.isJump = true → ∃ l, operands = [.label l] ∧ K.live k l

theorem Routine.guides_of_addresses (K : Routine) (k : Nat) (operands : List Operand)
    (h : op.addresses = false) : K.Guides k op operands := by
  refine ⟨⟨?_, ?_⟩, ?_, fun hjump => ?_⟩
  · rintro rfl
    cases h
  · rintro rfl
    cases h
  · rintro (rfl | rfl)
    · cases h
    · cases h
  · have haddress : op.addresses = true := by cases op <;> first | rfl | cases hjump
    rw [h] at haddress
    cases haddress

theorem Flow.guides {K : Routine} {k : Nat} {is : List Item} {σ : List Entry} (h : Flow K k is σ)
    {operands : List Operand} {rest : List Item} (his : is = .instr op operands :: rest) :
    K.Guides k op operands := by
  cases h with
  | place => cases his
  | binary hf | division hf | unary hf | text hf =>
    cases his
    exact K.guides_of_addresses k _ (by cases op <;> first | rfl | cases hf)
  | @read _ type =>
    cases his
    exact K.guides_of_addresses k _ (by cases type <;> rfl)
  | peek hs | poke hs =>
    cases his
    exact ⟨by decide, fun _ => ⟨_, rfl, hs⟩, fun hjump => by cases hjump⟩
  | jump hl | jumpZero hl =>
    cases his
    exact ⟨by decide, fun hop => absurd hop (by decide), fun _ => ⟨_, rfl, hl⟩⟩
  | _ =>
    cases his
    exact K.guides_of_addresses _ _ rfl

section

variable {X : Layout} {p : Program} {lenient : Prop} {Φ : Nat → FunctionId → Prop} {m m' : Machine}
  {F F' : Frame} {L L' : List Frame} {op : Op} {w : Word}

section

variable (hX : X.Valid p lenient) (h : Inv X Φ m F L) (hop : X.code[F.ip]? = some op.word)

include hX h hop

/-- The operand of the next instruction. -/
theorem Inv.guides :
    ∃ operands, F.home.routine.Guides F.cells op operands ∧
      ∀ o, operands[0]? = some o → X.code[F.ip + 1]? = some (o.resolve X.env) := by
  obtain ⟨F₁, h₁, hhome, hbp, hcells, op₁, operands, rest, hb⟩ := h.skip
  have hip : F₁.ip = F.ip := h₁.shows.ip.symm.trans h.shows.ip
  obtain ⟨hword, hoperands⟩ := h₁.stands.words hX hb
  rw [hip] at hword hoperands
  obtain rfl := Op.eq_of_word hword hop
  have hguides := h₁.stands.flow.guides hb
  rw [hhome, hcells] at hguides
  exact ⟨operands, hguides, hoperands⟩

/-- The cell of the next instruction, if it loads or stores a variable. -/
theorem Inv.place (hplace : op = .peek ∨ op = .poke) (hw : X.code[F.ip + 1]? = some w) :
    ∃ x : Nat, (F.bp : Int) + w.toInt = x ∧ X.code.size ≤ x ∧ x < F.lo ∧
      (F.bp ≤ x ∨ F.bp ≤ x + (F.home.routine.params + 3) ∧ x + 3 < F.bp) := by
  obtain ⟨operands, hguides, hoperands⟩ := h.guides hX hop
  obtain ⟨slot, rfl, hfits⟩ := hguides.place hplace
  cases hw.symm.trans (hoperands _ rfl)
  exact h.fits hX hfits

/-- The target of the next instruction, if it is a jump. -/
theorem Inv.target (hjump : op.isJump = true) :
    ∃ t, X.code[F.ip + 1]? = some (Word.ofNat t) ∧ t < X.code.size := by
  obtain ⟨operands, hguides, hoperands⟩ := h.guides hX hop
  obtain ⟨l, rfl, hlive⟩ := hguides.label hjump
  obtain ⟨t, ht, hlt⟩ := h.label hX hlive
  have hword := hoperands _ rfl
  rw [Operand.resolve_label ht] at hword
  exact ⟨t, hword, hlt⟩

end

/-- The words of the running function can be told from the cells. -/
theorem Inv.vs_eq (h : Inv X Φ m F L) (hsp : m.sp = F.lo + vs.length)
    (hvs : Stacked m.cell F.lo vs) : F.vs = vs := by
  have hsp' : m.sp = F.lo + F.vs.length := h.shows.sp
  exact Stacked.unique h.shows.stack hvs (by omega)

/-- A step that leads on does not fail. -/
theorem Inv.not_fails (h : Inv X Φ m F L) (hstep : Machine.step m = .ok none m') {e : Fault}
    (hf : Fails X.code X.memory Machine.step (F.view m) e) : False := by
  obtain ⟨m₁, hrun, -⟩ := hf m h.shows
  cases hstep.symm.trans hrun

/-- Where a step leads that neither calls nor returns. -/
theorem Machine.next_of_step (hop : m.nextOp? = some op) (hstep : Machine.step m = .ok none m')
    (hkind : op ≠ .call ∧ op ≠ .ret ∧ op ≠ .retValue) :
    m'.ip = m.ip + (op.arity + 1) ∧ op ≠ .jump ∨
      op.isJump = true ∧ (m.cell (m.ip + 1)).toIndex? = some m'.ip := by
  obtain ⟨op', B, hop', hends⟩ := Machine.step_ends hstep
  cases hop.symm.trans hop'
  have hnext := hends.next hkind.1 hkind.2.1 hkind.2.2
  rwa [Machine.behind_ip] at hnext

/-! ## Steps within a function -/

variable {g : Generated} {Q : ValueType → Word → Prop} {v : FunctionId × Function (Stmt Mark)}
  {σ τ : List WordType} {operand : Option Word}

/-- What a step within a function leaves: words of the types `τ` on its stack, and the cells as they
were, but for the one that it stores to. -/
structure Effect (p : Program) (g : Generated) (Q : ValueType → Word → Prop)
    (v : FunctionId × Function (Stmt Mark)) (m : Machine) (F : Frame) (m' : Machine) (op : Op)
    (operand : Option Word) (τ : List WordType) : Prop where
  words : ∃ vs, m'.sp = F.lo + vs.length ∧ Stacked m'.cell F.lo vs ∧
    List.Forall₂ (WordType.Admits g Q) τ vs
  keeps : ∀ a < F.lo, (op = .poke → ∀ w, operand = some w → (a : Int) ≠ F.bp + w.toInt) →
    m'.cell a = m.cell a
  below : ∀ a, a + (F.home.routine.params + 3) < F.bp → m'.cell a = m.cell a
  stores : op = .poke → ∃ x T, p.CellType v x T ∧ operand = some (Int64.ofInt x) ∧
    ∀ a : Nat, (a : Int) = F.bp + (Int64.ofInt x).toInt → a < F.lo ∧ Q T (m'.cell a)

/-- A step that stores nothing. -/
theorem Effect.of_yields (h : Inv X Φ m F L) (hstep : Machine.step m = .ok none m')
    (hop : op ≠ .poke) {ip : Nat} {world : World}
    (hy : Yields X.code X.memory Machine.step (F.view m) none ⟨ip, F.bp, F.lo, vs, m.cell, world⟩)
    (hvs : List.Forall₂ (WordType.Admits g Q) τ vs) : Effect p g Q v m F m' op operand τ := by
  obtain ⟨m₁, hrun, hm₁⟩ := hy m h.shows
  cases hstep.symm.trans hrun
  have hlo : F.bp ≤ F.lo := Nat.le_add_right _ _
  exact ⟨⟨vs, hm₁.sp, hm₁.stack, hvs⟩, fun a ha _ => hm₁.mem a ha,
    fun a ha => hm₁.mem a (show a < F.lo by omega), fun h => absurd h hop⟩

theorem Inv.effect_push (h : Inv X Φ m F L) (hstep : Machine.step m = .ok none m')
    (hop : X.code[F.ip]? = some Op.push.word) (hw : X.code[F.ip + 1]? = some w)
    (hvs : List.Forall₂ (WordType.Admits g Q) τ (w :: F.vs)) :
    Effect p g Q v m F m' .push operand τ := by
  have hroom : (F.view m).sp < X.memory := by
    by_contra hroom
    exact h.not_fails hstep (Machine.step_push_fails hop hw (h.full hroom))
  exact .of_yields h hstep (by decide) (Machine.step_push hop hw hroom) hvs

theorem Inv.effect_poke (hX : X.Valid p lenient) (h : Inv X Φ m F L)
    (hstep : Machine.step m = .ok none m') (hop : X.code[F.ip]? = some Op.poke.word) {slot : Int}
    (hw : X.code[F.ip + 1]? = some (Int64.ofInt slot)) (hvs : F.vs = w :: us)
    (hx : p.CellType v slot T) (hQ : Q T w) (hus : List.Forall₂ (WordType.Admits g Q) τ us) :
    Effect p g Q v m F m' .poke (some (Int64.ofInt slot)) τ := by
  have hM : X.memory ≤ 0x8000000000000000 := Nat.le_trans hX.memory (by decide)
  obtain ⟨x, hplace, hlo, hhi, hwhere⟩ := h.place hX hop (.inr rfl) hw
  obtain ⟨m₁, hrun, hm₁⟩ := Machine.step_poke hop hw hvs hplace hlo hhi hM m h.shows
  cases hstep.symm.trans hrun
  have hcell : ∀ a < F.lo, m'.cell a = Function.update m.cell x w a := hm₁.mem
  have hbp : F.bp ≤ F.lo := Nat.le_add_right _ _
  refine ⟨⟨us, hm₁.sp, hm₁.stack, hus⟩, fun a ha hne => ?_, fun a ha => ?_,
    fun _ => ⟨slot, T, hx, rfl, fun a ha => ?_⟩⟩
  · have hne := hne rfl _ rfl
    rw [hcell a ha, Function.update_of_ne (by omega)]
  · rw [hcell a (by omega), Function.update_of_ne (by omega)]
  · obtain rfl : a = x := by omega
    rw [hcell a hhi, Function.update_self]
    exact ⟨hhi, hQ⟩

/-- What a step within a function does. -/
theorem Inv.effect (hX : X.Valid p lenient) (h : Inv X Φ m F L) (hQ : Computed g.strings Q)
    (hstep : Machine.step m = .ok none m') (htakes : op.Takes p g v operand σ τ)
    (hop : X.code[F.ip]? = some op.word)
    (hoperand : op.arity = 1 → ∀ w, operand = some w → X.code[F.ip + 1]? = some w)
    (hkind : (op ≠ .call ∧ op ≠ .ret ∧ op ≠ .retValue) ∧ op ≠ .alloc)
    (hσ : List.Forall₂ (WordType.Admits g Q) σ F.vs)
    (hpeek : op = .peek → ∀ x T, p.CellType v x T → operand = some (Int64.ofInt x) →
      ∀ a : Nat, (a : Int) = F.bp + (Int64.ofInt x).toInt → Q T (m.cell a))
    (hread : ∀ T, op = Op.reading T → τ = .value T :: σ → Q T (m'.cell (m'.sp - 1))) :
    Effect p g Q v m F m' op operand τ := by
  have hM : X.memory ≤ 0x8000000000000000 := Nat.le_trans hX.memory (by decide)
  have hall := hσ
  generalize hvs : F.vs = vs at hσ
  -- one case for each way in which an operation takes words from the stack and leaves words there
  cases htakes with
  | operation hsign =>
    cases Op.form_of_signature? hsign with
    | binary hf =>
      cases hσ with
      | cons _ hσ =>
        cases hσ with
        | cons _ hσ =>
          exact .of_yields h hstep (by rintro rfl; cases hf) (Machine.step_binary hop hf hvs)
            (.cons (hQ.binary hf hsign _ _) hσ)
    | division hf =>
      cases hσ with
      | @cons _ b _ _ _ hσ =>
        cases hσ with
        | cons _ hσ =>
          have hb : b ≠ 0 := by
            rintro rfl
            exact h.not_fails hstep (Machine.step_division_fails hop hf hvs)
          exact .of_yields h hstep (by rintro rfl; cases hf) (Machine.step_division hop hf hvs hb)
            (.cons (hQ.division hf hsign _ _) hσ)
    | unary hf =>
      cases hσ with
      | cons _ hσ =>
        exact .of_yields h hstep (by rintro rfl; cases hf) (Machine.step_unary hop hf hvs)
          (.cons (hQ.unary hf hsign _) hσ)
    | text hf =>
      cases hσ with
      | cons _ hσ =>
        exact .of_yields h hstep (by rintro rfl; cases hf) (Machine.step_text hop hf hvs) hσ
    | outString hout =>
      subst hout
      cases hσ with
      | @cons _ a _ _ _ hσ =>
        cases htext : m.world.strings.get? a with
        | none => exact (h.not_fails hstep (Machine.step_outString_fails hop hvs htext)).elim
        | some text =>
          exact .of_yields h hstep (by decide) (Machine.step_outString hop hvs htext) hσ
    | jumpZero hjump =>
      subst hjump
      obtain ⟨t, ht, hlt⟩ := h.target hX hop rfl
      cases hσ with
      | cons _ hσ =>
        exact .of_yields h hstep (by decide) (Machine.step_jumpZero hop ht hvs hlt hM) hσ
    | random hrandom =>
      subst hrandom
      cases hσ with
      | cons _ hσ =>
        exact .of_yields h hstep (by decide) (Machine.step_random hop hvs rfl)
          (.cons (hQ.random _ _) hσ)
  | combination hany =>
    obtain ⟨f, hf⟩ := Op.binary?_of_takesAny hany
    cases hσ with
    | cons _ hσ =>
      cases hσ with
      | cons _ hσ =>
        exact .of_yields h hstep (by rintro rfl; cases hf) (Machine.step_binary hop hf hvs)
          (.cons (hQ.combination hf hany _ _) hσ)
  | pop =>
    cases hσ with
    | cons _ hσ => exact .of_yields h hstep (by decide) (Machine.step_pop hop hvs) hσ
  | dup =>
    cases hσ with
    | cons ha hσ =>
      have hroom : (F.view m).sp < X.memory := by
        by_contra hroom
        exact h.not_fails hstep (Machine.step_dup_fails hop hvs (h.full hroom))
      exact .of_yields h hstep (by decide) (Machine.step_dup hop hvs hroom) (.cons ha (.cons ha hσ))
  | literal hw => exact h.effect_push hstep hop (hoperand rfl _ rfl) (.cons (hQ.literal hw) hall)
  | nothing => exact h.effect_push hstep hop (hoperand rfl _ rfl) (.cons hQ.nothing hall)
  | callee ha => exact h.effect_push hstep hop (hoperand rfl _ rfl) (.cons ⟨_, ha, rfl⟩ hall)
  | peek hx =>
    obtain ⟨x, hplace, hlo, hhi, -⟩ := h.place hX hop (.inl rfl) (hoperand rfl _ rfl)
    have hroom : (F.view m).sp < X.memory := by
      by_contra hroom
      exact h.not_fails hstep
        (Machine.step_peek_fails hop (hoperand rfl _ rfl) hplace hlo hhi (h.full hroom) hM)
    exact .of_yields h hstep (by decide)
      (Machine.step_peek hop (hoperand rfl _ rfl) hplace hlo hhi hroom hM)
      (.cons (hpeek rfl _ _ hx rfl x hplace.symm) hall)
  | poke hx =>
    cases hσ with
    | cons ha hσ => exact h.effect_poke hX hstep hop (hoperand rfl _ rfl) hvs hx ha hσ
  | peekAt =>
    obtain ⟨_, hguides, -⟩ := h.guides hX hop
    exact absurd rfl hguides.elementless.1
  | pokeAt =>
    obtain ⟨_, hguides, -⟩ := h.guides hX hop
    exact absurd rfl hguides.elementless.2
  | alloc => exact absurd rfl hkind.2
  | call => exact absurd rfl hkind.1.1
  | ret => exact absurd rfl hkind.1.2.1
  | retValue => exact absurd rfl hkind.1.2.2
  | jump =>
    obtain ⟨t, ht, hlt⟩ := h.target hX hop rfl
    exact .of_yields h hstep (by decide) (Machine.step_jump hop ht hlt hM) hall
  | @read T =>
    cases hinput : m.world.read T with
    | error e => exact (h.not_fails hstep (Machine.step_read_fails hop hinput)).elim
    | ok r =>
      have hroom : (F.view m).sp < X.memory := by
        by_contra hroom
        exact h.not_fails hstep (Machine.step_read_full hop hinput (h.full hroom))
      have hy := Machine.step_read hop hinput hroom
      refine .of_yields h hstep (by cases T <;> decide) hy (.cons ?_ hall)
      -- the word that was read is on top of the stack
      obtain ⟨m₁, hrun, hm₁⟩ := hy m h.shows
      cases hstep.symm.trans hrun
      have htop : m'.cell (F.lo + F.vs.length) = r.1 := hm₁.stack.1
      have hsp : m'.sp = F.lo + (F.vs.length + 1) := hm₁.sp
      have hQr := hread T rfl rfl
      rwa [hsp, show F.lo + (F.vs.length + 1) - 1 = F.lo + F.vs.length from rfl, htop] at hQr

end

end StackLang
