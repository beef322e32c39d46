import StackLang.Proofs.Safety.StackMap

/-!
# Typed addresses

The code of each function has a place of its own, and each address in it a list of types for the
words on the stack.  What an instruction does to the types can be told from the address alone,
without the items that the code was assembled from.

* `Generated.Runs` — the address is one in the code of the function.
* `Item.Stored` — a value that is read from the input is stored at once.
* `TypedAt` — the types of the words on the stack at an address of a function.
* `ResumesAt.exists_instructed` — what the instruction at an address does to the types.
-/

namespace StackLang

open Generate (Context)

variable {id : FunctionId} {start a : Nat} {is : List Item}
  {v : FunctionId × Function (Stmt Mark)} {op step : Op} {kind : Token.Kind} {p : Program}
  {P : StringPool}

/-! ## Where functions are -/

/-- The address is one in the code of the function. -/
def Generated.Runs (g : Generated) (v : FunctionId × Function (Stmt Mark)) (a : Nat) : Prop :=
  ∃ start, g.start? v.1 = some start ∧ start ≤ a ∧ a < g.stop v.1

/-- The first functions have code. -/
def Generated.Occupied (g : Generated) (n : Nat) : Prop :=
  ∀ id < n, ∃ start, g.start? id = some start ∧ start < g.stop id

section

variable {g : Generated} {n : Nat} {id' : FunctionId}

/-- The code of a function ends before that of a later one begins. -/
theorem Generated.Occupied.stop_le (h : g.Occupied n) (hlt : id < id') (hn : id' < n)
    (hstart : g.start? id' = some start) : g.stop id ≤ start := by
  induction id' generalizing start with
  | zero => exact absurd hlt (Nat.not_lt_zero _)
  | succ k ih =>
    -- the code of function `k` ends where that of the next one begins
    have hstop : g.stop k = start := by rw [Generated.stop, hstart, Option.getD_some]
    rcases Nat.lt_succ_iff_lt_or_eq.mp hlt with hk | rfl
    · obtain ⟨first, hfirst, hpos⟩ := h k (Nat.lt_of_succ_lt hn)
      have := ih hk (Nat.lt_of_succ_lt hn) hfirst
      omega
    · exact Nat.le_of_eq hstop

/-- No two functions have an address in common. -/
theorem Generated.Occupied.unique (h : g.Occupied n) {start' : Nat} (hid : id < n)
    (hid' : id' < n) (hstart : g.start? id = some start) (hstart' : g.start? id' = some start')
    (hle : start ≤ a) (hlt : a < g.stop id) (hle' : start' ≤ a) (hlt' : a < g.stop id') :
    id = id' := by
  rcases Nat.lt_trichotomy id id' with hcase | hcase | hcase
  · have := h.stop_le hcase hid' hstart'
    omega
  · exact hcase
  · have := h.stop_le hcase hid hstart
    omega

/-- No two functions begin at the same address. -/
theorem Generated.Occupied.start_inj (h : g.Occupied n) (hid : id < n) (hid' : id' < n)
    (hstart : g.start? id = some start) (hstart' : g.start? id' = some start) : id = id' := by
  obtain ⟨a, ha, hlt⟩ := h id hid
  obtain ⟨a', ha', hlt'⟩ := h id' hid'
  cases ha.symm.trans hstart
  cases ha'.symm.trans hstart'
  exact h.unique hid hid' hstart hstart' (Nat.le_refl _) hlt (Nat.le_refl _) hlt'

/-- An address is that of one function only. -/
theorem Generated.Occupied.runs_unique {t : Tree} (h : g.Occupied t.functions.size)
    (ht : t.Orderly) {w : FunctionId × Function (Stmt Mark)} (hv : v ∈ t.views) (hw : w ∈ t.views)
    (hva : g.Runs v a) (hwa : g.Runs w a) : v = w := by
  have hlt : ∀ u ∈ t.views, u.1 < t.functions.size := fun u hu =>
    (Array.getElem?_eq_some_iff.mp (ht.functions u hu)).1
  obtain ⟨start, hstart, hle, hlt₁⟩ := hva
  obtain ⟨start', hstart', hle', hlt₂⟩ := hwa
  have hid := h.unique (hlt v hv) (hlt w hw) hstart hstart' hle hlt₁ hle' hlt₂
  have hbody := Tree.function?_of_mem_views hv
  rw [hid, Tree.function?_of_mem_views hw] at hbody
  exact Prod.ext hid (Option.some.inj hbody).symm

end

/-! ## Reading and storing -/

/-- Whether the operation reads a value from the input. -/
def Op.isReading : Op → Bool
  | inInt | inFloat | inChar | inString => true
  | _ => false

theorem Op.isReading_reading (T : ValueType) : (Op.reading T).isReading = true := by
  cases T <;> rfl

theorem Op.goesOn_of_isReading (h : op.isReading = true) : op.goesOn = true := by
  cases op <;> first | rfl | cases h

namespace Item

/-- Whether the item reads a value from the input. -/
def reads : Item → Bool
  | instr op _ => op.isReading
  | place _ => false

/-- Nothing is read from the input. -/
def Silent (is : List Item) : Prop :=
  ∀ i ∈ is, i.reads = false

/-- A value that is read from the input is stored at once. -/
def Stored (is : List Item) : Prop :=
  ∀ pre op operands suf, is = pre ++ .instr op operands :: suf → op.isReading = true →
    ∃ slot rest, suf = .withSlot .poke slot :: rest

@[simp] theorem silent_nil : Silent [] := by
  simp [Silent]

@[simp] theorem silent_append {js : List Item} : Silent (is ++ js) ↔ Silent is ∧ Silent js :=
  List.forall_mem_append

@[simp] theorem silent_cons {i : Item} : Silent (i :: is) ↔ i.reads = false ∧ Silent is :=
  List.forall_mem_cons

@[simp] theorem reads_plain (op : Op) : (plain op).reads = op.isReading := rfl

@[simp] theorem reads_withWord (op : Op) (w : Word) : (withWord op w).reads = op.isReading := rfl

@[simp] theorem reads_withSlot (op : Op) (slot : Int) :
    (withSlot op slot).reads = op.isReading := rfl

@[simp] theorem reads_withLabel (op : Op) (l : LabelId) :
    (withLabel op l).reads = op.isReading := rfl

@[simp] theorem reads_place (l : LabelId) : (place l).reads = false := rfl

@[simp] theorem silent_narrowing (target source : ValueType) :
    Silent (narrowing target source) := by
  rw [narrowing]
  split <;> simp [Op.isReading]

@[simp] theorem silent_widening (isFloat : Bool) (op : Op) (t : ValueType) :
    Silent (widening isFloat op t) := by
  rw [widening]
  split <;> simp [Op.isReading]

@[simp] theorem silent_reserving (cells : Nat) : Silent (reserving cells) := by
  rw [reserving]
  split <;> simp [Op.isReading]

theorem silent_counting (h : step.isReading = false) (trailing : Bool) (slot : Int) :
    Silent (counting step trailing slot) := by
  rw [counting, silent_append]
  refine ⟨by simp [Op.isReading], ?_⟩
  split
  · simp only [silent_cons]
    exact ⟨rfl, rfl, h, rfl, silent_nil⟩
  · simp only [silent_cons]
    exact ⟨rfl, h, rfl, rfl, silent_nil⟩

namespace Stored

variable {is js : List Item}

theorem of_silent (h : Silent is) : Stored is := by
  rintro pre op operands suf rfl hop
  have := h (.instr op operands) (by simp)
  simp [reads, hop] at this

theorem append (hi : Stored is) (hj : Stored js) : Stored (is ++ js) := by
  intro pre op operands suf hsplit hop
  rcases List.append_eq_append_iff.mp hsplit with ⟨pre', rfl, hjs⟩ | ⟨rest, rfl, hrest⟩
  · exact hj pre' op operands suf hjs hop
  · cases rest with
    | nil => exact hj [] op operands suf hrest.symm hop
    | cons i rest =>
      obtain ⟨rfl, rfl⟩ : .instr op operands = i ∧ suf = rest ++ js := by simpa using hrest
      obtain ⟨slot, rest', rfl⟩ := hi pre op operands rest rfl hop
      exact ⟨slot, rest' ++ js, rfl⟩

end Stored

end Item

theorem Op.isReading_of_ofBinary? {l r : ValueType} {o : Op} (h : Op.ofBinary? kind l r = some o) :
    o.isReading = false := by
  unfold Op.ofBinary? Op.ofFloatOperator? Op.ofOperator? at h
  split at h <;> split at h <;> cases h <;> rfl

theorem Op.isReading_of_ofCounting? (h : Op.ofCounting? kind = some step) :
    step.isReading = false := by
  unfold Op.ofCounting? at h
  split at h <;> cases h <;> rfl

theorem Op.isReading_of_printing? {T : ValueType} (h : Op.printing? T = some op) :
    op.isReading = false := by
  cases T <;> cases h <;> rfl

section

variable {c : Context} {P : StringPool} {is : List Item} {e : Option (Expr Mark)}
  {es : List (Expr Mark)}

mutual

/-- Expressions read nothing from the input. -/
theorem Expr.Code.silent {e : Expr Mark} {is : List Item} : e.Code c P is → Item.Silent is
  | .literal _ | .name _ _ => by simp [Op.isReading]
  | .grouping hc | .plus _ hc => hc.silent
  | .binary _ _ ho left right => by
    simp [left.silent, right.silent, Op.isReading_of_ofBinary? ho]
  | .minus _ _ hc => by
    simp only [Item.silent_append, Item.silent_cons, hc.silent]
    split <;> simp [Op.isReading]
  | .not _ hc | .random hc => by simp [hc.silent, Op.isReading]
  | .count hop _ _ => Item.silent_counting (Op.isReading_of_ofCounting? hop) _ _
  | .assign _ _ _ value => by simp [value.silent, Op.isReading]
  | .assignElement _ _ _ value index => by simp [value.silent, index.silent, Op.isReading]
  | .call _ _ hargs => by
    simp only [Item.silent_append, Item.silent_cons, hargs.silent]
    split <;> simp [Op.isReading]
  | .element _ _ index => by simp [index.silent, Op.isReading]

theorem Expr.ArgsCode.silent {es : List (Expr Mark)} {ps : List Param} {is : List Item} :
    Expr.ArgsCode c P es ps is → Item.Silent is
  | .nil => Item.silent_nil
  | .cons _ hc hcs => by simp [hc.silent, hcs.silent]

end

theorem Expr.ElementsCode.silent {type : ValueType} {slot : Int}
    (h : Expr.ElementsCode c P type slot es is) : Item.Silent is := by
  induction h with
  | nil => exact Item.silent_nil
  | cons _ hc _ ih => simp [hc.silent, ih, Op.isReading]

theorem Expr.OutputsCode.silent (h : Expr.OutputsCode c P es is) : Item.Silent is := by
  induction h with
  | nil => exact Item.silent_nil
  | cons _ hop hc _ ih => simp [hc.silent, ih, Op.isReading_of_printing? hop]

theorem Expr.OptionalCode.stored {op : Op} {operands : List Operand}
    (h : Expr.OptionalCode c P [.instr op operands] e is) (hop : op.isReading = false) :
    Item.Stored is := by
  cases h with
  | none => exact .of_silent Item.silent_nil
  | some hc => exact .of_silent (by simp [hc.silent, Item.reads, hop])

open Item Stored in
mutual

/-- A statement that reads a value stores it at once. -/
theorem Stmt.Code.stored {loop : Option LoopLabels} {s : Stmt Mark} {is : List Item} :
    s.Code c P loop is → Item.Stored is
  | .block hbody => hbody.stored
  | .ret _ hc => of_silent (by simp [hc.silent, Op.isReading])
  | .retVoid | .varBlank | .arrayBlank | .stop | .skip => of_silent (by simp [Op.isReading])
  | .expression hc => hc.stored rfl
  | .choice hbranches hotherwise =>
    (hbranches.stored.append hotherwise.stored).append (of_silent (by simp))
  | .whileLoop hguard hbody =>
    ((((of_silent (by simp)).append (hguard.stored rfl)).append hbody.stored).append
      (of_silent (by simp [Op.isReading]))).append (of_silent (by simp))
  | .forLoop hinit hguard hbody hupdate =>
    ((((((hinit.stored.append (of_silent (by simp))).append (hguard.stored rfl)).append
      hbody.stored).append (of_silent (by simp))).append (hupdate.stored rfl)).append
      (of_silent (by simp [Op.isReading]))).append (of_silent (by simp))
  | .output hvalues => of_silent hvalues.silent
  | .input _ _ => by
    -- the only instruction before the store is the one that reads
    intro pre op operands suf hsplit hop
    cases pre with
    | nil =>
      obtain ⟨-, rfl⟩ := List.cons.inj hsplit
      exact ⟨_, [], rfl⟩
    | cons i pre =>
      obtain ⟨-, hrest⟩ := List.cons.inj hsplit
      obtain ⟨rfl, hlast, rfl⟩ : pre = [] ∧ _ ∧ suf = [] := by
        simpa [List.singleton_eq_append_iff] using hrest
      cases hlast
      cases hop
  | .var _ _ hc => of_silent (by simp [hc.silent, Op.isReading])
  | .array _ hes => of_silent hes.silent

theorem Stmt.ListCode.stored {loop : Option LoopLabels} {ss : List (Stmt Mark)} {is : List Item} :
    Stmt.ListCode c P loop ss is → Item.Stored is
  | .nil => of_silent Item.silent_nil
  | .cons hs hss => hs.stored.append hss.stored

theorem Stmt.ArmsCode.stored {loop : Option LoopLabels} {stop : LabelId}
    {bs : List (Expr Mark × Stmt Mark)} {is : List Item} :
    Stmt.ArmsCode c P loop stop bs is → Item.Stored is
  | .nil => of_silent Item.silent_nil
  | .cons hguard hbody hrest =>
    ((((hguard.stored rfl).append hbody.stored).append
      (of_silent (by simp [Op.isReading]))).append (of_silent (by simp))).append hrest.stored

theorem Stmt.OptionCode.stored {loop : Option LoopLabels} {s : Option (Stmt Mark)}
    {is : List Item} : Stmt.OptionCode c P loop s is → Item.Stored is
  | .none => of_silent Item.silent_nil
  | .some hs => hs.stored

end

end

theorem Function.Code.stored {f : Function (Stmt Mark)} (h : Function.Code p P id f is) :
    Item.Stored is := by
  obtain ⟨hbody⟩ := h
  exact (((Item.Stored.of_silent (by simp)).append (.of_silent (by simp))).append
    hbody.stored).append (.of_silent (by simp [Op.isReading]))

/-! ## Operations that stand alone -/

/-- What the operations that do more than to compute find on the stack, by types, and what they
leave there. -/
def Op.Demands (p : Program) (v : FunctionId × Function (Stmt Mark)) (op : Op) (w : Option Word)
    (σ τ : List WordType) : Prop :=
  match op with
  | .alloc => σ = [] ∧ τ = []
  | .peek => ∃ x T, p.CellType v x T ∧ w = some (Int64.ofInt x) ∧ τ = .value T :: σ
  | .poke => ∃ x T, p.CellType v x T ∧ w = some (Int64.ofInt x) ∧ σ = .value T :: τ
  | .call => ∃ id f σ', p.tree.functions[id]? = some f ∧ w = some (Word.ofNat f.params.length) ∧
      σ = (f.params.map fun q => .value q.type).reverse ++ .address id :: σ' ∧
      τ = WordType.result f.returnType ++ σ'
  | .ret => σ = []
  | .retValue => σ = [.value v.2.returnType]
  | _ => True

theorem Op.Takes.demands {g : Generated} {w : Option Word} {σ τ : List WordType}
    (h : op.Takes p g v w σ τ) : op.Demands p v w σ τ := by
  cases h with
  | operation hsign | combination hany => cases op <;> trivial
  | read => cases ‹ValueType› <;> trivial
  | alloc => exact ⟨rfl, rfl⟩
  | peek hx | poke hx => exact ⟨_, _, hx, rfl, rfl⟩
  | call hf => exact ⟨_, _, _, hf, rfl, rfl, rfl⟩
  | ret => rfl
  | retValue => rfl
  | _ => trivial

/-! ## Addresses -/

/-- Where the code of a function lies, and the types of the words on its stack. -/
structure Mapped (p : Program) (g : Generated) (env : Addresses)
    (v : FunctionId × Function (Stmt Mark)) (start : Nat) (is : List Item)
    (types : Nat → List WordType) : Prop where
  address : g.start? v.1 = some start
  lies : Item.Lies g.code env start is
  fits : ∀ i ∈ is, i.Fits
  stored : Item.Stored is
  map : StackMap p g env v start (g.stop v.1) (Item.instructions env start is) types

/-- At the address, the code of the function goes on with words of the given types on the stack. -/
def TypedAt (p : Program) (g : Generated) (env : Addresses) (v : FunctionId × Function (Stmt Mark))
    (a : Nat) (σ : List WordType) : Prop :=
  ∃ start is types, Mapped p g env v start is types ∧
    StackMap.Expects start (g.stop v.1) (Item.instructions env start is) types a σ

/-- The code begins with a call of the function. -/
structure Program.BeginsWith (p : Program) (g : Generated) (v : FunctionId × Function (Stmt Mark)) :
    Prop where
  function : ∃ f, p.tree.functions[v.1]? = some f ∧ f.params = []
  push : g.code[0]? = some Op.push.word
  address : ∃ a, g.start? v.1 = some a ∧ g.code[1]? = some (Word.ofNat a)
  call : g.code[2]? = some Op.call.word
  count : g.code[3]? = some (Word.ofNat 0)
  exit : g.code[4]? = some Op.exit.word

/-- At the address, the function or the code that calls it at the beginning goes on with words of
the given types on the stack. -/
inductive ResumesAt (p : Program) (g : Generated) (env : Addresses)
    (v : FunctionId × Function (Stmt Mark)) : Nat → List WordType → Prop where
  | body {a : Nat} {σ : List WordType} (h : TypedAt p g env v a σ) : ResumesAt p g env v a σ
  | entry (h : p.BeginsWith g v) : ResumesAt p g env v 0 []
  | call (h : p.BeginsWith g v) : ResumesAt p g env v 2 [.address v.1]
  | exit {σ : List WordType} (h : p.BeginsWith g v) : ResumesAt p g env v 4 σ

/-- The instruction at an address of the function, which leads from words of the types `σ` to words
of the types `τ`. -/
structure InstructedAt (p : Program) (g : Generated) (env : Addresses)
    (v : FunctionId × Function (Stmt Mark)) (a : Nat) (op : Op) (w : Option Word)
    (σ τ : List WordType) : Prop where
  takes : op.Takes p g v w σ τ
  operand : op.arity = 1 → ∃ x, w = some x ∧ g.code[a + 1]? = some x
  next : op.goesOn = true → ResumesAt p g env v (a + (op.arity + 1)) τ
  jump : op.isJump = true → ∀ x t, w = some x → x.toIndex? = some t → ResumesAt p g env v t τ
  stored : op.isReading = true → g.code[a + (op.arity + 1)]? = some Op.poke.word ∧
    TypedAt p g env v (a + (op.arity + 1)) τ

section

variable {p : Program} {g : Generated} {env : Addresses} {v : FunctionId × Function (Stmt Mark)}
  {a : Nat} {σ : List WordType} {op : Op} {code : Array Word}

theorem TypedAt.runs (h : TypedAt p g env v a σ) : g.Runs v a := by
  obtain ⟨start, is, types, hmap, hle, hlt, -, -⟩ := h
  exact ⟨start, hmap.address, hle, hlt⟩

/-- The words of an instruction among items that lie in the code. -/
theorem Item.Lies.instruction {pre suf : List Item} {operands : List Operand}
    (h : Item.Lies code env start (pre ++ .instr op operands :: suf))
    (hfits : operands.length = op.arity) :
    code[start + Item.size pre]? = some op.word ∧
      (op.arity = 1 → ∃ x, (operands.map (Operand.resolve env)).head? = some x ∧
        code[start + Item.size pre + 1]? = some x) ∧
      Item.Lies code env (start + Item.size pre + (op.arity + 1)) suf := by
  have hown := (Item.lies_append.mp h).2
  refine ⟨hown.1 0 _ rfl, fun harity => ?_, ?_⟩
  · cases operands with
    | nil =>
      rw [← hfits] at harity
      cases harity
    | cons o os => exact ⟨_, rfl, hown.1 1 o rfl⟩
  · rw [← hfits]
    exact hown.2

/-- There is one operation at an address. -/
theorem Op.eq_of_word {op' : Op} (h : code[a]? = some op.word) (h' : code[a]? = some op'.word) :
    op = op' := by
  have hwords := congrArg Op.ofWord? (Option.some.inj (h.symm.trans h'))
  rw [Op.ofWord?_word, Op.ofWord?_word] at hwords
  exact Option.some.inj hwords

/-- What the instruction at an address of a function does. -/
theorem TypedAt.exists_instructed (h : TypedAt p g env v a σ) (hop : g.code[a]? = some op.word)
    (hsize : g.code.size < 0x8000000000000000) : ∃ w τ, InstructedAt p g env v a op w σ τ := by
  obtain ⟨start, is, types, hmap, hle, hlt, ⟨i, hi, rfl⟩, rfl⟩ := h
  obtain ⟨pre, op', operands, suf, rfl, rfl⟩ := Item.exists_of_mem_instructions hi
  have hfits : operands.length = op'.arity := hmap.fits (.instr op' operands) (by simp)
  obtain ⟨hword, hoperand, hbehind⟩ := hmap.lies.instruction hfits
  obtain rfl := Op.eq_of_word hword hop
  obtain ⟨τ, htakes, hnext, hjump⟩ := hmap.map.instructions _ hi hle hlt
  have hend := Instruction.next_eq env start pre hfits
  rw [Item.size_append, Item.size_instr, Item.size_nil, Nat.add_zero, hfits,
    ← Nat.add_assoc] at hend
  rw [hend] at hnext
  refine ⟨_, τ, htakes, hoperand, fun hgoes => .body ⟨start, _, types, hmap, hnext hgoes⟩,
    fun hj x t hx ht => ?_, fun hread => ⟨?_, start, _, types, hmap, hnext ?_⟩⟩
  · obtain ⟨b, rfl, hexpects⟩ := hjump x (by rw [Instruction.jumpTarget?, if_pos hj]; exact hx)
    -- the target is an address of the code, which is small enough for a word
    obtain ⟨-, -, ⟨j, hj, rfl⟩, -⟩ := id hexpects
    obtain ⟨pre', op', operands', suf', heq, rfl⟩ := Item.exists_of_mem_instructions hj
    have hlies := hmap.lies
    rw [heq] at hlies
    have hfits' : operands'.length = op'.arity :=
      hmap.fits (.instr op' operands') (by rw [heq]; simp)
    have hbound := (Array.getElem?_eq_some_iff.mp (hlies.instruction hfits').1).1
    rw [Word.toIndex?_ofNat (Nat.lt_trans hbound hsize)] at ht
    cases ht
    exact .body ⟨start, _, types, hmap, hexpects⟩
  · obtain ⟨slot, rest, rfl⟩ := hmap.stored _ _ _ _ rfl hread
    exact hbehind.1 0 _ rfl
  · exact Op.goesOn_of_isReading hread

/-- What an instruction does that does not end the program. -/
theorem ResumesAt.exists_instructed (h : ResumesAt p g env v a σ)
    (hop : g.code[a]? = some op.word) (hexit : op ≠ .exit)
    (hsize : g.code.size < 0x8000000000000000) : ∃ w τ, InstructedAt p g env v a op w σ τ := by
  cases h with
  | body h => exact h.exists_instructed hop hsize
  | entry h =>
    obtain rfl := Op.eq_of_word h.push hop
    obtain ⟨a, ha, hword⟩ := h.address
    refine ⟨_, _, .callee ha, fun _ => ⟨_, rfl, hword⟩, fun _ => .call h, fun hjump => ?_,
      fun hread => ?_⟩
    · cases hjump
    · cases hread
  | call h =>
    obtain rfl := Op.eq_of_word h.call hop
    obtain ⟨f, hf, hparams⟩ := h.function
    have htakes : Op.call.Takes p g v (some (Word.ofNat 0)) [.address v.1]
        (WordType.result f.returnType ++ []) := by
      have hcall := Op.Takes.call (g := g) (v := v) (σ := []) hf
      rwa [hparams] at hcall
    refine ⟨_, _, htakes, fun _ => ⟨_, rfl, h.count⟩, fun _ => .exit h, fun hjump => ?_,
      fun hread => ?_⟩
    · cases hjump
    · cases hread
  | exit h => exact absurd (Op.eq_of_word hop h.exit) hexit

/-- An instruction of another kind than those that call `main` and exit is one of the function. -/
theorem ResumesAt.runs (h : ResumesAt p g env v a σ) (hop : g.code[a]? = some op.word)
    (hne : op ≠ .push ∧ op ≠ .call ∧ op ≠ .exit) : g.Runs v a := by
  cases h with
  | body h => exact h.runs
  | entry h => exact absurd (Op.eq_of_word hop h.push) hne.1
  | call h => exact absurd (Op.eq_of_word hop h.call) hne.2.1
  | exit h => exact absurd (Op.eq_of_word hop h.exit) hne.2.2

end

/-! ## Programs -/

theorem Stmt.mem_starts_self (c : Context) (s : Stmt Mark) (a : Nat) : (s, a) ∈ s.starts c a := by
  cases s with
  | node m shape =>
    unfold Stmt.starts
    simp

section

variable {p : Program} {g : Generated} {env : Addresses} {is : List Item}
  {v : FunctionId × Function (Stmt Mark)}

theorem Program.Assembled.occupied (h : p.Assembled g env is) (hp : p.Checked)
    (hsymbols : g.Symbols p.tree env) : g.Occupied p.tree.functions.size := by
  intro id hid
  obtain ⟨v, hv, rfl, -⟩ := hp.orderly.mem_views_of_functions (Array.getElem?_eq_getElem hid)
  obtain ⟨pre, js, suf, -, hcode, -, hstart, hstop⟩ := h.region hp hsymbols hv
  refine ⟨_, hstart, ?_⟩
  cases hcode with
  | mk _ =>
    rw [hstop, Item.size_append _ [_], Item.size_plain]
    omega

/-- At the beginning of a function nothing is on the stack. -/
theorem StackMap.types_start {stop : Nat} {types : Nat → List WordType}
    (hn : p.tree.Named p.notes v.1 v.2) (hcode : Function.Code p P v.1 v.2 is)
    (hstop : start < stop)
    (h : StackMap p g env v start stop (Item.instructions env start is) types) :
    types start = [] := by
  have hbody := (h.statements _ (Stmt.mem_starts_self _ v.2.body (p.bodyStart v.1 start))).1
  cases hcode with
  | mk _ =>
    rw [Program.bodyStart, hn.frame] at hbody
    by_cases hcells : 0 < p.tree.cells v.2.body.tags
    · -- the first instruction reserves the cells, and finds nothing on the stack
      rw [Item.reserving, if_pos hcells] at h
      obtain ⟨τ, htakes, -⟩ := h.instructions _ List.mem_cons_self (Nat.le_refl _) hstop
      exact htakes.demands.1
    · rwa [if_neg (by omega)] at hbody

/-- The code begins with a call of `main`, which has no parameters. -/
theorem Program.Assembled.beginsWith (h : p.Assembled g env is) (hp : p.Checked)
    (hsymbols : g.Symbols p.tree env) :
    ∃ v ∈ p.tree.views, v.2.params = [] ∧ p.BeginsWith g v := by
  have haddressed := h.addressed hp hsymbols
  obtain ⟨hcode, hlies, -⟩ := h
  cases hcode with
  | @mk main js hmain _ =>
    obtain ⟨f, hv, hparams⟩ := hp.mem_views_main hmain
    obtain ⟨⟨hpush, hcall, hexit, -⟩, -⟩ := Item.lies_append.mp hlies
    have hf := hp.orderly.functions _ hv
    obtain ⟨a, henv, ha⟩ := haddressed main (Array.getElem?_eq_some_iff.mp hf).1
    have hword : g.code[1]? = some (Word.ofNat a) := by
      simpa [Operand.resolve, henv] using hpush 1 _ rfl
    exact ⟨(main, f), hv, hparams, ⟨_, hf, hparams⟩, hpush 0 _ rfl, ⟨a, ha, hword⟩, hcall 0 _ rfl,
      hcall 1 _ rfl, hexit 0 _ rfl⟩

theorem Program.Assembled.typedAt_start (h : p.Assembled g env is) (hp : p.Checked)
    (hsymbols : g.Symbols p.tree env) (hv : v ∈ p.tree.views) (ha : g.start? v.1 = some a) :
    TypedAt p g env v a [] := by
  obtain ⟨pre, js, suf, rfl, hcode, -, hstart, hstop⟩ := h.region hp hsymbols hv
  cases hstart.symm.trans ha
  have hlies := h.lies
  rw [Item.lies_append, Item.lies_append, Nat.zero_add] at hlies
  obtain ⟨front, hend⟩ := hcode.exists_ret
  have hcharts := h.charts hp hsymbols hv hcode (Item.size pre)
  obtain ⟨types, hmap⟩ : ∃ types, StackMap p g env v (Item.size pre) (Item.size pre + Item.size js)
      (Item.instructions env (Item.size pre) js) types :=
    hcharts.stackMap hend (fun l hl => hl) hlies.1.2
      fun i => ⟨fun hi => ⟨hi, Item.range_of_mem_instructions hi⟩, fun hi => hi.1⟩
  have hpos : Item.size pre < Item.size pre + Item.size js := by
    rw [hend, Item.size_append, Item.size_plain]
    omega
  have hfirst := hmap.types_start (hp.named v hv) hcode hpos
  have hsplit : front ++ [.plain .ret] = [] ++ js := hend.symm
  obtain ⟨i, hi, haddress⟩ :=
    Item.exists_instruction_at env (Item.size pre) hsplit (by rw [hend]; simp)
  rw [← hstop] at hmap hpos
  exact ⟨Item.size pre, js, types, ⟨hstart, hlies.1.2, hcharts.fits, hcode.stored, hmap⟩,
    Nat.le_refl _, hpos, ⟨i, hi, haddress⟩, hfirst⟩

end

end StackLang
