import StackLang.Proofs.Safety.TypedSteps

/-!
# Typed frames

If all that is computed for a type has some property, and all that is read from the input for it,
then the words in the frames of a run have it: those on the stacks of the functions, and the
variables once they have been written.

* `Frame.Typed`, `Waiting` — the words and variables of the functions have the property.
* `Inv.typed_step` — a step keeps it so.
* `Inv.typed_after` — so does a run.
* `Inv.loaded`, `Inv.stored`, `Inv.passed`, `Inv.returned` — the words of variables, arguments and
  results have the property.
-/

namespace StackLang

section

variable {X : Layout} {p : Program} {lenient : Prop} {Φ : Nat → FunctionId → Prop}
  {m m' : Machine} {F F' : Frame} {L L' : List Frame} {op : Op} {g : Generated}
  {Q : ValueType → Word → Prop} {v u : FunctionId × Function (Stmt Mark)} {σ τ : List WordType}
  {operand : Option Word} {T : ValueType} {K : Routine} {x : Int} {i bp : Nat} {q : Param}

/-! ## Variables -/

/-- A cell is of one type only. -/
theorem Program.CellType.unique (hn : p.tree.Named p.notes v.1 v.2) {S : ValueType}
    (h : p.CellType v x S) (h' : p.CellType v x T) : S = T := by
  obtain ⟨b, i, info, hcell, hinfo, rfl⟩ := h
  obtain ⟨b', i', info', hcell', hinfo', rfl⟩ := h'
  obtain ⟨rfl, -⟩ := hcell.unique hcell' hn
  rw [Option.some.inj (hinfo.symm.trans hinfo')]

/-- A place can be told from its word, unless the function has very many parameters. -/
theorem Program.CellType.toInt_ofInt (hp : p.Checked) (hv : v ∈ p.tree.views)
    (hfew : v.2.params.length < 0x4000000000000000) (h : p.CellType v x T) :
    (Int64.ofInt x).toInt = x := by
  obtain ⟨b, i, info, hcell, -⟩ := h
  have hrange := hcell.range (hp.named v hv)
  have hframe := hp.frames v hv
  exact Int64.toInt_ofInt_of_le (by omega) (by omega)

/-- The cell of a parameter is of its type. -/
theorem Program.CellType.param (hp : p.Checked) (hv : v ∈ p.tree.views)
    (h : p.CellType v (paramSlot i v.2.params.length) T) (hi : i < v.2.params.length) :
    ∃ q, v.2.params[i]? = some q ∧ q.type = T := by
  obtain ⟨b, j, info, hcell, hinfo, rfl⟩ := h
  rcases hcell.cases (hp.named v hv) with
    ⟨j, hj, rfl, rfl, hx⟩ | ⟨m, hm, cells, slot, rfl, hc, hs, -, hx⟩
  · rw [paramSlot, paramSlot] at hx
    obtain rfl : i = j := by omega
    simp only [Tree.varInfo?, hp.orderly.functions v hv, Option.bind_eq_bind, Option.bind_some,
      Option.bind_eq_some_iff] at hinfo
    obtain ⟨q, hq, hinfo⟩ := hinfo
    cases hinfo
    exact ⟨q, hq, rfl⟩
  · have hslot := (hp.named v hv).slots.slot_range hm hc hs
    rw [paramSlot, frameHeader] at hx
    omega

/-- The variables that the function can read from the address on have the property. -/
def VarsAt (X : Layout) (p : Program) (Q : ValueType → Word → Prop)
    (v : FunctionId × Function (Stmt Mark)) (mem : Nat → Word) (ip bp lo : Nat) : Prop :=
  ∃ D, GuardedAt X.code X.env ip D ∧ ∀ x T, p.CellType v x T → D (Int64.ofInt x) →
    ∀ a : Nat, (a : Int) = bp + (Int64.ofInt x).toInt → a < lo ∧ Q T (mem a)

namespace VarsAt

variable {mem mem' : Nat → Word} {ip bp lo lo' : Nat}

theorem congr (h : VarsAt X p Q v mem ip bp lo) (hlo : lo ≤ lo') (hmem : ∀ a < lo, mem' a = mem a) :
    VarsAt X p Q v mem' ip bp lo' := by
  obtain ⟨D, hD, hvars⟩ := h
  refine ⟨D, hD, fun x T hx hw a ha => ?_⟩
  obtain ⟨hlt, hQ⟩ := hvars x T hx hw a ha
  exact ⟨Nat.lt_of_lt_of_le hlt hlo, (hmem a hlt).symm ▸ hQ⟩

/-- The variable that is loaded has the property. -/
theorem peek (h : VarsAt X p Q v mem ip bp lo) (hop : X.code[ip]? = some Op.peek.word)
    (hx : p.CellType v x T) (hw : X.code[ip + 1]? = some (Int64.ofInt x)) {a : Nat}
    (ha : (a : Int) = bp + (Int64.ofInt x).toInt) : Q T (mem a) := by
  obtain ⟨D, hD, hvars⟩ := h
  obtain ⟨w, hw', hDw⟩ := hD.peek hop
  cases hw.symm.trans hw'
  exact (hvars x T hx hDw a ha).2

end VarsAt

/-! ## Frames -/

/-- The words of a function and its variables have the property, once words of the types `more` have
been put on its stack. -/
structure Frame.Typed (X : Layout) (p : Program) (g : Generated) (Q : ValueType → Word → Prop)
    (mem : Nat → Word) (v : FunctionId × Function (Stmt Mark)) (more : List WordType) (F : Frame) :
    Prop where
  view : v ∈ p.tree.views
  few : v.2.params.length < 0x4000000000000000
  result : ¬F.home.routine.isEntry → F.home.routine.hasResult = decide (v.2.returnType ≠ .void)
  stack : ∃ σ, ResumesAt p g X.env v F.ip (more ++ σ) ∧ List.Forall₂ (WordType.Admits g Q) σ F.vs
  vars : VarsAt X p Q v mem F.ip F.bp F.lo

/-- The functions that wait for a return, the topmost first, seen from one that returns a value of
the given type. -/
inductive Waiting (X : Layout) (p : Program) (g : Generated) (Q : ValueType → Word → Prop)
    (mem : Nat → Word) : ValueType → List Frame → Prop where
  | nil {T : ValueType} : Waiting X p g Q mem T []
  | cons {T : ValueType} {v : FunctionId × Function (Stmt Mark)} {S : Frame} {L : List Frame}
    (hS : S.Typed X p g Q mem v (WordType.result T)) (hL : Waiting X p g Q mem v.2.returnType L) :
    Waiting X p g Q mem T (S :: L)

/-- All words and variables in the frames have the property. -/
def TypedFrames (X : Layout) (p : Program) (g : Generated) (Q : ValueType → Word → Prop)
    (mem : Nat → Word) (F : Frame) (L : List Frame) : Prop :=
  ∃ v, F.Typed X p g Q mem v [] ∧ Waiting X p g Q mem v.2.returnType L

variable {mem mem' : Nat → Word} {more : List WordType} {S : Frame} {T : ValueType}

theorem Frame.Typed.congr (h : F.Typed X p g Q mem v more) (hmem : ∀ a < F.lo, mem' a = mem a) :
    F.Typed X p g Q mem' v more :=
  { h with vars := h.vars.congr (Nat.le_refl _) hmem }

/-- The frames that wait are below the parameters of the running function. -/
theorem Chain.sp_le (h : Chain X Φ mem bp K L) : ∀ S ∈ L, S.sp + (K.params + 4) ≤ bp := by
  induction h with
  | entry => simp
  | @call bp K F L _ _ _ _ hbase _ _ _ _ ih =>
    refine List.forall_mem_cons.mpr ⟨Nat.le_of_eq hbase.symm, fun S hS => ?_⟩
    have hle := ih S hS
    have hsp := F.bp_le_sp
    omega

/-- A function that somebody waits for is not the code that starts the program. -/
theorem Chain.not_isEntry (h : Chain X Φ mem bp K (S :: L)) : ¬K.isEntry := by
  cases h with
  | call hK => exact hK

/-- What happens above the frames that wait does not matter to them. -/
theorem Waiting.congr (h : Waiting X p g Q mem T L) (hL : ∀ S ∈ L, S.sp + (K.params + 4) ≤ bp)
    (hmem : ∀ a, a + (K.params + 3) < bp → mem' a = mem a) : Waiting X p g Q mem' T L := by
  induction h with
  | nil => exact .nil
  | @cons T v S L hS _ ih =>
    obtain ⟨hle, hL⟩ := List.forall_mem_cons.mp hL
    refine .cons (hS.congr fun a ha => hmem a ?_) (ih hL)
    have hsp : S.lo ≤ S.sp := Nat.le_add_right _ _
    omega

/-! ## Steps -/

/-- The next instruction of the machine is the operation on the cell `a` of a variable of type `T`
of the running function. -/
def Machine.Accesses (m : Machine) (p : Program) (g : Generated) (op : Op) (T : ValueType)
    (a : Nat) : Prop :=
  ∃ v ∈ p.tree.views, ∃ x, g.Runs v m.ip ∧ m.nextOp? = some op ∧ m.cell (m.ip + 1) = Int64.ofInt x ∧
    p.CellType v x T ∧ (a : Int) = m.bp + x

/-- The code of the program is known by its types. -/
structure Layout.Charted (X : Layout) (p : Program) (g : Generated) : Prop where
  code : X.code = g.code
  checked : p.Checked
  occupied : g.Occupied p.tree.functions.size
  addressed : ∀ id < p.tree.functions.size, ∃ a, X.env id = some a ∧ g.start? id = some a
  start : ∀ v ∈ p.tree.views, ∀ a, g.start? v.1 = some a → TypedAt p g X.env v a []
  guards : X.Guards p

theorem Inv.code_lt (hX : X.Valid p lenient) (h : Inv X Φ m F L) :
    X.code.size < 0x8000000000000000 := by
  have hM := hX.memory
  have habove : X.code.size ≤ F.lo := h.shows.above
  have hbelow : F.lo + F.vs.length ≤ X.memory := h.shows.below
  omega

/-- The next instruction, by types. -/
theorem Frame.Typed.instructed (hF : F.Typed X p g Q mem v []) (hC : X.Charted p g)
    (hop : X.code[F.ip]? = some op.word) (hexit : op ≠ .exit)
    (hsize : X.code.size < 0x8000000000000000) :
    ∃ operand σ τ, InstructedAt p g X.env v F.ip op operand σ τ ∧
      List.Forall₂ (WordType.Admits g Q) σ F.vs := by
  obtain ⟨σ, hresumes, hσ⟩ := hF.stack
  rw [hC.code] at hop hsize
  obtain ⟨operand, τ, hI⟩ := hresumes.exists_instructed hop hexit hsize
  exact ⟨operand, σ, τ, hI, hσ⟩

/-- A value that is read for a type is about to be stored into a variable of the type. -/
theorem Inv.accesses_of_reading (hX : X.Valid p lenient) (hC : X.Charted p g)
    (h' : Inv X Φ m' F' L')
    (hv : v ∈ p.tree.views) (hfew : v.2.params.length < 0x4000000000000000)
    (hword : X.code[m'.ip]? = some Op.poke.word)
    (htyped : TypedAt p g X.env v m'.ip (.value T :: σ)) :
    ∃ a, m'.Accesses p g .poke T a := by
  have hsize := h'.code_lt hX
  rw [hC.code] at hword hsize
  obtain ⟨operand, τ, hI⟩ := htyped.exists_instructed hword hsize
  obtain ⟨x, T', hx, rfl, hσ⟩ := hI.takes.demands
  cases hσ
  obtain ⟨w, hw, hcode⟩ := hI.operand rfl
  cases hw
  rw [← hC.code] at hword hcode
  have hip := h'.ip_eq
  obtain ⟨a, ha, -⟩ := h'.place hX (hip ▸ hword) (.inr rfl) (hip ▸ hcode)
  rw [hx.toInt_ofInt hC.checked hv hfew, ← h'.bp_eq] at ha
  exact ⟨a, v, hv, x, htyped.runs, h'.shows.nextOp? hword, h'.shows.words _ _ hcode, hx, ha.symm⟩

/-- What a step within a typed function does. -/
theorem Inv.exists_effect (hX : X.Valid p lenient) (hC : X.Charted p g) (hQ : Computed g.strings Q)
    (h : Inv X Φ m F L) (h' : Inv X Φ m' F' L') (hF : F.Typed X p g Q m.cell v [])
    (hstep : Machine.step m = .ok none m') (hop : X.code[F.ip]? = some op.word)
    (hkind : (op ≠ .call ∧ op ≠ .ret ∧ op ≠ .retValue) ∧ op ≠ .alloc)
    (hread : ∀ T a, m.nextOp? = some (Op.reading T) → m'.Accesses p g .poke T a →
      Q T (m'.cell (m'.sp - 1))) :
    ∃ operand σ τ, InstructedAt p g X.env v F.ip op operand σ τ ∧
      Effect p g Q v m F m' op operand τ := by
  have hip := h.ip_eq
  have hnext : m.nextOp? = some op := h.shows.nextOp? (hip ▸ hop)
  obtain ⟨operand, σ, τ, hI, hσ⟩ := hF.instructed hC hop (Machine.ne_exit_of_step hnext hstep)
    (h.code_lt hX)
  have hoperand : op.arity = 1 → ∀ w, operand = some w → X.code[F.ip + 1]? = some w := by
    intro harity w hw
    obtain ⟨w', hw', hcode⟩ := hI.operand harity
    cases hw.symm.trans hw'
    rwa [hC.code]
  refine ⟨operand, σ, τ, hI, h.effect hX hQ hstep hI.takes hop hoperand hkind hσ ?_ ?_⟩
  · rintro rfl x T hx hw a ha
    exact hF.vars.peek hop hx (hoperand rfl _ hw) ha
  · rintro T rfl rfl
    obtain ⟨hpoke, htyped⟩ := hI.stored (Op.isReading_reading T)
    rw [← hC.code] at hpoke
    rcases Machine.next_of_step hnext hstep hkind.1 with ⟨hip', -⟩ | ⟨hjump, -⟩
    · rw [← hip, ← hip'] at hpoke htyped
      obtain ⟨a, ha⟩ := h'.accesses_of_reading hX hC hF.view hF.few hpoke htyped
      exact hread T a hnext ha
    · cases T <;> cases hjump

/-- The operand of the next instruction, as the machine finds it. -/
theorem InstructedAt.cell_operand (hI : InstructedAt p g X.env v F.ip op operand σ τ)
    (hC : X.Charted p g) (h : Inv X Φ m F L) (harity : op.arity = 1) :
    operand = some (m.cell (m.ip + 1)) ∧ X.code[F.ip + 1]? = some (m.cell (m.ip + 1)) := by
  obtain ⟨w, rfl, hcode⟩ := hI.operand harity
  rw [← hC.code, ← h.ip_eq] at hcode
  rw [h.shows.words _ _ hcode, ← h.ip_eq]
  exact ⟨rfl, hcode⟩

/-- The types of the words where a step leads that neither calls nor returns. -/
theorem InstructedAt.resumes (hI : InstructedAt p g X.env v F.ip op operand σ τ)
    (hC : X.Charted p g)
    (h : Inv X Φ m F L) (hop : m.nextOp? = some op) (hstep : Machine.step m = .ok none m')
    (hkind : op ≠ .call ∧ op ≠ .ret ∧ op ≠ .retValue) : ResumesAt p g X.env v m'.ip τ := by
  rcases Machine.next_of_step hop hstep hkind with ⟨hip, hjump⟩ | ⟨hjump, htarget⟩
  · have hgoes : op.goesOn = true := by
      have hexit := Machine.ne_exit_of_step hop hstep
      cases op <;> first | rfl | simp at hexit hjump hkind
    rw [hip, h.ip_eq]
    exact hI.next hgoes
  · exact hI.jump hjump _ _ (hI.cell_operand hC h (Op.arity_of_isJump hjump)).1 htarget

/-- What counts as written where a step leads that neither calls nor returns. -/
theorem InstructedAt.guardedAt (hI : InstructedAt p g X.env v F.ip op operand σ τ)
    (hX : X.Valid p lenient) (hC : X.Charted p g) (h : Inv X Φ m F L) (hop : m.nextOp? = some op)
    (hstep : Machine.step m = .ok none m') (hkind : op ≠ .call ∧ op ≠ .ret ∧ op ≠ .retValue)
    (hword : X.code[F.ip]? = some op.word) {D : Word → Prop} (hD : GuardedAt X.code X.env F.ip D) :
    ∃ E : Word → Prop, GuardedAt X.code X.env m'.ip E ∧
      ∀ x, E x → D x ∨ op = .poke ∧ operand = some x := by
  have hip := h.ip_eq
  have hnext := Machine.next_of_step hop hstep hkind
  rw [hip] at hnext
  have harity : 1 ≤ op.arity → op.arity = 1 := fun hle =>
    op.arity_eq_zero_or_one.resolve_left (Nat.ne_of_gt hle)
  obtain ⟨E, hE, hwritten⟩ := hD.step hword
    (fun hle => hip ▸ (hI.cell_operand hC h (harity hle)).2)
    ⟨hkind.2.1, hkind.2.2, Machine.ne_exit_of_step hop hstep⟩ hnext (h.code_lt hX)
  refine ⟨E, hE, fun x hx => (hwritten x hx).imp_right ?_⟩
  rintro ⟨rfl, rfl⟩
  rw [← hip]
  exact ⟨rfl, (hI.cell_operand hC h rfl).1⟩

/-- A step within a function. -/
theorem Frame.Typed.within (hF : F.Typed X p g Q m.cell v []) (hX : X.Valid p lenient)
    (hC : X.Charted p g) (h : Inv X Φ m F L) (h' : Inv X Φ m' F' L')
    (hstep : Machine.step m = .ok none m') (hword : X.code[F.ip]? = some op.word)
    (hkind : op ≠ .call ∧ op ≠ .ret ∧ op ≠ .retValue)
    (hI : InstructedAt p g X.env v F.ip op operand σ τ) (hE : Effect p g Q v m F m' op operand τ)
    (hhome : F'.home = F.home) (hbp : F'.bp = F.bp) (hcells : F'.cells = F.cells) :
    F'.Typed X p g Q m'.cell v [] := by
  have hop : m.nextOp? = some op := h.shows.nextOp? (by rwa [h.ip_eq])
  have hlo : F'.lo = F.lo := Frame.lo_eq hbp hcells
  have hip' := h'.ip_eq
  refine ⟨hF.view, hF.few, by rw [hhome]; exact hF.result, ?_, ?_⟩
  · obtain ⟨vs, hsp, hstack, hvs⟩ := hE.words
    rw [← hlo] at hsp hstack
    have hresumes := hI.resumes hC h hop hstep hkind
    rw [hip'] at hresumes
    rw [← h'.vs_eq hsp hstack] at hvs
    exact ⟨τ, hresumes, hvs⟩
  · obtain ⟨D, hD, hvars⟩ := hF.vars
    obtain ⟨E, hguarded, hwritten⟩ := hI.guardedAt hX hC h hop hstep hkind hword hD
    rw [hip'] at hguarded
    rw [hbp, hlo]
    refine ⟨E, hguarded, fun x T hx hEx a ha => ?_⟩
    -- the variable at the cell is the one that is stored, or its cell has not changed
    by_cases hpoked : op = .poke ∧ ∃ w, operand = some w ∧ (a : Int) = F.bp + w.toInt
    · obtain ⟨hpoke, w, rfl, haw⟩ := hpoked
      obtain ⟨y, S, hy, hw, hstored⟩ := hE.stores hpoke
      cases hw
      have hplace : ∀ {z U}, p.CellType v z U → (Int64.ofInt z).toInt = z := fun hz =>
        hz.toInt_ofInt hC.checked hF.view hF.few
      rw [hplace hx] at ha
      obtain rfl : x = y := by
        have := hplace hy
        omega
      obtain rfl := hx.unique (hC.checked.named v hF.view) hy
      exact hstored a haw
    · rcases hwritten _ hEx with hDx | ⟨hpoke, hw⟩
      · obtain ⟨hlt, hQ⟩ := hvars x T hx hDx a ha
        have hsame := hE.keeps a hlt fun hpoke w hw haw => hpoked ⟨hpoke, w, hw, haw⟩
        exact ⟨hlt, hsame.symm ▸ hQ⟩
      · exact absurd ⟨hpoke, _, hw, ha⟩ hpoked

/-- Reserved cells are not read before they have been written. -/
theorem Frame.Typed.reserve (hF : F.Typed X p g Q m.cell v []) (hX : X.Valid p lenient)
    (hC : X.Charted p g) (h : Inv X Φ m F L) (h' : Inv X Φ m' F' L')
    (hstep : Machine.step m = .ok none m') (hword : X.code[F.ip]? = some Op.alloc.word)
    (hhome : F'.home = F.home) (hbp : F'.bp = F.bp) (hvs : F'.vs = []) (hnone : F.cells = 0)
    (hcell : m'.cell = m.cell) : F'.Typed X p g Q m'.cell v [] := by
  have hop : m.nextOp? = some .alloc := h.shows.nextOp? (by rwa [h.ip_eq])
  have hip' := h'.ip_eq
  obtain ⟨operand, σ, τ, hI, -⟩ := hF.instructed hC hword (by decide) (h.code_lt hX)
  obtain ⟨rfl, rfl⟩ := hI.takes.demands
  refine ⟨hF.view, hF.few, by rw [hhome]; exact hF.result, ⟨[], ?_, by rw [hvs]; exact .nil⟩, ?_⟩
  · rw [← hip']
    exact hI.resumes hC h hop hstep (by decide)
  · obtain ⟨D, hD, hvars⟩ := hF.vars
    obtain ⟨E, hguarded, hwritten⟩ := hI.guardedAt hX hC h hop hstep (by decide) hword hD
    rw [hip'] at hguarded
    refine ⟨E, hguarded, fun x T hx hEx a ha => ?_⟩
    rw [hbp] at ha
    obtain ⟨hlt, hQ⟩ := hvars x T hx ((hwritten _ hEx).resolve_right (by simp)) a ha
    rw [Frame.lo, hnone] at hlt
    rw [hcell, Frame.lo, hbp]
    exact ⟨Nat.lt_of_lt_of_le hlt (Nat.le_add_right _ _), hQ⟩

/-! ## Calls -/

/-- What a call does: it passes arguments of the types of the parameters, and the function behind it
expects a result in their place. -/
structure CallEffect (X : Layout) (p : Program) (g : Generated) (Q : ValueType → Word → Prop)
    (v : FunctionId × Function (Stmt Mark)) (m : Machine) (F : Frame) (m' : Machine)
    (id : FunctionId) (f : Function StmtId) (args us : List Word) (σ : List WordType) : Prop where
  function : p.tree.functions[id]? = some f
  address : g.start? id = some m'.ip
  words : F.vs = args ++ Word.ofNat m'.ip :: us
  args : List.Forall₂ (WordType.Admits g Q) (f.params.map fun q => .value q.type) args.reverse
  rest : List.Forall₂ (WordType.Admits g Q) σ us
  resumes : ResumesAt p g X.env v (F.ip + 2) (WordType.result f.returnType ++ σ)
  base : m'.bp = F.sp + 3
  stack : Stacked m'.cell F.lo F.vs
  keeps : ∀ b < F.lo, m'.cell b = m.cell b

theorem Inv.exists_callEffect (hX : X.Valid p lenient) (hC : X.Charted p g) (h : Inv X Φ m F L)
    (hF : F.Typed X p g Q m.cell v []) (hstep : Machine.step m = .ok none m')
    (hop : X.code[F.ip]? = some Op.call.word) :
    ∃ id f args us σ, CallEffect X p g Q v m F m' id f args us σ := by
  have hM := hX.memory
  obtain ⟨operand, _, τ, hI, hσ⟩ := hF.instructed hC hop (by decide) (h.code_lt hX)
  obtain ⟨id, f, σ, hf, rfl, rfl, rfl⟩ := hI.takes.demands
  -- the types split the words into the arguments, the address of the function and the rest
  generalize hvs : F.vs = vs at hσ
  have hargs := List.forall₂_take f.params.length hσ
  have hrest := List.forall₂_drop f.params.length hσ
  rw [List.take_left' (by simp)] at hargs
  rw [List.drop_left' (by simp)] at hrest
  rw [← List.take_append_drop f.params.length vs] at hvs
  generalize vs.take f.params.length = args at hvs hargs
  generalize vs.drop f.params.length = ws at hvs hrest
  cases hrest with
  | @cons _ _ _ us ha hrest =>
    obtain ⟨a, ha, rfl⟩ := ha
    have hlen : args.length = f.params.length := by simpa using hargs.length_eq.symm
    obtain ⟨w, hw, hcode⟩ := hI.operand rfl
    cases hw
    rw [← hC.code, ← hlen] at hcode
    have hlt : a < X.code.size := by
      obtain ⟨hid, -⟩ := Array.getElem?_eq_some_iff.mp hf
      obtain ⟨a', henv, ha'⟩ := hC.addressed id hid
      cases ha.symm.trans ha'
      obtain ⟨R, hR, hat, -, -, -, hflow⟩ := hX.routines.callee id f hf
      cases henv.symm.trans hat
      exact hflow.lt_size (hX.routines.lies R hR)
    have hroom : (F.view m).sp + 3 ≤ X.memory := by
      by_contra hroom
      exact h.not_fails hstep (Machine.step_call_fails hop hcode hvs h.shows.below
        (Nat.lt_of_not_le hroom) hM)
    obtain ⟨m₁, hrun, hm₁⟩ := Machine.step_call hop hcode hvs hlt hroom hM m h.shows
    cases hstep.symm.trans hrun
    obtain rfl : m'.ip = a := hm₁.ip
    refine ⟨id, f, args, us, σ, hf, ha, hvs, ?_, hrest, hI.next rfl, hm₁.bp, hm₁.stack.2.2.2,
      hm₁.mem⟩
    rw [← List.forall₂_reverse_iff, List.reverse_reverse]
    exact hargs

namespace CallEffect

variable {id : FunctionId} {f : Function StmtId} {args us : List Word}

section

variable (h : CallEffect X p g Q v m F m' id f args us σ)

include h

theorem length_args : args.length = f.params.length := by
  simpa using h.args.length_eq.symm

theorem sp_eq : F.sp = F.lo + us.length + (f.params.length + 1) := by
  rw [Frame.sp, h.words, ← h.length_args, List.length_append, List.length_cons]
  omega

/-- The cell of a parameter holds the argument. -/
theorem argument (hq : f.params[i]? = some q) {b : Nat}
    (hb : (b : Int) = m'.bp + paramSlot i f.params.length) : Q q.type (m'.cell b) := by
  have hsp := h.sp_eq
  obtain ⟨hi, rfl⟩ := List.getElem?_eq_some_iff.mp hq
  have hi' : i < args.reverse.length := by rwa [List.length_reverse, h.length_args]
  have hstack := h.stack
  rw [h.words, Stacked.append, List.length_cons] at hstack
  have hcell := hstack.1.cell_of_reverse (List.getElem?_eq_getElem hi')
  obtain rfl : b = F.lo + (us.length + 1) + i := by
    rw [h.base, paramSlot, frameHeader] at hb
    omega
  rw [hcell]
  simpa using h.args.get (by simpa using hi) hi'

/-- The frame of the caller. -/
theorem caller (hF : F.Typed X p g Q m.cell v []) (hop : X.code[F.ip]? = some Op.call.word)
    (hip : S.ip = F.ip + 2) (hhome : S.home = F.home) (hbp : S.bp = F.bp)
    (hcells : S.cells = F.cells) (hsp : F.sp = S.sp + (f.params.length + 1))
    (hS : Stacked m'.cell S.lo S.vs) :
    S.Typed X p g Q m'.cell v (WordType.result f.returnType) := by
  have hlo : S.lo = F.lo := Frame.lo_eq hbp hcells
  have hstack := h.stack
  rw [h.words, Stacked.append] at hstack
  have hvs : S.vs = us := by
    rw [hlo] at hS
    refine hS.unique hstack.2.2 ?_
    have hheight := h.sp_eq
    rw [hsp, Frame.sp, hlo] at hheight
    omega
  refine ⟨hF.view, hF.few, by rw [hhome]; exact hF.result,
    ⟨σ, by rw [hip]; exact h.resumes, ?_⟩, ?_⟩
  · rw [hvs]
    exact h.rest
  · obtain ⟨D, hD, hvars⟩ := hF.vars.congr (Nat.le_refl _) h.keeps
    rw [hip, hbp, hlo]
    exact ⟨D, hD.next hop (by decide) (by decide) (by decide), hvars⟩

/-- The frame of the function that is called. -/
theorem callee (hC : X.Charted p g) (hsp : F.sp < 0x4000000000000000) (hu : u ∈ p.tree.views)
    (hid : u.1 = id) (hf : f = u.2.ids) (hip : F'.ip = m'.ip) (hbase : F'.bp = m'.bp)
    (hnone : F'.cells = 0) (hvs : F'.vs = [])
    (hresult : F'.home.routine.hasResult = decide (f.returnType ≠ .void)) :
    F'.Typed X p g Q m'.cell u [] := by
  subst hid hf
  have hfew : u.2.params.length < 0x4000000000000000 := by
    have hheight : F.sp = F.lo + us.length + (u.2.params.length + 1) := h.sp_eq
    omega
  refine ⟨hu, hfew, fun _ => hresult, ⟨[], ?_, by rw [hvs]; exact .nil⟩, ?_⟩
  · rw [hip]
    exact .body (hC.start u hu _ h.address)
  · obtain ⟨hlt, -⟩ := Array.getElem?_eq_some_iff.mp h.function
    obtain ⟨a, henv, ha⟩ := hC.addressed u.1 hlt
    cases ha.symm.trans h.address
    rw [hip, hbase]
    refine ⟨_, hC.guards u.1 _ _ h.function henv, ?_⟩
    rintro x T hx ⟨i, (hi : i < u.2.params.length), hw⟩ b hb
    -- what counts as written are the parameters, and those are the arguments
    have hslot : (Int64.ofInt (paramSlot i u.2.params.length)).toInt =
        paramSlot i u.2.params.length := by
      rw [paramSlot, frameHeader]
      exact Int64.toInt_ofInt_of_le (by omega) (by omega)
    have hplace := hx.toInt_ofInt hC.checked hu hfew
    obtain rfl : x = paramSlot i u.2.params.length := by
      rw [← hplace, hw]
      exact hslot
    rw [hslot] at hb
    obtain ⟨q, hq, rfl⟩ := hx.param hC.checked hu hi
    refine ⟨?_, h.argument hq hb⟩
    rw [Frame.lo, hbase, hnone]
    rw [paramSlot, frameHeader] at hb
    omega

end

end CallEffect

/-! ## Returns -/

/-- A return leaves a result of the type of the function. -/
theorem Inv.exists_return (hX : X.Valid p lenient) (hC : X.Charted p g) (h : Inv X Φ m F (S :: L))
    (hT : Tracks X m Φ Φ) (hF : F.Typed X p g Q m.cell v []) (hstep : Machine.step m = .ok none m')
    (hop : X.code[F.ip]? = some op.word) (hret : op = .ret ∨ op = .retValue)
    (hresult : F.home.routine.hasResult = decide (op = .retValue)) :
    ∃ vs, List.Forall₂ (WordType.Admits g Q) (WordType.result v.2.returnType) vs ∧
      m'.Shows X.code X.memory ⟨S.ip, S.bp, S.lo, vs ++ S.vs, m'.cell, m'.world⟩ ∧
      ∀ a < S.sp, m'.cell a = m.cell a := by
  have hM : X.memory ≤ 0x8000000000000000 := Nat.le_trans hX.memory (by decide)
  have hK := h.chain.not_isEntry
  have hreturns := hresult.symm.trans (hF.result hK)
  obtain ⟨operand, σ, τ, hI, hσ⟩ := hF.instructed hC hop (by rcases hret with rfl | rfl <;> decide)
    (h.code_lt hX)
  rcases hret with rfl | rfl
  · have hvoid : v.2.returnType = .void := by simpa using hreturns
    obtain ⟨S₁, L₁, m₁, hL, hrun, -, -, -, hshows, -, hcell⟩ := h.leave hX hT hK []
      fun hip hbp htop hiplt hbplo hbptop htoplt =>
        Machine.step_ret hop (Nat.le_add_right _ _) hip hbp htop hiplt hbplo hbptop htoplt hM
    cases hL
    cases hstep.symm.trans hrun
    refine ⟨[], ?_, hshows, hcell⟩
    rw [WordType.result, if_pos hvoid]
    exact .nil
  · have hvalue : v.2.returnType ≠ .void := by simpa using hreturns
    obtain rfl := hI.takes.demands
    generalize hvs : F.vs = vs at hσ
    cases hσ with
    | @cons _ r _ _ hr hσ =>
      cases hσ
      obtain ⟨S₁, L₁, m₁, hL, hrun, -, -, -, hshows, -, hcell⟩ := h.leave hX hT hK [r]
        fun hip hbp htop hiplt hbplo hbptop htoplt => Machine.step_retValue hop hvs
          (Nat.le_add_right _ _) hip hbp htop hiplt hbplo hbptop htoplt hM
      cases hL
      cases hstep.symm.trans hrun
      refine ⟨[r], ?_, hshows, hcell⟩
      rw [WordType.result, if_neg hvalue]
      exact .cons hr .nil

/-- The frame that a return leads back to. -/
theorem Frame.Typed.back {vs : List Word} (hS : S.Typed X p g Q m.cell v more)
    (hvs : List.Forall₂ (WordType.Admits g Q) more vs)
    (hshows : m'.Shows X.code X.memory ⟨S.ip, S.bp, S.lo, vs ++ S.vs, m'.cell, m'.world⟩)
    (hcell : ∀ a < S.sp, m'.cell a = m.cell a) (h' : Inv X Φ m' F' L') (hhome : F'.home = S.home)
    (hbp : F'.bp = S.bp) (hcells : F'.cells = S.cells) : F'.Typed X p g Q m'.cell v [] := by
  have hlo : F'.lo = S.lo := Frame.lo_eq hbp hcells
  have hip : F'.ip = S.ip := h'.shows.ip.symm.trans hshows.ip
  have hvs' : F'.vs = vs ++ S.vs :=
    h'.vs_eq (by rw [hlo]; exact hshows.sp) (by rw [hlo]; exact hshows.stack)
  obtain ⟨σ, hresumes, hσ⟩ := hS.stack
  refine ⟨hS.view, hS.few, by rw [hhome]; exact hS.result, ⟨more ++ σ, ?_, ?_⟩, ?_⟩
  · rw [hip]
    exact hresumes
  · rw [hvs']
    exact List.rel_append hvs hσ
  · rw [hip, hbp, hlo]
    exact hS.vars.congr (Nat.le_refl _) fun a ha =>
      hcell a (Nat.lt_of_lt_of_le ha (Nat.le_add_right _ _))

/-! ## All steps -/

/-- A step keeps the words and variables of the functions typed, provided that what is read from the
input for a variable has the property. -/
theorem Inv.typed_step (hX : X.Valid p lenient) (hC : X.Charted p g) (hQ : Computed g.strings Q)
    (h : Inv X Φ m F L) (hT : Tracks X m Φ Φ) (hF : TypedFrames X p g Q m.cell F L)
    (hstep : Machine.step m = .ok none m') (hshifts : Shifts X p m F L m' F' L')
    (h' : Inv X Φ m' F' L')
    (hread : ∀ T a, m.nextOp? = some (Op.reading T) → m'.Accesses p g .poke T a →
      Q T (m'.cell (m'.sp - 1))) :
    TypedFrames X p g Q m'.cell F' L' := by
  have hip := h.ip_eq
  have hip' := h'.ip_eq
  have hsp := h.sp_eq
  obtain ⟨v, hF, hL⟩ := hF
  cases hshifts with
  | within hop hkind hhome hbp hcells hL' =>
    subst hL'
    rw [hip] at hop
    obtain ⟨operand, σ, τ, hI, hE⟩ := h.exists_effect hX hC hQ h' hF hstep hop hkind hread
    exact ⟨v, hF.within hX hC h h' hstep hop hkind.1 hI hE hhome hbp hcells,
      hL.congr h.chain.sp_le hE.below⟩
  | reserve hop hentry hbp hvs hL' hhome hnone hcell =>
    subst hL'
    rw [hip] at hop
    exact ⟨v, hF.reserve hX hC h h' hstep hop hhome hbp hvs hnone hcell,
      hL.congr h.chain.sp_le fun a _ => congrFun hcell a⟩
  | @call S id f hop hf htarget hheight hbehind hhome hbp hcells hbase hnone hvs hL' hresult =>
    subst hL'
    rw [hip] at hop hbehind
    rw [hsp] at hheight hbase
    have hM := hX.memory
    have hbelow : F'.sp ≤ X.memory := h'.shows.below
    have hlo' := F'.bp_le_sp
    obtain ⟨id', f', args, us, σ, hE⟩ := h.exists_callEffect hX hC hF hstep hop
    -- the function that is called is the one whose address was on the stack
    obtain ⟨hid, -⟩ := Array.getElem?_eq_some_iff.mp hf
    obtain ⟨hid', -⟩ := Array.getElem?_eq_some_iff.mp hE.function
    obtain ⟨a, henv, ha⟩ := hC.addressed id hid
    cases henv.symm.trans htarget
    obtain rfl := hC.occupied.start_inj hid hid' ha hE.address
    cases hf.symm.trans hE.function
    obtain ⟨u, hu, hid, rfl⟩ := hC.checked.orderly.mem_views_of_functions hf
    have hstack : Stacked m'.cell S.lo S.vs := by
      have hchain := h'.chain
      cases hchain with
      | call _ _ _ hstack => exact hstack
    refine ⟨u,
      hE.callee hC (by omega) hu hid rfl hip'.symm (hbase.trans hE.base.symm) hnone hvs hresult,
      .cons (hE.caller hF hop hbehind hhome hbp hcells hheight hstack)
        (hL.congr h.chain.sp_le fun a ha => hE.keeps a ?_)⟩
    have hlo : F.bp ≤ F.lo := Nat.le_add_right _ _
    omega
  | @back S op hop hreturn hback hhome hbp hcells hL' hresult =>
    subst hL'
    rw [hip] at hop
    cases hL with
    | @cons _ u _ _ hS hL =>
      obtain ⟨vs, hvs, hshows, hcell⟩ := h.exists_return hX hC hT hF hstep hop
        (hreturn.imp And.left And.left) hresult
      refine ⟨u, hS.back hvs hshows hcell h' hhome hbp hcells,
        hL.congr h'.chain.sp_le fun a ha => hcell a ?_⟩
      have hle := S.bp_le_sp
      rw [hbp] at ha
      omega

/-! ## Runs -/

/-- Along a run, the words and variables of the functions stay typed, as long as what is read from
the input for a variable has the property. -/
theorem Inv.typed_after (hX : X.Valid p False) (hC : X.Charted p g) (hQ : Computed g.strings Q)
    (h : Inv X (fun _ _ => True) m F L) (hF : TypedFrames X p g Q m.cell F L) {n : Nat}
    (hread : ∀ k < n, ∀ m₁ m₂, m.after k = some m₁ → m.after (k + 1) = some m₂ → ∀ T a,
      m₁.nextOp? = some (Op.reading T) → m₂.Accesses p g .poke T a → Q T (m₂.cell (m₂.sp - 1))) :
    ∀ k ≤ n, ∀ m', m.after k = some m' → ∃ F' L', Inv X (fun _ _ => True) m' F' L' ∧
      TypedFrames X p g Q m'.cell F' L' := by
  intro k
  induction k with
  | zero =>
    intro _ m' hm'
    cases hm'
    exact ⟨F, L, h, hF⟩
  | succ k ih =>
    intro hk m' hm'
    obtain ⟨m₁, hm₁, hstep⟩ := Machine.step_of_after hm'
    obtain ⟨F₁, L₁, h₁, hF₁⟩ := ih (Nat.le_of_succ_le hk) m₁ hm₁
    have hT := Tracks.trivial X m₁
    obtain ⟨F', L', hshifts, h'⟩ := (h₁.step_shifts hX hT hstep).resolve_left not_false
    exact ⟨F', L', h', h₁.typed_step hX hC hQ hT hF₁ hstep hshifts h' (hread k hk m₁ m' hm₁ hm')⟩

/-- At the beginning of a run there are no words and no variables. -/
theorem TypedFrames.first {R : Placement} (hstart : R.start = 0) (hentry : R.routine.isEntry)
    (hguarded : GuardedAt X.code X.env 0 fun _ => False) (hv : v ∈ p.tree.views)
    (hparams : v.2.params = []) (hbegins : p.BeginsWith g v) :
    TypedFrames X p g Q mem (R.first X.code) [] := by
  have hip : (R.first X.code).ip = 0 := hstart
  refine ⟨v, ⟨hv, by simp [hparams], fun h => absurd hentry h, ⟨[], ?_, .nil⟩, fun _ => False, ?_,
    fun _ _ _ h => h.elim⟩, .nil⟩
  · rw [hip]
    exact .entry hbegins
  · rwa [hip]

/-! ## Places -/

/-- The running function is the one whose code is executed. -/
theorem Frame.Typed.view_eq (hF : F.Typed X p g Q mem v []) (hC : X.Charted p g)
    (hu : u ∈ p.tree.views) (hruns : g.Runs u F.ip) (hop : X.code[F.ip]? = some op.word)
    (hne : op ≠ .push ∧ op ≠ .call ∧ op ≠ .exit) : u = v := by
  obtain ⟨σ, hresumes, -⟩ := hF.stack
  rw [hC.code] at hop
  exact hC.occupied.runs_unique hC.checked.orderly hu hF.view hruns (hresumes.runs hop hne)

variable {a : Nat}

/-- The variable of the next instruction, if it loads or stores one. -/
theorem Machine.Accesses.cellType (ha : m.Accesses p g op T a) (hX : X.Valid p lenient)
    (hC : X.Charted p g) (h : Inv X Φ m F L) (hF : F.Typed X p g Q mem v [])
    (hop : op = .peek ∨ op = .poke) :
    ∃ x, p.CellType v x T ∧ X.code[F.ip]? = some op.word ∧
      m.cell (m.ip + 1) = Int64.ofInt x ∧ (a : Int) = F.bp + (Int64.ofInt x).toInt := by
  obtain ⟨u, hu, x, hruns, hnext, hw, hx, ha⟩ := ha
  obtain ⟨hword, -⟩ := h.served hX hnext
  rw [h.ip_eq] at hword hruns
  obtain rfl := hF.view_eq hC hu hruns hword (by rcases hop with rfl | rfl <;> decide)
  refine ⟨x, hx, hword, hw, ?_⟩
  rw [hx.toInt_ofInt hC.checked hF.view hF.few, ← h.bp_eq]
  exact ha

/-- A variable that is loaded has the property. -/
theorem Inv.loaded (hX : X.Valid p lenient) (hC : X.Charted p g) (h : Inv X Φ m F L)
    (hF : TypedFrames X p g Q m.cell F L) (ha : m.Accesses p g .peek T a) : Q T (m.cell a) := by
  obtain ⟨v, hF, -⟩ := hF
  obtain ⟨x, hx, hop, hw, ha⟩ := ha.cellType hX hC h hF (.inl rfl)
  obtain ⟨operand, σ, τ, hI, -⟩ := hF.instructed hC hop (by decide) (h.code_lt hX)
  have hcode := (hI.cell_operand hC h rfl).2
  rw [hw] at hcode
  exact hF.vars.peek hop hx hcode ha

/-- A word that is stored into a variable has the property. -/
theorem Inv.stored (hX : X.Valid p lenient) (hC : X.Charted p g) (hQ : Computed g.strings Q)
    (h : Inv X Φ m F L) (h' : Inv X Φ m' F' L') (hF : TypedFrames X p g Q m.cell F L)
    (hstep : Machine.step m = .ok none m') (ha : m.Accesses p g .poke T a) : Q T (m'.cell a) := by
  obtain ⟨v, hF, -⟩ := hF
  obtain ⟨_, _, _, _, hnext, _⟩ := id ha
  obtain ⟨x, hx, hop, hw, ha⟩ := ha.cellType hX hC h hF (.inr rfl)
  obtain ⟨operand, σ, τ, hI, hE⟩ := h.exists_effect hX hC hQ h' hF hstep hop (by decide)
    fun T _ hreading => by
      rw [hnext] at hreading
      cases T <;> cases hreading
  obtain ⟨y, S, hy, hoperand, hstored⟩ := hE.stores rfl
  have hsame := (hI.cell_operand hC h rfl).1.symm.trans hoperand
  rw [hw] at hsame
  have hxy := congrArg Int64.toInt (Option.some.inj hsame)
  rw [hx.toInt_ofInt hC.checked hF.view hF.few, hy.toInt_ofInt hC.checked hF.view hF.few] at hxy
  subst hxy
  obtain rfl := hx.unique (hC.checked.named v hF.view) hy
  exact (hstored a ha).2

/-- A word that is passed as an argument has the property. -/
theorem Inv.passed (hX : X.Valid p lenient) (hC : X.Charted p g) (h : Inv X Φ m F L)
    (hF : TypedFrames X p g Q m.cell F L) (hstep : Machine.step m = .ok none m')
    (hop : m.nextOp? = some .call) {id : FunctionId} (hstart : g.start? id = some m'.ip)
    {f : Function StmtId} (hf : p.tree.functions[id]? = some f) (hq : f.params[i]? = some q)
    (ha : (a : Int) = m'.bp + paramSlot i f.params.length) : Q q.type (m'.cell a) := by
  obtain ⟨v, hF, -⟩ := hF
  obtain ⟨hword, -⟩ := h.served hX hop
  rw [h.ip_eq] at hword
  obtain ⟨id', f', args, us, σ, hE⟩ := h.exists_callEffect hX hC hF hstep hword
  obtain ⟨hid, -⟩ := Array.getElem?_eq_some_iff.mp hf
  obtain ⟨hid', -⟩ := Array.getElem?_eq_some_iff.mp hE.function
  obtain rfl := hC.occupied.start_inj hid hid' hstart hE.address
  cases hf.symm.trans hE.function
  exact hE.argument hq ha

/-- A word that is returned has the property. -/
theorem Inv.returned (hX : X.Valid p False) (hC : X.Charted p g) (h : Inv X Φ m F L)
    (hT : Tracks X m Φ Φ) (hF : TypedFrames X p g Q m.cell F L)
    (hstep : Machine.step m = .ok none m') (hop : m.nextOp? = some .retValue)
    (hv : v ∈ p.tree.views) (hruns : g.Runs v m.ip) : Q v.2.returnType (m'.cell (m'.sp - 1)) := by
  obtain ⟨u, hF, -⟩ := hF
  obtain ⟨hword, -⟩ := h.served hX hop
  obtain ⟨F', L', hshifts, -⟩ := (h.step_shifts hX hT hstep).resolve_left not_false
  have hip := h.ip_eq
  obtain rfl := hF.view_eq hC hv (hip ▸ hruns) (hip ▸ hword) (by decide)
  -- the step is one that leads back to a caller
  cases hshifts with
  | within hop' hkind => exact absurd (Op.eq_of_word hword hop') (Ne.symm hkind.1.2.2)
  | reserve hop' | call hop' => exact absurd (Op.eq_of_word hword hop') (by decide)
  | @back S op hop' _ _ _ _ _ hL hresult =>
    subst hL
    obtain rfl := Op.eq_of_word hword hop'
    have hvalue : v.2.returnType ≠ .void := by
      simpa using hresult.symm.trans (hF.result h.chain.not_isEntry)
    obtain ⟨vs, hvs, hshows, -⟩ :=
      h.exists_return hX hC hT hF hstep (hip ▸ hword) (.inr rfl) hresult
    rw [WordType.result, if_neg hvalue] at hvs
    cases hvs with
    | cons hr hvs =>
      cases hvs
      have hsp : m'.sp = S.lo + (S.vs.length + 1) := hshows.sp
      have htop := hshows.stack.1
      rw [hsp]
      exact htop.symm ▸ hr

end

end StackLang
