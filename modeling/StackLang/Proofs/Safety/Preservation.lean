import StackLang.Proofs.Safety.Frames

/-!
# What a step does to the frames

A step of a machine that runs the routines of a program leads to a machine that does, or ends the
run.  It can end in a fault, but in none that comes from the code: the operation is known, and
memory is only missing where a word is put on a full stack.

* `Moves`, `Shifts` — how the chain of frames changes, and where the frames are.
* `Inv.step` — every step keeps the invariant, ends the run, or returns without a result.
-/

namespace StackLang

open Machine (Yields Fails)

/-! ## Outcomes -/

/-- The word behind the operation that comes next. -/
def Machine.operand (m : Machine) : Word :=
  m.cell (m.ip + 1)

theorem Machine.Shows.operand {code : Array Word} {M : Nat} {m : Machine} {V : View} {w : Word}
    (h : m.Shows code M V) (hw : code[V.ip + 1]? = some w) : m.operand = w := by
  rw [Machine.operand, h.ip]
  exact h.words _ _ hw

/-- There is no room on the stack for what the operation puts there or reserves, and it lacks
nothing else: the word that it takes is there, the cell that it reads at an offset from the base is
one of the stack, and so is the one below its arguments, which holds the address of a function.  The
address is the end of the memory, where the word would go that has no cell, or where the reserved
cells would end; if no word can hold that, it is their number. -/
inductive Machine.Overflows (m : Machine) : Op → Int → Prop where
  | push (hfull : m.sp = m.mem.size) : m.Overflows .push m.sp
  | reading (type : ValueType) (hfull : m.sp = m.mem.size) : m.Overflows (.reading type) m.sp
  | dup (hword : m.codeLen < m.sp) (hfull : m.sp = m.mem.size) : m.Overflows .dup m.sp
  | peek (hcell : m.inStack (m.bp + m.operand.toInt) = true) (hfull : m.sp = m.mem.size) :
    m.Overflows .peek m.sp
  /-- The first `i` of the three words that a call puts on the stack still have a cell. -/
  | call {cell target i : Nat} (hcount : 0 ≤ m.operand.toInt)
    (hcell : (cell : Int) = m.sp - (m.operand.toInt + 1)) (hin : m.inStack cell = true)
    (htarget : m.cell cell = Word.ofNat target) (hcode : target < m.codeLen) (hi : i < 3)
    (hfull : m.sp + i = m.mem.size) : m.Overflows .call (m.sp + i)
  | alloc (hend : m.mem.size < m.sp + m.operand.toInt) :
    m.Overflows .alloc (if Word.inRange (m.sp + m.operand.toInt) then m.sp + m.operand.toInt
      else m.operand.toInt)

/-- The fault does not come from the code: the operation is known, and if memory is missing, the
next instruction of `m` overflows the stack. -/
def Fault.Tolerable (code : Array Word) (m : Machine) : Fault → Prop
  | unknownOp _ _ => False
  | .memory ip address => ∃ op, code[m.ip]? = some (Op.word op) ∧ ip = m.ip + op.arity + 1 ∧
      m.Overflows op address
  | _ => True

/-- How a step changes the frames. -/
inductive Moves (X : Layout) (p : Program) (Φ : Nat → FunctionId → Prop) (m : Machine) (F : Frame)
    (L : List Frame) (m' : Machine) (F' : Frame) (L' : List Frame) : Prop where
  | within {op : Op} (hop : X.code[m.ip]? = some op.word)
    (hkind : op ≠ .call ∧ op ≠ .ret ∧ op ≠ .retValue) (hhome : F'.home = F.home) (hL : L' = L)
  | call {S : Frame} {id : FunctionId} {f : Function StmtId}
    (hop : X.code[m.ip]? = some Op.call.word) (hf : p.tree.functions[id]? = some f)
    (hΦ : Φ S.sp id) (hsp : m.sp = S.sp + (f.params.length + 1)) (hS : S.home = F.home)
    (hresult : F'.home.routine.hasResult = decide (f.returnType ≠ .void))
    (htarget : X.env id = some m'.ip) (hL : L' = S :: L)
  | ret {S : Frame} (hop : X.code[m.ip]? = some Op.ret.word)
    (hresult : F.home.routine.hasResult = false) (hhome : F'.home = S.home) (hL : L = S :: L')
    (hsp : m'.sp = S.sp) (hzero : S.home.routine.isEntry ∨
      X.code[m'.ip]? = some Op.push.word ∧ X.code[m'.ip + 1]? = some 0)
  | retValue {S : Frame} (hop : X.code[m.ip]? = some Op.retValue.word)
    (hresult : F.home.routine.hasResult = true) (hhome : F'.home = S.home) (hL : L = S :: L')
    (hsp : m'.sp = S.sp + 1)

/-- Where a step takes a machine whose frames are known. -/
inductive Outcome (X : Layout) (p : Program) (lenient : Prop) (Φ Ψ : Nat → FunctionId → Prop)
    (m : Machine) (F : Frame) (L : List Frame) : Prop where
  | moves {m' : Machine} {F' : Frame} {L' : List Frame} (hstep : Machine.step m = .ok none m')
    (hmoves : Moves X p Φ m F L m' F' L') (h : Inv X Ψ m' F' L')
  | exits {status : Word} {m' : Machine} (hstep : Machine.step m = .ok (some status) m')
  | stops {e : Fault} {m' : Machine} (hstep : Machine.step m = .error e m')
    (he : e.Tolerable X.code m)
  /-- A function that has a result returns without one. -/
  | drops {S : Frame} {L' : List Frame} {m' : Machine} (hlenient : lenient)
    (hstep : Machine.step m = .ok none m') (hop : X.code[m.ip]? = some Op.ret.word)
    (hresult : F.home.routine.hasResult = true) (hL : L = S :: L') (hsp : m'.sp = S.sp)

/-- Where the frames are behind a step. -/
inductive Shifts (X : Layout) (p : Program) (m : Machine) (F : Frame) (L : List Frame)
    (m' : Machine) (F' : Frame) (L' : List Frame) : Prop where
  | within {op : Op} (hop : X.code[m.ip]? = some op.word)
    (hkind : (op ≠ .call ∧ op ≠ .ret ∧ op ≠ .retValue) ∧ op ≠ .alloc) (hhome : F'.home = F.home)
    (hbp : F'.bp = F.bp) (hcells : F'.cells = F.cells) (hL : L' = L)
  | reserve (hop : X.code[m.ip]? = some Op.alloc.word) (hentry : ¬F'.home.routine.isEntry)
    (hbp : F'.bp = F.bp) (hvs : F'.vs = []) (hL : L' = L) (hhome : F'.home = F.home)
    (hnone : F.cells = 0) (hcell : m'.cell = m.cell)
  | call {S : Frame} {id : FunctionId} {f : Function StmtId}
    (hop : X.code[m.ip]? = some Op.call.word) (hf : p.tree.functions[id]? = some f)
    (htarget : X.env id = some m'.ip) (hsp : m.sp = S.sp + (f.params.length + 1))
    (hip : S.ip = m.ip + 2) (hhome : S.home = F.home) (hbp : S.bp = F.bp)
    (hcells : S.cells = F.cells)
    (hbase : F'.bp = m.sp + 3) (hnone : F'.cells = 0) (hvs : F'.vs = []) (hL : L' = S :: L)
    (hresult : F'.home.routine.hasResult = decide (f.returnType ≠ .void))
  | back {S : Frame} {op : Op} (hop : X.code[m.ip]? = some op.word)
    (hsp : op = .ret ∧ m'.sp = S.sp ∨ op = .retValue ∧ m'.sp = S.sp + 1) (hip : F'.ip = S.ip)
    (hhome : F'.home = S.home) (hbp : F'.bp = S.bp) (hcells : F'.cells = S.cells) (hL : L = S :: L')
    (hresult : F.home.routine.hasResult = decide (op = .retValue))

/-- Where a step takes a machine whose frames are known, and where the frames are then. -/
structure Passage (X : Layout) (p : Program) (lenient : Prop) (Φ Ψ : Nat → FunctionId → Prop)
    (m : Machine) (F : Frame) (L : List Frame) : Prop where
  outcome : Outcome X p lenient Φ Ψ m F L
  shifts : ∀ m', Machine.step m = .ok none m' →
    lenient ∨ ∃ F' L', Shifts X p m F L m' F' L' ∧ Inv X Ψ m' F' L'

/-- What holds of the cells with addresses of functions before the step, and what holds behind
it. -/
structure Tracks (X : Layout) (m : Machine) (Φ Ψ : Nat → FunctionId → Prop) : Prop where
  keep : ∀ m', Machine.step m = .ok none m' → ∀ x id, x < m'.sp → Φ x id → Ψ x id
  push : ∀ m' id a, Machine.step m = .ok none m' → m.sp < m'.sp →
    X.code[m.ip]? = some Op.push.word → X.code[m.ip + 1]? = some (Word.ofNat a) →
      X.env id = some a → Ψ m.sp id

section

variable {X : Layout} {p : Program} {lenient : Prop} {Φ Ψ : Nat → FunctionId → Prop}
  {m m' : Machine} {F F' : Frame} {L : List Frame} {σ : List Entry} {e : Fault} {op : Op}
  {operands : List Operand} {rest : List Item} {vs : List Word} {l : LabelId} {w : World}

theorem Tracks.entries (hT : Tracks X m Φ Ψ) (hstep : Machine.step m = .ok none m') {lo : Nat}
    (h : Entries X.env Φ lo σ vs) (hle : lo + vs.length ≤ m'.sp) : Entries X.env Ψ lo σ vs :=
  h.mono fun x id hx => hT.keep m' hstep x id (Nat.lt_of_lt_of_le hx hle)

/-- If nothing is said about the cells, nothing has to be tracked. -/
theorem Tracks.trivial (X : Layout) (m : Machine) : Tracks X m (fun _ _ => True) fun _ _ => True :=
  ⟨fun _ _ _ _ _ _ => True.intro, fun _ _ _ _ _ _ _ _ => True.intro⟩

theorem Passage.moves {L' : List Frame} (hstep : Machine.step m = .ok none m')
    (h : Inv X Ψ m' F' L') (hmoves : Moves X p Φ m F L m' F' L')
    (hshifts : Shifts X p m F L m' F' L') : Passage X p lenient Φ Ψ m F L := by
  refine ⟨.moves hstep hmoves h, fun m₁ hstep₁ => ?_⟩
  cases hstep.symm.trans hstep₁
  exact .inr ⟨F', L', hshifts, h⟩

theorem Passage.of_fails (h : Inv X Φ m F L)
    (hf : Fails X.code X.memory Machine.step (F.view m) e) (he : e.Tolerable X.code m) :
    Passage X p lenient Φ Ψ m F L := by
  obtain ⟨m', hstep, -⟩ := hf m h.shows
  refine ⟨.stops hstep he, fun m₁ hstep₁ => ?_⟩
  cases hstep.symm.trans hstep₁

/-- A full stack is no fault of the code. -/
theorem Inv.tolerable (h : Inv X Φ m F L) (hop : X.code[F.ip]? = some op.word)
    (hfull : (F.view m).sp = X.memory)
    (hover : m.sp = m.mem.size → m.Overflows op m.sp) :
    Fault.Tolerable X.code m (.memory (F.ip + op.arity + 1) X.memory) := by
  have hip : m.ip = F.ip := h.shows.ip
  have hsp : m.sp = X.memory := h.shows.sp.trans hfull
  rw [Fault.Tolerable, hip, ← hsp]
  exact ⟨op, hop, rfl, hover (hsp.trans h.shows.size.symm)⟩

/-- The frames that wait are not changed by a step that writes to no cell below the base of the
running function, but for its parameters. -/
theorem Inv.chain_step (h : Inv X Φ m F L) (hT : Tracks X m Φ Ψ)
    (hstep : Machine.step m = .ok none m') (hsp : F.bp ≤ m'.sp)
    (hmem : ∀ a < F.bp, ¬(F.bp ≤ a + (F.home.routine.params + 3) ∧ a + 3 < F.bp) →
      m'.cell a = m.cell a) : Chain X Ψ m'.cell F.bp F.home.routine L :=
  (h.chain.congr hmem).mono fun x id hx => hT.keep m' hstep x id (Nat.lt_of_lt_of_le hx hsp)

/-- A step to the next instruction. -/
theorem Inv.advance (h : Inv X Φ m F L) (hT : Tracks X m Φ Ψ)
    (hb : F.behind = .instr op operands :: rest) (hop : X.code[F.ip]? = some op.word)
    (hkind : (op ≠ .call ∧ op ≠ .ret ∧ op ≠ .retValue) ∧ op ≠ .alloc) {mem : Nat → Word}
    {world : World}
    (hstep : Yields X.code X.memory Machine.step (F.view m) none
      ⟨F.ip + (operands.length + 1), F.bp, F.lo, vs, mem, world⟩)
    (hmem : ∀ a < F.bp, ¬(F.bp ≤ a + (F.home.routine.params + 3) ∧ a + 3 < F.bp) →
      mem a = m.cell a)
    (hflow : Flow F.home.routine F.cells rest σ)
    (hentries : ∀ m', Machine.step m = .ok none m' → m'.sp = F.lo + vs.length →
      (∀ {τ : List Entry} {us : List Word}, Entries X.env Φ F.lo τ us → us.length ≤ vs.length →
        Entries X.env Ψ F.lo τ us) → Entries X.env Ψ F.lo σ vs) :
    Passage X p lenient Φ Ψ m F L := by
  obtain ⟨m', hrun, hm'⟩ := hstep m h.shows
  have hlo : F.bp ≤ F.lo := Nat.le_add_right _ _
  have hsp : m'.sp = F.lo + vs.length := hm'.sp
  let F' : Frame := { F with
    before := F.before ++ [.instr op operands], behind := rest, entries := σ, vs := vs }
  have hshows : m'.Shows X.code X.memory (F'.view m') := by
    have hip : F'.ip = F.ip + (operands.length + 1) := by simp [F', Frame.ip, Nat.add_assoc]
    rw [Frame.view, hip]
    exact hm'.own
  have hstands : F'.Stands X Ψ F'.entries := by
    refine ⟨h.stands.home, ?_, hflow, hentries m' hrun hsp fun hus hle => hT.entries hrun hus ?_⟩
    · rw [h.stands.items, hb]
      simp [F']
    · rw [hsp]
      omega
  have hchain := h.chain_step hT hrun (by omega) fun a ha hparam =>
    (hm'.mem a (Nat.lt_of_lt_of_le ha hlo)).trans (hmem a ha hparam)
  have hat : X.code[m.ip]? = some op.word := by rwa [h.shows.ip]
  have hinv : Inv X Ψ m' F' L := ⟨hshows, hstands, hchain⟩
  exact .moves hrun hinv (.within hat hkind.1 rfl rfl) (.within hat hkind rfl rfl rfl rfl)

section

variable (hX : X.Valid p lenient) (h : Inv X Φ m F L)

include hX h

/-- The cell of a place that fits. -/
theorem Inv.fits {slot : Int} (hs : F.home.routine.Fits F.cells slot) :
    ∃ x : Nat, (F.bp : Int) + (Int64.ofInt slot).toInt = x ∧ X.code.size ≤ x ∧ x < F.lo ∧
      (F.bp ≤ x ∨ F.bp ≤ x + (F.home.routine.params + 3) ∧ x + 3 < F.bp) := by
  have hcode := h.chain.code_le
  have hparam := h.chain.param_le
  have hM := hX.memory
  have hbelow : F.lo + F.vs.length ≤ X.memory := h.shows.below
  have hlo : F.lo = F.bp + F.cells := rfl
  rw [Routine.Fits] at hs
  refine ⟨((F.bp : Int) + slot).toNat, ?_, ?_, ?_, ?_⟩
  · rw [Int64.toInt_ofInt_of_le (by omega) (by omega)]
    omega
  all_goals omega

/-- A label that may be jumped to has an address. -/
theorem Inv.label (hl : F.home.routine.live F.cells l) :
    ∃ t, X.env l = some t ∧ t < X.code.size := by
  obtain ⟨before, behind, hitems, hflow⟩ := hX.routines.closed _ h.stands.home _ _ hl
  have hlies := hX.routines.lies _ h.stands.home
  rw [hitems] at hlies
  obtain ⟨hat, hlies⟩ := (Item.lies_append.mp hlies).2
  exact ⟨_, hat, hflow.lt_size hlies⟩

/-- Going on at a label. -/
theorem Inv.goto (hT : Tracks X m Φ Ψ) (hop : X.code[F.ip]? = some op.word)
    (hkind : (op ≠ .call ∧ op ≠ .ret ∧ op ≠ .retValue) ∧ op ≠ .alloc)
    (hl : F.home.routine.live F.cells l)
    (hstep : ∀ t, X.env l = some t → t < X.code.size →
      Yields X.code X.memory Machine.step (F.view m) none ⟨t, F.bp, F.lo, [], m.cell, m.world⟩) :
    Passage X p lenient Φ Ψ m F L := by
  obtain ⟨before, behind, hitems, hflow⟩ := hX.routines.closed _ h.stands.home _ _ hl
  have hlies := hX.routines.lies _ h.stands.home
  rw [hitems] at hlies
  obtain ⟨hlabel, hlies⟩ := (Item.lies_append.mp hlies).2
  obtain ⟨m', hrun, hm'⟩ := hstep _ hlabel (hflow.lt_size hlies) m h.shows
  have hsp : m'.sp = F.lo := hm'.sp
  have hlo : F.bp ≤ F.lo := Nat.le_add_right _ _
  let F' : Frame := { F with
    before := before ++ [.place l], behind := behind, entries := [], vs := [] }
  have hshows : m'.Shows X.code X.memory (F'.view m') := by
    have hip : F'.ip = F.home.start + Item.size before := by simp [F', Frame.ip]
    rw [Frame.view, hip]
    exact hm'.own
  have hstands : F'.Stands X Ψ F'.entries :=
    ⟨h.stands.home, hitems.trans (List.append_cons ..), hflow, .nil⟩
  have hchain := h.chain_step hT hrun (by omega) fun a ha _ =>
    hm'.mem a (Nat.lt_of_lt_of_le ha hlo)
  have hat : X.code[m.ip]? = some op.word := by rwa [h.shows.ip]
  have hinv : Inv X Ψ m' F' L := ⟨hshows, hstands, hchain⟩
  exact .moves hrun hinv (.within hat hkind.1 rfl rfl) (.within hat hkind rfl rfl rfl rfl)

/-- Reserving cells. -/
theorem Inv.reserve (hT : Tracks X m Φ Ψ) {k : Nat} (hb : F.behind = .withSlot .alloc k :: rest)
    (hzero : F.cells = 0) (hvs : F.vs = []) (hentry : ¬F.home.routine.isEntry)
    (hk : k < 0x8000000000000000) (hflow : Flow F.home.routine k rest []) :
    Passage X p lenient Φ Ψ m F L := by
  have hM := hX.memory
  obtain ⟨hop, hw⟩ := h.stands.words hX hb
  have hword : X.code[F.ip + 1]? = some (Word.ofNat k) := hw _ rfl
  by_cases hroom : F.lo + k ≤ X.memory
  · obtain ⟨m', hrun, hcell, hm'⟩ := Machine.step_alloc h.shows hop hword hvs hroom hM
    have hsp : m'.sp = F.lo + k := by
      rw [hm'.sp, View.sp]
      simp [Frame.view, hvs]
    have hlo : F.bp ≤ F.lo := Nat.le_add_right _ _
    let F' : Frame := { F with
      before := F.before ++ [.withSlot .alloc k], behind := rest, cells := k, entries := [],
      vs := [] }
    have hshows : m'.Shows X.code X.memory (F'.view m') := by
      have hip : F'.ip = F.ip + 2 := by
        simp [F', Frame.ip, Item.withSlot, Item.withWord, Nat.add_assoc]
      have hlo' : F'.lo = F.lo + k := by simp [F', Frame.lo, hzero]
      have := hm'.own
      simp only [Frame.view, hvs] at this
      rw [Frame.view, hip, hlo']
      exact this
    have hstands : F'.Stands X Ψ F'.entries := by
      refine ⟨h.stands.home, ?_, hflow, .nil⟩
      rw [h.stands.items, hb]
      simp [F']
    have hchain := h.chain_step hT hrun (by omega) fun a _ _ => congrFun hcell a
    have hat : X.code[m.ip]? = some Op.alloc.word := by rwa [h.shows.ip]
    have hinv : Inv X Ψ m' F' L := ⟨hshows, hstands, hchain⟩
    exact .moves hrun hinv (.within hat (by decide) rfl rfl)
      (.reserve hat hentry rfl rfl rfl rfl hzero hcell)
  · have hsp : (F.view m).sp = F.lo := by simp [View.sp, Frame.view, hvs]
    have hint : m.operand.toInt = k := by
      rw [h.shows.operand hword]
      exact Machine.toInt_ofNat hk
    have hover : m.Overflows .alloc _ := .alloc <| by
      rw [hint, h.shows.size, h.shows.sp, hsp]
      omega
    rw [hint, h.shows.sp] at hover
    exact .of_fails h (Machine.step_alloc_fails hop hword (by omega) hk)
      ⟨.alloc, by rwa [h.shows.ip], by rw [h.shows.ip]; rfl, hover⟩

/-! ## Calls and returns -/

/-- A call leaves the frame of the caller behind. -/
theorem Inv.call (hT : Tracks X m Φ Ψ) {n : Nat} {id : FunctionId} {hasResult : Bool}
    (hb : F.behind = .withWord .call (Word.ofNat n) :: rest)
    (hσ : F.entries = List.replicate n .value ++ .callee id :: σ)
    (hid : F.home.routine.functions id = some (n, hasResult))
    (hflow : Flow F.home.routine F.cells rest (Routine.after hasResult σ))
    (hzero : hasResult = false → F.home.routine.isEntry ∨ ∃ is, rest = .withWord .push 0 :: is) :
    Passage X p lenient Φ Ψ m F L := by
  have hM := hX.memory
  obtain ⟨hop, hw⟩ := h.stands.words hX hb
  have hentries := h.stands.entries
  rw [hσ] at hentries
  obtain ⟨args, a, us, hvs, rfl, ha, hΦ, hus⟩ := hentries.of_call
  obtain ⟨f, hf, hparams, hresult⟩ : ∃ f, p.tree.functions[id]? = some f ∧
      f.params.length = args.length ∧ decide (f.returnType ≠ .void) = hasResult := by
    simpa only [hX.routines.functions _ h.stands.home, Option.map_eq_some_iff,
      Prod.mk.injEq] using hid
  obtain ⟨R, hR, hat, hRparams, hRresult, hRentry, hRflow⟩ := hX.routines.callee id f hf
  obtain rfl : a = R.start := Option.some.inj (ha.symm.trans hat)
  have hlt : R.start < X.code.size := hRflow.lt_size (hX.routines.lies R hR)
  have hword : X.code[F.ip + 1]? = some (Word.ofNat args.length) := hw _ rfl
  by_cases hroom : (F.view m).sp + 3 ≤ X.memory
  · obtain ⟨m', hrun, hm'⟩ := Machine.step_call hop hword hvs hlt hroom hM m h.shows
    -- The caller waits as `S`, without the arguments and the address that the call has taken.
    let S : Frame := { F with
      before := F.before ++ [.withWord .call (Word.ofNat args.length)]
      behind := rest
      entries := σ
      vs := us }
    let F' : Frame := ⟨R, [], R.items, 0, (F.view m).sp + 3, [], []⟩
    have hS : S.sp = F.lo + us.length := rfl
    have hFsp : (F.view m).sp = S.sp + (args.length + 1) := by
      simp only [View.sp, Frame.view, hvs, hS, List.length_append, List.length_cons]
      omega
    have hsp : m'.sp = (F.view m).sp + 3 := hm'.sp
    have hbp : F.bp ≤ S.sp := Nat.le_trans (Nat.le_add_right _ _) (Nat.le_add_right _ _)
    obtain ⟨htop, hbase, hip, hstack⟩ := hm'.stack
    have hshows : m'.Shows X.code X.memory (F'.view m') := hm'.flatten.own
    have hstands : S.Stands X Ψ (Routine.after R.routine.hasResult S.entries) := by
      refine ⟨h.stands.home, ?_, by rwa [hRresult, hresult], hT.entries hrun hus ?_⟩
      · rw [h.stands.items, hb]
        simp [S]
      · show S.sp ≤ m'.sp
        omega
    have hstackS : Stacked m'.cell S.lo S.vs := by
      have hall : Stacked m'.cell F.lo F.vs := hstack
      rw [hvs] at hall
      exact (Stacked.append.mp hall).2.2
    have hchain := h.chain_step hT hrun (by omega) fun a ha _ =>
      hm'.mem a (Nat.lt_of_lt_of_le ha (Nat.le_add_right _ _))
    have hipS : S.ip = F.ip + 2 := by simp [S, Frame.ip, Item.withWord, Nat.add_assoc]
    have hframes : Chain X Ψ m'.cell F'.bp R.routine (S :: L) := by
      refine .call hRentry hstands ?_ hstackS ?_ ?_ ?_ ?_ hchain
      · rw [hRresult, hresult]
        exact hzero
      · rw [hRparams, hparams]
        show (F.view m).sp + 3 = S.sp + (args.length + 4)
        omega
      · rw [hipS]
        exact hip
      · exact hbase
      · exact htop
    have hcall : X.code[m.ip]? = some Op.call.word := by rwa [h.shows.ip]
    have hheight : m.sp = S.sp + (f.params.length + 1) := by rw [h.shows.sp, hFsp, hparams]
    have htarget : X.env id = some m'.ip := by
      rw [hm'.ip]
      exact hat
    have hbehind : S.ip = m.ip + 2 := by rw [hipS, h.shows.ip]; rfl
    have hbase' : F'.bp = m.sp + 3 := by rw [h.shows.sp]
    have hinv : Inv X Ψ m' F' (S :: L) := ⟨hshows, ⟨hR, rfl, hRflow, .nil⟩, hframes⟩
    exact .moves hrun hinv
      (.call hcall hf (show Φ S.sp id from hΦ) hheight rfl hRresult htarget rfl)
      (.call hcall hf htarget hheight hbehind rfl rfl rfl hbase' rfl rfl rfl hRresult)
  · have hsp : m.sp = F.lo + us.length + (args.length + 1) := by
      rw [h.shows.sp]
      simp only [View.sp, Frame.view, hvs, List.length_append, List.length_cons]
      omega
    have hbelow : m.sp ≤ X.memory := h.shows.sp ▸ h.shows.below
    have hint : m.operand.toInt = args.length := by
      rw [h.shows.operand hword]
      exact Machine.toInt_ofNat (by omega)
    have hstack : Stacked m.cell F.lo F.vs := h.shows.stack
    rw [hvs, Stacked.append] at hstack
    have hover : m.Overflows .call (m.sp + (X.memory - m.sp : Nat)) := by
      refine .call (by omega) (show ((F.lo + us.length : Nat) : Int) = _ by omega)
        (h.shows.inStack ?_ ?_) hstack.2.1 (h.shows.codeLen ▸ hlt) ?_ ?_
      · exact Nat.le_trans h.shows.above (Nat.le_add_right _ _)
      · omega
      · rw [h.shows.sp] at hsp ⊢
        omega
      · rw [h.shows.size]
        omega
    have hend : (m.sp + (X.memory - m.sp : Nat) : Int) = X.memory := by omega
    exact .of_fails h
      (Machine.step_call_fails hop hword hvs h.shows.below (Nat.lt_of_not_le hroom) hM)
      ⟨.call, by rwa [h.shows.ip], by rw [h.shows.ip]; rfl, hend ▸ hover⟩

/-- A return leads to the frame of the caller, which gets the words `vs`. -/
theorem Inv.leave (hT : Tracks X m Φ Ψ) (hK : ¬F.home.routine.isEntry) (vs : List Word)
    (hstep : ∀ {ip bp top : Nat}, m.cell (F.bp - 3) = Word.ofNat ip →
      m.cell (F.bp - 2) = Word.ofNat bp → m.cell (F.bp - 1) = Word.ofNat top →
      ip < X.code.size → X.code.size ≤ bp → bp ≤ top → top + 3 < F.bp →
      Yields X.code X.memory Machine.step (F.view m) none ⟨ip, bp, top, vs, m.cell, m.world⟩) :
    ∃ S L' m', L = S :: L' ∧ Machine.step m = .ok none m' ∧ m'.sp = S.sp + vs.length ∧
      S.Stands X Ψ (Routine.after F.home.routine.hasResult S.entries) ∧
      (F.home.routine.hasResult = false → S.home.routine.isEntry ∨
        X.code[m'.ip]? = some Op.push.word ∧ X.code[m'.ip + 1]? = some 0) ∧
      m'.Shows X.code X.memory ⟨S.ip, S.bp, S.lo, vs ++ S.vs, m'.cell, m'.world⟩ ∧
      Chain X Ψ m'.cell S.bp S.home.routine L' ∧ ∀ a < S.sp, m'.cell a = m.cell a := by
  have hchain := h.chain
  generalize hbp : F.bp = bp at hchain
  cases hchain with
  | entry _ hentry _ => exact absurd hentry hK
  | @call _ _ S L' _ hS hzero hstack hbase hip hsaved htop hL =>
    subst hbp
    have hSsp := S.bp_le_sp
    obtain ⟨m', hrun, hm'⟩ :=
      hstep hip hsaved htop (hS.ip_lt hX) hL.code_le hSsp (by omega) m h.shows
    have hsp : m'.sp = S.sp + vs.length := hm'.sp
    have hcell : ∀ a < S.sp, m'.cell a = m.cell a := hm'.mem
    refine ⟨S, L', m', rfl, hrun, hsp, ?_, fun hvoid => ?_, ?_, ?_, hcell⟩
    · refine ⟨hS.home, hS.items, hS.flow, hT.entries hrun hS.entries ?_⟩
      show S.sp ≤ m'.sp
      omega
    · refine (hzero hvoid).imp_right fun ⟨rest, hrest⟩ => ?_
      obtain ⟨hop, hw⟩ := hS.words hX hrest
      rw [show m'.ip = S.ip from hm'.ip]
      exact ⟨hop, hw _ rfl⟩
    · have hlo : X.code.size ≤ S.lo := Nat.le_trans hL.code_le (Nat.le_add_right _ _)
      exact (hm'.unflatten hlo rfl hstack).own
    · refine (hL.congr fun a ha _ => hcell a ?_).mono fun x id hx => hT.keep m' hrun x id ?_
      · omega
      · omega

theorem Inv.ret (hT : Tracks X m Φ Ψ) (hb : F.behind = .plain .ret :: rest)
    (hret : F.home.routine.hasResult = false ∨ F.home.routine.lenient) :
    Passage X p lenient Φ Ψ m F L := by
  have hK : ¬F.home.routine.isEntry := fun hentry => by
    have hmem : .plain .ret ∈ F.home.items := by
      rw [h.stands.items, hb]
      simp
    exact (hX.routines.entry _ h.stands.home hentry).1 hmem
  have hM : X.memory ≤ 0x8000000000000000 := Nat.le_trans hX.memory (by decide)
  obtain ⟨hop, -⟩ := h.stands.words hX hb
  obtain ⟨S, L', m', rfl, hrun, hsp, hS, hzero, hshows, hL, -⟩ := h.leave hX hT hK []
    fun hip hbp htop hiplt hbplo hbptop htoplt =>
      Machine.step_ret hop (Nat.le_add_right _ _) hip hbp htop hiplt hbplo hbptop htoplt hM
  have hat : X.code[m.ip]? = some Op.ret.word := by rwa [h.shows.ip]
  cases hresult : F.home.routine.hasResult with
  | true =>
    have hlenient := hX.routines.lenient _ h.stands.home (hret.resolve_left (by simp [hresult]))
    exact ⟨.drops hlenient hrun hat hresult rfl hsp, fun _ _ => .inl hlenient⟩
  | false =>
    rw [hresult] at hS
    exact .moves hrun ⟨hshows, hS, hL⟩ (.ret hat hresult rfl rfl hsp (hzero hresult))
      (.back hat (.inl ⟨rfl, hsp⟩) rfl rfl rfl rfl rfl hresult)

theorem Inv.retValue (hT : Tracks X m Φ Ψ) (hb : F.behind = .plain .retValue :: rest) {v : Word}
    (hvs : F.vs = [v]) (hresult : F.home.routine.hasResult = true) :
    Passage X p lenient Φ Ψ m F L := by
  have hK : ¬F.home.routine.isEntry := fun hentry => by
    have hmem : .plain .retValue ∈ F.home.items := by
      rw [h.stands.items, hb]
      simp
    exact (hX.routines.entry _ h.stands.home hentry).2 hmem
  have hM : X.memory ≤ 0x8000000000000000 := Nat.le_trans hX.memory (by decide)
  obtain ⟨hop, -⟩ := h.stands.words hX hb
  obtain ⟨S, L', m', rfl, hrun, hsp, hS, -, hshows, hL, -⟩ := h.leave hX hT hK [v]
    fun hip hbp htop hiplt hbplo hbptop htoplt =>
      Machine.step_retValue hop hvs (Nat.le_add_right _ _) hip hbp htop hiplt hbplo hbptop htoplt hM
  rw [hresult] at hS
  let F' : Frame := { S with entries := .value :: S.entries, vs := v :: S.vs }
  have hat : X.code[m.ip]? = some Op.retValue.word := by rwa [h.shows.ip]
  have hinv : Inv X Ψ m' F' L' := ⟨hshows, ⟨hS.home, hS.items, hS.flow, .value v hS.entries⟩, hL⟩
  exact .moves hrun hinv (.retValue (S := S) hat hresult rfl rfl hsp)
    (.back (S := S) hat (.inr ⟨rfl, hsp⟩) rfl rfl rfl rfl rfl hresult)

end

/-! ## All instructions -/

/-- An operation on which a function is defined that is not defined on those that change the
frames. -/
theorem Op.kind_of_some {α : Type} {g : Op → Option α} {a : α} (h : g op = some a)
    (hcall : g .call = none) (hret : g .ret = none) (hretValue : g .retValue = none)
    (halloc : g .alloc = none) : (op ≠ .call ∧ op ≠ .ret ∧ op ≠ .retValue) ∧ op ≠ .alloc := by
  have hne : ∀ {op'}, g op' = none → op ≠ op' := by
    rintro _ hnone rfl
    rw [hnone] at h
    cases h
  exact ⟨⟨hne hcall, hne hret, hne hretValue⟩, hne halloc⟩

theorem World.readLine_error (h : w.readLine = .error e) :
    e = .notText ∨ ∃ i, e = .invalidInput i := by
  simp only [World.readLine] at h
  split at h
  · cases h
    exact .inr ⟨_, rfl⟩
  · split at h
    · cases h
    · cases h
      exact .inl rfl

theorem World.readValue_error {read? : String → Option Word} {error : String → InputError}
    (h : w.readValue read? error = .error e) : e = .notText ∨ ∃ i, e = .invalidInput i := by
  rw [World.readValue] at h
  split at h
  · rename_i herr
    cases h
    exact readLine_error herr
  · split at h
    · cases h
    · cases h
      exact .inr ⟨_, rfl⟩

/-- What can be wrong with a line of input. -/
theorem World.read_error {type : ValueType} (h : w.read type = .error e) :
    e = .notText ∨ ∃ i, e = .invalidInput i := by
  cases type with
  | string =>
    rw [World.read] at h
    split at h
    · rename_i herr
      cases h
      exact readLine_error herr
    · cases h
  | _ => exact readValue_error h

theorem Inv.full (h : Inv X Φ m F L) (hroom : ¬(F.view m).sp < X.memory) :
    (F.view m).sp = X.memory :=
  Nat.le_antisymm h.shows.below (Nat.le_of_not_lt hroom)

/-- What a step does at an instruction. -/
theorem Inv.step_at (hX : X.Valid p lenient) (h : Inv X Φ m F L) (hT : Tracks X m Φ Ψ)
    (hb : F.behind = .instr op operands :: rest) : Passage X p lenient Φ Ψ m F L := by
  have hM : X.memory ≤ 0x8000000000000000 := Nat.le_trans hX.memory (by decide)
  have hentries := h.stands.entries
  have hflow := h.stands.flow
  obtain ⟨hop, hw⟩ := h.stands.words hX hb
  generalize hσ : F.entries = σ at hflow hentries
  generalize hk : F.cells = k at hflow
  rw [hb] at hflow
  -- How the code may go on from here says what lies on top of the stack, and with it what the
  -- instruction finds there.  Where a word is pushed, the memory may be full.
  cases hflow with
  | binary hf hflow =>
    obtain ⟨b, a, us, hvs, hus⟩ := hentries.of_values
    subst hk
    exact h.advance hT hb hop (Op.kind_of_some hf rfl rfl rfl rfl) (Machine.step_binary hop hf hvs)
      (fun _ _ _ => rfl) hflow fun _ _ _ keep => .value _ (keep hus (by simp))
  | division hf hflow =>
    obtain ⟨b, a, us, hvs, hus⟩ := hentries.of_values
    subst hk
    by_cases hzero : b = 0
    · subst hzero
      exact .of_fails h (Machine.step_division_fails hop hf hvs) trivial
    · exact h.advance hT hb hop (Op.kind_of_some hf rfl rfl rfl rfl)
        (Machine.step_division hop hf hvs hzero) (fun _ _ _ => rfl) hflow
        fun _ _ _ keep => .value _ (keep hus (by simp))
  | unary hf hflow =>
    obtain ⟨a, us, hvs, hus⟩ := hentries.of_value
    subst hk
    exact h.advance hT hb hop (Op.kind_of_some hf rfl rfl rfl rfl) (Machine.step_unary hop hf hvs)
      (fun _ _ _ => rfl) hflow fun _ _ _ keep => .value _ (keep hus (by simp))
  | pop hflow =>
    obtain ⟨a, us, hvs, hus⟩ := hentries.of_value
    subst hk
    exact h.advance hT hb hop (by decide) (Machine.step_pop hop hvs) (fun _ _ _ => rfl) hflow
      fun _ _ _ keep => keep hus (by simp)
  | dup hflow =>
    obtain ⟨a, us, hvs, hus⟩ := hentries.of_value
    subst hk
    by_cases hroom : (F.view m).sp < X.memory
    · exact h.advance hT hb hop (by decide) (Machine.step_dup hop hvs hroom)
        (fun _ _ _ => rfl) hflow
        fun _ _ _ keep => .value _ (.value _ (keep hus (Nat.le_add_right _ 2)))
    · refine .of_fails h (Machine.step_dup_fails hop hvs (h.full hroom))
        (h.tolerable hop (h.full hroom) (.dup ?_))
      rw [h.shows.codeLen, h.shows.sp, View.sp, show (F.view m).vs = a :: us from hvs]
      exact Nat.lt_of_le_of_lt h.shows.above (Nat.lt_add_of_pos_right (Nat.succ_pos _))
  | push hflow =>
    subst hk
    by_cases hroom : (F.view m).sp < X.memory
    · exact h.advance hT hb hop (by decide) (Machine.step_push hop (hw _ rfl) hroom)
        (fun _ _ _ => rfl) hflow fun _ _ _ keep => .value _ (keep hentries (by simp [Frame.view]))
    · exact .of_fails h (Machine.step_push_fails hop (hw _ rfl) (h.full hroom))
        (h.tolerable hop (h.full hroom) .push)
  | @callee _ id _ _ hid hflow =>
    subst hk
    obtain ⟨f, hf⟩ : ∃ f, p.tree.functions[id]? = some f := by
      rw [hX.routines.functions _ h.stands.home] at hid
      simpa [Option.isSome_iff_exists] using hid
    obtain ⟨R, -, hat, -⟩ := hX.routines.callee id f hf
    have hword : X.code[F.ip + 1]? = some (Word.ofNat R.start) := by
      rw [← Operand.resolve_label hat]
      exact hw _ rfl
    by_cases hroom : (F.view m).sp < X.memory
    · refine h.advance hT hb hop (by decide) (Machine.step_push hop hword hroom)
        (fun _ _ _ => rfl) hflow fun m' hrun hsp keep =>
          .callee hat ?_ (keep hentries (by simp [Frame.view]))
      have hlt : m.sp < m'.sp := by
        rw [hsp, h.shows.sp]
        exact Nat.lt_succ_self _
      have hΨ := hT.push m' id R.start hrun hlt (by rwa [h.shows.ip]) (by rwa [h.shows.ip]) hat
      rwa [h.shows.sp] at hΨ
    · exact .of_fails h (Machine.step_push_fails hop hword (h.full hroom))
        (h.tolerable hop (h.full hroom) .push)
  | peek hs hflow =>
    subst hk
    obtain ⟨x, hx, hlo, hhi, -⟩ := h.fits hX hs
    by_cases hroom : (F.view m).sp < X.memory
    · exact h.advance hT hb hop (by decide) (Machine.step_peek hop (hw _ rfl) hx hlo hhi hroom hM)
        (fun _ _ _ => rfl) hflow fun _ _ _ keep => .value _ (keep hentries (by simp [Frame.view]))
    · refine .of_fails h (Machine.step_peek_fails hop (hw _ rfl) hx hlo hhi (h.full hroom) hM)
        (h.tolerable hop (h.full hroom) (.peek ?_))
      rw [h.shows.operand (hw _ rfl), h.shows.bp]
      exact hx ▸ h.shows.inStack hlo
        (Nat.lt_of_lt_of_le hhi (h.full hroom ▸ Nat.le_add_right _ _))
  | poke hs hflow =>
    obtain ⟨a, us, hvs, hus⟩ := hentries.of_value
    subst hk
    obtain ⟨x, hx, hlo, hhi, hwhere⟩ := h.fits hX hs
    refine h.advance hT hb hop (by decide) (Machine.step_poke hop (hw _ rfl) hvs hx hlo hhi hM)
      (fun y hy hparam => ?_) hflow fun _ _ _ keep => keep hus (Nat.le_refl _)
    exact Function.update_of_ne (by omega) _ _
  | alloc hentry hsize hflow => exact h.reserve hX hT hb hk hentries.of_nil hentry hsize hflow
  | call hid hflow hzero =>
    subst hk
    exact h.call hX hT hb hσ hid hflow hzero
  | ret hret => exact h.ret hX hT hb hret
  | retValue hret =>
    obtain ⟨a, us, hvs, hus⟩ := hentries.of_value
    rw [hus.of_nil] at hvs
    exact h.retValue hX hT hb hvs hret
  | exit _ =>
    obtain ⟨m', hrun, -⟩ := Machine.step_exit hop m h.shows
    refine ⟨.exits hrun, fun m₁ hrun₁ => ?_⟩
    cases hrun.symm.trans hrun₁
  | jump hl =>
    subst hk
    refine h.goto hX hT hop (by decide) hl fun t ht hlt => ?_
    have hword : X.code[F.ip + 1]? = some (Word.ofNat t) := by
      rw [← Operand.resolve_label ht]
      exact hw _ rfl
    have hstep := Machine.step_jump (V := F.view m) hop hword hlt hM
    rwa [Frame.view, hentries.of_nil] at hstep ⊢
  | @jumpZero _ l _ hl hflow =>
    obtain ⟨a, us, hvs, hus⟩ := hentries.of_value
    rw [hus.of_nil] at hvs
    subst hk
    have hword : ∀ t, X.env l = some t → X.code[F.ip + 1]? = some (Word.ofNat t) := by
      intro t ht
      rw [← Operand.resolve_label ht]
      exact hw _ rfl
    by_cases hzero : a = 0
    · refine h.goto hX hT hop (by decide) hl fun t ht hlt => ?_
      have hstep := Machine.step_jumpZero (V := F.view m) hop (hword t ht) hvs hlt hM
      rwa [if_pos hzero] at hstep
    · obtain ⟨t, ht, hlt⟩ := h.label hX hl
      have hstep := Machine.step_jumpZero (V := F.view m) hop (hword t ht) hvs hlt hM
      rw [if_neg hzero] at hstep
      exact h.advance hT hb hop (by decide) hstep (fun _ _ _ => rfl) hflow fun _ _ _ _ => .nil
  | text hf hflow =>
    obtain ⟨a, us, hvs, hus⟩ := hentries.of_value
    subst hk
    exact h.advance hT hb hop (Op.kind_of_some hf rfl rfl rfl rfl) (Machine.step_text hop hf hvs)
      (fun _ _ _ => rfl) hflow fun _ _ _ keep => keep hus (Nat.le_refl _)
  | outString hflow =>
    obtain ⟨a, us, hvs, hus⟩ := hentries.of_value
    subst hk
    cases htext : m.world.strings.get? a with
    | some text =>
      exact h.advance hT hb hop (by decide) (Machine.step_outString hop hvs htext)
        (fun _ _ _ => rfl) hflow fun _ _ _ keep => keep hus (Nat.le_refl _)
    | none => exact .of_fails h (Machine.step_outString_fails hop hvs htext) trivial
  | @read _ type _ _ hflow =>
    subst hk
    cases hread : m.world.read type with
    | error e =>
      refine .of_fails h (Machine.step_read_fails hop hread) ?_
      rcases World.read_error hread with rfl | ⟨i, rfl⟩
      · trivial
      · trivial
    | ok r =>
      by_cases hroom : (F.view m).sp < X.memory
      · exact h.advance hT hb hop (by cases type <;> decide) (Machine.step_read hop hread hroom)
          (fun _ _ _ => rfl) hflow fun _ _ _ keep => .value _ (keep hentries (by simp [Frame.view]))
      · have htolerable := h.tolerable hop (h.full hroom) (.reading type)
        rw [Op.arity_reading] at htolerable
        exact .of_fails h (Machine.step_read_full hop hread (h.full hroom)) htolerable
  | random hflow =>
    obtain ⟨a, us, hvs, hus⟩ := hentries.of_value
    subst hk
    exact h.advance hT hb hop (by decide) (Machine.step_random hop hvs rfl) (fun _ _ _ => rfl) hflow
      fun _ _ _ keep => .value _ (keep hus (by simp))

theorem Outcome.of_home (hhome : F'.home = F.home) (h : Outcome X p lenient Φ Ψ m F' L) :
    Outcome X p lenient Φ Ψ m F L := by
  cases h with
  | moves hstep hmoves h =>
    refine .moves hstep ?_ h
    cases hmoves with
    | within hop hkind hsame hL => exact .within hop hkind (hsame.trans hhome) hL
    | call hop hf hΦ hsp hS hresult htarget hL =>
      exact .call hop hf hΦ hsp (hS.trans hhome) hresult htarget hL
    | ret hop hresult hback hL hsp hzero => exact .ret hop (hhome ▸ hresult) hback hL hsp hzero
    | retValue hop hresult hback hL hsp => exact .retValue hop (hhome ▸ hresult) hback hL hsp
  | exits hstep => exact .exits hstep
  | stops hstep he => exact .stops hstep he
  | drops hlenient hstep hop hresult hL hsp =>
    exact .drops hlenient hstep hop (hhome ▸ hresult) hL hsp

/-- A step keeps the invariant, ends the run, or returns without a result. -/
theorem Inv.step (hX : X.Valid p lenient) (h : Inv X Φ m F L) (hT : Tracks X m Φ Ψ) :
    Outcome X p lenient Φ Ψ m F L := by
  obtain ⟨F', h', hhome, -, -, op, operands, rest, hb⟩ := h.skip
  exact .of_home hhome (h'.step_at hX hT hb).outcome

/-- Where the frames are behind a step that does not return without a result. -/
theorem Inv.step_shifts (hX : X.Valid p lenient) (h : Inv X Φ m F L) (hT : Tracks X m Φ Ψ)
    (hstep : Machine.step m = .ok none m') :
    lenient ∨ ∃ F' L', Shifts X p m F L m' F' L' ∧ Inv X Ψ m' F' L' := by
  obtain ⟨F₁, h₁, hhome₁, hbp₁, hcells₁, op, operands, rest, hb⟩ := h.skip
  refine ((h₁.step_at hX hT hb).shifts m' hstep).imp_right fun ⟨F', L', hshifts, h'⟩ =>
    ⟨F', L', ?_, h'⟩
  cases hshifts with
  | within hop hkind hhome hbp hcells hL =>
    exact .within hop hkind (hhome.trans hhome₁) (hbp.trans hbp₁) (hcells.trans hcells₁) hL
  | reserve hop hentry hbp hvs hL hhome hnone hcell =>
    exact .reserve hop hentry (hbp.trans hbp₁) hvs hL (hhome.trans hhome₁) (hcells₁ ▸ hnone) hcell
  | call hop hf htarget hsp hip hhome hbp hcells hbase hnone hvs hL hresult =>
    exact .call hop hf htarget hsp hip (hhome.trans hhome₁) (hbp.trans hbp₁) (hcells.trans hcells₁)
      hbase hnone hvs hL hresult
  | back hop hsp hip hhome hbp hcells hL hresult =>
    exact .back hop hsp hip hhome hbp hcells hL (hhome₁ ▸ hresult)

end

end StackLang
