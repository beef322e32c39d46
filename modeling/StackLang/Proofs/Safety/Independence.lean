import StackLang.Proofs.Machine.Boundaries
import StackLang.Proofs.Machine.Output
import StackLang.Proofs.Safety.Assignment
import StackLang.Proofs.Safety.Runs

/-!
# What was in the memory does not matter

A program that accesses no elements of arrays, declares its variables with values and returns its
results on all paths reads no cell of the stack before it has written to it.  So two machines with
the same code do the same, whatever is in their stacks.

* `Frame.Informed` — the cells that a function can read are the same in both machines.
* `Inv.informed_step` — a step keeps it so.
* `run_independent` — runs do not depend on what was in the stack.
-/

namespace StackLang

open Machine (Alike)

variable {operands : List Operand} {σ : List Entry} {env : Addresses} {m' : Machine}
  {code : Array Word}

/-! ## The cells that an instruction needs -/

/-- The words that an instruction needs are there. -/
structure Op.Served (op : Op) (operands : List Operand) (isEntry : Prop) (height : Nat) : Prop where
  pops : op.pops ≤ height ∨ op = .exit ∧ isEntry
  elementless : op ≠ .peekAt
  target : op = .call → ∃ n, operands = [.word (Word.ofNat n)] ∧ n < height

/-- An operation on which a function is defined that is not defined on those with needs of their
own. -/
theorem Op.served_of_some {α : Type} {g : Op → Option α} {op : Op} {a : α} (h : g op = some a)
    (helement : g .peekAt = none) (hcall : g .call = none) {isEntry : Prop} {height : Nat}
    (hpops : op.pops ≤ height) : op.Served operands isEntry height := by
  refine ⟨.inl hpops, ?_, ?_⟩
  · rintro rfl
    rw [helement] at h
    cases h
  · rintro rfl
    rw [hcall] at h
    cases h

theorem Flow.served {K : Routine} {k : Nat} {is : List Item} (h : Flow K k is σ) {op : Op}
    {rest : List Item} (his : is = .instr op operands :: rest) :
    op.Served operands K.isEntry σ.length := by
  cases h with
  | place => cases his
  | binary hf =>
    cases his
    exact Op.served_of_some hf rfl rfl (by simp [(Op.of_binary? hf).2.1])
  | division hf =>
    cases his
    exact Op.served_of_some hf rfl rfl (by simp [(Op.of_division? hf).2.1])
  | unary hf =>
    cases his
    exact Op.served_of_some hf rfl rfl (by simp [(Op.of_unary? hf).2.1])
  | text hf =>
    cases his
    exact Op.served_of_some hf rfl rfl (by simp [(Op.of_text? hf).2.1])
  | @read _ type =>
    cases his
    cases type <;> exact ⟨.inl (Nat.zero_le _), by decide, fun h => by cases h⟩
  | @call _ n =>
    cases his
    exact ⟨.inl (Nat.zero_le _), by decide, fun _ => ⟨n, rfl, by simp⟩⟩
  | exit hentry =>
    cases his
    exact ⟨.inr ⟨rfl, hentry⟩, by decide, fun h => by cases h⟩
  | _ =>
    cases his
    exact ⟨.inl (by simp [Op.pops]), by decide, fun h => by cases h⟩

theorem Entries.length_eq {Φ : Nat → FunctionId → Prop} {lo : Nat} {vs : List Word}
    (h : Entries env Φ lo σ vs) : σ.length = vs.length := by
  induction h with
  | nil => rfl
  | value _ _ ih | callee _ _ _ ih => rw [List.length_cons, List.length_cons, ih]

/-! ## Frames of two machines -/

/-- The cells that the function can read are among those of `A`: its words on the stack, the three
words below its base, and the variables that have been written where it goes on. -/
structure Frame.Informed (X : Layout) (A : Nat → Prop) (F : Frame) : Prop where
  stack : ∀ a, F.lo ≤ a → a < F.sp → A a
  header : ∀ a, a < F.bp → F.bp ≤ a + 3 → A a
  /-- The cell below an empty stack, which counts as read when the program exits. -/
  ground : F.home.routine.isEntry → ∀ a, a + 1 = F.lo → A a
  vars : ∃ D, GuardedAt X.code X.env F.ip D ∧
    ∀ w, D w → ∀ a : Nat, (a : Int) = F.bp + w.toInt → A a

theorem Frame.Informed.mono {X : Layout} {A B : Nat → Prop} {F : Frame} (h : F.Informed X A)
    (hB : ∀ a, A a → B a) : F.Informed X B := by
  obtain ⟨D, hD, hvars⟩ := h.vars
  exact ⟨fun a hle hlt => hB a (h.stack a hle hlt), fun a hlt hle => hB a (h.header a hlt hle),
    fun hentry a ha => hB a (h.ground hentry a ha), D, hD, fun w hw a ha => hB a (hvars w hw a ha)⟩

section

variable {X : Layout} {p : Program} {lenient : Prop} {Φ : Nat → FunctionId → Prop} {m : Machine}
  {F : Frame} {L : List Frame} {A : Nat → Prop} {op : Op}

/-- The words that the next instruction needs are there. -/
theorem Inv.served (hX : X.Valid p lenient) (h : Inv X Φ m F L) (hop : m.nextOp? = some op) :
    X.code[m.ip]? = some op.word ∧ ∃ operands : List Operand,
      op.Served operands F.home.routine.isEntry F.vs.length ∧
        ∀ o, operands[0]? = some o → X.code[m.ip + 1]? = some (o.resolve X.env) := by
  obtain ⟨F', h', hhome, hbp, hcells, op', operands, rest, hb⟩ := h.skip
  have hip : m.ip = F'.ip := h'.shows.ip
  obtain ⟨hword, hoperands⟩ := h'.stands.words hX hb
  rw [← hip] at hword hoperands
  cases hop.symm.trans (h'.shows.nextOp? hword)
  have hserved := h'.stands.flow.served hb
  have hheight : F'.entries.length = F.vs.length := by
    have hsp : F'.lo + F'.vs.length = F.lo + F.vs.length := h'.shows.sp.symm.trans h.shows.sp
    have hlo : F'.lo = F.lo := Frame.lo_eq hbp hcells
    have := h'.stands.entries.length_eq
    omega
  rw [hhome, hheight] at hserved
  exact ⟨hword, operands, hserved, hoperands⟩

/-- The cells that the next instruction reads are among those of `A`. -/
theorem Inv.reads_informed (hX : X.Valid p lenient) (h : Inv X Φ m F L) (hF : F.Informed X A)
    (hop : m.nextOp? = some op) {a : Nat} (ha : op.reads m (m.cell (m.ip + 1)) a) : A a := by
  obtain ⟨hword, operands, hserved, hoperands⟩ := h.served hX hop
  have hsp : m.sp = F.lo + F.vs.length := h.shows.sp
  have hbp := h.bp_eq
  have hstack : F.lo ≤ a → a < m.sp → A a := fun hle hlt =>
    hF.stack a hle (Nat.lt_of_lt_of_eq hlt hsp)
  rcases ha with ⟨hlt, hle⟩ | ⟨hmem, ha⟩
  · rcases hserved.pops with hpops | ⟨rfl, hentry⟩
    · exact hstack (by omega) hlt
    · -- a `main` without a result leaves the stack empty
      rw [Op.pops] at hle
      by_cases hlo : F.lo ≤ a
      · exact hstack hlo hlt
      · exact hF.ground hentry a (by omega)
  · cases op with
    | peek =>
      obtain ⟨D, hD, hvars⟩ := hF.vars
      rw [← h.ip_eq] at hD
      obtain ⟨w, hw, hDw⟩ := hD.peek hword
      refine hvars w hDw a ?_
      rwa [← hbp, ← h.shows.words _ _ hw]
    | peekAt => exact absurd rfl hserved.elementless
    | call =>
      obtain ⟨n, rfl, hn⟩ := hserved.target rfl
      have hM := hX.memory
      have hbelow : F.lo + F.vs.length ≤ X.memory := h.shows.below
      have hn' : m.cell (m.ip + 1) = Word.ofNat n := h.shows.words _ _ (hoperands _ rfl)
      simp only [hn', Machine.toInt_ofNat (show n < 0x8000000000000000 by omega)] at ha
      exact hstack (by omega) (by omega)
    | ret | retValue => exact hF.header a (by omega) (by omega)
    | _ => exact ha.elim

/-! ## Steps -/

theorem Machine.behind_ip (m : Machine) (op : Op) : (m.behind op).ip = m.ip + (op.arity + 1) :=
  (Nat.add_assoc ..).trans (congrArg (m.ip + ·) (Nat.add_comm ..))

/-- A step that is not the last one is no exit. -/
theorem Machine.ne_exit_of_step (hop : m.nextOp? = some op) (hstep : Machine.step m = .ok none m') :
    op ≠ .exit := by
  rintro rfl
  rw [(Machine.step_of_nextOp? hop).2] at hstep
  cases hstep

/-- Wherever the code goes on, no more counts as written than before, but for the variable that is
written. -/
theorem GuardedAt.step {a b : Nat} {D : Word → Prop} {w : Word} (h : GuardedAt code env a D)
    (hop : code[a]? = some op.word) (hw : 1 ≤ op.arity → code[a + 1]? = some w)
    (hleave : op ≠ .ret ∧ op ≠ .retValue ∧ op ≠ .exit)
    (hnext : b = a + (op.arity + 1) ∧ op ≠ .jump ∨ op.isJump = true ∧ w.toIndex? = some b)
    (hsize : code.size < 0x8000000000000000) :
    ∃ E : Word → Prop, GuardedAt code env b E ∧ ∀ x, E x → D x ∨ op = .poke ∧ x = w := by
  rcases hnext with ⟨rfl, hjump⟩ | ⟨hjump, htarget⟩
  · by_cases hpoke : op = .poke
    · subst hpoke
      exact ⟨_, h.poke hop (hw (Nat.le_refl _)), fun x hx => hx.imp_right fun hx => ⟨rfl, hx⟩⟩
    · exact ⟨D, h.next hop hjump hleave hpoke, fun x hx => .inl hx⟩
  · obtain ⟨E, hE, hguarded⟩ := h.jump hop hjump
      (hw (Nat.le_of_eq (Op.arity_of_isJump hjump).symm)) htarget hsize
    exact ⟨E, hguarded, fun x hx => .inl (hE x hx)⟩

variable {m' : Machine} {F' : Frame} {L' : List Frame} {B : Nat → Prop}

/-- Where the running function goes on, it reads variables that are known. -/
theorem Inv.vars_step (hX : X.Valid p lenient) (h : Inv X Φ m F L) (hF : F.Informed X A)
    (hop : m.nextOp? = some op) (hlen : m.ip + op.arity < m.codeLen)
    (hends : op.Ends (m.cell (m.ip + 1)) A (m.behind op) m' B) (hcall : op ≠ .call)
    (hleave : op ≠ .ret ∧ op ≠ .retValue ∧ op ≠ .exit) :
    ∃ D, GuardedAt X.code X.env m'.ip D ∧
      ∀ w, D w → ∀ a : Nat, (a : Int) = F.bp + w.toInt → B a := by
  obtain ⟨hword, -⟩ := h.served hX hop
  obtain ⟨D, hD, hvars⟩ := hF.vars
  rw [← h.ip_eq] at hD
  have hknown : ∀ w, D w → ∀ a : Nat, (a : Int) = F.bp + w.toInt → B a :=
    fun w hw a ha => hends.keeps a (hvars w hw a ha)
  have hoperand : 1 ≤ op.arity → X.code[m.ip + 1]? = some (m.cell (m.ip + 1)) := by
    intro harity
    have hlt : m.ip + 1 < X.code.size := by
      rw [← h.shows.codeLen]
      omega
    rw [h.shows.words _ _ (Array.getElem?_eq_getElem hlt), Array.getElem?_eq_getElem hlt]
  have hM := hX.memory
  have hsize : X.code.size < 0x8000000000000000 := by
    have habove : X.code.size ≤ F.lo := h.shows.above
    have hbelow : F.lo + F.vs.length ≤ X.memory := h.shows.below
    omega
  have hnext := hends.next hcall hleave.1 hleave.2.1
  rw [Machine.behind_ip] at hnext
  obtain ⟨E, hE, hwritten⟩ := hD.step hword hoperand hleave hnext hsize
  refine ⟨E, hE, fun w hw a ha => ?_⟩
  rcases hwritten w hw with hw | ⟨rfl, rfl⟩
  · exact hknown w hw a ha
  · refine hends.poked rfl a ?_
    rwa [← h.bp_eq] at ha

namespace Frame.Informed

variable {S : Frame} {w : Word}

/-- A step within a function. -/
theorem within (hF : F.Informed X A) (hends : op.Ends w A (m.behind op) m' B)
    (hkind : (op ≠ .call ∧ op ≠ .ret ∧ op ≠ .retValue) ∧ op ≠ .alloc) (hsp : m.sp = F.sp)
    (hsp' : m'.sp = F'.sp) (hhome : F'.home = F.home) (hbp : F'.bp = F.bp)
    (hcells : F'.cells = F.cells)
    (hvars : ∃ D, GuardedAt X.code X.env F'.ip D ∧
      ∀ w, D w → ∀ a : Nat, (a : Int) = F.bp + w.toInt → B a) : F'.Informed X B := by
  have hlo : F'.lo = F.lo := Frame.lo_eq hbp hcells
  refine ⟨fun a hle hlt => ?_, ?_, ?_, by rwa [hbp]⟩
  · by_cases hold : a < m.sp
    · exact hends.keeps a (hF.stack a (hlo ▸ hle) (hsp ▸ hold))
    · exact hends.pushed hkind.2 hkind.1.2.1 hkind.1.2.2 a (Nat.le_of_not_lt hold) (hsp' ▸ hlt)
  · rw [hbp]
    exact fun a hlt hle => hends.keeps a (hF.header a hlt hle)
  · rw [hhome, hlo]
    exact fun hentry a ha => hends.keeps a (hF.ground hentry a ha)

/-- Reserved cells are not read before they have been written. -/
theorem reserve (hF : F.Informed X A) (hB : ∀ a, A a → B a) (hentry : ¬F'.home.routine.isEntry)
    (hbp : F'.bp = F.bp) (hvs : F'.vs = [])
    (hvars : ∃ D, GuardedAt X.code X.env F'.ip D ∧
      ∀ w, D w → ∀ a : Nat, (a : Int) = F.bp + w.toInt → B a) : F'.Informed X B := by
  refine ⟨fun a hle hlt => ?_, ?_, fun h => absurd h hentry, by rwa [hbp]⟩
  · rw [Frame.sp, hvs] at hlt
    exact absurd hlt (Nat.not_lt_of_le hle)
  · rw [hbp]
    exact fun a hlt hle => hB a (hF.header a hlt hle)

/-- The frame of a caller. -/
theorem caller (hF : F.Informed X A) (hB : ∀ a, A a → B a) (hsp : S.sp ≤ F.sp)
    (hhome : S.home = F.home) (hbp : S.bp = F.bp) (hcells : S.cells = F.cells)
    (hip : ∀ D, GuardedAt X.code X.env F.ip D → GuardedAt X.code X.env S.ip D) :
    S.Informed X B := by
  have hlo : S.lo = F.lo := Frame.lo_eq hbp hcells
  obtain ⟨D, hD, hvars⟩ := hF.vars
  refine ⟨fun a hle hlt => ?_, ?_, ?_, D, hip D hD, fun w hw => ?_⟩
  · exact hB a (hF.stack a (hlo ▸ hle) (Nat.lt_of_lt_of_le hlt hsp))
  · rw [hbp]
    exact fun a hlt hle => hB a (hF.header a hlt hle)
  · rw [hhome, hlo]
    exact fun hentry a ha => hB a (hF.ground hentry a ha)
  · rw [hbp]
    exact fun a ha => hB a (hvars w hw a ha)

/-- The frame of a function that has just been called: its parameters are words of the caller. -/
theorem callee {n : Nat} (hF : F.Informed X A) (hB : ∀ a, A a → B a)
    (hpushed : ∀ a, F.sp ≤ a → a < F.sp + 3 → B a) (hlo : F.lo + n ≤ F.sp)
    (hbase : F'.bp = F.sp + 3) (hnone : F'.cells = 0) (hvs : F'.vs = [])
    (hn : n < 0x4000000000000000)
    (hguarded : GuardedAt X.code X.env F'.ip fun w => ∃ i < n, w = Int64.ofInt (paramSlot i n)) :
    F'.Informed X B := by
  have hbp : F'.lo = F'.bp := by rw [Frame.lo, hnone, Nat.add_zero]
  refine ⟨fun a hle hlt => ?_, fun a hlt hle => hpushed a (by omega) (by omega),
    fun _ a ha => hpushed a (by omega) (by omega), _, hguarded, ?_⟩
  · rw [Frame.sp, hvs] at hlt
    exact absurd hlt (Nat.not_lt_of_le hle)
  · rintro w ⟨i, hi, rfl⟩ a ha
    rw [paramSlot, frameHeader, Int64.toInt_ofInt_of_le (by omega) (by omega)] at ha
    exact hB a (hF.stack a (by omega) (by omega))

/-- The frame that a return leads back to. -/
theorem back (hS : S.Informed X A) (hends : op.Ends w A (m.behind op) m' B) (hsp' : m'.sp = F'.sp)
    (hreturn : op = .ret ∧ m'.sp = S.sp ∨ op = .retValue ∧ m'.sp = S.sp + 1) (hip : F'.ip = S.ip)
    (hhome : F'.home = S.home) (hbp : F'.bp = S.bp) (hcells : F'.cells = S.cells) :
    F'.Informed X B := by
  have hlo : F'.lo = S.lo := Frame.lo_eq hbp hcells
  obtain ⟨D, hD, hvars⟩ := hS.vars
  refine ⟨fun a hle hlt => ?_, ?_, ?_, D, by rwa [hip], fun w hw => ?_⟩
  · by_cases hold : a < S.sp
    · exact hends.keeps a (hS.stack a (hlo ▸ hle) hold)
    · rcases hreturn with ⟨-, hret⟩ | ⟨hop, hret⟩
      · omega
      · exact hends.result hop a (by omega)
  · rw [hbp]
    exact fun a hlt hle => hends.keeps a (hS.header a hlt hle)
  · rw [hhome, hlo]
    exact fun hentry a ha => hends.keeps a (hS.ground hentry a ha)
  · rw [hbp]
    exact fun a ha => hends.keeps a (hvars w hw a ha)

end Frame.Informed

/-- The code of the functions reads written places only, if the parameters have been written. -/
def Layout.Guards (X : Layout) (p : Program) : Prop :=
  ∀ id f a, p.tree.functions[id]? = some f → X.env id = some a → GuardedAt X.code X.env a fun w =>
    ∃ i < f.params.length, w = Int64.ofInt (paramSlot i f.params.length)

/-- A step leaves the cells that the functions can read the same in both machines. -/
theorem Inv.informed_step (hX : X.Valid p lenient) (hG : X.Guards p) (h : Inv X Φ m F L)
    (hF : ∀ G ∈ F :: L, G.Informed X A) (hop : m.nextOp? = some op)
    (hlen : m.ip + op.arity < m.codeLen) (hstep : Machine.step m = .ok none m')
    (hends : op.Ends (m.cell (m.ip + 1)) A (m.behind op) m' B)
    (hshifts : Shifts X p m F L m' F' L') (h' : Inv X Φ m' F' L') :
    ∀ G ∈ F' :: L', G.Informed X B := by
  have hsame : ∀ {o : Op}, X.code[m.ip]? = some o.word → o = op := fun hword =>
    Option.some.inj ((h.shows.nextOp? hword).symm.trans hop)
  obtain ⟨hfirst, hrest⟩ := List.forall_mem_cons.mp hF
  have hL : ∀ G ∈ L, G.Informed X B := fun G hG => (hrest G hG).mono hends.keeps
  have hexit := Machine.ne_exit_of_step hop hstep
  have hsp := h.sp_eq
  have hsp' := h'.sp_eq
  have hip := h.ip_eq
  have hip' := h'.ip_eq
  -- no known cell is lost, so only the frames at the top of the stack are left to look at
  cases hshifts with
  | within hword hkind hhome hbp hcells hL' =>
    obtain rfl := hsame hword
    subst hL'
    have hvars := h.vars_step hX hfirst hop hlen hends hkind.1.1 ⟨hkind.1.2.1, hkind.1.2.2, hexit⟩
    rw [hip'] at hvars
    exact List.forall_mem_cons.mpr ⟨hfirst.within hends hkind hsp hsp' hhome hbp hcells hvars, hL⟩
  | reserve hword hentry hbp hvs hL' =>
    obtain rfl := hsame hword
    subst hL'
    have hvars := h.vars_step hX hfirst hop hlen hends (by decide) (by decide)
    rw [hip'] at hvars
    exact List.forall_mem_cons.mpr ⟨hfirst.reserve hends.keeps hentry hbp hvs hvars, hL⟩
  | @call S id f hword hf htarget hheight hbehind hhome hbp hcells hbase hnone hvs hL' =>
    obtain rfl := hsame hword
    subst hL'
    have hM := hX.memory
    have hbelow : F.sp ≤ X.memory := h.shows.below
    have hlo : F.lo ≤ S.sp := by
      rw [Frame.lo, ← hbp, ← hcells]
      exact Nat.le_add_right _ _
    have htop : m'.sp = m.sp + 3 := by
      rw [hsp', Frame.sp, Frame.lo, hvs, hnone, hbase]
      rfl
    -- the header is what the call pushes, and the arguments lie on the stack of the caller below it
    refine List.forall_mem_cons.mpr ⟨?_, List.forall_mem_cons.mpr ⟨?_, hL⟩⟩
    · refine hfirst.callee hends.keeps (fun a hle hlt => ?_) (by omega) (by omega) hnone hvs
        (by omega) (hG id f _ hf (hip' ▸ htarget))
      exact hends.pushed (by decide) (by decide) (by decide) a (by rw [← hsp] at hle; exact hle)
        (by omega)
    · refine hfirst.caller hends.keeps (by omega) hhome hbp hcells fun D hD => ?_
      rw [hbehind]
      rw [← hip] at hD
      exact hD.next hword (by decide) (by decide) (by decide)
  | back hword hreturn hback hhome hbp hcells hL' =>
    obtain rfl := hsame hword
    subst hL'
    exact List.forall_mem_cons.mpr ⟨(hrest _ List.mem_cons_self).back hends hsp' hreturn hback hhome
      hbp hcells, fun G hG => hL G (List.mem_cons_of_mem _ hG)⟩

end

/-! ## Runs -/

namespace Machine

/-- Two runs end in the same way, and have the same effect on the outside. -/
def Echoes (r r' : EStateM.Result Fault Machine Word) : Prop :=
  match r with
  | .ok status n => ∃ n', r' = .ok status n' ∧ n'.world = n.world
  | .error e n => ∃ n', r' = .error e n' ∧ n'.world = n.world

end Machine

section

variable {X : Layout} {p : Program}

/-- Machines that agree on the cells that the functions can read do the same. -/
theorem Inv.runWithin_echoes (hX : X.Valid p False) (hG : X.Guards p) (limit : Nat) :
    ∀ (n : Nat) {m m' : Machine} {F : Frame} {L : List Frame} {A : Nat → Prop},
      Inv X (fun _ _ => True) m F L → (∀ G ∈ F :: L, G.Informed X A) → Alike False A m m' →
        Machine.Echoes (Machine.runWithin limit n m) (Machine.runWithin limit n m')
  -- by induction on the steps that are left; the set `A` of known cells changes with every step
  | 0, _, m', _, _, _, _, _, halike => ⟨m', rfl, halike.world⟩
  | n + 1, m, m', F, L, A, h, hF, halike => by
    have hT := Tracks.trivial X m
    have hmirrors := Machine.step_mirrors
      (fun op hop a => h.reads_informed hX (hF F List.mem_cons_self) hop) m' halike
    rw [Machine.runWithin]
    cases hstep : Machine.step m with
    | error e m₁ =>
      rw [hstep] at hmirrors
      rw [Machine.bind_of_error hstep]
      rcases hmirrors with ⟨-, ⟨m₁', hstep', hworld⟩ | ⟨hwide, -⟩⟩
      · rw [Machine.bind_of_error hstep']
        exact ⟨m₁', rfl, hworld⟩
      · exact hwide.elim
    | ok r m₁ =>
      rw [hstep] at hmirrors
      obtain ⟨m₁', B, hstep', halike₁, op, hop, hlen, hends⟩ := hmirrors
      rw [Machine.bind_of_ok hstep, Machine.bind_of_ok hstep']
      cases r with
      | some status => exact ⟨m₁', rfl, halike₁.world⟩
      | none =>
        obtain ⟨F₁, L₁, hshifts, h₁⟩ := (h.step_shifts hX hT hstep).resolve_left not_false
        exact Inv.runWithin_echoes hX hG limit n h₁
          (h.informed_step hX hG hF hop hlen hstep hends hshifts h₁) halike₁

/-- At the beginning of a run all that can be read is the code. -/
theorem Placement.informed_first {R : Placement} (hstart : R.start = 0)
    (hguarded : GuardedAt X.code X.env 0 fun _ => False) :
    ∀ G ∈ [R.first X.code], G.Informed X (· < X.code.size) := by
  rw [List.forall_mem_singleton]
  refine ⟨fun a hle hlt => absurd hlt (Nat.not_lt_of_le hle), fun a hlt _ => hlt,
    fun _ a ha => Nat.lt_of_succ_le (Nat.le_of_eq ha), fun _ => False, ?_, fun _ h => h.elim⟩
  rwa [Frame.ip, Placement.first, hstart]

end

namespace Machine

variable {m : Machine}

/-- What happened to the outside between `m` and `n` is what happened between `m'` and `n'`: the
strings, the rest of the input and the random numbers are the same now, and the same was written. -/
structure SameEffect (m n m' n' : Machine) : Prop where
  strings : n'.strings = n.strings
  input : n'.input = n.input
  rng : n'.rng = n.rng
  output : ∃ text, n.output = m.output ++ text ∧ n'.output = m'.output ++ text

/-- The runs of both machines end with the same status or the same fault, and have the same
effect. -/
def RunsAlike (maxSteps : Option Nat) (m m' : Machine) : Prop :=
  match run maxSteps m with
  | .ok status n => ∃ n', run maxSteps m' = .ok status n' ∧ SameEffect m n m' n'
  | .error e n => ∃ n', run maxSteps m' = .error e n' ∧ SameEffect m n m' n'

/-- What was written before does not matter. -/
theorem runsAlike_of_echoes {maxSteps : Option Nat}
    (h : Echoes (run maxSteps m) (run maxSteps { m' with output := m.output })) :
    RunsAlike maxSteps m m' := by
  rw [RunsAlike]
  -- `h` is about a machine with the output of `m`, and from it to `m'` only the output changes
  cases hrun : run maxSteps m with
  | ok status n =>
    rw [hrun] at h
    obtain ⟨n₀, hrun₀, hworld⟩ := h
    obtain ⟨text, houtput, hrun'⟩ := (oblivious_run maxSteps).ok hrun₀ m'.output
    simp only [world, World.mk.injEq] at hworld
    exact ⟨_, hrun', hworld.1, hworld.2.1, hworld.2.2.2, text, hworld.2.2.1.symm.trans houtput, rfl⟩
  | error e n =>
    rw [hrun] at h
    obtain ⟨n₀, hrun₀, hworld⟩ := h
    obtain ⟨text, houtput, hrun'⟩ := (oblivious_run maxSteps).error hrun₀ m'.output
    simp only [world, World.mk.injEq] at hworld
    exact ⟨_, hrun', hworld.1, hworld.2.1, hworld.2.2.2, text, hworld.2.2.1.symm.trans houtput, rfl⟩

/-- Two machines with the same code, at the beginning of a run. -/
theorem Intact.alike_reset {cells : Nat} (hm : Intact code cells m.reset)
    (hm' : Intact code cells m'.reset) (hworld : m'.world = m.world) :
    Alike False (· < code.size) m.reset m'.reset := by
  have hlen : m.codeLen = code.size := hm.codeLen
  have hlen' : m'.codeLen = code.size := hm'.codeLen
  have hcell : ∀ a < code.size, m'.reset.cell a = m.reset.cell a := fun a ha => by
    have hword := Array.getElem?_eq_getElem ha
    rw [hm.cell hword, hm'.cell hword]
  have hsame : m'.codeLen = m.codeLen := hlen'.trans hlen.symm
  have hsize : m'.mem.size = m.mem.size := hm'.size.trans hm.size.symm
  exact ⟨hsame, rfl, hsame, hsame, hworld, Nat.le_of_eq hsize.symm, fun _ => hsize,
    fun a ha => hcell a (hlen ▸ ha), hcell⟩

/-- The code with any words behind it. -/
theorem intact_refilled (code cells : Array Word) (hlen : m.codeLen = code.size) :
    Intact code cells.size (({ m with mem := code ++ cells } : Machine).reset) where
  codeLen := hlen
  size := Array.size_append
  words i hi := Array.getElem?_append_left hi
  sp := ⟨Nat.le_of_eq hlen.symm, by simp [reset, hlen]⟩
  bp := ⟨Nat.le_of_eq hlen.symm, by simp [reset, hlen]⟩
  ip := Nat.zero_le _

end Machine

/-! ## Programs -/

open Machine (Intact Reused RunsAlike load)

/-- In a program that accesses no elements of arrays, declares its variables with values and returns
its results on all paths, runs do not depend on what is in the stack: they end with the same status
or the same fault, write the same, read the same input and leave the same strings.  So a machine
that has run before runs as one that is loaded with the strings, the input and the random numbers it
was left with.  The bound on the memory is that of one whose bytes have addresses. -/
theorem run_independent {source : String} {p : Program} {g : Generated}
    (hp : analyzeSource source = .ok p) (hg : compileSource source = .ok g)
    (helem : p.elementless = true) (hinit : p.initialized = true)
    (hret : p.returnsEverywhere = true) {config : MachineConfig}
    (hsize : g.code.size + config.stackCells < 0x1000000000000000) (maxSteps : Option Nat) :
    (∀ m m' : Machine, Intact g.code config.stackCells m.reset →
      Intact g.code config.stackCells m'.reset → m'.strings = m.strings → m'.input = m.input →
      m'.rng = m.rng → RunsAlike maxSteps m m') ∧
    ∀ strings input m, Reused g.code strings input config m →
      RunsAlike maxSteps m (load g.code m.strings m.input { config with seed := m.rng }) := by
  have hruns : ∀ m m' : Machine, Intact g.code config.stackCells m.reset →
      Intact g.code config.stackCells m'.reset → m'.strings = m.strings → m'.input = m.input →
      m'.rng = m.rng → RunsAlike maxSteps m m' := by
    intro m m' hm hm' hstrings hinput hrng
    obtain ⟨env, is, hall⟩ := assembled_of_compileSource hp hg
    obtain ⟨Δ, R, hΔ, hR, hstart, hentry, hparams, hflow⟩ := hall.routines
      (checked_of_analyzeSource hp) helem False fun v hv => by
        simpa [Program.returnsEverywhere, or_assoc] using List.all_eq_true.mp hret v hv
    let X : Layout := ⟨g.code, g.code.size + config.stackCells, env, Δ⟩
    have hX : X.Valid p False := ⟨hΔ, by simp only [X]; omega⟩
    have hguards : X.Guards p := fun id f a hf ha => hall.guardedAt_callee hp hinit hf ha
    refine Machine.runsAlike_of_echoes (Inv.runWithin_echoes hX hguards _ _
      (Inv.start hR hstart hentry hparams hflow hm.shows_reset)
      (Placement.informed_first hstart hall.guardedAt_start) ?_)
    refine hm.alike_reset { hm' with } ?_
    simp only [Machine.world, hstrings, hinput, hrng]
  refine ⟨hruns, fun strings input m hm => hruns m _ hm.intact.reset ?_ rfl rfl rfl⟩
  exact (Machine.intact_load g.code m.strings m.input { config with seed := m.rng }).reset

/-- A recursive program on two stacks with different words, and a second run of it. -/
theorem run_independent_recursion :
    ∃ source p g m m' status n, analyzeSource source = .ok p ∧ compileSource source = .ok g ∧
      p.elementless = true ∧ p.initialized = true ∧ p.returnsEverywhere = true ∧
      Intact g.code 60 m.reset ∧ Intact g.code 60 m'.reset ∧ m'.mem ≠ m.mem ∧
      Machine.run none m = .ok status n ∧ n.output = "6" ∧ RunsAlike none m m' ∧
      RunsAlike none n (load g.code n.strings n.input ⟨60, none, n.rng⟩) := by
  obtain ⟨source, hall⟩ : ∃ source, ((analyzeSource source).toOption.any fun p =>
      p.elementless && p.initialized && p.returnsEverywhere &&
        (compileSource source).toOption.any fun g => decide (g.code.size < 200) &&
          match Machine.run none (load g.code g.strings [] ⟨60, none, 0⟩) with
          | .ok _ n => decide (n.output = "6")
          | .error _ _ => false) = true := by
    refine ⟨"int f(int n) \x7b int r = 1; if (n > 0) \x7b r = n * f(n - 1); \x7d return r; \x7d " ++
      "int main() \x7b int a[2]; print(f(3)); return f(2); \x7d", ?_⟩
    decide +kernel
  simp only [any_toOption_iff, Bool.and_eq_true, decide_eq_true_eq] at hall
  obtain ⟨p, hp, ⟨⟨helem, hinit⟩, hret⟩, g, hg, hsize, hend⟩ := hall
  cases hrun : Machine.run none (load g.code g.strings [] ⟨60, none, 0⟩) with
  | error e n => simp [hrun] at hend
  | ok status n =>
    simp only [hrun, decide_eq_true_eq] at hend
    have hindep := @run_independent source p g hp hg helem hinit hret ⟨60, none, 0⟩
      (by simp only; omega) none
    have hm := (Machine.intact_load g.code g.strings [] ⟨60, none, 0⟩).reset
    have hm' : Intact g.code 60 (({ load g.code g.strings [] ⟨60, none, 0⟩ with
        mem := g.code ++ Array.replicate 60 7 } : Machine).reset) := by
      simpa using Machine.intact_refilled g.code (Array.replicate 60 7)
        (m := load g.code g.strings [] ⟨60, none, 0⟩) rfl
    refine ⟨source, p, g, _, _, status, n, hp, hg, helem, hinit, hret, hm, hm',
      fun hsame => ?_, hrun,
      hend, hindep.1 _ _ hm hm' rfl rfl rfl, hindep.2 g.strings [] n (.ended .load hrun)⟩
    -- the stacks differ in their first cells
    have hcell := congrArg (fun mem : Array Word => mem[g.code.size]?) hsame
    simp [load] at hcell

end StackLang
