import StackLang.Proofs.Machine.Alike
import StackLang.Proofs.Machine.Pieces

/-!
# What calls save and returns restore

Whatever code is executed, the base changes in three ways only: a call puts it behind the three
words that it saves, and the two returns set it to one of the three words below it.

* `Machine.step_keeps_base` — all other operations leave the base alone.
* `Machine.Saved` — the words that a call has saved are still there.
* `Machine.step_saves` — what a call saves.
* `Machine.Restores` — what a return restores.
* `Machine.step_ret_restores`, `Machine.step_retValue_restores` — so both returns do.
-/

namespace StackLang.Machine

variable {α β : Type} {m m' : Machine} {op : Op} {w : Word}

/-! ## Pieces of execution that succeed -/

/-- If two pieces of execution succeed, the first does. -/
theorem exists_of_bind_eq_ok {x : Exec α} {f : α → Exec β} {b : β} (h : (x >>= f) m = .ok b m') :
    ∃ a n, x m = .ok a n ∧ f a n = .ok b m' := by
  cases hx : x m with
  | error e n =>
    rw [bind_of_error hx] at h
    cases h
  | ok a n =>
    rw [bind_of_ok hx] at h
    exact ⟨a, n, rfl, h⟩

/-- Execution that fails unless a condition holds. -/
theorem of_ite_eq_ok {c : Prop} [Decidable c] {r : EStateM.Result Fault Machine α} {e : Fault}
    {n : Machine} {a : α} (h : (if c then r else .error e n) = .ok a m') : c ∧ r = .ok a m' := by
  by_cases hc : c
  · exact ⟨hc, (if_pos hc).symm.trans h⟩
  · rw [if_neg hc] at h
    cases h

/-- The machine with one more word on its stack. -/
def pushed (m : Machine) (w : Word) : Machine :=
  m.withStack (m.mem.setIfInBounds m.sp w) (m.sp + 1)

@[simp] theorem pushed_sp (m : Machine) (w : Word) : (m.pushed w).sp = m.sp + 1 := rfl

theorem cell_pushed (h : m.sp < m.mem.size) (w : Word) (a : Nat) :
    (m.pushed w).cell a = if m.sp = a then w else m.cell a :=
  cell_setIfInBounds rfl h

theorem cell_congr (h : m'.mem = m.mem) (a : Nat) : m'.cell a = m.cell a := by
  rw [cell, cell, h]

theorem pop_of_lt (h : m.codeLen < m.sp) :
    pop m = .ok (m.cell (m.sp - 1)) { m with sp := m.sp - 1 } :=
  if_pos h

theorem of_push_eq_ok (h : push w m = .ok () m') : m.sp < m.mem.size ∧ m' = m.pushed w := by
  obtain ⟨hlt, hrun⟩ := of_ite_eq_ok h
  cases hrun
  exact ⟨hlt, rfl⟩

theorem of_push_bind {f : Unit → Exec β} {b : β} (h : (push w >>= f) m = .ok b m') :
    m.sp < m.mem.size ∧ f () (m.pushed w) = .ok b m' := by
  obtain ⟨_, n, hpush, hf⟩ := exists_of_bind_eq_ok h
  obtain ⟨hlt, rfl⟩ := of_push_eq_ok hpush
  exact ⟨hlt, hf⟩

theorem of_stackAddress_eq_ok {x : Int} {a : Nat} (h : stackAddress x m = .ok a m') :
    (a : Int) = x ∧ a < m.mem.size ∧ m' = m := by
  obtain ⟨hin, hrun⟩ := of_ite_eq_ok h
  rw [inStack_iff] at hin
  cases hrun
  exact ⟨by omega, by omega, rfl⟩

theorem exists_of_frameAddress_bind {f : Nat → Exec β} {b : β}
    (h : (frameAddress w >>= f) m = .ok b m') :
    ∃ a : Nat, (a : Int) = m.bp + w.toInt ∧ f a m = .ok b m' := by
  obtain ⟨a, n, haddress, hf⟩ := exists_of_bind_eq_ok h
  obtain ⟨-, hrun⟩ := of_ite_eq_ok haddress
  obtain ⟨ha, -, hn⟩ := of_stackAddress_eq_ok hrun
  exact ⟨a, ha, hn ▸ hf⟩

theorem exists_of_targetCell_bind {f : Nat → Exec β} {b : β}
    (h : (targetCell w >>= f) m = .ok b m') :
    ∃ a : Nat, (a : Int) = m.sp - (w.toInt + 1) ∧ a < m.mem.size ∧ f a m = .ok b m' := by
  obtain ⟨a, n, htarget, hf⟩ := exists_of_bind_eq_ok h
  obtain ⟨-, hrun⟩ := of_ite_eq_ok htarget
  obtain ⟨ha, hlt, hn⟩ := of_stackAddress_eq_ok hrun
  exact ⟨a, ha, hlt, hn ▸ hf⟩

theorem of_jump_eq_ok (h : jump w m = .ok () m') :
    (m'.ip : Int) = w.toInt ∧ m'.sp = m.sp ∧ m'.bp = m.bp ∧ m'.mem = m.mem := by
  unfold jump at h
  split at h
  · rename_i t ht
    obtain ⟨-, hrun⟩ := of_ite_eq_ok h
    cases hrun
    exact ⟨(Word.toIndex?_eq_some_iff.mp ht).symm, rfl, rfl, rfl⟩
  · cases h

theorem of_setSp_eq_ok (h : setSp w m = .ok () m') :
    (m'.sp : Int) = w.toInt ∧ m'.bp = m.bp ∧ m'.mem = m.mem := by
  obtain ⟨hin, hrun⟩ := of_ite_eq_ok h
  rw [inStack_iff] at hin
  cases hrun
  exact ⟨by simp only; omega, rfl, rfl⟩

theorem of_setBp_eq_ok (h : setBp w m = .ok () m') :
    (m'.bp : Int) = w.toInt ∧ m'.sp = m.sp ∧ m'.mem = m.mem := by
  obtain ⟨hin, hrun⟩ := of_ite_eq_ok h
  cases hrun
  exact ⟨by simp only; omega, rfl, rfl⟩

/-! ## The base -/

/-- The piece of execution does not change the base. -/
def KeepsBase (x : Exec α) : Prop :=
  ∀ m a m', x m = .ok a m' → m'.bp = m.bp

namespace KeepsBase

theorem bind {x : Exec α} {f : α → Exec β} (hx : KeepsBase x) (hf : ∀ a, KeepsBase (f a)) :
    KeepsBase (x >>= f) := by
  intro m b m' h
  obtain ⟨a, n, hx', hf'⟩ := exists_of_bind_eq_ok h
  exact (hf a n b m' hf').trans (hx m a n hx')

theorem pure (a : α) : KeepsBase (pure a : Exec α) := by
  intro m b m' h
  cases h
  rfl

theorem throw (e : Fault) : KeepsBase (throw e : Exec α) := by
  intro m b m' h
  cases h

/-- Execution that fails at once unless a condition holds. -/
theorem guarded {x y : Exec α} {c : Machine → Prop} [DecidablePred c] {e : Machine → Fault}
    (hx : ∀ m, x m = if c m then y m else .error (e m) m) (hy : KeepsBase y) : KeepsBase x := by
  intro m a m' h
  rw [hx] at h
  exact hy m a m' (of_ite_eq_ok h).2

/-- Execution that never fails. -/
theorem of_eq {x : Exec α} {a : Machine → α} {n : Machine → Machine}
    (hx : ∀ m, x m = .ok (a m) (n m)) (hn : ∀ m, (n m).bp = m.bp) : KeepsBase x := by
  intro m b m' h
  rw [hx] at h
  cases h
  exact hn m

theorem push (w : Word) : KeepsBase (push w) :=
  guarded (fun _ => rfl) (of_eq (fun _ => rfl) fun _ => rfl)

theorem pop : KeepsBase pop :=
  guarded (fun _ => rfl) (of_eq (fun _ => rfl) fun _ => rfl)

theorem fetch : KeepsBase fetch :=
  guarded (fun _ => rfl) (of_eq (fun _ => rfl) fun _ => rfl)

theorem readCell (a : Nat) : KeepsBase (readCell a) :=
  of_eq (fun _ => rfl) fun _ => rfl

theorem writeCell (a : Nat) (w : Word) : KeepsBase (writeCell a w) :=
  of_eq (fun _ => rfl) fun _ => rfl

theorem frameAddress (w : Word) : KeepsBase (frameAddress w) := by
  intro m a m' h
  rw [(of_stackAddress_eq_ok (of_ite_eq_ok h).2).2.2]

theorem alloc (w : Word) : KeepsBase (alloc w) := by
  intro m a m' h
  obtain ⟨-, h⟩ := of_ite_eq_ok h
  obtain ⟨-, h⟩ := of_ite_eq_ok h
  cases h
  rfl

theorem jump (w : Word) : KeepsBase (jump w) := by
  intro m a m' h
  exact (of_jump_eq_ok h).2.2.1

theorem write (s : String) : KeepsBase (write s) :=
  of_eq (fun _ => rfl) fun _ => rfl

theorem random (w : Word) : KeepsBase (random w) :=
  of_eq (fun _ => rfl) fun _ => rfl

theorem stringOf (here : Nat) (w : Word) : KeepsBase (stringOf here w) := by
  intro m a m' h
  unfold Machine.stringOf at h
  split at h
  · cases h
    rfl
  · cases h

theorem readLine : KeepsBase readLine := by
  intro m a m' h
  unfold Machine.readLine at h
  by_cases hline : (takeLine m.input).1.isEmpty = true
  · simp only [if_pos hline] at h
    cases h
  · simp only [if_neg hline] at h
    cases hs : Text.ofUtf8? (takeLine m.input).1 with
    | none =>
      rw [hs] at h
      cases h
    | some s =>
      rw [hs] at h
      cases h
      rfl

theorem readString : KeepsBase readString :=
  readLine.bind fun _ => of_eq (fun _ => rfl) fun _ => rfl

theorem pieces : Pieces fun _ x => KeepsBase x where
  bind := bind
  pure := pure
  throw := throw
  push := push
  pop := pop
  fetch := fetch
  readCell := readCell
  writeCell := writeCell
  frameAddress := frameAddress
  alloc := alloc
  jump := jump
  write := write
  random := random
  stringOf := stringOf
  readLine := readLine
  readString := readString

end KeepsBase

/-- A step that goes on has executed an operation. -/
theorem execute_of_step (h : step m = .ok none m') (hop : m.nextOp? = some op) :
    execute m.ip op { m with ip := m.ip + 1 } = .ok () m' := by
  rw [(step_of_nextOp? hop).2] at h
  obtain ⟨_, n, hexecute, hconclude⟩ := exists_of_bind_eq_ok h
  by_cases hexit : op = .exit
  · have hstatus : conclude op n = .ok (some n.status) n := congrFun (if_pos hexit) n
    cases hstatus.symm.trans hconclude
  · have hnone : conclude op n = .ok none n := congrFun (if_neg hexit) n
    cases hnone.symm.trans hconclude
    exact hexecute

/-- The operation was performed behind the words of the instruction. -/
theorem perform_of_step (h : step m = .ok none m') (hop : m.nextOp? = some op) :
    m.ip + op.arity < m.codeLen ∧
      perform m.ip op (m.cell (m.ip + 1)) (m.behind op) = .ok () m' := by
  have hexecute := execute_of_step h hop
  have hlt := (step_of_nextOp? hop).1
  rcases op.arity_eq_zero_or_one with harity | harity
  · rw [execute_of_arity_zero harity m.ip (m.cell (m.ip + 1))] at hexecute
    rw [behind, harity]
    exact ⟨hlt, hexecute⟩
  · rw [execute_of_arity_one harity] at hexecute
    obtain ⟨_, _, hfetch, hperform⟩ := exists_of_bind_eq_ok hexecute
    obtain ⟨hlt', hrun⟩ := of_ite_eq_ok hfetch
    cases hrun
    rw [behind, harity]
    exact ⟨hlt', hperform⟩

/-- Only calls and returns change the base. -/
theorem step_keeps_base (h : step m = .ok none m') (hop : m.nextOp? = some op)
    (hcall : op ≠ .call) (hret : op ≠ .ret) (hretValue : op ≠ .retValue) : m'.bp = m.bp := by
  have hkeeps : KeepsBase (execute m.ip op) := by
    refine KeepsBase.pieces.execute m.ip op (fun h => absurd h hcall) fun h => ?_
    rcases h with h | h
    · exact absurd h hret
    · exact absurd h hretValue
  exact hkeeps { m with ip := m.ip + 1 } () m' (execute_of_step h hop)

/-! ## Calls -/

/-- The cells of `m'` hold what a call from `m` saves: where to go on, the base, and the address of
the cell below the arguments. -/
structure Saved (m m' : Machine) : Prop where
  ip : m'.cell m.sp = Word.ofNat (m.ip + 2)
  bp : m'.cell (m.sp + 1) = Word.ofNat m.bp
  sp : ∃ cell : Nat, (cell : Int) = m.sp - (m.cell (m.ip + 1)).toInt - 1 ∧ cell < m.mem.size ∧
    m'.cell (m.sp + 2) = Word.ofNat cell

theorem Saved.congr {n : Machine} (h : Saved m m')
    (hcells : ∀ a, m.sp ≤ a → a < m.sp + 3 → n.cell a = m'.cell a) : Saved m n := by
  obtain ⟨cell, hcell, hlt, hsp⟩ := h.sp
  refine ⟨?_, ?_, cell, hcell, hlt, ?_⟩
  · rw [hcells _ (by omega) (by omega), h.ip]
  · rw [hcells _ (by omega) (by omega), h.bp]
  · rw [hcells _ (by omega) (by omega), hsp]

/-- What is on the stack when a call goes on at the function. -/
theorem of_call_eq_ok (h : call w m = .ok () m') :
    m'.bp = m.sp + 3 ∧ m'.cell m.sp = Word.ofNat m.ip ∧ m'.cell (m.sp + 1) = Word.ofNat m.bp ∧
      ∃ cell : Nat, (cell : Int) = m.sp - w.toInt - 1 ∧ cell < m.mem.size ∧
        m'.cell (m.sp + 2) = Word.ofNat cell := by
  obtain ⟨cell, hcell, hcelllt, hread⟩ := exists_of_targetCell_bind h
  have hsaves : (push (Word.ofNat m.ip) >>= fun _ => getBp >>= fun bp => push (Word.ofNat bp) >>=
      fun _ => push (Word.ofNat cell) >>= fun _ => enterFrame >>= fun _ => jump (m.cell cell)) m =
        .ok () m' := hread
  obtain ⟨hlt, hget⟩ := of_push_bind hsaves
  obtain ⟨hlt', hpush⟩ := of_push_bind (w := Word.ofNat m.bp) hget
  obtain ⟨hlt'', henter⟩ := of_push_bind hpush
  obtain ⟨-, -, hbp, hmem⟩ := of_jump_eq_ok (w := m.cell cell) henter
  -- Each of the three words is found below those that are pushed behind it.
  have hcells : ∀ a, m'.cell a = if m.sp + 2 = a then Word.ofNat cell else
      if m.sp + 1 = a then Word.ofNat m.bp else if m.sp = a then Word.ofNat m.ip else m.cell a := by
    intro a
    rw [cell_congr (m := (((m.pushed _).pushed _).pushed _)) hmem, cell_pushed hlt'',
      cell_pushed hlt', cell_pushed hlt]
    rfl
  refine ⟨hbp, ?_, ?_, cell, by omega, hcelllt, ?_⟩
  · rw [hcells, if_neg (by omega), if_neg (by omega), if_pos rfl]
  · rw [hcells, if_neg (by omega), if_pos rfl]
  · rw [hcells, if_pos rfl]

/-- A call saves three words on top of the stack, and the base is put behind them. -/
theorem step_saves (h : step m = .ok none m') (hop : m.nextOp? = some .call) :
    m.ip + 2 ≤ m.codeLen ∧ m'.bp = m.sp + 3 ∧ Saved m m' := by
  obtain ⟨hlen, hcall⟩ := perform_of_step h hop
  obtain ⟨hbp, hip, hsaved, hsp⟩ := of_call_eq_ok hcall
  exact ⟨hlen, hbp, hip, hsaved, hsp⟩

/-! ## Returns -/

/-- The registers of `m'` are those that a return from `m` finds below its base.  A value that is
returned is on top of the stack. -/
structure Restores (m m' : Machine) (values : Nat) : Prop where
  base : 3 ≤ m.bp
  ip : (m'.ip : Int) = (m.cell (m.bp - 3)).toInt
  bp : (m'.bp : Int) = (m.cell (m.bp - 2)).toInt
  sp : ∃ top : Nat, (top : Int) = (m.cell (m.bp - 1)).toInt ∧ m'.sp = top + values

theorem of_ret_eq_ok (h : ret m = .ok () m') : Restores m m' 0 ∧ m'.mem = m.mem := by
  obtain ⟨a, ha, hbelow⟩ := exists_of_frameAddress_bind h
  obtain ⟨b, hb, htop⟩ := exists_of_frameAddress_bind (w := -2) hbelow
  obtain ⟨c, hc, hset⟩ := exists_of_frameAddress_bind (w := -1) htop
  obtain ⟨_, n, hsetSp, hrest⟩ := exists_of_bind_eq_ok (x := setSp (m.cell c)) hset
  obtain ⟨_, n', hsetBp, hjump⟩ := exists_of_bind_eq_ok hrest
  obtain ⟨hsp, -, hmem⟩ := of_setSp_eq_ok hsetSp
  obtain ⟨hbp, hsp', hmem'⟩ := of_setBp_eq_ok hsetBp
  obtain ⟨hip, hsp'', hbp', hmem''⟩ := of_jump_eq_ok hjump
  have hthree : (-3 : Word).toInt = -3 := by decide
  have htwo : (-2 : Word).toInt = -2 := by decide
  have hone : (-1 : Word).toInt = -1 := by decide
  obtain rfl : a = m.bp - 3 := by omega
  obtain rfl : b = m.bp - 2 := by omega
  obtain rfl : c = m.bp - 1 := by omega
  refine ⟨⟨by omega, hip, by rw [hbp', hbp], n.sp, hsp, ?_⟩, hmem''.trans (hmem'.trans hmem)⟩
  rw [hsp'', hsp', Nat.add_zero]

/-- A return without a value. -/
theorem step_ret_restores (h : step m = .ok none m') (hop : m.nextOp? = some .ret) :
    Restores m m' 0 := by
  obtain ⟨⟨hbase, hip, hbp, hsp⟩, -⟩ := of_ret_eq_ok (execute_of_step h hop)
  exact ⟨hbase, hip, hbp, hsp⟩

/-- A return with a value. -/
theorem step_retValue_restores (h : step m = .ok none m') (hop : m.nextOp? = some .retValue) :
    Restores m m' 1 ∧ m'.cell (m'.sp - 1) = m.cell (m.sp - 1) := by
  obtain ⟨_, n, hpop, hrest⟩ := exists_of_bind_eq_ok (execute_of_step h hop)
  obtain ⟨-, hrun⟩ := of_ite_eq_ok hpop
  cases hrun
  obtain ⟨_, n', hret, hpush⟩ := exists_of_bind_eq_ok hrest
  obtain ⟨⟨hbase, hip, hbp, top, htop, hsp⟩, -⟩ := of_ret_eq_ok hret
  obtain ⟨hlt, rfl⟩ := of_push_eq_ok hpush
  -- The value was taken off before the return and is pushed on the stack of the caller.
  refine ⟨⟨hbase, hip, hbp, top, htop, ?_⟩, ?_⟩
  · rw [pushed_sp, hsp]
  · rw [pushed_sp, Nat.add_sub_cancel, cell_pushed hlt, if_pos rfl]
    rfl

end StackLang.Machine
