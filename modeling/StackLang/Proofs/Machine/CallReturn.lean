import StackLang.Proofs.Machine.Saving
import StackLang.Proofs.Machine.Trace
import StackLang.Proofs.Machine.Watched

/-!
# Calls and their returns

A return takes its registers from three cells below the base, which are cells of the stack like any
others.  As long as nobody writes to the cells of a call that has not returned, the return of a call
leads back to behind the call, with the base that the caller had, however many calls lie between
them.

* `Machine.FirstReturn` — the return at which calls and returns are balanced.
* `Machine.Open` — a call that has not returned.
* `Machine.Undisturbed` — what open calls have saved stays as it is.
* `Machine.Open.base` — the base is that of the innermost open call.
* `returns_behind_call` — what holds behind the return of a call.
-/

namespace StackLang

namespace Machine

variable {m n : Machine} {c i j t : Nat}

/-! ## Levels -/

/-- A step is a call, a return, or leaves the level as it is. -/
theorem level_succ_cases (m : Machine) (t : Nat) :
    m.opAt t = some .call ∧ m.level (t + 1) = m.level t + 1 ∨
      (m.opAt t = some .ret ∨ m.opAt t = some .retValue) ∧ m.level (t + 1) = m.level t - 1 ∨
      (∀ op, m.opAt t = some op → op ≠ .call ∧ op ≠ .ret ∧ op ≠ .retValue) ∧
        m.level (t + 1) = m.level t := by
  by_cases hcall : m.opAt t = some .call
  · exact .inl ⟨hcall, level_succ_of_call hcall⟩
  by_cases hret : m.opAt t = some .ret ∨ m.opAt t = some .retValue
  · exact .inr (.inl ⟨hret, level_succ_of_ret hret⟩)
  have hother : ∀ op, m.opAt t = some op → op ≠ .call ∧ op ≠ .ret ∧ op ≠ .retValue := by
    intro op hop
    refine ⟨?_, ?_, ?_⟩
    · rintro rfl
      exact hcall hop
    · rintro rfl
      exact hret (.inl hop)
    · rintro rfl
      exact hret (.inr hop)
  refine .inr (.inr ⟨hother, ?_⟩)
  cases hop : m.opAt t with
  | none => rw [level, hop, Int.add_zero]
  | some op => exact level_succ_of_other hop (hother op hop)

/-- The return at step `j` is the first one behind the call at step `i` by which there have been as
many returns as calls, these two counted. -/
structure FirstReturn (m : Machine) (i j : Nat) : Prop where
  lt : i < j
  call : m.opAt i = some .call
  ret : m.opAt j = some .ret ∨ m.opAt j = some .retValue
  balanced : m.level (j + 1) = m.level i
  first : ∀ t, i < t → t < j → m.opAt t = some .ret ∨ m.opAt t = some .retValue →
    m.level (t + 1) ≠ m.level i

instance (m : Machine) (i j : Nat) : Decidable (m.FirstReturn i j) :=
  decidable_of_iff (i < j ∧ m.opAt i = some .call ∧
      (m.opAt j = some .ret ∨ m.opAt j = some .retValue) ∧ m.level (j + 1) = m.level i ∧
      ∀ t < j, i < t → m.opAt t = some .ret ∨ m.opAt t = some .retValue →
        m.level (t + 1) ≠ m.level i) <| by
    constructor
    · rintro ⟨hlt, hcall, hret, hbalanced, hfirst⟩
      exact ⟨hlt, hcall, hret, hbalanced, fun t hit htj => hfirst t htj hit⟩
    · intro h
      exact ⟨h.lt, h.call, h.ret, h.balanced, fun t htj hit => h.first t hit htj⟩

/-- Up to the first balanced return, the calls behind the call at step `i` are balanced. -/
theorem FirstReturn.above (h : m.FirstReturn i j) (hlt : i < t) (hle : t ≤ j) :
    m.level (i + 1) ≤ m.level t := by
  induction t with
  | zero => omega
  | succ t ih =>
    rcases Nat.lt_succ_iff_lt_or_eq.mp hlt with hit | rfl
    · have hcall := level_succ_of_call h.call
      have hlevel := ih hit (by omega)
      rcases level_succ_cases m t with ⟨-, hnext⟩ | ⟨hret, hnext⟩ | ⟨-, hnext⟩
      · omega
      · -- One return fewer than calls, or else this one would be the first that is balanced.
        have hne := h.first t hit (by omega) hret
        omega
      · omega
    · exact Int.le_refl _

theorem FirstReturn.matched (h : m.FirstReturn i j) : m.Matched i j where
  lt := h.lt
  call := h.call
  ret := h.ret
  level := by
    have hret := level_succ_of_ret h.ret
    have hcall := level_succ_of_call h.call
    have hbalanced := h.balanced
    omega
  above _ hlt hle := h.above hlt hle

/-! ## Open calls -/

/-- After `t` steps, the call at step `c` has not returned. -/
structure Open (m : Machine) (c t : Nat) : Prop where
  lt : c < t
  call : m.opAt c = some .call
  above : ∀ s, c < s → s ≤ t → m.level (c + 1) ≤ m.level s

instance (m : Machine) (c t : Nat) : Decidable (m.Open c t) :=
  decidable_of_iff (c < t ∧ m.opAt c = some .call ∧
      ∀ s < t + 1, c < s → m.level (c + 1) ≤ m.level s) <| by
    constructor
    · rintro ⟨hlt, hcall, habove⟩
      exact ⟨hlt, hcall, fun s hs hst => habove s (Nat.lt_succ_of_le hst) hs⟩
    · intro h
      exact ⟨h.lt, h.call, fun s hst hs => h.above s hs (Nat.le_of_lt_succ hst)⟩

theorem Matched.open (h : m.Matched i j) : m.Open i j :=
  ⟨h.lt, h.call, h.above⟩

theorem Open.of_le {s : Nat} (h : m.Open c t) (hlt : c < s) (hle : s ≤ t) : m.Open c s :=
  ⟨hlt, h.call, fun u hu hu' => h.above u hu (Nat.le_trans hu' hle)⟩

theorem Open.succ (h : m.Open c t) (hlevel : m.level (c + 1) ≤ m.level (t + 1)) :
    m.Open c (t + 1) := by
  refine ⟨Nat.lt_succ_of_lt h.lt, h.call, fun s hlt hle => ?_⟩
  rcases Nat.le_add_one_iff.mp hle with hle | rfl
  · exact h.above s hlt hle
  · exact hlevel

/-- A call within an open call that is open itself, and behind which no other is open. -/
theorem Open.exists_innermost (h : m.Open i t) :
    ∃ c, i ≤ c ∧ m.Open c t ∧ m.level (c + 1) = m.level t := by
  induction t using Nat.strongRecOn with
  | ind t ih =>
    rcases Nat.eq_or_lt_of_le (Nat.succ_le_of_lt h.lt) with rfl | hlt
    · exact ⟨i, Nat.le_refl i, h, rfl⟩
    obtain ⟨t, rfl⟩ : ∃ s, t = s + 1 := ⟨t - 1, by omega⟩
    have hopen : m.Open i t := h.of_le (by omega) (by omega)
    obtain ⟨c, hic, hc, hlevel⟩ := ih t (by omega) hopen
    rcases level_succ_cases m t with ⟨hcall, hnext⟩ | ⟨-, hnext⟩ | ⟨-, hnext⟩
    · refine ⟨t, by omega, ⟨by omega, hcall, fun s hs hs' => ?_⟩, rfl⟩
      obtain rfl : s = t + 1 := by omega
      exact Int.le_refl _
    · -- The innermost call has returned; the next one is that around it.
      have hcall := level_succ_of_call hc.call
      have hct := hc.lt
      have habove := h.above (t + 1) (by omega) (by omega)
      have hne : i ≠ c := by
        rintro rfl
        omega
      obtain ⟨c', hic', hc', hlevel'⟩ := ih c (by omega) (hopen.of_le (by omega) (by omega))
      have hcc := hc'.lt
      refine ⟨c', hic', ⟨by omega, hc'.call, fun s hs hs' => ?_⟩, by omega⟩
      rcases Nat.lt_or_ge c s with hcs | hsc
      · rcases Nat.le_add_one_iff.mp hs' with hs' | rfl
        · have := hc.above s hcs hs'
          omega
        · omega
      · exact hc'.above s hs hsc
    · exact ⟨c, hic, hc.succ (by omega), by omega⟩

/-! ## What open calls have saved -/

/-- The machines have the same words in the three cells below a base. -/
def SameBelow (base : Nat) (n n' : Machine) : Prop :=
  ∀ a < base, base ≤ a + 3 → n'.cell a = n.cell a

instance (base : Nat) (n n' : Machine) : Decidable (SameBelow base n n') :=
  inferInstanceAs (Decidable (∀ a < base, base ≤ a + 3 → n'.cell a = n.cell a))

/-- Step `t` does not change what the call at step `c` has saved below the base that it has set. -/
def KeepsSaved (m : Machine) (c t : Nat) : Prop :=
  ∀ m' ∈ m.after (c + 1), ∀ n ∈ m.after t, ∀ n' ∈ m.after (t + 1), SameBelow m'.bp n n'

instance (m : Machine) (c t : Nat) : Decidable (m.KeepsSaved c t) :=
  inferInstanceAs (Decidable (∀ m' ∈ m.after (c + 1), ∀ n ∈ m.after t, ∀ n' ∈ m.after (t + 1),
    SameBelow m'.bp n n'))

/-- No step between the steps `i` and `j` changes a cell that a call at step `i` or later has saved,
unless that call has returned by then. -/
def Undisturbed (m : Machine) (i j : Nat) : Prop :=
  ∀ c t, i ≤ c → c < t → t < j → m.Open c (t + 1) → m.KeepsSaved c t

instance (m : Machine) (i j : Nat) : Decidable (m.Undisturbed i j) :=
  decidable_of_iff (∀ t < j, ∀ c < t, i ≤ c → m.Open c (t + 1) → m.KeepsSaved c t)
    ⟨fun h c t hic hct htj => h t htj c hct hic, fun h t htj c hct hic => h c t hic hct htj⟩

theorem nextOp?_of_opAt {op : Op} (h : m.opAt t = some op) (hn : m.after t = some n) :
    n.nextOp? = some op := by
  rwa [opAt, hn, Option.bind_some] at h

/-- The state before a step that has been made. -/
theorem exists_after_of_lt {s : Nat} (h : m.after t = some n) (hlt : s < t) :
    ∃ n₁ n₂, m.after s = some n₁ ∧ step n₁ = .ok none n₂ ∧ m.after (s + 1) = some n₂ := by
  induction t generalizing n with
  | zero => omega
  | succ t ih =>
    obtain ⟨n', hn', hstep⟩ := step_of_after h
    rcases Nat.lt_succ_iff_lt_or_eq.mp hlt with hlt | rfl
    · exact ih hn' hlt
    · exact ⟨n', n, hn', hstep, h⟩

variable {mc n : Machine}

/-- What an open call has saved is still there. -/
theorem Open.saved (h : m.Open c t) (hkept : m.Undisturbed i j) (hic : i ≤ c) (htj : t ≤ j)
    (hc : m.after c = some mc) (hn : m.after t = some n) : Saved mc n := by
  obtain ⟨_, mc', hc', hcall, hafter⟩ := exists_after_of_lt hn h.lt
  cases hc.symm.trans hc'
  obtain ⟨-, hbp, hsaved⟩ := step_saves hcall (nextOp?_of_opAt h.call hc)
  induction t generalizing n with
  | zero => exact absurd h.lt (Nat.not_lt_zero c)
  | succ t ih =>
    rcases Nat.lt_succ_iff_lt_or_eq.mp h.lt with hct | rfl
    · obtain ⟨n', hn', -⟩ := step_of_after hn
      refine (ih (h.of_le hct (by omega)) (by omega) hn').congr fun a hle hlt => ?_
      exact hkept c t hic hct (by omega) h mc' hafter n' hn' n hn a (by omega) (by omega)
    · cases hafter.symm.trans hn
      exact hsaved

/-! ## Returns -/

section

variable {code : Array Word} {cells values : Nat} {n' : Machine}

/-- A number below 2^64 is read back from its word unless it is read as negative. -/
theorem eq_of_toInt_ofNat {k x : Nat} (hk : k < 0x10000000000000000)
    (hx : (x : Int) = (Word.ofNat k).toInt) : x = k := by
  have hbmod : (Word.ofNat k).toInt = (k : Int).bmod (2 ^ 64) := Int64.toInt_ofNat
  rw [hbmod, Int.bmod_def] at hx
  split at hx <;> omega

/-- A return whose base is that of a call restores what the call has saved. -/
theorem Restores.of_saved (h : Restores n n' values) (hbase : n.bp = mc.sp + 3)
    (hsaved : Saved mc n) (hmc : mc.Intact code cells) (hip : mc.ip + 2 ≤ mc.codeLen)
    (hsize : code.size + cells < 0x10000000000000000) :
    n'.ip = mc.ip + 2 ∧ n'.bp = mc.bp ∧
      (n'.sp : Int) = mc.sp - (mc.cell (mc.ip + 1)).toInt - 1 + values := by
  have hlen := hmc.codeLen
  have hmem := hmc.size
  have hbp := hmc.bp
  obtain ⟨cell, hcell, hlt, hsp⟩ := hsaved.sp
  obtain ⟨top, htop, hn'⟩ := h.sp
  have hcells : n.cell (n.bp - 3) = Word.ofNat (mc.ip + 2) ∧
      n.cell (n.bp - 2) = Word.ofNat mc.bp ∧ n.cell (n.bp - 1) = Word.ofNat cell := by
    rw [hbase]
    exact ⟨hsaved.ip, hsaved.bp, hsp⟩
  have hip' := h.ip
  have hbp' := h.bp
  rw [hcells.1] at hip'
  rw [hcells.2.1] at hbp'
  rw [hcells.2.2] at htop
  obtain rfl := eq_of_toInt_ofNat (by omega) htop
  refine ⟨eq_of_toInt_ofNat (by omega) hip', eq_of_toInt_ofNat (by omega) hbp', ?_⟩
  omega

/-- What holds behind a step that returns. -/
theorem restores_of_step (hstep : step n = .ok none n')
    (hop : n.nextOp? = some .ret ∨ n.nextOp? = some .retValue) :
    ∃ values, Restores n n' values := by
  rcases hop with hop | hop
  · exact ⟨0, step_ret_restores hstep hop⟩
  · exact ⟨1, (step_retValue_restores hstep hop).1⟩

/-- The base is that of the innermost call that has not returned. -/
theorem Open.base (h : m.Open c t) (hm : m.Intact code cells)
    (hsize : code.size + cells < 0x10000000000000000) (hkept : m.Undisturbed i j) (hic : i ≤ c)
    (htj : t ≤ j) (hlevel : m.level (c + 1) = m.level t) (hc : m.after c = some mc)
    (hn : m.after t = some n) : n.bp = mc.sp + 3 := by
  -- Over the steps, for all open calls at once: a return looks at the call that it returns from,
  -- and then at the one around it when that call was made.
  induction t using Nat.strongRecOn generalizing c mc n with
  | ind t ih =>
    obtain ⟨_, mc', hc', hcall, hafter⟩ := exists_after_of_lt hn h.lt
    cases hc.symm.trans hc'
    rcases Nat.eq_or_lt_of_le (Nat.succ_le_of_lt h.lt) with rfl | hlt
    · cases hafter.symm.trans hn
      exact (step_saves hcall (nextOp?_of_opAt h.call hc)).2.1
    obtain ⟨t, rfl⟩ : ∃ s, t = s + 1 := ⟨t - 1, by omega⟩
    have hopen : m.Open c t := h.of_le (by omega) (by omega)
    obtain ⟨n₁, hn₁, hstep⟩ := step_of_after hn
    rcases level_succ_cases m t with ⟨-, hnext⟩ | ⟨hret, hnext⟩ | ⟨hother, hnext⟩
    · -- A call would itself be the innermost one.
      have habove := hopen.above t (by omega) (by omega)
      omega
    · -- The return is that of the innermost call, from which the base is taken.
      obtain ⟨d, hcd, hd, hdlevel⟩ := hopen.exists_innermost
      have hdcall := level_succ_of_call hd.call
      have hne : c ≠ d := by
        rintro rfl
        omega
      obtain ⟨md, md', hmd, hcall', -⟩ := exists_after_of_lt hn₁ hd.lt
      have hbase := ih t (by omega) hd (by omega) (by omega) hdlevel hmd hn₁
      have hsaved := hd.saved hkept (by omega) (by omega) hmd hn₁
      have hip := (step_saves hcall' (nextOp?_of_opAt hd.call hmd)).1
      obtain ⟨values, hrestores⟩ := restores_of_step hstep
        (hret.imp (nextOp?_of_opAt · hn₁) (nextOp?_of_opAt · hn₁))
      rw [(hrestores.of_saved hbase hsaved (hm.after hmd) hip hsize).2.1]
      have hdt := hd.lt
      exact ih d (by omega) (hopen.of_le (by omega) (by omega)) hic (by omega) (by omega) hc hmd
    · obtain ⟨op, -, hop, -⟩ := step_ends hstep
      obtain ⟨hcall, hret, hretValue⟩ := hother op (by rw [opAt, hn₁, Option.bind_some, hop])
      rw [step_keeps_base hstep hop hcall hret hretValue]
      exact ih t (by omega) hopen hic (by omega) (by omega) hc hn₁

/-- What holds behind the return of a call, on any machine that is intact. -/
theorem Matched.restores (h : m.Matched i j) (hm : m.Intact code cells)
    (hsize : code.size + cells < 0x10000000000000000) (hkept : m.Undisturbed i j)
    (hi : m.after i = some mc) (hj : m.after j = some n) (hrestores : Restores n n' values) :
    n'.ip = mc.ip + 2 ∧ n'.bp = mc.bp ∧
      (n'.sp : Int) = mc.sp - (mc.cell (mc.ip + 1)).toInt - 1 + values := by
  obtain ⟨_, mc', hi', hcall, -⟩ := exists_after_of_lt hj h.lt
  cases hi.symm.trans hi'
  have hbase := h.open.base hm hsize hkept (Nat.le_refl i) (Nat.le_refl j) h.level.symm hi hj
  have hsaved := h.open.saved hkept (Nat.le_refl i) (Nat.le_refl j) hi hj
  have hip := (step_saves hcall (nextOp?_of_opAt h.call hi)).1
  exact hrestores.of_saved hbase hsaved (hm.after hi) hip hsize

end

end Machine

/-- In any run of any code, the return of a call leads back behind the call, with the base of the
caller, and takes the arguments and the address of the function off the stack; a value that is
returned is put there instead.  Nothing may have written to what the calls between them, or the call
itself, have saved, as long as they had not returned. -/
theorem returns_behind_call {code : Array Word} {strings : StringPool} {input : Bytes}
    {config : MachineConfig} {start : Machine} (hstart : start.Reused code strings input config)
    (hsize : code.size + config.stackCells < 0x10000000000000000) {i j : Nat}
    (hreturn : start.reset.FirstReturn i j) (hkept : start.reset.Undisturbed i j)
    {m n m' : Machine} (hm : start.reset.after i = some m) (hn : start.reset.after j = some n)
    (hm' : start.reset.after (j + 1) = some m') :
    m'.ip = m.ip + 2 ∧ m'.bp = m.bp ∧
      (start.reset.opAt j = some .ret →
        (m'.sp : Int) = m.sp - (m.cell (m.ip + 1)).toInt - 1) ∧
      (start.reset.opAt j = some .retValue →
        (m'.sp : Int) = m.sp - (m.cell (m.ip + 1)).toInt ∧
          m'.cell (m'.sp - 1) = n.cell (n.sp - 1)) := by
  have hintact := hstart.intact.reset
  obtain ⟨_, hn', hstep⟩ := Machine.step_of_after hm'
  cases hn.symm.trans hn'
  have hrestored : ∀ values, Machine.Restores n m' values → _ :=
    fun _ => hreturn.matched.restores hintact hsize hkept hm hn
  rcases hreturn.ret with hop | hop
  · have hrestores := Machine.step_ret_restores hstep (Machine.nextOp?_of_opAt hop hn)
    obtain ⟨hip, hbp, hsp⟩ := hrestored 0 hrestores
    refine ⟨hip, hbp, fun _ => by omega, fun hop' => ?_⟩
    cases hop.symm.trans hop'
  · obtain ⟨hrestores, htop⟩ :=
      Machine.step_retValue_restores hstep (Machine.nextOp?_of_opAt hop hn)
    obtain ⟨hip, hbp, hsp⟩ := hrestored 1 hrestores
    refine ⟨hip, hbp, fun hop' => ?_, fun _ => ⟨by omega, htop⟩⟩
    cases hop.symm.trans hop'

/-- A function calls another one with its argument, which that one returns, and returns the result
itself: six steps lie between the outer call and its return. -/
theorem returns_behind_call_nested :
    let code : Array Word := #[Op.push.word, 7, Op.push.word, 5, Op.call.word, 1, Op.exit.word,
      Op.push.word, 14, Op.peek.word, -4, Op.call.word, 1, Op.retValue.word,
      Op.peek.word, -4, Op.retValue.word]
    let start := Machine.load code .empty [] ⟨16, none, 0⟩
    start.reset.FirstReturn 2 8 ∧ start.reset.Undisturbed 2 8 ∧
      ∃ m n m', start.reset.after 2 = some m ∧ start.reset.after 8 = some n ∧
        start.reset.after 9 = some m' ∧ m'.ip = m.ip + 2 ∧ m'.bp = m.bp ∧
        (m'.sp : Int) = m.sp - (m.cell (m.ip + 1)).toInt ∧
        m'.cell (m'.sp - 1) = n.cell (n.sp - 1) := by
  intro code start
  have hreturn : start.reset.FirstReturn 2 8 := by decide +kernel
  have hkept : start.reset.Undisturbed 2 8 := by decide +kernel
  have hop : start.reset.opAt 8 = some .retValue := by decide +kernel
  obtain ⟨m, hm⟩ : ∃ m, start.reset.after 2 = some m :=
    Option.isSome_iff_exists.mp (by decide +kernel)
  obtain ⟨n, hn⟩ : ∃ n, start.reset.after 8 = some n :=
    Option.isSome_iff_exists.mp (by decide +kernel)
  obtain ⟨m', hm'⟩ : ∃ m', start.reset.after 9 = some m' :=
    Option.isSome_iff_exists.mp (by decide +kernel)
  obtain ⟨hip, hbp, -, hvalue⟩ := returns_behind_call .load (by decide) hreturn hkept hm hn hm'
  exact ⟨hreturn, hkept, m, n, m', hm, hn, hm', hip, hbp, hvalue hop⟩

end StackLang
