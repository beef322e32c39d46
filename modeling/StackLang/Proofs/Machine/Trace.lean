import StackLang.Machine.Run
import StackLang.Proofs.Machine.View

/-!
# Traces

The states that a run comes through, one for each number of steps, and which return belongs to which
call: calls and returns are like brackets.

* `Machine.after` — the machine after some steps.
* `Machine.Matched` — the return that a call is followed by.
* `Machine.Entered` — the state behind a call, by the number of calls before it.
* `Machine.runWithin_of_after` — a run from a later state.
-/

namespace StackLang.Machine

/-- The machine after some steps, if the run has not ended before. -/
def after (m : Machine) : Nat → Option Machine
  | 0 => some m
  | n + 1 => (m.after n).bind fun m' =>
    match step m' with
    | .ok none m'' => some m''
    | _ => none

variable {m m' m'' : Machine} {n : Nat}

theorem after_succ (h : m.after n = some m') (hstep : step m' = .ok none m'') :
    m.after (n + 1) = some m'' := by
  rw [after, h, Option.bind_some, hstep]

theorem step_of_after (h : m.after (n + 1) = some m'') :
    ∃ m', m.after n = some m' ∧ step m' = .ok none m'' := by
  rw [after, Option.bind_eq_some_iff] at h
  obtain ⟨m', hm', h⟩ := h
  refine ⟨m', hm', ?_⟩
  split at h
  · rename_i hstep
    cases h
    exact hstep
  · cases h

/-- A run goes on from the state that it has come to. -/
theorem runWithin_of_after (h : m.after n = some m') (limit k : Nat) :
    runWithin limit (n + k) m = runWithin limit k m' := by
  induction n generalizing m' k with
  | zero =>
    cases h
    rw [Nat.zero_add]
  | succ n ih =>
    obtain ⟨m₁, h₁, hstep⟩ := step_of_after h
    rw [Nat.add_assoc, Nat.add_comm 1, ih h₁ (k + 1), runWithin, bind_of_ok hstep]

/-- A run that fails does so at the limit or in one of its steps. -/
theorem exists_step_of_runWithin_error {m₀ : Machine} {limit k : Nat} {e : Fault}
    (hafter : m₀.after k = some m) (hrun : runWithin limit n m = .error e m') :
    e = .stepLimit limit ∨ ∃ j m₁, m₀.after j = some m₁ ∧ step m₁ = .error e m' := by
  induction n generalizing k m with
  | zero =>
    cases hrun
    exact .inl rfl
  | succ n ih =>
    rw [runWithin] at hrun
    cases hstep : step m with
    | error e₁ m₁ =>
      rw [bind_of_error hstep] at hrun
      cases hrun
      exact .inr ⟨k, m, hafter, hstep⟩
    | ok r m₁ =>
      rw [bind_of_ok hstep] at hrun
      cases r with
      | some status => cases hrun
      | none => exact ih (after_succ hafter hstep) hrun

theorem Shows.nextOp? {code : Array Word} {M : Nat} {V : View} {op : Op} (h : Shows code M m V)
    (hop : code[m.ip]? = some op.word) : m.nextOp? = some op := by
  have hlt : m.ip < m.codeLen := by
    rw [h.codeLen]
    exact (Array.getElem?_eq_some_iff.mp hop).1
  rw [Machine.nextOp?, if_pos hlt, h.words _ _ hop, Op.ofWord?_word]

/-- The operation of the step after `n` others. -/
def opAt (m : Machine) (n : Nat) : Option Op :=
  (m.after n).bind nextOp?

/-- How many calls have not returned after some steps. -/
def level (m : Machine) : Nat → Int
  | 0 => 0
  | n + 1 => m.level n +
    match m.opAt n with
    | some .call => 1
    | some .ret | some .retValue => -1
    | _ => 0

/-- The return at step `j` is that of the call at step `i`: the calls between them have returned. -/
structure Matched (m : Machine) (i j : Nat) : Prop where
  lt : i < j
  call : m.opAt i = some .call
  ret : m.opAt j = some .ret ∨ m.opAt j = some .retValue
  level : m.level j = m.level (i + 1)
  above : ∀ t, i < t → t ≤ j → m.level (i + 1) ≤ m.level t

theorem level_succ_of_call (h : m.opAt n = some .call) : m.level (n + 1) = m.level n + 1 := by
  rw [Machine.level, h]

theorem level_succ_of_ret (h : m.opAt n = some .ret ∨ m.opAt n = some .retValue) :
    m.level (n + 1) = m.level n - 1 := by
  rcases h with h | h
  · rw [Machine.level, h]
    rfl
  · rw [Machine.level, h]
    rfl

theorem level_succ_of_other {op : Op} (h : m.opAt n = some op)
    (hop : op ≠ .call ∧ op ≠ .ret ∧ op ≠ .retValue) : m.level (n + 1) = m.level n := by
  rw [Machine.level, h]
  cases op <;> first | exact Int.add_zero _ | simp at hop

/-- A return belongs to one call only. -/
theorem Matched.unique {i i' j : Nat} (h : m.Matched i j) (h' : m.Matched i' j) : i = i' := by
  have key : ∀ {a b : Nat}, m.Matched a j → m.Matched b j → ¬a < b := by
    intro a b ha hb hab
    have habove := ha.above b hab (Nat.le_of_lt hb.lt)
    have hcall := level_succ_of_call hb.call
    have hlevel := ha.level.symm.trans hb.level
    omega
  exact Nat.le_antisymm (Nat.le_of_not_lt (key h' h)) (Nat.le_of_not_lt (key h h'))

/-! ## Counting calls -/

/-- The number of calls among the first steps. -/
def callCount (m : Machine) : Nat → Nat
  | 0 => 0
  | n + 1 => m.callCount n + if m.opAt n = some .call then 1 else 0

theorem callCount_mono {k : Nat} (h : n ≤ k) : m.callCount n ≤ m.callCount k := by
  induction h with
  | refl => exact Nat.le_refl _
  | step _ ih => exact Nat.le_trans ih (Nat.le_add_right _ _)

/-- The state behind the call that comes after `n` others. -/
def Entered (m : Machine) (n : Nat) (m' : Machine) : Prop :=
  ∃ t, m.opAt t = some .call ∧ m.callCount t = n ∧ m.after (t + 1) = some m'

theorem Entered.unique (h : m.Entered n m') (h' : m.Entered n m'') : m' = m'' := by
  obtain ⟨t, hop, hcount, hafter⟩ := h
  obtain ⟨t', hop', hcount', hafter'⟩ := h'
  -- A call is counted behind it, so no other call has the same count before it.
  have hlt : ∀ {a b : Nat}, m.opAt a = some .call → m.callCount a = m.callCount b → ¬a < b := by
    intro a b ha heq hab
    have hmono := callCount_mono (m := m) (Nat.succ_le_of_lt hab)
    rw [Nat.succ_eq_add_one, callCount, if_pos ha] at hmono
    omega
  obtain rfl : t = t' := Nat.le_antisymm
    (Nat.le_of_not_lt (hlt hop' (hcount'.trans hcount.symm)))
    (Nat.le_of_not_lt (hlt hop (hcount.trans hcount'.symm)))
  exact Option.some.inj (hafter.symm.trans hafter')

end StackLang.Machine
