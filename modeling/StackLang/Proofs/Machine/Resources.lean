import StackLang.Proofs.Machine.Alike
import StackLang.Proofs.Machine.Watched

/-!
# More resources

A run that ends otherwise than for want of memory or of steps does not depend on how much of either
there is.  A run that does end so has written a part of what it writes with more.

* `MachineConfig.Within` — the second configuration gives at least as much as the first.
* `Machine.Outlasts` — what a run with more resources does.
* `run_of_within` — more resources change no run.
-/

namespace StackLang

/-- The second configuration gives at least as many cells and steps as the first and the same random
numbers.  No limit is above all limits, and a limit is a count of steps. -/
structure MachineConfig.Within (c c' : MachineConfig) : Prop where
  seed : c'.seed = c.seed
  cells : c.stackCells ≤ c'.stackCells
  steps : ∀ n', c'.maxSteps = some n' → ∃ n, c.maxSteps = some n ∧ n ≤ n'
  counted : ∀ n, c.maxSteps = some n → n ≤ Machine.mostSteps

theorem MachineConfig.Within.limit_le {c c' : MachineConfig} (h : c.Within c') :
    c.maxSteps.getD Machine.mostSteps ≤ c'.maxSteps.getD Machine.mostSteps := by
  cases hc' : c'.maxSteps with
  | some n' =>
    obtain ⟨n, hc, hle⟩ := h.steps n' hc'
    rw [hc]
    exact hle
  | none =>
    cases hc : c.maxSteps with
    | some n => exact h.counted n hc
    | none => exact Nat.le_refl _

/-- The fault says that there is too little memory or that there were too many steps. -/
def Fault.isBound : Fault → Bool
  | memory _ _ | stepLimit _ => true
  | _ => false

namespace Machine

/-- The machine at the end of a run, however it ended. -/
def ended : EStateM.Result Fault Machine Word → Machine
  | .ok _ m => m
  | .error _ m => m

/-! ## Output -/

/-- A run adds to the output. -/
theorem runWithin_output (limit n : Nat) (m : Machine) :
    ∃ s, (ended (runWithin limit n m)).output = m.output ++ s := by
  induction n generalizing m with
  | zero => exact ⟨"", String.append_empty.symm⟩
  | succ n ih =>
    rw [runWithin]
    cases hstep : step m with
    | error e m₁ =>
      rw [bind_of_error hstep]
      exact ⟨"", by simp [ended, output_of_step_error hstep]⟩
    | ok r m₁ =>
      obtain ⟨op, B, -, hends⟩ := step_ends hstep
      obtain ⟨s, hs⟩ : ∃ s, m₁.output = m.output ++ s := hends.output
      rw [bind_of_ok hstep]
      cases r with
      | some status => exact ⟨s, hs⟩
      | none =>
        obtain ⟨s', hs'⟩ := ih m₁
        exact ⟨s ++ s', by rw [← String.append_assoc, ← hs]; exact hs'⟩

/-! ## Runs -/

/-- What a run with more resources does, `r` being the end of the run with less. -/
def Outlasts (r r' : EStateM.Result Fault Machine Word) : Prop :=
  match r with
  | .ok status m => ∃ m', r' = .ok status m' ∧ m'.world = m.world
  | .error e m => (∃ m', r' = .error e m' ∧ m'.world = m.world) ∨
      e.isBound = true ∧ ∃ s, (ended r').output = m.output ++ s

variable {code : Array Word} {cells : Nat} {m m' : Machine}

/-- An intact machine reads cells of its memory only. -/
theorem Intact.reads_lt (h : Intact code cells m) {op : Op} {w : Word} {a : Nat}
    (ha : op.reads m w a) : a < code.size + cells := by
  have hsize := h.size
  have hsp := h.sp
  rcases ha with ha | ha
  · omega
  · omega

theorem runWithin_outlasts {limit limit' n n' : Nat} (hn : n ≤ n') (hm : Intact code cells m)
    (h : Alike True (· < code.size + cells) m m') :
    Outlasts (runWithin limit n m) (runWithin limit' n' m') := by
  induction n generalizing n' m m' with
  | zero =>
    obtain ⟨s, hs⟩ := runWithin_output limit' n' m'
    exact .inr ⟨rfl, s, by rw [hs, h.outside.2.2.1]⟩
  | succ n ih =>
    obtain ⟨k, rfl⟩ : ∃ k, n' = k + 1 := ⟨n' - 1, by omega⟩
    have hstep := step_mirrors (fun _ _ _ => hm.reads_lt) m' h
    have hkeeps := step_agrees (p := ⟨code, cells⟩) m hm
    rw [runWithin]
    cases hrun : step m with
    | error e m₁ =>
      rw [hrun] at hstep
      rw [bind_of_error hrun]
      rcases hstep with ⟨houtput, ⟨m₁', hrun', hworld⟩ | ⟨-, ip, a, rfl⟩⟩
      · rw [runWithin, bind_of_error hrun']
        exact .inl ⟨m₁', rfl, hworld⟩
      · obtain ⟨s, hs⟩ := runWithin_output limit' (k + 1) m'
        exact .inr ⟨rfl, s, by rw [hs, houtput, h.outside.2.2.1]⟩
    | ok r m₁ =>
      rw [hrun] at hstep hkeeps
      obtain ⟨m₁', B, hrun', h₁, op, -, -, hends⟩ := hstep
      rw [runWithin, bind_of_ok hrun, bind_of_ok hrun']
      cases r with
      | some status => exact ⟨m₁', rfl, h₁.world⟩
      | none => exact ih (Nat.le_of_succ_le_succ hn) hkeeps.2.1 (h₁.weaken hends.keeps)

theorem alike_load {config config' : MachineConfig} (h : config.Within config') (code : Array Word)
    (strings : StringPool) (input : Bytes) :
    Alike True (· < code.size + config.stackCells) (load code strings input config)
      (load code strings input config') := by
  have hcell : ∀ a < code.size + config.stackCells,
      (load code strings input config').cell a = (load code strings input config).cell a := by
    intro a ha
    have hcells := h.cells
    simp only [cell, load, Array.getD_eq_getD_getElem?, Array.getElem?_append,
      Array.getElem?_replicate]
    by_cases hlt : a < code.size
    · rw [if_pos hlt, if_pos hlt]
    · rw [if_neg hlt, if_neg hlt, if_pos (by omega), if_pos (by omega)]
  refine ⟨rfl, rfl, rfl, rfl, ?_, ?_, fun h => absurd trivial h, fun a ha => hcell a ?_, hcell⟩
  · simp only [world, load, h.seed]
  · simpa [load] using h.cells
  · exact Nat.lt_add_right _ ha

end Machine

open Machine in
/-- A run with more cells and steps ends as the run with fewer of them and has the same effect on
the outside, unless that one ended for want of either; and then it had written the beginning of what
the run with more of them writes. -/
theorem run_of_within {config config' : MachineConfig} (h : config.Within config')
    (code : Array Word) (strings : StringPool) (input : Bytes) :
    (∀ status m, run config.maxSteps (load code strings input config) = .ok status m →
      ∃ m', run config'.maxSteps (load code strings input config') = .ok status m' ∧
        m'.world = m.world) ∧
    (∀ e m, run config.maxSteps (load code strings input config) = .error e m →
      e.isBound = false →
      ∃ m', run config'.maxSteps (load code strings input config') = .error e m' ∧
        m'.world = m.world) ∧
    ∀ e m, run config.maxSteps (load code strings input config) = .error e m → e.isBound = true →
      ∃ s, (ended (run config'.maxSteps (load code strings input config'))).output =
        m.output ++ s := by
  have hruns : Outlasts (run config.maxSteps (load code strings input config))
      (run config'.maxSteps (load code strings input config')) :=
    runWithin_outlasts h.limit_le (intact_load code strings input config)
      (alike_load h code strings input)
  refine ⟨fun status m hrun => ?_, fun e m hrun hbound => ?_, fun e m hrun _ => ?_⟩
  · rw [hrun] at hruns
    exact hruns
  · rw [hrun] at hruns
    exact hruns.resolve_right fun h => by simp [hbound] at h
  · rw [hrun] at hruns
    rcases hruns with ⟨m', hrun', hworld⟩ | ⟨-, hs⟩
    · refine ⟨"", ?_⟩
      rw [hrun', String.append_empty]
      exact congrArg World.output hworld
    · exact hs

open Machine in
/-- Code that needs three cells: with two of them it prints a number and then finds no memory, with
eight of them it prints that number as well. -/
theorem run_of_within_full :
    let code : Array Word := #[Op.push.word, 5, Op.outInt.word, Op.push.word, 1, Op.push.word, 2,
      Op.push.word, 3, Op.exit.word]
    MachineConfig.Within ⟨2, some 100, 7⟩ ⟨8, none, 7⟩ ∧
      ∃ e m, run (some 100) (load code .empty [] ⟨2, some 100, 7⟩) = .error e m ∧
        e.isBound = true ∧ m.output = "5" ∧
        ∃ s, (ended (run none (load code .empty [] ⟨8, none, 7⟩))).output = m.output ++ s := by
  intro code
  have hwithin : MachineConfig.Within ⟨2, some 100, 7⟩ ⟨8, none, 7⟩ :=
    ⟨rfl, by decide, nofun, fun n hn => by cases hn; decide⟩
  have hfull : (match run (some 100) (load code .empty [] ⟨2, some 100, 7⟩) with
      | .error e m => e.isBound && decide (m.output = "5")
      | .ok _ _ => false) = true := by decide +kernel
  refine ⟨hwithin, ?_⟩
  cases hrun : run (some 100) (load code .empty [] ⟨2, some 100, 7⟩) with
  | ok status m => simp [hrun] at hfull
  | error e m =>
    simp only [hrun, Bool.and_eq_true, decide_eq_true_eq] at hfull
    exact ⟨e, m, rfl, hfull.1, hfull.2,
      (run_of_within hwithin code .empty []).2.2 e m hrun hfull.1⟩

end StackLang
