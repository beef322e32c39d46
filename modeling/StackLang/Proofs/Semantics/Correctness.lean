import Mathlib.Tactic.Choose
import StackLang.Proofs.Safety.Runs
import StackLang.Proofs.Semantics.Statements

/-!
# Correctness of the code

The code of a program does what the evaluation of its tree says: with enough memory and steps, a run
ends as the evaluation ends, with the same status or the same failure, and with the same output.

* `Execution.Valid.finishes` — the run follows the evaluation of a program to the exit.
* `run_of_ends` — how the evaluation ends is how the run ends.
-/

namespace StackLang

variable {main : FunctionId} {f : Function (Stmt Mark)}

/-! ## Runs that end -/

/-- The run ends as the evaluation does. -/
def Ending.IsOf : Ending → EStateM.Result Fault Machine Word → Prop
  | exited status output, .ok w m => w = status ∧ m.output = output
  | failed f output, .error e m => e.failure? = some f ∧ m.output = output
  | _, _ => False

namespace Machine

variable {m m' m'' : Machine} {n limit : Nat}

/-- A run ends with the exit that comes after some steps. -/
theorem runWithin_of_exit {status : Word} (h : m.after n = some m')
    (hstep : step m' = .ok (some status) m'') {k : Nat} (hk : n < k) :
    runWithin limit k m = .ok status m'' := by
  obtain ⟨j, rfl⟩ := Nat.exists_eq_add_of_lt hk
  rw [Nat.add_assoc, runWithin_of_after h, runWithin, bind_of_ok hstep]
  rfl

/-- A run ends with the fault that comes after some steps. -/
theorem runWithin_of_fault {e : Fault} (h : m.after n = some m') (hstep : step m' = .error e m'')
    {k : Nat} (hk : n < k) : runWithin limit k m = .error e m'' := by
  obtain ⟨j, rfl⟩ := Nat.exists_eq_add_of_lt hk
  rw [Nat.add_assoc, runWithin_of_after h, runWithin, bind_of_error hstep]

end Machine

theorem Reference.status_eq (R : Reference)
    (hfind : R.program.tree.findFunction? "main" = some main)
    (hf : R.program.tree.function? main = some f) (fuel depth : Nat) (s : Situation) :
    R.status fuel depth s = match R.activation fuel depth main f [] s with
      | .ok value s' => .ok (value.getD 0) s'
      | .error e s' => .error e s' := by
  simp only [Reference.status, hfind, bind, Option.bind, hf]
  show EStateM.bind (R.activation fuel depth main f []) _ s = _
  rw [EStateM.bind]
  cases R.activation fuel depth main f [] s with
  | ok value s' => rfl
  | error e s' => rfl

namespace Execution

variable {X : Execution} {ending : Ending} {mem : Nat → Word} {world : World}

/-- The run ends with a status, having written the output. -/
def Exits (X : Execution) (status : Word) (output : String) : Prop :=
  ∃ t m m', X.start.after t = some m ∧ Machine.step m = .ok (some status) m' ∧ m'.output = output

/-- The run ends as the evaluation does. -/
def Finishes (X : Execution) : Ending → Prop
  | .exited status output => X.Exits status output
  | .failed f output => X.Breaks f output

/-- A run that finishes does so within every number of steps that is large enough. -/
theorem Finishes.runWithin (h : X.Finishes ending) :
    ∃ steps, ∀ limit k, steps ≤ k → ending.IsOf (Machine.runWithin limit k X.start) := by
  cases ending with
  | exited status output =>
    obtain ⟨t, m, m', hafter, hstep, hout⟩ := h
    refine ⟨t + 1, fun limit k hk => ?_⟩
    rw [Machine.runWithin_of_exit hafter hstep hk]
    exact ⟨rfl, hout⟩
  | failed f output =>
    obtain ⟨t, m, e, m', hafter, hstep, he, hout⟩ := h
    refine ⟨t + 1, fun limit k hk => ?_⟩
    rw [Machine.runWithin_of_fault hafter hstep hk]
    exact ⟨he, hout⟩

/-! ## From the stub to the exit -/

/-- The stub at the beginning of the code calls `main` and exits. -/
structure Stub (X : Execution) (main : FunctionId) : Prop where
  find : X.program.tree.findFunction? "main" = some main
  push : X.Located 0 [.withLabel .push main]
  call : X.Located 2 [.withWord .call (Word.ofNat 0)]
  exit : X.code[4]? = some Op.exit.word

theorem Valid.stub (hX : X.Valid) : ∃ main, X.Stub main := by
  obtain ⟨is, hall⟩ := hX.assembled
  obtain ⟨hcode, hlies, -⟩ := hall
  cases hcode with
  | @mk main is hmain =>
    obtain ⟨⟨hpush, hcall, hexit, -⟩, -⟩ := Item.lies_append.mp hlies
    have hword := hexit 0 _ rfl
    have hlt : 4 < X.code.size := (Array.getElem?_eq_some_iff.mp hword).1
    exact ⟨main, hmain, ⟨⟨hpush, trivial⟩, by simp [Item.withLabel]; omega⟩,
      ⟨⟨hcall, trivial⟩, by simp [Item.withWord]; omega⟩, hword⟩

/-- The run follows the activation of `main`, from its beginning to the exit. -/
theorem Valid.meets_main (hX : X.Valid) (hstub : X.Stub main)
    (hv : (main, f) ∈ X.program.tree.views) (hparams : f.params = [])
    (hstart : X.Reaches ⟨0, X.code.size, X.code.size, [], mem, world⟩ 0) (fuel depth : Nat)
    (hroom : X.code.size + 4 + depth * X.frame ≤ X.memory) :
    X.Meets (fun value s V => V = ⟨4, X.code.size, X.code.size, value.toList, mem, s.world⟩)
      (X.reference.activation fuel depth main f [] ⟨X.fresh 0, world, 0⟩) := by
  match fuel, depth with
  | 0, _ =>
    simp only [Reference.activation]
    trivial
  | fuel + 1, 0 =>
    simp only [Reference.activation]
    trivial
  | fuel + 1, depth + 1 =>
    obtain ⟨t, is, hbody⟩ := hX.body hv
    obtain ⟨hop, hw⟩ := hstub.push.words
    have hword : X.code[1]? = some (Word.ofNat t) := by
      simpa [Operand.resolve, hbody.address] using hw _ rfl
    have hpushed := hstart.step hop (by decide)
      (Machine.step_push hop hword (by simp only [View.sp, List.length_nil]; omega))
    have hcall : X.Located 2 [.withWord .call (Word.ofNat ([] : List Word).length)] := hstub.call
    have hmeets := hX.activation hv hbody (s := ⟨X.fresh 0, world, 0⟩) hpushed rfl (Nat.le_refl _)
      (Nat.le_refl _) hcall rfl (by simp [hparams])
      (by simp only [View.sp, List.length_cons, List.length_nil]; omega)
      fun A (hA : A.Valid depth) hid hf => (hX.simulates fuel).body hbody hA hid hf
    generalize X.reference.activation (fuel + 1) (depth + 1) main f [] _ = r at hmeets ⊢
    cases r with
    | ok value s' =>
      obtain ⟨V', hV', -, -, hview⟩ := hmeets
      rw [List.append_nil] at hview
      exact ⟨V', hV', hview⟩
    | error e s' =>
      cases e with
      | failure e => exact hmeets
      | undefined => trivial
      | unfinished => trivial

/-- The run of a whole program finishes as its evaluation does. -/
theorem Valid.finishes (hX : X.Valid)
    (hstart : X.Reaches ⟨0, X.code.size, X.code.size, [], mem, world⟩ 0) {fuel depth : Nat}
    (hroom : X.code.size + 4 + depth * X.frame ≤ X.memory)
    (hending : Ending.ofResult? (X.reference.status fuel depth ⟨X.fresh 0, world, 0⟩) = some
      ending) : X.Finishes ending := by
  obtain ⟨main, hstub⟩ := hX.stub
  obtain ⟨f, hv, hparams⟩ := hX.checked.mem_views_main hstub.find
  have hmeets := hX.meets_main hstub hv hparams hstart fuel depth hroom
  rw [Reference.status_eq X.reference hstub.find (Tree.function?_of_mem_views hv)] at hending
  generalize X.reference.activation fuel depth main f [] _ = r at hmeets hending
  match r, hmeets with
  | .ok value s', ⟨V', hV', hview⟩ =>
    cases hending
    obtain ⟨k, m, hafter, -, hm⟩ := hV'
    rw [hview] at hm
    obtain ⟨m', hstep, hm'⟩ := Machine.step_exit hstub.exit m hm
    refine ⟨k, m, m', hafter, ?_, congrArg World.output hm'.world⟩
    rw [hstep]
    cases value <;> simp
  | .error (.failure e) s', hbreaks =>
    cases hending
    exact hbreaks
  | .error .undefined s', _ | .error .unfinished s', _ => cases hending

end Execution

/-! ## Programs -/

/-- There is always something that the cells of activations hold when they begin. -/
theorem Program.exists_inherits (p : Program) (m : Machine) : ∃ fresh, p.Inherits fresh m := by
  classical
  have hcell : ∀ (n : Nat) (b : Binding) (i : Nat), ∃ w, ∀ m', m.Entered n m' → ∀ info slot,
      p.tree.varInfo? p.notes b = some info → info.slot = some slot →
        w = m'.cell ((m'.bp : Int) + slot + i).toNat := by
    intro n b i
    by_cases h : ∃ m' info slot, m.Entered n m' ∧ p.tree.varInfo? p.notes b = some info ∧
        info.slot = some slot
    · obtain ⟨m', info, slot, hm', hinfo, hslot⟩ := h
      refine ⟨m'.cell ((m'.bp : Int) + slot + i).toNat,
        fun m'' hm'' info' slot' hinfo' hslot' => ?_⟩
      cases hm'.unique hm''
      cases hinfo.symm.trans hinfo'
      cases hslot.symm.trans hslot'
      rfl
    · exact ⟨0, fun m' hm' info slot hinfo hslot => (h ⟨m', info, slot, hm', hinfo, hslot⟩).elim⟩
  choose fresh hfresh using hcell
  exact ⟨fresh, fun n m' hm' b info slot hinfo hslot i => hfresh n b i m' hm' info slot hinfo hslot⟩

/-- The code of a program does what the evaluation of its tree says.  If the evaluation ends with at
most `depth` activations at a time, and the stack has room for them, then every run with enough
steps ends in the same way and writes the same, also when the machine has run before.  The cells
that an activation has not written hold what the run has left in them. -/
theorem run_of_ends {source : String} {p : Program} {g : Generated}
    (hp : analyzeSource source = .ok p) (hg : compileSource source = .ok g) {input : Bytes}
    {config : MachineConfig} (hsize : g.code.size + config.stackCells < 0x1000000000000000)
    {m : Machine} (hm : m.Reused g.code g.strings input config) :
    (∃ fresh, p.Inherits fresh m.reset) ∧
      ∀ fresh, p.Inherits fresh m.reset → ∀ depth,
        4 + depth * (g.code.size + p.cells + 3) ≤ config.stackCells → ∀ ending,
          Reference.Ends ⟨p, g.strings, fresh⟩ depth m.reset.world ending →
            ∃ steps, ∀ maxSteps : Option Nat, steps ≤ maxSteps.getD Machine.mostSteps →
              ending.IsOf (Machine.run maxSteps m) := by
  refine ⟨p.exists_inherits m.reset, fun fresh hfresh depth hroom ending hends => ?_⟩
  obtain ⟨env, is, hall⟩ := assembled_of_compileSource hp hg
  obtain ⟨fuel, hending⟩ := hends
  let X : Execution := ⟨p, g, env, g.code.size + config.stackCells, m.reset, fresh⟩
  have hX : X.Valid := ⟨checked_of_analyzeSource hp, ⟨is, hall⟩, by simp only [X]; omega, hfresh⟩
  have hfinishes : X.Finishes ending := hX.finishes ⟨0, m.reset, rfl, rfl, hm.shows⟩
    (by simp only [X, Execution.code, Execution.frame]; omega) hending
  obtain ⟨steps, hsteps⟩ := hfinishes.runWithin
  exact ⟨steps, fun maxSteps hle => hsteps _ _ hle⟩

/-- What holds of a value chosen to fail it, if one does, holds of every value. -/
theorem forall_of_epsilon {α : Type} [Nonempty α] {P : α → Prop}
    (h : P (Classical.epsilon fun x => ¬P x)) (x : α) : P x :=
  Classical.byContradiction fun hx =>
    (Classical.epsilon_spec_aux inferInstance (fun x => ¬P x) ⟨x, hx⟩) h

/-- A recursive program with a loop prints a number and then divides by zero, whatever its cells
hold when it begins. -/
theorem run_of_ends_division :
    ∃ source p g, analyzeSource source = .ok p ∧ compileSource source = .ok g ∧
      (∀ fresh, Reference.Ends ⟨p, g.strings, fresh⟩ 4
        (Machine.load g.code g.strings [] {}).reset.world (.failed .divisionByZero "3")) ∧
      ∃ steps, ∀ maxSteps : Option Nat, steps ≤ maxSteps.getD Machine.mostSteps →
        Ending.IsOf (.failed .divisionByZero "3")
          (Machine.run maxSteps (.load g.code g.strings [] {})) := by
  obtain ⟨source, hroom, hends⟩ : ∃ source,
      ((analyzeSource source).toOption.any fun p => (compileSource source).toOption.any fun g =>
        decide (4 + 4 * (g.code.size + p.cells + 3) ≤ 65536)) = true ∧
      ∀ fresh, ((analyzeSource source).toOption.bind fun p => (compileSource source).toOption.bind
        fun g => Ending.ofResult? (Reference.status ⟨p, g.strings, fresh⟩ 60 4
          ⟨fresh 0, ⟨g.strings, [], "", 0x5EED⟩, 0⟩)) = some (.failed .divisionByZero "3") := by
    refine ⟨"int f(int x) \x7b if (x > 0) \x7b return f(x - 1) + x; \x7d return 0; \x7d " ++
      "int main() \x7b int i = 0; while (i < 3) \x7b i = i + f(2); \x7d print(i); " ++
      "return 7 / (i - 3); \x7d", by decide +kernel, ?_⟩
    -- The evaluation never comes to what the chosen cells hold, so that the choice stays closed.
    exact forall_of_epsilon (by decide +kernel)
  simp only [any_toOption_iff, decide_eq_true_eq] at hroom
  obtain ⟨p, hp, g, hg, hroom⟩ := hroom
  simp only [hp, hg, Except.toOption, Option.bind_some] at hends
  have hload : (Machine.load g.code g.strings [] {}).Reused g.code g.strings [] {} := .load
  obtain ⟨⟨fresh, hfresh⟩, hruns⟩ := run_of_ends hp hg (by simp only; omega) hload
  exact ⟨source, p, g, hp, hg, fun fresh => ⟨60, hends fresh⟩,
    hruns fresh hfresh 4 hroom _ ⟨60, hends fresh⟩⟩

end StackLang
