import StackLang.Compile
import StackLang.Proofs.Machine.Watched
import StackLang.Proofs.Safety.Preservation

/-!
# Safe runs

The code of a program without element accesses, whose functions return on all paths if they have a
result, runs safely: there is no unknown operation, and memory is only missing where a step finds no
room on the stack.

* `Machine.StopsSafely` — a run ends in a fault that does not come from the code.
* `run_safe` — every run of such a program that ends in a fault does.
-/

namespace StackLang

open Machine (Yields Fails)

variable {code : Array Word} {m : Machine}

/-! ## The beginning of a run -/

/-- A machine whose memory is as it should be shows the beginning of a run. -/
theorem Machine.Intact.shows_reset {cells : Nat} (h : Intact code cells m.reset) :
    m.reset.Shows code (code.size + cells)
      ⟨0, code.size, code.size, [], m.reset.cell, m.reset.world⟩ := by
  have hlen : m.codeLen = code.size := h.codeLen
  exact ⟨hlen, h.size, fun i w hi => h.cell hi, rfl, hlen, hlen, Nat.le_refl _,
    Nat.le_add_right _ _, fun _ _ => rfl, trivial, rfl⟩

/-- So does a machine that was loaded, and may have run before. -/
theorem Machine.Reused.shows {strings : StringPool} {input : Bytes} {config : MachineConfig}
    (h : Reused code strings input config m) :
    m.reset.Shows code (code.size + config.stackCells)
      ⟨0, code.size, code.size, [], m.reset.cell, m.reset.world⟩ :=
  h.intact.reset.shows_reset

/-- The frame of the code that starts a program. -/
def Placement.first (R : Placement) (code : Array Word) : Frame :=
  ⟨R, [], R.items, 0, code.size, [], []⟩

theorem Inv.start {X : Layout} {Φ : Nat → FunctionId → Prop} {R : Placement} (hR : X.routines R)
    (hstart : R.start = 0) (hentry : R.routine.isEntry) (hparams : R.routine.params = 0)
    (hflow : Flow R.routine 0 R.items [])
    (hm : m.Shows X.code X.memory ⟨0, X.code.size, X.code.size, [], m.cell, m.world⟩) :
    Inv X Φ m (R.first X.code) [] := by
  refine ⟨?_, ⟨hR, rfl, hflow, .nil⟩, .entry (Nat.le_refl _) hentry hparams⟩
  rw [Frame.view, Frame.ip, Placement.first, hstart]
  exact hm

/-- If no function returns without its result, the frames are known after every step. -/
theorem Inv.after {X : Layout} {p : Program} (hX : X.Valid p False) {m' : Machine} {F : Frame}
    {L : List Frame} (h : Inv X (fun _ _ => True) m F L) {n : Nat} (hafter : m.after n = some m') :
    ∃ F' L', Inv X (fun _ _ => True) m' F' L' := by
  induction n generalizing m' with
  | zero =>
    cases hafter
    exact ⟨F, L, h⟩
  | succ n ih =>
    obtain ⟨m₁, h₁, hstep⟩ := Machine.step_of_after hafter
    obtain ⟨F₁, L₁, hinv⟩ := ih h₁
    obtain hlenient | ⟨F', L', -, h'⟩ := hinv.step_shifts hX (Tracks.trivial X m₁) hstep
    · exact hlenient.elim
    · exact ⟨F', L', h'⟩

/-- Then a step that fails does so in a fault that does not come from the code. -/
theorem Inv.tolerable_of_step {X : Layout} {p : Program} (hX : X.Valid p False) {m' : Machine}
    {F : Frame} {L : List Frame} (h : Inv X (fun _ _ => True) m F L) {e : Fault}
    (hstep : Machine.step m = .error e m') : e.Tolerable X.code m := by
  cases h.step hX (Tracks.trivial X m) with
  | moves hstep' | exits hstep' | drops _ hstep' => cases hstep.symm.trans hstep'
  | stops hstep' he =>
    cases hstep.symm.trans hstep'
    exact he

/-! ## Programs -/

/-- A stack that overflows does so at the end of the memory or behind it. -/
theorem Machine.Overflows.size_le {op : Op} {address : Int} (h : m.Overflows op address)
    (hsp : m.sp ≤ m.mem.size) (hsize : m.mem.size < 0x1000000000000000) :
    m.mem.size ≤ address := by
  cases h with
  | push hfull | reading _ hfull | dup _ hfull | peek _ hfull | call _ _ _ _ _ _ hfull => omega
  | alloc hend =>
    split
    · omega
    · rename_i hrange
      rw [Word.inRange_iff] at hrange
      omega

/-- The run of `m` that ends in the fault `e` at `m'` is safe: the operation is known, and memory is
only missing behind its end, since the last step overflows the stack.  So the missing memory is
neither that of a word that is taken off the stack nor a cell at an offset from the base, and it is
not missed by a return or a jump. -/
structure Machine.StopsSafely (code : Array Word) (cells : Nat) (m : Machine) (e : Fault)
    (m' : Machine) : Prop where
  known : ∀ ip w, e ≠ .unknownOp ip w
  full : ∀ ip address, e = .memory ip address → code.size + cells ≤ address ∧
    ∃ (n : Nat) (last : Machine) (op : Op), m.reset.after n = some last ∧
      step last = .error e m' ∧ Intact code cells last ∧ code[last.ip]? = some op.word ∧
      ip = last.ip + op.arity + 1 ∧ last.Overflows op address

/-- A program that accesses no elements of arrays, and whose functions return on all paths if they
have a result, runs safely on every input, also when it runs again. -/
theorem run_safe {source : String} {p : Program} {g : Generated}
    (hp : analyzeSource source = .ok p) (hg : compileSource source = .ok g)
    (helem : p.elementless = true) (hret : p.returnsEverywhere = true) {input : Bytes}
    {config : MachineConfig} (hsize : g.code.size + config.stackCells < 0x1000000000000000)
    {m m' : Machine} (hm : m.Reused g.code g.strings input config) {maxSteps : Option Nat}
    {e : Fault} (hrun : Machine.run maxSteps m = .error e m') :
    m.StopsSafely g.code config.stackCells e m' := by
  obtain ⟨env, is, hall⟩ := assembled_of_compileSource hp hg
  obtain ⟨Δ, R, hΔ, hR, hstart, hentry, hparams, hflow⟩ := hall.routines
    (checked_of_analyzeSource hp) helem False fun v hv => by
      simpa [Program.returnsEverywhere, or_assoc] using List.all_eq_true.mp hret v hv
  have hX : Layout.Valid ⟨g.code, g.code.size + config.stackCells, env, Δ⟩ p False :=
    ⟨hΔ, by simp only; omega⟩
  rcases Machine.exists_step_of_runWithin_error (k := 0) rfl hrun with
    rfl | ⟨n, last, hlast, hstep⟩
  · exact ⟨fun _ _ => by simp, by simp⟩
  obtain ⟨F, L, h⟩ := (Inv.start hR hstart hentry hparams hflow hm.shows).after hX hlast
  have he := h.tolerable_of_step hX hstep
  have hintact := hm.intact.reset.after hlast
  refine ⟨?_, ?_⟩
  · rintro ip w rfl
    exact he
  · rintro ip address rfl
    obtain ⟨op, hop, hip, hover⟩ := he
    have hle := hover.size_le hintact.sp.2 (hintact.size ▸ hsize)
    rw [hintact.size] at hle
    exact ⟨by omega, n, last, op, hlast, hstep, hintact, hop, hip, hover⟩

/-- A recursive program with an array runs out of a stack of twenty cells, behind the end of the
memory. -/
theorem run_safe_recursion :
    ∃ source p g e m, analyzeSource source = .ok p ∧ compileSource source = .ok g ∧
      p.elementless = true ∧ p.returnsEverywhere = true ∧
      Machine.run none (.load g.code g.strings [] ⟨20, none, 0⟩) = .error e m ∧
      (∃ ip, e = .memory ip (g.code.size + 20)) ∧
      (Machine.load g.code g.strings [] ⟨20, none, 0⟩).StopsSafely g.code 20 e m := by
  let source :=
    "int f(int x) \x7b if (x > 0) \x7b return f(x - 1) + 1; \x7d else \x7b return 0; \x7d \x7d " ++
    "int main() \x7b int a[2] = \x7b1, 2\x7d; print(f(3)); return 0; \x7d"
  have hall : ((analyzeSource source).toOption.any fun p => p.elementless && p.returnsEverywhere &&
      (compileSource source).toOption.any fun g => decide (g.code.size < 100) &&
        match Machine.run none (.load g.code g.strings [] ⟨20, none, 0⟩) with
        | .error (.memory _ address) _ => decide (address = g.code.size + 20)
        | _ => false) = true := by decide +kernel
  simp only [any_toOption_iff, Bool.and_eq_true, decide_eq_true_eq] at hall
  obtain ⟨p, hp, ⟨helem, hret⟩, g, hg, hsize, hfault⟩ := hall
  split at hfault
  · rename_i ip address m hrun
    obtain rfl := of_decide_eq_true hfault
    have hload : (Machine.load g.code g.strings [] ⟨20, none, 0⟩).Reused g.code g.strings []
        ⟨20, none, 0⟩ := .load
    exact ⟨source, p, g, _, m, hp, hg, helem, hret, hrun, ⟨ip, rfl⟩,
      run_safe hp hg helem hret (by simp only; omega) hload hrun⟩
  · cases hfault

end StackLang
