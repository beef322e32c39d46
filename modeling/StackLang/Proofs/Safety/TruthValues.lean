import StackLang.Proofs.Safety.TypedFrames

/-!
# Truth values

A truth value is the word 0 or 1, wherever it is computed.  For a variable of this type the input
may hold any integer, where zero stands for `false`; so other words come from there, and only from
there.

* `Machine.PlacesTruth` — the words that a step stores, passes or returns as truth values.
* `Machine.ReadsTruth` — the words that are read from the input for variables of the type.
* `run_truthValues` — every truth value is 0 or 1, or has been read from the input.
-/

namespace StackLang

/-! ## Statements -/

namespace Machine

/-- The step from `m` to `m'` stores the word into a cell of a variable for truth values, passes it
as such an argument, or returns it from a function with such a result. -/
inductive PlacesTruth (p : Program) (g : Generated) (m m' : Machine) : Word → Prop where
  | stored {a : Nat} (ha : m.Accesses p g .poke .bool a) : PlacesTruth p g m m' (m'.cell a)
  | passed {id : FunctionId} {f : Function StmtId} {i : Nat} {q : Param} {a : Nat}
    (hop : m.nextOp? = some .call) (hstart : g.start? id = some m'.ip)
    (hf : p.tree.functions[id]? = some f) (hq : f.params[i]? = some q) (htype : q.type = .bool)
    (ha : (a : Int) = m'.bp + paramSlot i f.params.length) : PlacesTruth p g m m' (m'.cell a)
  | returned {v : FunctionId × Function (Stmt Mark)} (hop : m.nextOp? = some .retValue)
    (hv : v ∈ p.tree.views) (hruns : g.Runs v m.ip) (htype : v.2.returnType = .bool) :
    PlacesTruth p g m m' (m'.cell (m'.sp - 1))

/-- Step `k` of the run reads the word from the input, and the next step stores it into a variable
for truth values. -/
def ReadsTruth (start : Machine) (p : Program) (g : Generated) (k : Nat) (w : Word) : Prop :=
  start.opAt k = some .inInt ∧ ∃ m a, start.after (k + 1) = some m ∧ m.Accesses p g .poke .bool a ∧
    w = m.cell (m.sp - 1)

end Machine

/-- As a condition, the word agrees with its double negation, and with its comparison to `true`. -/
def Word.ConditionsAgree (strings : StringPool) (w : Word) : Prop :=
  ∀ not eq one, Op.not.unary? = some not → Op.eq.binary? = some eq →
    (Literal.bool true).word? strings = some one →
      (not (not w) = 0 ↔ w = 0) ∧ (eq w one = 0 ↔ w = 0)

/-! ## Words -/

theorem Word.ofBool_eq_zero_or_one (b : Bool) : Word.ofBool b = 0 ∨ Word.ofBool b = 1 := by
  cases b
  · exact .inl rfl
  · exact .inr rfl

/-- The conditions agree for the words of truth values, and for no others. -/
theorem Word.conditionsAgree_iff (strings : StringPool) (w : Word) :
    w.ConditionsAgree strings ↔ w = 0 ∨ w = 1 := by
  have hzero : ∀ b, Word.ofBool b = 0 ↔ b = false := by decide
  constructor
  · intro h
    obtain ⟨-, heq⟩ := h _ _ _ rfl rfl rfl
    rw [hzero, beq_eq_false_iff_ne] at heq
    by_cases hw : w = 0
    · exact .inl hw
    · exact .inr (not_not.mp fun hone => hw (heq.mp hone))
  · rintro (rfl | rfl) _ _ _ hnot heq hone <;> cases hnot <;> cases heq <;> cases hone <;> decide

/-- Truth values that are computed are 0 or 1. -/
theorem computed_truth {strings : StringPool} {B : Word → Prop} (hB : ∀ b, B (Word.ofBool b)) :
    Computed strings fun T w => T = .bool → B w where
  binary := by
    rintro op f ins T hf hsign a b rfl
    cases op <;> cases hsign <;> cases hf <;> exact hB _
  division := by
    rintro op f ins T hf hsign a b rfl
    cases op <;> cases hsign <;> cases hf
  unary := by
    rintro op f ins T hf hsign a rfl
    cases op <;> cases hsign <;> cases hf
    exact hB _
  combination := by
    rintro op f hf hany a b -
    cases op <;> cases hany <;> cases hf <;> exact hB _
  random := by
    intro _ _ h
    cases h
  literal := by
    intro l w hw htype
    cases l <;> cases htype
    cases hw
    exact hB _
  nothing := by
    intro h
    cases h

/-! ## Programs -/

open Machine (Reused load)

/-- The code of a program without element accesses is known by its types. -/
theorem exists_charted {source : String} {p : Program} {g : Generated}
    (hp : analyzeSource source = .ok p) (hg : compileSource source = .ok g)
    (helem : p.elementless = true) (hinit : p.initialized = true)
    (hret : p.returnsEverywhere = true) {config : MachineConfig}
    (hsize : g.code.size + config.stackCells < 0x1000000000000000) :
    ∃ X : Layout, X.Valid p False ∧ X.Charted p g ∧
      ∀ {input : Bytes} {m : Machine} (Q : ValueType → Word → Prop),
        m.Reused g.code g.strings input config → ∃ F, Inv X (fun _ _ => True) m.reset F [] ∧
          TypedFrames X p g Q m.reset.cell F [] := by
  have hchecked := checked_of_analyzeSource hp
  obtain ⟨env, is, hall, hsymbols⟩ := symbols_of_compileSource hp hg
  obtain ⟨Δ, R, hΔ, hR, hstart, hentry, hparams, hflow⟩ := hall.routines hchecked helem False
    fun v hv => by simpa [Program.returnsEverywhere, or_assoc] using List.all_eq_true.mp hret v hv
  obtain ⟨v, hv, hnone, hbegins⟩ := hall.beginsWith hchecked hsymbols
  let X : Layout := ⟨g.code, g.code.size + config.stackCells, env, Δ⟩
  refine ⟨X, ⟨hΔ, by simp only [X]; omega⟩, ⟨rfl, hchecked, hall.occupied hchecked hsymbols,
    hall.addressed hchecked hsymbols, fun u hu a ha => hall.typedAt_start hchecked hsymbols hu ha,
    fun id f a hf ha => hall.guardedAt_callee hp hinit hf ha⟩, fun Q hm => ⟨R.first X.code, ?_, ?_⟩⟩
  · exact Inv.start hR hstart hentry hparams hflow hm.shows
  · exact .first hstart hentry hall.guardedAt_start hv hnone hbegins

/-- In a program that accesses no elements of arrays, declares its variables with values and returns
its results on all paths, every word that is stored into a variable for truth values, passed as such
an argument or returned from a function with such a result is 0 or 1, or has been read from the
input for a variable of the type earlier in the run.  So the conditions `b`, `!!b` and `b == true`
agree whenever a variable is loaded that does not hold such a word. -/
theorem run_truthValues {source : String} {p : Program} {g : Generated}
    (hp : analyzeSource source = .ok p) (hg : compileSource source = .ok g)
    (helem : p.elementless = true) (hinit : p.initialized = true)
    (hret : p.returnsEverywhere = true) {config : MachineConfig}
    (hsize : g.code.size + config.stackCells < 0x1000000000000000) {input : Bytes} {start : Machine}
    (hstart : start.Reused g.code g.strings input config) {t : Nat} {m m' : Machine}
    (hm : start.reset.after t = some m) (hm' : start.reset.after (t + 1) = some m') :
    (∀ w, m.PlacesTruth p g m' w → (w = 0 ∨ w = 1) ∨ ∃ k < t, start.reset.ReadsTruth p g k w) ∧
    ∀ a, m.Accesses p g .peek .bool a → (m.cell a).ConditionsAgree g.strings ∨
      ∃ k < t, start.reset.ReadsTruth p g k (m.cell a) := by
  -- the property of the words is that of the first part, with the steps before `t`
  let B : Word → Prop := fun w => (w = 0 ∨ w = 1) ∨ ∃ k < t, start.reset.ReadsTruth p g k w
  have hQ : Computed g.strings fun T w => T = .bool → B w :=
    computed_truth fun b => .inl (Word.ofBool_eq_zero_or_one b)
  obtain ⟨X, hX, hC, hfirst⟩ := exists_charted hp hg helem hinit hret hsize
  obtain ⟨F₀, h₀, hF₀⟩ := hfirst (fun T w => T = .bool → B w) hstart
  obtain ⟨F, L, h, hF⟩ := h₀.typed_after hX hC hQ hF₀ (fun k hk m₁ m₂ hm₁ hm₂ T a hop ha htype => by
    subst htype
    refine .inr ⟨k, hk, ?_, m₂, a, hm₂, ha, rfl⟩
    rw [Machine.opAt, hm₁]
    exact hop) t (Nat.le_refl _) m hm
  obtain ⟨m₁, hm₁, hstep⟩ := Machine.step_of_after hm'
  cases hm.symm.trans hm₁
  have hT := Tracks.trivial X m
  obtain ⟨F', L', -, h'⟩ := (h.step_shifts hX hT hstep).resolve_left not_false
  refine ⟨fun w hw => ?_, fun a ha => ?_⟩
  · cases hw with
    | stored ha => exact h.stored hX hC hQ h' hF hstep ha rfl
    | passed hop hstart hf hq htype ha =>
      exact h.passed hX hC hF hstep hop hstart hf hq ha htype
    | returned hop hv hruns htype => exact h.returned hX hC hT hF hstep hop hv hruns htype
  · have hloaded : B (m.cell a) := h.loaded hX hC hF ha rfl
    exact hloaded.imp_left (Word.conditionsAgree_iff g.strings _).mpr

/-! ## Truth values from the input -/

/-- A program that reads a truth value, passes it to a function, and looks at what comes back. -/
def truthReader : String :=
  "bool same(bool b) \x7b return b; \x7d int main() \x7b bool b = false; input(b); " ++
    "if (same(b) == true) \x7b return 1; \x7d if (same(b)) \x7b return 2; \x7d return 0; \x7d"

/-- With the number 7 in the input, the first call of the function passes 7. -/
theorem truthReader_run : ∃ p g m m', analyzeSource truthReader = .ok p ∧
    compileSource truthReader = .ok g ∧ p.elementless = true ∧ p.initialized = true ∧
    p.returnsEverywhere = true ∧ g.code.size < 100 ∧
    (load g.code g.strings [55, 10] ⟨60, none, 0⟩).reset.after 9 = some m ∧
    (load g.code g.strings [55, 10] ⟨60, none, 0⟩).reset.after 10 = some m' ∧
    m.PlacesTruth p g m' 7 ∧
    EStateM.run' (Machine.run none) (load g.code g.strings [55, 10] ⟨60, none, 0⟩) = some 2 := by
  have hall : ((analyzeSource truthReader).toOption.any fun p =>
      p.elementless && p.initialized && p.returnsEverywhere &&
        ((p.tree.functions[0]?).any fun f => (f.params[0]?).any fun q =>
          decide (q.type = .bool ∧ f.params.length = 1)) &&
        (compileSource truthReader).toOption.any fun g => decide (g.code.size < 100) &&
          (((load g.code g.strings [55, 10] ⟨60, none, 0⟩).reset.after 9).any fun m =>
            ((load g.code g.strings [55, 10] ⟨60, none, 0⟩).reset.after 10).any fun m' =>
              decide (m.nextOp? = some .call ∧ g.start? 0 = some m'.ip ∧ 4 ≤ m'.bp ∧
                m'.cell (m'.bp - 4) = 7)) &&
          decide (EStateM.run' (Machine.run none) (load g.code g.strings [55, 10] ⟨60, none, 0⟩) =
            some 2)) = true := by
    decide +kernel
  simp only [any_toOption_iff, Bool.and_eq_true] at hall
  simp only [Option.any_eq_true, decide_eq_true_eq] at hall
  obtain ⟨p, hp, ⟨⟨⟨helem, hinit⟩, hret⟩, f, hf, q, hq, htype, hlen⟩, g, hg,
      ⟨hsize, m, hm, m', hm', hop,
    hstart, hbp, hcell⟩, hrun⟩ := hall
  refine ⟨p, g, m, m', hp, hg, helem, hinit, hret, hsize, hm, hm', ?_, hrun⟩
  rw [← hcell]
  refine .passed hop hstart hf hq htype ?_
  rw [hlen, paramSlot, frameHeader]
  omega

/-- The number that is passed is one that has been read. -/
theorem run_truthValues_truthReader : ∃ p g m m', analyzeSource truthReader = .ok p ∧
    compileSource truthReader = .ok g ∧ p.elementless = true ∧ p.initialized = true ∧
    p.returnsEverywhere = true ∧
    (load g.code g.strings [55, 10] ⟨60, none, 0⟩).reset.after 9 = some m ∧
    (load g.code g.strings [55, 10] ⟨60, none, 0⟩).reset.after 10 = some m' ∧
    m.PlacesTruth p g m' 7 ∧
    ∃ k < 9, (load g.code g.strings [55, 10] ⟨60, none, 0⟩).reset.ReadsTruth p g k 7 := by
  obtain ⟨p, g, m, m', hp, hg, helem, hinit, hret, hsize, hm, hm', hplaces, -⟩ := truthReader_run
  have hload : (load g.code g.strings [55, 10] ⟨60, none, 0⟩).Reused g.code g.strings [55, 10]
      ⟨60, none, 0⟩ := .load
  have hwords :=
    (run_truthValues hp hg helem hinit hret (by simp only; omega) hload hm hm').1 7 hplaces
  exact ⟨p, g, m, m', hp, hg, helem, hinit, hret, hm, hm', hplaces, hwords.resolve_left (by decide)⟩

/-- So a truth value need not be 0 or 1: the word that is passed here is neither, and its comparison
to `true` does not agree with it, which the status shows. -/
theorem truthReader_seven : ∃ p g m m' w, analyzeSource truthReader = .ok p ∧
    compileSource truthReader = .ok g ∧ p.elementless = true ∧ p.initialized = true ∧
    p.returnsEverywhere = true ∧
    (load g.code g.strings [55, 10] ⟨60, none, 0⟩).reset.after 9 = some m ∧
    (load g.code g.strings [55, 10] ⟨60, none, 0⟩).reset.after 10 = some m' ∧
    m.PlacesTruth p g m' w ∧ ¬(w = 0 ∨ w = 1) ∧ ¬w.ConditionsAgree g.strings ∧
    EStateM.run' (Machine.run none) (load g.code g.strings [55, 10] ⟨60, none, 0⟩) = some 2 := by
  obtain ⟨p, g, m, m', hp, hg, helem, hinit, hret, -, hm, hm', hplaces, hrun⟩ := truthReader_run
  refine ⟨p, g, m, m', 7, hp, hg, helem, hinit, hret, hm, hm', hplaces, by decide, ?_, hrun⟩
  rw [Word.conditionsAgree_iff]
  decide

end StackLang
