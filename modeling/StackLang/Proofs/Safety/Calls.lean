import StackLang.Proofs.Machine.Trace
import StackLang.Proofs.Safety.Runs

/-!
# What calls leave on the stack

A call takes the address of a function and its arguments off the stack.  The matching return leaves
the result there, if it is a return with a value.  Behind the call of a function without a result
stands an instruction that puts a zero there instead.  But a function with a result that comes to
its end returns without one; nothing is left for it, and nothing is known about the stack from then
on.

* `call_height` — the height of the stack behind a call.
-/

namespace StackLang

namespace Machine

/-- The address of the function has been put into cell `x` before step `t`, and the stack has been
higher since. -/
def Pushed (m : Machine) (env : Addresses) (t x : Nat) (id : FunctionId) : Prop :=
  ∃ k mk a, k < t ∧ m.after k = some mk ∧ mk.sp = x ∧ mk.nextOp? = some .push ∧ env id = some a ∧
    mk.cell (mk.ip + 1) = Word.ofNat a ∧ ∀ s ms, k < s → s ≤ t → m.after s = some ms → x < ms.sp

/-- Step `i` calls function `f`, whose address was put on the stack when its height was `h`. -/
structure Calls (m : Machine) (p : Program) (env : Addresses) (i : Nat) (f : Function StmtId)
    (h : Nat) : Prop where
  call : m.opAt i = some .call
  height : ∀ m', m.after i = some m' → m'.sp = h + (f.params.length + 1)
  target : ∃ id, p.tree.functions[id]? = some f ∧ m.Pushed env i h id ∧
    ∀ m', m.after (i + 1) = some m' → env id = some m'.ip

/-- Step `j` returns without a result from a function that has one. -/
def Drops (m : Machine) (p : Program) (env : Addresses) (j : Nat) : Prop :=
  m.opAt j = some .ret ∧ ∃ i f h, m.Matched i j ∧ m.Calls p env i f h ∧ f.returnType ≠ .void

end Machine

/-! ## The calls of the frames -/

/-- Each frame that waits under a frame of routine `K` does so since a call that has not returned.
The calls of the frames have consecutive levels, the last of them `ℓ`. -/
inductive History (m : Machine) (p : Program) (env : Addresses) (t : Nat) :
    Routine → List Frame → Int → Prop where
  | nil {K : Routine} : History m p env t K [] 0
  | cons {K : Routine} {S : Frame} {L : List Frame} {ℓ : Int} {i : Nat} {f : Function StmtId}
    (hi : i < t) (hcalls : m.Calls p env i f S.sp)
    (hresult : K.hasResult = decide (f.returnType ≠ .void)) (hlevel : m.level (i + 1) = ℓ)
    (habove : ∀ s, i < s → s ≤ t → ℓ ≤ m.level s)
    (hL : History m p env t S.home.routine L (ℓ - 1)) : History m p env t K (S :: L) ℓ

section

variable {X : Layout} {p : Program} {lenient : Prop} {m₀ m m' : Machine} {F : Frame}
  {L : List Frame} {t : Nat} {K : Routine} {ℓ : Int}

theorem History.extend {env : Addresses} (h : History m₀ p env t K L ℓ)
    (hle : ℓ ≤ m₀.level (t + 1)) : History m₀ p env (t + 1) K L ℓ := by
  induction h with
  | nil => exact .nil
  | cons hi hcalls hresult hlevel habove _ ih =>
    refine .cons (Nat.lt_succ_of_lt hi) hcalls hresult hlevel (fun s his hst => ?_) (ih (by omega))
    rcases Nat.le_succ_iff.mp hst with hst | rfl
    · exact habove s his hst
    · exact hle

/-- A machine after `t` steps of which the frames and their calls are known. -/
structure Known (X : Layout) (p : Program) (m₀ : Machine) (t : Nat) (m : Machine) (F : Frame)
    (L : List Frame) : Prop where
  after : m₀.after t = some m
  inv : Inv X (m₀.Pushed X.env t) m F L
  history : History m₀ p X.env t F.home.routine L (m₀.level t)

theorem Known.opAt (h : Known X p m₀ t m F L) {op : Op} (hop : X.code[m.ip]? = some op.word) :
    m₀.opAt t = some op := by
  rw [Machine.opAt, h.after, Option.bind_some]
  exact h.inv.shows.nextOp? hop

theorem Known.tracks (h : Known X p m₀ t m F L) :
    Tracks X m (m₀.Pushed X.env t) (m₀.Pushed X.env (t + 1)) where
  keep m' hstep x id hx := by
    rintro ⟨k, mk, a, hk, hmk, hsp, hop, ha, hword, hhigh⟩
    refine ⟨k, mk, a, Nat.lt_succ_of_lt hk, hmk, hsp, hop, ha, hword, fun s ms hks hst hms => ?_⟩
    rcases Nat.le_succ_iff.mp hst with hst | rfl
    · exact hhigh s ms hks hst hms
    · cases hms.symm.trans (Machine.after_succ h.after hstep)
      exact hx
  push m' id a hstep hlt hop hword ha := by
    refine ⟨t, m, a, Nat.lt_succ_self t, h.after, rfl, h.inv.shows.nextOp? hop, ha,
      h.inv.shows.words _ _ hword, fun s ms hts hst hms => ?_⟩
    obtain rfl : s = t + 1 := Nat.le_antisymm hst hts
    cases hms.symm.trans (Machine.after_succ h.after hstep)
    exact hlt

/-- The call that the running function returns from. -/
theorem Known.caller {S : Frame} (h : Known X p m₀ t m F (S :: L))
    (hret : m₀.opAt t = some .ret ∨ m₀.opAt t = some .retValue) :
    ∃ i f, m₀.Matched i t ∧ m₀.Calls p X.env i f S.sp ∧
      F.home.routine.hasResult = decide (f.returnType ≠ .void) ∧
      History m₀ p X.env t S.home.routine L (m₀.level i) := by
  have hhistory := h.history
  generalize hℓ : m₀.level t = ℓ at hhistory
  cases hhistory with
  | @cons _ _ _ _ i f hi hcalls hresult hlevel habove hL =>
    subst hlevel
    refine ⟨i, f, ⟨hi, hcalls.call, hret, hℓ, habove⟩, hcalls, hresult, ?_⟩
    rw [Machine.level_succ_of_call hcalls.call, Int.add_sub_cancel] at hL
    exact hL

theorem Known.history_of_return {S : Frame} (h : Known X p m₀ t m F (S :: L))
    (hret : m₀.opAt t = some .ret ∨ m₀.opAt t = some .retValue) :
    History m₀ p X.env (t + 1) S.home.routine L (m₀.level (t + 1)) := by
  obtain ⟨i, f, hmatched, hcalls, -, hhistory⟩ := h.caller hret
  have hlevel := Machine.level_succ_of_ret hret
  have hcall := Machine.level_succ_of_call hcalls.call
  rw [hmatched.level, hcall, Int.add_sub_cancel] at hlevel
  rw [hlevel]
  exact hhistory.extend (Int.le_of_eq hlevel.symm)

/-- The calls of the frames are known after a step if they were before, whatever the step does. -/
theorem Moves.history {F' : Frame} {L' : List Frame} (h : Known X p m₀ t m F L)
    (hm' : m₀.after (t + 1) = some m') (hmoves : Moves X p (m₀.Pushed X.env t) m F L m' F' L') :
    History m₀ p X.env (t + 1) F'.home.routine L' (m₀.level (t + 1)) := by
  cases hmoves with
  | within hop hkind hhome hL =>
    subst hL
    have hlevel := Machine.level_succ_of_other (h.opAt hop) hkind
    rw [hhome, hlevel]
    exact h.history.extend (Int.le_of_eq hlevel.symm)
  | @call S id f hop hf hΦ hsp hS hresult htarget hL =>
    subst hL
    have hlevel := Machine.level_succ_of_call (h.opAt hop)
    have hcalls : m₀.Calls p X.env t f S.sp := by
      refine ⟨h.opAt hop, fun m₁ hm₁ => ?_, id, hf, hΦ, fun m₁ hm₁ => ?_⟩
      · cases hm₁.symm.trans h.after
        exact hsp
      · cases hm₁.symm.trans hm'
        exact htarget
    refine .cons (Nat.lt_succ_self t) hcalls hresult rfl (fun s hts hst => ?_) ?_
    · obtain rfl : s = t + 1 := Nat.le_antisymm hst hts
      exact Int.le_refl _
    · rw [hlevel, Int.add_sub_cancel, hS]
      exact h.history.extend (by omega)
  | ret hop hresult hhome hL hsp hzero =>
    subst hL
    rw [hhome]
    exact h.history_of_return (.inl (h.opAt hop))
  | retValue hop hresult hhome hL hsp =>
    subst hL
    rw [hhome]
    exact h.history_of_return (.inr (h.opAt hop))

/-- What is known stays known, unless a function returns without its result. -/
theorem Known.step (hX : X.Valid p lenient) (h : Known X p m₀ t m F L)
    (hm' : m₀.after (t + 1) = some m') :
    (∃ F' L', Moves X p (m₀.Pushed X.env t) m F L m' F' L' ∧ Known X p m₀ (t + 1) m' F' L') ∨
      lenient ∧ m₀.opAt t = some .ret ∧ F.home.routine.hasResult = true ∧
        ∃ S L', L = S :: L' ∧ m'.sp = S.sp := by
  obtain ⟨m₁, hm₁, hstep⟩ := Machine.step_of_after hm'
  cases hm₁.symm.trans h.after
  cases h.inv.step hX h.tracks with
  | moves hstep' hmoves hinv =>
    cases hstep'.symm.trans hstep
    exact .inl ⟨_, _, hmoves, hm', hinv, hmoves.history h hm'⟩
  | exits hstep' | stops hstep' => cases hstep'.symm.trans hstep
  | drops hlenient hstep' hop hresult hL hsp =>
    cases hstep'.symm.trans hstep
    exact .inr ⟨hlenient, h.opAt hop, hresult, _, _, hL, hsp⟩

/-- Frames and calls are known as long as no function has returned without its result. -/
theorem known_after (hX : X.Valid p lenient) (h₀ : Known X p m₀ 0 m₀ F L) :
    ∀ (t : Nat) {m : Machine}, m₀.after t = some m →
      (¬lenient ∨ ∀ s < t, ¬m₀.Drops p X.env s) → ∃ F' L', Known X p m₀ t m F' L'
  | 0, m, hm, _ => by
    cases hm
    exact ⟨F, L, h₀⟩
  | t + 1, m, hm, hnone => by
    obtain ⟨m₁, hm₁, -⟩ := Machine.step_of_after hm
    obtain ⟨F', L', h⟩ := known_after hX h₀ t hm₁
      (hnone.imp_right fun hall s hs => hall s (Nat.lt_succ_of_lt hs))
    rcases h.step hX hm with ⟨F'', L'', -, hknown⟩ | ⟨hlenient, hop, hresult, S, L'', rfl, -⟩
    · exact ⟨F'', L'', hknown⟩
    · obtain ⟨i, f, hmatched, hcalls, hf, -⟩ := h.caller (.inl hop)
      have hdrop : m₀.Drops p X.env t := by
        refine ⟨hop, i, f, S.sp, hmatched, hcalls, ?_⟩
        rw [hresult] at hf
        exact of_decide_eq_true hf.symm
      rcases hnone with hstrict | hall
      · exact absurd hlenient hstrict
      · exact absurd hdrop (hall t (Nat.lt_succ_self t))

/-- The step behind a return to an instruction that puts a zero on the stack. -/
theorem Machine.sp_of_push {code : Array Word} {M : Nat} {V : View} {w : Word}
    (h : m.Shows code M V) (hop : code[m.ip]? = some Op.push.word) (hw : code[m.ip + 1]? = some w)
    (hstep : step m = .ok none m') : m'.sp = m.sp + 1 := by
  rw [h.ip] at hop hw
  by_cases hroom : V.sp < M
  · obtain ⟨m₁, hrun, hm₁⟩ := step_push hop hw hroom m h
    cases hrun.symm.trans hstep
    rw [hm₁.sp, h.sp]
    rfl
  · have hfull : V.sp = M := Nat.le_antisymm h.below (Nat.le_of_not_lt hroom)
    obtain ⟨m₁, hrun, -⟩ := step_push_fails hop hw hfull m h
    cases hrun.symm.trans hstep

/-- What a call leaves on the stack, as long as all have left what they should. -/
theorem Known.height (hX : X.Valid p lenient) (h : Known X p m₀ t m F L) {i : Nat}
    (hmatched : m₀.Matched i t) (hm' : m₀.after (t + 1) = some m') :
    ∃ f height, m₀.Calls p X.env i f height ∧
      (f.returnType = .void → m₀.opAt t = some .ret ∧ m'.sp = height ∧
        (m₀.level i ≠ 0 → ∀ m'', m₀.after (t + 2) = some m'' → m''.sp = height + 1)) ∧
      (f.returnType ≠ .void → m₀.opAt t = some .retValue ∧ m'.sp = height + 1 ∨
        m₀.opAt t = some .ret ∧ m'.sp = height ∧ lenient) := by
  rcases h.step hX hm' with ⟨F', L', hmoves, hknown⟩ | ⟨hlenient, hop, hresult, S, L', rfl, hsp⟩
  · cases hmoves with
    | within hop hkind _ _ =>
      have := h.opAt hop
      rcases hmatched.ret with hret | hret <;> cases this.symm.trans hret <;> simp at hkind
    | call hop _ _ _ _ _ _ _ =>
      have := h.opAt hop
      rcases hmatched.ret with hret | hret <;> cases this.symm.trans hret
    | @ret S hop hresult hhome hL hsp hzero =>
      subst hL
      obtain ⟨i', f, hmatched', hcalls, hf, hhistory⟩ := h.caller (.inl (h.opAt hop))
      obtain rfl := hmatched'.unique hmatched
      rw [hresult] at hf
      have hvoid : f.returnType = .void := by simpa using hf.symm
      refine ⟨f, S.sp, hcalls, fun _ => ⟨h.opAt hop, hsp, fun hlevel m'' hm'' => ?_⟩,
        fun hne => absurd hvoid hne⟩
      -- the caller is not the code that starts the program, for there is a call below it
      have hcaller : ¬S.home.routine.isEntry := by
        rw [← hhome]
        have hchain := hknown.inv.chain
        generalize m₀.level i' = ℓ at hhistory hlevel
        cases hhistory with
        | nil => exact absurd rfl hlevel
        | cons =>
          cases hchain with
          | call hK => exact hK
      obtain ⟨hop', hw⟩ := hzero.resolve_left hcaller
      obtain ⟨m₁, hm₁, hstep⟩ := Machine.step_of_after hm''
      cases hm₁.symm.trans hm'
      rw [Machine.sp_of_push hknown.inv.shows hop' hw hstep, hsp]
    | @retValue S hop hresult hhome hL hsp =>
      subst hL
      obtain ⟨i', f, hmatched', hcalls, hf, -⟩ := h.caller (.inr (h.opAt hop))
      cases hmatched'.unique hmatched
      rw [hresult] at hf
      exact ⟨f, S.sp, hcalls, fun hvoid => absurd hvoid (of_decide_eq_true hf.symm),
        fun _ => .inl ⟨h.opAt hop, hsp⟩⟩
  · obtain ⟨i', f, hmatched', hcalls, hf, -⟩ := h.caller (.inl hop)
    cases hmatched'.unique hmatched
    rw [hresult] at hf
    exact ⟨f, S.sp, hcalls, fun hvoid => absurd hvoid (of_decide_eq_true hf.symm),
      fun _ => .inr ⟨hop, hsp, hlenient⟩⟩

end

/-! ## Programs -/

/-- Calls in a program without element accesses, as long as no function with a result has returned
without one.  A call takes the address of the function and the arguments off the stack.  If the
function has no result, its return leaves nothing, and then a zero is put there.  If it has one, the
return leaves one value if it is one with a value, and otherwise nothing, which cannot happen if the
functions with results return on all paths. -/
theorem call_height {source : String} {p : Program} {g : Generated}
    (hp : analyzeSource source = .ok p) (hg : compileSource source = .ok g)
    (helem : p.elementless = true) :
    ∃ env is, p.Assembled g env is ∧ ∀ (input : Bytes) (config : MachineConfig) (start : Machine),
      g.code.size + config.stackCells < 0x1000000000000000 →
      start.Reused g.code g.strings input config →
      let m₀ := start.reset
      ∀ i j m, m₀.Matched i j → m₀.after (j + 1) = some m →
        (p.returnsEverywhere = true ∨ ∀ t < j, ¬m₀.Drops p env t) →
        ∃ f h, m₀.Calls p env i f h ∧
          (f.returnType = .void → m₀.opAt j = some .ret ∧ m.sp = h ∧
            (m₀.level i ≠ 0 → ∀ m', m₀.after (j + 2) = some m' → m'.sp = h + 1)) ∧
          (f.returnType ≠ .void → m₀.opAt j = some .retValue ∧ m.sp = h + 1 ∨
            m₀.opAt j = some .ret ∧ m.sp = h ∧ p.returnsEverywhere = false) := by
  obtain ⟨env, is, hall⟩ := assembled_of_compileSource hp hg
  refine ⟨env, is, hall, fun input config start hsize hload i j m hmatched hm hnone => ?_⟩
  obtain ⟨Δ, R, hΔ, hR, hstart, hentry, hparams, hflow⟩ := hall.routines
    (checked_of_analyzeSource hp) helem (p.returnsEverywhere = false) fun v hv => by
      cases hret : p.returnsEverywhere with
      | false => exact .inr (.inr rfl)
      | true =>
        have := List.all_eq_true.mp hret v hv
        simp only [Bool.or_eq_true, decide_eq_true_eq] at this
        exact this.imp_right .inl
  let X : Layout := ⟨g.code, g.code.size + config.stackCells, env, Δ⟩
  have hX : X.Valid p (p.returnsEverywhere = false) := ⟨hΔ, by simp only [X]; omega⟩
  have hfirst : Known X p start.reset 0 start.reset (R.first g.code) [] :=
    ⟨rfl, Inv.start hR hstart hentry hparams hflow hload.shows, .nil⟩
  obtain ⟨m₁, hm₁, -⟩ := Machine.step_of_after hm
  obtain ⟨F, L, hknown⟩ := known_after hX hfirst j hm₁ (hnone.imp_left fun h => by simp [h])
  exact hknown.height hX hmatched hm

/-- A function that has a result comes to its end without one: its call leaves nothing on the
stack. -/
theorem call_height_dropped :
    ∃ source p g env i j m f h, analyzeSource source = .ok p ∧ compileSource source = .ok g ∧
      p.elementless = true ∧
      let m₀ := Machine.load g.code g.strings [] ⟨100, none, 0⟩
      m₀.Matched i j ∧ m₀.after (j + 1) = some m ∧ m₀.Calls p env i f h ∧ f.returnType ≠ .void ∧
        m.sp = h := by
  let source := "int f(int x) \x7b if (x > 0) \x7b return 1; \x7d \x7d " ++
    "int main() \x7b int a = 7; f(0); print(1); return a; \x7d"
  have hall : ((analyzeSource source).toOption.any fun p => p.elementless &&
      (p.tree.functions.all fun f => decide (f.returnType ≠ .void)) &&
      (compileSource source).toOption.any fun g => decide (g.code.size < 100) &&
        let m := Machine.load g.code g.strings [] ⟨100, none, 0⟩
        decide (m.opAt 7 = some .call) && decide (m.opAt 12 = some .ret) &&
          decide (m.level 12 = m.level 8) && (m.after 13).isSome &&
          ((List.range 13).all fun t => decide (7 < t → m.level 8 ≤ m.level t)) &&
          (List.range 12).all fun t => decide (m.opAt t ≠ some .ret)) = true := by decide +kernel
  simp only [any_toOption_iff, Bool.and_eq_true, decide_eq_true_eq, List.all_eq_true,
    List.mem_range, Array.all_eq_true', Option.isSome_iff_exists] at hall
  obtain ⟨p, hp, ⟨helem, hresults⟩, g, hg, hsize, ⟨⟨⟨⟨hcall, hret⟩, hlevel⟩, m, hm⟩, habove⟩,
      hfirst⟩ :=
    hall
  obtain ⟨env, is, -, hheight⟩ := call_height hp hg helem
  have hmatched : (Machine.load g.code g.strings [] ⟨100, none, 0⟩).Matched 7 12 :=
    ⟨by decide, hcall, .inl hret, hlevel, fun t ht hle => habove t (Nat.lt_succ_of_le hle) ht⟩
  obtain ⟨f, h, hcalls, -, hsome⟩ := hheight [] ⟨100, none, 0⟩ _ (by simp only; omega) .load 7 12
    m hmatched hm (.inr fun t ht hdrop => hfirst t ht hdrop.1)
  have hf : f.returnType ≠ .void := by
    obtain ⟨id, hid, -⟩ := hcalls.target
    exact hresults f (Array.mem_of_getElem? hid)
  refine ⟨source, p, g, env, 7, 12, m, f, h, hp, hg, helem, hmatched, hm, hcalls, hf, ?_⟩
  rcases hsome hf with ⟨hvalue, -⟩ | ⟨-, hsp, -⟩
  · cases hvalue.symm.trans hret
  · exact hsp

end StackLang
