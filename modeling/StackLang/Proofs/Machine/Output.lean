import StackLang.Proofs.Machine.Pieces

/-!
# Earlier output

What a machine does does not depend on what it has written before.

* `Machine.preceded` — a machine that had written something more before.
* `Machine.Oblivious` — a piece of execution that does the same on such a machine.
* `Machine.oblivious_run` — runs do.
-/

namespace StackLang.Machine

/-- The machine, had it written something more before. -/
def preceded (s : String) (m : Machine) : Machine :=
  { m with output := s ++ m.output }

variable {α β : Type}

/-- The piece of execution does the same, whatever was written before. -/
def Oblivious (x : Exec α) : Prop :=
  ∀ s m, x (preceded s m) =
    match x m with
    | .ok a n => .ok a (preceded s n)
    | .error e n => .error e (preceded s n)

theorem Oblivious.pure (a : α) : Oblivious (pure a : Exec α) :=
  fun _ _ => rfl

theorem Oblivious.throw (e : Fault) : Oblivious (throw e : Exec α) :=
  fun _ _ => rfl

theorem Oblivious.bind {x : Exec α} {f : α → Exec β} (hx : Oblivious x)
    (hf : ∀ a, Oblivious (f a)) : Oblivious (x >>= f) := by
  intro s m
  have hrun := hx s m
  cases hxm : x m with
  | error e n =>
    rw [hxm] at hrun
    rw [bind_of_error hrun, bind_of_error hxm]
  | ok a n =>
    rw [hxm] at hrun
    rw [bind_of_ok hrun, bind_of_ok hxm]
    exact hf a s n

/-- Execution that fails at once unless a condition holds. -/
theorem Oblivious.guarded {x y : Exec α} {c : Machine → Prop} [DecidablePred c]
    {e : Machine → Fault} (hx : ∀ m, x m = if c m then y m else .error (e m) m)
    (hc : ∀ s m, c (preceded s m) ↔ c m) (he : ∀ s m, e (preceded s m) = e m) (hy : Oblivious y) :
    Oblivious x := by
  intro s m
  rw [hx, hx]
  by_cases hm : c m
  · rw [if_pos hm, if_pos ((hc s m).mpr hm)]
    exact hy s m
  · rw [if_neg hm, if_neg fun h => hm ((hc s m).mp h), he]

theorem preceded_erased (m : Machine) (s : String) :
    preceded s { m with output := "" } = { m with output := s } := by
  simp only [preceded, String.append_empty]

/-- What is written is added to whatever was written before. -/
theorem Oblivious.ok {x : Exec α} (hx : Oblivious x) {m n : Machine} {a : α} (h : x m = .ok a n)
    (s : String) : ∃ text, n.output = m.output ++ text ∧
      x { m with output := s } = .ok a { n with output := s ++ text } := by
  -- both runs are compared with the one on a machine that has written nothing
  have hm := hx m.output { m with output := "" }
  have hs := hx s { m with output := "" }
  rw [preceded_erased] at hm hs
  rw [hs]
  cases hrun : x { m with output := "" } with
  | ok b k =>
    rw [hrun] at hm
    cases h.symm.trans hm
    exact ⟨k.output, rfl, rfl⟩
  | error e k =>
    rw [hrun] at hm
    cases h.symm.trans hm

theorem Oblivious.error {x : Exec α} (hx : Oblivious x) {m n : Machine} {e : Fault}
    (h : x m = .error e n) (s : String) : ∃ text, n.output = m.output ++ text ∧
      x { m with output := s } = .error e { n with output := s ++ text } := by
  have hm := hx m.output { m with output := "" }
  have hs := hx s { m with output := "" }
  rw [preceded_erased] at hm hs
  rw [hs]
  cases hrun : x { m with output := "" } with
  | ok b k =>
    rw [hrun] at hm
    cases h.symm.trans hm
  | error e k =>
    rw [hrun] at hm
    cases h.symm.trans hm
    exact ⟨k.output, rfl, rfl⟩

/-! ## Pieces of execution -/

theorem oblivious_push (w : Word) : Oblivious (push w) :=
  .guarded (fun _ => rfl) (fun _ _ => .rfl) (fun _ _ => rfl) fun _ _ => rfl

theorem oblivious_pop : Oblivious pop :=
  .guarded (fun _ => rfl) (fun _ _ => .rfl) (fun _ _ => rfl) fun _ _ => rfl

theorem oblivious_fetch : Oblivious fetch :=
  .guarded (fun _ => rfl) (fun _ _ => .rfl) (fun _ _ => rfl) fun _ _ => rfl

theorem oblivious_jump (w : Word) : Oblivious (jump w) := by
  intro s m
  unfold jump
  cases w.toIndex? with
  | none => rfl
  | some t =>
    by_cases ht : t < m.codeLen
    · simp only [preceded, ht, if_true]
    · simp only [preceded, ht, if_false, fault]

theorem oblivious_write (text : String) : Oblivious (write text) := by
  intro s m
  simp only [write, preceded, String.append_assoc]

theorem oblivious_readCell (a : Nat) : Oblivious (readCell a) :=
  fun _ _ => rfl

theorem oblivious_writeCell (a : Nat) (w : Word) : Oblivious (writeCell a w) :=
  fun _ _ => rfl

theorem oblivious_stackAddress (a : Int) : Oblivious (stackAddress a) :=
  .guarded (y := fun m => .ok a.toNat m) (fun _ => rfl) (fun _ _ => .rfl) (fun _ _ => rfl)
    fun _ _ => rfl

theorem oblivious_frameAddress (w : Word) : Oblivious (frameAddress w) :=
  .guarded (fun _ => rfl) (fun _ _ => .rfl) (fun _ _ => rfl) fun s m => oblivious_stackAddress _ s m

theorem oblivious_targetCell (w : Word) : Oblivious (targetCell w) :=
  .guarded (fun _ => rfl) (fun _ _ => .rfl) (fun _ _ => rfl) fun s m => oblivious_stackAddress _ s m

theorem oblivious_alloc (w : Word) : Oblivious (alloc w) :=
  .guarded (fun _ => rfl) (fun _ _ => .rfl) (fun _ _ => rfl)
    (.guarded (fun _ => rfl) (fun _ _ => .rfl) (fun _ _ => rfl) fun _ _ => rfl)

theorem oblivious_setSp (w : Word) : Oblivious (setSp w) :=
  .guarded (fun _ => rfl) (fun _ _ => .rfl) (fun _ _ => rfl) fun _ _ => rfl

theorem oblivious_setBp (w : Word) : Oblivious (setBp w) :=
  .guarded (fun _ => rfl) (fun _ _ => .rfl) (fun _ _ => rfl) fun _ _ => rfl

theorem oblivious_getIp : Oblivious getIp :=
  fun _ _ => rfl

theorem oblivious_getBp : Oblivious getBp :=
  fun _ _ => rfl

theorem oblivious_enterFrame : Oblivious enterFrame :=
  fun _ _ => rfl

theorem oblivious_random (w : Word) : Oblivious (random w) :=
  fun _ _ => rfl

theorem oblivious_stringOf (here : Nat) (w : Word) : Oblivious (stringOf here w) := by
  intro s m
  show stringOf here w { m with output := s ++ m.output } = _
  unfold stringOf
  cases m.strings.get? w with
  | none => rfl
  | some text => rfl

theorem oblivious_readLine : Oblivious readLine := by
  intro s m
  unfold readLine
  by_cases hline : (takeLine m.input).1.isEmpty = true
  · simp only [preceded, hline, if_true]
  · simp only [preceded, hline]
    cases Text.ofUtf8? (takeLine m.input).1 with
    | none => rfl
    | some line => rfl

theorem oblivious_readString : Oblivious readString :=
  oblivious_readLine.bind fun _ _ _ => rfl

theorem oblivious_pieces : AllPieces fun _ x => Oblivious x where
  bind := .bind
  pure := .pure
  throw := .throw
  push := oblivious_push
  pop := oblivious_pop
  fetch := oblivious_fetch
  readCell := oblivious_readCell
  writeCell := oblivious_writeCell
  frameAddress := oblivious_frameAddress
  alloc := oblivious_alloc
  jump := oblivious_jump
  write := oblivious_write
  random := oblivious_random
  stringOf := oblivious_stringOf
  readLine := oblivious_readLine
  readString := oblivious_readString
  getIp := oblivious_getIp
  getBp := oblivious_getBp
  targetCell := oblivious_targetCell
  enterFrame := oblivious_enterFrame
  setSp := oblivious_setSp
  setBp := oblivious_setBp
  status _ _ := rfl
  reset _ _ := rfl

/-- A run does the same, whatever was written before. -/
theorem oblivious_run (maxSteps : Option Nat) : Oblivious (run maxSteps) :=
  oblivious_pieces.run maxSteps

end StackLang.Machine
