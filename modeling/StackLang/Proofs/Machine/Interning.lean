import StackLang.Compile
import StackLang.Proofs.Code.Building
import StackLang.Proofs.Code.StringKeys
import StackLang.Proofs.Machine.Saving
import StackLang.Proofs.Machine.Watched

/-!
# Strings in a run

A machine begins with the strings of its code and adds those that it reads.  Nothing else is done to
its strings, by no operation, in no order, and also if it fails.  So the keys of a compiled program
identify strings throughout its runs, and its comparisons of keys are comparisons of strings.

* `Machine.Interns` — a piece of execution that only adds strings.
* `Machine.Interns.pieces` — steps and runs do.
* `Machine.Reused.exists_addAll` — the strings of a machine that has run.
* `Machine.step_of_binary?` — what a binary operation does to the stack.
-/

namespace StackLang

variable {input : Bytes} {config : MachineConfig} {g : Generated} {i : Image}

namespace Machine

variable {α β : Type} {m m' : Machine} {op : Op} {code : Array Word} {cells n : Nat}

/-! ## Pieces of execution -/

/-- The strings of `m'` are those of `m` and some that were added. -/
def Adds (m m' : Machine) : Prop :=
  ∃ lines, m'.strings = m.strings.addAll lines

theorem Adds.of_eq (h : m'.strings = m.strings) : Adds m m' :=
  ⟨[], h⟩

theorem Adds.trans {m'' : Machine} (h : Adds m m') (h' : Adds m' m'') : Adds m m'' := by
  obtain ⟨lines, hlines⟩ := h
  obtain ⟨lines', hlines'⟩ := h'
  exact ⟨lines ++ lines', by rw [hlines', hlines, StringPool.addAll_append]⟩

/-- The piece of execution only adds strings, also if it fails. -/
def Interns (x : Exec α) : Prop :=
  ∀ m, match x m with
    | .ok _ m' => Adds m m'
    | .error _ m' => Adds m m'

namespace Interns

theorem bind {x : Exec α} {f : α → Exec β} (hx : Interns x) (hf : ∀ a, Interns (f a)) :
    Interns (x >>= f) := by
  intro m
  have hrun := hx m
  cases hxm : x m with
  | error e m' =>
    rw [hxm] at hrun
    rw [bind_of_error hxm]
    exact hrun
  | ok a m' =>
    rw [hxm] at hrun
    rw [bind_of_ok hxm]
    have hrest := hf a m'
    cases hfm : f a m' with
    | error e m'' | ok b m'' =>
      rw [hfm] at hrest
      exact hrun.trans hrest

theorem pure (a : α) : Interns (pure a : Exec α) :=
  fun _ => .of_eq rfl

theorem throw (e : Fault) : Interns (throw e : Exec α) :=
  fun _ => .of_eq rfl

/-- Execution that fails at once unless a condition holds. -/
theorem guarded {x y : Exec α} {c : Machine → Prop} [DecidablePred c] {e : Machine → Fault}
    (hx : ∀ m, x m = if c m then y m else .error (e m) m) (hy : Interns y) : Interns x := by
  intro m
  rw [hx]
  by_cases hc : c m
  · rw [if_pos hc]
    exact hy m
  · rw [if_neg hc]
    exact .of_eq rfl

/-- Execution that does not fail and leaves the strings alone. -/
theorem of_eq {x : Exec α} {a : Machine → α} {n : Machine → Machine}
    (hx : ∀ m, x m = .ok (a m) (n m)) (hn : ∀ m, (n m).strings = m.strings) : Interns x := by
  intro m
  rw [hx]
  exact .of_eq (hn m)

/-! ### Cells and registers -/

theorem push (w : Word) : Interns (push w) :=
  guarded (fun _ => rfl) (of_eq (fun _ => rfl) fun _ => rfl)

theorem pop : Interns pop :=
  guarded (fun _ => rfl) (of_eq (fun _ => rfl) fun _ => rfl)

theorem fetch : Interns fetch :=
  guarded (fun _ => rfl) (of_eq (fun _ => rfl) fun _ => rfl)

theorem readCell (a : Nat) : Interns (readCell a) :=
  of_eq (fun _ => rfl) fun _ => rfl

theorem writeCell (a : Nat) (w : Word) : Interns (writeCell a w) :=
  of_eq (fun _ => rfl) fun _ => rfl

theorem stackAddress (a : Int) : Interns (stackAddress a) :=
  guarded (y := fun m => .ok a.toNat m) (fun _ => rfl) (of_eq (fun _ => rfl) fun _ => rfl)

theorem frameAddress (w : Word) : Interns (frameAddress w) :=
  guarded (fun _ => rfl) fun m => stackAddress _ m

theorem targetCell (w : Word) : Interns (targetCell w) :=
  guarded (fun _ => rfl) fun m => stackAddress _ m

theorem alloc (w : Word) : Interns (alloc w) :=
  guarded (fun _ => rfl) (guarded (fun _ => rfl) (of_eq (fun _ => rfl) fun _ => rfl))

theorem setSp (w : Word) : Interns (setSp w) :=
  guarded (fun _ => rfl) (of_eq (fun _ => rfl) fun _ => rfl)

theorem setBp (w : Word) : Interns (setBp w) :=
  guarded (fun _ => rfl) (of_eq (fun _ => rfl) fun _ => rfl)

theorem jump (w : Word) : Interns (jump w) := by
  intro m
  unfold Machine.jump
  cases w.toIndex? with
  | none => exact .of_eq rfl
  | some t =>
    by_cases ht : t < m.codeLen
    · simp only [if_pos ht]
      exact .of_eq rfl
    · simp only [if_neg ht]
      exact .of_eq rfl

/-! ### Input and output -/

theorem write (s : String) : Interns (write s) :=
  of_eq (fun _ => rfl) fun _ => rfl

theorem random (w : Word) : Interns (random w) :=
  of_eq (fun _ => rfl) fun _ => rfl

theorem stringOf (here : Nat) (w : Word) : Interns (stringOf here w) := by
  intro m
  unfold Machine.stringOf
  cases m.strings.get? w with
  | none | some s => exact .of_eq rfl

theorem readLine : Interns readLine := by
  intro m
  unfold Machine.readLine
  by_cases hline : (takeLine m.input).1.isEmpty = true
  · simp only [if_pos hline]
    exact .of_eq rfl
  · simp only [if_neg hline]
    cases Text.ofUtf8? (takeLine m.input).1 with
    | none | some s => exact .of_eq rfl

/-- The one piece of execution that adds a string. -/
theorem readString : Interns readString :=
  readLine.bind fun line _ => ⟨[line], rfl⟩

theorem pieces : AllPieces fun _ x => Interns x where
  bind := bind
  pure := pure
  throw := throw
  push := push
  pop := pop
  fetch := fetch
  readCell := readCell
  writeCell := writeCell
  frameAddress := frameAddress
  alloc := alloc
  jump := jump
  write := write
  random := random
  stringOf := stringOf
  readLine := readLine
  readString := readString
  getIp := of_eq (fun _ => rfl) fun _ => rfl
  getBp := of_eq (fun _ => rfl) fun _ => rfl
  targetCell := targetCell
  enterFrame := of_eq (fun _ => rfl) fun _ => rfl
  setSp := setSp
  setBp := setBp
  status := of_eq (fun _ => rfl) fun _ => rfl
  reset := of_eq (fun _ => rfl) fun _ => rfl

end Interns

/-! ## Steps and runs -/

theorem adds_after (h : m.after n = some m') : Adds m m' := by
  induction n generalizing m' with
  | zero =>
    cases h
    exact .of_eq rfl
  | succ n ih =>
    obtain ⟨m₁, h₁, hstep⟩ := step_of_after h
    have hadds := Interns.pieces.step m₁
    rw [hstep] at hadds
    exact (ih h₁).trans hadds

/-- The strings of a machine that has run are those it was loaded with and some that were added. -/
theorem Reused.exists_addAll {strings : StringPool} (h : Reused code strings input config m) :
    ∃ lines, m.strings = strings.addAll lines := by
  have hadds : Adds (Machine.load code strings input config) m := by
    induction h with
    | load => exact .of_eq rfl
    | @ended m m' maxSteps _ _ hrun ih | @failed m m' maxSteps _ _ hrun ih =>
      have hadds := Interns.pieces.run maxSteps m
      rw [hrun] at hadds
      exact ih.trans hadds
  exact hadds

/-! ## Comparing keys -/

/-- The words `a` and `b` are on top of the stack, `b` above `a`. -/
structure Tops (m : Machine) (a b : Word) : Prop where
  depth : m.codeLen + 2 ≤ m.sp
  below : m.cell (m.sp - 2) = a
  top : m.cell (m.sp - 1) = b

/-- The machine behind an operation of one word that has put a word in place of the two on top. -/
def replaced (m : Machine) (w : Word) : Machine :=
  { m with ip := m.ip + 1, sp := m.sp - 1, mem := m.mem.setIfInBounds (m.sp - 2) w }

/-- A binary operation replaces the two words on top by its result. -/
theorem step_of_binary? {f : Word → Word → Word} {a b : Word} (hm : Intact code cells m)
    (hop : m.nextOp? = some op) (hf : op.binary? = some f) (h : m.Tops a b) :
    step m = .ok none (m.replaced (f a b)) := by
  have hsp := hm.sp
  have hdepth := h.depth
  have hexit : conclude op = Pure.pure none := by
    refine if_neg ?_
    rintro rfl
    cases hf
  have hpop : pop { m with ip := m.ip + 1 } = .ok b { m with ip := m.ip + 1, sp := m.sp - 1 } := by
    rw [← h.top]
    exact pop_of_lt (show m.codeLen < m.sp by omega)
  have hpop' : pop { m with ip := m.ip + 1, sp := m.sp - 1 } =
      .ok a { m with ip := m.ip + 1, sp := m.sp - 2 } := by
    rw [← h.below]
    exact pop_of_lt (show m.codeLen < m.sp - 1 by omega)
  have hpush : push (f a b) { m with ip := m.ip + 1, sp := m.sp - 2 } =
      .ok () (m.replaced (f a b)) := by
    rw [push, if_pos (show m.sp - 2 < m.mem.size by omega), replaced]
    show EStateM.Result.ok () { m with
      ip := m.ip + 1, mem := m.mem.setIfInBounds (m.sp - 2) (f a b), sp := m.sp - 2 + 1 } = _
    rw [show m.sp - 2 + 1 = m.sp - 1 by omega]
  rw [(step_of_nextOp? hop).2, execute_binary hf, hexit]
  exact bind_of_ok ((bind_of_ok hpop).trans ((bind_of_ok hpop').trans hpush))

/-- If no string is there twice, comparing two keys compares their strings. -/
theorem step_eq_of_get? {a b : Word} {s t : String} (hm : Intact code cells m)
    (hn : m.strings.toList.Nodup) (hop : m.nextOp? = some .eq) (h : m.Tops a b)
    (ha : m.strings.get? a = some s) (hb : m.strings.get? b = some t) :
    step m = .ok none (m.replaced (Word.ofBool (decide (s = t)))) := by
  have hkeys : (a == b) = decide (s = t) := by
    rw [← decide_eq_decide.mpr (StringPool.eq_iff_of_get? hn ha hb)]
    exact beq_eq_decide a b
  rw [step_of_binary? hm hop rfl h, hkeys]

end Machine

/-! ## Programs -/

/-- The image of the code, as it is made or as it is read from its bytes, whatever follows them. -/
inductive Generated.Loads (g : Generated) : Image → Prop where
  | made : Loads g ⟨g.code, g.strings, g.symbols⟩
  | read {tail : Bytes} {i : Image} (hfits : Image.Fits ⟨g.code, g.strings, g.symbols⟩)
    (hread : Image.ofBytes (Image.toBytes ⟨g.code, g.strings, g.symbols⟩ ++ tail) = .ok i) :
    Loads g i

theorem Generated.Loads.strings_eq (h : g.Loads i) (hg : g.strings.Grown) :
    i.strings = g.strings := by
  cases h with
  | made => rfl
  | @read tail i hfits hread =>
    obtain ⟨j, rest, hj, -, rfl⟩ := Image.read_of_ofBytes hread
    rw [Image.read_toBytes hfits] at hj
    cases hj
    exact hg.reindex_eq

/-- The strings of a machine that runs the code of a program: those in the program, and some that
were added. -/
theorem Generated.Loads.exists_becomes {p : Program} (h : g.Loads i) (hg : p.generate = .ok g)
    {start m : Machine} {n : Nat} (hstart : start.Reused i.code i.strings input config)
    (hm : start.reset.after n = some m) :
    ∃ first added, (StringPool.ofList first).Becomes added m.strings := by
  obtain ⟨first, hfirst⟩ := Program.exists_ofList hg
  have hloaded := h.strings_eq (hfirst ▸ .ofList first)
  obtain ⟨lines, hlines⟩ := hstart.exists_addAll
  obtain ⟨lines', hlines'⟩ := Machine.adds_after hm
  refine ⟨first, lines ++ lines', ?_⟩
  have hstrings : m.strings = (StringPool.ofList first).addAll (lines ++ lines') := by
    rw [hlines', StringPool.addAll_append, ← hfirst, ← hloaded, ← hlines]
    rfl
  rw [hstrings]
  exact StringPool.becomes_addAll _ _

namespace StringPool

/-- Pools that are made from strings or read with an image, and what becomes of them. -/
inductive Arises : StringPool → Prop where
  | ofList {first added : List String} {p : StringPool} (h : (ofList first).Becomes added p) :
    Arises p
  | ofBytes {bytes : Bytes} {i : Image} {added : List String} {p : StringPool}
    (hread : Image.ofBytes bytes = .ok i) (h : i.strings.Becomes added p) : Arises p

theorem Arises.grown {p : StringPool} (h : p.Arises) : p.Grown := by
  cases h with
  | ofList h => exact (Grown.ofList _).of_becomes h
  | ofBytes hread h =>
    obtain ⟨j, rest, -, -, rfl⟩ := Image.read_of_ofBytes hread
    exact Grown.of_becomes (.reindex _) h

end StringPool

open Machine StringPool in
/-- Keys identify strings.  A pool that is made from strings has each of them once, in the order in
which they were first seen, and their keys are their places.  In every pool, also in one that was
read with strings that are there twice, a key stands for the same string ever after, the key that a
string gets stands for it, strings get the same key only if they are the same, and a string that is
there gets the last of its keys.  A machine that runs the code of a program, also if that was
written and read, has a pool of the first kind at any time, so it compares strings when it compares
keys. -/
theorem keys_identify_strings :
    (∀ (first added : List String) (p : StringPool), (ofList first).Becomes added p →
      p.toList = (first ++ added).eraseDups ∧ p.toList.Nodup ∧
      (∀ w s, p.get? w = some s ↔ ∃ k, w.toIndex? = some k ∧ p.toList[k]? = some s) ∧
      ∀ s, (p.intern s).1 = Word.ofNat ((p.intern s).2.toList.idxOf s)) ∧
    (∀ p : StringPool, p.Arises →
      (Image.CountedList Image.CountedText p.toList → p.reload = .ok p) ∧
      (∀ added q w s, p.Becomes added q → p.get? w = some s → q.get? w = some s) ∧
      (∀ s, p.size < 0x8000000000000000 → (p.intern s).2.get? (p.intern s).1 = some s) ∧
      (∀ s t added q, (p.intern s).2.Becomes added q → q.size < 0x8000000000000000 →
        ((q.intern t).1 = (p.intern s).1 ↔ t = s)) ∧
      ∀ s k, p.toList[k]? = some s → (∀ j, k < j → p.toList[j]? ≠ some s) →
        p.intern s = (Word.ofNat k, p)) ∧
    ∀ (c : Program) (g : Generated) (i : Image), c.generate = .ok g → g.Loads i →
      ∀ (input : Bytes) (config : MachineConfig) (start : Machine) (n : Nat) (m : Machine),
        start.Reused i.code i.strings input config → start.reset.after n = some m →
        (∃ first added, (ofList first).Becomes added m.strings) ∧
        ∀ a b s t, m.nextOp? = some .eq → m.Tops a b → m.strings.get? a = some s →
          m.strings.get? b = some t →
            step m = .ok none (m.replaced (Word.ofBool (decide (s = t)))) := by
  refine ⟨?_, ?_, ?_⟩
  · intro first added p h
    obtain ⟨hlist, hnodup⟩ := toList_of_becomes h
    have hp := (Grown.ofList first).of_becomes h
    exact ⟨hlist, hnodup, fun w s => get?_eq_some_iff, hp.intern_eq_idxOf hnodup⟩
  · intro p h
    have hp := h.grown
    refine ⟨fun hfits => ?_, fun added q w s hq => hp.get?_of_becomes hq,
      fun s hsize => hp.get?_intern hsize .refl, fun s t added q hq => hp.intern_eq_iff hq,
      fun s k => hp.intern_of_last⟩
    rw [reload_eq hfits, hp.reindex_eq]
  · intro c g i hg hi input config start n m hstart hm
    obtain ⟨first, added, hstrings⟩ := hi.exists_becomes hg hstart hm
    refine ⟨⟨first, added, hstrings⟩, fun a b s t hop htops => ?_⟩
    exact step_eq_of_get? (hstart.intact.reset.after hm) (toList_of_becomes hstrings).2 hop htops

/-- A program that reads two lines and compares them. -/
def lineComparer : String :=
  "int main() \x7b string s = \"no\"; string t = \"\"; input(s); input(t); " ++
    "if (s == t) \x7b return 1; \x7d return 0; \x7d"

open Machine in
/-- Both lines are new to the machine, and get the next key. -/
theorem lineComparer_run : ∃ (p : Program) (g : Generated) (m : Machine),
    analyzeSource lineComparer = .ok p ∧ p.generate = .ok g ∧
    Image.Fits ⟨g.code, g.strings, g.symbols⟩ ∧ Code.verify g.code.toList = .ok () ∧
    (load g.code g.strings [110, 10, 110, 10] ⟨60, none, 0⟩).reset.after 13 = some m ∧
    m.nextOp? = some .eq ∧ m.Tops 2 2 ∧ g.strings.get? 2 = none ∧ m.strings.get? 2 = some "n" := by
  have hall : ((analyzeSource lineComparer).toOption.any fun p => p.generate.toOption.any fun g =>
      decide (Image.Counted g.code.size ∧ Image.CountedList Image.CountedText g.strings.toList ∧
        Image.CountedList Image.CountedSymbol g.symbols ∧ Code.verify g.code.toList = .ok () ∧
        g.strings.get? 2 = none) &&
      ((load g.code g.strings [110, 10, 110, 10] ⟨60, none, 0⟩).reset.after 13).any fun m =>
        decide (m.nextOp? = some .eq ∧ m.codeLen + 2 ≤ m.sp ∧ m.cell (m.sp - 2) = 2 ∧
          m.cell (m.sp - 1) = 2 ∧ m.strings.get? 2 = some "n")) = true := by
    decide +kernel
  obtain ⟨p, hp, hall⟩ := any_toOption_iff.mp hall
  obtain ⟨g, hg, hall⟩ := any_toOption_iff.mp hall
  simp only [Bool.and_eq_true, Option.any_eq_true, decide_eq_true_eq] at hall
  obtain ⟨⟨hcode, hstrings, hsymbols, hverify, hnone⟩, m, hm, hop, hdepth, ha, hb, hs⟩ := hall
  exact ⟨p, g, m, hp, hg, ⟨hcode, hstrings, hsymbols⟩, hverify, hm, hop, ⟨hdepth, ha, hb⟩,
    hnone, hs⟩

open Machine StringPool in
/-- A pool that is written and read in between, a pool that was read with a string that is there
twice, and the program, whose code is written and read before it runs. -/
theorem keys_identify_strings_reread :
    (∃ q r p, q = ((ofList ["b", "a"]).intern "b").2 ∧ q.reload = .ok r ∧ p = (r.intern "c").2 ∧
      p.toList = ["b", "a", "c"] ∧ (p.intern "a").1 = 1) ∧
    (∃ i, Image.ofBytes Image.loose = .ok i ∧ i.strings.intern "é" = (1, i.strings) ∧
      i.strings.get? 0 = some "é" ∧ (i.strings.intern "e").2.get? 0 = some "é" ∧
      (i.strings.intern "e").2.get? (i.strings.intern "e").1 = some "e" ∧
      ((i.strings.intern "e").2.intern "é").1 ≠ (i.strings.intern "e").1) ∧
    ∃ p g i m, analyzeSource lineComparer = .ok p ∧ p.generate = .ok g ∧
      Image.ofBytes (Image.toBytes ⟨g.code, g.strings, g.symbols⟩ ++ [7]) = .ok i ∧
      (load i.code i.strings [110, 10, 110, 10] ⟨60, none, 0⟩).reset.after 13 = some m ∧
      m.nextOp? = some .eq ∧ m.Tops 2 2 ∧ m.strings.get? 2 = some "n" ∧
      step m = .ok none (m.replaced 1) := by
  refine ⟨?_, ?_, ?_⟩
  · have hfits : Image.CountedList Image.CountedText ((ofList ["b", "a"]).intern "b").2.toList := by
      decide +kernel
    have hreload := reload_eq hfits
    have hbecomes := ((Becomes.refl.intern "b").reload hfits hreload).intern "c"
    obtain ⟨hlist, -, -, hintern⟩ := keys_identify_strings.1 ["b", "a"] ["b", "c"] _ hbecomes
    exact ⟨_, _, _, rfl, hreload, rfl, hlist.trans (by decide), (hintern "a").trans (by decide)⟩
  · have hread : Image.ofBytes Image.loose =
        .ok ⟨#[Op.exit.word], ⟨#["é", "é"], [("é", 1), ("é", 0)]⟩, []⟩ := by
      rfl
    obtain ⟨-, hstable, hget, hiff, hlast⟩ := keys_identify_strings.2.1 _ (.ofBytes hread .refl)
    refine ⟨_, hread, hlast "é" 1 rfl ?_, rfl, ?_, hget "e" (by decide), ?_⟩
    · intro j hj
      rw [List.getElem?_eq_none (show 2 ≤ j from hj)]
      exact (Option.some_ne_none "é").symm
    · exact hstable ["e"] _ 0 "é" (Becomes.refl.intern "e") rfl
    · intro heq
      exact absurd ((hiff "e" "é" [] _ .refl (by decide)).mp heq) (by decide)
  · obtain ⟨p, g, m, hp, hg, hfits, hverify, hm, hop, htops, -, hs⟩ := lineComparer_run
    obtain ⟨first, hfirst⟩ := Program.exists_ofList hg
    have hread := Image.ofBytes_of_fits hfits hverify (by
      show g.strings.reindex = g.strings
      rw [hfirst, (Grown.ofList first).reindex_eq]) [7]
    have hrun := keys_identify_strings.2.2 p g _ hg (.read hfits hread) [110, 10, 110, 10]
      ⟨60, none, 0⟩ _ 13 m .load hm
    exact ⟨p, g, _, m, hp, hg, hread, hm, hop, htops, hs, hrun.2 2 2 "n" "n" hop htops hs hs⟩

end StackLang
