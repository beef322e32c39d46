import Mathlib.Logic.Function.Basic
import StackLang.Machine.Run

/-!
# Views of the machine

The memory of a running machine is looked at in three parts: the cells below some address, the words
above them up to the top of the stack, and what is left there above the top.  A view knows the first
part as a function, the second as a list, and nothing of the third.

* `Machine.Shows` — a machine that runs some code shows a view.
* `Machine.Yields` — a piece of execution leads from one view to another.
* `Machine.Fails` — a piece of execution ends in a fault.
-/

namespace StackLang

/-- What a program shares with the outside. -/
structure World where
  strings : StringPool
  input : Bytes
  output : String
  rng : UInt64

/-- A machine as it is seen from a running function. -/
structure View where
  ip : Nat
  bp : Nat
  /-- Where the words on the stack begin. -/
  lo : Nat
  /-- The words on the stack, the topmost first. -/
  vs : List Word
  /-- The cells below the words on the stack. -/
  mem : Nat → Word
  world : World

namespace View

/-- The address behind the top of the stack. -/
def sp (V : View) : Nat :=
  V.lo + V.vs.length

end View

/-- The words stand in the memory from `lo` on, the last of the list first. -/
def Stacked (mem : Nat → Word) (lo : Nat) : List Word → Prop
  | [] => True
  | v :: vs => mem (lo + vs.length) = v ∧ Stacked mem lo vs

namespace Stacked

variable {mem mem' : Nat → Word} {lo : Nat} {vs us : List Word}

/-- Words stay on the stack if their cells do not change. -/
theorem congr (h : Stacked mem lo vs) (hm : ∀ a, lo ≤ a → a < lo + vs.length → mem' a = mem a) :
    Stacked mem' lo vs := by
  induction vs with
  | nil => trivial
  | cons v vs ih =>
    obtain ⟨hv, hvs⟩ := h
    refine ⟨?_, ih hvs fun a hlo hhi => hm a hlo ?_⟩
    · rw [hm _ (Nat.le_add_right _ _) (by simp)]
      exact hv
    · rw [List.length_cons]
      omega

theorem append : Stacked mem lo (us ++ vs) ↔
    Stacked mem (lo + vs.length) us ∧ Stacked mem lo vs := by
  induction us with
  | nil => simp [Stacked]
  | cons u us ih =>
    have hlen : lo + (us ++ vs).length = lo + vs.length + us.length := by
      rw [List.length_append]
      omega
    rw [List.cons_append, Stacked, Stacked, ih, hlen, and_assoc]

/-- The words stand in the order in which they were put on the stack. -/
theorem cell_of_reverse (h : Stacked mem lo vs) {i : Nat} {w : Word}
    (hw : vs.reverse[i]? = some w) : mem (lo + i) = w := by
  induction vs with
  | nil => cases hw
  | cons v vs ih =>
    rw [List.reverse_cons, List.getElem?_append] at hw
    split at hw
    · exact ih h.2 hw
    · rename_i hi
      obtain ⟨hlt, rfl⟩ := List.getElem?_eq_some_iff.mp hw
      obtain rfl : i = vs.length := by
        simp only [List.length_reverse, List.length_singleton] at hi hlt
        omega
      simpa using h.1

end Stacked

namespace Machine

variable {w : Word} {vs args : List Word} {m' : Machine} {e : Fault} {k : Nat}

/-- What the machine shares with the outside. -/
def world (m : Machine) : World :=
  ⟨m.strings, m.input, m.output, m.rng⟩

variable {code : Array Word} {M : Nat} {m : Machine} {V V' V'' : View} {α β : Type}

/-- A machine with `M` cells that runs the code shows a view. -/
structure Shows (code : Array Word) (M : Nat) (m : Machine) (V : View) : Prop where
  codeLen : m.codeLen = code.size
  size : m.mem.size = M
  words : ∀ i w, code[i]? = some w → m.cell i = w
  ip : m.ip = V.ip
  bp : m.bp = V.bp
  sp : m.sp = V.sp
  above : code.size ≤ V.lo
  below : V.sp ≤ M
  mem : ∀ a < V.lo, m.cell a = V.mem a
  stack : Stacked m.cell V.lo V.vs
  world : m.world = V.world

/-- From every machine that shows `V`, the piece of execution gives `a` and leads to `V'`. -/
def Yields (code : Array Word) (M : Nat) (x : Exec α) (V : View) (a : α) (V' : View) : Prop :=
  ∀ m, Shows code M m V → ∃ m', x m = .ok a m' ∧ Shows code M m' V'

/-- From every machine that shows `V`, the piece of execution ends in the fault, and writes nothing
before that. -/
def Fails (code : Array Word) (M : Nat) (x : Exec α) (V : View) (e : Fault) : Prop :=
  ∀ m, Shows code M m V → ∃ m', x m = .error e m' ∧ m'.output = V.world.output

theorem bind_of_ok {x : Exec α} {f : α → Exec β} {a : α} (h : x m = .ok a m') :
    (x >>= f) m = f a m' := by
  show EStateM.bind x f m = _
  rw [EStateM.bind, h]

theorem bind_of_error {x : Exec α} {f : α → Exec β} (h : x m = .error e m') :
    (x >>= f) m = .error e m' := by
  show EStateM.bind x f m = _
  rw [EStateM.bind, h]

theorem Yields.pure (a : α) (V : View) : Yields code M (pure a) V a V :=
  fun m h => ⟨m, rfl, h⟩

/-- A view that is shown is one of a stack that fits into the memory. -/
theorem Yields.of_fits {x : Exec α} {a : α}
    (h : code.size ≤ V.lo → V.sp ≤ M → Yields code M x V a V') : Yields code M x V a V' :=
  fun m hm => h hm.above hm.below m hm

theorem Yields.bind {x : Exec α} {f : α → Exec β} {a : α} {b : β} (hx : Yields code M x V a V')
    (hf : Yields code M (f a) V' b V'') : Yields code M (x >>= f) V b V'' := by
  intro m h
  obtain ⟨m₁, hrun, h₁⟩ := hx m h
  obtain ⟨m₂, hrun', h₂⟩ := hf m₁ h₁
  exact ⟨m₂, (bind_of_ok hrun).trans hrun', h₂⟩

theorem Fails.bind {x : Exec α} {f : α → Exec β} (h : Fails code M x V e) :
    Fails code M (x >>= f) V e := by
  intro m hm
  obtain ⟨m', hrun, hout⟩ := h m hm
  exact ⟨m', bind_of_error hrun, hout⟩

theorem Yields.fails {x : Exec α} {f : α → Exec β} {a : α} (hx : Yields code M x V a V')
    (hout : V'.world.output = V.world.output) (hf : Fails code M (f a) V' e) :
    Fails code M (x >>= f) V e := by
  intro m h
  obtain ⟨m₁, hrun, h₁⟩ := hx m h
  obtain ⟨m₂, hrun', hout'⟩ := hf m₁ h₁
  exact ⟨m₂, (bind_of_ok hrun).trans hrun', hout'.trans hout⟩

theorem Shows.output (h : Shows code M m V) : m.output = V.world.output := by
  rw [← h.world]
  rfl

/-! ## The stack -/

theorem cell_setIfInBounds {m : Machine} {a b : Nat} {mem : Array Word}
    (hm : mem = m.mem.setIfInBounds a w) (ha : a < m.mem.size) :
    mem.getD b 0 = if a = b then w else m.cell b := by
  subst hm
  simp only [cell, Array.getD_eq_getD_getElem?, Array.getElem?_setIfInBounds]
  split
  · simp
  · rfl

theorem push_yields (w : Word) (h : V.sp < M) :
    Yields code M (push w) V () { V with vs := w :: V.vs } := by
  intro m hm
  have hlt : m.sp < m.mem.size := by
    rw [hm.sp, hm.size]
    exact h
  have hcell : ∀ b,
      ({ m with mem := m.mem.setIfInBounds m.sp w, sp := m.sp + 1 } : Machine).cell b =
        if m.sp = b then w else m.cell b := fun b => cell_setIfInBounds rfl hlt
  have hlo : V.lo ≤ m.sp := by
    rw [hm.sp]
    exact Nat.le_add_right _ _
  refine ⟨_, by rw [push, if_pos hlt], ?_⟩
  refine ⟨hm.codeLen, ?_, fun i x hi => ?_, hm.ip, hm.bp, ?_, hm.above, ?_, fun a ha => ?_,
    ⟨?_, ?_⟩, hm.world⟩
  · simpa using hm.size
  · have := (Array.getElem?_eq_some_iff.mp hi).1
    have := hm.above
    rw [hcell, if_neg (by omega)]
    exact hm.words i x hi
  · rw [hm.sp]
    rfl
  · exact h
  · simp only at ha
    rw [hcell, if_neg (by omega)]
    exact hm.mem a ha
  · rw [hcell]
    exact if_pos hm.sp
  · refine hm.stack.congr fun a _ ha => ?_
    rw [hcell, if_neg]
    rw [hm.sp]
    exact Nat.ne_of_gt ha

theorem push_fails (w : Word) (h : V.sp = M) : Fails code M (push w) V (.memory V.ip M) := by
  intro m hm
  have hle : ¬m.sp < m.mem.size := by
    rw [hm.sp, hm.size, h]
    exact Nat.lt_irrefl _
  refine ⟨m, ?_, hm.output⟩
  rw [push, if_neg hle, fault, hm.ip, hm.sp, h]

theorem pop_yields {v : Word} (h : V.vs = v :: vs) : Yields code M pop V v { V with vs := vs } := by
  intro m hm
  have hsp : m.sp = V.lo + vs.length + 1 := by
    rw [hm.sp, View.sp, h]
    rfl
  have hlt : m.codeLen < m.sp := by
    have := hm.above
    rw [hm.codeLen, hsp]
    omega
  have hstack := hm.stack
  rw [h] at hstack
  have hv : m.cell (m.sp - 1) = v := by
    rw [hsp]
    exact hstack.1
  refine ⟨_, by rw [pop, if_pos hlt, hv], ?_⟩
  refine ⟨hm.codeLen, hm.size, hm.words, hm.ip, hm.bp, ?_, hm.above, ?_, hm.mem, hstack.2, hm.world⟩
  · simp only [hsp, Nat.add_sub_cancel, View.sp]
  · have := hm.below
    rw [View.sp, h, List.length_cons] at this
    simp only [View.sp]
    omega

theorem pop_cons (v : Word) (vs : List Word) :
    Yields code M pop { V with vs := v :: vs } v { V with vs := vs } :=
  pop_yields rfl

theorem Shows.fetch (hm : Shows code M m V) (h : code[V.ip]? = some w) :
    Machine.fetch m = .ok w { m with ip := m.ip + 1 } ∧
      Shows code M { m with ip := m.ip + 1 } { V with ip := V.ip + 1 } := by
  have hlt : m.ip < m.codeLen := by
    rw [hm.ip, hm.codeLen]
    exact (Array.getElem?_eq_some_iff.mp h).1
  have hw : m.cell m.ip = w := by
    rw [hm.ip]
    exact hm.words _ _ h
  refine ⟨by rw [Machine.fetch, if_pos hlt, hw], { hm with ip := by rw [hm.ip] }⟩

theorem fetch_yields (h : code[V.ip]? = some w) :
    Yields code M fetch V w { V with ip := V.ip + 1 } :=
  fun _ hm => ⟨_, (hm.fetch h).1, (hm.fetch h).2⟩

theorem write_yields (s : String) :
    Yields code M (write s) V ()
      { V with world := { V.world with output := V.world.output ++ s } } := by
  intro m hm
  refine ⟨{ m with output := m.output ++ s }, rfl, { hm with world := ?_ }⟩
  rw [world, hm.output, ← hm.world]
  rfl

/-! ## Cells -/

theorem Shows.inStack {a : Nat} (hm : Shows code M m V) (hlo : code.size ≤ a) (hhi : a < M) :
    m.inStack a = true := by
  rw [inStack_iff, hm.codeLen, hm.size]
  omega

/-- An address of the stack fits into a word, so that adding the base does not fail. -/
theorem frameAddress_of_inStack {x : Nat} (hx : (m.bp : Int) + w.toInt = x)
    (h : m.inStack x = true) (hsize : m.mem.size ≤ 0x8000000000000000) :
    frameAddress w m = .ok x m := by
  have hin := inStack_iff.mp h
  have hrange : Word.inRange x = true := by
    rw [Word.inRange_iff]
    omega
  unfold frameAddress stackAddress
  simp only [hx, hrange, h, if_true, Int.toNat_natCast]

theorem frameAddress_yields {offset : Word} {a : Nat} (ha : (V.bp : Int) + offset.toInt = a)
    (hlo : code.size ≤ a) (hhi : a < M) (hM : M ≤ 0x8000000000000000) :
    Yields code M (frameAddress offset) V a V := by
  intro m hm
  have haddr : (m.bp : Int) + offset.toInt = a := by
    rw [hm.bp]
    exact ha
  exact ⟨m, frameAddress_of_inStack haddr (hm.inStack hlo hhi) (hm.size ▸ hM), hm⟩

theorem readCell_yields {a : Nat} (ha : a < V.lo) :
    Yields code M (readCell a) V (V.mem a) V := by
  intro m hm
  exact ⟨m, by rw [readCell, hm.mem a ha], hm⟩

theorem writeCell_yields {a : Nat} (w : Word) (hlo : code.size ≤ a) (hhi : a < V.lo) :
    Yields code M (writeCell a w) V () { V with mem := Function.update V.mem a w } := by
  intro m hm
  have hlt : a < m.mem.size := by
    have := hm.below
    rw [hm.size]
    rw [View.sp] at this
    omega
  have hcell : ∀ b, ({ m with mem := m.mem.setIfInBounds a w } : Machine).cell b =
      if a = b then w else m.cell b := fun b => cell_setIfInBounds rfl hlt
  refine ⟨_, rfl, ?_⟩
  refine ⟨hm.codeLen, ?_, fun i x hi => ?_, hm.ip, hm.bp, hm.sp, hm.above, hm.below, fun b hb => ?_,
    ?_, hm.world⟩
  · simpa using hm.size
  · have := (Array.getElem?_eq_some_iff.mp hi).1
    rw [hcell, if_neg (by omega)]
    exact hm.words i x hi
  · rw [hcell]
    by_cases hab : a = b
    · subst hab
      simp
    · rw [if_neg hab]
      simp only [Function.update_of_ne (Ne.symm hab)]
      exact hm.mem b hb
  · refine hm.stack.congr fun b hb _ => ?_
    rw [hcell, if_neg]
    exact Nat.ne_of_lt (Nat.lt_of_lt_of_le hhi hb)

/-- The cells below the top of the stack, seen as one part. -/
theorem Shows.flatten (h : Shows code M m V) :
    Shows code M m { V with lo := V.sp, vs := [], mem := m.cell } where
  codeLen := h.codeLen
  size := h.size
  words := h.words
  ip := h.ip
  bp := h.bp
  sp := h.sp
  above := Nat.le_trans h.above (Nat.le_add_right _ _)
  below := h.below
  mem _ _ := rfl
  stack := trivial
  world := h.world

/-- Known cells below the words on the stack may be looked at as words on it. -/
theorem Shows.unflatten {lo : Nat} (h : Shows code M m V) (hlo : code.size ≤ lo)
    (hsp : lo + vs.length = V.lo) (hst : Stacked V.mem lo vs) :
    Shows code M m { V with lo := lo, vs := V.vs ++ vs } := by
  have hsp' : lo + (V.vs ++ vs).length = V.sp := by
    rw [List.length_append, View.sp]
    omega
  refine ⟨h.codeLen, h.size, h.words, h.ip, h.bp, h.sp.trans hsp'.symm, hlo, ?_, fun a ha => ?_, ?_,
    h.world⟩
  · exact Nat.le_trans (Nat.le_of_eq hsp') h.below
  · exact h.mem a (by simp only at ha; omega)
  · refine Stacked.append.mpr ⟨?_, hst.congr fun a _ ha => h.mem a (by omega)⟩
    rw [hsp]
    exact h.stack

/-- The cells below the words on the stack may be taken from the machine itself. -/
theorem Shows.own (h : Shows code M m V) :
    Shows code M m ⟨V.ip, V.bp, V.lo, V.vs, m.cell, m.world⟩ :=
  { h with mem := fun _ _ => rfl, world := rfl }

/-- Only the cells below the words on the stack matter. -/
theorem Shows.congr {mem : Nat → Word} (h : Shows code M m V) (hm : ∀ a < V.lo, mem a = V.mem a) :
    Shows code M m { V with mem := mem } where
  codeLen := h.codeLen
  size := h.size
  words := h.words
  ip := h.ip
  bp := h.bp
  sp := h.sp
  above := h.above
  below := h.below
  mem a ha := (h.mem a ha).trans (hm a ha).symm
  stack := h.stack
  world := h.world

/-! ## Jumps and frames -/

theorem jump_yields {t : Nat} (ht : t < code.size) (hM : M ≤ 0x8000000000000000) :
    Yields code M (jump (Word.ofNat t)) V () { V with ip := t } := by
  intro m hm
  have hlo := hm.above
  have hhi := hm.below
  rw [View.sp] at hhi
  have hlt : t < m.codeLen := by
    rw [hm.codeLen]
    exact ht
  refine ⟨{ m with ip := t }, ?_, { hm with ip := rfl }⟩
  simp only [jump, Word.toIndex?_ofNat (show t < 0x8000000000000000 by omega), if_pos hlt]

theorem toInt_ofNat {n : Nat} (h : n < 0x8000000000000000) : (Word.ofNat n).toInt = n :=
  Int64.toInt_ofNat_of_lt h

theorem inRange_natCast {n : Nat} (h : n < 0x8000000000000000) : Word.inRange n = true := by
  rw [Word.inRange_iff]
  omega

/-- Cutting the stack back into the known cells. -/
theorem setSp_yields {top : Nat} (hlo : code.size ≤ top) (hhi : top ≤ V.lo) (htop : top < M)
    (hM : M ≤ 0x8000000000000000) :
    Yields code M (setSp (Word.ofNat top)) V () { V with lo := top, vs := [] } := by
  intro m hm
  have hint : (Word.ofNat top).toInt = top := toInt_ofNat (Nat.lt_of_lt_of_le htop hM)
  have hin := hm.inStack hlo htop
  refine ⟨{ m with sp := top }, ?_, ?_⟩
  · simp only [setSp, hint, hin, if_true, Int.toNat_natCast]
  · exact ⟨hm.codeLen, hm.size, hm.words, hm.ip, hm.bp, rfl, hlo, Nat.le_of_lt htop,
      fun a ha => hm.mem a (Nat.lt_of_lt_of_le ha hhi), trivial, hm.world⟩

theorem setBp_yields {bp : Nat} (hlo : code.size ≤ bp) (hhi : bp < M)
    (hM : M ≤ 0x8000000000000000) :
    Yields code M (setBp (Word.ofNat bp)) V () { V with bp := bp } := by
  intro m hm
  have hint : (Word.ofNat bp).toInt = bp := toInt_ofNat (Nat.lt_of_lt_of_le hhi hM)
  have hin : (m.codeLen : Int) ≤ bp ∧ (bp : Int) ≤ m.mem.size := by
    rw [hm.codeLen, hm.size]
    omega
  refine ⟨{ m with bp := bp }, ?_, { hm with bp := rfl }⟩
  simp only [setBp, hint, if_pos hin, Int.toNat_natCast]

/-- Reads a word below the base. -/
theorem saved_yields {f : Word → Exec β} {b : β} (hlo : V.bp ≤ V.lo)
    (hbase : code.size + k ≤ V.bp) (hk : 0 < k) (hw : w.toInt = -(k : Int)) (hbelow : V.bp ≤ M)
    (hM : M ≤ 0x8000000000000000) (hf : Yields code M (f (V.mem (V.bp - k))) V b V') :
    Yields code M (frameAddress w >>= fun a => readCell a >>= f) V b V' := by
  refine (frameAddress_yields (a := V.bp - k) ?_ ?_ ?_ hM).bind ((readCell_yields ?_).bind hf)
  · rw [hw]
    omega
  all_goals omega

/-- The saved words below the base of a function lead back to its caller. -/
theorem ret_yields {ip bp top : Nat} (hlo : V.bp ≤ V.lo) (hbelow : V.bp ≤ M)
    (hip : V.mem (V.bp - 3) = Word.ofNat ip) (hbp : V.mem (V.bp - 2) = Word.ofNat bp)
    (htop : V.mem (V.bp - 1) = Word.ofNat top) (hiplt : ip < code.size) (hbplo : code.size ≤ bp)
    (hbptop : bp ≤ top) (htoplt : top + 3 < V.bp) (hM : M ≤ 0x8000000000000000) :
    Yields code M ret V () { V with ip := ip, bp := bp, lo := top, vs := [] } := by
  rw [ret]
  refine saved_yields hlo (k := 3) (by omega) (by omega) rfl hbelow hM ?_
  refine saved_yields hlo (k := 2) (by omega) (by omega) rfl hbelow hM ?_
  refine saved_yields hlo (k := 1) (by omega) (by omega) rfl hbelow hM ?_
  rw [hip, hbp, htop]
  refine (setSp_yields (by omega) (by omega) (by omega) hM).bind ?_
  refine (setBp_yields hbplo (by omega) hM).bind ?_
  exact jump_yields hiplt hM

/-- The cell below the arguments of a call. -/
theorem targetCell_yields (hvs : V.vs = args ++ w :: vs) (hM : M ≤ 0x4000000000000000) :
    Yields code M (targetCell (Word.ofNat args.length)) V (V.lo + vs.length) V := by
  intro m hm
  have hsp : V.sp = V.lo + vs.length + (args.length + 1) := by
    rw [View.sp, hvs, List.length_append, List.length_cons]
    omega
  have hlo := hm.above
  have hhi := hm.below
  have hint : (Word.ofNat args.length).toInt = args.length := toInt_ofNat (by omega)
  have hcond : (0 : Int) ≤ args.length ∧ Word.inRange (args.length + 1) = true :=
    ⟨by omega, inRange_natCast (n := args.length + 1) (by omega)⟩
  have haddr : (m.sp : Int) - (args.length + 1) = (V.lo + vs.length : Nat) := by
    rw [hm.sp, hsp]
    omega
  have hin : m.inStack (V.lo + vs.length : Nat) = true := hm.inStack (by omega) (by omega)
  refine ⟨m, ?_, hm⟩
  simp only [targetCell, hint, if_pos hcond, haddr, stackAddress, hin, if_true, Int.toNat_natCast]

theorem target_yields (hvs : V.vs = args ++ w :: vs) :
    Yields code M (readCell (V.lo + vs.length)) V w V := by
  intro m hm
  have hstack := hm.stack
  rw [hvs, Stacked.append] at hstack
  exact ⟨m, by rw [readCell, hstack.2.1], hm⟩

theorem getIp_yields (V : View) : Yields code M getIp V V.ip V :=
  fun m hm => ⟨m, by rw [getIp, hm.ip], hm⟩

theorem getBp_yields (V : View) : Yields code M getBp V V.bp V :=
  fun m hm => ⟨m, by rw [getBp, hm.bp], hm⟩

theorem enterFrame_yields (V : View) : Yields code M enterFrame V () { V with bp := V.sp } :=
  fun m hm => ⟨{ m with bp := m.sp }, rfl, { hm with bp := hm.sp }⟩

/-- Calls leave where to go on, the base, and the address of the cell below the arguments. -/
theorem call_yields {t : Nat} (hvs : V.vs = args ++ Word.ofNat t :: vs) (ht : t < code.size)
    (hroom : V.sp + 3 ≤ M) (hM : M ≤ 0x4000000000000000) :
    Yields code M (call (Word.ofNat args.length)) V ()
      { V with
        ip := t
        bp := V.sp + 3
        vs := Word.ofNat (V.lo + vs.length) :: Word.ofNat V.bp :: Word.ofNat V.ip :: V.vs } := by
  rw [call]
  refine (targetCell_yields hvs hM).bind ((target_yields hvs).bind ((getIp_yields _).bind ?_))
  refine (push_yields _ (by omega)).bind ((getBp_yields _).bind ((push_yields _ ?_).bind ?_))
  · simp only [View.sp, List.length_cons] at hroom ⊢
    omega
  refine (push_yields _ ?_).bind ((enterFrame_yields _).bind (jump_yields ht (by omega)))
  simp only [View.sp, List.length_cons] at hroom ⊢
  omega

/-- A call needs three cells. -/
theorem call_fails (hvs : V.vs = args ++ w :: vs) (hfull : V.sp ≤ M) (hroom : M < V.sp + 3)
    (hM : M ≤ 0x4000000000000000) :
    Fails code M (call (Word.ofNat args.length)) V (.memory V.ip M) := by
  rw [call]
  refine (targetCell_yields hvs hM).fails rfl ((target_yields hvs).fails rfl
    ((getIp_yields _).fails rfl ?_))
  by_cases h0 : V.sp = M
  · exact (push_fails _ h0).bind
  refine (push_yields _ (by omega)).fails rfl ((getBp_yields _).fails rfl ?_)
  by_cases h1 : V.sp + 1 = M
  · refine Fails.bind (push_fails _ ?_)
    simpa [View.sp, Nat.add_assoc] using h1
  refine (push_yields _ ?_).fails rfl ?_
  · simp only [View.sp, List.length_cons] at hroom h0 h1 hfull ⊢
    omega
  · refine (push_fails _ ?_).bind
    simp only [View.sp, List.length_cons] at hroom h0 h1 hfull ⊢
    omega

/-! ## Reserving cells -/

/-- Reserved cells hold what was left there. -/
theorem alloc_shows (h : Shows code M m V) (hvs : V.vs = []) (hroom : V.lo + k ≤ M)
    (hM : M ≤ 0x4000000000000000) : ∃ m', alloc (Word.ofNat k) m = .ok () m' ∧ m'.cell = m.cell ∧
      Shows code M m' { V with lo := V.lo + k, mem := m.cell } := by
  have hint : (Word.ofNat k).toInt = k := toInt_ofNat (by omega)
  have hsp : m.sp = V.lo := by
    rw [h.sp, View.sp, hvs]
    rfl
  have htop : (m.sp : Int) + k = (V.lo + k : Nat) := by
    rw [hsp]
    omega
  have hrange : Word.inRange (V.lo + k : Nat) = true := inRange_natCast (by omega)
  have hcond : (0 : Int) ≤ k ∧ ((V.lo + k : Nat) : Int) ≤ m.mem.size := by
    rw [h.size]
    omega
  refine ⟨{ m with sp := V.lo + k }, ?_, rfl, ?_⟩
  · simp only [alloc, hint, htop, hrange, if_true, if_pos hcond, Int.toNat_natCast]
  · refine ⟨h.codeLen, h.size, h.words, h.ip, h.bp, ?_, ?_, ?_, fun _ _ => rfl, ?_, h.world⟩
    · simp only [View.sp, hvs]
      rfl
    · exact Nat.le_trans h.above (Nat.le_add_right _ _)
    · simpa [View.sp, hvs] using hroom
    · simp only [hvs]
      trivial

/-- Cells that do not fit are not reserved; the fault names an address behind the memory. -/
theorem alloc_fails (hroom : M < V.sp + k) (hk : k < 0x8000000000000000) :
    Fails code M (alloc (Word.ofNat k)) V
      (.memory V.ip (if Word.inRange (V.sp + k) then V.sp + k else k)) := by
  intro m hm
  have hint : (Word.ofNat k).toInt = k := toInt_ofNat hk
  have hcond : ¬((0 : Int) ≤ k ∧ (V.sp + k : Int) ≤ m.mem.size) := by
    rw [hm.size]
    omega
  refine ⟨m, ?_, hm.output⟩
  simp only [alloc, hint, hm.sp, if_neg hcond, fault, hm.ip]
  split <;> rfl

end Machine

end StackLang
