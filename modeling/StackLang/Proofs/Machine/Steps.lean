import StackLang.Code.Generate
import StackLang.Proofs.Machine.View

/-!
# Steps on views

What one instruction does to a view, for each kind of instruction.

* `World.read` — what reading a value does.
* `Machine.step_yields`, `Machine.step_fails` — from executing an operation to a step.
-/

namespace StackLang

/-! ## Input -/

namespace World

/-- Takes a line off the input. -/
def readLine (w : World) : Except Fault (String × World) :=
  let (line, rest) := takeLine w.input
  if line.isEmpty then .error (.invalidInput .endOfInput)
  else
    match Text.ofUtf8? line with
    | some s => .ok (chomp s, { w with input := rest })
    | none => .error .notText

/-- Reads a line that `read?` understands. -/
def readValue (read? : String → Option Word) (error : String → InputError) (w : World) :
    Except Fault (Word × World) :=
  match w.readLine with
  | .error e => .error e
  | .ok (line, w) =>
    match read? line with
    | some v => .ok (v, w)
    | none => .error (.invalidInput (error line))

/-- Reads a value of the given type; a string is added to the pool. -/
def read (w : World) : ValueType → Except Fault (Word × World)
  | .float => w.readValue number? .notNumber
  | .char => w.readValue Machine.character? fun _ => .noCharacter
  | .string =>
    match w.readLine with
    | .error e => .error e
    | .ok (line, w) =>
      .ok ((w.strings.intern line).1, { w with strings := (w.strings.intern line).2 })
  | .int | .bool | .void => w.readValue integer? .notInteger

end World

/-! ## Kinds of operations -/

namespace Op

/-- The function of an operation that replaces two words by one. -/
def binary? : Op → Option (Word → Word → Word)
  | add => some (· + ·)
  | sub => some (· - ·)
  | mul => some (· * ·)
  | addFloat => some Double.add
  | subFloat => some Double.sub
  | mulFloat => some Double.mul
  | divFloat => some Double.div
  | eq => some fun a b => Word.ofBool (a == b)
  | lt => some fun a b => Word.ofBool (decide (a < b))
  | le => some fun a b => Word.ofBool (decide (a ≤ b))
  | gt => some fun a b => Word.ofBool (decide (b < a))
  | ge => some fun a b => Word.ofBool (decide (b ≤ a))
  | ne => some fun a b => Word.ofBool (a != b)
  | eqFloat => some fun a b => Word.ofBool (Double.eq a b)
  | ltFloat => some fun a b => Word.ofBool (Double.lt a b)
  | leFloat => some fun a b => Word.ofBool (Double.le a b)
  | gtFloat => some fun a b => Word.ofBool (Double.lt b a)
  | geFloat => some fun a b => Word.ofBool (Double.le b a)
  | neFloat => some fun a b => Word.ofBool (!Double.eq a b)
  | and => some fun a b => Word.ofBool (a != 0 && b != 0)
  | or => some fun a b => Word.ofBool (a != 0 || b != 0)
  | _ => none

/-- The function of an operation that divides. -/
def division? : Op → Option (Word → Word → Word)
  | div => some (· / ·)
  | mod => some (· % ·)
  | _ => none

/-- The function of an operation that replaces one word. -/
def unary? : Op → Option (Word → Word)
  | not => some fun a => Word.ofBool (a == 0)
  | intToFloat => some Double.ofInt
  | floatToInt => some Double.toInt
  | _ => none

/-- What an operation that always succeeds writes for a word. -/
def text? : Op → Option (Word → String)
  | outInt => some fun a => toString a.toInt
  | outFloat => some Double.write
  | outChar => some fun a => (Machine.charOf a).toString
  | outBool => some fun a => if a = 0 then "false" else "true"
  | _ => none

end Op

namespace Machine

variable {code : Array Word} {M here : Nat} {m : Machine} {V V' : View} {op : Op}
  {f : Word → Word → Word} {vs : List Word} {a : Word}

/-! ## From operations to steps -/

theorem step_yields (hop : code[V.ip]? = some op.word) (hexit : op ≠ .exit)
    (h : Yields code M (execute V.ip op) { V with ip := V.ip + 1 } () V') :
    Yields code M step V none V' := by
  refine (getIp_yields V).bind ((fetch_yields hop).bind ?_)
  rw [Op.ofWord?_word]
  exact h.bind fun m hm => ⟨m, congrFun (if_neg hexit) m, hm⟩

theorem step_fails {e : Fault} (hop : code[V.ip]? = some op.word)
    (h : Fails code M (execute V.ip op) { V with ip := V.ip + 1 } e) : Fails code M step V e := by
  refine (getIp_yields V).fails rfl ((fetch_yields hop).fails rfl ?_)
  rw [Op.ofWord?_word]
  exact h.bind

/-- An exit gives the word on top, or zero, and changes nothing else. -/
theorem step_exit (hop : code[V.ip]? = some Op.exit.word) :
    Yields code M step V (some (V.vs.head?.getD (if code.size < V.lo then V.mem (V.lo - 1) else 0)))
      { V with ip := V.ip + 1 } := by
  refine (getIp_yields V).bind ((fetch_yields hop).bind ?_)
  rw [Op.ofWord?_word]
  refine (Yields.pure () _).bind fun m hm => ⟨m, ?_, hm⟩
  have hstatus : m.status = V.vs.head?.getD (if code.size < V.lo then V.mem (V.lo - 1) else 0) := by
    have hlo := hm.above
    have hstack := hm.stack
    have hmem := hm.mem
    rw [status, hm.codeLen, hm.sp, View.sp]
    simp only at hlo hstack hmem ⊢
    cases hvs : V.vs with
    | nil =>
      simp only [List.length_nil, Nat.add_zero, List.head?_nil, Option.getD_none]
      split
      · exact hmem _ (by omega)
      · rfl
    | cons v vs =>
      rw [hvs] at hstack
      rw [if_pos (by rw [List.length_cons]; omega)]
      exact hstack.1
  show EStateM.Result.ok (some m.status) m = _
  rw [hstatus]

/-! ## Words on the stack -/

theorem binary_yields {b : Word} (hvs : V.vs = b :: a :: vs) :
    Yields code M (binary f) V () { V with vs := f a b :: vs } := by
  refine .of_fits fun _ hsp => ?_
  rw [View.sp, hvs, List.length_cons, List.length_cons] at hsp
  refine (pop_yields hvs).bind ((pop_cons a vs).bind (push_yields _ ?_))
  simp only [View.sp]
  omega

theorem unary_yields {f : Word → Word} (hvs : V.vs = a :: vs) :
    Yields code M (unary f) V () { V with vs := f a :: vs } := by
  refine .of_fits fun _ hsp => ?_
  rw [View.sp, hvs, List.length_cons] at hsp
  refine (pop_yields hvs).bind (push_yields _ ?_)
  simp only [View.sp]
  omega

theorem divide_yields {b : Word} (hvs : V.vs = b :: a :: vs) (hb : b ≠ 0) :
    Yields code M (divide here f) V () { V with vs := f a b :: vs } := by
  refine .of_fits fun _ hsp => ?_
  rw [View.sp, hvs, List.length_cons, List.length_cons] at hsp
  refine (pop_yields hvs).bind ((pop_cons a vs).bind ?_)
  rw [if_neg hb]
  refine push_yields _ ?_
  simp only [View.sp]
  omega

theorem divide_fails (hvs : V.vs = 0 :: a :: vs) :
    Fails code M (divide here f) V (.divisionByZero here) := by
  refine (pop_yields hvs).fails rfl ((pop_cons a vs).fails rfl ?_)
  exact fun m hm => ⟨m, rfl, hm.output⟩

theorem execute_binary (h : op.binary? = some f) (here : Nat) : execute here op = binary f := by
  cases op <;> first | (cases h; rfl) | cases h

theorem execute_unary {f : Word → Word} (h : op.unary? = some f) (here : Nat) :
    execute here op = unary f := by
  cases op <;> first | (cases h; rfl) | cases h

theorem execute_division (h : op.division? = some f) (here : Nat) :
    execute here op = divide here f := by
  cases op <;> first | (cases h; rfl) | cases h

theorem execute_text {f : Word → String} (h : op.text? = some f) (here : Nat) :
    execute here op = pop >>= fun a => Machine.write (f a) := by
  cases op <;> first | (cases h; rfl) | cases h

/-! ## The steps -/

section

variable {a b w : Word} {vs args : List Word} {slot : Int} {x t : Nat} {f : Word → Word → Word}
  {world world' : World} {e : Fault} {read? : String → Option Word} {error : String → InputError}
  {type : ValueType} {state : UInt64} {line : String}

section

variable (hop : code[V.ip]? = some op.word)

include hop

theorem step_binary (hf : op.binary? = some f) (hvs : V.vs = b :: a :: vs) :
    Yields code M step V none { V with ip := V.ip + 1, vs := f a b :: vs } := by
  refine step_yields hop (by rintro rfl; cases hf) ?_
  rw [execute_binary hf]
  exact binary_yields hvs

theorem step_unary {f : Word → Word} (hf : op.unary? = some f) (hvs : V.vs = a :: vs) :
    Yields code M step V none { V with ip := V.ip + 1, vs := f a :: vs } := by
  refine step_yields hop (by rintro rfl; cases hf) ?_
  rw [execute_unary hf]
  exact unary_yields hvs

theorem step_division (hf : op.division? = some f) (hvs : V.vs = b :: a :: vs) (hb : b ≠ 0) :
    Yields code M step V none { V with ip := V.ip + 1, vs := f a b :: vs } := by
  refine step_yields hop (by rintro rfl; cases hf) ?_
  rw [execute_division hf]
  exact divide_yields hvs hb

theorem step_division_fails (hf : op.division? = some f) (hvs : V.vs = 0 :: a :: vs) :
    Fails code M step V (.divisionByZero V.ip) := by
  refine step_fails hop ?_
  rw [execute_division hf]
  exact divide_fails hvs

theorem step_text {f : Word → String} (hf : op.text? = some f) (hvs : V.vs = a :: vs) :
    Yields code M step V none { V with
      ip := V.ip + 1
      vs := vs
      world := { V.world with output := V.world.output ++ f a } } := by
  refine step_yields hop (by rintro rfl; cases hf) ?_
  rw [execute_text hf]
  refine Yields.bind (pop_yields hvs) (write_yields (f a))

end

theorem step_pop (hop : code[V.ip]? = some Op.pop.word) (hvs : V.vs = a :: vs) :
    Yields code M step V none { V with ip := V.ip + 1, vs := vs } :=
  step_yields hop (by decide) (.bind (pop_yields hvs) (.pure () _))

theorem step_dup (hop : code[V.ip]? = some Op.dup.word) (hvs : V.vs = a :: vs) (hroom : V.sp < M) :
    Yields code M step V none { V with ip := V.ip + 1, vs := a :: a :: vs } := by
  rw [View.sp, hvs, List.length_cons] at hroom
  refine step_yields hop (by decide) (.bind (pop_yields hvs) (.bind (push_yields _ ?_)
    (push_yields _ ?_)))
  · simp only [View.sp]
    omega
  · simp only [View.sp, List.length_cons]
    omega

theorem step_dup_fails (hop : code[V.ip]? = some Op.dup.word) (hvs : V.vs = a :: vs)
    (hfull : V.sp = M) : Fails code M step V (.memory (V.ip + 1) M) := by
  rw [View.sp, hvs, List.length_cons] at hfull
  refine step_fails hop (Yields.fails (pop_yields hvs) rfl (Yields.fails (push_yields _ ?_) rfl
    (push_fails _ ?_)))
  · simp only [View.sp]
    omega
  · simp only [View.sp, List.length_cons]
    omega

theorem step_push (hop : code[V.ip]? = some Op.push.word) (hw : code[V.ip + 1]? = some w)
    (hroom : V.sp < M) : Yields code M step V none { V with ip := V.ip + 2, vs := w :: V.vs } :=
  step_yields hop (by decide) (.bind (fetch_yields hw) (push_yields w hroom))

theorem step_push_fails (hop : code[V.ip]? = some Op.push.word) (hw : code[V.ip + 1]? = some w)
    (hfull : V.sp = M) : Fails code M step V (.memory (V.ip + 2) M) :=
  step_fails hop (Yields.fails (fetch_yields hw) rfl (push_fails w hfull))

theorem step_peek (hop : code[V.ip]? = some Op.peek.word) (hw : code[V.ip + 1]? = some w)
    (hx : (V.bp : Int) + w.toInt = x) (hlo : code.size ≤ x) (hhi : x < V.lo) (hroom : V.sp < M)
    (hM : M ≤ 0x8000000000000000) :
    Yields code M step V none { V with ip := V.ip + 2, vs := V.mem x :: V.vs } := by
  have hxM : x < M :=
    Nat.lt_of_lt_of_le hhi (Nat.le_trans (Nat.le_add_right _ _) (Nat.le_of_lt hroom))
  exact step_yields hop (by decide) (.bind (fetch_yields hw) (.bind
    (frameAddress_yields hx hlo hxM hM) (.bind (readCell_yields hhi) (push_yields _ hroom))))

theorem step_peek_fails (hop : code[V.ip]? = some Op.peek.word) (hw : code[V.ip + 1]? = some w)
    (hx : (V.bp : Int) + w.toInt = x) (hlo : code.size ≤ x) (hhi : x < V.lo) (hfull : V.sp = M)
    (hM : M ≤ 0x8000000000000000) : Fails code M step V (.memory (V.ip + 2) M) := by
  have hxM : x < M := Nat.lt_of_lt_of_le hhi (hfull ▸ Nat.le_add_right _ _)
  exact step_fails hop (Yields.fails (fetch_yields hw) rfl (Yields.fails
    (frameAddress_yields hx hlo hxM hM) rfl (Yields.fails (readCell_yields hhi) rfl
      (push_fails _ hfull))))

theorem step_poke (hop : code[V.ip]? = some Op.poke.word) (hw : code[V.ip + 1]? = some w)
    (hvs : V.vs = a :: vs) (hx : (V.bp : Int) + w.toInt = x) (hlo : code.size ≤ x) (hhi : x < V.lo)
    (hM : M ≤ 0x8000000000000000) :
    Yields code M step V none
      { V with ip := V.ip + 2, vs := vs, mem := Function.update V.mem x a } := by
  refine .of_fits fun _ hsp => ?_
  have hxM : x < M := Nat.lt_of_lt_of_le hhi (Nat.le_trans (Nat.le_add_right _ _) hsp)
  exact step_yields hop (by decide) (.bind (fetch_yields hw) (.bind
    (frameAddress_yields hx hlo hxM hM) (.bind (pop_yields hvs) (writeCell_yields a hlo hhi))))

theorem step_peekAt (hop : code[V.ip]? = some Op.peekAt.word) (hw : code[V.ip + 1]? = some w)
    (hvs : V.vs = a :: vs) (hx : (V.bp : Int) + (w + a).toInt = x) (hlo : code.size ≤ x)
    (hhi : x < V.lo) (hM : M ≤ 0x8000000000000000) :
    Yields code M step V none { V with ip := V.ip + 2, vs := V.mem x :: vs } := by
  refine .of_fits fun _ hsp => ?_
  have hxM : x < M := Nat.lt_of_lt_of_le hhi (Nat.le_trans (Nat.le_add_right _ _) hsp)
  refine step_yields hop (by decide) (.bind (fetch_yields hw) (.bind (pop_yields hvs) (.bind
    (frameAddress_yields hx hlo hxM hM) (.bind (readCell_yields hhi) (push_yields _ ?_)))))
  rw [View.sp, hvs, List.length_cons] at hsp
  simp only [View.sp]
  omega

theorem step_pokeAt (hop : code[V.ip]? = some Op.pokeAt.word) (hw : code[V.ip + 1]? = some w)
    (hvs : V.vs = a :: b :: vs) (hx : (V.bp : Int) + (w + a).toInt = x) (hlo : code.size ≤ x)
    (hhi : x < V.lo) (hM : M ≤ 0x8000000000000000) :
    Yields code M step V none
      { V with ip := V.ip + 2, vs := vs, mem := Function.update V.mem x b } := by
  refine .of_fits fun _ hsp => ?_
  have hxM : x < M := Nat.lt_of_lt_of_le hhi (Nat.le_trans (Nat.le_add_right _ _) hsp)
  exact step_yields hop (by decide) (.bind (fetch_yields hw) (.bind (pop_yields hvs) (.bind
    (pop_cons b vs) (.bind (frameAddress_yields hx hlo hxM hM) (writeCell_yields b hlo hhi)))))

/-! ### Calls and jumps -/

theorem step_call (hop : code[V.ip]? = some Op.call.word)
    (hw : code[V.ip + 1]? = some (Word.ofNat args.length))
    (hvs : V.vs = args ++ Word.ofNat t :: vs) (ht : t < code.size) (hroom : V.sp + 3 ≤ M)
    (hM : M ≤ 0x4000000000000000) :
    Yields code M step V none { V with
      ip := t
      bp := V.sp + 3
      vs := Word.ofNat (V.lo + vs.length) :: Word.ofNat V.bp :: Word.ofNat (V.ip + 2) :: V.vs } :=
  step_yields hop (by decide) (.bind (fetch_yields hw) (call_yields hvs ht hroom hM))

theorem step_call_fails (hop : code[V.ip]? = some Op.call.word)
    (hw : code[V.ip + 1]? = some (Word.ofNat args.length)) (hvs : V.vs = args ++ w :: vs)
    (hfull : V.sp ≤ M) (hroom : M < V.sp + 3) (hM : M ≤ 0x4000000000000000) :
    Fails code M step V (.memory (V.ip + 2) M) :=
  step_fails hop (Yields.fails (fetch_yields hw) rfl (call_fails hvs hfull hroom hM))

theorem step_jump (hop : code[V.ip]? = some Op.jump.word)
    (hw : code[V.ip + 1]? = some (Word.ofNat t)) (ht : t < code.size)
    (hM : M ≤ 0x8000000000000000) : Yields code M step V none { V with ip := t } :=
  step_yields hop (by decide) (.bind (fetch_yields hw) (jump_yields ht hM))

theorem step_jumpZero (hop : code[V.ip]? = some Op.jumpZero.word)
    (hw : code[V.ip + 1]? = some (Word.ofNat t)) (hvs : V.vs = a :: vs) (ht : t < code.size)
    (hM : M ≤ 0x8000000000000000) :
    Yields code M step V none { V with ip := if a = 0 then t else V.ip + 2, vs := vs } := by
  refine step_yields hop (by decide) (.bind (fetch_yields hw) (.bind (pop_yields hvs) ?_))
  by_cases ha : a = 0
  · simp only [ha, if_true]
    exact jump_yields ht hM
  · simp only [ha, if_false]
    exact .pure () _

theorem step_ret {ip bp top : Nat} (hop : code[V.ip]? = some Op.ret.word) (hlo : V.bp ≤ V.lo)
    (hip : V.mem (V.bp - 3) = Word.ofNat ip) (hbp : V.mem (V.bp - 2) = Word.ofNat bp)
    (htop : V.mem (V.bp - 1) = Word.ofNat top) (hiplt : ip < code.size) (hbplo : code.size ≤ bp)
    (hbptop : bp ≤ top) (htoplt : top + 3 < V.bp) (hM : M ≤ 0x8000000000000000) :
    Yields code M step V none { V with ip := ip, bp := bp, lo := top, vs := [] } := by
  refine .of_fits fun _ hsp => ?_
  have hbelow : V.bp ≤ M := Nat.le_trans hlo (Nat.le_trans (Nat.le_add_right _ _) hsp)
  refine step_yields hop (by decide) ?_
  exact ret_yields hlo hbelow hip hbp htop hiplt hbplo hbptop htoplt hM

theorem step_retValue {ip bp top : Nat} (hop : code[V.ip]? = some Op.retValue.word)
    (hvs : V.vs = a :: vs) (hlo : V.bp ≤ V.lo) (hip : V.mem (V.bp - 3) = Word.ofNat ip)
    (hbp : V.mem (V.bp - 2) = Word.ofNat bp) (htop : V.mem (V.bp - 1) = Word.ofNat top)
    (hiplt : ip < code.size) (hbplo : code.size ≤ bp) (hbptop : bp ≤ top) (htoplt : top + 3 < V.bp)
    (hM : M ≤ 0x8000000000000000) :
    Yields code M step V none { V with ip := ip, bp := bp, lo := top, vs := [a] } := by
  refine .of_fits fun _ hsp => ?_
  have hbelow : V.bp ≤ M := Nat.le_trans hlo (Nat.le_trans (Nat.le_add_right _ _) hsp)
  refine step_yields hop (by decide) (.bind (pop_yields hvs) (.bind
    (ret_yields hlo hbelow hip hbp htop hiplt hbplo hbptop htoplt hM) (push_yields a ?_)))
  simp only [View.sp, List.length_nil]
  omega

/-- Reserved cells hold what was left there. -/
theorem step_alloc {k : Nat} (h : Shows code M m V) (hop : code[V.ip]? = some Op.alloc.word)
    (hw : code[V.ip + 1]? = some (Word.ofNat k)) (hvs : V.vs = []) (hroom : V.lo + k ≤ M)
    (hM : M ≤ 0x4000000000000000) : ∃ m', step m = .ok none m' ∧ m'.cell = m.cell ∧
      Shows code M m' { V with ip := V.ip + 2, lo := V.lo + k, mem := m.cell } := by
  obtain ⟨hfetch, h₁⟩ := h.fetch hop
  obtain ⟨hfetch', h₂⟩ := h₁.fetch hw
  obtain ⟨m', halloc, hcell, h'⟩ := alloc_shows h₂ hvs hroom hM
  refine ⟨m', ?_, hcell, h'⟩
  rw [step, bind_of_ok (show getIp m = .ok m.ip m from rfl), bind_of_ok hfetch, Op.ofWord?_word]
  have hexec : execute m.ip .alloc { m with ip := m.ip + 1 } = .ok () m' :=
    (bind_of_ok hfetch').trans halloc
  exact (bind_of_ok hexec).trans rfl

theorem step_alloc_fails {k : Nat} (hop : code[V.ip]? = some Op.alloc.word)
    (hw : code[V.ip + 1]? = some (Word.ofNat k)) (hroom : M < V.sp + k)
    (hk : k < 0x8000000000000000) :
    Fails code M step V
      (.memory (V.ip + 2) (if Word.inRange (V.sp + k) then V.sp + k else k)) :=
  step_fails hop (Yields.fails (fetch_yields hw) rfl (alloc_fails hroom hk))

/-! ### The world -/

theorem step_outString {text : String} (hop : code[V.ip]? = some Op.outString.word)
    (hvs : V.vs = a :: vs) (htext : V.world.strings.get? a = some text) :
    Yields code M step V none { V with
      ip := V.ip + 1
      vs := vs
      world := { V.world with output := V.world.output ++ text } } := by
  have hget : Yields code M (stringOf V.ip a) { V with ip := V.ip + 1, vs := vs } text
      { V with ip := V.ip + 1, vs := vs } := by
    intro m hm
    refine ⟨m, ?_, hm⟩
    have hstrings : m.strings = V.world.strings := congrArg World.strings hm.world
    simp only [stringOf, hstrings, htext]
  exact step_yields hop (by decide) (.bind (pop_yields hvs) (.bind hget (write_yields text)))

theorem step_outString_fails (hop : code[V.ip]? = some Op.outString.word) (hvs : V.vs = a :: vs)
    (htext : V.world.strings.get? a = none) :
    Fails code M step V (.unknownString V.ip a) := by
  have hget : Fails code M (stringOf V.ip a) { V with ip := V.ip + 1, vs := vs }
      (.unknownString V.ip a) := by
    intro m hm
    refine ⟨m, ?_, hm.output⟩
    have hstrings : m.strings = V.world.strings := congrArg World.strings hm.world
    simp only [stringOf, hstrings, htext]
  exact step_fails hop (Yields.fails (pop_yields hvs) rfl hget.bind)

theorem random_yields (hstate : nextRandom V.world.rng = state) :
    Yields code M (random a) V (randomBelow state a)
      { V with world := { V.world with rng := state } } := by
  intro m hm
  have hrng : nextRandom m.rng = state := by
    rw [show m.rng = V.world.rng from congrArg World.rng hm.world, hstate]
  refine ⟨{ m with rng := state }, ?_, { hm with world := ?_ }⟩
  · rw [random, hrng]
  · rw [world, ← hm.world]
    rfl

theorem step_random (hop : code[V.ip]? = some Op.random.word) (hvs : V.vs = a :: vs)
    (hstate : nextRandom V.world.rng = state) :
    Yields code M step V none { V with
      ip := V.ip + 1
      vs := randomBelow state a :: vs
      world := { V.world with rng := state } } := by
  refine .of_fits fun _ hsp => ?_
  refine step_yields hop (by decide) (.bind (pop_yields hvs) (.bind (random_yields hstate)
    (push_yields _ ?_)))
  rw [View.sp, hvs, List.length_cons] at hsp
  simp only [View.sp]
  omega

theorem readLine_yields (h : V.world.readLine = .ok (line, world)) :
    Yields code M readLine V line { V with world := world } := by
  intro m hm
  have hinput : m.input = V.world.input := congrArg World.input hm.world
  simp only [World.readLine] at h
  split at h
  · cases h
  · rename_i hline
    split at h
    · rename_i text htext
      cases h
      refine ⟨{ m with input := (takeLine m.input).2 }, ?_, { hm with world := ?_ }⟩
      · simp only [readLine, hinput, if_neg hline, htext]
      · rw [Machine.world, hinput, ← hm.world]
        rfl
    · cases h

theorem readLine_fails (h : V.world.readLine = .error e) : Fails code M readLine V e := by
  intro m hm
  have hinput : m.input = V.world.input := congrArg World.input hm.world
  simp only [World.readLine] at h
  split at h
  · rename_i hline
    cases h
    exact ⟨m, by simp only [readLine, hinput, if_pos hline], hm.output⟩
  · rename_i hline
    split at h
    · cases h
    · rename_i htext
      cases h
      exact ⟨{ m with input := (takeLine m.input).2 },
        by simp only [readLine, hinput, if_neg hline, htext], hm.output⟩

theorem readValue_yields (h : V.world.readValue read? error = .ok (w, world)) :
    Yields code M (readValue read? error) V w { V with world := world } := by
  rw [World.readValue] at h
  cases hl : V.world.readLine with
  | error e => simp [hl] at h
  | ok r =>
    obtain ⟨line, world'⟩ := r
    cases hv : read? line with
    | none => simp [hl, hv] at h
    | some v =>
      simp only [hl, hv, Except.ok.injEq, Prod.mk.injEq] at h
      obtain ⟨rfl, rfl⟩ := h
      refine .bind (readLine_yields hl) ?_
      rw [hv]
      exact .pure _ _

theorem readLine_output (h : world.readLine = .ok (line, world')) :
    world'.output = world.output := by
  simp only [World.readLine] at h
  split at h
  · cases h
  · split at h
    · cases h
      rfl
    · cases h

theorem readValue_fails (h : V.world.readValue read? error = .error e) :
    Fails code M (readValue read? error) V e := by
  rw [World.readValue] at h
  cases hl : V.world.readLine with
  | error e' =>
    simp only [hl, Except.error.injEq] at h
    subst h
    exact (readLine_fails hl).bind
  | ok r =>
    obtain ⟨line, world'⟩ := r
    cases hv : read? line with
    | some v => simp [hl, hv] at h
    | none =>
      simp only [hl, hv, Except.error.injEq] at h
      subst h
      refine Yields.fails (readLine_yields hl) (readLine_output hl) ?_
      rw [hv]
      exact fun m hm => ⟨m, rfl, hm.output⟩

/-- Reading a value, as the machine does it. -/
def readOf : ValueType → Exec Word
  | .float => readValue number? .notNumber
  | .char => readValue character? fun _ => .noCharacter
  | .string => readString
  | .int | .bool | .void => readValue integer? .notInteger

theorem execute_reading (type : ValueType) (here : Nat) :
    execute here (Op.reading type) = readOf type >>= push := by
  cases type <;> rfl

theorem readOf_yields (h : V.world.read type = .ok (w, world)) :
    Yields code M (readOf type) V w { V with world := world } := by
  cases type with
  | string =>
    rw [World.read] at h
    cases hl : V.world.readLine with
    | error e => simp [hl] at h
    | ok r =>
      obtain ⟨line, world'⟩ := r
      simp only [hl, Except.ok.injEq, Prod.mk.injEq] at h
      obtain ⟨rfl, rfl⟩ := h
      refine .bind (readLine_yields hl) fun m hm => ?_
      have hworld : m.world = world' := hm.world
      subst hworld
      exact ⟨{ m with strings := (m.strings.intern line).2 }, rfl, { hm with world := rfl }⟩
  | _ => exact readValue_yields h

theorem readOf_fails (h : V.world.read type = .error e) : Fails code M (readOf type) V e := by
  cases type with
  | string =>
    rw [World.read] at h
    cases hl : V.world.readLine with
    | error e' =>
      simp only [hl, Except.error.injEq] at h
      subst h
      exact (readLine_fails hl).bind
    | ok r => simp [hl] at h
  | _ => exact readValue_fails h

theorem read_output (h : world.read type = .ok (w, world')) : world'.output = world.output := by
  have hvalue : ∀ {read? : String → Option Word} {error : String → InputError},
      world.readValue read? error = .ok (w, world') → world'.output = world.output := by
    intro read? error h
    rw [World.readValue] at h
    cases hl : world.readLine with
    | error e => simp [hl] at h
    | ok r =>
      cases hv : read? r.1 with
      | none => simp [hl, hv] at h
      | some v =>
        simp only [hl, hv, Except.ok.injEq, Prod.mk.injEq] at h
        rw [← h.2]
        exact readLine_output hl
  cases type with
  | string =>
    rw [World.read] at h
    cases hl : world.readLine with
    | error e => simp [hl] at h
    | ok r =>
      obtain ⟨line, next⟩ := r
      simp only [hl, Except.ok.injEq, Prod.mk.injEq] at h
      rw [← h.2]
      have hout := readLine_output hl
      exact hout
  | _ => exact hvalue h

theorem step_read (hop : code[V.ip]? = some (Op.reading type).word)
    (h : V.world.read type = .ok (w, world)) (hroom : V.sp < M) :
    Yields code M step V none { V with ip := V.ip + 1, vs := w :: V.vs, world := world } := by
  refine step_yields hop (by cases type <;> decide) ?_
  rw [execute_reading]
  exact .bind (readOf_yields h) (push_yields w hroom)

theorem step_read_fails (hop : code[V.ip]? = some (Op.reading type).word)
    (h : V.world.read type = .error e) : Fails code M step V e := by
  refine step_fails hop ?_
  rw [execute_reading]
  exact Fails.bind (readOf_fails h)

theorem step_read_full (hop : code[V.ip]? = some (Op.reading type).word)
    (h : V.world.read type = .ok (w, world)) (hfull : V.sp = M) :
    Fails code M step V (.memory (V.ip + 1) M) := by
  refine step_fails hop ?_
  rw [execute_reading]
  exact Yields.fails (readOf_yields h) (read_output h) (push_fails w hfull)

end

end Machine

end StackLang
