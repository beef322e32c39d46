import StackLang.Proofs.Safety.Routines

/-!
# The chain of frames

While a program runs, every function that has been called and has not returned has a frame: its
cells, the words that it has on the stack, and a place in its code from where it flows.  Below the
base of each frame but the first stand the words that lead back to the frame below it.

* `Chain` — the frames of the functions that wait for a return.
* `Inv` — what is known about a running machine.
-/

namespace StackLang

/-! ## Words and entries -/

/-- The words are those that the entries tell of, from `lo` on, and `Φ` holds of the cells with the
addresses of functions. -/
inductive Entries (env : Addresses) (Φ : Nat → FunctionId → Prop) (lo : Nat) :
    List Entry → List Word → Prop where
  | nil : Entries env Φ lo [] []
  | value {σ : List Entry} {vs : List Word} (w : Word) (h : Entries env Φ lo σ vs) :
    Entries env Φ lo (.value :: σ) (w :: vs)
  | callee {id : FunctionId} {a : Nat} {σ : List Entry} {vs : List Word} (ha : env id = some a)
    (hΦ : Φ (lo + vs.length) id) (h : Entries env Φ lo σ vs) :
    Entries env Φ lo (.callee id :: σ) (Word.ofNat a :: vs)

namespace Entries

variable {env : Addresses} {Φ Ψ : Nat → FunctionId → Prop} {lo : Nat} {σ : List Entry}
  {vs : List Word}

theorem mono (h : Entries env Φ lo σ vs)
    (hΦ : ∀ x id, x < lo + vs.length → Φ x id → Ψ x id) : Entries env Ψ lo σ vs := by
  induction h with
  | nil => exact .nil
  | value w _ ih => exact .value w (ih fun x id hx => hΦ x id (Nat.lt_succ_of_lt hx))
  | callee ha hid _ ih =>
    exact .callee ha (hΦ _ _ (Nat.lt_succ_self _) hid)
      (ih fun x id hx => hΦ x id (Nat.lt_succ_of_lt hx))

theorem of_nil (h : Entries env Φ lo [] vs) : vs = [] := by
  cases h
  rfl

theorem of_value (h : Entries env Φ lo (.value :: σ) vs) :
    ∃ w us, vs = w :: us ∧ Entries env Φ lo σ us := by
  cases h with
  | value w h => exact ⟨w, _, rfl, h⟩

theorem of_values (h : Entries env Φ lo (.value :: .value :: σ) vs) :
    ∃ v w us, vs = v :: w :: us ∧ Entries env Φ lo σ us := by
  obtain ⟨v, vs, rfl, hvs⟩ := of_value h
  obtain ⟨w, us, rfl, hus⟩ := of_value hvs
  exact ⟨v, w, us, rfl, hus⟩

/-- The words of a call: the arguments, and below them the address of the function. -/
theorem of_call {n : Nat} {id : FunctionId}
    (h : Entries env Φ lo (List.replicate n .value ++ .callee id :: σ) vs) :
    ∃ args a us, vs = args ++ Word.ofNat a :: us ∧ args.length = n ∧ env id = some a ∧
      Φ (lo + us.length) id ∧ Entries env Φ lo σ us := by
  induction n generalizing vs with
  | zero =>
    cases h with
    | callee ha hΦ h => exact ⟨[], _, _, rfl, rfl, ha, hΦ, h⟩
  | succ n ih =>
    obtain ⟨w, ws, rfl, htail⟩ := of_value h
    obtain ⟨args, a, us, rfl, rfl, ha, hΦ, hus⟩ := ih htail
    exact ⟨w :: args, a, us, rfl, rfl, ha, hΦ, hus⟩

end Entries

/-! ## Frames -/

/-- Code in a memory of some size, with the addresses of its labels and its routines. -/
structure Layout where
  code : Array Word
  memory : Nat
  env : Addresses
  routines : Placement → Prop

/-- A function that runs or waits for a return. -/
structure Frame where
  home : Placement
  /-- The code before the place where it goes on. -/
  before : List Item
  /-- The code from there on. -/
  behind : List Item
  /-- The number of reserved cells. -/
  cells : Nat
  bp : Nat
  entries : List Entry
  /-- The words on the stack, the topmost first. -/
  vs : List Word

namespace Frame

/-- Where it goes on. -/
def ip (F : Frame) : Nat :=
  F.home.start + Item.size F.before

/-- Where its words on the stack begin. -/
def lo (F : Frame) : Nat :=
  F.bp + F.cells

/-- Where they end. -/
def sp (F : Frame) : Nat :=
  F.lo + F.vs.length

theorem lo_eq {F F' : Frame} (hbp : F'.bp = F.bp) (hcells : F'.cells = F.cells) : F'.lo = F.lo := by
  rw [lo, lo, hbp, hcells]

theorem bp_le_sp (F : Frame) : F.bp ≤ F.sp :=
  Nat.le_trans (Nat.le_add_right _ _) (Nat.le_add_right _ _)

/-- The frame belongs to a routine, whose code flows from its place on once the words on the stack
are those of `σ`. -/
structure Stands (X : Layout) (Φ : Nat → FunctionId → Prop) (F : Frame) (σ : List Entry) :
    Prop where
  home : X.routines F.home
  items : F.home.items = F.before ++ F.behind
  flow : Flow F.home.routine F.cells F.behind σ
  entries : Entries X.env Φ F.lo F.entries F.vs

end Frame

/-- The frames that wait for a return, seen from the base of a frame of routine `K` on top of them.
The first frame of all is that of the code that starts the program. -/
inductive Chain (X : Layout) (Φ : Nat → FunctionId → Prop) (mem : Nat → Word) :
    Nat → Routine → List Frame → Prop where
  | entry {bp : Nat} {K : Routine} (hbp : X.code.size ≤ bp) (hK : K.isEntry)
    (hparams : K.params = 0) : Chain X Φ mem bp K []
  | call {bp : Nat} {K : Routine} {F : Frame} {L : List Frame} (hK : ¬K.isEntry)
    (hF : F.Stands X Φ (Routine.after K.hasResult F.entries))
    (hzero : K.hasResult = false →
      F.home.routine.isEntry ∨ ∃ rest, F.behind = .withWord .push 0 :: rest)
    (hstack : Stacked mem F.lo F.vs) (hbase : bp = F.sp + (K.params + 4))
    (hip : mem (bp - 3) = Word.ofNat F.ip) (hbp : mem (bp - 2) = Word.ofNat F.bp)
    (hsp : mem (bp - 1) = Word.ofNat F.sp) (hL : Chain X Φ mem F.bp F.home.routine L) :
    Chain X Φ mem bp K (F :: L)

namespace Chain

variable {X : Layout} {Φ Ψ : Nat → FunctionId → Prop} {mem mem' : Nat → Word} {bp : Nat}
  {K : Routine} {L : List Frame}

theorem code_le (h : Chain X Φ mem bp K L) : X.code.size ≤ bp := by
  induction h with
  | entry hbp _ _ => exact hbp
  | call _ _ _ _ hbase _ _ _ _ ih =>
    simp only [Frame.sp, Frame.lo] at hbase
    omega

/-- The parameters stand behind the code. -/
theorem param_le (h : Chain X Φ mem bp K L) (hK : 0 < K.params) :
    X.code.size + (K.params + 4) ≤ bp := by
  cases h with
  | entry _ _ hparams => omega
  | call _ _ _ _ hbase _ _ _ hL =>
    have := hL.code_le
    simp only [Frame.sp, Frame.lo] at hbase
    omega

/-- The cells below the base matter, but for the parameters. -/
theorem congr (h : Chain X Φ mem bp K L)
    (hmem : ∀ a < bp, ¬(bp ≤ a + (K.params + 3) ∧ a + 3 < bp) → mem' a = mem a) :
    Chain X Φ mem' bp K L := by
  induction h with
  | entry hbp hK hparams => exact .entry hbp hK hparams
  | call hK hF hzero hstack hbase hip hbp hsp hL ih =>
    have hsp' := hbase
    simp only [Frame.sp, Frame.lo] at hsp'
    refine .call hK hF hzero (hstack.congr fun a _ ha => hmem a ?_ ?_) hbase ?_ ?_ ?_
      (ih fun a ha _ => hmem a ?_ ?_)
    · simp only [Frame.lo] at ha
      omega
    · simp only [Frame.lo] at ha
      omega
    · rw [hmem _ (by omega) (by omega)]
      exact hip
    · rw [hmem _ (by omega) (by omega)]
      exact hbp
    · rw [hmem _ (by omega) (by omega)]
      exact hsp
    · omega
    · omega

theorem mono (h : Chain X Φ mem bp K L) (hΦ : ∀ x id, x < bp → Φ x id → Ψ x id) :
    Chain X Ψ mem bp K L := by
  induction h with
  | entry hbp hK hparams => exact .entry hbp hK hparams
  | call hK hF hzero hstack hbase hip hbp hsp hL ih =>
    have hsp' := hbase
    simp only [Frame.sp, Frame.lo] at hsp'
    refine .call hK ⟨hF.home, hF.items, hF.flow, hF.entries.mono fun x id hx => hΦ x id ?_⟩ hzero
      hstack hbase hip hbp hsp (ih fun x id hx => hΦ x id ?_)
    · simp only [Frame.lo] at hx
      omega
    · omega

end Chain

/-! ## Running machines -/

/-- The routines are those of the program, and addresses can be counted in a word. -/
structure Layout.Valid (X : Layout) (p : Program) (lenient : Prop) : Prop where
  routines : Routines p X.code X.env lenient X.routines
  memory : X.memory ≤ 0x4000000000000000

/-- A machine seen from the frame of the running function. -/
def Frame.view (F : Frame) (m : Machine) : View :=
  ⟨F.ip, F.bp, F.lo, F.vs, m.cell, m.world⟩

/-- The machine runs the function of frame `F`, and the frames of `L` wait for returns. -/
structure Inv (X : Layout) (Φ : Nat → FunctionId → Prop) (m : Machine) (F : Frame)
    (L : List Frame) : Prop where
  shows : m.Shows X.code X.memory (F.view m)
  stands : F.Stands X Φ F.entries
  chain : Chain X Φ m.cell F.bp F.home.routine L

section

variable {X : Layout} {Φ : Nat → FunctionId → Prop} {m : Machine} {F : Frame} {L : List Frame}

theorem Inv.ip_eq (h : Inv X Φ m F L) : m.ip = F.ip := h.shows.ip

theorem Inv.bp_eq (h : Inv X Φ m F L) : m.bp = F.bp := h.shows.bp

theorem Inv.sp_eq (h : Inv X Φ m F L) : m.sp = F.sp := h.shows.sp

end

/-- Code that flows has an instruction. -/
theorem Flow.lt_size {K : Routine} {k : Nat} {is : List Item} {σ : List Entry} (h : Flow K k is σ)
    {code : Array Word} {env : Addresses} {a : Nat} (hl : Item.Lies code env a is) :
    a < code.size := by
  induction h with
  | place _ ih => exact ih hl.2
  | _ => exact (Array.getElem?_eq_some_iff.mp (hl.1 0 _ rfl)).1

section

variable {X : Layout} {p : Program} {lenient : Prop} {Φ : Nat → FunctionId → Prop} {F : Frame}
  {L : List Frame} {σ : List Entry}

theorem Frame.Stands.lies (hX : X.Valid p lenient) (h : F.Stands X Φ σ) :
    Item.Lies X.code X.env F.ip F.behind := by
  have hl := hX.routines.lies _ h.home
  rw [h.items] at hl
  exact (Item.lies_append.mp hl).2

theorem Frame.Stands.ip_lt (hX : X.Valid p lenient) (h : F.Stands X Φ σ) : F.ip < X.code.size :=
  h.flow.lt_size (h.lies hX)

/-- The words of the next instruction. -/
theorem Frame.Stands.words (hX : X.Valid p lenient) (h : F.Stands X Φ σ) {op : Op}
    {operands : List Operand} {rest : List Item} (hb : F.behind = .instr op operands :: rest) :
    X.code[F.ip]? = some op.word ∧
      ∀ o, operands[0]? = some o → X.code[F.ip + 1]? = some (o.resolve X.env) := by
  have hl := h.lies hX
  rw [hb] at hl
  exact ⟨hl.1 0 _ rfl, fun o ho => hl.1 1 o ho⟩

/-- Labels need no steps. -/
theorem Flow.skip {K : Routine} {k : Nat} {items before behind : List Item}
    (hitems : items = before ++ behind) (h : Flow K k behind σ) :
    ∃ before' op operands rest, items = before' ++ .instr op operands :: rest ∧
      Item.size before' = Item.size before ∧ Flow K k (.instr op operands :: rest) σ := by
  induction behind generalizing before with
  | nil => cases h
  | cons i behind ih =>
    cases i with
    | place l =>
      cases h with
      | place h =>
        obtain ⟨before', op, operands, rest, heq, hsize, hflow⟩ :=
          ih (hitems.trans (List.append_cons ..)) h
        exact ⟨before', op, operands, rest, heq, by simpa using hsize, hflow⟩
    | instr op operands => exact ⟨before, op, operands, behind, hitems, rfl, h⟩

/-- The frame of the running function may be taken to be at an instruction. -/
theorem Inv.skip {m : Machine} (h : Inv X Φ m F L) :
    ∃ F', Inv X Φ m F' L ∧ F'.home = F.home ∧ F'.bp = F.bp ∧ F'.cells = F.cells ∧
      ∃ op operands rest, F'.behind = .instr op operands :: rest := by
  obtain ⟨before, op, operands, rest, hitems, hsize, hflow⟩ := h.stands.flow.skip h.stands.items
  refine ⟨{ F with before := before, behind := .instr op operands :: rest }, ⟨?_, ?_, h.chain⟩, rfl,
    rfl, rfl, op, operands, rest, rfl⟩
  · have hshows := h.shows
    rw [Frame.view, Frame.ip, ← hsize] at hshows
    exact hshows
  · exact ⟨h.stands.home, hitems, hflow, h.stands.entries⟩

end

end StackLang
