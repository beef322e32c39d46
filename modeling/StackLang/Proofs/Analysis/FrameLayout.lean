import Mathlib.Algebra.GroupWithZero.Nat
import StackLang.Proofs.Analysis.Cells
import StackLang.Proofs.Analysis.Checked
import StackLang.Proofs.Machine.Alike
import StackLang.Proofs.Machine.Trace

/-!
# The layout of frames

The declarations of a function divide its frame among them: their cells lie one behind the other
from the base on, in the order in which the declarations are visited, and nothing is left over.  The
parameters lie below the three cells that a call saves, where the caller has put the arguments.

* `Stmt.declarations` — the declarations in a statement, with the numbers of their cells.
* `Function.LaidOut` — the cells of a function, as its notes have them.
* `Machine.AtCall.step` — where a call leaves its arguments.
* `resolve_laysOut` — the frames of a parsed program, and how their parameters are read.
-/

namespace StackLang

/-! ## Declarations -/

namespace Stmt

variable {τ : Type}

mutual

/-- The declarations in a statement with the numbers of their cells, in the order in which they are
visited. -/
def declarations : Stmt τ → List (τ × Nat)
  | .node _ (.block body) => declarationsList body
  | .node _ (.choice branches otherwise) =>
    declarationsBranches branches ++ declarationsOption otherwise
  | .node _ (.whileLoop _ body) => body.declarations
  | .node _ (.forLoop init _ _ body) => declarationsOption init ++ body.declarations
  | .node t (.var _ _ _) => [(t, 1)]
  | .node t (.array _ _ length _) => [(t, length)]
  | .node _ (.ret _ _) | .node _ (.expression _) | .node _ (.output _ _) | .node _ (.input _)
  | .node _ (.stop _) | .node _ (.skip _) => []

def declarationsList : List (Stmt τ) → List (τ × Nat)
  | [] => []
  | s :: ss => s.declarations ++ declarationsList ss

def declarationsBranches : List (Expr τ × Stmt τ) → List (τ × Nat)
  | [] => []
  | (_, s) :: rest => s.declarations ++ declarationsBranches rest

def declarationsOption : Option (Stmt τ) → List (τ × Nat)
  | none => []
  | some s => s.declarations

end

theorem declarationsList_eq (ss : List (Stmt τ)) :
    declarationsList ss = ss.flatMap declarations := by
  induction ss with
  | nil => rfl
  | cons s ss ih => rw [declarationsList, ih, List.flatMap_cons]

theorem declarationsBranches_eq (bs : List (Expr τ × Stmt τ)) :
    declarationsBranches bs = (bs.map Prod.snd).flatMap declarations := by
  induction bs with
  | nil => rfl
  | cons b bs ih => rw [declarationsBranches, ih, List.map_cons, List.flatMap_cons]

theorem declarationsOption_eq (s : Option (Stmt τ)) :
    declarationsOption s = s.toList.flatMap declarations := by
  cases s <;> simp [declarationsOption]

/-- A statement is a declaration itself, or its declarations are those of the statements in it. -/
theorem declarations_node (t : τ) (shape : Shape (Stmt τ) (Expr τ)) :
    (node t shape).declarations =
      shape.children.flatMap declarations ++ (shape.cells?.map (t, ·)).toList := by
  cases shape <;> simp [declarations, Shape.cells?, declarationsList_eq, declarationsBranches_eq,
    declarationsOption_eq]

end Stmt

namespace Tree

variable {t : Tree} {n : Notes}

/-- The declarations among the marks, with the numbers of their cells. -/
def declaredCells (t : Tree) (ms : List Mark) : List (Mark × Nat) :=
  ms.filterMap fun m => (t.cells? m.id).map (m, ·)

theorem declaredCells_nil : t.declaredCells [] = [] :=
  rfl

theorem declaredCells_append (as bs : List Mark) :
    t.declaredCells (as ++ bs) = t.declaredCells as ++ t.declaredCells bs :=
  List.filterMap_append

theorem declaredCells_cons (a : Mark) (ms : List Mark) :
    t.declaredCells (a :: ms) = ((t.cells? a.id).map (a, ·)).toList ++ t.declaredCells ms := by
  rw [declaredCells, List.filterMap_cons]
  cases t.cells? a.id <;> rfl

/-- The declarations in a statement of the tree are those among its marks. -/
theorem declarations_of_held {s : Stmt Mark} (h : s.Held t) :
    s.declarations = t.declaredCells s.tags := by
  induction s using Stmt.induction with
  | step m shape ih =>
    have hchildren : ∀ ss : List (Stmt Mark), (∀ s ∈ ss, s ∈ shape.children) →
        ss.flatMap Stmt.declarations = t.declaredCells (ss.flatMap Stmt.tags) := by
      intro ss hss
      induction ss with
      | nil => rfl
      | cons s ss ihs =>
        have hs := hss s List.mem_cons_self
        rw [List.flatMap_cons, List.flatMap_cons, declaredCells_append, ih s hs (h.child s hs),
          ihs fun s' hs' => hss s' (List.mem_cons_of_mem _ hs')]
    rw [Stmt.declarations_node, Stmt.tags_node, declaredCells_append, declaredCells_cons,
      hchildren shape.children fun _ hs => hs, cells?_of_held h, declaredCells_nil, List.append_nil]

/-- The cells of the declarations among the marks. -/
theorem cells_eq_sum (ms : List Mark) : t.cells ms = ((t.declaredCells ms).map Prod.snd).sum := by
  induction ms with
  | nil => rfl
  | cons a ms ih =>
    rw [declaredCells_cons, List.map_append, List.sum_append, ← ih, cells, List.map_cons,
      List.sum_cons, ← cells]
    cases t.cells? a.id <;> simp

end Tree

/-! ## Places in the frame -/

/-- The cell at place `x` of the frame is one of the declaration's. -/
def Notes.HasCell (n : Notes) (d : Mark × Nat) (x : Int) : Prop :=
  ∃ slot, (n.stmt d.1.id).slot = some slot ∧ slot ≤ x ∧ x < slot + d.2

namespace Tree.Slotted

variable {t : Tree} {n : Notes} {k : Int} {ms : List Mark} {d : Mark × Nat}

/-- Every declaration begins behind the cells of those before it. -/
theorem consecutive (h : t.Slotted n k ms) {pre suf : List (Mark × Nat)}
    (hsplit : t.declaredCells ms = pre ++ d :: suf) :
    (n.stmt d.1.id).slot = some (k + ((pre.map Prod.snd).sum : Nat)) := by
  -- Along the marks, `k` counts the cells of the declarations that have been passed.
  induction ms generalizing k pre with
  | nil => simp [declaredCells] at hsplit
  | cons a ms ih =>
    rw [declaredCells_cons] at hsplit
    obtain ⟨hslot, hrest⟩ := h
    cases hc : t.cells? a.id with
    | none =>
      rw [hc] at hsplit hrest
      simpa using ih hrest hsplit
    | some c =>
      rw [hc] at hsplit hrest
      cases pre with
      | nil =>
        obtain ⟨rfl, -⟩ := List.cons.inj hsplit
        simpa using hslot c hc
      | cons e pre =>
        obtain ⟨rfl, hsplit'⟩ := List.cons.inj hsplit
        rw [ih hrest hsplit', List.map_cons, List.sum_cons, Option.getD_some, Int.natCast_add,
          Int.add_assoc]

/-- The cells of a declaration are among those of all declarations. -/
theorem range_of_hasCell (h : t.Slotted n k ms) (hd : d ∈ t.declaredCells ms) {x : Int}
    (hx : n.HasCell d x) : k ≤ x ∧ x < k + t.cells ms := by
  obtain ⟨m, hm, hmap⟩ := List.mem_filterMap.mp hd
  obtain ⟨c, hc, rfl⟩ := Option.map_eq_some_iff.mp hmap
  obtain ⟨slot, hslot, hle, hlt⟩ := hx
  have hrange := h.slot_range hm hc hslot
  simp only at hlt
  omega

/-- No cell is one of two declarations. -/
theorem pairwise_hasCell (h : t.Slotted n k ms) :
    (t.declaredCells ms).Pairwise fun d e => ∀ x, n.HasCell d x → ¬n.HasCell e x := by
  induction ms generalizing k with
  | nil => exact List.Pairwise.nil
  | cons a ms ih =>
    obtain ⟨hslot, hrest⟩ := h
    rw [declaredCells_cons]
    cases hc : t.cells? a.id with
    | none => exact ih hrest
    | some c =>
      refine List.pairwise_cons.mpr ⟨fun e he x hx hx' => ?_, ih hrest⟩
      obtain ⟨slot, hs, -, hlt⟩ := hx
      cases (hslot c hc).symm.trans hs
      have hrange := hrest.range_of_hasCell he hx'
      rw [hc, Option.getD_some] at hrange
      simp only at hlt
      omega

/-- Every cell is one of a declaration. -/
theorem exists_hasCell (h : t.Slotted n k ms) {x : Int} (hle : k ≤ x) (hlt : x < k + t.cells ms) :
    ∃ d ∈ t.declaredCells ms, n.HasCell d x := by
  induction ms generalizing k with
  | nil =>
    rw [cells_nil] at hlt
    omega
  | cons a ms ih =>
    obtain ⟨hslot, hrest⟩ := h
    have hsum : t.cells (a :: ms) = (t.cells? a.id).getD 0 + t.cells ms := by simp [cells]
    rw [declaredCells_cons]
    by_cases hin : x < k + (t.cells? a.id).getD 0
    · cases hc : t.cells? a.id with
      | none =>
        rw [hc, Option.getD_none] at hin
        omega
      | some c =>
        rw [hc, Option.getD_some] at hin
        exact ⟨(a, c), List.mem_cons_self, k, hslot c hc, hle, hin⟩
    · obtain ⟨d, hd, hx⟩ := ih hrest (by omega) (by omega)
      exact ⟨d, List.mem_append_right _ hd, hx⟩

end Tree.Slotted

/-- The declarations of a function divide its frame among them, one behind the other from the base
on.  The parameters end three cells below the base. -/
structure Function.LaidOut (n : Notes) (id : FunctionId) (f : Function (Stmt Mark)) : Prop where
  consecutive : ∀ pre d suf, f.body.declarations = pre ++ d :: suf →
    (n.stmt d.1.id).slot = some (Int.ofNat (pre.map Prod.snd).sum)
  disjoint : f.body.declarations.Pairwise fun d e => ∀ x, n.HasCell d x → ¬n.HasCell e x
  cover : ∀ x, (∃ d ∈ f.body.declarations, n.HasCell d x) ↔
    0 ≤ x ∧ x < (n.function id).frameSlots
  size : (n.function id).frameSlots = ((f.body.declarations.map Prod.snd).sum : Nat)
  params : (n.function id).slots =
    (List.range f.params.length).map fun i : Nat => -3 - (f.params.length : Int) + i

theorem Tree.Framed.laidOut {t : Tree} {n : Notes} {id : FunctionId} {f : Function (Stmt Mark)}
    (h : t.Framed n id f) (hheld : f.body.Held t) : f.LaidOut n id := by
  have hdecls := declarations_of_held hheld
  refine ⟨fun pre d suf hsplit => ?_, ?_, fun x => ?_, ?_, ?_⟩
  · rw [h.slots.consecutive (hdecls.symm.trans hsplit), Int.zero_add]
    rfl
  · rw [hdecls]
    exact h.slots.pairwise_hasCell
  · rw [hdecls, h.frame]
    constructor
    · rintro ⟨d, hd, hx⟩
      simpa using h.slots.range_of_hasCell hd hx
    · rintro ⟨hle, hlt⟩
      exact h.slots.exists_hasCell hle (by simpa using hlt)
  · rw [hdecls, h.frame, cells_eq_sum]
  · rw [h.params]
    refine List.map_congr_left fun i _ => ?_
    rw [paramSlot, frameHeader]
    omega

/-! ## Arguments -/

namespace Machine

variable {code : Array Word} {cells : Nat} {m : Machine} {args : List Word}

/-- An intact machine shows the words on top of its stack. -/
theorem Intact.shows {lo : Nat} {vs : List Word} (h : Intact code cells m) (hlo : code.size ≤ lo)
    (hsp : m.sp = lo + vs.length) (hvs : Stacked m.cell lo vs) :
    m.Shows code (code.size + cells) ⟨m.ip, m.bp, lo, vs, m.cell, m.world⟩ where
  codeLen := h.codeLen
  size := h.size
  words i w hi := h.cell hi
  ip := rfl
  bp := rfl
  sp := hsp
  above := hlo
  below := by
    have hle := h.sp.2
    rw [h.size, hsp] at hle
    exact hle
  mem _ _ := rfl
  stack := hvs
  world := rfl

/-- The machine is about to call the function at address `t` with the arguments, which have been
pushed behind that address, and there is room for what a call saves. -/
structure AtCall (code : Array Word) (cells : Nat) (args : List Word) (t : Nat) (m : Machine) :
    Prop where
  intact : m.Intact code cells
  /-- An address is a word, also with the offset of a cell of the memory added to it. -/
  bound : code.size + cells ≤ 0x4000000000000000
  op : code[m.ip]? = some Op.call.word
  count : code[m.ip + 1]? = some (Word.ofNat args.length)
  target : t < code.size
  depth : code.size + (args.length + 1) ≤ m.sp
  stack : Stacked m.cell (m.sp - (args.length + 1)) (args.reverse ++ [Word.ofNat t])
  room : m.sp + 3 ≤ m.mem.size

/-- The machine is about to read the cell at an offset from its base, and there is room for it. -/
structure AtPeek (code : Array Word) (cells : Nat) (offset : Word) (m : Machine) : Prop where
  intact : m.Intact code cells
  bound : code.size + cells ≤ 0x4000000000000000
  op : code[m.ip]? = some Op.peek.word
  operand : code[m.ip + 1]? = some offset
  room : m.sp < m.mem.size

/-- A call leads to the function and leaves the arguments where they are, three cells below the new
base. -/
theorem AtCall.step {t : Nat} (h : m.AtCall code cells args t) :
    ∃ m', step m = .ok none m' ∧ m'.ip = t ∧ m'.bp = m.sp + 3 ∧
      ∀ (i : Nat) (w : Word), args[i]? = some w → m'.cell (m.sp - args.length + i) = w := by
  have hlen : (args.reverse ++ [Word.ofNat t]).length = args.length + 1 := by simp
  have hdepth := h.depth
  have hsp : m.sp = m.sp - (args.length + 1) + (args.reverse ++ [Word.ofNat t]).length := by omega
  have hshows := h.intact.shows (by omega) hsp h.stack
  obtain ⟨m', hstep, hshows'⟩ := step_call h.op
    (by rw [List.length_reverse]; exact h.count) rfl h.target
    (by rw [← hshows.sp, ← h.intact.size]; exact h.room) h.bound m hshows
  refine ⟨m', hstep, hshows'.ip, hshows'.bp.trans (by rw [← hshows.sp]), fun i w hw => ?_⟩
  -- The three words that the call has pushed are on top of the arguments.
  have hstack := Stacked.append.mp hshows'.stack.2.2.2
  have hcell := hstack.1.cell_of_reverse (List.reverse_reverse args ▸ hw)
  rwa [show m.sp - args.length = m.sp - (args.length + 1) + [Word.ofNat t].length by
    rw [List.length_singleton]; omega]

/-- The cell is read wherever the stack ends. -/
theorem AtPeek.step {offset : Word} {x : Nat} (h : m.AtPeek code cells offset)
    (hx : (m.bp : Int) + offset.toInt = x) (hlo : code.size ≤ x) (hhi : x < m.mem.size) :
    step m = .ok none { m with
      ip := m.ip + 2, mem := m.mem.setIfInBounds m.sp (m.cell x), sp := m.sp + 1 } := by
  have hempty : Stacked m.cell m.sp [] := trivial
  have hnext := (h.intact.shows h.intact.sp.1 rfl hempty).nextOp? h.op
  have hlen : m.ip + Op.peek.arity < m.codeLen := by
    rw [h.intact.codeLen]
    exact (Array.getElem?_eq_some_iff.mp h.operand).1
  have hsize := h.intact.size
  have hbound := h.bound
  have hin : (m.behind .peek).inStack x = true := by
    rw [inStack_iff, show (m.behind .peek).codeLen = code.size from h.intact.codeLen]
    exact ⟨by omega, Int.ofNat_lt.mpr hhi⟩
  have haddr : frameAddress offset (m.behind .peek) = .ok x (m.behind .peek) :=
    frameAddress_of_inStack hx hin (by rw [show (m.behind .peek).mem.size = _ from hsize]; omega)
  have hpush : push (m.cell x) (m.behind .peek) = .ok () { m with
      ip := m.ip + 2, mem := m.mem.setIfInBounds m.sp (m.cell x), sp := m.sp + 1 } :=
    if_pos h.room
  have hperform : perform m.ip .peek offset (m.behind .peek) = .ok () { m with
      ip := m.ip + 2, mem := m.mem.setIfInBounds m.sp (m.cell x), sp := m.sp + 1 } :=
    (bind_of_ok haddr).trans ((bind_of_ok rfl).trans hpush)
  rw [step_of_operand hnext hlen, h.intact.cell h.operand, bind_of_ok hperform]
  rfl

end Machine

/-! ## Parsed programs -/

/-- Every function of a parsed program has a frame that its declarations divide among them, whatever
errors are found.  A call of a function with as many arguments as it has parameters leads to its
code, and from there on the place of a parameter is that of its argument, as long as the arguments
are not written to. -/
theorem resolve_laysOut {tokens : List Token} {p : Program}
    (hparse : Program.parse tokens = .ok p) :
    p.tree.views.map Prod.fst = List.range p.tree.functions.size ∧
    ∀ v ∈ p.tree.views, v.2.LaidOut p.resolve.1.notes v.1 ∧
      ∀ (code : Array Word) (cells : Nat) (args : List Word) (t : Nat) (m : Machine),
        m.AtCall code cells args t → args.length = v.2.params.length →
        ∃ m', Machine.step m = .ok none m' ∧ m'.ip = t ∧ m'.bp = m.sp + 3 ∧
          ∀ (i : Nat) (slot : Int) (w : Word),
            (p.resolve.1.notes.function v.1).slots[i]? = some slot → args[i]? = some w →
            ∀ m'' : Machine, m''.AtPeek code cells (Int64.ofInt slot) → m''.bp = m'.bp →
              (∀ a, m.sp - args.length ≤ a → a < m.sp → m''.cell a = m'.cell a) →
              Machine.step m'' = .ok none { m'' with
                ip := m''.ip + 2, mem := m''.mem.setIfInBounds m''.sp w, sp := m''.sp + 1 } := by
  obtain ⟨t, ht, rfl⟩ := orderly_of_parse hparse
  obtain ⟨framed, -, -⟩ := resolve_framed ht (covers_link ht)
  refine ⟨ht.ids, fun v hv => ?_⟩
  have hlaid : v.2.LaidOut (Program.ofTree t).resolve.1.notes v.1 :=
    (framed v hv).laidOut (ht.held v hv)
  refine ⟨hlaid, fun code cells args target m hcall hlen => ?_⟩
  obtain ⟨m', hstep, hip, hbp, hcell⟩ := hcall.step
  refine ⟨m', hstep, hip, hbp, fun i slot w hslot hw m'' hpeek hbp'' hkept => ?_⟩
  have hi : i < args.length := (List.getElem?_eq_some_iff.mp hw).1
  have hsize := hcall.intact.size
  have hsize'' := hpeek.intact.size
  have hbound := hcall.bound
  have hdepth := hcall.depth
  have hroom := hcall.room
  have hvalue : slot = -3 - (v.2.params.length : Int) + i := by
    rw [hlaid.params, List.getElem?_map, List.getElem?_range (by omega)] at hslot
    exact (Option.some.inj hslot).symm
  have hoffset : (Int64.ofInt slot).toInt = slot := Int64.toInt_ofInt_of_le (by omega) (by omega)
  have hx : (m''.bp : Int) + (Int64.ofInt slot).toInt = (m.sp - args.length + i : Nat) := by
    rw [hoffset, hbp'', hbp]
    omega
  rw [hpeek.step hx (by omega) (by omega), hkept _ (by omega) (by omega), hcell i w hw]

set_option maxRecDepth 20000 in
/-- A function whose declarations are nested, with two of one name in one block, is called with the
arguments 7 and 8, and reads its second parameter. -/
theorem resolve_laysOut_nested :
    ∃ tokens p v, Program.parse tokens = .ok p ∧ v ∈ p.tree.views ∧ v.2.params.length = 2 ∧
      v.2.body.declarations.map Prod.snd = [1, 3, 1, 1, 1] ∧
      v.2.LaidOut p.resolve.1.notes v.1 ∧
      ∃ (code : Array Word) (m m' m'' : Machine), m.AtCall code 8 [7, 8] 2 ∧
        Machine.step m = .ok none m' ∧ Machine.step m' = .ok none m'' ∧ m''.cell m'.sp = 8 := by
  obtain ⟨tokens, h⟩ : ∃ tokens, ((Program.parse tokens).toOption.any fun p =>
      p.tree.views.any fun v => decide (v.2.params.length = 2) &&
        decide (v.2.body.declarations.map Prod.snd = [1, 3, 1, 1, 1])) = true := by
    refine ⟨((Token.scan ("int f(int a, int b) \x7b int x = a; while (x < b) \x7b int x[3]; \x7d" ++
      " for (int i = 0; i < b; i++) \x7b int y; int y; \x7d return x; \x7d")).toOption).getD [], ?_⟩
    decide +kernel
  simp only [any_toOption_iff, List.any_eq_true, Bool.and_eq_true, decide_eq_true_eq] at h
  obtain ⟨p, hp, v, hv, hparams, hdecls⟩ := h
  obtain ⟨hlaid, hcalls⟩ := (resolve_laysOut hp).2 v hv
  let code : Array Word := #[Op.call.word, 2, Op.peek.word, -4]
  let m : Machine := { Machine.load code .empty [] ⟨8, none, 0⟩ with
    mem := code ++ #[2, 7, 8, 0, 0, 0, 0, 0], sp := 7 }
  let next : Machine := { m with
    ip := 2, bp := 10, sp := 10, mem := code ++ #[2, 7, 8, 2, 4, 4, 0, 0] }
  have hcall : m.AtCall code 8 [7, 8] 2 :=
    ⟨by decide, by decide, rfl, rfl, by decide, by decide, ⟨rfl, rfl, rfl, trivial⟩, by decide⟩
  obtain ⟨m', hstep, -, -, hpeeks⟩ := hcalls code 8 [7, 8] 2 m hcall hparams.symm
  have hnext : m.after 1 = some next := by decide +kernel
  obtain rfl : next = m' := Option.some.inj (hnext.symm.trans (Machine.after_succ rfl hstep))
  have hpeek : next.AtPeek code 8 (Int64.ofInt (-4)) :=
    ⟨by decide, by decide, rfl, rfl, by decide⟩
  have hslot : (p.resolve.1.notes.function v.1).slots[1]? = some (-4) := by
    rw [hlaid.params, hparams]
    rfl
  exact ⟨tokens, p, v, hp, hv, hparams, hdecls, hlaid, code, m, next, _, hcall, hstep,
    hpeeks 1 (-4) 8 hslot rfl next hpeek rfl fun _ _ _ => rfl, rfl⟩

end StackLang
