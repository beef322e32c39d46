import StackLang.Proofs.Code.CallSites
import StackLang.Proofs.Code.Soundness
import StackLang.Proofs.Safety.StackMap

/-!
# The layout of the code

The code of a program begins with a stub that calls `main`; the functions follow in the order of
their declarations, each at the address that the symbols give.  The instructions of a function are
the words up to the next one: its cells are reserved first, if it has any, and a return is last.
Its jumps stay among them, and each of its calls pushes the address that the symbols give to the
function that the call is bound to, wherever that one is.

* `Function.Occupies` — the code of one function.
* `Generated.Layout` — the code of a program.
* `compileSource_layout` — compiled programs are laid out so.
-/

namespace StackLang

open Generate (Context)

/-! ## Functions -/

/-- The instructions between two addresses. -/
def Code.between (start stop : Nat) (is : List Instruction) : List Instruction :=
  is.filter fun i => start ≤ i.address ∧ i.address < stop

/-- The instruction that reserves the cells of a function, if it has any. -/
def Code.reserving (start : Nat) (cells : Int) : List Instruction :=
  if 0 < cells then [⟨start, .alloc, some (Int64.ofInt cells)⟩] else []

theorem Code.callAddresses_reserving (start : Nat) (cells : Int) :
    callAddresses (reserving start cells) = [] := by
  rw [reserving]
  split <;> rfl

/-- The calls in a function whose code begins at `start`. -/
def Function.callSites (f : Function (Stmt Mark)) (p : Program) (id : FunctionId) (start : Nat) :
    List CallSite :=
  f.body.callSites ⟨p.tree, p.notes, f.returnType⟩ (p.bodyStart id start)

/-- The code of a function is that from `start` on, up to `stop`. -/
structure Function.Occupies (f : Function (Stmt Mark)) (p : Program) (g : Generated)
    (is : List Instruction) (id : FunctionId) (start stop : Nat) : Prop where
  /-- The words there are those of whole instructions. -/
  words : Code.Consists start ((g.code.toList.drop start).take (stop - start))
    (Code.between start stop is)
  /-- Cells are reserved first, if there are any, and nowhere else; a return is last. -/
  shape : ∃ body, (∀ i ∈ body, i.op ≠ .alloc) ∧ Code.between start stop is =
    Code.reserving start (p.notes.function id).frameSlots ++ body ++ [⟨stop - 1, .ret, none⟩]
  /-- The number of cells is a word. -/
  frame : (Int64.ofInt (p.notes.function id).frameSlots).toInt = (p.notes.function id).frameSlots
  /-- Jumps go to instructions of the function. -/
  jumps : ∀ i ∈ Code.between start stop is, ∀ w, i.jumpTarget? = some w →
    ∃ j ∈ Code.between start stop is, w = Word.ofNat j.address
  /-- It is known of every call in the source where it is, -/
  marks : ((f.callSites p id start).map CallSite.mark).Perm (f.body.exprTags.filter p.tree.isCall)
  /-- no two of them push the function at the same place, -/
  ascending : ((f.callSites p id start).map CallSite.push).Pairwise (· < ·)
  /-- the address that is pushed is that of the function that the call is bound to, -/
  calls : ∀ x ∈ f.callSites p id start, ∃ callee b,
    (p.notes.expr x.mark.id).binding = some (.function callee) ∧ g.start? callee = some b ∧
      ⟨x.push, .push, some (Word.ofNat b)⟩ ∈ Code.between start stop is ∧
      ⟨x.call, .call, some (Word.ofNat x.arguments)⟩ ∈ Code.between start stop is
  /-- and there are no other calls. -/
  all : (Code.callAddresses (Code.between start stop is)).Perm
    ((f.callSites p id start).map CallSite.call)

/-- The instructions of a function: those of its body, between the reservation and the return. -/
theorem Function.Code.instructions_eq {p : Program} {P : StringPool} {id : FunctionId}
    {f : Function (Stmt Mark)} {js : List Item} (h : Function.Code p P id f js)
    (hframe : (p.notes.function id).frameSlots = p.tree.cells f.body.tags) (env : Addresses)
    (a : Nat) : ∃ body, f.body.Code ⟨p.tree, p.notes, f.returnType⟩ P none body ∧
      Item.instructions env a js = Code.reserving a (p.notes.function id).frameSlots ++
        Item.instructions env (p.bodyStart id a) body ++ [⟨a + Item.size js - 1, .ret, none⟩] := by
  cases h with
  | @mk body hbody =>
    have hstart := Program.bodyStart_eq hframe a
    have hsize : a + Item.size ([.place id] ++ Item.reserving (p.tree.cells f.body.tags) ++ body ++
        [.plain .ret]) = p.bodyStart id a + Item.size body + 1 := by
      simp only [Item.size_append, Item.size_place, Item.size_plain, Item.size_nil, hstart]
      omega
    refine ⟨body, hbody, ?_⟩
    have hreserving : Item.instructions env a (Item.reserving (p.tree.cells f.body.tags)) =
        Code.reserving a (p.notes.function id).frameSlots := by
      rw [Item.reserving, Code.reserving, hframe]
      by_cases hk : 0 < p.tree.cells f.body.tags
      · rw [if_pos hk, if_pos (by omega)]
        rfl
      · rw [if_neg hk, if_neg (by omega)]
        rfl
    have hbehind : a + Item.size ([.place id] ++ Item.reserving (p.tree.cells f.body.tags)) =
        p.bodyStart id a := by
      rw [Item.size_append, Item.size_place, Item.size_nil, Nat.zero_add, hstart]
    rw [hsize, Item.instructions_append, Item.instructions_append, Item.instructions_append,
      hbehind, Item.size_append _ body, ← Nat.add_assoc, hbehind, Item.size_place, Item.size_nil,
      Nat.add_zero, hreserving]
    rfl

/-- A call in some items pushes the address of the function that it is bound to. -/
theorem Generate.Context.Calls.instructions {c : Context} {a : Nat} {is : List Item} {x : CallSite}
    (h : c.Calls a is x) {g : Generated} {env : Addresses}
    (henv : ∀ id < c.tree.functions.size, ∃ b, env id = some b ∧ g.start? id = some b) :
    ∃ callee b, (c.notes.expr x.mark.id).binding = some (.function callee) ∧
      g.start? callee = some b ∧
      ⟨x.push, .push, some (Word.ofNat b)⟩ ∈ Item.instructions env a is ∧
      ⟨x.call, .call, some (Word.ofNat x.arguments)⟩ ∈ Item.instructions env a is := by
  obtain ⟨pre, args, suf, id, f, rfl, hb, hf, hpush, hcall⟩ := h
  obtain ⟨b, hid, hstart⟩ := henv id (Array.getElem?_eq_some_iff.mp hf).1
  refine ⟨id, b, hb, hstart, ?_⟩
  simp only [Item.instructions_append, List.mem_append, Item.size_append, Item.size_withLabel,
    Item.size_nil, Nat.add_zero, ← hpush, ← hcall, ← Nat.add_assoc]
  refine ⟨.inl (.inr (.inl (.inl ?_))), .inl (.inr (.inr ?_))⟩
  · simp [Item.withLabel, Item.instructions, Operand.resolve, hid]
  · simp [Item.withWord, Item.instructions, Operand.resolve]

/-! ## Programs -/

namespace Program.Assembled

variable {p : Program} {g : Generated} {env : Addresses} {items : List Item}

/-- The words of a part of the items. -/
theorem words_part {pre js suf : List Item} (h : p.Assembled g env (pre ++ js ++ suf)) :
    (g.code.toList.drop (Item.size pre)).take (Item.size js) =
      (Item.allCells js).map (Operand.resolve env) := by
  rw [h.lies.toList_eq h.size, Item.allCells_append, Item.allCells_append, List.map_append,
    List.map_append, List.append_assoc, List.drop_left' (by rw [List.length_map]; rfl),
    List.take_left' (by rw [List.length_map]; rfl)]

/-- The instructions between the addresses of a part of the items are its own. -/
theorem between_part (env : Addresses) (pre js suf : List Item) :
    Code.between (Item.size pre) (Item.size pre + Item.size js)
      (Item.instructions env 0 (pre ++ js ++ suf)) = Item.instructions env (Item.size pre) js := by
  have hpart := @Item.filter_instructions_part env 0 js pre suf
  simp only [Nat.zero_add] at hpart
  exact hpart

/-- Jumps stay within the code of their function. -/
theorem jumps {pre js suf : List Item} (h : p.Assembled g env (pre ++ js ++ suf)) (hp : p.Checked)
    (hsymbols : g.Symbols p.tree env) {v : FunctionId × Function (Stmt Mark)}
    (hv : v ∈ p.tree.views) (hcode : Function.Code p g.strings v.1 v.2 js) :
    ∀ i ∈ Item.instructions env (Item.size pre) js, ∀ w, i.jumpTarget? = some w →
      ∃ j ∈ Item.instructions env (Item.size pre) js, w = Word.ofNat j.address := by
  intro i hi w hw
  -- What the function jumps to are labels of its own, and behind each of them there is at least the
  -- last return.
  obtain ⟨front, hend⟩ := hcode.exists_ret
  have hlies := h.lies
  rw [Item.lies_append, Item.lies_append, Nat.zero_add] at hlies
  obtain ⟨types, hmap⟩ := (h.charts hp hsymbols hv hcode (Item.size pre)).stackMap hend
    (fun l hl => hl) hlies.1.2
    fun i => ⟨fun hi => ⟨hi, Item.range_of_mem_instructions hi⟩, And.left⟩
  obtain ⟨hge, hlt⟩ := Item.range_of_mem_instructions hi
  obtain ⟨τ, -, -, htarget⟩ := hmap.instructions i hi hge hlt
  obtain ⟨a, rfl, -, -, ⟨j, hj, rfl⟩, -⟩ := htarget w hw
  exact ⟨j, hj, rfl⟩

section

variable (h : p.Assembled g env items) (hp : p.Checked) (hsymbols : g.Symbols p.tree env)

include h hp hsymbols

/-- The code of each function. -/
theorem occupies {v : FunctionId × Function (Stmt Mark)} (hv : v ∈ p.tree.views) {start : Nat}
    (hstart : g.start? v.1 = some start) :
    v.2.Occupies p g (Item.instructions env 0 items) v.1 start (g.stop v.1) := by
  obtain ⟨pre, js, suf, rfl, hcode, -, hstart', hstop⟩ := h.region hp hsymbols hv
  obtain rfl : Item.size pre = start := Option.some.inj (hstart'.symm.trans hstart)
  have hframe := (hp.named v hv).frame
  have hbetween := between_part env pre js suf
  obtain ⟨body, hbody, hshape⟩ := hcode.instructions_eq hframe env (Item.size pre)
  have hsites := hbody.sites (hp.orderly.held v hv) (p.bodyStart v.1 (Item.size pre))
  rw [hstop]
  refine
    { words := ?_
      shape := ⟨Item.instructions env (p.bodyStart v.1 (Item.size pre)) body, ?_, ?_⟩
      frame := ?_
      jumps := ?_
      marks := hsites.marks
      ascending := hsites.ascending
      calls := fun x hx => ?_
      all := ?_ }
  · rw [hbetween, Nat.add_sub_cancel_left, h.words_part]
    exact Code.decodeFrom_eq_ok_iff.mp
      (Code.decodeFrom_words (h.charts hp hsymbols hv hcode 0).fits)
  · intro i hi
    obtain ⟨_, op, operands, _, rfl, rfl⟩ := Item.exists_of_mem_instructions hi
    rintro rfl
    exact hsites.reserved operands (by simp)
  · rw [hbetween, hshape]
  · have := hp.frames v hv
    rw [hframe]
    exact Int64.toInt_ofInt_of_le (by omega) (by omega)
  · rw [hbetween]
    exact h.jumps hp hsymbols hv hcode
  · obtain ⟨callee, b, hb, hstart, hpush, hcall⟩ :=
      (hsites.found x hx).instructions (h.addressed hp hsymbols)
    rw [hbetween, hshape]
    exact ⟨callee, b, hb, hstart, by simp [hpush], by simp [hcall]⟩
  · rw [hbetween, hshape, Code.callAddresses_append, Code.callAddresses_append,
      Code.callAddresses_reserving, List.nil_append]
    exact (List.append_nil _).symm ▸ hsites.all env

/-- The functions are laid out in the order of their declarations. -/
theorem ascending : (g.symbols.map Prod.snd).Pairwise (· < ·) := by
  rw [← List.isChain_iff_pairwise, List.isChain_iff_getElem]
  intro id hid
  have hlength : g.symbols.length = p.tree.functions.size := by rw [hsymbols]; simp
  rw [List.length_map, hlength] at hid
  obtain ⟨v, hv, rfl, -⟩ := hp.orderly.mem_views_of_functions
    (Array.getElem?_eq_getElem (Nat.lt_of_succ_lt hid))
  obtain ⟨pre, js, suf, -, hcode, -, hstart, hstop⟩ := h.region hp hsymbols hv
  obtain ⟨b, -, hnext⟩ := h.addressed hp hsymbols (v.1 + 1) hid
  -- A function has a return at least, so that the next one begins later.
  have hpos : 0 < Item.size js := by
    cases hcode with
    | mk _ =>
      simp only [Item.size_append, Item.size_plain]
      omega
  rw [Generated.stop, hnext, Option.getD_some] at hstop
  rw [Generated.start?, ← List.getElem?_map, List.getElem?_eq_some_iff] at hstart hnext
  rw [hstart.2, hnext.2]
  omega

/-- The first function is behind the stub. -/
theorem first : g.start? 0 = some 5 := by
  cases h.code with
  | @mk main is hmain hfunctions =>
    have hsize : 0 < p.tree.functions.size :=
      Nat.lt_of_le_of_lt (Nat.zero_le _) (Array.findIdx?_eq_some_iff_getElem.mp hmain).1
    have hids := hp.orderly.ids
    have hlies := (Item.lies_append.mp h.lies).2
    -- There is a `main`, so that there is a first function.
    generalize p.tree.views = vs at hfunctions hids
    cases hfunctions with
    | nil =>
      have := congrArg List.length hids
      simp at this
      omega
    | @cons id f vs js rest hf hvs =>
      obtain rfl : id = 0 := by
        have := congrArg List.head? hids
        rw [List.head?_range, if_neg (by omega)] at this
        exact Option.some.inj this
      have henv : env 0 = some 5 := by
        cases hf with
        | mk _ => exact hlies.1
      rw [hsymbols.start? hsize, henv]
      rfl

/-- The stub calls `main`. -/
theorem stub :
    ∃ main b rest, p.tree.findFunction? "main" = some main ∧ g.start? main = some b ∧
      Item.instructions env 0 items = [⟨0, .push, some (Word.ofNat b)⟩, ⟨2, .call, some 0⟩,
        ⟨4, .exit, none⟩] ++ rest := by
  cases h.code with
  | @mk main is hmain hfunctions =>
    obtain ⟨b, henv, hstart⟩ := h.addressed hp hsymbols main
      (Array.findIdx?_eq_some_iff_getElem.mp hmain).1
    refine ⟨main, b, Item.instructions env 5 is, hmain, hstart, ?_⟩
    rw [Item.instructions_append]
    simp [Item.withLabel, Item.withWord, Item.plain, Item.instructions, Operand.resolve, henv,
      Item.size, Item.allCells, Item.cells]

end

end Program.Assembled

/-- The code with the instructions `is` is that of the program: a stub that calls `main`, then the
functions in the order of their declarations, each up to the next one. -/
structure Generated.Layout (g : Generated) (p : Program) (is : List Instruction) : Prop where
  names : g.symbols.map Prod.fst = p.tree.functions.toList.map fun f => f.name.lexeme
  ascending : (g.symbols.map Prod.snd).Pairwise (· < ·)
  first : g.start? 0 = some 5
  stub : ∃ main b rest, p.tree.findFunction? "main" = some main ∧ g.start? main = some b ∧
    is = [⟨0, .push, some (Word.ofNat b)⟩, ⟨2, .call, some 0⟩, ⟨4, .exit, none⟩] ++ rest
  functions : ∀ id < g.symbols.length, ∃ f start, p.tree.function? id = some f ∧
    g.start? id = some start ∧ f.Occupies p g is id start (g.stop id)

/-- Compiled programs are laid out in the order of their functions, whose code only jumps within
itself and calls what it is bound to. -/
theorem compileSource_layout {source : String} {g : Generated}
    (hg : compileSource source = .ok g) :
    ∃ p is, analyzeSource source = .ok p ∧ Code.decode g.code.toList = .ok is ∧ g.Layout p is := by
  obtain ⟨p, hanalyze⟩ := analyzeSource_of_compileSource hg
  obtain ⟨env, items, hall, hsymbols⟩ := symbols_of_compileSource hanalyze hg
  have hp := checked_of_analyzeSource hanalyze
  have hdecode := hall.decode fun v hv js hcode => (hall.charts hp hsymbols hv hcode 0).fits
  refine ⟨p, Item.instructions env 0 items, hanalyze, hdecode, ?_,
    hall.ascending hp hsymbols, hall.first hp hsymbols, hall.stub hp hsymbols, fun id hid => ?_⟩
  · rw [hsymbols]
    refine List.ext_getElem? fun id => ?_
    simp only [List.getElem?_map, List.getElem?_mapIdx, Option.map_map]
    rfl
  · have hlt : id < p.tree.functions.size := by
      rw [hsymbols] at hid
      simpa using hid
    obtain ⟨v, hv, rfl, -⟩ := hp.orderly.mem_views_of_functions (Array.getElem?_eq_getElem hlt)
    obtain ⟨start, -, hstart⟩ := hall.addressed hp hsymbols v.1 hlt
    exact ⟨v.2, start, Tree.function?_of_mem_views hv, hstart, hall.occupies hp hsymbols hv hstart⟩

set_option maxRecDepth 20000 in
/-- Two functions that call each other: one without cells that ends with a choice, and one with a
cell that ends with a loop. -/
theorem compileSource_layout_mutual :
    ∃ source g is', compileSource source = .ok g ∧ Code.decode g.code.toList = .ok is' ∧
      g.symbols.map Prod.fst = ["f", "g", "main"] ∧
      (∀ op ∈ [Op.alloc, .jump, .jumpZero, .call], ∃ i ∈ is', i.op = op) ∧
      ∃ p is, analyzeSource source = .ok p ∧ Code.decode g.code.toList = .ok is ∧
        g.Layout p is := by
  obtain ⟨source, h⟩ : ∃ source, ((compileSource source).toOption.any fun g =>
      (Code.decode g.code.toList).toOption.any fun is =>
        g.symbols.map Prod.fst = ["f", "g", "main"] &&
          [Op.alloc, .jump, .jumpZero, .call].all fun op => is.any fun i => i.op = op) = true := by
    refine ⟨"void f(int n) \x7b if (n > 0) \x7b g(n); \x7d \x7d " ++
      "void g(int n) \x7b int k = n - 1; while (k > 0) \x7b f(k); k--; \x7d \x7d " ++
      "int main() \x7b f(2); return 0; \x7d", ?_⟩
    decide +kernel
  simp only [any_toOption_iff, Bool.and_eq_true, List.all_eq_true, List.any_eq_true,
    decide_eq_true_eq] at h
  obtain ⟨g, hg, is, hd, h⟩ := h
  exact ⟨source, g, is, hg, hd, h.1, h.2, compileSource_layout hg⟩

end StackLang
