import StackLang.Proofs.Safety.WordTypes

/-!
# Stack maps

Each address of the code of a function has one list of types, which says what is on the stack over
the cells of the function whenever the code gets there, on whatever way.  The list is empty wherever
a statement begins, so all ways to a label agree.

* `StackMap` — the lists of types for the code of a function.
* `compileSource_stackMap` — there is one for every function of a compiled program.
-/

namespace StackLang

open Generate (Context)

variable {K : Compiled} {slot : Int} {p : Program} {id : FunctionId} {a : Nat} {is : List Item}
  {P : StringPool} {vs : List (FunctionId × Function (Stmt Mark))}
  {v : FunctionId × Function (Stmt Mark)} {g : Generated} {env : Addresses} {σ τ : List WordType}
  {operands : List Operand} {e : Expr Mark} {T : ValueType} {op : Op} {l : LabelId}

/-! ## Parts of statements -/

theorem Compiled.Checks.exists_type (h : K.Checks e) : ∃ T, K.program.notes.typeOf e = some T := by
  cases e with
  | node m shape =>
    obtain ⟨T, hT, -⟩ := h.typed.root
    exact ⟨T, hT⟩

/-- The operation that prints a value takes one of its type. -/
theorem Op.signature?_of_printing? (h : Op.printing? T = some op) :
    op.signature? = some ([T], []) ∧ op.isJump = false ∧ op.arity = 0 := by
  cases T <;> cases h <;> exact ⟨rfl, rfl, rfl⟩

namespace Compiled.Charts

variable {K : Compiled} {a : Nat} {e : Option (Expr Mark)} {is : List Item}
  {es : List (Expr Mark)}

theorem jump (hl : K.live l) : K.Charts a [.withLabel .jump l] [] [] [] :=
  of_moves (.jump rfl hl .jump)

theorem effect (hK : K.Addressed) (h : Expr.EffectCode K.context K.generated.strings e is)
    (he : ∀ x ∈ e, K.Checks x) : K.Charts a is [] [] [] := by
  cases h with
  | none => exact nil
  | some hc =>
    obtain ⟨T, hT⟩ := (he _ rfl).exists_type
    exact (hc.charts hK (he _ rfl) hT).append (plain rfl rfl .pop)

theorem guard {stop : LabelId} (hK : K.Addressed)
    (h : Expr.GuardCode K.context K.generated.strings stop e is)
    (he : ∀ x ∈ e, K.Checks x ∧ K.program.notes.typeOf x = some .bool) (hl : K.live stop) :
    K.Charts a is [] [] [] := by
  cases h with
  | none => exact nil
  | some hc =>
    obtain ⟨hcheck, hT⟩ := he _ rfl
    have hsign : Op.jumpZero.signature? = some ([.bool], []) := rfl
    have htakes := K.takes_operation hsign (some ((Operand.label stop).resolve K.env)) []
    exact (hc.charts hK hcheck hT).append (of_moves (.jump rfl hl htakes))

theorem outputs (hK : K.Addressed) (h : Expr.OutputsCode K.context K.generated.strings es is)
    (he : ∀ x ∈ es, K.Checks x) : K.Charts a is [] [] [] := by
  induction h generalizing a with
  | nil => exact nil
  | cons hT hop hc _ ih =>
    rw [List.forall_mem_cons] at he
    obtain ⟨hsign, hjump, harity⟩ := Op.signature?_of_printing? hop
    have htakes := K.takes_operation hsign none []
    exact ((hc.charts hK he.1 hT).append (plain hjump harity htakes)).append (ih he.2)

/-- A value is read and stored in a cell of its type. -/
theorem reading {x : Int} (hx : K.program.CellType (K.id, K.f) x T) :
    K.Charts a [.plain (Op.reading T), .withSlot .poke x] [] [] [] := by
  have hjump : (Op.reading T).isJump = false := by
    cases T <;> rfl
  exact (plain hjump (Op.arity_reading T) .read).append (withWord rfl rfl (.poke hx))

/-- The elements of an array are stored in cells of its type. -/
theorem elements {type : ValueType} (hK : K.Addressed)
    (h : Expr.ElementsCode K.context K.generated.strings type slot es is)
    (he : ∀ x ∈ es, K.Checks x ∧ K.program.notes.Stores type x)
    (hx : ∀ i : Nat, i < es.length → K.program.CellType (K.id, K.f) (slot + i) type) :
    K.Charts a is [] [] [] := by
  induction h generalizing a with
  | nil => exact nil
  | cons hT hc _ ih =>
    rw [List.forall_mem_cons] at he
    obtain ⟨hcheck, S, hS, hstore⟩ := he.1
    cases hT.symm.trans hS
    have hfirst : K.program.CellType (K.id, K.f) _ type := hx 0 (by simp)
    rw [Int.natCast_zero, Int.add_zero] at hfirst
    refine (((hc.charts hK hcheck hS).append (narrowing hstore)).append
      (withWord rfl rfl (.poke hfirst))).append (ih he.2 fun i hi => ?_)
    have := hx (i + 1) (by simpa using hi)
    rwa [Int.natCast_add, Int.add_comm (i : Int), ← Int.add_assoc] at this

end Compiled.Charts

/-! ## Statements -/

/-- The statement can be one of the function whose code is generated. -/
abbrev Compiled.Allows (K : Compiled) (s : Stmt Mark) : Prop :=
  K.program.Allows K.id K.f s

namespace Program.Allows

variable {p : Program} {id : FunctionId} {f : Function (Stmt Mark)} {m : Mark} {info : VarInfo}

/-- The cells of a declaration have its type. -/
theorem cellType {shape : Stmt.Shape (Stmt Mark) (Expr Mark)} (h : p.Allows id f (.node m shape))
    (hslot : (p.notes.stmt m.id).slot = some slot) {cells i : Nat}
    (hcells : shape.cells? = some cells) (hi : i < cells)
    (hinfo : p.tree.varInfo? p.notes (.localVar m.id) = some info) :
    p.CellType (id, f) (slot + i) info.type :=
  ⟨_, i, info, h.cell hslot hcells hi, hinfo, rfl⟩

/-- The variable that is read has a cell. -/
theorem inputType {name : Token} (h : p.Allows id f (.node m (.input name)))
    (hv : (p.notes.stmt m.id).binding.bind (p.tree.varInfo? p.notes) = some info)
    (hl : info.length = none) (hs : info.slot = some slot) : p.CellType (id, f) slot info.type := by
  obtain ⟨b, hb, -, husable⟩ := h.bound.root.2 _ rfl
  rw [hb] at hv
  exact cellType_of_usable husable hv hl hs

end Program.Allows

section

variable {K : Compiled}

open Compiled.Charts

mutual

/-- The code of a statement leaves nothing on the stack. -/
theorem Stmt.Code.charts {loop : Option LoopLabels} {s : Stmt Mark} {is : List Item}
    (hK : K.Addressed) : s.Code K.context K.generated.strings loop is → K.Allows s →
      (∀ l ∈ Item.placed is, K.live l) →
      (∀ labels ∈ loop, K.live labels.next ∧ K.live labels.stop) →
        ∀ {a : Nat}, K.Charts a is [] [] (s.starts K.context a)
  | .block hbody, hs, hlive, hloop, _ => by
    rw [Stmt.starts]
    exact (hbody.charts hK (fun x hx => hs.child hx) hlive hloop).mark loop (.block hbody)
  | .ret ht hc, hs, _, _, _ => by
    obtain ⟨_, typed⟩ := hs.typed
    obtain ⟨-, htyped, S, hS, hstore⟩ := typed.root
    cases ht.symm.trans hS
    rw [Stmt.starts]
    exact (((hc.charts hK (hs.checks (List.mem_singleton_self _) htyped) hS).append
      (narrowing hstore)).append (plain rfl rfl .retValue)).mark loop (.ret ht hc)
  | .retVoid, _, _, _, _ => by
    rw [Stmt.starts]
    exact (plain rfl rfl .ret).mark loop .retVoid
  | .expression hc, hs, _, _, _ => by
    obtain ⟨_, typed⟩ := hs.typed
    rw [Stmt.starts]
    refine (effect hK hc ?_).mark loop (.expression hc)
    rintro _ ⟨⟩
    exact hs.checks (List.mem_singleton_self _) typed.root
  | @Stmt.Code.choice _ _ _ _ branches otherwise stop is os hbranches hotherwise, hs, hlive, hloop,
      a => by
    obtain ⟨_, typed⟩ := hs.typed
    have harms : K.Charts a is [] [] _ := hbranches.charts hK
      (fun b hb => ⟨hs.checks (List.mem_map_of_mem hb) (typed.root b hb).typed,
        (typed.root b hb).type⟩)
      (fun b hb => hs.child (List.mem_append_left _ (List.mem_map_of_mem hb)))
      (fun l hl => hlive l (by simp [hl])) (hlive stop (by simp)) hloop
    have hlast := hotherwise.charts hK (a := a + Item.size is)
      (fun x hx => hs.child (List.mem_append_right _ (Option.mem_toList.mpr hx)))
      (fun l hl => hlive l (by simp [hl])) hloop
    rw [Stmt.starts, ← hbranches.size_eq]
    exact ((harms.append hlast).appendBare (of_moves .place)).mark loop
      (.choice hbranches hotherwise)
  | @Stmt.Code.whileLoop _ _ _ _ e body top stop ts bs hguard hbody, hs, hlive, _, a => by
    obtain ⟨_, typed⟩ := hs.typed
    -- The labels that the loop jumps to are its own, so those around it do not matter.
    have htop : K.live top := hlive top (by simp)
    have hstop : K.live stop := hlive stop (by simp)
    have htest : K.Charts (a + Item.size [.place top]) ts [] [] [] := by
      refine guard hK hguard ?_ hstop
      rintro _ ⟨⟩
      exact ⟨hs.checks (List.mem_singleton_self _) typed.root.typed, typed.root.type⟩
    have hinner := hbody.charts hK (a := a + Item.size ([Item.place top] ++ ts))
      (hs.child (by simp)) (fun l hl => hlive l (by simp [hl]))
      (by rintro _ ⟨⟩; exact ⟨htop, hstop⟩)
    -- The body begins behind the test; the label before it takes no words.
    have hsize : Item.size ([Item.place top] ++ ts) = Expr.widthGuard K.context (some e) := by
      rw [List.singleton_append, Item.size_place, hguard.size_eq]
    rw [Stmt.starts, ← hsize]
    exact (((((of_moves .place).append htest).append hinner).appendBare (jump htop)).appendBare
      (of_moves .place)).mark loop (.whileLoop hguard hbody)
  | @Stmt.Code.forLoop _ _ _ _ init e u body top next stop is ts bs us hinit hguard hbody hupdate,
      hs, hlive, _, a => by
    obtain ⟨_, typed⟩ := hs.typed
    have htop : K.live top := hlive top (by simp)
    have hnext : K.live next := hlive next (by simp)
    have hstop : K.live stop := hlive stop (by simp)
    have hfirst := hinit.charts hK (a := a)
      (fun x hx => hs.child (List.mem_append_left _ (Option.mem_toList.mpr hx)))
      (fun l hl => hlive l (by simp [hl])) (by simp)
    have htest : ∀ {b}, K.Charts b ts [] [] [] := guard hK hguard (fun x hx =>
      ⟨hs.checks (List.mem_append_left _ (Option.mem_toList.mpr hx)) (typed.root.1 x hx).typed,
        (typed.root.1 x hx).type⟩) hstop
    have hinner := hbody.charts hK (a := a + Item.size (is ++ [Item.place top] ++ ts))
      (hs.child (List.mem_append_right _ (List.mem_singleton_self _)))
      (fun l hl => hlive l (by simp [hl])) (by rintro _ ⟨⟩; exact ⟨hnext, hstop⟩)
    have hchange : ∀ {b}, K.Charts b us [] [] [] := effect hK hupdate fun x hx =>
      hs.checks (List.mem_append_right _ (Option.mem_toList.mpr hx)) (typed.root.2 x hx)
    have hsize : a + Item.size (is ++ [Item.place top] ++ ts) =
        a + Stmt.widthOption K.context init + Expr.widthGuard K.context e := by
      simp [hinit.size_eq, hguard.size_eq, Nat.add_assoc]
    rw [Stmt.starts, ← hsize]
    exact (((((((hfirst.appendBare (of_moves .place)).appendBare htest).append hinner).appendBare
      (of_moves .place)).appendBare hchange).appendBare (jump htop)).appendBare
      (of_moves .place)).mark loop (.forLoop hinit hguard hbody hupdate)
  | .output hvalues, hs, _, _, _ => by
    obtain ⟨_, typed⟩ := hs.typed
    rw [Stmt.starts]
    refine (outputs hK hvalues fun x hx => ?_).mark loop (.output hvalues)
    obtain ⟨T, -, hT⟩ := typed.root x hx
    exact hs.checks hx hT.typed
  | .input hv hslot, hs, _, _, _ => by
    obtain ⟨_, typed⟩ := hs.typed
    obtain ⟨info, hv', hl⟩ := typed.root
    cases hv.symm.trans hv'
    rw [Stmt.starts]
    exact (reading (hs.inputType hv hl hslot)).mark loop (.input hv hslot)
  | .var hslot ht hc, hs, _, _, _ => by
    obtain ⟨_, typed⟩ := hs.typed
    obtain ⟨htyped, S, hS, hstore⟩ := typed.root _ rfl
    cases ht.symm.trans hS
    have hcell := hs.cellType hslot rfl Nat.zero_lt_one (Tree.varInfo?_of_held hs.held)
    rw [Int.natCast_zero, Int.add_zero] at hcell
    rw [Stmt.starts]
    exact (((hc.charts hK (hs.checks (List.mem_singleton_self _) htyped) hS).append
      (narrowing hstore)).append (withWord rfl rfl (.poke hcell))).mark loop (.var hslot ht hc)
  | .varBlank, _, _, _, _ => by
    rw [Stmt.starts]
    exact nil.mark loop .varBlank
  | .array hslot hes, hs, _, _, _ => by
    obtain ⟨_, typed⟩ := hs.typed
    obtain ⟨_, _, ⟨⟩, -, hlen, hfits⟩ := typed.root _ rfl
    rw [Stmt.starts]
    refine (elements hK hes (fun x hx => ⟨⟨(hfits x hx).1, ?_⟩, (hfits x hx).2⟩) ?_).mark loop
      (.array hslot hes)
    · exact (hs.bound.root.1 _ (List.mem_singleton_self _)).child x hx
    · intro i hi
      exact hs.cellType hslot rfl (Nat.lt_of_lt_of_le hi hlen) (Tree.varInfo?_of_held hs.held)
  | .arrayBlank, _, _, _, _ => by
    rw [Stmt.starts]
    exact nil.mark loop .arrayBlank
  | .stop, _, _, hloop, _ => by
    rw [Stmt.starts]
    exact (jump (hloop _ rfl).2).mark _ .stop
  | .skip, _, _, hloop, _ => by
    rw [Stmt.starts]
    exact (jump (hloop _ rfl).1).mark _ .skip

theorem Stmt.ListCode.charts {loop : Option LoopLabels} {ss : List (Stmt Mark)} {is : List Item}
    (hK : K.Addressed) : Stmt.ListCode K.context K.generated.strings loop ss is →
      (∀ s ∈ ss, K.Allows s) → (∀ l ∈ Item.placed is, K.live l) →
      (∀ labels ∈ loop, K.live labels.next ∧ K.live labels.stop) →
        ∀ {a : Nat}, K.Charts a is [] [] (Stmt.startsAll K.context a ss)
  | .nil, _, _, _, _ => nil
  | @Stmt.ListCode.cons _ _ _ _ _ is _ hs hss, hall, hlive, hloop, a => by
    have hfirst :=
      hs.charts hK (a := a) (hall _ (by simp)) (fun l hl => hlive l (by simp [hl])) hloop
    have hrest := hss.charts hK (a := a + Item.size is) (fun x hx => hall x (by simp [hx]))
      (fun l hl => hlive l (by simp [hl])) hloop
    rw [Stmt.startsAll, ← hs.size_eq]
    exact hfirst.append hrest

theorem Stmt.ArmsCode.charts {loop : Option LoopLabels} {stop : LabelId}
    {bs : List (Expr Mark × Stmt Mark)} {is : List Item} (hK : K.Addressed) :
    Stmt.ArmsCode K.context K.generated.strings loop stop bs is →
      (∀ b ∈ bs, K.Checks b.1 ∧ K.program.notes.typeOf b.1 = some .bool) →
      (∀ b ∈ bs, K.Allows b.2) → (∀ l ∈ Item.placed is, K.live l) → K.live stop →
      (∀ labels ∈ loop, K.live labels.next ∧ K.live labels.stop) →
        ∀ {a : Nat}, K.Charts a is [] [] (Stmt.startsArms K.context a bs)
  | .nil, _, _, _, _, _, _ => nil
  | @Stmt.ArmsCode.cons _ _ _ _ next e body branches ts bs rest hguard hbody hrest, he, hs, hlive,
      hstop, hloop, a => by
    have htest : K.Charts a ts [] [] [] := by
      refine guard hK hguard ?_ (hlive next (by simp))
      rintro _ ⟨⟩
      exact he _ List.mem_cons_self
    have hinner := hbody.charts hK (a := a + Item.size ts) (hs _ List.mem_cons_self)
      (fun l hl => hlive l (by simp [hl])) hloop
    have hothers := hrest.charts hK
      (a := a + Item.size (ts ++ bs ++ [Item.withLabel .jump stop] ++ [Item.place next]))
      (fun b hb => he b (by simp [hb])) (fun b hb => hs b (by simp [hb]))
      (fun l hl => hlive l (by simp [hl])) hstop hloop
    have hsize : a + Item.size (ts ++ bs ++ [Item.withLabel .jump stop] ++ [Item.place next]) =
        a + Item.size ts + body.width K.context + 2 := by
      simp [hbody.size_eq, Nat.add_assoc]
    rw [Stmt.startsArms, ← hguard.size_eq, ← hsize]
    exact (((htest.append hinner).appendBare (jump hstop)).appendBare
      (of_moves .place)).append hothers

theorem Stmt.OptionCode.charts {loop : Option LoopLabels} {s : Option (Stmt Mark)}
    {is : List Item} (hK : K.Addressed) :
    Stmt.OptionCode K.context K.generated.strings loop s is → (∀ x ∈ s, K.Allows x) →
      (∀ l ∈ Item.placed is, K.live l) →
      (∀ labels ∈ loop, K.live labels.next ∧ K.live labels.stop) →
        ∀ {a : Nat}, K.Charts a is [] [] (Stmt.startsOption K.context a s)
  | .none, _, _, _, _ => nil
  | .some hs, hall, hlive, hloop, _ => hs.charts hK (hall _ rfl) hlive hloop

end

end

/-! ## Functions -/

/-- Where the code of a function ends: there the next one begins, or the code is at its end. -/
def Generated.stop (g : Generated) (id : FunctionId) : Nat :=
  (g.start? (id + 1)).getD g.code.size

/-- Where the code of the body begins, in the code of a function that begins at `start`: behind the
instruction that reserves its cells, if it has any. -/
def Program.bodyStart (p : Program) (id : FunctionId) (start : Nat) : Nat :=
  if 0 < (p.notes.function id).frameSlots then start + 2 else start

theorem Program.bodyStart_eq {k : Nat} (h : (p.notes.function id).frameSlots = k) (a : Nat) :
    p.bodyStart id a = a + Item.size (Item.reserving k) := by
  rw [Program.bodyStart, h, Item.reserving]
  by_cases hk : 0 < k
  · rw [if_pos (by omega), if_pos hk, Item.size_withSlot, Item.size_nil]
  · rw [if_neg (by omega), if_neg hk, Item.size_nil, Nat.add_zero]

theorem Compiled.Charts.reserving {k : Nat} (h : (K.program.notes.function K.id).frameSlots = k) :
    K.Charts a (Item.reserving k) [] [] [] := by
  rw [Item.reserving]
  split
  · refine withWord rfl rfl ?_
    rw [← h]
    exact .alloc
  · exact nil

open Compiled.Charts in
/-- The code of a function, with the labels that it places, leaves nothing on the stack. -/
theorem Function.Code.charts (hp : K.program.Checked) (hv : (K.id, K.f) ∈ K.program.tree.views)
    (hK : K.Addressed) (hcode : Function.Code K.program K.generated.strings K.id K.f is)
    (hlive : ∀ l ∈ Item.placed is, K.live l) :
    K.Charts a is [] [] (K.f.body.starts K.context (K.program.bodyStart K.id a)) := by
  obtain ⟨hbody⟩ := hcode
  rename_i bs
  have hn := hp.named _ hv
  have hallows : K.Allows K.f.body := hp.allows hv
  rw [Program.bodyStart_eq hn.frame]
  have hinner := hbody.charts (K := K) hK hallows (fun l hl => hlive l (by simp [hl])) (by simp)
    (a := a + Item.size ([Item.place K.id] ++ Item.reserving (K.program.tree.cells K.f.body.tags)))
  rw [List.singleton_append, Item.size_place] at hinner
  exact (((of_moves .place).append (reserving hn.frame)).append hinner).appendBare
    (plain rfl rfl .ret)

/-! ## Programs -/

/-- The code of a function, between those of the functions before and behind it. -/
theorem Function.ListCode.split (h : Function.ListCode p P vs is) (hv : v ∈ vs) :
    ∃ before after pre js suf, vs = before ++ v :: after ∧ is = pre ++ js ++ suf ∧
      Function.Code p P v.1 v.2 js ∧ Function.ListCode p P after suf := by
  induction h with
  | nil => cases hv
  | @cons id f vs is rest hf hvs ih =>
    rcases List.mem_cons.mp hv with rfl | hv
    · exact ⟨[], vs, [], is, rest, rfl, rfl, hf, hvs⟩
    · obtain ⟨before, after, pre, js, suf, rfl, rfl, hcode, hafter⟩ := ih hv
      exact ⟨(id, f) :: before, after, is ++ pre, js, suf, rfl, by simp, hcode, hafter⟩

theorem Generated.Symbols.start? {t : Tree} (h : g.Symbols t env) (hid : id < t.functions.size) :
    g.start? id = some ((env id).getD 0) := by
  rw [Generated.start?, h, List.getElem?_mapIdx, Option.map_map, Array.getElem?_toList,
    Array.getElem?_eq_getElem hid]
  rfl

theorem Generated.Symbols.start?_eq_none {t : Tree} (h : g.Symbols t env)
    (hid : t.functions.size ≤ id) : g.start? id = none := by
  rw [Generated.start?, h, List.getElem?_mapIdx, Option.map_map, Array.getElem?_toList,
    Array.getElem?_eq_none hid]
  rfl

section

variable (h : p.Assembled g env is) (hp : p.Checked) (hsymbols : g.Symbols p.tree env)

include h hp hsymbols

/-- Where the code of a function is. -/
theorem Program.Assembled.region (hv : v ∈ p.tree.views) :
    ∃ pre js suf, is = pre ++ js ++ suf ∧ Function.Code p g.strings v.1 v.2 js ∧
      env v.1 = some (Item.size pre) ∧ g.start? v.1 = some (Item.size pre) ∧
      g.stop v.1 = Item.size pre + Item.size js := by
  obtain ⟨hcode, hlies, hsize⟩ := h
  cases hcode with
  | mk hmain hfunctions =>
    obtain ⟨before, after, pre, js, suf, hviews, rfl, hjs, hafter⟩ := hfunctions.split hv
    have hids : before.map Prod.fst ++ v.1 :: after.map Prod.fst =
        List.range p.tree.functions.size := by
      rw [← hp.orderly.ids, hviews, List.map_append, List.map_cons]
    generalize hstub : [Item.withLabel .push _, .withWord .call 0, .plain .exit] = stub at *
    rw [← List.append_assoc, ← List.append_assoc] at hlies hsize
    rw [Item.lies_append, Item.lies_append, Nat.zero_add] at hlies
    obtain ⟨⟨-, hown⟩, hnext⟩ := hlies
    have hlabel : env v.1 = some (Item.size (stub ++ pre)) := by
      cases hjs with
      | mk _ => simpa using hown.1
    -- The functions are numbered in the order of their code.
    have hnumber : ∀ k id, (before.map Prod.fst ++ v.1 :: after.map Prod.fst)[k]? = some id →
        k < p.tree.functions.size ∧ id = k := by
      intro k id hk
      rw [hids, List.getElem?_eq_some_iff] at hk
      obtain ⟨hlt, hid⟩ := hk
      rw [List.length_range] at hlt
      rw [List.getElem_range] at hid
      exact ⟨hlt, hid.symm⟩
    obtain ⟨hlt, hid⟩ := hnumber before.length v.1 (by simp)
    have hlength : before.length + (after.length + 1) = p.tree.functions.size := by
      simpa using congrArg List.length hids
    refine ⟨stub ++ pre, js, suf, by simp, hjs, hlabel, ?_, ?_⟩
    · rw [hsymbols.start? (hid ▸ hlt), hlabel]
      rfl
    · rw [← Item.size_append, Generated.stop]
      cases hafter with
      | nil =>
        rw [hsymbols.start?_eq_none (by rw [hid]; exact Nat.le_of_eq hlength.symm), hsize,
          List.append_nil]
        rfl
      | @cons id f vs ks rest hf hvs =>
        obtain ⟨hlt', rfl⟩ := hnumber (before.length + 1) id (by simp)
        have hnextLabel : env (before.length + 1) = some (Item.size (stub ++ pre ++ js)) := by
          rw [Nat.zero_add] at hnext
          cases hf with
          | mk _ => exact hnext.1
        rw [hid, hsymbols.start? hlt', hnextLabel]
        rfl

/-- Calls find the functions where their code is. -/
theorem Program.Assembled.addressed :
    ∀ id < p.tree.functions.size, ∃ a, env id = some a ∧ g.start? id = some a := by
  intro id hid
  obtain ⟨v, hv, rfl, -⟩ := hp.orderly.mem_views_of_functions (Array.getElem?_eq_getElem hid)
  obtain ⟨pre, js, suf, -, -, henv, hstart, -⟩ := h.region hp hsymbols hv
  exact ⟨_, henv, hstart⟩

theorem Program.Assembled.charts (hv : v ∈ p.tree.views) {js : List Item}
    (hcode : Function.Code p g.strings v.1 v.2 js) (a : Nat) :
    Compiled.Charts ⟨p, g, env, v.1, v.2, fun l => l ∈ Item.placed js⟩ a js [] []
      (v.2.body.starts ⟨p.tree, p.notes, v.2.returnType⟩ (p.bodyStart v.1 a)) :=
  hcode.charts (K := ⟨p, g, env, v.1, v.2, fun l => l ∈ Item.placed js⟩) hp hv
    (h.addressed hp hsymbols) fun _ hl => hl

end

/-- A return is last. -/
theorem Function.Code.exists_ret {f : Function (Stmt Mark)} (h : Function.Code p P id f is) :
    ∃ front, is = front ++ [.plain .ret] := by
  cases h with
  | mk _ => exact ⟨_, rfl⟩

/-! ## Instructions -/

theorem Compiled.Moves.fits {i : Item} (h : K.Moves i σ τ) : i.Fits := by
  cases h with
  | place => trivial
  | jump hop hl h =>
    rename_i op l
    show 1 = op.arity
    cases op <;> cases hop <;> rfl
  | instr hop harity h => exact harity

theorem Compiled.Moves.takes (h : K.Moves (.instr op operands) σ τ) :
    K.Takes op (operands.map (Operand.resolve K.env)).head? σ τ := by
  cases h with
  | jump _ _ h => exact h
  | instr _ _ h => exact h

/-- Jumps go to labels, with nothing on the stack. -/
theorem Compiled.Moves.target (h : K.Moves (.instr op operands) σ τ) (hop : op.isJump = true) :
    ∃ l, operands = [.label l] ∧ K.live l ∧ τ = [] := by
  cases h with
  | jump _ hl _ => exact ⟨_, rfl, hl, rfl⟩
  | instr hne _ _ => simp [hne] at hop

theorem Compiled.Moves.place_eq (h : K.Moves (.place l) σ τ) : σ = [] := by
  cases h
  rfl

/-- All instructions in the code of a function have their operands. -/
theorem Compiled.Charts.fits {xs : List (Stmt Mark × Nat)} (h : K.Charts a is σ τ xs) :
    ∀ i ∈ is, i.Fits := by
  obtain ⟨types, -, -, hmoves, -⟩ := h
  intro i hi
  obtain ⟨pre, suf, rfl⟩ := List.append_of_mem hi
  exact (hmoves pre i suf rfl).fits

theorem Function.ListCode.fits (h : Function.ListCode p P vs is)
    (hf : ∀ v ∈ vs, ∀ js, Function.Code p P v.1 v.2 js → ∀ i ∈ js, i.Fits) : ∀ i ∈ is, i.Fits := by
  induction h with
  | nil => simp
  | cons hcode _ ih =>
    rw [List.forall_mem_cons] at hf
    rw [List.forall_mem_append]
    exact ⟨hf.1 _ hcode, ih hf.2⟩

/-- If all instructions of the functions have their operands, so have those that start the program,
and the code is read back as the instructions of the items. -/
theorem Program.Assembled.decode (h : p.Assembled g env is)
    (hf : ∀ v ∈ p.tree.views, ∀ js, Function.Code p g.strings v.1 v.2 js → ∀ i ∈ js, i.Fits) :
    Code.decode g.code.toList = .ok (Item.instructions env 0 is) := by
  rw [h.lies.toList_eq h.size]
  refine Code.decodeFrom_words ?_
  cases h.code with
  | mk hmain hfunctions =>
    rw [List.forall_mem_append]
    refine ⟨?_, hfunctions.fits hf⟩
    simp [Item.Fits, Item.withLabel, Item.withWord, Item.plain, Op.arity]

/-- Whether the code goes on behind the operation. -/
def Op.goesOn : Op → Bool
  | jump | ret | retValue | exit => false
  | _ => true

/-- The code has an instruction at the address, between `start` and `stop`, and the list of types
there is `τ`. -/
def StackMap.Expects (start stop : Nat) (is : List Instruction) (types : Nat → List WordType)
    (a : Nat) (τ : List WordType) : Prop :=
  start ≤ a ∧ a < stop ∧ (∃ i ∈ is, i.address = a) ∧ types a = τ

/-- One list of types for each address of the code of a function, which is that between `start` and
`stop` in the code with the instructions `is`. -/
structure StackMap (p : Program) (g : Generated) (env : Addresses)
    (v : FunctionId × Function (Stmt Mark)) (start stop : Nat) (is : List Instruction)
    (types : Nat → List WordType) : Prop where
  /-- It is known of every statement where its code begins. -/
  starts : (v.2.body.starts ⟨p.tree, p.notes, v.2.returnType⟩ (p.bodyStart v.1 start)).map
    (fun x => x.1.tag) = v.2.body.tags
  /-- The code of every statement is there, and nothing is on the stack. -/
  statements : ∀ x ∈ v.2.body.starts ⟨p.tree, p.notes, v.2.returnType⟩ (p.bodyStart v.1 start),
    types x.2 = [] ∧ ∃ loop js, x.1.Code ⟨p.tree, p.notes, v.2.returnType⟩ g.strings loop js ∧
      Item.Lies g.code env x.2 js
  /-- Every instruction finds what it takes, and what it leaves is what is expected wherever the
  code goes on. -/
  instructions : ∀ i ∈ is, start ≤ i.address → i.address < stop → ∃ τ,
    i.op.Takes p g v i.operand (types i.address) τ ∧
      (i.op.goesOn = true → StackMap.Expects start stop is types i.next τ) ∧
      ∀ w, i.jumpTarget? = some w →
        ∃ a, w = Word.ofNat a ∧ StackMap.Expects start stop is types a τ

/-- What a chart of the code of a function says about the instructions. -/
theorem Compiled.Charts.stackMap {front : List Item} {instructions : List Instruction}
    (hend : is = front ++ [.plain .ret])
    (h : K.Charts a is [] [] (K.f.body.starts K.context (K.program.bodyStart K.id a)))
    (hlive : ∀ l, K.live l → l ∈ Item.placed is) (hlies : Item.Lies K.generated.code K.env a is)
    (hown : ∀ i, i ∈ Item.instructions K.env a is ↔ i ∈ instructions ∧ a ≤ i.address ∧ i.address <
      a + Item.size is) :
    ∃ types, StackMap K.program K.generated K.env (K.id, K.f) a (a + Item.size is) instructions
      types := by
  obtain ⟨types, hfirst, -, hmoves, hstarts⟩ := h
  -- Whatever is not at the end of the code stands before an instruction.
  have hexpects : ∀ pre rest, is = pre ++ rest → rest ≠ [] →
      StackMap.Expects a (a + Item.size is) instructions types (a + Item.size pre)
        (types (a + Item.size pre)) := by
    intro pre rest hsplit hrest
    obtain ⟨i, hi, haddr⟩ := Item.exists_instruction_at K.env a (hend.symm.trans hsplit) hrest
    rw [← hsplit, hown i] at hi
    obtain ⟨hi, hge, hlt⟩ := hi
    exact ⟨haddr ▸ hge, haddr ▸ hlt, ⟨i, hi, haddr⟩, rfl⟩
  refine ⟨types, Stmt.map_tag_starts _ _ _, fun x hx => ?_, fun i hi hge hlt => ?_⟩
  · obtain ⟨hnil, pre, js, suf, loop, hsplit, haddr, hcode⟩ := hstarts x hx
    rw [hsplit, Item.lies_append, Item.lies_append, ← haddr] at hlies
    exact ⟨hnil, loop, js, hcode, hlies.1.2⟩
  · obtain ⟨pre, op, operands, suf, hsplit, rfl⟩ :=
      Item.exists_of_mem_instructions ((hown i).mpr ⟨hi, hge, hlt⟩)
    have hmove := hmoves pre _ suf hsplit
    have hnext := Instruction.next_eq K.env a pre hmove.fits
    refine ⟨_, hmove.takes, fun hgoes => ?_, fun w hw => ?_⟩
    · rw [hnext]
      refine hexpects _ suf (by simpa using hsplit) ?_
      -- The code does not go on behind its last instruction.
      rintro rfl
      have hlast := (List.append_inj' (hend.symm.trans hsplit) rfl).2
      cases hlast
      cases hgoes
    · have hop : op.isJump = true := by
        by_contra hne
        simp [Instruction.jumpTarget?, hne] at hw
      obtain ⟨l, rfl, hl, hnil⟩ := hmove.target hop
      obtain ⟨before, after, hplace⟩ := List.append_of_mem (Item.mem_placed_iff.mp (hlive l hl))
      have hlabel : K.env l = some (a + Item.size before) := by
        rw [hplace, Item.lies_append] at hlies
        exact hlies.2.1
      refine ⟨a + Item.size before, ?_, ?_⟩
      · simp only [Instruction.jumpTarget?, hop, if_true, List.map_singleton, List.head?_cons,
          Operand.resolve, hlabel, Option.getD_some, Option.some.injEq] at hw
        exact hw.symm
      · rw [hnil, ← (hmoves before _ after hplace).place_eq]
        exact hexpects before _ hplace (by simp)

/-- The code of every compiled program has a stack map for each of its functions. -/
theorem compileSource_stackMap {source : String} {g : Generated}
    (hg : compileSource source = .ok g) :
    ∃ p env is, analyzeSource source = .ok p ∧ Code.decode g.code.toList = .ok is ∧
      ∀ v ∈ p.tree.views, ∃ start types, g.start? v.1 = some start ∧
        StackMap p g env v start (g.stop v.1) is types := by
  obtain ⟨p, hanalyze⟩ := analyzeSource_of_compileSource hg
  obtain ⟨env, items, hall, hsymbols⟩ := symbols_of_compileSource hanalyze hg
  have hp := checked_of_analyzeSource hanalyze
  refine ⟨p, env, Item.instructions env 0 items, hanalyze, ?_, fun v hv => ?_⟩
  · exact hall.decode fun v hv js hcode => (hall.charts hp hsymbols hv hcode 0).fits
  · obtain ⟨pre, js, suf, rfl, hcode, -, hstart, hstop⟩ := hall.region hp hsymbols hv
    obtain ⟨front, hend⟩ := hcode.exists_ret
    have hlies := hall.lies
    rw [Item.lies_append, Item.lies_append, Nat.zero_add] at hlies
    have hown : ∀ i, i ∈ Item.instructions env (Item.size pre) js ↔
        i ∈ Item.instructions env 0 (pre ++ js ++ suf) ∧ Item.size pre ≤ i.address ∧
          i.address < Item.size pre + Item.size js := by
      intro i
      simpa using Item.mem_instructions_part (a := 0) (i := i)
    have hcharts := hall.charts hp hsymbols hv hcode (Item.size pre)
    obtain ⟨types, hmap⟩ := hcharts.stackMap hend (fun l hl => hl) hlies.1.2 hown
    refine ⟨Item.size pre, types, hstart, ?_⟩
    rw [hstop]
    exact hmap

set_option maxRecDepth 20000 in
/-- A program with a loop that is continued early, a call, and conversions both ways. -/
theorem compileSource_stackMap_conversions :
    ∃ source g is', compileSource source = .ok g ∧ Code.decode g.code.toList = .ok is' ∧
      (∀ op ∈ [Op.intToFloat, .floatToInt, .call, .jumpZero, .jump, .retValue],
        ∃ i ∈ is', i.op = op) ∧
      ∃ p env is, analyzeSource source = .ok p ∧ Code.decode g.code.toList = .ok is ∧
        ∀ v ∈ p.tree.views, ∃ start types, g.start? v.1 = some start ∧
          StackMap p g env v start (g.stop v.1) is types := by
  obtain ⟨source, h⟩ : ∃ source, ((compileSource source).toOption.any fun g =>
      (Code.decode g.code.toList).toOption.any fun is =>
        [Op.intToFloat, .floatToInt, .call, .jumpZero, .jump, .retValue].all fun op =>
          is.any fun i => i.op = op) = true := by
    refine ⟨"float half(int n) \x7b return n / 2.0; \x7d " ++
      "int main() \x7b int s = 0; for (int i = 0; i < 3; i++) \x7b " ++
      "if (i == 1) \x7b continue; \x7d s = s + half(i); \x7d print(s); return s; \x7d", ?_⟩
    decide +kernel
  simp only [any_toOption_iff, List.all_eq_true, List.any_eq_true, decide_eq_true_eq] at h
  obtain ⟨g, hg, is, hd, h⟩ := h
  exact ⟨source, g, is, hg, hd, h, compileSource_stackMap hg⟩

end StackLang
