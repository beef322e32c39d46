import StackLang.Proofs.Analysis.Cells
import StackLang.Proofs.Safety.Flow

/-!
# The routines of a program

The code of a checked program without element accesses is made of routines: the stub that calls
`main`, and one for each function.  The code of each flows from its beginning and from every label
that it jumps to.

* `Routines` — routines that lie in the code, and what they jump to flows.
* `Program.Assembled.routines` — the code of a program is made of routines.
-/

namespace StackLang

open Generate (Context)

/-- What is known about a function of the program. -/
def Routine.ofFunction (p : Program) (f : Function (Stmt Mark)) (lenient : Prop)
    (live : Nat → LabelId → Prop) : Routine where
  live := live
  params := f.params.length
  functions id :=
    p.tree.functions[id]?.map fun f => (f.params.length, decide (f.returnType ≠ .void))
  hasResult := decide (f.returnType ≠ .void)
  lenient := lenient
  isEntry := False

section

variable {p : Program} {id : FunctionId} {f : Function (Stmt Mark)}

@[simp] theorem Routine.withLive_ofFunction (lenient : Prop) (live live' : Nat → LabelId → Prop) :
    (Routine.ofFunction p f lenient live).withLive live' = Routine.ofFunction p f lenient live' :=
  rfl

theorem Routine.serves_ofFunction (hp : p.Checked) (hv : (id, f) ∈ p.tree.views) (lenient : Prop)
    (live : Nat → LabelId → Prop) :
    (Routine.ofFunction p f lenient live).Serves ⟨p.tree, p.notes, f.returnType⟩
      (p.tree.Usable id f) (p.tree.cells f.body.tags) where
  slots b info slot hb hinfo hlen hs := by
    have hcell : p.tree.CellAt p.notes id f b 0 slot :=
      ⟨hb, info, slot, hinfo, hs, by simp [hlen], by simp⟩
    exact hcell.range (hp.named _ hv)
  functions id f hf := by simp only [Routine.ofFunction, hf, Option.map_some]
  hasResult := rfl

theorem Expr.Shape.accessesElement_ids (shape : Shape (Expr Mark)) :
    shape.ids.accessesElement = shape.accessesElement := by
  cases shape with
  | assign n i v => cases i <;> rfl
  | _ => rfl

theorem Expr.elementless_of_held {t : Tree} {e : Expr Mark} (he : e.Held t)
    (h : (t.exprs.all fun n => !n.shape.accessesElement) = true) :
    e.All fun _ shape => shape.accessesElement = false := by
  refine All.imp he fun m shape _ _ hm => ?_
  obtain ⟨hlt, hm⟩ := Array.getElem?_eq_some_iff.mp hm
  have hnode := Array.all_eq_true.mp h m.id hlt
  simpa [hm, Shape.accessesElement_ids] using hnode

theorem Stmt.tame_body (hp : p.Checked) (hv : (id, f) ∈ p.tree.views)
    (helem : p.elementless = true) (lenient : Prop) (live : Nat → LabelId → Prop) :
    f.body.Tame (Routine.ofFunction p f lenient live) (p.tree.cells f.body.tags)
      ⟨p.tree, p.notes, f.returnType⟩ (p.tree.Usable id f) := by
  have hheld : f.body.Held p.tree := hp.orderly.held _ hv
  have hn : p.tree.Named p.notes id f := hp.named _ hv
  refine ⟨hn.bound, ?_, ?_⟩
  · exact All.imp hheld fun m shape _ hm e he => Expr.elementless_of_held (hm.2 e he).1 helem
  · refine All.imp hheld fun m shape hmem hm cells slot hcells hs i hi => .inl ?_
    have hc : p.tree.cells? m.id = some cells := by
      rw [← hcells, Tree.cells?, hm.1]
      cases shape <;> rfl
    have := hn.slots.slot_range hmem hc hs
    omega

/-! ## Functions -/

/-- The code behind every label that may be jumped to flows. -/
def Routine.Closed (K : Routine) (is : List Item) : Prop :=
  ∀ k l, K.live k l → ∃ pre suf, is = pre ++ .place l :: suf ∧ Flow K k suf []

theorem Flow.reserving {K : Routine} {k : Nat} {is : List Item} (hentry : ¬K.isEntry)
    (hk : k < 0x8000000000000000) (h : Flow K k is []) : Flow K 0 (Item.reserving k ++ is) [] := by
  rw [Item.reserving]
  split
  · exact .alloc hentry hk h
  · rename_i hpos
    obtain rfl : k = 0 := by omega
    exact h

/-- The code of a function flows, where it may end without a result only if that is tolerated. -/
theorem Function.Code.flow {P : StringPool} {is : List Item} {lenient : Prop} (hp : p.Checked)
    (hv : (id, f) ∈ p.tree.views) (helem : p.elementless = true) (hcode : Function.Code p P id f is)
    (hret : f.returnType = .void ∨ f.body.returns = true ∨ lenient) :
    ∃ live, (Routine.ofFunction p f lenient live).Closed is ∧
      Flow (Routine.ofFunction p f lenient live) 0 is [] := by
  obtain ⟨hbody⟩ := hcode
  rename_i bs
  obtain ⟨N, hN⟩ := hbody.through (J := fun _ _ => False)
    (Routine.serves_ofFunction hp hv lenient fun _ _ => False)
    (Stmt.tame_body hp hv helem lenient fun _ _ => False) (hp.typed _ hv) .none
  have hend : (!f.body.returns) = true → ∀ live,
      Flow (Routine.ofFunction p f lenient live) (p.tree.cells f.body.tags) [.plain .ret] [] := by
    intro hfalse live
    rcases hret with hvoid | hreturns | hlenient
    · exact .ret (.inl (by simp [Routine.ofFunction, hvoid]))
    · rw [hreturns] at hfalse
      cases hfalse
    · exact .ret (.inr hlenient)
  obtain ⟨hflow, hlabels⟩ := hN N (fun _ _ h => h.elim) (fun _ _ h => h) [.plain .ret]
    fun hreached => hend hreached _
  simp only [Routine.flowing, Routine.withLive_ofFunction] at hflow hlabels
  refine ⟨fun k l => k = p.tree.cells f.body.tags ∧ N true l, ?_, ?_⟩
  · rintro k l ⟨rfl, hl⟩
    obtain ⟨pre, suf, rfl, hsuf⟩ := hlabels true l hl
    exact ⟨.place id :: Item.reserving (p.tree.cells f.body.tags) ++ pre, suf ++ [.plain .ret],
      by simp, hsuf rfl⟩
  · simpa using Flow.place (Flow.reserving not_false (hp.frames _ hv) (hflow trivial))

end

/-! ## Programs -/

/-- A routine and where its code lies. -/
structure Placement where
  routine : Routine
  start : Nat
  items : List Item

/-- Some routines in the code, of which one starts the program and the others are those of its
functions. -/
structure Routines (p : Program) (code : Array Word) (env : Addresses) (lenient : Prop)
    (Δ : Placement → Prop) : Prop where
  lies : ∀ R, Δ R → Item.Lies code env R.start R.items
  closed : ∀ R, Δ R → R.routine.Closed R.items
  functions : ∀ R, Δ R → R.routine.functions = fun id =>
    p.tree.functions[id]?.map fun f => (f.params.length, decide (f.returnType ≠ .void))
  lenient : ∀ R, Δ R → R.routine.lenient → lenient
  entry : ∀ R, Δ R → R.routine.isEntry → .plain .ret ∉ R.items ∧ .plain .retValue ∉ R.items
  callee : ∀ id f, p.tree.functions[id]? = some f → ∃ R, Δ R ∧ env id = some R.start ∧
    R.routine.params = f.params.length ∧ R.routine.hasResult = decide (f.returnType ≠ .void) ∧
    ¬R.routine.isEntry ∧ Flow R.routine 0 R.items []

/-- What is known about the code that starts a program. -/
def Routine.stub (p : Program) : Routine where
  live _ _ := False
  params := 0
  functions id :=
    p.tree.functions[id]?.map fun f => (f.params.length, decide (f.returnType ≠ .void))
  hasResult := false
  lenient := False
  isEntry := True

/-- The routine of a function. -/
structure Placement.IsFunction (p : Program) (code : Array Word) (env : Addresses) (lenient : Prop)
    (v : FunctionId × Function (Stmt Mark)) (R : Placement) : Prop where
  routine : ∃ live, R.routine = .ofFunction p v.2 lenient live
  lies : Item.Lies code env R.start R.items
  closed : R.routine.Closed R.items
  address : env v.1 = some R.start
  flow : Flow R.routine 0 R.items []

section

variable {p : Program} {g : Generated} {env : Addresses} {is : List Item} {lenient : Prop}

theorem Program.Assembled.functionRoutine (h : p.Assembled g env is) (hp : p.Checked)
    (helem : p.elementless = true) {v : FunctionId × Function (Stmt Mark)} (hv : v ∈ p.tree.views)
    (hret : v.2.returnType = .void ∨ v.2.body.returns = true ∨ lenient) :
    ∃ R : Placement, R.IsFunction p g.code env lenient v := by
  obtain ⟨a, js, hcode, hlies, haddress⟩ := h.function hv
  obtain ⟨live, hclosed, hflow⟩ := hcode.flow hp hv helem hret
  exact ⟨⟨.ofFunction p v.2 lenient live, a, js⟩, ⟨live, rfl⟩, hlies, hclosed, haddress, hflow⟩

/-- The stub flows: `main` has no parameters. -/
theorem Flow.stub (hp : p.Checked) {main : FunctionId}
    (hmain : p.tree.findFunction? "main" = some main) :
    Flow (.stub p) 0 [.withLabel .push main, .withWord .call 0, .plain .exit] [] := by
  obtain ⟨hlt, -⟩ := Array.findIdx?_eq_some_iff_getElem.mp hmain
  have hf : p.tree.functions[main]? = some p.tree.functions[main] := Array.getElem?_eq_getElem hlt
  obtain ⟨hparams, -⟩ := hp.main _ (by rw [hmain, Option.bind_some, hf])
  have hfun : (Routine.stub p).functions main =
      some (0, decide (p.tree.functions[main].returnType ≠ .void)) := by
    simp [Routine.stub, hf, hparams]
  exact .callee (by rw [hfun]; rfl) (.call hfun (.exit trivial) fun _ => .inl trivial)

/-- The code of a checked program without element accesses is made of routines. -/
theorem Program.Assembled.routines (h : p.Assembled g env is) (hp : p.Checked)
    (helem : p.elementless = true) (lenient : Prop)
    (hret : ∀ v ∈ p.tree.views, v.2.returnType = .void ∨ v.2.body.returns = true ∨ lenient) :
    ∃ Δ R, Routines p g.code env lenient Δ ∧ Δ R ∧ R.start = 0 ∧ R.routine.isEntry ∧
      R.routine.params = 0 ∧ Flow R.routine 0 R.items [] := by
  obtain ⟨main, js, hmain, rfl⟩ : ∃ main js, p.tree.findFunction? "main" = some main ∧
      is = [.withLabel .push main, .withWord .call 0, .plain .exit] ++ js := by
    obtain ⟨hmain, -⟩ := h.code
    exact ⟨_, _, hmain, rfl⟩
  let R₀ : Placement := ⟨.stub p, 0, [.withLabel .push main, .withWord .call 0, .plain .exit]⟩
  refine ⟨fun R => R = R₀ ∨ ∃ v ∈ p.tree.views, R.IsFunction p g.code env lenient v, R₀, ?_,
    .inl rfl, rfl, trivial, rfl, .stub hp hmain⟩
  refine ⟨?_, ?_, ?_, ?_, ?_, fun id f hf => ?_⟩
  · rintro R (rfl | ⟨v, -, hR⟩)
    · exact (Item.lies_append.mp h.lies).1
    · exact hR.lies
  · rintro R (rfl | ⟨v, -, hR⟩)
    · exact fun k l hl => hl.elim
    · exact hR.closed
  · rintro R (rfl | ⟨v, -, ⟨live, hR⟩, -⟩)
    · rfl
    · rw [hR]
      rfl
  · rintro R (rfl | ⟨v, -, ⟨live, hR⟩, -⟩)
    · exact False.elim
    · rw [hR]
      exact id
  · rintro R (rfl | ⟨v, -, ⟨live, hR⟩, -⟩)
    · exact fun _ => ⟨by simp [R₀, Item.plain, Item.withLabel, Item.withWord],
        by simp [R₀, Item.plain, Item.withLabel, Item.withWord]⟩
    · rw [hR]
      exact False.elim
  · obtain ⟨v, hv, rfl, rfl⟩ := hp.orderly.mem_views_of_functions hf
    obtain ⟨R, hR⟩ := h.functionRoutine hp helem hv (hret v hv)
    obtain ⟨live, hrun⟩ := hR.routine
    refine ⟨R, .inr ⟨v, hv, hR⟩, hR.address, ?_, ?_, ?_, hR.flow⟩
    · rw [hrun]
      rfl
    · rw [hrun]
      rfl
    · rw [hrun]
      exact False.elim

end

end StackLang
