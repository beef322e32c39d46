import StackLang.Proofs.Analysis.Names

/-!
# Cells of a frame

Where the cells of the declarations of a function are, seen from the base of its frame: those of the
parameters below the header, those of the body from the base on.

* `Tree.CellAt.range` — a cell is one of a parameter, or one that the function reserves.
* `Tree.CellAt.unique` — no two cells are at one place.
-/

namespace StackLang

namespace Tree

variable {t : Tree} {n : Notes} {id : FunctionId} {f : Function (Stmt Mark)} {m : Mark}
  {shape : Stmt.Shape (Stmt Mark) (Expr Mark)} {ms : List Mark} {cells : Nat} {slot : Int}

/-! ## Declarations -/

/-- The cells of a declaration are among those of all declarations. -/
theorem Slotted.slot_range {k : Int} (h : t.Slotted n k ms) (hm : m ∈ ms)
    (hc : t.cells? m.id = some cells) (hs : (n.stmt m.id).slot = some slot) :
    k ≤ slot ∧ slot + cells ≤ k + t.cells ms := by
  induction ms generalizing k with
  | nil => cases hm
  | cons a ms ih =>
    have hsum : t.cells (a :: ms) = (t.cells? a.id).getD 0 + t.cells ms := by simp [Tree.cells]
    rcases List.mem_cons.mp hm with rfl | hm
    · cases (h.1 cells hc).symm.trans hs
      rw [hsum, hc, Option.getD_some]
      omega
    · have := ih h.2 hm
      omega

/-- The cells of one declaration end before those of another begin. -/
theorem Slotted.slots_apart {k : Int} (h : t.Slotted n k ms) {m' : Mark} (hm : m ∈ ms)
    (hm' : m' ∈ ms) (hne : m.id ≠ m'.id) {cells' : Nat} {slot' : Int}
    (hc : t.cells? m.id = some cells) (hc' : t.cells? m'.id = some cells')
    (hs : (n.stmt m.id).slot = some slot) (hs' : (n.stmt m'.id).slot = some slot') :
    slot + cells ≤ slot' ∨ slot' + cells' ≤ slot := by
  induction ms generalizing k with
  | nil => cases hm
  | cons a ms ih =>
    rcases List.mem_cons.mp hm with rfl | hin <;> rcases List.mem_cons.mp hm' with rfl | hin'
    · exact absurd rfl hne
    · cases (h.1 cells hc).symm.trans hs
      have hrange := h.2.slot_range hin' hc' hs'
      rw [hc, Option.getD_some] at hrange
      exact .inl hrange.1
    · cases (h.1 cells' hc').symm.trans hs'
      have hrange := h.2.slot_range hin hc hs
      rw [hc', Option.getD_some] at hrange
      exact .inr hrange.1
    · exact ih h.2 hin hin'

/-! ## Cells -/

/-- The cell `i` of a declaration of the function is at the place `x` of its frame. -/
def CellAt (t : Tree) (n : Notes) (id : FunctionId) (f : Function (Stmt Mark)) (b : Binding)
    (i : Nat) (x : Int) : Prop :=
  t.Usable id f b ∧ ∃ info slot, t.varInfo? n b = some info ∧ info.slot = some slot ∧
    i < info.length.getD 1 ∧ x = slot + i

namespace CellAt

variable {b b' : Binding} {i i' : Nat} {x x' : Int}

/-- A cell is that of a parameter, or one of a declaration in the body. -/
theorem cases (h : t.CellAt n id f b i x) (hn : t.Named n id f) :
    (∃ j < f.params.length, b = .param id j ∧ i = 0 ∧ x = paramSlot j f.params.length) ∨
      ∃ m ∈ f.body.tags, ∃ cells slot, b = .localVar m.id ∧ t.cells? m.id = some cells ∧
        (n.stmt m.id).slot = some slot ∧ i < cells ∧ x = slot + i := by
  obtain ⟨hb, info, slot, hinfo, hs, hi, rfl⟩ := h
  cases b with
  | param g j =>
    obtain ⟨rfl, hj⟩ := hb
    simp only [varInfo?, Option.bind_eq_bind, Option.bind_eq_some_iff] at hinfo
    obtain ⟨_, -, _, -, hinfo⟩ := hinfo
    cases hinfo
    cases hs
    obtain rfl : i = 0 := by simpa using hi
    refine .inl ⟨j, hj, rfl, rfl, ?_⟩
    simp [hn.params, List.getD_eq_getElem?_getD, List.getElem?_range hj]
  | localVar s =>
    obtain ⟨⟨m, hm, rfl⟩, -⟩ := hb
    simp only [varInfo?, Option.bind_eq_bind, Option.bind_eq_some_iff] at hinfo
    obtain ⟨⟨shape, line⟩, hnode, hinfo⟩ := hinfo
    have hcells : t.cells? m.id = shape.cells? := by
      rw [cells?, hnode]
      rfl
    cases shape with
    | var name type init =>
      cases hinfo
      exact .inr ⟨m, hm, 1, slot, rfl, hcells, hs, hi, rfl⟩
    | array name type length init =>
      cases hinfo
      exact .inr ⟨m, hm, length, slot, rfl, hcells, hs, hi, rfl⟩
    | _ => cases hinfo
  | function g => cases hinfo

theorem range (h : t.CellAt n id f b i x) (hn : t.Named n id f) :
    0 ≤ x ∧ x < t.cells f.body.tags ∨ -(3 + f.params.length : Int) ≤ x ∧ x < -3 := by
  rcases h.cases hn with ⟨j, hj, -, -, rfl⟩ | ⟨m, hm, cells, slot, -, hc, hs, hi, rfl⟩
  · rw [paramSlot, frameHeader]
    omega
  · have := hn.slots.slot_range hm hc hs
    omega

/-- A cell is at one place only. -/
theorem functional (h : t.CellAt n id f b i x) (h' : t.CellAt n id f b i x') : x = x' := by
  obtain ⟨-, info, slot, hinfo, hs, -, rfl⟩ := h
  obtain ⟨-, info', slot', hinfo', hs', -, rfl⟩ := h'
  cases hinfo.symm.trans hinfo'
  cases hs.symm.trans hs'
  rfl

/-- No two cells are at one place. -/
theorem unique (h : t.CellAt n id f b i x) (h' : t.CellAt n id f b' i' x) (hn : t.Named n id f) :
    b = b' ∧ i = i' := by
  rcases h.cases hn with ⟨j, hj, rfl, rfl, rfl⟩ | ⟨m, hm, cells, slot, rfl, hc, hs, hi, rfl⟩ <;>
    rcases h'.cases hn with ⟨j', hj', rfl, rfl, hx⟩ |
      ⟨m', hm', cells', slot', rfl, hc', hs', hi', hx⟩
  · rw [paramSlot, paramSlot] at hx
    obtain rfl : j = j' := by omega
    exact ⟨rfl, rfl⟩
  · have := hn.slots.slot_range hm' hc' hs'
    rw [paramSlot, frameHeader] at hx
    omega
  · have := hn.slots.slot_range hm hc hs
    rw [paramSlot, frameHeader] at hx
    omega
  · by_cases hid : m.id = m'.id
    · rw [← hid] at hs' ⊢
      cases hs.symm.trans hs'
      exact ⟨rfl, by omega⟩
    · have := hn.slots.slots_apart hm hm' hid hc hc' hs hs'
      omega

end CellAt

/-- The variable that a statement declares. -/
theorem varInfo?_of_held (h : (Stmt.node m shape).Held t) : t.varInfo? n (.localVar m.id) =
      match shape with
      | .var _ type _ => some ⟨type, none, (n.stmt m.id).slot⟩
      | .array _ type length _ => some ⟨type, some length, (n.stmt m.id).slot⟩
      | _ => none := by
  simp only [varInfo?, h.root.1, Option.bind_eq_bind, Option.bind_some]
  cases shape <;> rfl

/-- The cells of a declaration in the function. -/
theorem cellAt_of_held (h : (Stmt.node m shape).Held t) (hm : m ∈ f.body.tags)
    (hslot : (n.stmt m.id).slot = some slot) {i : Nat} (hcells : shape.cells? = some cells)
    (hi : i < cells) : t.CellAt n id f (.localVar m.id) i (slot + i) := by
  have husable : t.Usable id f (.localVar m.id) :=
    ⟨⟨m, hm, rfl⟩, by simp [cells?_of_held h, hcells]⟩
  have hinfo := varInfo?_of_held (n := n) h
  cases shape with
  | var name type init | array name type length init =>
    cases hcells
    exact ⟨husable, _, slot, hinfo, hslot, hi, rfl⟩
  | _ => cases hcells

end Tree

end StackLang
