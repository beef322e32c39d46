import StackLang.Proofs.Analysis.Cells
import StackLang.Proofs.Analysis.Checked
import StackLang.Proofs.Analysis.TypingEdits

/-!
# Sizes of frames

The cells of a function are counted one declaration after the other, so the count runs from zero up
to the sum of them all.  Nothing bounds that sum: the lengths of arrays are arbitrary, and a
function may declare any number of them.  Analysis gives up exactly when the count leaves the range
of a word, and otherwise every place that an initializer is stored at can be written as a word.

* `Tree.Slotted.exists_end` — the count comes to the sum.
* `frameOverflow_iff` — when the analysis of a text gives up.
-/

namespace StackLang

variable {p : Program} {source : String} {t : Tree} {s : Stmt Mark}

namespace Tree

variable {t : Tree} {n : Notes} {ms : List Mark}

/-- The last declaration with a cell ends where all of them end. -/
theorem Slotted.exists_end {k : Int} (h : t.Slotted n k ms) (hpos : 0 < t.cells ms) :
    ∃ m ∈ ms, ∃ (c : Nat) (slot : Int), t.cells? m.id = some c ∧ (n.stmt m.id).slot = some slot ∧
      slot + c = k + t.cells ms := by
  induction ms generalizing k with
  | nil => exact absurd hpos (Nat.lt_irrefl 0)
  | cons a ms ih =>
    have hsum : t.cells (a :: ms) = (t.cells? a.id).getD 0 + t.cells ms := by simp [Tree.cells]
    by_cases hrest : 0 < t.cells ms
    · obtain ⟨m, hm, c, slot, hc, hs, hend⟩ := ih h.2 hrest
      exact ⟨m, List.mem_cons_of_mem _ hm, c, slot, hc, hs, by omega⟩
    · -- The cells are those of the first declaration.
      cases ha : t.cells? a.id with
      | none =>
        rw [hsum, ha, Option.getD_none] at hpos
        omega
      | some c =>
        refine ⟨a, by simp, c, k, ha, h.1 c ha, ?_⟩
        rw [hsum, ha, Option.getD_some]
        omega

/-- Every declaration among the marks has a place. -/
theorem Slotted.exists_slot {k : Int} (h : t.Slotted n k ms) {m : Mark} (hm : m ∈ ms) {c : Nat}
    (hc : t.cells? m.id = some c) :
    ∃ slot, (n.stmt m.id).slot = some slot ∧ k ≤ slot ∧ slot + c ≤ k + t.cells ms := by
  induction ms generalizing k with
  | nil => cases hm
  | cons a ms ih =>
    rcases List.mem_cons.mp hm with rfl | hm'
    · exact ⟨k, h.1 c hc, h.slot_range (List.mem_cons_self ..) hc (h.1 c hc)⟩
    · obtain ⟨slot, hs, -⟩ := ih h.2 hm'
      exact ⟨slot, hs, h.slot_range hm hc hs⟩

end Tree

/-- The length of an array and the number of elements in braces that it is initialized with. -/
def Stmt.Shape.braces? : Shape (Stmt Mark) (Expr Mark) → Option (Nat × Nat)
  | array _ _ length (some (.node _ (.braces es))) => some (length, es.length)
  | _ => none

theorem Stmt.Shape.cells?_of_braces? {shape : Shape (Stmt Mark) (Expr Mark)} {length count : Nat}
    (h : shape.braces? = some (length, count)) : shape.cells? = some length := by
  unfold braces? at h
  split at h
  · cases h
    rfl
  · cases h

/-- What holds at every node that is held by the tree. -/
theorem Stmt.all_of_held {Q : Mark → Shape (Stmt Mark) (Expr Mark) → Prop} (h : s.Held t)
    (hQ : ∀ m shape, m ∈ s.tags → (Stmt.node m shape).Held t → Q m shape) : s.All Q := by
  induction s using Stmt.induction with
  | step m shape ih =>
    refine .node (hQ m shape (mem_tags_self m shape) h) fun c hc => ih c hc (h.child c hc) ?_
    exact fun u ushape hu => hQ u ushape (mem_tags_of_child hc hu)

/-- An array of a typed statement has room for what it is initialized with. -/
theorem Stmt.Typed.braces {n : Notes} {ret : ValueType} {loop : Option StmtId}
    (h : s.Typed t n ret loop) :
    s.All fun _ shape => ∀ length count, shape.braces? = some (length, count) → count ≤ length := by
  induction h with
  | node root _ ih =>
    refine .node (fun length count hb => ?_) ih
    unfold Shape.braces? at hb
    split at hb
    · cases hb
      obtain ⟨m', es, heq, -, hlen, -⟩ := root _ rfl
      cases heq
      exact hlen
    · cases hb

/-- The frames of a program fit if the count of every function is in range. -/
theorem framesFit_iff (ht : t.Orderly) (hsize : p.notes.functions.size = t.functions.size)
    (hframes : ∀ v ∈ t.views, (p.notes.function v.1).frameSlots = t.cells v.2.body.tags) :
    p.framesFit = true ↔ ∀ v ∈ t.views, t.cells v.2.body.tags < 0x8000000000000000 := by
  constructor
  · intro hfit v hv
    have hrange := inRange_frameSlots hfit v.1
    rw [hframes v hv, Word.inRange_iff] at hrange
    exact Int.ofNat_lt.mp hrange.2
  · intro hlt
    refine Array.all_eq_true.mpr fun id hid => ?_
    have hmem : id ∈ t.views.map Prod.fst := by
      rw [ht.ids]
      exact List.mem_range.mpr (hsize ▸ hid)
    obtain ⟨v, hv, rfl⟩ := List.mem_map.mp hmem
    have hnote : p.notes.functions[v.1] = p.notes.function v.1 := by
      simp [Notes.function, hid]
    rw [hnote, hframes v hv, Word.inRange_iff]
    have := hlt v hv
    omega

/-- The analysis of a parsed text gives up if the frames do not fit, and only then. -/
theorem analyzeSource_eq_frameOverflow_iff (hparse : parseSource source = .ok p) :
    analyzeSource source = .error .frameOverflow ↔ p.analyze.1.framesFit = false := by
  rw [analyzeSource_of_parseSource hparse]
  cases p.analyze.1.framesFit with
  | false => simp
  | true =>
    simp only [Bool.not_true, Bool.false_eq_true, ↓reduceIte]
    split <;> simp

theorem eq_analyze_of_analyzeSource {q : Program} (hparse : parseSource source = .ok p)
    (h : analyzeSource source = .ok q) : q = p.analyze.1 := by
  obtain ⟨p', hparse', -, -, -, rfl⟩ := exists_analyze_of_analyzeSource h
  cases hparse.symm.trans hparse'
  rfl

/-- How the cells of a parsed program are counted.  The count of each function runs from zero to the
sum over its declarations, which is the size of its frame; the analysis gives up exactly if it
leaves the range of a word at some declaration, and exactly if a sum does.  Otherwise the elements
of an array have places in range, unless there are more of them than the array has room for, which
is an error of the program. -/
theorem frameOverflow_iff {source : String} {p : Program} (hparse : parseSource source = .ok p) :
    (∀ v ∈ p.tree.views,
      (p.resolve.1.notes.function v.1).frameSlots = p.tree.cells v.2.body.tags ∧
      ∀ m ∈ v.2.body.tags, ∀ c, p.tree.cells? m.id = some c →
        ∃ slot, (p.resolve.1.notes.stmt m.id).slot = some slot ∧ 0 ≤ slot ∧
          slot + c ≤ p.tree.cells v.2.body.tags) ∧
    (analyzeSource source = .error .frameOverflow ↔
      ∃ v ∈ p.tree.views, 0x8000000000000000 ≤ p.tree.cells v.2.body.tags) ∧
    (analyzeSource source = .error .frameOverflow ↔
      ∃ v ∈ p.tree.views, ∃ m ∈ v.2.body.tags, ∃ (c : Nat) (slot : Int),
        p.tree.cells? m.id = some c ∧ (p.resolve.1.notes.stmt m.id).slot = some slot ∧
        Word.inRange (slot + c) = false) ∧
    (analyzeSource source ≠ .error .frameOverflow → ∀ v ∈ p.tree.views,
      v.2.body.All fun m shape => ∀ length count, shape.braces? = some (length, count) →
        count ≤ length → ∃ slot, (p.resolve.1.notes.stmt m.id).slot = some slot ∧
          ∀ i : Nat, i < count → Word.inRange (slot + i) = true) ∧
    ∀ q, analyzeSource source = .ok q → q.tree = p.tree ∧ ∀ v ∈ p.tree.views,
      v.2.body.All fun _ shape => ∀ length count, shape.braces? = some (length, count) →
        count ≤ length := by
  have haccepted : ∀ q, analyzeSource source = .ok q → q.Checked ∧ q = p.analyze.1 := fun q hq =>
    ⟨checked_of_analyzeSource hq, eq_analyze_of_analyzeSource hparse hq⟩
  have hgives := analyzeSource_eq_frameOverflow_iff hparse
  obtain ⟨t, ht, rfl⟩ := orderly_of_parseSource hparse
  obtain ⟨framed, covers, -⟩ := resolve_framed ht (covers_link ht)
  have hcheck := (Program.ofTree t).resolve.1.resembles_check
  have hfit := framesFit_iff (p := (Program.ofTree t).analyze.1) ht
    (hcheck.size.trans covers.functions) fun v hv => (hcheck.frames v.1).trans (framed v hv).frame
  have hsum : analyzeSource source = .error .frameOverflow ↔
      ∃ v ∈ t.views, 0x8000000000000000 ≤ t.cells v.2.body.tags := by
    rw [hgives, ← Bool.not_eq_true, hfit]
    simp
  have hslot : ∀ v ∈ t.views, ∀ m ∈ v.2.body.tags, ∀ c, t.cells? m.id = some c →
      ∃ slot, ((Program.ofTree t).resolve.1.notes.stmt m.id).slot = some slot ∧ 0 ≤ slot ∧
        slot + c ≤ t.cells v.2.body.tags := by
    intro v hv m hm c hc
    obtain ⟨slot, hs, hlow, hhigh⟩ := (framed v hv).slots.exists_slot hm hc
    exact ⟨slot, hs, hlow, by omega⟩
  refine ⟨fun v hv => ⟨(framed v hv).frame, hslot v hv⟩, hsum, ?_, fun hfits v hv => ?_,
    fun q hq => ?_⟩
  · rw [hsum]
    constructor
    · rintro ⟨v, hv, hle⟩
      obtain ⟨m, hm, c, slot, hc, hs, hend⟩ := (framed v hv).slots.exists_end (by omega)
      refine ⟨v, hv, m, hm, c, slot, hc, hs, ?_⟩
      rw [← Bool.not_eq_true, Word.inRange_iff]
      omega
    · rintro ⟨v, hv, m, hm, c, slot, hc, hs, hrange⟩
      obtain ⟨slot', hs', hlow, hhigh⟩ := hslot v hv m hm c hc
      cases hs.symm.trans hs'
      rw [← Bool.not_eq_true, Word.inRange_iff] at hrange
      exact ⟨v, hv, by omega⟩
  · refine Stmt.all_of_held (ht.held v hv) fun m shape hm hnode length count hbraces hle => ?_
    have hc := (Tree.cells?_of_held hnode).trans (Stmt.Shape.cells?_of_braces? hbraces)
    obtain ⟨slot, hs, hlow, hhigh⟩ := hslot v hv m hm length hc
    refine ⟨slot, hs, fun i hi => ?_⟩
    have hlt : t.cells v.2.body.tags < 0x8000000000000000 :=
      Nat.lt_of_not_le fun h => hfits (hsum.mpr ⟨v, hv, h⟩)
    rw [Word.inRange_iff]
    omega
  · obtain ⟨checked, rfl⟩ := haccepted q hq
    exact ⟨rfl, fun v hv => (checked.typed v hv).braces⟩

set_option maxRecDepth 20000 in
/-- Two declarations that take too many cells together, though each of them could be counted. -/
theorem frameOverflow_iff_twoDeclarations :
    ∃ source p, parseSource source = .ok p ∧
      (∃ v ∈ p.tree.views, p.tree.cells v.2.body.tags = 0x8000000000000000) ∧
      analyzeSource source = .error .frameOverflow ∧
      ∃ v ∈ p.tree.views, ∃ m ∈ v.2.body.tags, ∃ (c : Nat) (slot : Int),
        p.tree.cells? m.id = some c ∧ (p.resolve.1.notes.stmt m.id).slot = some slot ∧
        Word.inRange (slot + c) = false := by
  obtain ⟨source, h⟩ : ∃ source, ((parseSource source).toOption.any fun p =>
      p.tree.views.any fun v =>
        decide (p.tree.cells v.2.body.tags = 0x8000000000000000)) = true := by
    refine ⟨"int main() \x7b int a[9223372036854775807]; int b; return 0; \x7d", ?_⟩
    decide +kernel
  simp only [any_toOption_iff, List.any_eq_true, decide_eq_true_eq] at h
  obtain ⟨p, hp, v, hv, hcells⟩ := h
  have hover := (frameOverflow_iff hp).2.1.mpr ⟨v, hv, Nat.le_of_eq hcells.symm⟩
  exact ⟨source, p, hp, ⟨v, hv, hcells⟩, hover, (frameOverflow_iff hp).2.2.1.mp hover⟩

end StackLang
