import StackLang.Proofs.Code.Building
import StackLang.Proofs.Code.Decoding
import StackLang.Proofs.Program.Grounded

/-!
# Generated code is sound

Code that is generated for a program, from whatever tree without cycles and with whatever notes, is
sound: it is read as whole instructions, every jump in it goes to an instruction, and it exits.

A word that refers to a label is either written when the label has been placed already, or it waits
for the label and is written when the label is placed.  Both kinds are words of the symbolic code
that refer to the label, and hold its address in the end.

* `Assembly.Tracks` — the words that wait for a label refer to it.
* `Generated.Resolves` — code and labels are those of symbolic code.
* `Program.generate_verifies` — generated code is sound.
-/

namespace StackLang

/-! ## Words that wait -/

namespace Assembly

variable {a : Assembly} {cs : List Operand}

/-- There is a word for each of the operands, and one that waits for a label, or did, refers to
it. -/
structure Tracks (a : Assembly) (cs : List Operand) : Prop where
  size : a.code.size = cs.length
  sites : ∀ l site, site ∈ (a.labels.getD l {}).sites → cs[site]? = some (.label l)

theorem tracks_withLabels (n : Nat) : (withLabels n).Tracks [] where
  size := rfl
  sites l site h := by
    simp only [withLabels, Array.getD_eq_getD_getElem?, Array.getElem?_replicate] at h
    split at h <;> cases h

theorem Tracks.append (h : a.Tracks cs) {o : Operand} {l : LabelId} {site : Nat}
    (hs : site ∈ (a.labels.getD l {}).sites) : (cs ++ [o])[site]? = some (.label l) :=
  getElem?_concat_eq_some.mpr (.inl (h.sites l site hs))

theorem Tracks.word (h : a.Tracks cs) (w : Word) : (a.emit [w]).Tracks (cs ++ [.word w]) where
  size := by simp [emit, h.size]
  sites _ _ hs := h.append hs

theorem Tracks.operand (h : a.Tracks cs) (o : Operand) : (a.operand o).Tracks (cs ++ [o]) := by
  cases o with
  | word w => exact h.word w
  | label l =>
    rw [Assembly.operand, reference]
    cases ((a.emit [0]).labels.getD l {}).value with
    | some v => exact ⟨by simp [emit, h.size], fun _ _ hs => h.append hs⟩
    | none =>
      -- the new word is the only one that is added to those that wait
      refine ⟨by simp [emit, h.size], fun k site hs => ?_⟩
      simp only [Array.getD_eq_getD_getElem?, Array.getElem?_modify, emit] at hs
      by_cases hk : l = k
      · subst hk
        cases hl : a.labels[l]? with
        | none => simp [hl] at hs
        | some label =>
          simp only [hl, if_true, Option.map_some, Option.getD_some, List.mem_append,
            List.mem_singleton] at hs
          rcases hs with hs | rfl
          · exact h.append (by simpa [Array.getD_eq_getD_getElem?, hl] using hs)
          · exact getElem?_concat_eq_some.mpr (.inr ⟨h.size, rfl⟩)
      · rw [if_neg hk] at hs
        exact h.append (by simpa [Array.getD_eq_getD_getElem?] using hs)

theorem Tracks.operands (h : a.Tracks cs) (os : List Operand) :
    (os.foldl Assembly.operand a).Tracks (cs ++ os) := by
  induction os generalizing a cs with
  | nil => simpa using h
  | cons o os ih => simpa using ih (h.operand o)

theorem Tracks.place (h : a.Tracks cs) (l : LabelId) : (a.place l).Tracks cs where
  size := by rw [Assembly.place, size_patch, h.size]
  sites k site hs := by
    refine h.sites k site ?_
    simp only [Assembly.place, Array.getD_eq_getD_getElem?, Array.getElem?_modify] at hs ⊢
    split at hs
    · cases hk : a.labels[k]? with
      | none => simp [hk] at hs
      | some label => simpa [hk] using hs
    · exact hs

theorem Tracks.items (h : a.Tracks cs) (is : List Item) :
    (a.items is).Tracks (cs ++ Item.allCells is) := by
  induction is generalizing a cs with
  | nil => simpa [Assembly.items] using h
  | cons i is ih =>
    rw [Assembly.items, List.foldl_cons, ← Assembly.items, Item.allCells_cons, ← List.append_assoc]
    refine ih ?_
    cases i with
    | place l => simpa [Assembly.item, Item.cells] using h.place l
    | instr op os => simpa [Assembly.item, Item.cells] using (h.word op.word).operands os

end Assembly

/-! ## Sound items -/

/-- The label is the address of one of the instructions. -/
def Addresses.Starts (env : Addresses) (is : List Instruction) (l : LabelId) : Prop :=
  ∃ v, env l = some v ∧ ∃ i ∈ is, i.address = v

namespace Item

variable {code : Array Word} {env : Addresses} {is : List Item}

theorem Regular.fits {i : Item} (h : i.Regular) : i.Fits := by
  cases i with
  | place l => trivial
  | instr op os => exact h.1

/-- A label that is placed before the last instruction is the address of an instruction. -/
theorem Lies.starts (h : Lies code env 0 is) (hret : Generate.EndsWithRet is) {l : LabelId}
    (hl : l ∈ placed is) : env.Starts (instructions env 0 is) l := by
  obtain ⟨pre, suf, rfl⟩ := List.append_of_mem (mem_placed_iff.mp hl)
  obtain ⟨front, hfront⟩ := hret
  obtain ⟨i, hi, haddress⟩ := exists_instruction_at env 0 hfront.symm (List.cons_ne_nil _ _)
  exact ⟨0 + size pre, (lies_append.mp h).2.1, i, hi, haddress⟩

/-- Regular items whose jumps go to instructions are sound code, if one of them is an exit and the
addresses are words. -/
theorem verify_of_starts (hregular : ∀ i ∈ is, i.Regular) (hexit : .plain .exit ∈ is)
    (hstarts : ∀ l ∈ refs is, env.Starts (instructions env 0 is) l)
    (hsize : size is < 0x8000000000000000) :
    Code.verify ((allCells is).map (Operand.resolve env)) = .ok () := by
  have hjumps :
      (instructions env 0 is).findSome? (Code.badJump? (instructions env 0 is)) = none := by
    rw [List.findSome?_eq_none_iff]
    intro i hi
    obtain ⟨pre, op, os, suf, rfl, rfl⟩ := exists_of_mem_instructions hi
    rw [Code.badJump?, Instruction.jumpTarget?]
    split
    · rename_i hjump
      obtain ⟨l, rfl⟩ := (hregular (.instr op os) (by simp)).2 hjump
      obtain ⟨v, hv, j, hj, rfl⟩ := hstarts l (by simp [refs, labels, Operand.label?])
      have hlt : j.address < 0x8000000000000000 := by
        have := (range_of_mem_instructions hj).2
        omega
      have hstart : Code.isStart (instructions env 0 (pre ++ .instr op [.label l] :: suf))
          (Word.ofNat j.address) = true := by
        rw [Code.isStart, Word.toIndex?_ofNat hlt]
        exact List.any_eq_true.mpr ⟨j, hj, beq_self_eq_true _⟩
      simp [Operand.resolve, hv, hstart]
    · rfl
  have hhas : Code.hasExit (instructions env 0 is) = true := by
    obtain ⟨pre, suf, rfl⟩ := List.append_of_mem hexit
    rw [instructions_append, Code.hasExit, List.any_append]
    simp [instructions, plain]
  have hdecode : Code.decode ((allCells is).map (Operand.resolve env)) =
      .ok (instructions env 0 is) := Code.decodeFrom_words fun i hi => (hregular i hi).fits
  rw [Code.verify, hdecode]
  simp only [hjumps, hhas, Bool.or_true, if_true]

end Item

/-! ## Programs -/

/-- The addresses of the labels of generated code. -/
def Generated.addresses (g : Generated) : Addresses :=
  fun l => (g.labels.getD l {}).value

/-- The words are those of the items, and are read as the given instructions.  A word that waited
for a label refers to it, and every word that refers to a label holds its address, where an
instruction begins. -/
structure Generated.Resolves (g : Generated) (items : List Item) (is : List Instruction) :
    Prop where
  code : g.code.toList = (Item.allCells items).map (Operand.resolve g.addresses)
  decode : Code.decode g.code.toList = .ok is
  sites : ∀ (l : LabelId) (site : Nat), site ∈ (g.labels.getD l {}).sites →
    (Item.allCells items)[site]? = some (.label l)
  references : ∀ (l : LabelId) (site : Nat), (Item.allCells items)[site]? = some (.label l) →
    ∃ v, (g.labels.getD l {}).value = some v ∧ g.code[site]? = some (Word.ofNat v) ∧
      v < g.code.size ∧ ∃ i ∈ is, i.address = v

/-- No label that words waited for is without an address. -/
theorem Generated.Resolves.placed {g : Generated} {items : List Item} {is : List Instruction}
    (h : g.Resolves items is) {l : LabelId} (hl : (g.labels.getD l {}).sites ≠ []) :
    (g.labels.getD l {}).isPlaced = true := by
  obtain ⟨site, hsite⟩ := List.exists_mem_of_ne_nil _ hl
  obtain ⟨v, hv, -⟩ := h.references l site (h.sites l site hsite)
  rw [Label.isPlaced, hv]
  rfl

namespace Program

variable {p : Program}

/-- What is assembled from the symbolic code of a program leaves nothing open, and is sound. -/
theorem resolves_of_emits {st : Generate.State} {items : List Item} {strings : StringPool}
    {ms : List Mark}
    (h : Generate.Emits (· < p.tree.functions.size) (List.range p.tree.functions.size) ms
      ⟨p.tree.functions.size, strings, []⟩ items st)
    (hexit : .plain .exit ∈ items) (hret : Generate.EndsWithRet items) :
    ((Assembly.withLabels st.labels).items items).unplaced = [] ∧
      ∀ g : Generated, g.code = ((Assembly.withLabels st.labels).items items).code →
        g.labels = ((Assembly.withLabels st.labels).items items).labels →
          (∃ is, g.Resolves items is) ∧
            (g.code.size < 0x8000000000000000 → Code.verify g.code.toList = .ok ()) := by
  obtain ⟨hplaced, hrefs⟩ := placed_of_emits h
  have hnodup : (Item.placed items).Nodup := hplaced.nodup_iff.mpr List.nodup_range
  have hlt : ∀ l ∈ Item.placed items, l < st.labels :=
    fun l hl => List.mem_range.mp (hplaced.mem_iff.mp hl)
  have holds := (Assembly.holds_withLabels st.labels).items items hlt
    (fun l hl => hlt l (hrefs l hl)) hnodup fun _ _ => rfl
  have htracks := (Assembly.tracks_withLabels st.labels).items items
  rw [List.nil_append] at holds htracks
  refine ⟨holds.unplaced_eq_nil fun l hl => Item.addresses_isSome <|
    hrefs l (Item.mem_refs_iff.mpr hl), ?_⟩
  rintro g hcode hlabels
  have henv : g.addresses = Item.addresses (fun _ => none) 0 items := by
    funext l
    rw [Generated.addresses, hlabels]
    by_cases hl : l < st.labels
    · exact holds.value l hl
    · rw [Item.addresses_of_not_mem fun hp => hl (hlt l hp), Array.getD_eq_getD_getElem?,
        Array.getElem?_eq_none (by rw [holds.size]; exact Nat.le_of_not_lt hl)]
      rfl
  rw [List.length_nil, ← henv] at holds
  have hlies : Item.Lies g.code g.addresses 0 items := by
    refine Item.lies_of_cells hnodup henv fun i o ho => ?_
    rw [Nat.zero_add, hcode, ← Array.getElem?_toList, holds.code, List.getElem?_map, ho]
    rfl
  have hstarts : ∀ l ∈ Item.refs items,
      g.addresses.Starts (Item.instructions g.addresses 0 items) l :=
    fun l hl => hlies.starts hret (hrefs l hl)
  have hwords : g.code.toList = (Item.allCells items).map (Operand.resolve g.addresses) := by
    rw [hcode, holds.code]
  have hsize : g.code.size = Item.size items := by
    rw [hcode, holds.length]
    rfl
  refine ⟨⟨Item.instructions g.addresses 0 items, hwords, ?_, ?_, ?_⟩, fun hfits => ?_⟩
  · rw [hwords]
    exact Code.decodeFrom_words fun i hi => (h.regular i hi).fits
  · rw [hlabels]
    exact htracks.sites
  · intro l site hsite
    obtain ⟨v, hv, i, hi, rfl⟩ := hstarts l (Item.mem_refs_iff.mpr (List.mem_of_getElem? hsite))
    refine ⟨i.address, hv, ?_, ?_, i, hi, rfl⟩
    · rw [← Array.getElem?_toList, hwords, List.getElem?_map, hsite, Option.map_some,
        Operand.resolve, hv, Option.getD_some]
    · have := (Item.range_of_mem_instructions hi).2
      omega
  · rw [hwords]
    exact Item.verify_of_starts h.regular hexit hstarts (hsize ▸ hfits)

/-- Whatever is noted about a program without cycles, generating its code fails only for a reason in
the program.  The code is that of the symbolic code, with every label resolved to an instruction,
and is sound if its addresses are words. -/
theorem generate_verifies (p : Program) (h : p.tree.Grounded) :
    (∀ e, p.generate = .error e →
      (∀ op found, e ≠ .arityMismatch op found) ∧ ∀ l, e ≠ .unplacedLabel l) ∧
    ∀ g, p.generate = .ok g →
      (∃ items st is,
        (Generate.program p).run ⟨p.tree.functions.size, .empty, []⟩ = .ok (items, st) ∧
        g.Resolves items is) ∧
      (∀ l, (g.labels.getD l {}).sites ≠ [] → (g.labels.getD l {}).isPlaced = true) ∧
      (g.code.size < 0x8000000000000000 → Code.verify g.code.toList = .ok ()) := by
  have hends := Generate.program_emits p .empty
  unfold Generate.Ends at hends
  cases hrun : Generate.program p ⟨p.tree.functions.size, .empty, []⟩ with
  | error e =>
    rw [hrun] at hends
    have hgen : p.generate = .error e := by
      simp only [generate, StateT.run, hrun, bind, Except.bind]
    rw [hgen]
    constructor
    · rintro _ ⟨⟩
      constructor
      · rintro op found rfl
        exact hends.1
      · rintro l rfl
        exact hends.1
    · intro g hg
      cases hg
  | ok r =>
    obtain ⟨items, st⟩ := r
    rw [hrun] at hends
    obtain ⟨⟨_, hemits⟩, hexit, hret, -⟩ := hends
    rw [h.ids] at hemits
    obtain ⟨hopen, hall⟩ := resolves_of_emits hemits hexit (hret h.ids)
    obtain ⟨g, hgen, hcode, hlabels⟩ : ∃ g, p.generate = .ok g ∧
        g.code = ((Assembly.withLabels st.labels).items items).code ∧
        g.labels = ((Assembly.withLabels st.labels).items items).labels := by
      simp only [generate, StateT.run, hrun, hopen, bind, Except.bind]
      exact ⟨_, rfl, rfl, rfl⟩
    obtain ⟨⟨is, hresolves⟩, hverify⟩ := hall g hcode hlabels
    rw [hgen]
    constructor
    · intro e he
      cases he
    · rintro _ ⟨⟩
      exact ⟨⟨items, st, is, hrun, hresolves⟩, fun l => hresolves.placed, hverify⟩

/-- A loop that stands twice in a program, with a jump between that leaves the first of the two,
which has been left already. -/
def revisited : Program where
  tree :=
    { functions := #[⟨.void, ⟨.ident "main", "main", ⟨1, 6⟩⟩, [], 3⟩]
      stmts := #[
        ⟨.stop ⟨.keyword .breakWord, "break", ⟨1, 30⟩⟩, 1⟩,
        ⟨.whileLoop 0 0, 1⟩,
        ⟨.stop ⟨.keyword .breakWord, "break", ⟨1, 40⟩⟩, 1⟩,
        ⟨.block [1, 2, 1], 1⟩]
      exprs := #[⟨.literal (.bool true), 1⟩] }
  notes := { stmts := #[{ target := some 1 }, {}, { target := some 1 }] }

theorem generate_verifies_revisited :
    ∃ g, revisited.generate = .ok g ∧
      (∃ items st is, (Generate.program revisited).run ⟨1, .empty, []⟩ = .ok (items, st) ∧
        g.Resolves items is) ∧
      (g.labels.getD 2 {}).sites ≠ [] ∧ (g.labels.getD 2 {}).isPlaced = true ∧
      Code.verify g.code.toList = .ok () := by
  have hgrounded : revisited.tree.Grounded :=
    Tree.grounded_of_lt (by decide) (by decide) (by decide) (by decide)
  have heval : (revisited.generate.toOption.any fun g =>
      (g.labels.getD 2 {}).sites = [8, 10] ∧ g.code.size = 24) = true := by
    decide +kernel
  simp only [any_toOption_iff, decide_eq_true_eq] at heval
  obtain ⟨g, hg, heval⟩ := heval
  have hne : (g.labels.getD 2 {}).sites ≠ [] := by
    rw [heval.1]
    exact List.cons_ne_nil _ _
  obtain ⟨hresolves, hplaced, hverify⟩ := (generate_verifies revisited hgrounded).2 g hg
  exact ⟨g, hg, hresolves, hne, hplaced 2 hne, hverify (by rw [heval.2]; decide)⟩

end Program

end StackLang
