import Mathlib.Logic.Function.Basic
import StackLang.Proofs.Code.Building

/-!
# Assembled code

Words that refer to a label before it is placed are zero until it is.  When every label that is
referred to has been placed, the words are those of the items, with the addresses of the labels.

* `Assembly.Holds` — what is known while code is assembled.
* `Item.Lies` — items lie in the code at an address.
* `Program.generate_lies` — so do the items of a program.
-/

namespace StackLang

variable {env : Addresses} {p : Program} {v : FunctionId × Function (Stmt Mark)} {g : Generated}
  {source : String} {code : Array Word} {is : List Item}

/-! ## The words of items -/

/-- Addresses of labels. -/
abbrev Addresses := LabelId → Option Nat

/-- The word of an operand; a label without an address gives zero. -/
def Operand.resolve (env : Addresses) : Operand → Word
  | word w => w
  | label l => Word.ofNat ((env l).getD 0)

theorem Operand.resolve_label {l : LabelId} {a : Nat} (h : env l = some a) :
    (label l).resolve env = Word.ofNat a := by
  rw [resolve, h, Option.getD_some]

namespace Item

variable {is : List Item} {l : LabelId} {start : Nat}

/-- The words of an item, before the labels are resolved. -/
def cells : Item → List Operand
  | instr op operands => .word op.word :: operands
  | place _ => []

/-- The words of items, before the labels are resolved. -/
def allCells (is : List Item) : List Operand :=
  is.flatMap cells

@[simp] theorem allCells_nil : allCells [] = [] := rfl

@[simp] theorem allCells_cons (i : Item) (is : List Item) :
    allCells (i :: is) = i.cells ++ allCells is := rfl

@[simp] theorem allCells_append (is js : List Item) :
    allCells (is ++ js) = allCells is ++ allCells js := by
  simp [allCells]

theorem mem_refs_iff : l ∈ refs is ↔ .label l ∈ allCells is := by
  induction is with
  | nil => simp
  | cons i is ih =>
    rw [allCells_cons, List.mem_append, ← ih, refs, List.flatMap_cons, List.mem_append, ← refs]
    refine or_congr_left ?_
    cases i with
    | place k => simp [labels, cells]
    | instr op operands =>
      simp only [labels, cells, List.mem_filterMap, List.mem_cons, reduceCtorEq, false_or]
      constructor
      · rintro ⟨o, ho, hl⟩
        cases o with
        | word w => cases hl
        | label k =>
          cases hl
          exact ho
      · intro h
        exact ⟨_, h, rfl⟩

/-- The addresses after the items have been placed, the first of them at `start`. -/
def addresses (env : Addresses) : Nat → List Item → Addresses
  | _, [] => env
  | start, .place l :: is => addresses (Function.update env l (some start)) start is
  | start, .instr _ operands :: is => addresses env (start + (operands.length + 1)) is

theorem addresses_of_not_mem (h : l ∉ placed is) : addresses env start is l = env l := by
  induction is generalizing env start with
  | nil => rfl
  | cons i is ih =>
    cases i with
    | place k =>
      rw [placed_place, List.mem_cons, not_or] at h
      rw [addresses, ih h.2, Function.update_of_ne h.1]
    | instr op operands => exact ih h

theorem addresses_isSome (h : l ∈ placed is) : (addresses env start is l).isSome = true := by
  induction is generalizing env start with
  | nil => cases h
  | cons i is ih =>
    cases i with
    | place k =>
      by_cases hl : l ∈ placed is
      · exact ih hl
      · rw [placed_place, List.mem_cons] at h
        obtain rfl := h.resolve_right hl
        rw [addresses, addresses_of_not_mem hl, Function.update_self]
        rfl
    | instr op operands => exact ih h

end Item

/-! ## Assembling -/

namespace Assembly

variable {a : Assembly} {n : Nat} {cs : List Operand} {env : Addresses}

/-- The words are those of `cs` with the addresses of `env`, and a label that is not placed knows
the words that refer to it. -/
structure Holds (a : Assembly) (n : Nat) (cs : List Operand) (env : Addresses) : Prop where
  size : a.labels.size = n
  value : ∀ l < n, (a.labels.getD l {}).value = env l
  code : a.code.toList = cs.map (Operand.resolve env)
  sites : ∀ l < n, env l = none →
    ∀ p, p ∈ (a.labels.getD l {}).sites ↔ cs[p]? = some (.label l)

theorem holds_withLabels (n : Nat) : (withLabels n).Holds n [] fun _ => none where
  size := by simp [withLabels]
  value l hl := by simp [withLabels, hl]
  code := rfl
  sites l hl _ p := by simp [withLabels, hl]

theorem Holds.length (h : a.Holds n cs env) : a.code.size = cs.length := by
  rw [← Array.length_toList, h.code, List.length_map]

theorem getElem?_concat_eq_some {α : Type} {cs : List α} {o x : α} {p : Nat} :
    (cs ++ [o])[p]? = some x ↔ cs[p]? = some x ∨ p = cs.length ∧ o = x := by
  rcases Nat.lt_trichotomy p cs.length with hp | rfl | hp
  · simp [List.getElem?_append_left hp, Nat.ne_of_lt hp]
  · simp
  · rw [List.getElem?_eq_none (by simp; omega), List.getElem?_eq_none (by omega)]
    simp [Nat.ne_of_gt hp]

theorem Holds.word (h : a.Holds n cs env) (w : Word) :
    (a.emit [w]).Holds n (cs ++ [.word w]) env where
  size := h.size
  value := h.value
  code := by simp [emit, h.code, Operand.resolve]
  sites l hl hn p := by
    rw [getElem?_concat_eq_some]
    simpa [emit] using h.sites l hl hn p

theorem getD_modify {labels : Array Label} {l k : LabelId} {f : Label → Label}
    (hl : l < labels.size) :
    (labels.modify l f).getD k {} = if l = k then f (labels.getD k {}) else labels.getD k {} := by
  simp only [Array.getD_eq_getD_getElem?, Array.getElem?_modify]
  split
  · rename_i h
    subst h
    simp [Array.getElem?_eq_getElem hl]
  · rfl

theorem Holds.operand (h : a.Holds n cs env) (o : Operand) (hl : ∀ l, o = .label l → l < n) :
    (a.operand o).Holds n (cs ++ [o]) env := by
  cases o with
  | word w => exact h.word w
  | label l =>
    have hln := hl l rfl
    have hv := h.value l hln
    rw [Assembly.operand, reference, show (a.emit [0]).labels = a.labels from rfl, hv]
    cases henv : env l with
    | some v =>
      refine ⟨h.size, h.value, ?_, fun k hk hn p => ?_⟩
      · simp [emit, h.length, h.code, Operand.resolve, henv]
      · have hne : l ≠ k := by
          rintro rfl
          rw [hn] at henv
          cases henv
        rw [getElem?_concat_eq_some]
        simpa [hne] using h.sites k hk hn p
    | none =>
      have hls : l < a.labels.size := by rw [h.size]; exact hln
      refine ⟨by simpa using h.size, fun k hk => ?_, ?_, fun k hk hn p => ?_⟩
      · simp only [getD_modify hls]
        split
        · exact h.value k hk
        · exact h.value k hk
      · simp [emit, h.code, Operand.resolve, henv, Word.ofNat]
      · simp only [getD_modify hls]
        rw [getElem?_concat_eq_some]
        by_cases hlk : l = k
        · subst hlk
          simpa [h.length] using or_congr_left (h.sites l hk hn p)
        · simpa [hlk] using h.sites k hk hn p

theorem Holds.operands (h : a.Holds n cs env) (os : List Operand)
    (hl : ∀ l, .label l ∈ os → l < n) : (os.foldl Assembly.operand a).Holds n (cs ++ os) env := by
  induction os generalizing a cs with
  | nil => simpa using h
  | cons o os ih =>
    have := ih (h.operand o fun l ho => hl l (by simp [ho])) fun l ho => hl l (by simp [ho])
    simpa using this

theorem size_patch (code : Array Word) (v : Nat) (sites : List Nat) :
    (patch code v sites).size = code.size := by
  induction sites generalizing code with
  | nil => rfl
  | cons site sites ih => rw [patch, List.foldl_cons, ← patch, ih, Array.size_setIfInBounds]

theorem getElem?_patch {v : Nat} {sites : List Nat} {p : Nat} :
    (patch code v sites)[p]? =
      if p ∈ sites ∧ p < code.size then some (Word.ofNat v) else code[p]? := by
  induction sites generalizing code with
  | nil => simp [patch]
  | cons site sites ih =>
    rw [patch, List.foldl_cons, ← patch, ih, Array.getElem?_setIfInBounds]
    by_cases hp : p = site
    · subst hp
      by_cases hs : p < code.size <;> simp [hs]
    · simp [hp, Ne.symm hp]

theorem Holds.place (h : a.Holds n cs env) {l : LabelId} (hl : l < n) (hn : env l = none) :
    (a.place l).Holds n cs (Function.update env l (some cs.length)) where
  size := by simpa [Assembly.place] using h.size
  value k hk := by
    rw [Assembly.place, getD_modify (by rw [h.size]; exact hl)]
    by_cases hlk : l = k
    · subst hlk
      simp [h.length]
    · simpa [hlk, Function.update_of_ne (Ne.symm hlk)] using h.value k hk
  code := by
    refine List.ext_getElem? fun p => ?_
    have hp : a.code[p]? = cs[p]?.map (Operand.resolve env) := by
      rw [← Array.getElem?_toList, h.code, List.getElem?_map]
    rw [Array.getElem?_toList, Assembly.place, getElem?_patch, hp, List.getElem?_map, h.length]
    simp only [h.sites l hl hn p]
    cases ho : cs[p]? with
    | none => simp
    | some o =>
      have := (List.getElem?_eq_some_iff.mp ho).1
      cases o with
      | word w => simp [Operand.resolve]
      | label k =>
        by_cases hlk : l = k
        · subst hlk
          simp [this, Operand.resolve]
        · simp [Ne.symm hlk, Operand.resolve]
  sites k hk hnk p := by
    have hlk : l ≠ k := by
      rintro rfl
      simp at hnk
    rw [Function.update_of_ne hlk.symm] at hnk
    rw [Assembly.place, getD_modify (by rw [h.size]; exact hl), if_neg hlk]
    exact h.sites k hk hnk p

/-- Assembling items adds their words and places their labels. -/
theorem Holds.items (h : a.Holds n cs env) (is : List Item)
    (hp : ∀ l : Nat, l ∈ Item.placed is → l < n)
    (hr : ∀ l : Nat, l ∈ Item.refs is → l < n) (hd : (Item.placed is).Nodup)
    (hf : ∀ l ∈ Item.placed is, env l = none) :
    (a.items is).Holds n (cs ++ Item.allCells is) (Item.addresses env cs.length is) := by
  induction is generalizing a cs env with
  | nil => simpa [Assembly.items, Item.addresses] using h
  | cons i is ih =>
    rw [Assembly.items, List.foldl_cons, ← Assembly.items, Item.allCells_cons]
    cases i with
    | place l =>
      rw [Item.placed_place] at hp hd hf
      obtain ⟨hl, hd⟩ := List.nodup_cons.mp hd
      refine ih (h.place (hp l (by simp)) (hf l (by simp))) (fun k hk => hp k (by simp [hk]))
        (by simpa using hr) hd fun k hk => ?_
      rw [Function.update_of_ne (by rintro rfl; exact hl hk)]
      exact hf k (by simp [hk])
    | instr op operands =>
      have hnext := (h.word op.word).operands operands fun l hl => hr l <|
        Item.mem_refs_iff.mpr (by simp [Item.cells, hl])
      rw [Item.placed_instr] at hp hd hf
      have := ih hnext hp (fun l hl => hr l ?_) hd hf
      · simpa [Assembly.item, Item.addresses, Item.cells, Nat.add_comm,
          Nat.add_left_comm] using this
      · rw [Item.refs, List.flatMap_cons]
        exact List.mem_append_right _ hl

/-- Nothing is left open when every label that is referred to has an address. -/
theorem Holds.unplaced_eq_nil (h : a.Holds n cs env)
    (hr : ∀ l : Nat, .label l ∈ cs → (env l).isSome = true) : a.unplaced = [] := by
  rw [unplaced, List.filter_eq_nil_iff]
  intro l hl
  have hln : l < n := by rwa [h.size, List.mem_range] at hl
  cases henv : env l with
  | some v =>
    have hv := h.value l hln
    simp only [henv] at hv
    simp only [Label.isPlaced, hv]
    simp
  | none =>
    have hempty : (a.labels.getD l {}).sites = [] := by
      refine List.eq_nil_iff_forall_not_mem.mpr fun p hp => ?_
      have := hr l (List.mem_of_getElem? ((h.sites l hln henv p).mp hp))
      rw [henv] at this
      cases this
    simp only [hempty]
    simp

end Assembly

/-! ## Items in the code -/

/-- The items lie in the code at the given address, and their labels are where they are placed. -/
def Item.Lies (code : Array Word) (env : Addresses) : Nat → List Item → Prop
  | _, [] => True
  | a, .place l :: is => env l = some a ∧ Lies code env a is
  | a, .instr op operands :: is =>
    (∀ i o, ((Item.instr op operands).cells)[i]? = some o → code[a + i]? = some (o.resolve env)) ∧
      Lies code env (a + (operands.length + 1)) is

/-- The number of words of the items. -/
def Item.size (is : List Item) : Nat :=
  (allCells is).length

namespace Item

variable {code : Array Word} {env : Addresses} {a : Nat} {is js : List Item}

@[simp] theorem size_nil : size [] = 0 := rfl

@[simp] theorem size_append (is js : List Item) : size (is ++ js) = size is + size js := by
  simp [size]

@[simp] theorem size_place (l : LabelId) (is : List Item) : size (place l :: is) = size is := by
  simp [size, cells]

@[simp] theorem size_instr (op : Op) (operands : List Operand) (is : List Item) :
    size (instr op operands :: is) = operands.length + 1 + size is := by
  simp [size, cells]
  omega

theorem size_cons (i j : Item) (is : List Item) :
    size (i :: j :: is) = size [i] + size (j :: is) :=
  size_append [i] (j :: is)

theorem lies_append : Lies code env a (is ++ js) ↔
    Lies code env a is ∧ Lies code env (a + size is) js := by
  induction is generalizing a with
  | nil => simp [Lies]
  | cons i is ih =>
    cases i with
    | place l => rw [List.cons_append, Lies, Lies, ih, size_place, and_assoc]
    | instr op operands =>
      rw [List.cons_append, Lies, Lies, ih, size_instr, and_assoc, Nat.add_assoc a]

/-- Items whose words stand at an address lie there. -/
theorem lies_of_cells (hd : (placed is).Nodup) {env₀ : Addresses}
    (henv : env = addresses env₀ a is)
    (hcode : ∀ i o, (allCells is)[i]? = some o → code[a + i]? = some (o.resolve env)) :
    Lies code env a is := by
  induction is generalizing a env₀ with
  | nil => trivial
  | cons i is ih =>
    cases i with
    | place l =>
      obtain ⟨hl, hd⟩ := List.nodup_cons.mp hd
      refine ⟨?_, ih hd henv hcode⟩
      rw [henv, addresses, addresses_of_not_mem hl, Function.update_self]
    | instr op operands =>
      rw [allCells_cons] at hcode
      refine ⟨fun i o ho => hcode i o ?_, ih hd henv fun i o ho => ?_⟩
      · rw [List.getElem?_append_left (List.getElem?_eq_some_iff.mp ho).1]
        exact ho
      · rw [Nat.add_assoc]
        refine hcode _ o ?_
        rw [List.getElem?_append_right (by simp [cells])]
        simpa [cells] using ho

end Item

/-- The code of each function lies somewhere in that of all. -/
theorem Function.ListCode.lies {P : StringPool} {vs : List (FunctionId × Function (Stmt Mark))}
    (h : Function.ListCode p P vs is) {a : Nat} (hl : Item.Lies code env a is) (hv : v ∈ vs) :
    ∃ b js, Function.Code p P v.1 v.2 js ∧ Item.Lies code env b js := by
  induction h generalizing a with
  | nil => cases hv
  | cons hf _ ih =>
    obtain ⟨hl, hrest⟩ := Item.lies_append.mp hl
    rcases List.mem_cons.mp hv with rfl | hv
    · exact ⟨a, _, hf, hl⟩
    · exact ih hrest hv

/-! ## Programs -/

/-- The functions begin at their labels. -/
def Generated.Symbols (g : Generated) (t : Tree) (env : Addresses) : Prop :=
  g.symbols = t.functions.toList.mapIdx fun id f => (f.name.lexeme, (env id).getD 0)

namespace Program

variable {p : Program} {main : FunctionId}

/-- The generated code of a program, with the items that it is made of. -/
structure Assembled (p : Program) (g : Generated) (env : Addresses) (is : List Item) : Prop where
  code : p.Code g.strings is
  lies : Item.Lies g.code env 0 is
  size : g.code.size = Item.size is

/-- The code of every function lies at its label. -/
theorem Assembled.function (h : p.Assembled g env is) (hv : v ∈ p.tree.views) :
    ∃ a js, Function.Code p g.strings v.1 v.2 js ∧ Item.Lies g.code env a js ∧
      env v.1 = some a := by
  obtain ⟨hcode, hlies, -⟩ := h
  cases hcode with
  | mk hmain hfunctions =>
    obtain ⟨a, js, hf, hl⟩ := hfunctions.lies (Item.lies_append.mp hlies).2 hv
    refine ⟨a, js, hf, hl, ?_⟩
    cases hf with
    | mk hbody => exact hl.1

/-- A checked program with a `main` has code, in which its items lie, and its functions begin at
their labels. -/
theorem generate_symbols (hp : p.Checked) (hmain : p.tree.findFunction? "main" = some main) :
    ∃ g env is, p.generate = .ok g ∧ p.Assembled g env is ∧ g.Symbols p.tree env := by
  obtain ⟨is, st, hrun, hcode, hle, hplaced, hrefs⟩ := code_made hp hmain
  have hnodup : (Item.placed is).Nodup := hplaced.nodup_iff.mpr List.nodup_range
  have hlt : ∀ l ∈ Item.placed is, l < st.labels :=
    fun l hl => List.mem_range.mp (hplaced.mem_iff.mp hl)
  have holds := (Assembly.holds_withLabels st.labels).items is hlt
    (fun l hl => hlt l (hrefs l hl)) hnodup fun _ _ => rfl
  rw [List.nil_append, List.length_nil] at holds
  have hopen := holds.unplaced_eq_nil fun l hl => Item.addresses_isSome <|
    hrefs l (Item.mem_refs_iff.mpr hl)
  obtain ⟨g, hg, hstrings, hwords, hsymbols⟩ : ∃ g, p.generate = .ok g ∧ g.strings = st.strings ∧
      g.code = ((Assembly.withLabels st.labels).items is).code ∧
      g.symbols = p.tree.functions.toList.mapIdx fun id f => (f.name.lexeme,
        ((((Assembly.withLabels st.labels).items is).labels.getD id {}).value).getD 0) := by
    simp only [generate, StateT.run, hrun, hopen, bind, Except.bind]
    exact ⟨_, rfl, rfl, rfl, rfl⟩
  refine ⟨g, Item.addresses (fun _ => none) 0 is, is, hg, ⟨?_, ?_, ?_⟩, ?_⟩
  · rw [hstrings]
    exact hcode
  · refine Item.lies_of_cells hnodup rfl fun i o ho => ?_
    rw [Nat.zero_add, hwords, ← Array.getElem?_toList, holds.code, List.getElem?_map, ho]
    rfl
  · rw [hwords]
    exact holds.length
  · rw [Generated.Symbols, hsymbols]
    refine List.mapIdx_eq_mapIdx_iff.mpr fun id hid => ?_
    rw [holds.value id (Nat.lt_of_lt_of_le (by simpa using hid) hle)]

/-- A checked program with a `main` has code, in which its items lie. -/
theorem generate_lies (hp : p.Checked) (hmain : p.tree.findFunction? "main" = some main) :
    ∃ g env is, p.generate = .ok g ∧ p.Assembled g env is := by
  obtain ⟨g, env, is, hg, hall, -⟩ := generate_symbols hp hmain
  exact ⟨g, env, is, hg, hall⟩

/-- A program without a `main` has no code. -/
theorem generate_of_no_main (hmain : p.tree.findFunction? "main" = none) :
    p.generate = .error .missingEntryPoint := by
  simp only [generate, Generate.program, hmain]
  rfl

/-- The `main` of a program is found if there is one. -/
theorem findFunction?_eq_none_iff (t : Tree) (name : String) :
    t.findFunction? name = none ↔ ∀ f ∈ t.functions, f.name.lexeme ≠ name := by
  rw [Tree.findFunction?, Array.findIdx?_eq_none_iff]
  simp

end Program

theorem generate_of_compileSource (hp : analyzeSource source = .ok p)
    (hg : compileSource source = .ok g) : p.generate = .ok g := by
  rw [compileSource, hp] at hg
  cases h : p.generate with
  | error e => simp [h, bind, Except.bind, Except.mapError] at hg
  | ok g' =>
    simp only [h, bind, Except.bind, Except.mapError] at hg
    cases hg
    rfl

/-- A program that is compiled is analyzed first. -/
theorem analyzeSource_of_compileSource (hg : compileSource source = .ok g) :
    ∃ p, analyzeSource source = .ok p := by
  cases h : analyzeSource source with
  | error e => simp [compileSource, h, bind, Except.bind] at hg
  | ok p => exact ⟨p, rfl⟩

/-- The code of a program that was analyzed, with its items and the addresses of its functions. -/
theorem symbols_of_compileSource (hp : analyzeSource source = .ok p)
    (hg : compileSource source = .ok g) :
    ∃ env is, p.Assembled g env is ∧ g.Symbols p.tree env := by
  have hgen := generate_of_compileSource hp hg
  cases hmain : p.tree.findFunction? "main" with
  | none =>
    rw [Program.generate_of_no_main hmain] at hgen
    cases hgen
  | some main =>
    obtain ⟨g', env, is, hg', hall, hsymbols⟩ :=
      Program.generate_symbols (checked_of_analyzeSource hp) hmain
    cases hgen.symm.trans hg'
    exact ⟨env, is, hall, hsymbols⟩

/-- The code of a program that was analyzed, with its items. -/
theorem assembled_of_compileSource (hp : analyzeSource source = .ok p)
    (hg : compileSource source = .ok g) : ∃ env is, p.Assembled g env is := by
  obtain ⟨env, is, hall, -⟩ := symbols_of_compileSource hp hg
  exact ⟨env, is, hall⟩

/-- The analysis of a program is all that generating its code needs: there is code if there is a
`main`, and otherwise that is what is missing. -/
theorem generate_of_analyzeSource {source : String} {p : Program}
    (h : analyzeSource source = .ok p) :
    ((∃ f ∈ p.tree.functions, f.name.lexeme = "main") → ∃ g, p.generate = .ok g) ∧
      ((∀ f ∈ p.tree.functions, f.name.lexeme ≠ "main") →
        p.generate = .error .missingEntryPoint) ∧
      ∀ e, p.generate = .error e → e = .missingEntryPoint := by
  have hp := checked_of_analyzeSource h
  cases hmain : p.tree.findFunction? "main" with
  | none =>
    have hnone := (Program.findFunction?_eq_none_iff p.tree "main").mp hmain
    have herr := Program.generate_of_no_main hmain
    refine ⟨fun ⟨f, hf, hname⟩ => absurd hname (hnone f hf), fun _ => herr, fun e he => ?_⟩
    rw [herr] at he
    exact (Except.error.inj he).symm
  | some main =>
    obtain ⟨g, env, is, hg, -⟩ := Program.generate_lies hp hmain
    refine ⟨fun _ => ⟨g, hg⟩, fun hnone => ?_, fun e he => ?_⟩
    · rw [(Program.findFunction?_eq_none_iff p.tree "main").mpr hnone] at hmain
      cases hmain
    · rw [hg] at he
      cases he

/-- A text with a loop, an array, a call and values of several types has code; without its `main` it
is accepted too, and that is what is missing. -/
theorem generate_of_analyzeSource_texts :
    let scale := "float scale(int n, float x) \x7b return n * x; \x7d "
    let main :=
      "int main() \x7b float a[2] = \x7b1.0, 2.5\x7d; for (int i = 0; i < 2; i++) \x7b " ++
      "if (a[i] > 2) \x7b break; \x7d a[i] = scale(i, a[i]); \x7d print(a[0]); return 0; \x7d"
    (∃ p g, analyzeSource (scale ++ main) = .ok p ∧ p.generate = .ok g) ∧
      ∃ p, analyzeSource scale = .ok p ∧ p.generate = .error .missingEntryPoint := by
  intro scale main
  have hmain : ((analyzeSource (scale ++ main)).toOption.any fun p =>
      p.tree.functions.any fun f => f.name.lexeme = "main") = true := by decide +kernel
  have hother : ((analyzeSource scale).toOption.any fun p =>
      p.tree.functions.all fun f => f.name.lexeme ≠ "main") = true := by decide +kernel
  simp only [any_toOption_iff, Array.any_eq_true', Array.all_eq_true', decide_eq_true_eq]
    at hmain hother
  obtain ⟨⟨p, hp, hmain⟩, q, hq, hother⟩ := And.intro hmain hother
  obtain ⟨g, hg⟩ := (generate_of_analyzeSource hp).1 hmain
  exact ⟨⟨p, g, hp, hg⟩, q, hq, (generate_of_analyzeSource hq).2.1 hother⟩

end StackLang
