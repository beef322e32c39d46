import StackLang.Code.Listing
import StackLang.Proofs.Code.Soundness
import StackLang.Proofs.Text.Lines

/-!
# Listings of sound code

The listing of sound code, read back line by line, is the instructions of the code: their addresses,
names and operands, and which of them are jumped to.  Headings stand above the functions and nowhere
else.

* `Listing.Shown.read?` — what a line says about an instruction, if it is the line of one.
* `Listing.Block` — such a line with the heading above it.
* `Listing.render_shows` — the listing of sound code.
-/

namespace StackLang

namespace Listing

variable {is : List Instruction} {address : Nat} {symbols : List (String × Nat)}

/-! ## Reading a line -/

/-- What a line says about an instruction. -/
structure Shown where
  address : Nat
  /-- Whether there is a mark for a place to which the code jumps. -/
  marked : Bool
  mnemonic : String
  operand : Option String
  deriving DecidableEq

/-- The first column of a row. -/
def column (row : List Char) : List Char :=
  row.takeWhile (· != ' ')

/-- The columns behind the first one. -/
def furtherColumns (row : List Char) : List Char :=
  (row.dropWhile (· != ' ')).dropWhile (· == ' ')

/-- The line of an instruction begins with the digits of its address, a blank, the place for the
mark and another blank.  The name and the operand are the columns that follow. -/
def Shown.read? (line : String) : Option Shown :=
  let digits := line.toList.takeWhile Char.isDigit
  match line.toList.dropWhile Char.isDigit with
  | ' ' :: mark :: ' ' :: row =>
    if digits = [] then none
    else some
      { address := Nat.ofDigitChars 10 digits 0
        marked := mark == '►'
        mnemonic := String.ofList (column row)
        operand := if furtherColumns row = [] then none
          else some (String.ofList (column (furtherColumns row))) }
  | _ => none

/-- A line that does not begin with a digit is no line of an instruction. -/
theorem Shown.read?_eq_none {line : String}
    (h : ∀ c, line.toList.head? = some c → c.isDigit = false) : read? line = none := by
  have hdigits : line.toList.takeWhile Char.isDigit = [] := by
    cases hl : line.toList with
    | nil => rfl
    | cons c cs => exact List.takeWhile_cons_of_neg (by simp [h c (by rw [hl]; rfl)])
  rw [read?]
  simp only [hdigits, if_true]
  split <;> rfl

/-! ### Columns -/

variable {word rest : List Char}

theorem bne_blank (hword : ' ' ∉ word) : ∀ c ∈ word, (c != ' ') = true := by
  intro c hc
  rw [bne_iff_ne]
  rintro rfl
  exact hword hc

/-- A word without blanks is a column if a blank or nothing follows. -/
theorem column_append (hword : ' ' ∉ word) (hrest : rest.head?.all (· == ' ')) :
    column (word ++ rest) = word := by
  rw [column, List.takeWhile_append_of_pos (bne_blank hword)]
  cases rest with
  | nil => simp
  | cons c rest =>
    have hc : c = ' ' := by simpa using hrest
    simp [hc]

theorem furtherColumns_append (hword : ' ' ∉ word) (blanks : Nat) (hrest : rest.head? ≠ some ' ') :
    furtherColumns (word ++ (List.replicate (blanks + 1) ' ' ++ rest)) = rest := by
  have hblanks : ∀ c ∈ List.replicate (blanks + 1) ' ', (c == ' ') = true := by simp
  rw [furtherColumns, List.dropWhile_append_of_pos (bne_blank hword), List.replicate_succ,
    List.cons_append, List.dropWhile_cons_of_neg (by simp), ← List.cons_append,
    ← List.replicate_succ, List.dropWhile_append_of_pos hblanks]
  cases rest with
  | nil => rfl
  | cons c rest => exact List.dropWhile_cons_of_neg (by simpa using hrest)

theorem furtherColumns_self (hword : ' ' ∉ word) : furtherColumns word = [] := by
  rw [furtherColumns, ← List.append_nil word, List.dropWhile_append_of_pos (bne_blank hword)]
  rfl

/-- The beginning of a line is read, whatever its columns are. -/
theorem Shown.read?_line (address : Nat) (isTarget : Bool) (row : String) :
    read? (Text.zeroPadded 4 address ++ " " ++ (if isTarget then "► " else "  ") ++ row) =
      some ⟨address, isTarget, String.ofList (column row.toList),
        if furtherColumns row.toList = [] then none
        else some (String.ofList (column (furtherColumns row.toList)))⟩ := by
  have hline :
      (Text.zeroPadded 4 address ++ " " ++ (if isTarget then "► " else "  ") ++ row).toList =
      (Text.zeroPadded 4 address).toList ++
        ' ' :: (if isTarget then '►' else ' ') :: ' ' :: row.toList := by
    cases isTarget <;> simp
  have hdigits : ∀ c ∈ (Text.zeroPadded 4 address).toList, c.isDigit = true :=
    fun c => Text.isDigit_of_mem_zeroPadded
  rw [read?, hline, List.takeWhile_append_of_pos hdigits, List.dropWhile_append_of_pos hdigits,
    List.takeWhile_cons_of_neg (by decide), List.dropWhile_cons_of_neg (by decide), List.append_nil]
  simp only [Text.zeroPadded_ne_nil, Text.ofDigitChars_zeroPadded, if_false]
  cases isTarget <;> rfl

/-! ## The lines of instructions -/

/-- The entry of an instruction. -/
def entryOf (i : Instruction) : ListingEntry :=
  match i.operand with
  | none => .plain i.op
  | some w => .applied i.op w

/-- The entries of code that consists of instructions are the instructions. -/
theorem entriesFrom_of_consists {a : Nat} {code : List Word} (h : Code.Consists a code is) :
    entriesFrom a code = is.map fun i => (i.address, entryOf i) := by
  induction is generalizing a code with
  | nil =>
    obtain rfl := Code.consists_nil.mp h
    rfl
  | cons i is ih =>
    obtain ⟨rfl, hlen, rest, rfl, hrest⟩ := h.uncons
    rw [Instruction.words] at hrest ⊢
    rw [List.cons_append, entriesFrom, Op.ofWord?_word, List.map_cons, ← ih hrest, entryOf]
    cases hoperand : i.operand with
    | none =>
      rw [hoperand] at hlen
      exact if_pos hlen.symm
    | some w =>
      rw [hoperand] at hlen
      exact if_neg (hlen ▸ Nat.one_ne_zero)

/-- Whether one of the instructions is a jump to the address. -/
def jumpedTo (is : List Instruction) (address : Nat) : Bool :=
  is.any fun i => (i.op == .jump || i.op == .jumpZero) && i.operand.any (·.toInt == (address : Int))

/-- What a listing has to say about one of the instructions `is`. -/
def shown (is : List Instruction) (i : Instruction) : Shown where
  address := i.address
  marked := jumpedTo is i.address
  mnemonic := i.op.mnemonic
  operand := i.operand.map (toString ·.toInt)

/-- The address to which an instruction jumps. -/
def target? (i : Instruction) : Option Nat :=
  if i.op.isJump then i.operand.bind Word.toIndex? else none

/-- The walk over the words of code that consists of instructions keeps in step with them. -/
theorem targets_of_consists {a : Nat} {code : List Word} (h : Code.Consists a code is) :
    targets code = is.filterMap target? := by
  induction is generalizing a code with
  | nil =>
    obtain rfl := Code.consists_nil.mp h
    rfl
  | cons i is ih =>
    obtain ⟨rfl, hlen, rest, rfl, hrest⟩ := h.uncons
    rw [Instruction.words] at hrest ⊢
    rw [List.cons_append, targets, Op.ofWord?_word, List.filterMap_cons, ← ih hrest, target?]
    cases hoperand : i.operand with
    | none =>
      rw [hoperand] at hlen
      simp [← hlen]
    | some w =>
      rw [hoperand] at hlen
      cases hjump : i.op.isJump <;> cases hw : w.toIndex? <;> simp [← hlen, hjump, hw]

/-- The addresses that are marked are those to which one of the instructions jumps. -/
theorem contains_targets {a : Nat} {code : List Word} (h : Code.Consists a code is)
    (address : Nat) : (targets code).contains address = jumpedTo is address := by
  rw [Bool.eq_iff_iff, targets_of_consists h, List.contains_iff_mem, List.mem_filterMap]
  simp [target?, Op.isJump_iff, jumpedTo, Option.bind_eq_some_iff, Word.toIndex?_eq_some_iff,
    Option.any_eq_true]

theorem blank_not_mem_mnemonic (op : Op) : ' ' ∉ op.mnemonic.toList := by
  cases op <;> simp [Op.mnemonic]

theorem blank_not_mem_toString (n : Int) : ' ' ∉ (toString n).toList := by
  intro h
  rcases Text.digit_or_sign_of_mem_toString h with h | h
  · exact absurd h (by decide)
  · exact absurd h (by decide)

/-- The operand stands behind the name and some blanks, and a note behind both. -/
theorem toList_body_applied (strings : StringPool) (symbols : List (String × Nat))
    (next : Option Op) (op : Op) (w : Word) : ∃ (blanks : Nat) (rest : List Char),
      (body strings symbols next (.applied op w)).toList = op.mnemonic.toList ++
        (List.replicate (blanks + 1) ' ' ++ ((toString w.toInt).toList ++ rest)) ∧
      rest.head?.all (· == ' ') := by
  rw [body, Text.padRight]
  refine ⟨11 - op.mnemonic.length, ?_⟩
  rw [List.replicate_succ']
  cases note? strings symbols next op w with
  | none => exact ⟨[], by simp, rfl⟩
  | some note =>
    rw [Text.padRight]
    generalize 6 - (toString w.toInt).length = blanks
    refine ⟨List.replicate blanks ' ' ++ (" ; ".toList ++ note.toList), by simp, ?_⟩
    cases blanks <;> rfl

/-- The line of an instruction shows it. -/
theorem Shown.read?_entryOf (strings : StringPool) (symbols : List (String × Nat))
    (marks : List Nat) (next : Option Op) (i : Instruction) :
    read? (line strings symbols marks next i.address (entryOf i)) =
      some ⟨i.address, marks.contains i.address, i.op.mnemonic,
        i.operand.map (toString ·.toInt)⟩ := by
  have hname := blank_not_mem_mnemonic i.op
  rw [line, read?_line, entryOf]
  cases i.operand with
  | none =>
    have hcolumn := column_append hname (Eq.refl (([] : List Char).head?.all (· == ' ')))
    rw [List.append_nil] at hcolumn
    simp [body, hcolumn, furtherColumns_self hname]
  | some w =>
    obtain ⟨blanks, rest, hrow, hrest⟩ := toList_body_applied strings symbols next i.op w
    have hblank := blank_not_mem_toString w.toInt
    have hne := Text.toString_int_ne_nil w.toInt
    have hfurther : furtherColumns (body strings symbols next (.applied i.op w)).toList =
        (toString w.toInt).toList ++ rest := by
      rw [hrow]
      refine furtherColumns_append hname blanks fun hhead => hblank ?_
      rw [List.head?_append_of_ne_nil _ hne] at hhead
      exact List.mem_of_head? hhead
    have hcolumn : column (body strings symbols next (.applied i.op w)).toList =
        i.op.mnemonic.toList := by
      rw [hrow]
      exact column_append hname rfl
    have hoperand : (toString w.toInt).toList ++ rest ≠ [] :=
      List.append_ne_nil_of_left_ne_nil hne _
    rw [hcolumn, hfurther, if_neg hoperand, column_append hblank hrest, String.ofList_toList,
      String.ofList_toList]
    rfl

/-! ## The listing -/

/-- The line of an instruction, under the heading of the function that starts there, if one does. -/
structure Block where
  name : Option String
  line : String

def Block.lines (b : Block) : List String :=
  (b.name.map heading).getD [] ++ [b.line]

/-- The block shows the instruction, and it has a heading exactly if a function starts there. -/
structure Block.Shows (symbols : List (String × Nat)) (is : List Instruction) (b : Block)
    (i : Instruction) : Prop where
  line : Shown.read? b.line = some (shown is i)
  name : ∀ name, b.name = some name → (name, i.address) ∈ symbols
  noName : b.name = none → ∀ name, (name, i.address) ∉ symbols

theorem mem_of_functionAt? {name : String} (h : functionAt? symbols address = some name) :
    (name, address) ∈ symbols := by
  rw [functionAt?, Option.map_eq_some_iff] at h
  obtain ⟨symbol, hfind, rfl⟩ := h
  obtain rfl : symbol.2 = address := by simpa using List.find?_some hfind
  exact List.mem_reverse.mp (List.mem_of_find?_eq_some hfind)

theorem not_mem_of_functionAt? (h : functionAt? symbols address = none) (name : String) :
    (name, address) ∉ symbols := by
  rw [functionAt?, Option.map_eq_none_iff, List.find?_eq_none] at h
  intro hmem
  exact h _ (List.mem_reverse.mpr hmem) (beq_self_eq_true address)

/-- The lines of instructions are one block for each of them. -/
theorem exists_blocks (strings : StringPool) (symbols : List (String × Nat)) {marks : List Nat}
    (hmarks : ∀ address, marks.contains address = jumpedTo is address) (js : List Instruction) :
    ∃ blocks : List Block,
      linesOf strings symbols marks (js.map fun i => (i.address, entryOf i)) =
        blocks.flatMap Block.lines ∧
      List.Forall₂ (Block.Shows symbols is) blocks js := by
  induction js with
  | nil => exact ⟨[], rfl, .nil⟩
  | cons j js ih =>
    obtain ⟨blocks, hlines, hblocks⟩ := ih
    let next := (js.map fun i => (i.address, entryOf i)).head?.bind (·.2.op?)
    refine ⟨⟨functionAt? symbols j.address,
      line strings symbols marks next j.address (entryOf j)⟩ :: blocks,
      ?_, .cons ⟨?_, ?_, ?_⟩ hblocks⟩
    · rw [List.map_cons, linesOf, hlines, List.flatMap_cons, Block.lines, List.append_assoc]
      rfl
    · rw [Shown.read?_entryOf, hmarks]
      rfl
    · exact fun name => mem_of_functionAt?
    · exact not_mem_of_functionAt?

theorem eq_of_mem_rule {c : Char} (h : c ∈ rule.toList) : c = '═' := by
  unfold rule at h
  simp only [String.toList_ofList] at h
  exact List.eq_of_mem_replicate h

/-- Headings are no lines of instructions. -/
theorem read?_heading (name : String) : ∀ line ∈ heading name, Shown.read? line = none := by
  have hrule : Shown.read? rule = none := by
    refine Shown.read?_eq_none fun c hc => ?_
    rw [eq_of_mem_rule (List.mem_of_head? hc)]
    decide
  have hname : Shown.read? (" " ++ name) = none := by
    refine Shown.read?_eq_none fun c hc => ?_
    rw [String.toList_append] at hc
    cases hc
    decide
  simp only [heading, List.forall_mem_cons, List.not_mem_nil, false_imp_iff, implies_true, and_true]
  exact ⟨by decide, hrule, hname, hrule⟩

theorem read?_title : Shown.read? "=== BYTECODE PROGRAM ===" = none :=
  Shown.read?_eq_none (by simp)

theorem read?_summary (words strings : Nat) :
    Shown.read? (" " ++ toString words ++ " words, " ++ toString strings ++ " strings") = none :=
  Shown.read?_eq_none (by simp)

/-- The lines of the blocks that are lines of instructions show them, each once and in order. -/
theorem filterMap_read?_blocks {js : List Instruction} {blocks : List Block}
    (h : List.Forall₂ (Block.Shows symbols is) blocks js) :
    (blocks.flatMap Block.lines).filterMap Shown.read? = js.map (shown is) := by
  induction h with
  | nil => rfl
  | @cons b j blocks js hb _ ih =>
    have hheading : ((b.name.map heading).getD []).filterMap Shown.read? = [] := by
      rw [List.filterMap_eq_nil_iff]
      intro line hline
      cases hname : b.name with
      | none => simp [hname] at hline
      | some name => exact read?_heading name line (by simpa [hname] using hline)
    rw [List.flatMap_cons, List.filterMap_append, ih, Block.lines, List.filterMap_append, hheading,
      List.filterMap_cons, hb.line]
    rfl

/-! ### Lines -/

section OneLine

variable {symbols : List (String × Nat)} (hsymbols : ∀ s ∈ symbols, Text.OneLine s.1)
include hsymbols

theorem oneLine_note {strings : StringPool} {next : Option Op} {op : Op} {w : Word} {note : String}
    (h : note? strings symbols next op w = some note) : Text.OneLine note := by
  rw [note?.eq_def] at h
  split at h
  · split at h
    · obtain ⟨text, -, rfl⟩ := Option.map_eq_some_iff.mp h
      exact Text.oneLine_quote text
    · obtain ⟨name, hname, rfl⟩ := Option.map_eq_some_iff.mp h
      obtain ⟨address, -, hat⟩ := Option.bind_eq_some_iff.mp hname
      have hsymbol := hsymbols _ (mem_of_functionAt? hat)
      exact (Text.OneLine.append (by simp [Text.OneLine]) hsymbol).append (by simp [Text.OneLine])
  · cases h
    exact .append (by simp [Text.OneLine]) (Text.oneLine_zeroPaddedInt _ _)
  · cases h
    exact .append (by simp [Text.OneLine]) (Text.oneLine_zeroPaddedInt _ _)
  · cases h
    exact .append (Text.oneLine_toString_int _) (by simp [Text.OneLine])
  · cases h

theorem oneLine_body (strings : StringPool) (next : Option Op) (entry : ListingEntry) :
    Text.OneLine (body strings symbols next entry) := by
  have hname : ∀ op : Op, Text.OneLine op.mnemonic := by
    intro op
    cases op <;> simp [Text.OneLine, Op.mnemonic]
  cases entry with
  | unknown w => exact .append (by simp [Text.OneLine]) (Text.oneLine_toString_int _)
  | plain op => exact hname op
  | truncated op => exact .append ((hname op).padRight _) (by simp [Text.OneLine])
  | applied op w =>
    refine .append (.append ((hname op).padRight _) (by simp [Text.OneLine])) ?_
    have hw := Text.oneLine_toString_int w.toInt
    cases hnote : note? strings symbols next op w with
    | none => exact hw
    | some note =>
      exact .append (.append (hw.padRight _) (by simp [Text.OneLine])) (oneLine_note hsymbols hnote)

theorem oneLine_heading (address : Nat) :
    ∀ l ∈ ((functionAt? symbols address).map heading).getD [], Text.OneLine l := by
  have hrule : Text.OneLine rule := fun h => absurd (eq_of_mem_rule h) (by decide)
  cases hat : functionAt? symbols address with
  | none => exact fun l hl => absurd hl List.not_mem_nil
  | some name =>
    have hsymbol : Text.OneLine name := hsymbols _ (mem_of_functionAt? hat)
    simp only [Option.map_some, Option.getD_some, heading, List.forall_mem_cons, List.not_mem_nil,
      false_imp_iff, implies_true, and_true]
    exact ⟨by simp [Text.OneLine], hrule, .append (by simp [Text.OneLine]) hsymbol, hrule⟩

theorem oneLine_linesOf (strings : StringPool) (marks : List Nat) (es : List (Nat × ListingEntry))
    {l : String} (h : l ∈ linesOf strings symbols marks es) : Text.OneLine l := by
  induction es with
  | nil => cases h
  | cons e es ih =>
    rw [linesOf, List.mem_append, List.mem_cons] at h
    rcases h with h | rfl | h
    · exact oneLine_heading hsymbols _ l h
    · refine .append (.append (.append (Text.oneLine_zeroPadded _ _) ?_) (.ite ?_ ?_))
        (oneLine_body hsymbols _ _ _) <;> simp [Text.OneLine]
    · exact ih h

/-- The text is the lines of the listing. -/
theorem lines_render (code : List Word) (strings : StringPool) :
    Text.lines (render code strings symbols) = lines code strings symbols ++ [""] := by
  refine Text.lines_join fun l hl => ?_
  rw [lines, List.mem_cons, List.mem_cons] at hl
  rcases hl with rfl | rfl | hl
  · simp [Text.OneLine]
  · refine .append (.append (.append (.append ?_ (Text.oneLine_toString_nat _)) ?_)
      (Text.oneLine_toString_nat _)) ?_ <;> simp [Text.OneLine]
  · exact oneLine_linesOf hsymbols _ _ _ hl

end OneLine

/-! ### Sound code -/

/-- Addresses grow along the instructions of a stream. -/
theorem pairwise_address {a : Nat} {code : List Word} (h : Code.Consists a code is) :
    is.Pairwise (·.address < ·.address) := by
  induction is generalizing a code with
  | nil => exact .nil
  | cons i is ih =>
    obtain ⟨rfl, -, rest, -, hrest⟩ := h.uncons
    refine List.pairwise_cons.mpr ⟨fun j hj => ?_, ih hrest⟩
    obtain ⟨pre, suf, hsplit⟩ := List.append_of_mem hj
    rw [hrest.addresses pre j suf hsplit, Instruction.words, List.length_cons]
    omega

theorem mnemonic_ne_unknown (op : Op) : op.mnemonic ≠ "???" := by
  cases op <;> decide

theorem toString_ne_truncated (n : Int) : toString n ≠ "<truncated>" := by
  intro h
  have hmem : '<' ∈ (toString n).toList := by
    rw [h]
    decide
  rcases Text.digit_or_sign_of_mem_toString hmem with h | h
  · exact absurd h (by decide)
  · exact absurd h (by decide)

/-- Read line by line, the listing of code that passes the check is the instructions of the code in
ascending order: each is shown once, with its address and name and, if it takes one, its operand,
and nothing is shown as unknown or truncated.  Those to which one of the instructions jumps are
marked, and there is one wherever a jump goes.  Behind the two lines at the top there is nothing but
the lines of the instructions and the headings of functions, which stand above the instructions at
which one starts. -/
theorem render_shows (code : List Word) (strings : StringPool) (symbols : List (String × Nat))
    (hcode : Code.verify code = .ok ()) (hsymbols : ∀ s ∈ symbols, '\n' ∉ s.1.toList) :
    ∃ is, Code.decode code = .ok is ∧
      is.Pairwise (·.address < ·.address) ∧
      (∀ i ∈ is, i.operand.isSome = true ↔ i.op.arity = 1) ∧
      (Text.lines (render code strings symbols)).filterMap Shown.read? = is.map (shown is) ∧
      (∀ i ∈ is, (shown is i).mnemonic ≠ "???" ∧ (shown is i).operand ≠ some "<truncated>") ∧
      (∀ i ∈ is, i.op = .jump ∨ i.op = .jumpZero → ∀ w, i.operand = some w →
        ∃ j ∈ is, w.toInt = j.address ∧ (shown is j).marked = true) ∧
      ∃ (top : List String) (blocks : List Block), top.length = 2 ∧
        (∀ l ∈ top, Shown.read? l = none) ∧
        Text.lines (render code strings symbols) = top ++ (blocks.flatMap Block.lines ++ [""]) ∧
        List.Forall₂ (Block.Shows symbols is) blocks is := by
  obtain ⟨is, hsound⟩ := Code.exists_sound hcode
  have hentries : entries code = is.map fun i => (i.address, entryOf i) :=
    entriesFrom_of_consists hsound.consists
  obtain ⟨blocks, hlines, hblocks⟩ := exists_blocks strings symbols
    (contains_targets hsound.consists) is
  have htext := lines_render hsymbols code strings
  rw [lines, hentries, hlines] at htext
  refine ⟨is, hsound.decode, pairwise_address hsound.consists, fun i hi => ?_, ?_,
    fun i _ => ⟨?_, ?_⟩, fun i hi hop w hw => ?_, [_, _], blocks, rfl, ?_, htext, hblocks⟩
  · have hlen := hsound.consists.operands i hi
    cases hoperand : i.operand <;> simp [hoperand] at hlen ⊢ <;> omega
  · rw [htext]
    simp only [List.cons_append, List.filterMap_cons, read?_title, read?_summary,
      List.filterMap_append, filterMap_read?_blocks hblocks]
    exact List.append_nil _
  · exact mnemonic_ne_unknown i.op
  · intro h
    obtain ⟨w, -, hw⟩ := Option.map_eq_some_iff.mp h
    exact toString_ne_truncated _ hw
  · obtain ⟨j, hj, heq⟩ := hsound.lands i hi hop w hw
    refine ⟨j, hj, heq, List.any_eq_true.mpr ⟨i, hi, ?_⟩⟩
    simp [hop, hw, heq]
  · simp only [List.forall_mem_cons, read?_title, read?_summary, List.not_mem_nil, false_imp_iff,
      implies_true, and_self]

/-- A jump over a function of one instruction to another one. -/
theorem render_shows_jump :
    ∃ is, Code.decode [Op.jump.word, 3, Op.exit.word, Op.exit.word] = .ok is ∧
      (Text.lines (render [Op.jump.word, 3, Op.exit.word, Op.exit.word] .empty
        [("f", 2), ("main", 3)])).filterMap Shown.read? = is.map (shown is) ∧
      is.map (shown is) =
        [⟨0, false, "JMP", some "3"⟩, ⟨2, false, "EXIT", none⟩, ⟨3, true, "EXIT", none⟩] := by
  obtain ⟨is, hdecode, -, -, hshown, -⟩ :=
    render_shows [Op.jump.word, 3, Op.exit.word, Op.exit.word]
      .empty [("f", 2), ("main", 3)] (by decide) (by simp)
  have his : Code.decode [Op.jump.word, 3, Op.exit.word, Op.exit.word] =
      .ok [⟨0, .jump, some 3⟩, ⟨2, .exit, none⟩, ⟨3, .exit, none⟩] := by decide
  obtain rfl := Except.ok.inj (hdecode.symm.trans his)
  exact ⟨_, hdecode, hshown, by cbv⟩

end Listing

end StackLang
