import StackLang.Proofs.Code.Decoding

/-!
# Sound streams of words

What the check of a stream accepts and what it rejects, said without reading the stream: a sound
stream is a list of whole instructions, one behind the other, whose jumps go to instructions of the
list, and one of which is an exit unless there are none.

* `Code.Consists` — a stream is the words of the instructions, each at its address.
* `Code.Unreadable` — the place where the reading of a stream ends early.
* `Code.Sound`, `Code.Unsound` — what is accepted, and what is rejected with which error.
* `Code.verify_exact` — the check accepts the sound streams and gives the first error of the others.
-/

namespace StackLang

variable {w : Word}

/-! ## The words of operations -/

/-- The words from 1 to 50 are those of the operations. -/
theorem Op.exists_word_iff : (∃ op : Op, op.word = w) ↔ 1 ≤ w.toInt ∧ w.toInt ≤ 50 := by
  constructor
  · rintro ⟨op, rfl⟩
    cases op <;> decide
  · rintro ⟨hle, hge⟩
    have hn := Op.number_all ⟨w.toInt.toNat - 1, by omega⟩
    obtain ⟨op, -, hop⟩ := Option.map_eq_some_iff.mp hn
    refine ⟨op, Int64.toInt_inj.mp ?_⟩
    rw [Op.word, Word.ofNat, hop, Int64.toInt_ofNat_of_lt (by simp only; omega)]
    simp only
    omega

theorem Op.ofWord?_eq_none_iff : Op.ofWord? w = none ↔ ¬(1 ≤ w.toInt ∧ w.toInt ≤ 50) := by
  rw [← Op.exists_word_iff, not_exists, Option.eq_none_iff_forall_ne_some]
  constructor
  · intro h op hop
    exact h op (hop ▸ op.ofWord?_word)
  · intro h op hop
    exact h op (Op.word_of_ofWord? hop)

theorem Op.isJump_iff {op : Op} : op.isJump = true ↔ op = .jump ∨ op = .jumpZero := by
  cases op <;> decide

namespace Code

variable {a : Nat} {code : List Word} {is js : List Instruction} {i : Instruction} {e : CodeError}

/-! ## Whole instructions -/

/-- The stream from address `a` on is the words of the instructions, each of which has as many
operands as its operation takes and stands behind those before it. -/
structure Consists (a : Nat) (code : List Word) (is : List Instruction) : Prop where
  words : is.flatMap Instruction.words = code
  operands : ∀ i ∈ is, i.operand.toList.length = i.op.arity
  addresses : ∀ pre i suf, is = pre ++ i :: suf →
    i.address = a + (pre.flatMap Instruction.words).length

theorem consists_nil : Consists a code [] ↔ code = [] := by
  refine ⟨fun h => h.words.symm, ?_⟩
  rintro rfl
  exact ⟨rfl, fun _ hi => absurd hi List.not_mem_nil, fun pre i suf h => by simp at h⟩

theorem Consists.cons (hi : i.address = a) (hlen : i.operand.toList.length = i.op.arity)
    (h : Consists (a + i.words.length) code is) :
    Consists a (i.words ++ code) (i :: is) where
  words := by rw [List.flatMap_cons, h.words]
  operands j hj := by
    rcases List.mem_cons.mp hj with rfl | hj
    · exact hlen
    · exact h.operands j hj
  addresses pre j suf hsplit := by
    cases pre with
    | nil =>
      obtain ⟨rfl, rfl⟩ := List.cons.inj hsplit
      simpa using hi
    | cons k pre =>
      obtain ⟨rfl, rfl⟩ := List.cons.inj hsplit
      rw [h.addresses pre j suf rfl, List.flatMap_cons, List.length_append, Nat.add_assoc]

theorem Consists.uncons (h : Consists a code (i :: is)) :
    i.address = a ∧ i.operand.toList.length = i.op.arity ∧
      ∃ rest, code = i.words ++ rest ∧ Consists (a + i.words.length) rest is := by
  have hwords := h.words
  rw [List.flatMap_cons] at hwords
  refine ⟨?_, h.operands i List.mem_cons_self, _, hwords.symm, rfl, ?_, ?_⟩
  · simpa using h.addresses [] i is rfl
  · exact fun j hj => h.operands j (List.mem_cons_of_mem _ hj)
  · intro pre j suf hsplit
    rw [h.addresses (i :: pre) j suf (by rw [hsplit]; rfl), List.flatMap_cons,
      List.length_append, Nat.add_assoc]

/-! ## Reading -/

/-- What is read is the instructions that the stream consists of. -/
theorem consists_of_decodeFrom (h : decodeFrom a code = .ok is) : Consists a code is := by
  fun_induction decodeFrom a code generalizing is with
  | case1 =>
    cases h
    exact consists_nil.mpr rfl
  | case2 => cases h
  | case3 a w rest op hop hzero ih =>
    cases hr : decodeFrom (a + 1) rest with
    | error e => rw [hr] at h; cases h
    | ok js =>
      rw [hr] at h
      cases h
      have hcons := (ih hr).cons (i := ⟨a, op, none⟩) rfl hzero.symm
      rwa [Instruction.words, Op.word_of_ofWord? hop] at hcons
  | case4 => cases h
  | case5 a w op hop hzero operand rest ih =>
    cases hr : decodeFrom (a + 2) rest with
    | error e => rw [hr] at h; cases h
    | ok js =>
      rw [hr] at h
      cases h
      have hle := op.arity_le
      have hone : op.arity = 1 := by omega
      have hcons := (ih hr).cons (i := ⟨a, op, some operand⟩) rfl hone.symm
      rwa [Instruction.words, Op.word_of_ofWord? hop] at hcons

/-- A whole instruction is read off any stream that begins with it. -/
theorem decodeFrom_cons {op : Op} {operand : Option Word} (h : operand.toList.length = op.arity)
    (rest : List Word) : decodeFrom a (op.word :: (operand.toList ++ rest)) =
      (decodeFrom (a + (operand.toList.length + 1)) rest).map (⟨a, op, operand⟩ :: ·) := by
  rw [decodeFrom, Op.ofWord?_word]
  cases operand with
  | none => exact if_pos h.symm
  | some w => exact if_neg (by rw [← h, Option.toList_some, List.length_singleton]; decide)

/-- Whole instructions are read off any stream that begins with them. -/
theorem Consists.decodeFrom_append {ws : List Word} (h : Consists a ws is) (rest : List Word) :
    decodeFrom a (ws ++ rest) = (decodeFrom (a + ws.length) rest).map (is ++ ·) := by
  induction is generalizing a ws with
  | nil =>
    obtain rfl := consists_nil.mp h
    rw [List.nil_append, List.length_nil, Nat.add_zero]
    cases decodeFrom a rest <;> rfl
  | cons i is ih =>
    obtain ⟨rfl, hlen, ws, rfl, hws⟩ := h.uncons
    have hread : decodeFrom i.address (i.words ++ (ws ++ rest)) =
        (decodeFrom (i.address + i.words.length) (ws ++ rest)).map (i :: ·) :=
      decodeFrom_cons hlen (ws ++ rest)
    rw [List.append_assoc, hread, ih hws, List.length_append, Nat.add_assoc]
    cases decodeFrom (i.address + (i.words.length + ws.length)) rest <;> rfl

theorem decodeFrom_eq_ok_iff : decodeFrom a code = .ok is ↔ Consists a code is := by
  refine ⟨consists_of_decodeFrom, fun h => ?_⟩
  have hall := h.decodeFrom_append []
  rw [List.append_nil] at hall
  rw [hall, decodeFrom, Except.map, List.append_nil]

/-- A stream consists of instructions in one way only. -/
theorem Consists.unique (h : Consists a code is) (h' : Consists a code js) : is = js := by
  rw [← decodeFrom_eq_ok_iff] at h h'
  exact Except.ok.inj (h.symm.trans h')

/-- Behind whole instructions, the stream goes on with a word that is no operation, or with the last
operation, which lacks an operand. -/
inductive Unreadable (a : Nat) (code : List Word) : CodeError → Prop where
  | unknownOp {pre rest : List Word} {is : List Instruction} {w : Word} (hpre : Consists a pre is)
    (hcode : code = pre ++ w :: rest) (hw : ¬(1 ≤ w.toInt ∧ w.toInt ≤ 50)) :
    Unreadable a code (.unknownOp (a + pre.length) w)
  | missingOperand {pre operands : List Word} {is : List Instruction} {op : Op}
    (hpre : Consists a pre is) (hcode : code = pre ++ op.word :: operands)
    (hlen : operands.length < op.arity) :
    Unreadable a code (.missingOperand (a + pre.length) op)

/-- Behind one more instruction. -/
theorem Unreadable.cons (hi : i.address = a) (hlen : i.operand.toList.length = i.op.arity)
    (h : Unreadable (a + i.words.length) code e) : Unreadable a (i.words ++ code) e := by
  cases h with
  | unknownOp hpre hcode hw =>
    rw [Nat.add_assoc, ← List.length_append]
    exact .unknownOp (hpre.cons hi hlen) (by rw [hcode, List.append_assoc]) hw
  | missingOperand hpre hcode hop =>
    rw [Nat.add_assoc, ← List.length_append]
    exact .missingOperand (hpre.cons hi hlen) (by rw [hcode, List.append_assoc]) hop

theorem unreadable_of_decodeFrom (h : decodeFrom a code = .error e) : Unreadable a code e := by
  fun_induction decodeFrom a code with
  | case1 => cases h
  | case2 a w rest hop =>
    cases h
    exact .unknownOp (consists_nil.mpr rfl) rfl (Op.ofWord?_eq_none_iff.mp hop)
  | case3 a w rest op hop hzero ih =>
    cases hr : decodeFrom (a + 1) rest with
    | ok js => rw [hr] at h; cases h
    | error e' =>
      rw [hr] at h
      cases h
      have hcons := (ih hr).cons (i := ⟨a, op, none⟩) rfl hzero.symm
      rwa [Instruction.words, Op.word_of_ofWord? hop] at hcons
  | case4 a w op hop hzero =>
    cases h
    have hword : [w] = [] ++ op.word :: [] := by
      rw [Op.word_of_ofWord? hop]
      rfl
    exact .missingOperand (consists_nil.mpr rfl) hword (by simpa [Nat.pos_iff_ne_zero])
  | case5 a w op hop hzero operand rest ih =>
    cases hr : decodeFrom (a + 2) rest with
    | ok js => rw [hr] at h; cases h
    | error e' =>
      rw [hr] at h
      cases h
      have hle := op.arity_le
      have hone : op.arity = 1 := by omega
      have hcons := (ih hr).cons (i := ⟨a, op, some operand⟩) rfl hone.symm
      rwa [Instruction.words, Op.word_of_ofWord? hop] at hcons

theorem decodeFrom_eq_error_iff : decodeFrom a code = .error e ↔ Unreadable a code e := by
  refine ⟨unreadable_of_decodeFrom, fun h => ?_⟩
  cases h with
  | unknownOp hpre hcode hw =>
    rw [hcode, hpre.decodeFrom_append, decodeFrom, Op.ofWord?_eq_none_iff.mpr hw]
    rfl
  | @missingOperand _ operands _ op hpre hcode hlen =>
    have hle := op.arity_le
    obtain rfl : operands = [] := List.eq_nil_of_length_eq_zero (by omega)
    rw [hcode, hpre.decodeFrom_append, decodeFrom]
    simp only [Op.ofWord?_word]
    rw [if_neg (by simpa [Nat.pos_iff_ne_zero] using hlen)]
    rfl

/-! ## Jumps and exits -/

/-- If the instruction jumps, it jumps to one of the instructions. -/
def Lands (is : List Instruction) (i : Instruction) : Prop :=
  i.op = .jump ∨ i.op = .jumpZero → ∀ w, i.operand = some w → ∃ j ∈ is, w.toInt = j.address

/-- The stream consists of whole instructions, their jumps land, and one of them is an exit unless
there are none. -/
structure Sound (code : List Word) (is : List Instruction) : Prop where
  consists : Consists 0 code is
  lands : ∀ i ∈ is, Lands is i
  exits : code = [] ∨ ∃ i ∈ is, i.op = .exit

/-- The first thing that is wrong with a stream: it cannot be read to its end; or it can, and a jump
does not land, though those before it do; or all jumps land, and it has no exit. -/
inductive Unsound (code : List Word) : CodeError → Prop where
  | unreadable {e : CodeError} (h : Unreadable 0 code e) : Unsound code e
  | badJump {pre suf : List Instruction} {i : Instruction} {w : Word}
    (hcode : Consists 0 code (pre ++ i :: suf)) (hpre : ∀ j ∈ pre, Lands (pre ++ i :: suf) j)
    (hop : i.op = .jump ∨ i.op = .jumpZero) (hw : i.operand = some w)
    (hi : ∀ j ∈ pre ++ i :: suf, w.toInt ≠ j.address) :
    Unsound code (.badJump i.address w)
  | noExit {is : List Instruction} (hcode : Consists 0 code is) (hlands : ∀ i ∈ is, Lands is i)
    (hne : code ≠ []) (hexit : ∀ i ∈ is, i.op ≠ .exit) : Unsound code .noExit

theorem isStart_iff : isStart is w = true ↔ ∃ j ∈ is, w.toInt = j.address := by
  rw [isStart]
  cases h : w.toIndex? with
  | some t =>
    rw [Word.toIndex?_eq_some_iff] at h
    simp only [List.any_eq_true, beq_iff_eq, h, Int.natCast_inj]
    exact exists_congr fun j => and_congr_right fun _ => eq_comm
  | none =>
    simp only [Bool.false_eq_true, false_iff, not_exists, not_and]
    intro j _ hj
    rw [Word.toIndex?_eq_some_iff.mpr hj] at h
    cases h

theorem badJump?_eq_some_iff :
    badJump? is i = some e ↔ (i.op = .jump ∨ i.op = .jumpZero) ∧
      ∃ w, i.operand = some w ∧ (∀ j ∈ is, w.toInt ≠ j.address) ∧ .badJump i.address w = e := by
  rw [badJump?, Instruction.jumpTarget?, Option.bind_eq_some_iff, ← Op.isJump_iff]
  have hstart : ∀ w, (¬isStart is w = true) ↔ ∀ j ∈ is, w.toInt ≠ j.address := by
    intro w
    rw [isStart_iff]
    simp only [not_exists, not_and, ne_eq]
  by_cases hjump : i.op.isJump = true
  · simp only [hjump, if_true, true_and, ite_eq_iff, reduceCtorEq, and_false, false_or, hstart,
      Option.some.injEq]
  · simp [hjump]

theorem badJump?_eq_none_iff : badJump? is i = none ↔ Lands is i := by
  rw [Option.eq_none_iff_forall_ne_some, Lands]
  simp only [ne_eq, badJump?_eq_some_iff, not_and, not_exists]
  constructor
  · intro h hop w hw
    by_contra hlands
    simp only [not_exists, not_and] at hlands
    exact h _ hop w hw hlands rfl
  · intro h e hop w hw hno _
    obtain ⟨j, hj, heq⟩ := h hop w hw
    exact hno j hj heq

theorem hasExit_iff : hasExit is = true ↔ ∃ i ∈ is, i.op = .exit := by
  simp [hasExit]

/-! ## The check -/

/-- A stream that cannot be read is rejected for that. -/
theorem verify_of_unreadable (h : Unreadable 0 code e) : verify code = .error e := by
  rw [verify, decode, decodeFrom_eq_error_iff.mpr h]

/-- A stream that can be read is rejected for its first jump that does not land. -/
theorem verify_of_badJump (h : Consists 0 code is) (hbad : is.findSome? (badJump? is) = some e) :
    verify code = .error e := by
  rw [verify, decode, decodeFrom_eq_ok_iff.mpr h]
  simp only [hbad]

/-- A stream whose jumps land is accepted if it has an exit or is empty. -/
theorem verify_of_lands (h : Consists 0 code is) (hlands : ∀ i ∈ is, Lands is i) :
    verify code = if code = [] ∨ ∃ i ∈ is, i.op = .exit then .ok () else .error .noExit := by
  have hnone : is.findSome? (badJump? is) = none :=
    List.findSome?_eq_none_iff.mpr fun i hi => badJump?_eq_none_iff.mpr (hlands i hi)
  have hempty : is.isEmpty = true ↔ code = [] := by
    rw [List.isEmpty_iff, ← h.words, List.flatMap_eq_nil_iff]
    constructor
    · rintro rfl
      simp
    · intro hnil
      refine List.eq_nil_iff_forall_not_mem.mpr fun i hi => ?_
      simpa [Instruction.words] using hnil i hi
  rw [verify, decode, decodeFrom_eq_ok_iff.mpr h]
  simp only [hnone, Bool.or_eq_true, hempty, hasExit_iff]

/-- The first jump that does not land. -/
theorem findSome?_badJump?_eq_some (h : js.findSome? (badJump? is) = some e) :
    ∃ (pre : List Instruction) (i : Instruction) (suf : List Instruction) (w : Word),
      js = pre ++ i :: suf ∧ (∀ j ∈ pre, Lands is j) ∧ (i.op = .jump ∨ i.op = .jumpZero) ∧
      i.operand = some w ∧ (∀ j ∈ is, w.toInt ≠ j.address) ∧ e = .badJump i.address w := by
  obtain ⟨pre, i, suf, rfl, hi, hpre⟩ := List.findSome?_eq_some_iff.mp h
  obtain ⟨hop, w, hw, hno, rfl⟩ := badJump?_eq_some_iff.mp hi
  exact ⟨pre, i, suf, w, rfl, fun j hj => badJump?_eq_none_iff.mp (hpre j hj), hop, hw, hno, rfl⟩

theorem Unsound.verify (h : Unsound code e) : verify code = .error e := by
  cases h with
  | unreadable h => exact verify_of_unreadable h
  | @badJump pre suf i w hcode hpre hop hw hi =>
    refine verify_of_badJump hcode (List.findSome?_eq_some_iff.mpr ⟨pre, i, suf, rfl, ?_, ?_⟩)
    · exact badJump?_eq_some_iff.mpr ⟨hop, w, hw, hi, rfl⟩
    · exact fun j hj => badJump?_eq_none_iff.mpr (hpre j hj)
  | noExit hcode hlands hne hexit =>
    rw [verify_of_lands hcode hlands, if_neg]
    rintro (hnil | ⟨i, hi, hop⟩)
    · exact hne hnil
    · exact hexit i hi hop

theorem Sound.verify (h : Sound code is) : verify code = .ok () := by
  rw [verify_of_lands h.consists h.lands, if_pos h.exits]

theorem Sound.decode (h : Sound code is) : decode code = .ok is :=
  decodeFrom_eq_ok_iff.mpr h.consists

/-- Every stream is sound, or something is the first that is wrong with it. -/
theorem sound_or_unsound (code : List Word) : (∃ is, Sound code is) ∨ ∃ e, Unsound code e := by
  cases hdecode : decode code with
  | error e => exact .inr ⟨e, .unreadable (unreadable_of_decodeFrom hdecode)⟩
  | ok is =>
    have hcode := consists_of_decodeFrom hdecode
    cases hfind : is.findSome? (badJump? is) with
    | some e =>
      obtain ⟨pre, i, suf, w, rfl, hpre, hop, hw, hi, rfl⟩ := findSome?_badJump?_eq_some hfind
      exact .inr ⟨_, .badJump hcode hpre hop hw hi⟩
    | none =>
      have hlands : ∀ i ∈ is, Lands is i := fun i hi =>
        badJump?_eq_none_iff.mp (List.findSome?_eq_none_iff.mp hfind i hi)
      by_cases hexits : code = [] ∨ ∃ i ∈ is, i.op = .exit
      · exact .inl ⟨is, hcode, hlands, hexits⟩
      · simp only [not_or, not_exists, not_and] at hexits
        exact .inr ⟨.noExit, .noExit hcode hlands hexits.1 hexits.2⟩

theorem exists_sound (h : verify code = .ok ()) : ∃ is, Sound code is := by
  refine (sound_or_unsound code).resolve_right ?_
  rintro ⟨e, he⟩
  cases h.symm.trans he.verify

/-- The words of operations are those from 1 to 50, and a stream consists of instructions in one way
at most.  The check accepts a stream exactly if it is sound, and otherwise rejects it for the first
thing that is wrong with it. -/
theorem verify_exact (code : List Word) :
    (∀ w : Word, (∃ op : Op, op.word = w) ↔ 1 ≤ w.toInt ∧ w.toInt ≤ 50) ∧
      (∀ is js, Consists 0 code is → Consists 0 code js → is = js) ∧
      (verify code = .ok () ↔ ∃ is, Sound code is) ∧
      ∀ e, verify code = .error e ↔ Unsound code e := by
  refine ⟨fun w => Op.exists_word_iff, fun is js h h' => h.unique h', ?_, fun e => ?_⟩
  · refine ⟨exists_sound, ?_⟩
    rintro ⟨is, h⟩
    exact h.verify
  · refine ⟨fun herror => ?_, Unsound.verify⟩
    rcases sound_or_unsound code with ⟨is, h⟩ | ⟨e', h⟩
    · cases herror.symm.trans h.verify
    · cases herror.symm.trans h.verify
      exact h

/-- An operand is no exit, though it is the word of one. -/
example : verify [Op.push.word, Op.exit.word] = .error .noExit := by decide

end Code

end StackLang
