import StackLang.Code.Image

/-!
# Images are read back

What is written as an image is read as the same image, whatever follows it.  Every reader is the
inverse of a writer on values whose lengths and addresses can be counted in 64 bits, and gives only
such values.  So an image that was read, from whatever bytes, is also written and read back.

The index of the strings is not written.  It is made anew when an image is read, and is then the one
that the strings had: while strings are added, the index always lists them with their keys.

* `Varint.read_write`, `Varint.lt_limit_of_read` — numbers.
* `Image.Inverts` — a reader that undoes a writer, put together by the shape of the data.
* `StringPool.Grown.reindex_eq` — the index of a pool is the one that is made anew.
* `Image.ofBytes_toBytes` — images.
-/

namespace StackLang

variable {n : Nat} {bytes rest : Bytes}

/-! ## Numbers -/

namespace Varint

/-- The numbers of at most `count + 1` bytes are below this, if the last of these bytes is at most
`last`. -/
def limit (last : Nat) : Nat → Nat
  | 0 => last + 1
  | count + 1 => 128 * limit last count

theorem toNat_ofNat (h : n < 256) : (UInt8.ofNat n).toNat = n := by
  rw [UInt8.toNat_ofNat']
  exact Nat.mod_eq_of_lt h

/-- A number below the limit is read back. -/
theorem read_write {last : Nat} (hlast : last < 128) {count : Nat} (h : n < limit last count)
    (rest : Bytes) : read last (count + 1) (write n ++ rest) = .ok (n, rest) := by
  induction count generalizing n with
  | zero =>
    have hn : n < last + 1 := h
    rw [write, if_pos (by omega), List.singleton_append, read, toNat_ofNat (by omega),
      if_pos (by omega), if_neg (by omega)]
  | succ count ih =>
    have hn : n < 128 * limit last count := h
    by_cases hsmall : n < 128
    · rw [write, if_pos hsmall, List.singleton_append, read, toNat_ofNat (by omega),
        if_pos hsmall, if_neg (by omega)]
    · -- the first byte has the lowest seven bits, the other bytes have the rest
      have hrest := ih (n := n / 128) (by omega)
      have hbyte : (UInt8.ofNat (n % 128 + 128)).toNat = n % 128 + 128 := toNat_ofNat (by omega)
      rw [write, if_neg hsmall, List.cons_append, read, hbyte, if_neg (by omega), hrest]
      have hsum : (n % 128 + 128) % 128 + 128 * (n / 128) = n := by omega
      exact congrArg (fun n => Except.ok (n, rest)) hsum

/-- Whatever is read is below the limit. -/
theorem lt_limit_of_read {last count : Nat} (h : read last (count + 1) bytes = .ok (n, rest)) :
    n < limit last count := by
  induction count generalizing bytes rest n with
  | zero =>
    cases bytes with
    | nil => cases h
    | cons b bytes =>
      rw [read] at h
      split at h
      · split at h
        · cases h
        · rename_i hb hend
          cases h
          rw [limit]
          omega
      · cases h
  | succ count ih =>
    cases bytes with
    | nil => cases h
    | cons b bytes =>
      have hlimit : 1 ≤ limit last count := by
        clear ih h
        induction count with
        | zero => exact Nat.le_add_left _ _
        | succ count ih => exact Nat.le_trans ih (Nat.le_mul_of_pos_left _ (by decide))
      show n < 128 * limit last count
      rw [read] at h
      split at h
      · split at h
        · cases h
        · cases h
          omega
      · split at h
        · rename_i m _ hm
          have := ih hm
          cases h
          omega
        · cases h

/-- The numbers of 64 bits are those that can be read. -/
theorem limit_word : limit 1 9 = 0x10000000000000000 := by decide

theorem limit_mark : limit 15 4 = 0x100000000 := by decide

/-- The number of a word has 64 bits. -/
theorem zigzag_lt (w : Word) : zigzag w < 0x10000000000000000 := by
  have hlow := w.le_toInt
  have hhigh := w.toInt_lt
  unfold zigzag
  dsimp only
  split <;> omega

end Varint

/-! ## Readers and writers -/

namespace Image

variable {α β : Type}

/-- The reader takes what is written off the front of any bytes, for all values that satisfy `P`,
and gives only such values. -/
structure Inverts (read : Reader α) (write : α → Bytes) (P : α → Prop) : Prop where
  read_write : ∀ a, P a → ∀ rest, read (write a ++ rest) = .ok (a, rest)
  of_read : ∀ bytes a rest, read bytes = .ok (a, rest) → P a

/-- The number can be written in 64 bits. -/
def Counted (n : Nat) : Prop :=
  n < 0x10000000000000000

/-- The length of the list can be written, and so can its elements. -/
def CountedList (P : α → Prop) (xs : List α) : Prop :=
  Counted xs.length ∧ ∀ x ∈ xs, P x

def CountedText (s : String) : Prop :=
  Counted (Text.utf8 s).length

def CountedSymbol (symbol : String × Nat) : Prop :=
  CountedText symbol.1 ∧ Counted symbol.2

instance : DecidablePred Counted := fun n =>
  inferInstanceAs (Decidable (n < 0x10000000000000000))

instance {P : α → Prop} [DecidablePred P] : DecidablePred (CountedList P) := fun xs =>
  inferInstanceAs (Decidable (Counted xs.length ∧ ∀ x ∈ xs, P x))

instance : DecidablePred CountedText := fun s =>
  inferInstanceAs (Decidable (Counted (Text.utf8 s).length))

instance : DecidablePred CountedSymbol := fun symbol =>
  inferInstanceAs (Decidable (CountedText symbol.1 ∧ Counted symbol.2))

theorem bind_eq_ok {x : Except DecodeError α} {f : α → Except DecodeError β} {b : β}
    (h : (x >>= f) = .ok b) : ∃ a, x = .ok a ∧ f a = .ok b := by
  cases x with
  | error e => cases h
  | ok a => exact ⟨a, rfl, h⟩

theorem inverts_read64 : Inverts Varint.read64 Varint.write Counted where
  read_write n hn rest :=
    Varint.read_write (by decide) (Nat.lt_of_lt_of_eq hn Varint.limit_word.symm) rest
  of_read _ _ _ h := Nat.lt_of_lt_of_eq (Varint.lt_limit_of_read h) Varint.limit_word

theorem inverts_read32 : Inverts Varint.read32 Varint.write fun n => n < 0x100000000 where
  read_write n hn rest :=
    Varint.read_write (by decide) (Nat.lt_of_lt_of_eq hn Varint.limit_mark.symm) rest
  of_read _ _ _ h := Nat.lt_of_lt_of_eq (Varint.lt_limit_of_read h) Varint.limit_mark

theorem inverts_readWord : Inverts readWord writeWord fun _ => True where
  read_write w _ rest := by
    rw [readWord, writeWord, inverts_read64.read_write _ (Varint.zigzag_lt w)]
    exact congrArg (fun w => Except.ok (w, rest)) (Varint.unzigzag_zigzag w)
  of_read _ _ _ _ := trivial

theorem inverts_readText : Inverts readText writeText CountedText where
  read_write s hs rest := by
    rw [readText, writeText, List.append_assoc, inverts_read64.read_write _ hs]
    show (if (Text.utf8 s ++ rest).length < (Text.utf8 s).length then _ else _) = _
    rw [if_neg (by rw [List.length_append]; omega), List.take_left, List.drop_left,
      Text.ofUtf8?_utf8]
    rfl
  of_read bytes s rest h := by
    obtain ⟨⟨n, bytes'⟩, hn, h⟩ := bind_eq_ok h
    dsimp only at h
    split at h
    · cases h
    · rename_i hlength
      split at h
      · rename_i s' hs'
        cases h
        -- the bytes of the text are those it was read from
        rw [CountedText, Text.utf8_of_ofUtf8? hs', List.length_take]
        exact Nat.lt_of_le_of_lt (Nat.min_le_left _ _) (inverts_read64.of_read _ _ _ hn)
      · cases h

theorem inverts_readSymbol : Inverts readSymbol writeSymbol CountedSymbol where
  read_write symbol h rest := by
    rw [readSymbol, writeSymbol, List.append_assoc, inverts_readText.read_write _ h.1]
    show (Varint.read64 (Varint.write symbol.2 ++ rest) >>= fun r => _) = _
    rw [inverts_read64.read_write _ h.2]
    rfl
  of_read bytes symbol rest h := by
    obtain ⟨⟨name, bytes'⟩, hname, h⟩ := bind_eq_ok h
    obtain ⟨⟨address, bytes''⟩, haddress, h⟩ := bind_eq_ok h
    cases h
    exact ⟨inverts_readText.of_read _ _ _ hname, inverts_read64.of_read _ _ _ haddress⟩

section Lists

variable {read : Reader α} {write : α → Bytes} {P : α → Prop} (h : Inverts read write P)

include h

theorem readMany_write {xs : List α} (hxs : ∀ x ∈ xs, P x) (rest : Bytes) :
    readMany read xs.length (xs.flatMap write ++ rest) = .ok (xs, rest) := by
  induction xs with
  | nil => rfl
  | cons x xs ih =>
    rw [List.length_cons, List.flatMap_cons, List.append_assoc, readMany,
      h.read_write x (hxs x List.mem_cons_self)]
    show (readMany read xs.length (xs.flatMap write ++ rest) >>= fun r => _) = _
    rw [ih fun y hy => hxs y (List.mem_cons_of_mem x hy)]
    rfl

theorem of_readMany {xs : List α} (hr : readMany read n bytes = .ok (xs, rest)) :
    xs.length = n ∧ ∀ x ∈ xs, P x := by
  induction n generalizing bytes xs with
  | zero =>
    cases hr
    simp
  | succ n ih =>
    obtain ⟨⟨x, bytes'⟩, hx, hr⟩ := bind_eq_ok hr
    obtain ⟨⟨ys, bytes''⟩, hys, hr⟩ := bind_eq_ok hr
    cases hr
    obtain ⟨hlength, hall⟩ := ih hys
    refine ⟨by rw [List.length_cons, hlength], ?_⟩
    intro y hy
    rcases List.mem_cons.mp hy with rfl | hy
    · exact h.of_read _ _ _ hx
    · exact hall y hy

theorem inverts_readList : Inverts (readList read) (writeList write) (CountedList P) where
  read_write xs hxs rest := by
    rw [readList, writeList, List.append_assoc, inverts_read64.read_write _ hxs.1]
    exact readMany_write h hxs.2 rest
  of_read bytes xs rest hr := by
    obtain ⟨⟨n, bytes'⟩, hn, hr⟩ := bind_eq_ok hr
    obtain ⟨hlength, hall⟩ := of_readMany h hr
    exact ⟨hlength ▸ inverts_read64.of_read _ _ _ hn, hall⟩

end Lists

end Image

/-! ## The index of the strings -/

namespace StringPool

variable {p : StringPool}

/-- Pools that come about by adding strings, to no strings or to strings from elsewhere whose index
has been made anew. -/
inductive Grown : StringPool → Prop where
  | empty : Grown empty
  | reindex (p : StringPool) : Grown p.reindex
  | intern {p : StringPool} (h : Grown p) (s : String) : Grown (p.intern s).2

/-- The pool with strings added, one behind the other. -/
def addAll (p : StringPool) (strings : List String) : StringPool :=
  strings.foldl (fun p s => (p.intern s).2) p

theorem addAll_append (p : StringPool) (strings strings' : List String) :
    p.addAll (strings ++ strings') = (p.addAll strings).addAll strings' :=
  List.foldl_append

theorem Grown.addAll (h : p.Grown) (strings : List String) : (p.addAll strings).Grown := by
  induction strings generalizing p with
  | nil => exact h
  | cons s strings ih => exact ih (h.intern s)

theorem Grown.ofList (strings : List String) : Grown (ofList strings) :=
  Grown.empty.addAll strings

theorem index_reindex (p : StringPool) : p.reindex.index = p.strings.toList.zipIdx.reverse := by
  rw [reindex, List.foldl_eq_foldr_reverse]
  exact List.foldr_cons_nil

/-- While strings are added, the index is what it would be if it were made anew. -/
theorem Grown.reindex_eq (h : p.Grown) : p.reindex = p := by
  induction h with
  | empty => rfl
  | reindex p => rfl
  | @intern p h s ih =>
    rw [StringPool.intern]
    cases hk : p.key? s with
    | some k => exact ih
    | none =>
      have hindex : p.index = p.strings.toList.zipIdx.reverse := by
        rw [← index_reindex, ih]
      have hnew : (StringPool.reindex ⟨p.strings.push s, (s, p.size) :: p.index⟩).index =
          (s, p.size) :: p.index := by
        rw [index_reindex, hindex, Array.toList_push, List.zipIdx_append, List.reverse_append]
        simp [size]
      show { StringPool.reindex ⟨p.strings.push s, (s, p.size) :: p.index⟩ with
        index := (StringPool.reindex ⟨p.strings.push s, (s, p.size) :: p.index⟩).index } = _
      rw [hnew]
      rfl

end StringPool

/-! ## Images -/

namespace Image

variable {i : Image}

/-- All lengths and addresses can be written in 64 bits, as those of anything in memory can. -/
structure Fits (i : Image) : Prop where
  code : Counted i.code.size
  strings : CountedList CountedText i.strings.toList
  symbols : CountedList CountedSymbol i.symbols

/-- The image as it is read, before the index of its strings is made. -/
def withoutIndex (i : Image) : Image :=
  { i with strings := ⟨i.strings.strings, []⟩ }

/-- What is written is read, but for the index. -/
theorem read_toBytes (h : i.Fits) (tail : Bytes) :
    read (i.toBytes ++ tail) = .ok ((magic, i.withoutIndex), tail) := by
  have hcode := (inverts_readList inverts_readWord).read_write i.code.toList
    ⟨h.code, fun _ _ => trivial⟩
  have hstrings := (inverts_readList inverts_readText).read_write _ h.strings
  have hsymbols := (inverts_readList inverts_readSymbol).read_write _ h.symbols
  have hmark := inverts_read32.read_write magic (by decide)
  simp only [read, toBytes, List.append_assoc, hmark, bind, Except.bind, hcode, hstrings, hsymbols]
  rfl

/-- An image that has been read fits. -/
theorem fits_of_read {mark : Nat} (h : read bytes = .ok ((mark, i), rest)) : i.Fits := by
  obtain ⟨_, -, h⟩ := bind_eq_ok h
  obtain ⟨⟨code, _⟩, hcode, h⟩ := bind_eq_ok h
  obtain ⟨⟨strings, _⟩, hstrings, h⟩ := bind_eq_ok h
  obtain ⟨⟨symbols, _⟩, hsymbols, h⟩ := bind_eq_ok h
  cases h
  exact
    { code := ((inverts_readList inverts_readWord).of_read _ _ _ hcode).1
      strings := (inverts_readList inverts_readText).of_read _ _ _ hstrings
      symbols := (inverts_readList inverts_readSymbol).of_read _ _ _ hsymbols }

/-- What reading an image comes to. -/
theorem read_of_ofBytes (h : ofBytes bytes = .ok i) :
    ∃ j rest, read bytes = .ok ((magic, j), rest) ∧ Code.verify j.code.toList = .ok () ∧
      i = { j with strings := j.strings.reindex } := by
  unfold ofBytes at h
  split at h
  · cases h
  · rename_i mark j rest hread
    split at h
    · rename_i hmark
      split at h
      · rename_i hcode
        cases h
        exact ⟨j, rest, hmark ▸ hread, hcode, rfl⟩
      · cases h
    · cases h

/-- An image that fits and has sound code is read back, if its index is the one made anew. -/
theorem ofBytes_of_fits (h : i.Fits) (hcode : Code.verify i.code.toList = .ok ())
    (hindex : i.strings.reindex = i.strings) (tail : Bytes) :
    ofBytes (i.toBytes ++ tail) = .ok i := by
  have hverify : Code.verify i.withoutIndex.code.toList = .ok () := hcode
  rw [ofBytes, read_toBytes h tail]
  simp only [if_true, hverify]
  show Except.ok { i with strings := i.strings.reindex } = _
  rw [hindex]

/-- Every image with sound code is read back from its bytes, whatever follows them: its code, its
strings with their index, and its symbols.  So is every image that was read from whatever bytes. -/
theorem ofBytes_toBytes :
    (∀ (i : Image) (tail : Bytes), i.strings.Grown → i.Fits →
      Code.verify i.code.toList = .ok () → ofBytes (i.toBytes ++ tail) = .ok i) ∧
    ∀ (bytes : Bytes) (i : Image), ofBytes bytes = .ok i → ofBytes i.toBytes = .ok i := by
  constructor
  · intro i tail hgrown hfits hcode
    exact ofBytes_of_fits hfits hcode hgrown.reindex_eq tail
  · intro bytes i h
    obtain ⟨j, rest, hread, hcode, rfl⟩ := read_of_ofBytes h
    have hj := fits_of_read hread
    have := ofBytes_of_fits (i := { j with strings := j.strings.reindex })
      ⟨hj.code, hj.strings, hj.symbols⟩ hcode (StringPool.Grown.reindex _).reindex_eq []
    rwa [List.append_nil] at this

/-- Code that pushes the least and the greatest integer. -/
def extremes : Image where
  code := #[Op.push.word, -0x8000000000000000, Op.push.word, 0x7FFFFFFFFFFFFFFF, Op.exit.word]
  strings := .ofList ["é", "", "é", "e"]
  symbols := [("main", 0xFFFFFFFFFFFFFFFF), ("main", 0)]

/-- An image with one instruction.  Its length takes a byte more than it needs, a string is there
twice, and a byte follows. -/
def loose : Bytes :=
  [177, 132, 185, 154, 4, 129, 0, 76, 2, 2, 195, 169, 2, 195, 169, 0, 7]

theorem ofBytes_toBytes_loose :
    ofBytes (extremes.toBytes ++ [7]) = .ok extremes ∧
      ∃ i, ofBytes loose = .ok i ∧ i.strings.strings = #["é", "é"] ∧ ofBytes i.toBytes = .ok i := by
  constructor
  · refine ofBytes_toBytes.1 extremes [7] (.ofList _) ?_ rfl
    exact ⟨by decide +kernel, by decide +kernel, by decide +kernel⟩
  · have h : ofBytes loose =
        .ok ⟨#[Op.exit.word], ⟨#["é", "é"], [("é", 1), ("é", 0)]⟩, []⟩ := by
      rfl
    exact ⟨_, h, rfl, ofBytes_toBytes.2 loose _ h⟩

end Image

end StackLang
