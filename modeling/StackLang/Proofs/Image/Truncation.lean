import StackLang.Proofs.Image.Roundtrip

/-!
# Images that are cut off

Bytes that begin as an image but end before it are never taken for an image, wherever they end: in
the middle of a number or of a text, between a length and the elements it counts, or before the last
list.  The reader always finds that there should be more.

* `Cut` — bytes that end too early.
* `Image.Demands` — a reader that finds so, put together by the shape of the data.
* `Image.ofBytes_truncated` — images.
-/

namespace StackLang

/-- The first bytes are the beginning of the others, but not all of them. -/
def Cut (front bytes : Bytes) : Prop :=
  front <+: bytes ∧ front ≠ bytes

namespace Cut

variable {front bytes tail : Bytes}

/-- No bytes are the beginning of any others. -/
theorem nil (h : bytes ≠ []) : Cut [] bytes :=
  ⟨List.nil_prefix, h.symm⟩

theorem length_lt (h : Cut front bytes) : front.length < bytes.length :=
  Nat.lt_of_le_of_ne h.1.length_le fun hlength => h.2 (h.1.eq_of_length hlength)

/-- What is cut off after a byte is empty or starts with that byte. -/
theorem cons_cases {b : UInt8} (h : Cut front (b :: bytes)) :
    front = [] ∨ ∃ front', front = b :: front' ∧ Cut front' bytes := by
  rcases List.prefix_cons_iff.mp h.1 with rfl | ⟨front', rfl, hfront'⟩
  · exact .inl rfl
  · exact .inr ⟨front', rfl, hfront', fun heq => h.2 (congrArg (b :: ·) heq)⟩

/-- Two pieces of data are cut off in the first of them or in the second. -/
theorem append_cases (h : Cut front (bytes ++ tail)) :
    Cut front bytes ∨ ∃ front', front = bytes ++ front' ∧ Cut front' tail := by
  rcases List.prefix_or_prefix_of_prefix h.1 (List.prefix_append bytes tail) with hfront | hbytes
  · by_cases heq : front = bytes
    · refine .inr ⟨[], by rw [heq, List.append_nil], nil fun htail => h.2 ?_⟩
      rw [heq, htail, List.append_nil]
    · exact .inl ⟨hfront, heq⟩
  · obtain ⟨front', rfl⟩ := hbytes
    exact .inr ⟨front', rfl, (List.prefix_append_right_inj bytes).mp h.1,
      fun heq => h.2 (congrArg (bytes ++ ·) heq)⟩

end Cut

/-! ## Numbers -/

namespace Varint

/-- All bytes of a number but the last ask for another one. -/
theorem read_of_cut {last count n : Nat} (h : n < limit last count) (hlast : last < 128)
    {front : Bytes} (hcut : Cut front (write n)) :
    read last (count + 1) front = .error .endOfData := by
  induction count generalizing n front with
  | zero =>
    have hn : n < last + 1 := h
    rw [write, if_pos (by omega)] at hcut
    rw [List.length_eq_zero_iff.mp (Nat.lt_one_iff.mp hcut.length_lt), read]
  | succ count ih =>
    by_cases hsmall : n < 128
    · rw [write, if_pos hsmall] at hcut
      rw [List.length_eq_zero_iff.mp (Nat.lt_one_iff.mp hcut.length_lt), read]
    · rw [write, if_neg hsmall] at hcut
      rcases hcut.cons_cases with rfl | ⟨front', rfl, hcut'⟩
      · rw [read]
      · have hn : n < 128 * limit last count := h
        have hbyte : (UInt8.ofNat (n % 128 + 128)).toNat = n % 128 + 128 := toNat_ofNat (by omega)
        rw [read, hbyte, if_neg (by omega), ih (by omega) hcut']

end Varint

/-! ## Readers and writers -/

namespace Image

variable {α β : Type} {read : Reader α} {write : α → Bytes} {P : α → Prop} {front : Bytes}

/-- The reader finds that there should be more, wherever what is written is cut off, for all values
that satisfy `P`. -/
def Demands (read : Reader α) (write : α → Bytes) (P : α → Prop) : Prop :=
  ∀ a, P a → ∀ front, Cut front (write a) → read front = .error .endOfData

/-- Two values, one behind the other, are cut off in the first or in the second. -/
theorem Demands.bind (hd : Demands read write P) (h : Inverts read write P) {a : α} (ha : P a)
    {f : α × Bytes → Except DecodeError β} {bytes : Bytes} (hcut : Cut front (write a ++ bytes))
    (hf : ∀ front', Cut front' bytes → f (a, front') = .error .endOfData) :
    (read front >>= f) = .error .endOfData := by
  rcases hcut.append_cases with hfirst | ⟨front', rfl, hsecond⟩
  · rw [hd a ha front hfirst]
    rfl
  · rw [h.read_write a ha front']
    exact hf front' hsecond

/-- A value with something done to it behind the reading. -/
theorem Demands.bind_last (hd : Demands read write P) {a : α} (ha : P a)
    {f : α × Bytes → Except DecodeError β} (hcut : Cut front (write a)) :
    (read front >>= f) = .error .endOfData := by
  rw [hd a ha front hcut]
  rfl

theorem demands_read64 : Demands Varint.read64 Varint.write Counted := by
  intro n hn front hcut
  exact Varint.read_of_cut (Nat.lt_of_lt_of_eq hn Varint.limit_word.symm) (by decide) hcut

theorem demands_readWord : Demands readWord writeWord fun _ => True :=
  fun w _ _ hcut => demands_read64.bind_last (Varint.zigzag_lt w) hcut

/-- The bytes of a text are counted before they are looked at. -/
theorem demands_readText : Demands readText writeText CountedText := by
  intro s hs front hcut
  refine demands_read64.bind inverts_read64 hs hcut fun front' hcut' => ?_
  exact if_pos hcut'.length_lt

theorem demands_readSymbol : Demands readSymbol writeSymbol CountedSymbol := by
  intro symbol hsymbol front hcut
  refine demands_readText.bind inverts_readText hsymbol.1 hcut fun front' hcut' => ?_
  exact demands_read64.bind_last hsymbol.2 hcut'

section Lists

variable (hd : Demands read write P) (h : Inverts read write P)

include hd h

/-- Elements are cut off in one of them, behind which no other is read. -/
theorem readMany_of_cut {xs : List α} (hxs : ∀ x ∈ xs, P x) (hcut : Cut front (xs.flatMap write)) :
    readMany read xs.length front = .error .endOfData := by
  induction xs generalizing front with
  | nil => exact absurd hcut.length_lt (Nat.not_lt_zero _)
  | cons x xs ih =>
    rw [List.flatMap_cons] at hcut
    refine hd.bind h (hxs x List.mem_cons_self) hcut fun front' hcut' => ?_
    show (readMany read xs.length front' >>= fun r => _) = _
    rw [ih (fun y hy => hxs y (List.mem_cons_of_mem x hy)) hcut']
    rfl

theorem demands_readList : Demands (readList read) (writeList write) (CountedList P) := by
  intro xs hxs front hcut
  exact demands_read64.bind inverts_read64 hxs.1 hcut fun _ hcut' =>
    readMany_of_cut hd h hxs.2 hcut'

end Lists

/-! ## Images -/

theorem demands_read32 : Demands Varint.read32 Varint.write fun n => n < 0x100000000 := by
  intro n hn front hcut
  exact Varint.read_of_cut (Nat.lt_of_lt_of_eq hn Varint.limit_mark.symm) (by decide) hcut

/-- An image is cut off in its mark, in its code, in its strings or in its symbols. -/
theorem read_of_cut {i : Image} (h : i.Fits) (hcut : Cut front i.toBytes) :
    Image.read front = .error .endOfData := by
  rw [toBytes, List.append_assoc, List.append_assoc] at hcut
  have hmark : magic < 0x100000000 := by decide
  have hcode : CountedList (fun _ => True) i.code.toList := ⟨h.code, fun _ _ => trivial⟩
  refine demands_read32.bind inverts_read32 hmark hcut fun front₁ hcut₁ => ?_
  refine (demands_readList demands_readWord inverts_readWord).bind
    (inverts_readList inverts_readWord) hcode hcut₁ fun front₂ hcut₂ => ?_
  refine (demands_readList demands_readText inverts_readText).bind
    (inverts_readList inverts_readText) h.strings hcut₂ fun front₃ hcut₃ => ?_
  exact (demands_readList demands_readSymbol inverts_readSymbol).bind_last h.symbols hcut₃

/-- Of all the beginnings of an image, those that are not all of it, and only those, are found to
end too early: they are not read as an image, and no other fault of them is reported. -/
theorem ofBytes_truncated {i : Image} (h : i.Fits) {front : Bytes} (hfront : front <+: i.toBytes) :
    (ofBytes front = .error (.decode .endOfData) ↔ front ≠ i.toBytes) ∧
      (ImageError.decode .endOfData).message =
        "image decode failed: Hit the end of buffer, expected more data" := by
  refine ⟨⟨?_, fun hne => ?_⟩, by decide⟩
  · rintro hend rfl
    have hread := read_toBytes h []
    rw [List.append_nil] at hread
    rw [ofBytes, hread] at hend
    simp only [if_true] at hend
    split at hend
    · cases hend
    · cases hend
  · rw [ofBytes, read_of_cut h ⟨hfront, hne⟩]

/-- The bytes end in the middle of a letter of two bytes. -/
theorem ofBytes_truncated_letter :
    extremes.Fits ∧ extremes.toBytes.take 32 <+: extremes.toBytes ∧
      (extremes.toBytes.take 32).getLast? = some 0xC3 ∧
      ofBytes (extremes.toBytes.take 32) = .error (.decode .endOfData) := by
  have hfits : extremes.Fits := ⟨by decide +kernel, by decide +kernel, by decide +kernel⟩
  have hfront : extremes.toBytes.take 32 <+: extremes.toBytes := List.take_prefix _ _
  exact ⟨hfits, hfront, by decide +kernel,
    (ofBytes_truncated hfits hfront).1.mpr (by decide +kernel)⟩

end Image

end StackLang
