import StackLang.Text.Quoted

/-!
# Lines

Numbers, names in columns and quoted texts take one line, whatever is in them.  Lines that were
written one under the other can be told apart again.

* `Text.lines` — the lines of a text.
* `Text.OneLine` — a text without a line break.
* `Text.lines_join` — written lines are read back.
* `Text.ofDigitChars_zeroPadded` — so is a number that is padded with zeros.
-/

namespace StackLang.Text

/-- The lines of a text; what follows the last line break counts as a line. -/
def lines (s : String) : List String :=
  (s.toList.splitOn '\n').map String.ofList

/-- The text has no line break. -/
def OneLine (s : String) : Prop :=
  '\n' ∉ s.toList

/-- Lines written one under the other are the lines of the text; behind the last one there is
nothing more. -/
theorem lines_join {ls : List String} (h : ∀ l ∈ ls, OneLine l) :
    lines (String.join (ls.map (· ++ "\n"))) = ls ++ [""] := by
  induction ls with
  | nil => rfl
  | cons l ls ih =>
    rw [List.forall_mem_cons] at h
    have hsplit : (String.join ((l :: ls).map (· ++ "\n"))).toList =
        l.toList ++ '\n' :: (String.join (ls.map (· ++ "\n"))).toList := by
      simp [String.join_cons]
    rw [lines, hsplit, List.splitOn_append_cons_self_of_not_mem h.1, List.map_cons,
      String.ofList_toList, List.cons_append, ← ih h.2, lines]

/-! ## Digits -/

theorem toList_toString_nat (n : Nat) : (toString n).toList = Nat.toDigits 10 n := by
  rw [Nat.toString_eq_ofList_toDigits, String.toList_ofList]

/-- The characters of a number that is padded with zeros. -/
theorem toList_zeroPadded (width n : Nat) : (zeroPadded width n).toList =
    List.replicate (width - (toString n).length) '0' ++ Nat.toDigits 10 n := by
  rw [zeroPadded, String.toList_append, String.toList_ofList, toList_toString_nat]

theorem isDigit_of_mem_zeroPadded {width n : Nat} {c : Char} (h : c ∈ (zeroPadded width n).toList) :
    c.isDigit = true := by
  rw [toList_zeroPadded, List.mem_append, List.mem_replicate] at h
  rcases h with ⟨-, rfl⟩ | h
  · rfl
  · exact Nat.isDigit_of_mem_toDigits (by decide) (by decide) h

theorem zeroPadded_ne_nil (width n : Nat) : (zeroPadded width n).toList ≠ [] := by
  rw [toList_zeroPadded]
  exact List.append_ne_nil_of_right_ne_nil _ Nat.toDigits_ne_nil

/-- Zeros in front do not change the number. -/
theorem ofDigitChars_zeroPadded (width n : Nat) :
    Nat.ofDigitChars 10 (zeroPadded width n).toList 0 = n := by
  rw [toList_zeroPadded, Nat.ofDigitChars_append, Nat.ofDigitChars_replicate_zero, Nat.mul_zero,
    Nat.ofDigitChars_ten_toDigits]

/-- A number is written with digits, behind a sign if it is negative. -/
theorem toList_toString_int (n : Int) : ∃ sign, (sign = [] ∨ sign = ['-']) ∧
    (toString n).toList = sign ++ Nat.toDigits 10 n.natAbs := by
  have hrepr : toString n = n.repr := rfl
  rw [hrepr, Int.repr_eq_if]
  split
  · refine ⟨[], .inl rfl, ?_⟩
    rw [Nat.repr_eq_ofList_toDigits, String.toList_ofList, List.nil_append]
    congr 1
    omega
  · refine ⟨['-'], .inr rfl, ?_⟩
    have habs : (-n).toNat = n.natAbs := by omega
    rw [Nat.repr_eq_ofList_toDigits, habs]
    simp

theorem digit_or_sign_of_mem_toString {n : Int} {c : Char} (h : c ∈ (toString n).toList) :
    c.isDigit = true ∨ c = '-' := by
  obtain ⟨sign, hsign, hn⟩ := toList_toString_int n
  rw [hn, List.mem_append] at h
  rcases h with h | h
  · rcases hsign with rfl | rfl
    · cases h
    · exact .inr (List.mem_singleton.mp h)
  · exact .inl (Nat.isDigit_of_mem_toDigits (by decide) (by decide) h)

theorem toString_int_ne_nil (n : Int) : (toString n).toList ≠ [] := by
  obtain ⟨sign, -, hn⟩ := toList_toString_int n
  rw [hn]
  exact List.append_ne_nil_of_right_ne_nil _ Nat.toDigits_ne_nil

/-! ## One line -/

theorem OneLine.append {s t : String} (hs : OneLine s) (ht : OneLine t) : OneLine (s ++ t) := by
  rw [OneLine, String.toList_append, List.mem_append, not_or]
  exact ⟨hs, ht⟩

theorem OneLine.ite {p : Prop} [Decidable p] {s t : String} (hs : OneLine s) (ht : OneLine t) :
    OneLine (if p then s else t) := by
  split
  · exact hs
  · exact ht

theorem OneLine.padRight {s : String} (hs : OneLine s) (width : Nat) :
    OneLine (padRight width s) := by
  refine hs.append ?_
  rw [OneLine, String.toList_ofList, List.mem_replicate]
  simp

theorem oneLine_zeroPadded (width n : Nat) : OneLine (zeroPadded width n) :=
  fun h => absurd (isDigit_of_mem_zeroPadded h) (by decide)

theorem oneLine_toString_nat (n : Nat) : OneLine (toString n) := by
  intro h
  rw [toList_toString_nat] at h
  exact absurd (Nat.isDigit_of_mem_toDigits (by decide) (by decide) h) (by decide)

theorem oneLine_toString_int (n : Int) : OneLine (toString n) := by
  intro h
  rcases digit_or_sign_of_mem_toString h with h | h
  · exact absurd h (by decide)
  · exact absurd h (by decide)

theorem oneLine_zeroPaddedInt (width : Nat) (n : Int) : OneLine (zeroPaddedInt width n) :=
  .ite (.append (by simp [OneLine]) (oneLine_zeroPadded _ _)) (oneLine_zeroPadded _ _)

/-! ## Quoted texts -/

theorem oneLine_hex (n : Nat) : OneLine (hex n) := by
  have digit : ∀ d < 16, '\n' ≠ Nat.digitChar d := by decide
  rw [OneLine, hex, String.toList_ofList]
  induction n using Nat.strongRecOn with
  | ind n ih =>
    rw [Nat.toDigits_eq_if (by decide)]
    split
    · rename_i hlt
      rw [List.mem_singleton]
      exact digit n hlt
    · rename_i hge
      rw [List.mem_append, List.mem_singleton, not_or]
      exact ⟨ih (n / 16) (by omega), digit _ (Nat.mod_lt _ (by decide))⟩

/-- A line break is written as an escape. -/
theorem oneLine_quotedChar {mark : Char} (hmark : mark ≠ '\n') (c : Char) :
    OneLine (quotedChar mark c) := by
  have escape : OneLine (codePointEscape c) :=
    (OneLine.append (by simp [OneLine]) (oneLine_hex _)).append (by simp [OneLine])
  by_cases hbreak : c = '\n'
  · subst hbreak
    simp [quotedChar, OneLine]
  · have itself : OneLine c.toString := by simp [OneLine, Ne.symm hbreak]
    have marked : OneLine (String.ofList ['\\', mark]) := by simp [OneLine, hmark.symm]
    rw [quotedChar, if_neg hbreak]
    refine .ite ?_ (.ite ?_ (.ite ?_ (.ite ?_ (.ite marked (.ite escape itself))))) <;>
      simp [OneLine]

theorem oneLine_quote (s : String) : OneLine (quote s) := by
  refine OneLine.append (OneLine.append (by simp [OneLine]) ?_) (by simp [OneLine])
  rw [OneLine, String.toList_join]
  simp only [List.mem_flatMap, List.mem_map, not_exists, not_and]
  rintro _ ⟨c, -, rfl⟩
  exact oneLine_quotedChar (by decide) c

end StackLang.Text
