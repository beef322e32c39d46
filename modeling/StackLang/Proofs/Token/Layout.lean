import StackLang.Proofs.Token.Cover

/-!
# Tokens do not depend on the layout

What a text is read as is decided by the lexemes of its tokens alone.  A lexeme that is put
elsewhere is read as the same token, if a blank character or the end of the text follows it; the
gaps may be any others.  So the lexemes with single spaces between them are read as the same tokens.

* `Token.Spaced` — a text that begins with a blank character, if with any.
* `Token.readToken_alone` — a lexeme is read as the same token wherever it is.
* `Token.Lays` — a text with given lexemes.
* `Token.scan_layout` — texts with the same lexemes have the same tokens.
-/

namespace StackLang

/-! ## Blank characters -/

namespace Text

namespace CharClass

/-- The code points of a class that ends with a boundary at which it is left. -/
def points : List Nat → List Nat
  | b :: e :: rest => List.range' b (e - b) ++ points rest
  | _ => []

/-- The characters of such a class are finitely many. -/
theorem mem_points {n : Nat} {bs : List Nat} (heven : bs.length % 2 = 0)
    (h : inside n false bs = true) : n ∈ points bs := by
  fun_induction points bs with
  | case1 b e rest ih =>
    rw [inside] at h
    split at h
    · cases h
    · rw [inside] at h
      split at h
      · exact List.mem_append_left _ (List.mem_range'_1.mpr (by omega))
      · refine List.mem_append_right _ (ih ?_ h)
        simp only [List.length_cons] at heven
        omega
  | case2 bs hbs =>
    cases bs with
    | nil => cases h
    | cons b bs =>
      cases bs with
      | nil => cases heven
      | cons e rest => exact absurd rfl (hbs b e rest)

end CharClass

/-- What holds of no blank character, by looking at all of them. -/
theorem not_of_isBlank {p : Char → Bool}
    (h : ∀ n ∈ CharClass.points blanks.boundaries, p (Char.ofNat n) = false) {c : Char}
    (hc : isBlank c = true) : p c = false := by
  have hmem : c.toNat ∈ CharClass.points blanks.boundaries := CharClass.mem_points (by decide) hc
  rw [← Char.ofNat_toNat c]
  exact h _ hmem

end Text

namespace Token

variable {c d : Char} {cs tail body rest digits text : List Char} {start p q : Position}
  {t : Taken Kind} {tokens : List Token}

theorem continuesWord_of_isBlank (h : Text.isBlank c = true) : continuesWord c = false :=
  Text.not_of_isBlank (by decide +kernel) h

theorem isDigit_of_isBlank (h : Text.isBlank c = true) : c.isDigit = false :=
  Text.not_of_isBlank (by decide +kernel) h

theorem singleKind?_of_isBlank (h : Text.isBlank c = true) : singleKind? c = none := by
  have hnone := Text.not_of_isBlank (p := fun c => (singleKind? c).isSome) (by decide +kernel) h
  simpa using hnone

/-- The characters that are part of an operator of two characters, the point and the quotes. -/
def marks : List Char :=
  "+-*/=<>!&|.\"'".toList

theorem ne_of_isBlank (h : Text.isBlank c = true) (hd : d ∈ marks) : c ≠ d := by
  have hnone := Text.not_of_isBlank (p := fun c => decide (c ∈ marks)) (by decide +kernel) h
  rintro rfl
  exact of_decide_eq_false hnone hd

theorem mem_marks_of_pairKind? {k : Kind} (h : pairKind? c d = some k) : c ∈ marks ∧ d ∈ marks := by
  unfold pairKind? at h
  split at h
  all_goals first | decide | cases h

theorem pairKind?_of_isBlank (h : Text.isBlank c = true ∨ Text.isBlank d = true) :
    pairKind? c d = none := by
  cases hk : pairKind? c d with
  | none => rfl
  | some k =>
    obtain ⟨hc, hd⟩ := mem_marks_of_pairKind? hk
    rcases h with h | h
    · exact absurd rfl (ne_of_isBlank h hc)
    · exact absurd rfl (ne_of_isBlank h hd)

/-! ## Gaps -/

/-- The text begins with a blank character, or is empty. -/
def Spaced (cs : List Char) : Prop :=
  ∀ c, cs.head? = some c → Text.isBlank c = true

/-- No gap is at the front of the text: it begins neither with a blank character nor with a
comment. -/
def Opens (cs : List Char) : Prop :=
  ∀ c, cs.head? = some c → Text.isBlank c = false ∧
    (c = '/' → cs.tail.head? ≠ some '/' ∧ cs.tail.head? ≠ some '*')

theorem skipGap_of_opens (h : Opens cs) (p : Position) : skipGap .plain p cs = .ok (p, cs) := by
  cases cs with
  | nil => rfl
  | cons c rest =>
    obtain ⟨hblank, hslash⟩ := h c rfl
    cases rest with
    | nil => rw [skipGap, if_neg (by simp [hblank]), ite_self]
    | cons d rest =>
      rw [skipGap, if_neg (by simp [hblank])]
      by_cases hc : c = '/'
      · obtain ⟨hline, hblock⟩ := hslash hc
        have hd : d ≠ '/' := fun hd => hline (congrArg some hd)
        have hd' : d ≠ '*' := fun hd => hblock (congrArg some hd)
        rw [if_pos hc, if_neg hd, if_neg hd']
      · rw [if_neg hc]

theorem skipGap_blank (hc : Text.isBlank c = true) (p : Position) (cs : List Char) :
    skipGap .plain p (c :: cs) = skipGap .plain (p.next c) cs := by
  cases cs with
  | nil => simp only [skipGap, hc, if_true]
  | cons d rest => rw [skipGap, if_pos hc]

/-- Where a line ends, so does a comment to the end of the line. -/
theorem skipGap_lineComment (h : EndsLine cs) (p : Position) :
    skipGap .lineComment p cs = skipGap .plain p cs := by
  cases cs with
  | nil => rfl
  | cons c rest =>
    obtain rfl := h c rfl
    rw [skipGap, if_pos rfl, skipGap_blank (by decide)]

theorem skipGap_line (hbody : '\n' ∉ body) (p : Position) (cs : List Char) :
    skipGap .lineComment p (body ++ cs) = skipGap .lineComment (p.after body) cs := by
  induction body generalizing p with
  | nil => rfl
  | cons c body ih =>
    rw [List.mem_cons, not_or] at hbody
    rw [List.cons_append, skipGap, if_neg (Ne.symm hbody.1), ih hbody.2]
    rfl

/-- A block comment is skipped up to where it is closed for the first time. -/
theorem skipGap_block (hbody : ¬['*', '/'] <:+: body) (start p : Position) (cs : List Char) :
    skipGap (.blockComment start) p (body ++ '*' :: '/' :: cs) =
      skipGap .plain (p.after (body ++ ['*', '/'])) cs := by
  induction body generalizing p with
  | nil =>
    rw [List.nil_append, skipGap, if_pos rfl]
    rfl
  | cons c body ih =>
    have htail : ¬['*', '/'] <:+: body := fun h => hbody (List.infix_cons h)
    have hnext : skipGap (.blockComment start) p (c :: (body ++ '*' :: '/' :: cs)) =
        skipGap (.blockComment start) (p.next c) (body ++ '*' :: '/' :: cs) := by
      cases body with
      | nil =>
        rw [List.nil_append, skipGap, if_neg (show '*' ≠ '/' by decide), ite_self]
      | cons d body =>
        rw [List.cons_append, skipGap]
        by_cases hc : c = '*'
        · -- a slash behind the star would have closed the comment
          have hd : d ≠ '/' := by
            rintro rfl
            exact hbody ⟨[], body, by simp [hc]⟩
          rw [if_pos hc, if_neg hd]
        · rw [if_neg hc]
    rw [List.cons_append, hnext, ih htail]
    rfl

/-- Exactly the gap is skipped, if none follows it. -/
theorem skipGap_of_gap {gap : List Char} (hgap : Gap rest gap) (hrest : Opens rest) (p : Position) :
    skipGap .plain p (gap ++ rest) = .ok (p.after gap, rest) := by
  induction hgap generalizing p with
  | nil => exact skipGap_of_opens hrest p
  | @blank c gap hc _ ih =>
    rw [List.cons_append, skipGap_blank hc, ih]
    rfl
  | @lineComment body gap hbody hend _ ih =>
    have hplain : skipGap .plain p ('/' :: '/' :: (body ++ gap) ++ rest) =
        skipGap .lineComment ((p.next '/').next '/') (body ++ (gap ++ rest)) := by
      rw [List.cons_append, List.cons_append, List.append_assoc, skipGap]
      rfl
    rw [hplain, skipGap_line hbody, skipGap_lineComment hend, ih, ← Position.after_append]
    rfl
  | @blockComment body gap hbody _ ih =>
    have hplain : skipGap .plain p ('/' :: '*' :: (body ++ '*' :: '/' :: gap) ++ rest) =
        skipGap (.blockComment p) ((p.next '/').next '*')
          (body ++ '*' :: '/' :: (gap ++ rest)) := by
      rw [List.cons_append, List.cons_append, List.append_assoc, skipGap]
      rfl
    rw [hplain, skipGap_block hbody, ih, ← Position.after_append]
    simp

/-! ## Lexemes -/

variable {p : Position} {c : Char} {cs rest : List Char}

/-- A run of characters of a kind is taken as it is, up to a blank character. -/
theorem takeWhile_append_spaced {f : Char → Bool} (hf : ∀ c, Text.isBlank c = true → f c = false)
    {run : List Char} (hrun : ∀ c ∈ run, f c = true) (hrest : Spaced rest) :
    (run ++ rest).takeWhile f = run ∧ (run ++ rest).dropWhile f = rest := by
  rw [List.takeWhile_append_of_pos hrun, List.dropWhile_append_of_pos hrun]
  cases rest with
  | nil => simp
  | cons d rest =>
    have hd : f d = false := hf d (hrest d rfl)
    simp [hd]

theorem readString_quote (cs : List Char) :
    readString start p ('"' :: cs) = .ok ⟨[], ['"'], cs⟩ := by
  cases cs with
  | nil => rfl
  | cons d cs => rw [readString, if_pos rfl]

theorem readString_escape {v : Char} (hd : unescape? d = some v) (cs : List Char) :
    readString start p ('\\' :: d :: cs) =
      (readString start ((p.next '\\').next d) cs).map (Taken.behind ['\\', d] (v :: ·)) := by
  rw [readString, if_neg (by decide), if_pos rfl, hd]

theorem readString_plain (hquote : c ≠ '"') (hescape : c ≠ '\\') (hline : c ≠ '\n')
    (cs : List Char) :
    readString start p (c :: cs) =
      (readString start (p.next c) cs).map (Taken.behind [c] (c :: ·)) := by
  cases cs with
  | nil => simp only [readString, if_neg hquote, if_neg hescape, if_neg hline]
  | cons d cs => rw [readString, if_neg hquote, if_neg hescape, if_neg hline]

/-- A string literal ends with its closing quote, whatever follows. -/
theorem readString_alone {t : Taken (List Char)} (h : readString start p cs = .ok t)
    (start' p' : Position) (rest : List Char) :
    readString start' p' (t.lexeme ++ rest) = .ok ⟨t.value, t.lexeme, rest⟩ := by
  fun_induction readString start p cs generalizing t p' with
  | case2 p cs =>
    cases h
    exact readString_quote rest
  | case4 p d cs v hd _ ih =>
    obtain ⟨u, hu, rfl⟩ := map_eq_ok.mp h
    show readString start' p' ('\\' :: d :: (u.lexeme ++ rest)) = _
    rw [readString_escape hd, ih hu]
    rfl
  | case7 p c cs hquote hescape hline ih =>
    obtain ⟨u, hu, rfl⟩ := map_eq_ok.mp h
    show readString start' p' (c :: (u.lexeme ++ rest)) = _
    rw [readString_plain hquote hescape hline, ih hu]
    rfl
  | _ => cases h

/-- The closing quote of a character literal is looked for where the character ends. -/
theorem closeChar_alone {t u : Taken Char} (h : closeChar start t = .ok u) (start' : Position)
    (rest : List Char) :
    u.lexeme = t.lexeme ++ ['\''] ∧
      closeChar start' ⟨t.value, t.lexeme, '\'' :: rest⟩ = .ok ⟨u.value, u.lexeme, rest⟩ := by
  unfold closeChar at h
  split at h
  · cases h
    exact ⟨rfl, rfl⟩
  · cases h

/-- A character literal ends with its closing quote, whatever follows. -/
theorem readChar_alone {t : Taken Char} (h : readChar start cs = .ok t) (start' : Position)
    (rest : List Char) : readChar start' (t.lexeme ++ rest) = .ok ⟨t.value, t.lexeme, rest⟩ := by
  unfold readChar at h
  split at h
  · cases h
  · rename_i c cs
    split at h
    · rename_i hescape
      split at h
      · cases h
      · rename_i u hu
        unfold readEscape at hu
        split at hu
        · cases hu
        · rename_i d cs
          split at hu
          · rename_i v hd
            cases hu
            obtain ⟨hlexeme, hclose⟩ := closeChar_alone h start' rest
            have hlist : t.lexeme ++ rest = c :: d :: '\'' :: rest := by
              rw [hlexeme]
              rfl
            rw [hlist, readChar, if_pos hescape, readEscape, hd]
            exact hclose
          · cases hu
    · rename_i hescape
      split at h
      · cases h
      · rename_i hquote
        obtain ⟨hlexeme, hclose⟩ := closeChar_alone h start' rest
        have hlist : t.lexeme ++ rest = c :: '\'' :: rest := by
          rw [hlexeme]
          rfl
        rw [hlist, readChar, if_neg hescape, if_neg hquote]
        exact hclose

/-- An integer does not depend on where it is. -/
theorem integerLiteral_alone {v : Literal} (h : integerLiteral p digits = .ok v) (p' : Position) :
    integerLiteral p' digits = .ok v := by
  unfold integerLiteral at h ⊢
  simp only at h ⊢
  split at h
  · rename_i hlt
    rw [if_pos hlt]
    exact h
  · cases h

/-- A number that has no fraction is not followed by a point. -/
theorem readNumber_integer (hdigits : ∀ c ∈ digits, c.isDigit = true) (hrest : Spaced rest) :
    readNumber p (digits ++ rest) = (integerLiteral p digits).map (⟨·, digits, rest⟩) := by
  obtain ⟨htake, hdrop⟩ := takeWhile_append_spaced (fun _ => isDigit_of_isBlank) hdigits hrest
  unfold readNumber
  simp only [htake, hdrop]
  split
  · exact absurd rfl (ne_of_isBlank (hrest '.' rfl) (by decide))
  · rfl

theorem readNumber_fraction {whole fraction : List Char} (hwhole : ∀ c ∈ whole, c.isDigit = true)
    (hfraction : ∀ c ∈ d :: fraction, c.isDigit = true) (hrest : Spaced rest) :
    readNumber p (whole ++ '.' :: d :: fraction ++ rest) =
      .ok ⟨.float (Double.ofPoint whole (d :: fraction)), whole ++ '.' :: d :: fraction, rest⟩ := by
  have htake : (whole ++ '.' :: d :: fraction ++ rest).takeWhile Char.isDigit = whole := by
    rw [List.append_assoc, List.takeWhile_append_of_pos hwhole]
    simp
  have hdrop : (whole ++ '.' :: d :: fraction ++ rest).dropWhile Char.isDigit =
      '.' :: d :: (fraction ++ rest) := by
    rw [List.append_assoc, List.dropWhile_append_of_pos hwhole]
    rfl
  obtain ⟨htake', hdrop'⟩ : (d :: (fraction ++ rest)).takeWhile Char.isDigit = d :: fraction ∧
      (d :: (fraction ++ rest)).dropWhile Char.isDigit = rest :=
    takeWhile_append_spaced (fun _ => isDigit_of_isBlank) hfraction hrest
  unfold readNumber
  simp only [htake, hdrop, hfraction d List.mem_cons_self, if_true, htake', hdrop']

/-- A number ends where a blank character follows. -/
theorem readNumber_alone {t : Taken Literal} (h : readNumber p cs = .ok t) (p' : Position)
    (hrest : Spaced rest) : readNumber p' (t.lexeme ++ rest) = .ok ⟨t.value, t.lexeme, rest⟩ := by
  have hdigits : ∀ ds : List Char, ∀ c ∈ ds.takeWhile Char.isDigit, c.isDigit = true :=
    fun ds => List.all_eq_true.mp List.all_takeWhile
  have hinteger : ∀ {cs' : List Char}, (integerLiteral p (cs.takeWhile Char.isDigit)).map
      (⟨·, cs.takeWhile Char.isDigit, cs'⟩) = .ok t →
      readNumber p' (t.lexeme ++ rest) = .ok ⟨t.value, t.lexeme, rest⟩ := by
    intro cs' h
    obtain ⟨v, hv, rfl⟩ := map_eq_ok.mp h
    rw [readNumber_integer (hdigits cs) hrest, integerLiteral_alone hv p']
    rfl
  unfold readNumber at h
  simp only at h
  split at h
  · rename_i d cs' _
    split at h
    · rename_i hd
      cases h
      have hfraction := hdigits (d :: cs')
      rw [List.takeWhile_cons, if_pos hd] at hfraction
      simp only [List.takeWhile_cons, if_pos hd]
      exact readNumber_fraction (hdigits cs) hfraction hrest
    · exact hinteger h
  · exact hinteger h

/-- An operator of one character is one also in front of a blank character. -/
theorem readOperator?_alone (h : readOperator? c cs = some t) (htail : t.lexeme = c :: tail)
    (hrest : Spaced rest) : readOperator? c (tail ++ rest) = some ⟨t.value, t.lexeme, rest⟩ := by
  have hsingle : ∀ {cs' : List Char}, (singleKind? c).map (fun k => ⟨k, [c], cs'⟩) = some t →
      readOperator? c (tail ++ rest) = some ⟨t.value, t.lexeme, rest⟩ := by
    intro cs' h
    obtain ⟨k, hk, rfl⟩ := Option.map_eq_some_iff.mp h
    cases htail
    cases rest with
    | nil => simp [readOperator?, hk]
    | cons d rest => simp [readOperator?, hk, pairKind?_of_isBlank (.inr (hrest d rfl))]
  unfold readOperator? at h
  simp only at h
  split at h
  · split at h
    · rename_i k hk
      cases h
      cases htail
      simp [readOperator?, hk]
    · exact hsingle h
  · exact hsingle h

theorem exists_lexeme_eq_cons (h : readToken p c cs = .ok t) : ∃ tail, t.lexeme = c :: tail := by
  have hsplit := readToken_split h
  cases hlexeme : t.lexeme with
  | nil => exact absurd hlexeme (readToken_lexeme_ne_nil h)
  | cons d tail =>
    rw [hlexeme] at hsplit
    exact ⟨tail, by rw [(List.cons.inj hsplit).1]⟩

/-- A lexeme is read as the same token, wherever it is and whatever follows it behind a blank
character. -/
theorem readToken_alone (h : readToken p c cs = .ok t) (htail : t.lexeme = c :: tail)
    (p' : Position) (hrest : Spaced rest) :
    readToken p' c (tail ++ rest) = .ok ⟨t.value, t.lexeme, rest⟩ := by
  unfold readToken at h ⊢
  by_cases hquote : c = '"'
  · rw [if_pos hquote] at h ⊢
    obtain ⟨u, hu, rfl⟩ := map_eq_ok.mp h
    obtain rfl : u.lexeme = tail := (List.cons.inj htail).2
    rw [readString_alone hu]
    rfl
  rw [if_neg hquote] at h ⊢
  by_cases hchar : c = '\''
  · rw [if_pos hchar] at h ⊢
    obtain ⟨u, hu, rfl⟩ := map_eq_ok.mp h
    obtain rfl : u.lexeme = tail := (List.cons.inj htail).2
    rw [readChar_alone hu]
    rfl
  rw [if_neg hchar] at h ⊢
  by_cases hdigit : c.isDigit
  · rw [if_pos hdigit] at h ⊢
    obtain ⟨u, hu, rfl⟩ := map_eq_ok.mp h
    have hlexeme : u.lexeme = c :: tail := htail
    rw [← List.cons_append, ← hlexeme, readNumber_alone hu p' hrest]
    rfl
  rw [if_neg hdigit] at h ⊢
  by_cases hword : startsWord c
  · rw [if_pos hword] at h ⊢
    cases h
    cases htail
    obtain ⟨htake, hdrop⟩ := takeWhile_append_spaced (fun _ => continuesWord_of_isBlank)
      (List.all_eq_true.mp (List.all_takeWhile (p := continuesWord) (l := cs))) hrest
    simp only [htake, hdrop]
  rw [if_neg hword] at h ⊢
  split at h
  · rename_i u hu
    cases h
    rw [readOperator?_alone hu htail hrest]
  · cases h

/-- A blank character is not the beginning of a token. -/
theorem readToken_of_isBlank (h : Text.isBlank c = true) :
    readToken p c cs = .error ⟨.unexpected c, p⟩ := by
  have hword : startsWord c = false := by
    have hinside := continuesWord_of_isBlank h
    unfold continuesWord at hinside
    unfold startsWord
    simp only [Bool.or_eq_false_iff] at hinside ⊢
    exact ⟨hinside.1.1, hinside.2⟩
  have hoperator : readOperator? c cs = none := by
    unfold readOperator?
    cases cs with
    | nil => simp [singleKind?_of_isBlank h]
    | cons d cs => simp [singleKind?_of_isBlank h, pairKind?_of_isBlank (.inl h)]
  rw [readToken, if_neg (ne_of_isBlank h (by decide)), if_neg (ne_of_isBlank h (by decide)),
    if_neg (by simp [isDigit_of_isBlank h]), if_neg (by simp [hword]), hoperator]

/-- A slash is a token of its own, also in front of another one. -/
theorem lexeme_of_readToken_slash (h : readToken p '/' cs = .ok t) : t.lexeme = ['/'] := by
  have hoperator : readOperator? '/' cs = some ⟨.operator .slash, ['/'], cs⟩ := by
    unfold readOperator?
    cases cs with
    | nil => rfl
    | cons d cs => simp [pairKind?, singleKind?]
  rw [readToken, if_neg (by decide), if_neg (by decide), if_neg (by decide),
    if_neg (by decide +kernel), hoperator] at h
  cases h
  rfl

/-- No gap is at the front of a lexeme, also if a blank character follows it. -/
theorem opens_lexeme (h : readToken p c cs = .ok t) (htail : t.lexeme = c :: tail)
    (hrest : Spaced rest) : Opens (c :: (tail ++ rest)) := by
  intro d hd
  obtain rfl : c = d := Option.some.inj hd
  constructor
  · by_contra hblank
    rw [readToken_of_isBlank (Bool.of_not_eq_false hblank)] at h
    cases h
  · rintro rfl
    obtain rfl : tail = [] := (List.cons.inj (htail.symm.trans (lexeme_of_readToken_slash h))).2
    constructor
    · intro hslash
      exact ne_of_isBlank (hrest '/' hslash) (by decide) rfl
    · intro hstar
      exact ne_of_isBlank (hrest '*' hstar) (by decide) rfl

/-! ## Texts with given lexemes -/

/-- The text has the lexemes, in this order and with a gap before each of them and one at the end.
Behind each of them is a blank character or the end of the text. -/
inductive Lays : List String → List Char → Prop where
  | nil {gap : List Char} (hgap : Gap [] gap) : Lays [] gap
  | cons {gap rest : List Char} {s : String} {lexemes : List String}
    (hgap : Gap (s.toList ++ rest) gap) (hspaced : Spaced rest) (hrest : Lays lexemes rest) :
    Lays (s :: lexemes) (gap ++ s.toList ++ rest)

theorem Lays.blank {lexemes : List String} (h : Lays lexemes text) (hc : Text.isBlank c = true) :
    Lays lexemes (c :: text) := by
  cases h with
  | nil hgap => exact .nil (.blank hc hgap)
  | @cons gap rest s lexemes hgap hspaced hrest => exact .cons (.blank hc hgap) hspaced hrest

/-- Lexemes may be put one behind the other with single spaces between them. -/
theorem lays_intercalate (lexemes : List String) :
    Lays lexemes (" ".intercalate lexemes).toList := by
  rw [String.toList_intercalate]
  induction lexemes with
  | nil => exact .nil .nil
  | cons s lexemes ih =>
    cases lexemes with
    | nil =>
      have hlays : Lays [s] ([] ++ s.toList ++ []) := .cons .nil (by simp [Spaced]) (.nil .nil)
      simpa using hlays
    | cons s' lexemes =>
      have hrest := ih.blank (c := ' ') (by decide)
      have hspaced : ∀ cs, Spaced (' ' :: cs) := by
        intro cs c hc
        cases hc
        decide
      have hlays : Lays (s :: s' :: lexemes) ([] ++ s.toList ++ _) := .cons .nil (hspaced _) hrest
      simpa using hlays

/-! ## Scanning -/

theorem tokensFrom_of_end (hg : skipGap .plain p cs = .ok (q, [])) :
    tokensFrom p cs = .ok [⟨.eof, "", q⟩] := by
  rw [tokensFrom]
  split <;> simp_all

theorem tokensFrom_of_token (hg : skipGap .plain p cs = .ok (q, c :: rest))
    (ht : readToken q c rest = .ok t) :
    tokensFrom p cs = (tokensFrom (q.after t.lexeme) t.rest).map
      (⟨t.value, String.ofList t.lexeme, q⟩ :: ·) := by
  rw [tokensFrom]
  split
  · simp_all
  · simp_all
  · rename_i q' c' rest' hg'
    cases hg.symm.trans hg'
    split
    · simp_all
    · rename_i u hu
      cases ht.symm.trans hu
      rfl

theorem tokensFrom_ne_nil (h : tokensFrom p cs = .ok tokens) : tokens ≠ [] := by
  unfold tokensFrom at h
  split at h
  · cases h
  · cases h
    simp
  · split at h
    · cases h
    · obtain ⟨ts, -, rfl⟩ := map_eq_ok.mp h
      simp

/-- A text with the lexemes of another one is read as the same tokens. -/
theorem tokensFrom_of_lays (h : tokensFrom p cs = .ok tokens)
    (hlays : Lays (tokens.dropLast.map Token.lexeme) text) (q : Position) :
    ∃ tokens', tokensFrom q text = .ok tokens' ∧ tokens'.map Token.kind = tokens.map Token.kind ∧
      tokens'.map Token.lexeme = tokens.map Token.lexeme := by
  fun_induction tokensFrom p cs generalizing tokens text q with
  | case1 p cs e hg => cases h
  | case2 p cs q' hg =>
    cases h
    cases hlays with
    | nil hgap =>
      have hskip := skipGap_of_gap hgap (by simp [Opens]) q
      rw [List.append_nil] at hskip
      exact ⟨_, tokensFrom_of_end hskip, rfl, rfl⟩
  | case3 p cs q' c rest hg e ht => cases h
  | case4 p cs q' c rest hg t ht _ ih =>
    obtain ⟨ts, hts, rfl⟩ := map_eq_ok.mp h
    obtain ⟨tail, htail⟩ := exists_lexeme_eq_cons ht
    rw [List.dropLast_cons_of_ne_nil (tokensFrom_ne_nil hts), List.map_cons] at hlays
    cases hlays with
    | @cons gap rest' _ _ hgap hspaced hrest =>
      -- behind the gap the same lexeme is read, and behind that the induction goes on
      rw [String.toList_ofList, htail, List.cons_append] at hgap
      have htext : gap ++ (String.ofList t.lexeme).toList ++ rest' =
          gap ++ (c :: (tail ++ rest')) := by
        simp [htail]
      rw [htext]
      have hskip := skipGap_of_gap hgap (opens_lexeme ht htail hspaced) q
      have hread := readToken_alone ht htail (q.after gap) hspaced
      obtain ⟨ts', hts', hkinds, hlexemes⟩ := ih hts hrest ((q.after gap).after t.lexeme)
      refine ⟨⟨t.value, String.ofList t.lexeme, q.after gap⟩ :: ts', ?_, ?_, ?_⟩
      · rw [tokensFrom_of_token hskip hread]
        simp only [hts']
        rfl
      · simp only [List.map_cons, hkinds]
      · simp only [List.map_cons, hlexemes]

/-- The tokens of a text do not depend on its layout.  Its lexemes with single spaces between them
are read as the same kinds of tokens, with the same values, and the same lexemes; and so are they
with any gaps around them, if a blank character or the end follows each of them. -/
theorem scan_layout {source : String} {tokens : List Token} (h : scan source = .ok tokens) :
    (∃ tokens', scan (" ".intercalate (tokens.dropLast.map Token.lexeme)) = .ok tokens' ∧
      tokens'.map Token.kind = tokens.map Token.kind ∧
      tokens'.map Token.lexeme = tokens.map Token.lexeme) ∧
    ∀ text : String, Lays (tokens.dropLast.map Token.lexeme) text.toList →
      ∃ tokens', scan text = .ok tokens' ∧ tokens'.map Token.kind = tokens.map Token.kind ∧
        tokens'.map Token.lexeme = tokens.map Token.lexeme := by
  constructor
  · exact tokensFrom_of_lays h (lays_intercalate _) _
  · intro text hlays
    exact tokensFrom_of_lays h hlays _

/-- Numbers in front of words, operators in front of operators, a slash in front of a comment. -/
theorem scan_layout_touching :
    ∃ source tokens, scan source = .ok tokens ∧
      tokens.dropLast.map Token.lexeme =
        ["1.5", "e", "--", "-", "2", "/", "/", "'\\''", "\" /*\"", "&&", "ifx", "<=", "="] ∧
      ∃ tokens', scan (" ".intercalate (tokens.dropLast.map Token.lexeme)) = .ok tokens' ∧
        tokens'.map Token.kind = tokens.map Token.kind ∧
        tokens'.map Token.lexeme = tokens.map Token.lexeme := by
  obtain ⟨source, hscan⟩ : ∃ source, ((scan source).toOption.any fun tokens =>
      decide (tokens.dropLast.map Token.lexeme = ["1.5", "e", "--", "-", "2", "/", "/", "'\\''",
        "\" /*\"", "&&", "ifx", "<=", "="])) = true := by
    refine ⟨"1.5e---2/ /'\\''\" /*\"&&ifx<==//", ?_⟩
    decide +kernel
  cases h : scan source with
  | error e => simp [h, Except.toOption] at hscan
  | ok tokens =>
    exact ⟨source, tokens, h, by simpa [h, Except.toOption] using hscan, (scan_layout h).1⟩

end Token

end StackLang
