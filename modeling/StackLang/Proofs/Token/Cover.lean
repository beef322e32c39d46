import Mathlib.Data.List.Induction
import StackLang.Token.Scan

/-!
# Tokens cover the text

Nothing of a text is lost between its tokens, and every token knows where it stands.

* `Token.Gap` — blank characters and comments, in front of the text that follows them.
* `Position.behind` — the position behind a text, by counting lines and characters.
* `Token.scan_cover` — a text is made of the lexemes of its tokens, with gaps before, between and
  behind them.
-/

namespace StackLang

/-! ## Positions -/

/-- The position behind a text: one plus the number of its line ends, and one plus the number of
characters behind the last of them. -/
def Position.behind (cs : List Char) : Position :=
  ⟨cs.count '\n' + 1, (cs.reverse.takeWhile (· ≠ '\n')).length + 1⟩

/-- Counting on character by character leads to the same position. -/
theorem Position.after_start (cs : List Char) : start.after cs = behind cs := by
  induction cs using List.reverseRecOn with
  | nil => rfl
  | append_singleton cs c ih =>
    rw [after_append, ih, after_cons, after_nil, next]
    split
    · rename_i hc
      simp [behind, hc]
    · rename_i hc
      simp [behind, hc]

theorem Position.after_behind (cs ds : List Char) : (behind cs).after ds = behind (cs ++ ds) := by
  rw [← after_start, ← after_append, after_start]

namespace Token

variable {c : Char} {rest : List Char} {t : Taken Kind}

/-! ## Gaps -/

/-- The text goes on with the end of a line, or not at all. -/
def EndsLine (cs : List Char) : Prop :=
  ∀ c, cs.head? = some c → c = '\n'

/-- Blank characters and comments, in front of `rest`.  A comment to the end of the line does not
include that end, and a block comment ends where it is closed for the first time. -/
inductive Gap (rest : List Char) : List Char → Prop where
  | nil : Gap rest []
  | blank {c : Char} {gap : List Char} (hc : Text.isBlank c = true) (h : Gap rest gap) :
    Gap rest (c :: gap)
  | lineComment {body gap : List Char} (hbody : '\n' ∉ body) (hend : EndsLine (gap ++ rest))
    (h : Gap rest gap) : Gap rest ('/' :: '/' :: (body ++ gap))
  | blockComment {body gap : List Char} (hbody : ¬['*', '/'] <:+: body) (h : Gap rest gap) :
    Gap rest ('/' :: '*' :: (body ++ '*' :: '/' :: gap))

/-- What is skipped in front of `rest`, seen from inside a gap. -/
def GapMode.Skips (rest : List Char) : GapMode → List Char → Prop
  | plain, skipped => Gap rest skipped
  | lineComment, skipped => ∃ body gap, skipped = body ++ gap ∧ '\n' ∉ body ∧
      EndsLine (gap ++ rest) ∧ Gap rest gap
  | blockComment _, skipped => ∃ body gap, skipped = body ++ '*' :: '/' :: gap ∧
      ¬['*', '/'] <:+: body ∧ Gap rest gap

/-- A character that does not close a block comment together with what follows may be put in front
of its text. -/
theorem not_infix_cons {body : List Char} (h : ¬['*', '/'] <:+: body)
    (hc : c = '*' → body.head? ≠ some '/') : ¬['*', '/'] <:+: c :: body := by
  rw [List.infix_cons_iff]
  rintro (hfront | hbody)
  · rw [List.cons_prefix_cons] at hfront
    obtain ⟨rfl, t, rfl⟩ := hfront
    exact hc rfl rfl
  · exact h hbody

/-- What is skipped is a gap, and the position behind it is counted on from the one before it. -/
theorem skipGap_skips {mode : GapMode} {p q : Position} {cs : List Char}
    (h : skipGap mode p cs = .ok (q, rest)) :
    ∃ skipped, cs = skipped ++ rest ∧ mode.Skips rest skipped ∧ q = p.after skipped := by
  fun_induction skipGap mode p cs with
  | case1 => cases h
  | case2 =>
    cases h
    exact ⟨[], rfl, .nil, rfl⟩
  | case3 =>
    cases h
    exact ⟨[], rfl, ⟨[], [], rfl, by simp, by simp [EndsLine], .nil⟩, rfl⟩
  | case4 p c cs hc ih =>
    obtain ⟨gap, rfl, hgap, rfl⟩ := ih h
    exact ⟨c :: gap, rfl, .blank hc hgap, rfl⟩
  | case5 p cs _ ih =>
    obtain ⟨_, rfl, ⟨body, gap, rfl, hbody, hend, hgap⟩, rfl⟩ := ih h
    exact ⟨'/' :: '/' :: (body ++ gap), rfl, .lineComment hbody hend hgap, rfl⟩
  | case6 p cs _ _ ih =>
    obtain ⟨_, rfl, ⟨body, gap, rfl, hbody, hgap⟩, rfl⟩ := ih h
    exact ⟨'/' :: '*' :: (body ++ '*' :: '/' :: gap), rfl, .blockComment hbody hgap, rfl⟩
  | case7 | case8 | case9 =>
    cases h
    exact ⟨[], rfl, .nil, rfl⟩
  | case10 p cs ih =>
    -- The end of the line belongs to the gap as a blank character, not to the comment.
    obtain ⟨gap, rfl, hgap, rfl⟩ := ih h
    exact ⟨'\n' :: gap, rfl, ⟨[], '\n' :: gap, rfl, by simp, by simp [EndsLine],
      .blank (by decide) hgap⟩, rfl⟩
  | case11 p c cs hc ih =>
    obtain ⟨_, rfl, ⟨body, gap, rfl, hbody, hend, hgap⟩, rfl⟩ := ih h
    exact ⟨c :: (body ++ gap), rfl,
      ⟨c :: body, gap, rfl, by simp [Ne.symm hc, hbody], hend, hgap⟩, rfl⟩
  | case12 start p cs ih =>
    obtain ⟨gap, rfl, hgap, rfl⟩ := ih h
    exact ⟨'*' :: '/' :: gap, rfl, ⟨[], gap, rfl, by simp, hgap⟩, rfl⟩
  | case13 start p d cs hd ih =>
    obtain ⟨_, hcs, ⟨body, gap, rfl, hbody, hgap⟩, rfl⟩ := ih h
    refine ⟨'*' :: (body ++ '*' :: '/' :: gap), by rw [hcs]; rfl,
      ⟨'*' :: body, gap, rfl, not_infix_cons hbody fun _ hslash => ?_, hgap⟩, rfl⟩
    obtain ⟨body, rfl⟩ := List.head?_eq_some_iff.mp hslash
    cases hcs
    exact hd rfl
  | case14 => cases h
  | case15 start p c cs hc ih =>
    obtain ⟨_, rfl, ⟨body, gap, rfl, hbody, hgap⟩, rfl⟩ := ih h
    exact ⟨c :: (body ++ '*' :: '/' :: gap), rfl,
      ⟨c :: body, gap, rfl, not_infix_cons hbody fun h => absurd h hc, hgap⟩, rfl⟩

/-! ## Tokens -/

theorem wordKind_ne_eof (s : String) : wordKind s ≠ .eof := by
  rw [wordKind]
  cases h : reservedWords.lookup s with
  | none => exact fun h => by cases h
  | some k =>
    obtain ⟨before, behind, hwords, -⟩ := List.lookup_eq_some_iff.mp h
    have hall : ∀ x ∈ reservedWords, x.2 ≠ .eof := by decide
    exact hall (s, k) (by rw [hwords]; simp)

theorem readOperator?_kind_ne_eof (h : readOperator? c rest = some t) : t.value ≠ .eof := by
  have hpair : ∀ d, pairKind? c d ≠ some .eof := by
    intro d
    unfold pairKind?
    split <;> simp
  have hsingle : singleKind? c ≠ some .eof := by
    unfold singleKind?
    split <;> simp
  unfold readOperator? at h
  simp only at h
  repeat' split at h
  · rename_i k hk
    cases h
    rintro rfl
    exact hpair _ hk
  · obtain ⟨k, hk, rfl⟩ := Option.map_eq_some_iff.mp h
    rintro rfl
    exact hsingle hk
  · obtain ⟨k, hk, rfl⟩ := Option.map_eq_some_iff.mp h
    rintro rfl
    exact hsingle hk

/-- No token but the last marks the end of the text. -/
theorem readToken_kind_ne_eof {p : Position} (h : readToken p c rest = .ok t) : t.value ≠ .eof := by
  unfold readToken at h
  repeat' split at h
  · obtain ⟨u, -, rfl⟩ := map_eq_ok.mp h
    exact fun h => by cases h
  · obtain ⟨u, -, rfl⟩ := map_eq_ok.mp h
    exact fun h => by cases h
  · obtain ⟨u, -, rfl⟩ := map_eq_ok.mp h
    exact fun h => by cases h
  · cases h
    exact wordKind_ne_eof _
  · rename_i ho
    cases h
    exact readOperator?_kind_ne_eof ho
  · cases h

/-- The text of tokens, each behind a gap. -/
def spell (pieces : List (List Char × Token)) : List Char :=
  pieces.flatMap fun x => x.1 ++ x.2.lexeme.toList

@[simp] theorem spell_cons (x : List Char × Token) (pieces : List (List Char × Token)) :
    spell (x :: pieces) = x.1 ++ x.2.lexeme.toList ++ spell pieces := rfl

/-- A gap and the token behind it, between two parts of a text. -/
structure Stands (before : List Char) (x : List Char × Token) (rest : List Char) : Prop where
  gap : Gap (x.2.lexeme.toList ++ rest) x.1
  lexeme : x.2.lexeme ≠ ""
  kind : x.2.kind ≠ .eof
  pos : x.2.pos = .behind (before ++ x.1)

/-- The token that is read behind a gap stands there. -/
theorem stands_of_readToken {front gap : List Char} (hgap : Gap (c :: rest) gap)
    (ht : readToken (.behind (front ++ gap)) c rest = .ok t) :
    Stands front (gap, ⟨t.value, String.ofList t.lexeme, .behind (front ++ gap)⟩) t.rest where
  gap := by simpa [← readToken_split ht] using hgap
  lexeme := by simpa using readToken_lexeme_ne_nil ht
  kind := readToken_kind_ne_eof ht
  pos := rfl

/-- The tokens of a text that stands behind `front`. -/
theorem tokensFrom_cover {p : Position} {front cs : List Char} {tokens : List Token}
    (hp : p = .behind front) (h : tokensFrom p cs = .ok tokens) :
    ∃ pieces last, cs = spell pieces ++ last ∧ Gap [] last ∧
      tokens = pieces.map Prod.snd ++ [⟨.eof, "", .behind (front ++ cs)⟩] ∧
      ∀ before x behind, pieces = before ++ x :: behind →
        Stands (front ++ spell before) x (spell behind ++ last) := by
  fun_induction tokensFrom p cs generalizing front tokens with
  | case1 p cs e hg => cases h
  | case2 p cs q hg =>
    obtain ⟨gap, rfl, hgap, rfl⟩ := skipGap_skips hg
    cases h
    refine ⟨[], gap, by simp [spell], hgap, ?_, fun before x behind hnil => ?_⟩
    · simp [hp, Position.after_behind]
    · simp at hnil
  | case3 p cs q c rest hg e ht => cases h
  | case4 p cs q c rest hg t ht _ ih =>
    obtain ⟨gap, rfl, hgap, rfl⟩ := skipGap_skips hg
    obtain ⟨ts, hts, rfl⟩ := map_eq_ok.mp h
    rw [hp, Position.after_behind] at ht hts ih ⊢
    have hstands := stands_of_readToken hgap ht
    obtain ⟨pieces, last, hrest, hlast, rfl, hall⟩ := ih (Position.after_behind _ t.lexeme) hts
    refine ⟨(gap, ⟨t.value, String.ofList t.lexeme, .behind (front ++ gap)⟩) :: pieces, last, ?_,
      hlast, ?_, fun before x behind hpieces => ?_⟩
    · simp [readToken_split ht, hrest]
    · simp [readToken_split ht]
    · cases before with
      | nil =>
        cases hpieces
        rw [hrest] at hstands
        simpa [spell] using hstands
      | cons y before =>
        obtain ⟨rfl, rfl⟩ := List.cons.inj hpieces
        simpa using hall before x behind rfl

/-- Tokens cover the text: it is made of their lexemes, with a gap before each of them and one at
the end.  The last token, and no other, marks the end of the text and has no lexeme.  Every token
has the position of its first character, the last one the position behind the text. -/
theorem scan_cover {source : String} {tokens : List Token} (h : scan source = .ok tokens) :
    ∃ pieces last, source.toList = spell pieces ++ last ∧ Gap [] last ∧
      tokens = pieces.map Prod.snd ++ [⟨.eof, "", .behind source.toList⟩] ∧
      ∀ before x behind, pieces = before ++ x :: behind →
        Stands (spell before) x (spell behind ++ last) := by
  have hstart : Position.start = .behind [] := rfl
  simpa using tokensFrom_cover hstart h

/-- A comment over two lines and one at the end of the text. -/
theorem scan_cover_comments :
    ∃ source tokens, scan source = .ok tokens ∧
      tokens.map Token.pos = [⟨1, 1⟩, ⟨2, 6⟩, ⟨2, 10⟩, ⟨3, 9⟩] ∧
      ∃ pieces last, source.toList = spell pieces ++ last ∧ Gap [] last ∧
        tokens = pieces.map Prod.snd ++ [⟨.eof, "", .behind source.toList⟩] ∧
        ∀ before x behind, pieces = before ++ x :: behind →
          Stands (spell before) x (spell behind ++ last) := by
  obtain ⟨source, hscan⟩ : ∃ source, ((scan source).toOption.any fun tokens =>
      decide (tokens.map Token.pos = [⟨1, 1⟩, ⟨2, 6⟩, ⟨2, 10⟩, ⟨3, 9⟩])) = true := by
    refine ⟨"x /* a\n * */'\\n'--\n //**/ y", ?_⟩
    decide +kernel
  cases h : scan source with
  | error e => simp [h, Except.toOption] at hscan
  | ok tokens =>
    exact ⟨source, tokens, h, by simpa [h, Except.toOption] using hscan, scan_cover h⟩

end Token

end StackLang
