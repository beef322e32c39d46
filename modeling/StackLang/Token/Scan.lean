import StackLang.Double.Reading
import StackLang.Text.Alphabetic
import StackLang.Text.Blank
import StackLang.Text.Numeric
import StackLang.Token.Basic

/-!
# Scanning

A text is cut into tokens from left to right.  Between tokens there are gaps of blank characters
and comments; at each token the longest one that fits is taken.

Every reader returns the characters that it took, the lexeme, and those that follow, so that
positions are computed in one place, from the text alone.

`skipGap` is structural in the text.  `tokensFrom` ends because a gap does not lengthen the text
and a lexeme is not empty (`skipGap_suffix`, `readToken_lexeme_ne_nil`).
-/

namespace StackLang

/-! ## Errors -/

/-- Why a text cannot be cut into tokens. -/
inductive ScanCause where
  | unterminatedComment
  | unknownEscape (c : Char)
  | endInEscape
  | newlineInString
  | unterminatedString
  | emptyChar
  | unterminatedChar
  | integerOutOfRange (digits : String)
  | unexpected (c : Char)
  deriving DecidableEq, Repr

def ScanCause.message : ScanCause → String
  | unterminatedComment => "unterminated block comment"
  | unknownEscape c => "unknown escape sequence: \\" ++ c.toString
  | endInEscape => "unexpected EOF in escape sequence"
  | newlineInString => "unterminated string (newline before closing quote)"
  | unterminatedString => "unterminated string literal"
  | emptyChar => "empty character literal"
  | unterminatedChar => "unterminated character literal"
  | integerOutOfRange digits => "integer literal out of range: " ++ digits
  | unexpected c => "unexpected character: '" ++ c.toString ++ "'"

/-- The first fault of a text and where it is. -/
structure ScanError where
  cause : ScanCause
  pos : Position
  deriving DecidableEq, Repr

/-- The text of an error at a position. -/
def Position.locate (p : Position) (message : String) : String :=
  toString p.line ++ ":" ++ toString p.col ++ ": " ++ message

def ScanError.message (e : ScanError) : String :=
  e.pos.locate e.cause.message

namespace Token

/-! ## Gaps -/

/-- Where in a gap we are. -/
inductive GapMode where
  | plain
  | lineComment
  | blockComment (start : Position)

/-- Skips blank characters and comments; the result starts with the first character of a token,
unless it is empty. -/
def skipGap : GapMode → Position → List Char → Except ScanError (Position × List Char)
  | .blockComment start, _, [] => .error ⟨.unterminatedComment, start⟩
  | .plain, p, [] => .ok (p, [])
  | .lineComment, p, [] => .ok (p, [])
  | .plain, p, c :: rest =>
    if Text.isBlank c then skipGap .plain (p.next c) rest
    else if c = '/' then
      match rest with
      | d :: rest' =>
        if d = '/' then skipGap .lineComment ((p.next c).next d) rest'
        else if d = '*' then skipGap (.blockComment p) ((p.next c).next d) rest'
        else .ok (p, c :: d :: rest')
      | [] => .ok (p, [c])
    else .ok (p, c :: rest)
  | .lineComment, p, c :: rest =>
    if c = '\n' then skipGap .plain (p.next c) rest else skipGap .lineComment (p.next c) rest
  | .blockComment start, p, c :: rest =>
    if c = '*' then
      match rest with
      | d :: rest' =>
        if d = '/' then skipGap .plain ((p.next c).next d) rest'
        else skipGap (.blockComment start) (p.next c) (d :: rest')
      | [] => skipGap (.blockComment start) (p.next c) []
    else skipGap (.blockComment start) (p.next c) rest

/-! ## Literals -/

/-- The character that stands for itself behind a backslash, or is written by a letter. -/
def unescape? : Char → Option Char
  | 'n' => some '\n'
  | 't' => some '\t'
  | 'r' => some '\r'
  | '\\' => some '\\'
  | '"' => some '"'
  | '\'' => some '\''
  | '0' => some '\x00'
  | _ => none

/-- What a reader took off the front of a text: a value, the characters it was read from and those
that follow. -/
structure Taken (α : Type) where
  value : α
  lexeme : List Char
  rest : List Char

namespace Taken

variable {α β : Type}

/-- The reader also took `cs` before. -/
def behind (cs : List Char) (f : α → β) (t : Taken α) : Taken β :=
  ⟨f t.value, cs ++ t.lexeme, t.rest⟩

end Taken

/-- The character after a backslash at `p`. -/
def readEscape (p : Position) : List Char → Except ScanError (Taken Char)
  | [] => .error ⟨.endInEscape, p⟩
  | c :: rest =>
    match unescape? c with
    | some v => .ok ⟨v, [c], rest⟩
    | none => .error ⟨.unknownEscape c, p⟩

/-- The rest of a string literal that starts at `start`, from the position `p` on. -/
def readString (start : Position) : Position → List Char → Except ScanError (Taken (List Char))
  | _, [] => .error ⟨.unterminatedString, start⟩
  | p, c :: rest =>
    if c = '"' then .ok ⟨[], [c], rest⟩
    else if c = '\\' then
      match rest with
      | [] => .error ⟨.endInEscape, p.next c⟩
      | d :: rest' =>
        match unescape? d with
        | some v => (readString start ((p.next c).next d) rest').map (Taken.behind [c, d] (v :: ·))
        | none => .error ⟨.unknownEscape d, p.next c⟩
    else if c = '\n' then .error ⟨.newlineInString, start⟩
    else (readString start (p.next c) rest).map (Taken.behind [c] (c :: ·))

/-- The closing quote of a character literal. -/
def closeChar (start : Position) (t : Taken Char) : Except ScanError (Taken Char) :=
  match t.rest with
  | '\'' :: rest => .ok ⟨t.value, t.lexeme ++ ['\''], rest⟩
  | _ => .error ⟨.unterminatedChar, start⟩

/-- The rest of a character literal that starts at `start`, behind its opening quote. -/
def readChar (start : Position) : List Char → Except ScanError (Taken Char)
  | [] => .error ⟨.emptyChar, start⟩
  | c :: rest =>
    if c = '\\' then
      match readEscape ((start.next '\'').next c) rest with
      | .error e => .error e
      | .ok t => closeChar start (t.behind [c] id)
    else if c = '\'' ∨ c = '\n' then .error ⟨.emptyChar, start⟩
    else closeChar start ⟨c, [c], rest⟩

/-- The integer literal with the given digits. -/
def integerLiteral (p : Position) (digits : List Char) : Except ScanError Literal :=
  let n := Double.digitsValue digits
  if n < 0x8000000000000000 then .ok (.int (Word.ofNat n))
  else .error ⟨.integerOutOfRange (String.ofList digits), p⟩

/-- A number: digits, and a fraction if a point and another digit follow. -/
def readNumber (p : Position) (cs : List Char) : Except ScanError (Taken Literal) :=
  let whole := cs.takeWhile Char.isDigit
  let rest := cs.dropWhile Char.isDigit
  match rest with
  | '.' :: d :: rest' =>
    if d.isDigit then
      let fraction := (d :: rest').takeWhile Char.isDigit
      .ok ⟨.float (Double.ofPoint whole fraction), whole ++ '.' :: fraction,
        (d :: rest').dropWhile Char.isDigit⟩
    else (integerLiteral p whole).map (⟨·, whole, rest⟩)
  | _ => (integerLiteral p whole).map (⟨·, whole, rest⟩)

/-! ## Words and operators -/

/-- The words with a fixed meaning. -/
def reservedWords : List (String × Kind) := [
  ("true", .literal (.bool true)),
  ("false", .literal (.bool false)),
  ("int", .typeName .int),
  ("float", .typeName .float),
  ("bool", .typeName .bool),
  ("char", .typeName .char),
  ("string", .typeName .string),
  ("void", .typeName .void),
  ("if", .keyword .ifWord),
  ("else", .keyword .elseWord),
  ("while", .keyword .whileWord),
  ("for", .keyword .forWord),
  ("return", .keyword .returnWord),
  ("break", .keyword .breakWord),
  ("continue", .keyword .continueWord),
  ("print", .keyword .printWord),
  ("input", .keyword .inputWord),
  ("random", .keyword .randomWord),
  ("and", .operator .and),
  ("or", .operator .or)]

/-- The kind of a word: a reserved one, or else a name. -/
def wordKind (s : String) : Kind :=
  (reservedWords.lookup s).getD (.ident s)

/-- A character that may start a word. -/
def startsWord (c : Char) : Bool :=
  Text.isLetter c || c = '_'

/-- A character that may stand inside a word. -/
def continuesWord (c : Char) : Bool :=
  Text.isLetter c || Text.isNumeral c || c = '_'

/-- The operators of two characters. -/
def pairKind? : Char → Char → Option Kind
  | '+', '+' => some (.operator .increment)
  | '-', '-' => some (.operator .decrement)
  | '=', '=' => some (.operator .eq)
  | '!', '=' => some (.operator .ne)
  | '<', '=' => some (.operator .le)
  | '>', '=' => some (.operator .ge)
  | '&', '&' => some (.operator .and)
  | '|', '|' => some (.operator .or)
  | _, _ => none

/-- The operators and marks of one character. -/
def singleKind? : Char → Option Kind
  | '+' => some (.operator .plus)
  | '-' => some (.operator .minus)
  | '*' => some (.operator .star)
  | '/' => some (.operator .slash)
  | '%' => some (.operator .percent)
  | '=' => some (.operator .assign)
  | '<' => some (.operator .lt)
  | '>' => some (.operator .gt)
  | '!' => some (.operator .not)
  | '(' => some (.punctuation .lparen)
  | ')' => some (.punctuation .rparen)
  | '{' => some (.punctuation .lbrace)
  | '}' => some (.punctuation .rbrace)
  | '[' => some (.punctuation .lbracket)
  | ']' => some (.punctuation .rbracket)
  | ',' => some (.punctuation .comma)
  | ';' => some (.punctuation .semicolon)
  | _ => none

/-- The operator of two characters at the front of a text, else that of one character. -/
def readOperator? (c : Char) (rest : List Char) : Option (Taken Kind) :=
  let single := (singleKind? c).map fun k => ⟨k, [c], rest⟩
  match rest with
  | d :: rest' =>
    match pairKind? c d with
    | some k => some ⟨k, [c, d], rest'⟩
    | none => single
  | [] => single

/-! ## Tokens -/

/-- The token at the front of a text that starts with `c`. -/
def readToken (p : Position) (c : Char) (rest : List Char) : Except ScanError (Taken Kind) :=
  if c = '"' then
    (readString p (p.next c) rest).map (Taken.behind [c] (.literal ∘ .str ∘ String.ofList))
  else if c = '\'' then
    (readChar p rest).map (Taken.behind [c] (.literal ∘ .char))
  else if c.isDigit then
    (readNumber p (c :: rest)).map (Taken.behind [] .literal)
  else if startsWord c then
    let word := c :: rest.takeWhile continuesWord
    .ok ⟨wordKind (String.ofList word), word, rest.dropWhile continuesWord⟩
  else
    match readOperator? c rest with
    | some t => .ok t
    | none => .error ⟨.unexpected c, p⟩

/-! ## What a reader takes is the front of the text -/

theorem map_eq_ok {α β : Type} {x : Except ScanError α} {f : α → β} {b : β} :
    x.map f = .ok b ↔ ∃ a, x = .ok a ∧ f a = b := by
  cases x <;> simp [Except.map]

theorem skipGap_suffix {mode : GapMode} {p q : Position} {cs rest : List Char}
    (h : skipGap mode p cs = .ok (q, rest)) : rest <:+ cs := by
  fun_induction skipGap mode p cs <;>
    simp_all [List.suffix_cons_iff]

theorem readEscape_split {p : Position} {cs : List Char} {t : Taken Char}
    (h : readEscape p cs = .ok t) : cs = t.lexeme ++ t.rest := by
  unfold readEscape at h
  split at h
  · cases h
  · split at h
    · cases h; rfl
    · cases h

theorem readString_split {start p : Position} {cs : List Char} {t : Taken (List Char)}
    (h : readString start p cs = .ok t) : cs = t.lexeme ++ t.rest := by
  fun_induction readString start p cs generalizing t with
  | case4 _ _ _ _ _ _ ih =>
    obtain ⟨u, hu, rfl⟩ := map_eq_ok.mp h
    simp [Taken.behind, ← ih hu]
  | case7 _ _ _ _ _ _ ih =>
    obtain ⟨u, hu, rfl⟩ := map_eq_ok.mp h
    simp [Taken.behind, ← ih hu]
  | _ => cases h <;> rfl

theorem closeChar_split {start : Position} {t u : Taken Char}
    (h : closeChar start t = .ok u) : t.lexeme ++ t.rest = u.lexeme ++ u.rest := by
  unfold closeChar at h
  split at h
  · next hr => cases h; simp [hr]
  · cases h

theorem readChar_split {start : Position} {cs : List Char} {t : Taken Char}
    (h : readChar start cs = .ok t) : cs = t.lexeme ++ t.rest := by
  unfold readChar at h
  split at h
  · cases h
  · split at h
    · split at h
      · cases h
      · next u hu => simp [← closeChar_split h, Taken.behind, readEscape_split hu]
    · split at h
      · cases h
      · simp [← closeChar_split h]

theorem readNumber_split {p : Position} {cs : List Char} {t : Taken Literal}
    (h : readNumber p cs = .ok t) : cs = t.lexeme ++ t.rest := by
  have hw := (List.takeWhile_append_dropWhile (p := Char.isDigit) (l := cs)).symm
  unfold readNumber at h
  simp only at h
  split at h
  · next d rest' hr =>
    split at h
    · cases h
      rw [hr] at hw
      simpa only [List.append_assoc, List.cons_append, List.takeWhile_append_dropWhile] using hw
    · obtain ⟨v, _, rfl⟩ := map_eq_ok.mp h
      exact hw
  · obtain ⟨v, _, rfl⟩ := map_eq_ok.mp h
    exact hw

/-- A number that starts with a digit is not empty. -/
theorem readNumber_lexeme_ne_nil {p : Position} {c : Char} {rest : List Char} {t : Taken Literal}
    (hc : c.isDigit) (h : readNumber p (c :: rest) = .ok t) : t.lexeme ≠ [] := by
  unfold readNumber at h
  simp only [List.takeWhile_cons, hc, if_true] at h
  repeat' split at h
  · cases h
    simp
  · obtain ⟨v, _, rfl⟩ := map_eq_ok.mp h
    simp
  · obtain ⟨v, _, rfl⟩ := map_eq_ok.mp h
    simp

/-- An operator is one or two characters from the front of the text. -/
theorem readOperator?_split {c : Char} {rest : List Char} {t : Taken Kind}
    (h : readOperator? c rest = some t) :
    c :: rest = t.lexeme ++ t.rest ∧ t.lexeme ≠ [] := by
  unfold readOperator? at h
  simp only at h
  repeat' split at h
  · cases h
    simp
  · obtain ⟨k, _, rfl⟩ := Option.map_eq_some_iff.mp h
    simp
  · obtain ⟨k, _, rfl⟩ := Option.map_eq_some_iff.mp h
    simp

/-- A token together with what follows it is the text it was read from. -/
theorem readToken_split {p : Position} {c : Char} {rest : List Char} {t : Taken Kind}
    (h : readToken p c rest = .ok t) : c :: rest = t.lexeme ++ t.rest := by
  unfold readToken at h
  repeat' split at h
  · obtain ⟨u, hu, rfl⟩ := map_eq_ok.mp h
    simp [Taken.behind, ← readString_split hu]
  · obtain ⟨u, hu, rfl⟩ := map_eq_ok.mp h
    simp [Taken.behind, ← readChar_split hu]
  · obtain ⟨u, hu, rfl⟩ := map_eq_ok.mp h
    simp [Taken.behind, ← readNumber_split hu]
  · cases h
    simp
  · next ho => cases h; exact (readOperator?_split ho).1
  · cases h

/-- A token is not empty. -/
theorem readToken_lexeme_ne_nil {p : Position} {c : Char} {rest : List Char} {t : Taken Kind}
    (h : readToken p c rest = .ok t) : t.lexeme ≠ [] := by
  unfold readToken at h
  repeat' split at h
  · obtain ⟨u, hu, rfl⟩ := map_eq_ok.mp h
    simp [Taken.behind]
  · obtain ⟨u, hu, rfl⟩ := map_eq_ok.mp h
    simp [Taken.behind]
  · next hd =>
    obtain ⟨u, hu, rfl⟩ := map_eq_ok.mp h
    simpa [Taken.behind] using readNumber_lexeme_ne_nil hd hu
  · cases h
    simp
  · next ho => cases h; exact (readOperator?_split ho).2
  · cases h

theorem length_lt_of_readToken {p : Position} {c : Char} {rest : List Char} {t : Taken Kind}
    (h : readToken p c rest = .ok t) : t.rest.length < (c :: rest).length := by
  have hpos := List.length_pos_iff.mpr (readToken_lexeme_ne_nil h)
  rw [readToken_split h, List.length_append]
  omega

/-! ## Token streams -/

/-- The tokens of a text that starts at the given position, the last of which marks its end. -/
def tokensFrom (p : Position) (cs : List Char) : Except ScanError (List Token) :=
  match hg : skipGap .plain p cs with
  | .error e => .error e
  | .ok (q, []) => .ok [⟨.eof, "", q⟩]
  | .ok (q, c :: rest) =>
    match ht : readToken q c rest with
    | .error e => .error e
    | .ok t =>
      have : t.rest.length < cs.length :=
        Nat.lt_of_lt_of_le (length_lt_of_readToken ht) (skipGap_suffix hg).length_le
      (tokensFrom (q.after t.lexeme) t.rest).map (⟨t.value, String.ofList t.lexeme, q⟩ :: ·)
termination_by cs.length

/-- The tokens of a text. -/
def scan (source : String) : Except ScanError (List Token) :=
  tokensFrom Position.start source.toList

end Token

end StackLang
