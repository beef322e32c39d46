import StackLang.Proofs.Tree.Bare

/-!
# The grammar

What a program may look like, and how it is spelled.  A tree is grammatical if every node of it is
put together as the grammar says: assignments are looser than the six levels of binary operators,
these are looser than operators before an operand, and all else is tightest.  The levels of binary
operators are left-associative, so what stands to the right of an operator is tighter than it.

A tree is spelled by a list of pieces.  Most of them are tokens that the tree itself keeps, or any
token of a certain kind; only the length of an array may be left out, if it can be counted.

* `Expr.Grammatical`, `Stmt.Grammatical`, `Function.Grammatical` — the trees of the grammar.
* `Expr.spelling`, `Stmt.spelling`, `Function.spelling` — how they are spelled.
* `Spells` — tokens that spell out pieces.
-/

namespace StackLang

/-! ## Tokens -/

namespace Token.Kind

/-- The level of a binary operator; the loosest is first. -/
def level? : Kind → Option Nat
  | operator .or => some 1
  | operator .and => some 2
  | operator .eq | operator .ne => some 3
  | operator .lt | operator .le | operator .gt | operator .ge => some 4
  | operator .plus | operator .minus => some 5
  | operator .star | operator .slash | operator .percent => some 6
  | _ => none

/-- Whether the token is an operator that stands before any operand. -/
def isSign : Kind → Bool
  | operator .not | operator .minus | operator .plus => true
  | _ => false

/-- Whether the token counts a variable up or down. -/
def isCount : Kind → Bool
  | operator .increment | operator .decrement => true
  | _ => false

def isIdent : Kind → Bool
  | ident _ => true
  | _ => false

theorem isSign_iff {k : Kind} :
    k.isSign = true ↔ k = operator .not ∨ k = operator .minus ∨ k = operator .plus := by
  cases k with
  | operator op => cases op <;> decide
  | _ => simp [isSign]

theorem isCount_iff {k : Kind} :
    k.isCount = true ↔ k = operator .increment ∨ k = operator .decrement := by
  cases k with
  | operator op => cases op <;> decide
  | _ => simp [isCount]

end Token.Kind

namespace Token

/-- A token of the kind, with no text of its own. -/
def ofKind (k : Kind) : Token :=
  ⟨k, "", .start⟩

/-- The levels of the binary operators from the given one on. -/
def levelsFrom (k : Nat) : List (List Operator) :=
  binaryLevels.drop (k - 1)

/-- What the levels are is told by the level of each operator. -/
theorem levelsFrom_eq_cons {k : Nat} (hpos : 1 ≤ k) (hle : k ≤ 6) :
    ∃ ops, levelsFrom k = ops :: levelsFrom (k + 1) ∧
      ∀ t : Token, t.isOneOf ops = true ↔ t.kind.level? = some k := by
  have hlevels : ∀ ops, (∀ op, op ∈ ops ↔ (Kind.operator op).level? = some k) →
      ∀ t : Token, t.isOneOf ops = true ↔ t.kind.level? = some k := by
    intro ops hops t
    unfold isOneOf
    cases hk : t.kind with
    | operator op => simp only [List.contains_iff_mem, hops op]
    | _ => simp [Kind.level?]
  have hcases : k = 1 ∨ k = 2 ∨ k = 3 ∨ k = 4 ∨ k = 5 ∨ k = 6 := by omega
  rcases hcases with rfl | rfl | rfl | rfl | rfl | rfl
  all_goals exact ⟨_, rfl, hlevels _ fun op => by cases op <;> decide⟩

theorem isOneOf_counts (t : Token) :
    t.isOneOf [.increment, .decrement] = true ↔ t.kind.isCount = true := by
  unfold isOneOf
  cases t.kind with
  | operator op => cases op <;> decide
  | _ => simp [Kind.isCount]

theorem isOneOf_signs (t : Token) :
    t.isOneOf [.not, .minus, .plus] = true ↔ t.kind.isSign = true := by
  unfold isOneOf
  cases t.kind with
  | operator op => cases op <;> decide
  | _ => simp [Kind.isSign]

end Token

/-! ## Pieces -/

/-- A piece of the spelling of a program. -/
inductive Piece where
  /-- This very token. -/
  | token (t : Token)
  /-- Any token of the kind. -/
  | kind (k : Token.Kind)
  /-- The length of an array, which may be left out if `optional` holds. -/
  | length (n : Nat) (optional : Bool)

namespace Piece

def mark (m : Token.Punctuation) : Piece :=
  kind (.punctuation m)

def word (w : Token.Keyword) : Piece :=
  kind (.keyword w)

/-- The sign of an assignment or an initial value. -/
def equals : Piece :=
  kind (.operator .assign)

def type (t : ValueType) : Piece :=
  kind (.typeName t)

/-- Pieces with commas between them. -/
def commas : List (List Piece) → List Piece
  | [] => []
  | [ps] => ps
  | ps :: qs :: rest => ps ++ [mark .comma] ++ commas (qs :: rest)

end Piece

/-- The tokens spell out the pieces. -/
inductive Spells : List Piece → List Token → Prop where
  | nil : Spells [] []
  | token {t : Token} {ps : List Piece} {ts : List Token} (rest : Spells ps ts) :
    Spells (.token t :: ps) (t :: ts)
  | kind {k : Token.Kind} {t : Token} {ps : List Piece} {ts : List Token} (h : t.kind = k)
    (rest : Spells ps ts) : Spells (.kind k :: ps) (t :: ts)
  | length {n : Nat} {optional : Bool} {w : Word} {t : Token} {ps : List Piece} {ts : List Token}
    (h : t.kind = .literal (.int w)) (hn : w.toInt = n) (rest : Spells ps ts) :
    Spells (.length n optional :: ps) (t :: ts)
  | omitted {n : Nat} {ps : List Piece} {ts : List Token} (rest : Spells ps ts) :
    Spells (.length n true :: ps) ts

namespace Spells

variable {ps qs : List Piece} {ts us : List Token} {k : Token.Kind}

theorem append (h : Spells ps ts) (h' : Spells qs us) : Spells (ps ++ qs) (ts ++ us) := by
  induction h with
  | nil => exact h'
  | token _ ih => exact .token ih
  | kind hk _ ih => exact .kind hk ih
  | length hk hn _ ih => exact .length hk hn ih
  | omitted _ ih => exact .omitted ih

/-- The first token is of the kind that the first piece asks for. -/
theorem exists_head (h : Spells ps ts) (hk : ps.head? = some (.kind k)) :
    ∃ t us, ts = t :: us ∧ t.kind = k := by
  cases h with
  | nil | token _ => cases hk
  | kind h _ =>
    cases hk
    exact ⟨_, _, rfl, h⟩
  | length _ _ _ | omitted _ => cases hk

/-- Tokens that spell two lists of pieces can be split. -/
theorem split (h : Spells (ps ++ qs) ts) :
    ∃ us vs, ts = us ++ vs ∧ Spells ps us ∧ Spells qs vs := by
  induction ps generalizing ts with
  | nil => exact ⟨[], ts, rfl, .nil, h⟩
  | cons p ps ih =>
    cases h with
    | token rest =>
      obtain ⟨us, vs, rfl, hu, hv⟩ := ih rest
      exact ⟨_ :: us, vs, rfl, .token hu, hv⟩
    | kind hk rest =>
      obtain ⟨us, vs, rfl, hu, hv⟩ := ih rest
      exact ⟨_ :: us, vs, rfl, .kind hk hu, hv⟩
    | length hk hn rest =>
      obtain ⟨us, vs, rfl, hu, hv⟩ := ih rest
      exact ⟨_ :: us, vs, rfl, .length hk hn hu, hv⟩
    | omitted rest =>
      obtain ⟨us, vs, rfl, hu, hv⟩ := ih rest
      exact ⟨us, vs, rfl, .omitted hu, hv⟩

theorem eq_nil (h : Spells [] ts) : ts = [] := by
  cases h
  rfl

theorem exists_token {t : Token} (h : Spells (.token t :: ps) ts) :
    ∃ us, ts = t :: us ∧ Spells ps us := by
  cases h with
  | token rest => exact ⟨_, rfl, rest⟩

theorem exists_kind (h : Spells (.kind k :: ps) ts) :
    ∃ t us, ts = t :: us ∧ t.kind = k ∧ Spells ps us := by
  cases h with
  | kind hk rest => exact ⟨_, _, rfl, hk, rest⟩

/-- Pieces that end with a token of a certain kind. -/
theorem exists_last (h : Spells (ps ++ [.kind k]) ts) :
    ∃ us t, ts = us ++ [t] ∧ Spells ps us ∧ t.kind = k := by
  obtain ⟨us, vs, rfl, hus, hvs⟩ := h.split
  obtain ⟨t, ws, rfl, ht, hws⟩ := hvs.exists_kind
  rw [hws.eq_nil]
  exact ⟨us, t, rfl, hus, ht⟩

end Spells

/-! ## Expressions -/

namespace Expr

variable {shape : Shape (Expr Unit)}

mutual

/-- How an expression is spelled. -/
def spelling : Expr Unit → List Piece
  | .node _ (.binary l op r) => l.spelling ++ [.token op] ++ r.spelling
  | .node _ (.grouping e) => [.mark .lparen] ++ e.spelling ++ [.mark .rparen]
  | .node _ (.literal v) => [.kind (.literal v)]
  | .node _ (.unary op e false) => [.token op] ++ e.spelling
  | .node _ (.unary op e true) => e.spelling ++ [.token op]
  | .node _ (.name n) => [.token n]
  | .node _ (.assign n none v) => [.token n, .equals] ++ v.spelling
  | .node _ (.assign n (some i) v) =>
    [.token n, .mark .lbracket] ++ i.spelling ++ [.mark .rbracket, .equals] ++ v.spelling
  | .node _ (.call n args) =>
    [.token n, .mark .lparen] ++ Piece.commas (spellings args) ++ [.mark .rparen]
  | .node _ (.element n i) => [.token n, .mark .lbracket] ++ i.spelling ++ [.mark .rbracket]
  | .node _ (.braces es) => [.mark .lbrace] ++ Piece.commas (spellings es) ++ [.mark .rbrace]
  | .node _ (.random k e) => [.token k, .mark .lparen] ++ e.spelling ++ [.mark .rparen]

/-- How each of some expressions is spelled. -/
def spellings : List (Expr Unit) → List (List Piece)
  | [] => []
  | e :: es => e.spelling :: spellings es

end

theorem spellings_eq (es : List (Expr Unit)) : spellings es = es.map spelling := by
  induction es with
  | nil => rfl
  | cons e es ih => rw [spellings, ih, List.map_cons]

/-- How tight an expression is: an assignment is loosest, then come the levels of the binary
operators, then operators before an operand, then all else. -/
def level : Expr Unit → Nat
  | .node _ (.assign _ _ _) => 0
  | .node _ (.binary _ op _) => op.kind.level?.getD 0
  | .node _ (.unary _ _ false) => 7
  | _ => 8

/-- The node is put together as the grammar says. -/
def Shape.Grammatical : Shape (Expr Unit) → Prop
  | .binary l op r => ∃ k, op.kind.level? = some k ∧ k ≤ l.level ∧ k < r.level
  | .unary op e false =>
    op.kind.isSign = true ∧ 7 ≤ e.level ∨ op.kind.isCount = true ∧ e.isName = true
  | .unary op e true => op.kind.isCount = true ∧ e.isName = true
  | .name n | .assign n _ _ | .call n _ | .element n _ => n.kind.isIdent = true
  | .random k _ => k.kind = .keyword .randomWord
  | .grouping _ | .literal _ | .braces _ => True

/-- The expression is one of the grammar. -/
def Grammatical (e : Expr Unit) : Prop :=
  e.All fun _ shape => shape.Grammatical

theorem grammatical_node_iff {u : Unit} :
    (node u shape).Grammatical ↔ shape.Grammatical ∧ ∀ e ∈ shape.children, e.Grammatical :=
  ⟨fun h => ⟨h.root, h.child⟩, fun h => .node h.1 h.2⟩

theorem Shape.Grammatical.operandFits (h : shape.Grammatical) : shape.OperandFits := by
  cases shape with
  | unary op e trailing =>
    cases trailing with
    | false =>
      exact h.imp (fun hs => Token.Kind.isSign_iff.mp hs.1)
        fun hc => ⟨Token.Kind.isCount_iff.mp hc.1, hc.2⟩
    | true => exact .inr ⟨Token.Kind.isCount_iff.mp h.1, h.2⟩
  | _ => trivial

theorem Grammatical.formed {e : Expr Unit} (h : e.Grammatical) : e.Formed :=
  h.imp fun _ _ _ _ hs => hs.operandFits

/-- The expression begins with a list in braces. -/
def BeginsWithBrace (e : Expr Unit) : Prop :=
  e.spelling.head? = some (.mark .lbrace)

end Expr

/-! ## Statements -/

namespace Stmt

variable {shape : Shape (Stmt Unit) (Expr Unit)}

/-- How an optional expression is spelled. -/
def spellingValue : Option (Expr Unit) → List Piece
  | some e => e.spelling
  | none => []

/-- How a condition is spelled. -/
def spellingCondition (c : Expr Unit) : List Piece :=
  [.mark .lparen] ++ c.spelling ++ [.mark .rparen]

/-- How the initial value of a variable is spelled. -/
def spellingInit : Option (Expr Unit) → List Piece
  | some e => [.equals] ++ e.spelling
  | none => []

/-- Whether the length of an array can be told from its initial value. -/
def canCount (length : Nat) : Option (Expr Unit) → Bool
  | some (.node _ (.braces es)) => es.length = length
  | _ => false

mutual

/-- How a statement is spelled. -/
def spelling : Stmt Unit → List Piece
  | .node _ (.block body) => [.mark .lbrace] ++ spellingList body ++ [.mark .rbrace]
  | .node _ (.ret k v) => [.token k] ++ spellingValue v ++ [.mark .semicolon]
  | .node _ (.expression e) => e.spelling ++ [.mark .semicolon]
  | .node _ (.choice branches otherwise) => spellingArms branches ++ spellingElse otherwise
  | .node _ (.whileLoop c body) => [.word .whileWord] ++ spellingCondition c ++ body.spelling
  | .node _ (.forLoop init c u body) =>
    [.word .forWord, .mark .lparen] ++ spellingFirst init ++ spellingValue c ++
      [.mark .semicolon] ++ spellingValue u ++ [.mark .rparen] ++ body.spelling
  | .node _ (.output k vs) =>
    [.token k, .mark .lparen] ++ Piece.commas (vs.map Expr.spelling) ++
      [.mark .rparen, .mark .semicolon]
  | .node _ (.input n) =>
    [.word .inputWord, .mark .lparen, .token n, .mark .rparen, .mark .semicolon]
  | .node _ (.var n type init) =>
    [.type type, .token n] ++ spellingInit init ++ [.mark .semicolon]
  | .node _ (.array n type length init) =>
    [.type type, .token n, .mark .lbracket, .length length (canCount length init),
      .mark .rbracket] ++ spellingInit init ++ [.mark .semicolon]
  | .node _ (.stop k) | .node _ (.skip k) => [.token k, .mark .semicolon]

/-- How statements are spelled, one after the other. -/
def spellingList : List (Stmt Unit) → List Piece
  | [] => []
  | s :: ss => s.spelling ++ spellingList ss

/-- How conditions and their blocks are spelled. -/
def spellingArms : List (Expr Unit × Stmt Unit) → List Piece
  | [] => []
  | (c, s) :: rest =>
    [.word .ifWord] ++ spellingCondition c ++ s.spelling ++
      match rest with
      | [] => []
      | b :: rest => [.word .elseWord] ++ spellingArms (b :: rest)

/-- How the last block of a choice is spelled. -/
def spellingElse : Option (Stmt Unit) → List Piece
  | none => []
  | some s => [.word .elseWord] ++ s.spelling

/-- How the first clause of a counting loop is spelled. -/
def spellingFirst : Option (Stmt Unit) → List Piece
  | none => [.mark .semicolon]
  | some s => s.spelling

end

def isBlock : Stmt Unit → Bool
  | .node _ (.block _) => true
  | _ => false

/-- The statement is an expression that begins with a brace, which would be read as a block. -/
def BeginsWithBrace : Stmt Unit → Prop
  | .node _ (.expression e) => e.BeginsWithBrace
  | _ => False

theorem BeginsWithBrace.head? {s : Stmt Unit} (h : s.BeginsWithBrace) :
    s.spelling.head? = some (.mark .lbrace) := by
  unfold BeginsWithBrace at h
  split at h
  · rw [spelling, List.head?_append, h, Option.some_or]
  · cases h

/-- The node is put together as the grammar says. -/
def Shape.Grammatical : Shape (Stmt Unit) (Expr Unit) → Prop
  -- only in a block is a brace taken for a block; the first clause of a loop may begin with one
  | .block body => ∀ s ∈ body, ¬s.BeginsWithBrace
  | .ret k _ => k.kind = .keyword .returnWord
  | .expression _ => True
  | .choice branches otherwise =>
    branches ≠ [] ∧ (∀ b ∈ branches, b.2.isBlock = true) ∧ ∀ s ∈ otherwise, s.isBlock = true
  | .whileLoop _ body => body.isBlock = true
  | .forLoop init _ _ body => (∀ s ∈ init, s.isSimple = true) ∧ body.isBlock = true
  | .output k _ => k.kind = .keyword .printWord
  | .input n => n.kind.isIdent = true
  | .var n type _ => n.kind.isIdent = true ∧ type ≠ .void
  -- the initial value may be any expression: that it is a list in braces is a matter of types
  | .array n type length _ => n.kind.isIdent = true ∧ type ≠ .void ∧ 0 < length
  | .stop k => k.kind = .keyword .breakWord
  | .skip k => k.kind = .keyword .continueWord

/-- The statement is one of the grammar. -/
def Grammatical (s : Stmt Unit) : Prop :=
  s.All fun _ shape => shape.Grammatical ∧ ∀ e ∈ shape.exprs, e.Grammatical

theorem grammatical_node_iff {u : Unit} :
    (node u shape).Grammatical ↔ shape.Grammatical ∧ (∀ e ∈ shape.exprs, e.Grammatical) ∧
      ∀ s ∈ shape.children, s.Grammatical :=
  ⟨fun h => ⟨h.root.1, h.root.2, h.child⟩, fun h => .node ⟨h.1, h.2.1⟩ h.2.2⟩

theorem Shape.Grammatical.partsFit (h : shape.Grammatical) : shape.PartsFit := by
  cases shape with
  | forLoop init c u body =>
    cases init with
    | none => trivial
    | some s => exact h.1 s rfl
  | var n type init => exact h.2
  | array n type length init => exact h.2.1
  | _ => trivial

theorem Grammatical.formed {s : Stmt Unit} (h : s.Grammatical) : s.Formed :=
  h.imp fun _ _ _ hs => ⟨hs.1.partsFit, fun e he => (hs.2 e he).formed⟩

end Stmt

/-! ## Functions -/

/-- How a parameter is spelled. -/
def Param.spelling (p : Param) : List Piece :=
  [.type p.type, .token p.name]

namespace Function

/-- How a function is spelled. -/
def spelling (f : Function (Stmt Unit)) : List Piece :=
  [.type f.returnType, .token f.name, .mark .lparen] ++
    Piece.commas (f.params.map Param.spelling) ++ [.mark .rparen] ++ f.body.spelling

/-- The function is one of the grammar. -/
structure Grammatical (f : Function (Stmt Unit)) : Prop where
  name : f.name.kind.isIdent = true
  params : ∀ p ∈ f.params, p.name.kind.isIdent = true ∧ p.type ≠ .void
  isBlock : f.body.isBlock = true
  body : f.body.Grammatical

/-- A tree that is one of the grammar without its tags is formed. -/
theorem Grammatical.formed {τ : Type} {f : Function (Stmt τ)} (h : f.bare.Grammatical) : f.Formed :=
  ⟨f.body.formed_bare_iff.mp h.body.formed, fun p hp => (h.params p hp).2⟩

end Function

end StackLang
