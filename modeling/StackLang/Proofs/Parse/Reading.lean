import Mathlib.Data.Nat.Init
import StackLang.Proofs.Parse.Recursion

/-!
# Expressions are read back

A parser that is given the spelling of an expression of the grammar takes just these tokens and
reads the expression, if what follows cannot continue it.  What can continue an expression is told
by the level of the next token: an operand of some level ends where a looser token, or one that
joins nothing, comes.

* `Parse.Reads` — a parser takes just the given tokens.
* `Parse.Legible` — what is read from the spelling of an expression at each level.
* `Parse.expression_reads` — expressions are read back.
-/

namespace StackLang

variable {m : Token.Punctuation} {place : Place} {n : Token} {k : Kind} {i : Nat}

namespace Parse

variable {k : Token.Kind} {p : Token → Bool} {item : Expected}

variable {α β : Type} {x : Parse α} {P : α → Prop} {Q : β → Prop}
variable {S S' : List Token → Prop} {t : Token} {ts us vs : List Token}

/-! ## Tokens that are read -/

/-- If what follows satisfies `S`, the parser takes just the tokens and reads something that
satisfies `P`. -/
def Reads (x : Parse α) (ts : List Token) (S : List Token → Prop) (P : α → Prop) : Prop :=
  ∀ rest last, S rest → ∃ a last', x ⟨ts ++ rest, last⟩ = .ok (a, ⟨rest, last'⟩) ∧ P a

theorem Reads.pure {a : α} (h : P a) : Reads (pure a) [] S P :=
  fun _ last _ => ⟨a, last, rfl, h⟩

theorem Reads.mono (hx : Reads x ts S P) (hS : ∀ rest, S' rest → S rest) : Reads x ts S' P :=
  fun rest last h => hx rest last (hS rest h)

theorem Reads.bind {f : α → Parse β} (hx : Reads x us S' P)
    (hS : ∀ rest, S rest → S' (vs ++ rest)) (hf : ∀ a, P a → Reads (f a) vs S Q) :
    Reads (x >>= f) (us ++ vs) S Q := by
  intro rest last h
  obtain ⟨a, last₁, ha, hP⟩ := hx (vs ++ rest) last (hS rest h)
  obtain ⟨b, last₂, hb, hQ⟩ := hf a hP rest last₁ h
  refine ⟨b, last₂, ?_, hQ⟩
  rw [List.append_assoc]
  simp only [Bind.bind, StateT.bind, Except.bind, ha, hb]

/-- A parser that only looks at the cursor. -/
theorem Reads.look {f : α → Parse β} {g : Cursor → α} (hx : ∀ c, x c = .ok (g c, c))
    (hf : ∀ (c : Cursor) rest, S rest → c.rest = ts ++ rest → Reads (f (g c)) ts S Q) :
    Reads (x >>= f) ts S Q := by
  intro rest last h
  obtain ⟨b, last', hb, hQ⟩ := hf ⟨ts ++ rest, last⟩ rest h rfl rest last h
  refine ⟨b, last', ?_, hQ⟩
  simp only [Bind.bind, StateT.bind, Except.bind, hx, hb]

theorem Reads.get {f : Cursor → Parse β}
    (hf : ∀ (c : Cursor) rest, S rest → c.rest = ts ++ rest → Reads (f c) ts S Q) :
    Reads (get >>= f) ts S Q :=
  Reads.look (fun _ => rfl) hf

theorem Reads.line {f : Line → Parse β} (hf : ∀ l, Reads (f l) ts S Q) :
    Reads (line >>= f) ts S Q :=
  Reads.look (fun _ => rfl) fun _ _ _ _ => hf _

theorem Reads.peek {f : Bool → Parse β} {b : Bool}
    (hb : ∀ rest, S rest → ((ts ++ rest).head?.map Token.kind = some k ↔ b = true))
    (hf : Reads (f b) ts S Q) : Reads (peek k >>= f) ts S Q := by
  refine Reads.look (fun _ => rfl) fun c rest hrest hc => ?_
  have hat : c.isAt k = b := by
    rw [Bool.eq_iff_iff, ← hb rest hrest, ← hc]
    simp [Cursor.isAt, Cursor.kind?]
  rw [hat]
  exact hf

theorem Reads.takeIf_some {f : Option Token → Parse β} (ht : p t = true)
    (hf : Reads (f (some t)) ts S Q) : Reads (takeIf p >>= f) (t :: ts) S Q := by
  have htake : Reads (takeIf p) [t] (fun _ => True) fun o => o = some t := by
    intro rest last _
    refine ⟨some t, some t, ?_, rfl⟩
    simp [Parse.takeIf, ht]
  refine htake.bind (fun _ _ => trivial) fun o ho => ?_
  rw [ho]
  exact hf

theorem Reads.takeIf_none {f : Option Token → Parse β}
    (hp : ∀ rest, S rest → ∀ t, (ts ++ rest).head? = some t → p t = false)
    (hf : Reads (f none) ts S Q) : Reads (takeIf p >>= f) ts S Q := by
  intro rest last h
  obtain ⟨b, last', hb, hQ⟩ := hf rest last h
  refine ⟨b, last', ?_, hQ⟩
  have htake : takeIf p ⟨ts ++ rest, last⟩ = .ok (none, ⟨ts ++ rest, last⟩) := by
    unfold takeIf
    simp only
    split
    · rename_i t rest' heq
      rw [hp rest h t (by rw [heq, List.head?_cons])]
      simp
    · rfl
  simp only [Bind.bind, StateT.bind, Except.bind, htake, hb]

theorem Reads.accept_some {f : Option Token → Parse β} (ht : t.kind = k)
    (hf : Reads (f (some t)) ts S Q) : Reads (accept k >>= f) (t :: ts) S Q :=
  Reads.takeIf_some (decide_eq_true ht) hf

theorem Reads.accept_none {f : Option Token → Parse β}
    (hk : ∀ rest, S rest → ∀ t, (ts ++ rest).head? = some t → t.kind ≠ k)
    (hf : Reads (f none) ts S Q) : Reads (accept k >>= f) ts S Q :=
  Reads.takeIf_none (fun rest h t ht => decide_eq_false (hk rest h t ht)) hf

theorem Reads.require {f : Token → Parse β} (ht : p t = true) (hf : Reads (f t) ts S Q) :
    Reads (require p item >>= f) (t :: ts) S Q := by
  unfold Parse.require
  rw [bind_assoc]
  exact Reads.takeIf_some ht hf

theorem Reads.mark {f : Token → Parse β} (ht : t.kind = .punctuation m) (hf : Reads (f t) ts S Q) :
    Reads (mark m place >>= f) (t :: ts) S Q :=
  Reads.require (decide_eq_true ht) hf

theorem Reads.ident {f : Token → Parse β} (ht : t.kind.isIdent = true) (hf : Reads (f t) ts S Q) :
    Reads (ident item >>= f) (t :: ts) S Q := by
  refine Reads.require ?_ hf
  cases hk : t.kind with
  | ident n => rfl
  | _ =>
    rw [hk] at ht
    cases ht

theorem Reads.typeName {type : ValueType} {f : ValueType → Parse β} (ht : t.kind = .typeName type)
    (hf : Reads (f type) ts S Q) : Reads (typeName item >>= f) (t :: ts) S Q := by
  unfold Parse.typeName
  rw [bind_assoc]
  refine Reads.require ?_ ?_
  · rw [ht]
    rfl
  · rw [ht]
    exact hf

/-! ## Lists -/

/-- The next token is the given mark. -/
def Before (m : Token.Punctuation) (rest : List Token) : Prop :=
  ∃ t us, rest = t :: us ∧ t.kind = .punctuation m

section

variable {γ : Type} {f : α → γ} {spell : γ → List Piece} {item : Parse α}
  {close : Token.Punctuation}

/-- Each of the items is read back between commas, and begins with something other than the closing
mark. -/
structure ItemReads (f : α → γ) (spell : γ → List Piece) (item : Parse α)
    (close : Token.Punctuation) (b : γ) : Prop where
  reads : ∀ ts, Spells (spell b) ts →
    Reads item ts (fun rest => Before .comma rest ∨ Before close rest) fun a => f a = b
  begins : ∀ ts, Spells (spell b) ts → ∃ t us, ts = t :: us ∧ t.kind ≠ .punctuation close

theorem commaSeparated_reads (hclose : close ≠ .comma) (hmoves : ∀ n, Alike n true item item)
    {b : γ} {bs : List γ} (hitems : ∀ b' ∈ b :: bs, ItemReads f spell item close b')
    (hts : Spells (Piece.commas ((b :: bs).map spell)) ts) :
    Reads (fuelled (fun n (_ : Unit) => commaSeparated item n) ()) ts (Before close)
      fun as => as.map f = b :: bs := by
  have heq := (commaSeparated_loops hmoves).eq ()
  induction bs generalizing b ts with
  | nil =>
    have hfirst : Reads item ts (Before close) fun a => f a = b :=
      ((hitems b (by simp)).reads ts hts).mono fun rest h => .inr h
    rw [heq, ← List.append_nil ts]
    refine hfirst.bind (fun rest h => h) fun a ha => ?_
    -- The closing mark follows, and that is no comma.
    refine Reads.accept_none ?_ (.pure (by simp [ha]))
    rintro rest ⟨t, us, rfl, ht⟩ t' ht'
    cases ht'
    rw [ht]
    simpa using hclose
  | cons b' bs ih =>
    rw [List.map_cons, List.map_cons, Piece.commas, List.append_assoc] at hts
    obtain ⟨us, vs, rfl, hus, hvs⟩ := hts.split
    obtain ⟨t, vs, rfl, ht, hvs⟩ := Spells.exists_kind hvs
    rw [heq]
    refine ((hitems b (by simp)).reads us hus).bind (fun rest _ => .inl ⟨t, _, rfl, ht⟩)
      fun a ha => Reads.accept_some ht ?_
    rw [← List.append_nil vs]
    refine (ih (fun b hb => hitems b (by simp [hb])) hvs).bind (fun rest h => h)
      fun as has => .pure ?_
    simp [ha, has]

theorem itemsBefore_reads (hclose : close ≠ .comma) (hmoves : ∀ n, Alike n true item item)
    {bs : List γ} (hitems : ∀ b ∈ bs, ItemReads f spell item close b)
    (hts : Spells (Piece.commas (bs.map spell)) ts) :
    Reads (itemsBefore close item) ts (Before close) fun as => as.map f = bs := by
  unfold itemsBefore
  cases bs with
  | nil =>
    cases hts
    refine Reads.peek (b := true) ?_ (.pure rfl)
    rintro rest ⟨t, us, rfl, ht⟩
    simp [ht]
  | cons b bs =>
    have hbegins : ∃ t us, ts = t :: us ∧ t.kind ≠ .punctuation close := by
      have hfirst : ∃ ps, Piece.commas ((b :: bs).map spell) = spell b ++ ps := by
        cases bs with
        | nil => exact ⟨[], (List.append_nil _).symm⟩
        | cons b' bs => exact ⟨_, List.append_assoc _ _ _⟩
      obtain ⟨ps, hps⟩ := hfirst
      rw [hps] at hts
      obtain ⟨us, vs, rfl, hus, -⟩ := hts.split
      obtain ⟨t, us, rfl, ht⟩ := (hitems b (by simp)).begins us hus
      exact ⟨t, us ++ vs, rfl, ht⟩
    obtain ⟨t, us, rfl, ht⟩ := hbegins
    refine Reads.peek (b := false) (fun rest _ => by simpa using ht) ?_
    exact commaSeparated_reads hclose hmoves hitems hts

end

end Parse

/-! ## First tokens of expressions -/

namespace Token.Kind

/-- Whether a primary expression can begin with the token. -/
def startsPrimary : Kind → Bool
  | literal _ | ident _ | keyword .randomWord | punctuation .lparen | punctuation .lbrace => true
  | _ => false

/-- Whether an expression can begin with the token. -/
def startsExpr (k : Kind) : Bool :=
  k.startsPrimary || k.isSign || k.isCount

end Token.Kind

/-- An expression can begin with the piece; one that begins with a brace has the brace as its piece,
and not as a token that it keeps. -/
def Piece.StartsExpr : Piece → Prop
  | .token t => t.kind.startsExpr = true ∧ t.kind ≠ .punctuation .lbrace
  | .kind k => k.startsExpr = true
  | .length _ _ => False

theorem Piece.startsExpr_ident (h : n.kind.isIdent = true) : (Piece.token n).StartsExpr := by
  cases hk : n.kind with
  | ident name => simp [StartsExpr, hk, Token.Kind.startsExpr, Token.Kind.startsPrimary]
  | _ =>
    rw [hk] at h
    cases h

theorem Piece.startsExpr_operator {op : Token}
    (h : op.kind.isSign = true ∨ op.kind.isCount = true) : (Piece.token op).StartsExpr := by
  refine ⟨by rcases h with h | h <;> simp [Token.Kind.startsExpr, h], fun hbrace => ?_⟩
  rw [hbrace] at h
  rcases h with h | h <;> cases h

namespace Expr

variable {e : Expr Unit}

/-- A name is all that a name is spelled with. -/
theorem exists_name (h : e.isName = true) : ∃ n, e = .node () (.name n) := by
  unfold isName at h
  split at h
  · exact ⟨_, rfl⟩
  · cases h

theorem exists_spelling_head (e : Expr Unit) (hg : e.Grammatical) :
    ∃ p ps, e.spelling = p :: ps ∧ p.StartsExpr := by
  induction e using Expr.induction with
  | step u shape ih =>
    have hroot := hg.root
    cases shape with
    | binary l op r =>
      obtain ⟨p, ps, hps, hp⟩ := ih l (by simp) (hg.child l (by simp))
      refine ⟨p, ps ++ [.token op] ++ r.spelling, ?_, hp⟩
      rw [spelling, hps]
      rfl
    | unary op e trailing =>
      cases trailing with
      | false =>
        rw [spelling]
        refine ⟨_, _, rfl, Piece.startsExpr_operator ?_⟩
        exact hroot.imp And.left And.left
      | true =>
        obtain ⟨n, rfl⟩ := exists_name hroot.2
        have hn := (hg.child _ (List.mem_singleton.mpr rfl)).root
        rw [spelling, spelling]
        exact ⟨_, _, rfl, Piece.startsExpr_ident hn⟩
    | grouping e | literal v =>
      rw [spelling]
      exact ⟨_, _, rfl, rfl⟩
    | name n =>
      rw [spelling]
      exact ⟨_, _, rfl, Piece.startsExpr_ident hroot⟩
    | assign n i v =>
      cases i with
      | none | some i =>
        rw [spelling]
        exact ⟨_, _, rfl, Piece.startsExpr_ident hroot⟩
    | call n args | element n i =>
      rw [spelling]
      exact ⟨_, _, rfl, Piece.startsExpr_ident hroot⟩
    | braces es =>
      rw [spelling]
      exact ⟨_, _, rfl, rfl⟩
    | random k e =>
      have hk : k.kind = .keyword .randomWord := hroot
      rw [spelling]
      exact ⟨_, _, rfl,
        by simp [Piece.StartsExpr, hk, Token.Kind.startsExpr, Token.Kind.startsPrimary]⟩

/-- The first token of an expression.  It is a brace only if the expression begins with one. -/
theorem exists_head (hg : e.Grammatical) {ts : List Token} (hts : Spells e.spelling ts) :
    ∃ t us, ts = t :: us ∧ t.kind.startsExpr = true ∧
      (t.kind = .punctuation .lbrace → e.BeginsWithBrace) := by
  obtain ⟨p, ps, hps, hp⟩ := exists_spelling_head e hg
  rw [hps] at hts
  cases hts with
  | token _ => exact ⟨_, _, rfl, hp.1, fun h => absurd h hp.2⟩
  | kind hk _ =>
    subst hk
    refine ⟨_, _, rfl, hp, fun h => ?_⟩
    rw [BeginsWithBrace, hps, List.head?_cons, h]
    rfl
  | length _ _ _ | omitted _ => cases hp

end Expr

/-! ## What ends an expression -/

/-- The level at which a token continues an expression that has been read. -/
def Token.Kind.joins : Kind → Option Nat
  | operator .assign => some 0
  | operator .increment | operator .decrement => some 8
  | punctuation .lparen | punctuation .lbracket => some 8
  | k => k.level?

theorem Token.Kind.joins_of_level? (h : k.level? = some i) : k.joins = some i := by
  cases k with
  | operator op => cases op <;> simp_all [joins, level?]
  | _ => simp [level?] at h

theorem Token.Kind.joins_of_isCount (h : k.isCount = true) : k.joins = some 8 := by
  cases k with
  | operator op => cases op <;> simp_all [joins, isCount]
  | _ => simp [isCount] at h

theorem Token.Kind.level?_bounds (h : k.level? = some i) : 1 ≤ i ∧ i ≤ 6 := by
  cases k with
  | operator op => cases op <;> simp_all [level?] <;> omega
  | _ => simp [level?] at h

namespace Parse

variable {α β : Type} {P : α → Prop} {t op : Token} {ts us vs rest : List Token} {j k : Nat}
  {kind : Token.Kind} {sub : Parse (Expr Line)} {S : List Token → Prop} {a : Expr Line}

/-- What follows does not continue an expression of the level. -/
def Stops (k : Nat) (rest : List Token) : Prop :=
  ∀ t, rest.head? = some t → ∀ i, t.kind.joins = some i → i < k

theorem Stops.mono (h : Stops j rest) (hjk : j ≤ k) : Stops k rest :=
  fun t ht i hi => Nat.lt_of_lt_of_le (h t ht i hi) hjk

theorem stops_cons (h : ∀ i, t.kind.joins = some i → i < k) : Stops k (t :: rest) := by
  intro t' ht'
  cases ht'
  exact h

theorem Stops.ne_kind (h : Stops j rest) (hi : kind.joins = some i) (hji : j ≤ i)
    (ht : rest.head? = some t) : t.kind ≠ kind := by
  rintro rfl
  exact absurd (h t ht i hi) (Nat.not_lt.mpr hji)

theorem stops_of_before (hm : (Token.Kind.punctuation m).joins = none) (h : Before m rest) :
    Stops k rest := by
  obtain ⟨t, us, rfl, ht⟩ := h
  refine stops_cons fun i hi => ?_
  rw [ht, hm] at hi
  cases hi

/-! ## Levels -/

theorem level_eq_chain {ops : List Token.Operator} (hk : 1 ≤ k)
    (hlevels : Token.levelsFrom k = ops :: Token.levelsFrom (k + 1)) :
    level k = level (k + 1) >>= fuelled (chain (level (k + 1)) ops) := by
  obtain ⟨k, rfl⟩ : ∃ j, k = j + 1 := ⟨k - 1, by omega⟩
  rw [level_eq, levelRound, hlevels]
  rfl

/-- Where the operand of the level is followed by something of the level itself or looser, the
parser has read the expression and goes on with the chain of the level. -/
def Chains (k : Nat) (ops : List Token.Operator) (ts : List Token) (e : Expr Unit) : Prop :=
  ∀ rest last, Stops (k + 1) rest → ∃ a last',
    level k ⟨ts ++ rest, last⟩ = fuelled (chain (level (k + 1)) ops) a ⟨rest, last'⟩ ∧ a.bare = e

variable {ops : List Token.Operator} {e : Expr Unit}

theorem chains_of_operand (hk : 1 ≤ k)
    (hlevels : Token.levelsFrom k = ops :: Token.levelsFrom (k + 1))
    (h : Reads (level (k + 1)) ts (Stops (k + 1)) fun a => a.bare = e) : Chains k ops ts e := by
  intro rest last hrest
  obtain ⟨a, last', ha, hbare⟩ := h rest last hrest
  refine ⟨a, last', ?_, hbare⟩
  rw [level_eq_chain hk hlevels]
  simp only [bind, StateT.bind, Except.bind, ha]

/-- A chain ends where no operator of its level comes. -/
theorem operand_of_chains (hops : ∀ t : Token, t.isOneOf ops = true ↔ t.kind.level? = some k)
    (h : Chains k ops ts e) : Reads (level k) ts (Stops k) fun a => a.bare = e := by
  have hend : ∀ a, Reads (fuelled (chain (level (k + 1)) ops) a) [] (Stops k) fun b => b = a := by
    intro a
    rw [(chain_loops ops fun _ => level_alike).eq]
    refine Reads.takeIf_none (fun rest hrest t ht => ?_) (.pure rfl)
    rw [Bool.eq_false_iff, ne_eq, hops]
    exact fun hk => hrest.ne_kind (Token.Kind.joins_of_level? hk) (Nat.le_refl k) ht rfl
  intro rest last hrest
  obtain ⟨a, last', ha, hbare⟩ := h rest last (hrest.mono (Nat.le_succ k))
  obtain ⟨b, last'', hb, rfl⟩ := hend a rest last' hrest
  exact ⟨b, last'', ha.trans hb, hbare⟩

/-- One more operator of the level, and its right operand. -/
theorem chains_binary {l r : Expr Unit}
    (hops : ∀ t : Token, t.isOneOf ops = true ↔ t.kind.level? = some k)
    (hop : op.kind.level? = some k) (hl : Chains k ops us l)
    (hr : Reads (level (k + 1)) vs (Stops (k + 1)) fun a => a.bare = r) :
    Chains k ops (us ++ op :: vs) (.node () (.binary l op r)) := by
  intro rest last hrest
  -- The operator does not join the left operand, as it is looser than all that does.
  have hstop : Stops (k + 1) (op :: (vs ++ rest)) := by
    refine stops_cons fun i hi => ?_
    rw [Token.Kind.joins_of_level? hop] at hi
    cases hi
    exact Nat.lt_succ_self k
  obtain ⟨a, last₁, ha, hal⟩ := hl _ last hstop
  obtain ⟨b, last₂, hb, hbr⟩ := hr rest (some op) hrest
  refine ⟨.node op.line (.binary a op b), last₂, ?_, ?_⟩
  · rw [List.append_assoc, List.cons_append, ha, (chain_loops ops fun _ => level_alike).eq]
    simp only [joined, bind, StateT.bind, Except.bind, takeIf, (hops op).mpr hop, if_true, hb]
  · rw [Expr.bare_node, Expr.Shape.map, hal, hbr]

theorem operand_of_le (h : Reads (level j) ts (Stops j) fun a => a.bare = e) (hj : j ≤ 7)
    (hk : 1 ≤ k) (hkj : k ≤ j) : Reads (level k) ts (Stops k) fun a => a.bare = e := by
  -- From the level of the operand down to the loosest: each level passes on what the next one
  -- reads.
  induction hkj using Nat.decreasingInduction with
  | self => exact h
  | of_succ k hkj ih =>
    obtain ⟨ops, hlevels, hops⟩ := Token.levelsFrom_eq_cons hk (by omega)
    exact operand_of_chains hops (chains_of_operand hk hlevels (ih (by omega)))

/-- What is read from the spelling of an expression, at each of the levels that it belongs to. -/
structure Legible (e : Expr Unit) (ts : List Token) : Prop where
  operand : ∀ k, 1 ≤ k → k ≤ 7 → k ≤ e.level → Reads (level k) ts (Stops k) fun a => a.bare = e
  chains : ∀ k ops, 1 ≤ k → k ≤ 6 → k ≤ e.level →
    Token.levelsFrom k = ops :: Token.levelsFrom (k + 1) → Chains k ops ts e
  expression : Reads expression ts (Stops 0) fun a => a.bare = e

/-- An operand that no sign of an assignment follows is an expression. -/
theorem expression_of_operand (h : Reads (level 1) ts (Stops 1) fun a => a.bare = e) :
    Reads expression ts (Stops 0) fun a => a.bare = e := by
  rw [show expression = levelRound level 0 from level_eq 0, ← List.append_nil ts]
  refine Reads.bind h (fun rest hrest => hrest.mono (Nat.zero_le 1)) fun a ha => ?_
  exact Reads.accept_none (fun rest hrest t ht => hrest.ne_kind rfl (Nat.le_refl 0) ht) (.pure ha)

/-- It is enough to know how the expression is read at its own level. -/
theorem legible_of_operand (hj : 1 ≤ j) (hj' : j ≤ 7)
    (hlevel : e.level = j ∨ 7 ≤ e.level ∧ j = 7)
    (h : Reads (level j) ts (Stops j) fun a => a.bare = e)
    (hc : ∀ ops, j ≤ 6 → Token.levelsFrom j = ops :: Token.levelsFrom (j + 1) → Chains j ops ts e) :
    Legible e ts where
  operand k hk hk' hke := operand_of_le h hj' hk (by omega)
  chains k ops hk hk' hke hlevels := by
    by_cases hkj : k = j
    · subst hkj
      exact hc ops hk' hlevels
    · exact chains_of_operand hk hlevels (operand_of_le h hj' (by omega) (by omega))
  expression := expression_of_operand (operand_of_le h hj' (Nat.le_refl 1) hj)

theorem legible_of_unary (hlevel : 7 ≤ e.level)
    (h : Reads (unaryOver (level 7) expression) ts (Stops 7) fun a => a.bare = e) :
    Legible e ts := by
  rw [show unaryOver (level 7) expression = level 7 from (level_eq 7).symm] at h
  exact legible_of_operand (by decide) (Nat.le_refl 7) (.inr ⟨hlevel, rfl⟩) h fun ops h => by omega

/-! ## Primary expressions -/

theorem startsPrimary_eq (h : kind.startsPrimary = true) :
    kind.isSign = false ∧ kind.isCount = false ∧ kind ≠ .eof := by
  cases kind with
  | operator op => cases h
  | eof => cases h
  | _ => exact ⟨rfl, rfl, Token.Kind.noConfusion⟩

/-- An expression that begins like a primary one is read as one, with what may trail it. -/
theorem legible_of_trailing (hlevel : e.level = 8) (ht : t.kind.startsPrimary = true)
    (h : Reads (trailing expression) (t :: ts) (Stops 7) fun a => a.bare = e) :
    Legible e (t :: ts) := by
  obtain ⟨hsign, hcount, heof⟩ := startsPrimary_eq ht
  refine legible_of_unary (by omega) ?_
  refine Reads.takeIf_none (fun rest _ t' ht' => ?_)
    (Reads.takeIf_none (fun rest _ t' ht' => ?_) h)
  · cases ht'
    rwa [Bool.eq_false_iff, ne_eq, Token.isOneOf_signs, Bool.not_eq_true]
  · cases ht'
    rwa [Bool.eq_false_iff, ne_eq, Token.isOneOf_counts, Bool.not_eq_true]

/-- A primary expression, which is told by its first token. -/
theorem legible_primary (hlevel : e.level = 8) (ht : t.kind.startsPrimary = true)
    (h : Reads (primaryFrom expression t) ts (Stops 7) fun a => a.bare = e) :
    Legible e (t :: ts) := by
  refine legible_of_trailing hlevel ht ?_
  have hprimary : Reads (primary expression) (t :: ts) (Stops 7) fun a => a.bare = e :=
    Reads.takeIf_some (decide_eq_true (startsPrimary_eq ht).2.2) h
  rw [trailing, ← List.append_nil (t :: ts)]
  refine hprimary.bind (fun rest hrest => hrest) fun a ha => ?_
  split
  · refine Reads.takeIf_none (fun rest hrest t' ht' => ?_) (.pure ha)
    rw [Bool.eq_false_iff, ne_eq, Token.isOneOf_counts]
    exact fun hc => hrest.ne_kind (Token.Kind.joins_of_isCount hc) (by decide) ht' rfl
  · exact .pure ha

theorem startsPrimary_ident (h : n.kind.isIdent = true) : n.kind.startsPrimary = true := by
  cases hk : n.kind with
  | ident name => rfl
  | _ =>
    rw [hk] at h
    cases h

/-- What is read behind a name is what the name begins. -/
theorem primaryFrom_ident (h : n.kind.isIdent = true) : primaryFrom sub n = afterName sub n := by
  unfold primaryFrom
  cases hk : n.kind with
  | ident name => rfl
  | _ =>
    rw [hk] at h
    cases h

/-- What is read as a name is a name. -/
theorem exists_of_bare_name (h : a.bare = .node () (.name n)) :
    ∃ line, a = .node line (.name n) := by
  obtain ⟨line, shape⟩ := a
  rw [Expr.bare_node] at h
  cases shape <;> cases h
  exact ⟨line, rfl⟩

/-- The expression is read back from whatever spells it. -/
def Readable (e : Expr Unit) : Prop :=
  ∀ ts, Spells e.spelling ts → Legible e ts

variable {n : Token} {i v : Expr Unit} {es : List (Expr Unit)}

/-- An expression with a mark behind it. -/
theorem Readable.before {f : Expr Line → Parse β} {Q : β → Prop} (h : Readable e)
    (hts : Spells e.spelling ts) (hm : (Token.Kind.punctuation m).joins = none)
    (ht : t.kind = .punctuation m) (hf : ∀ a, a.bare = e → Reads (f a) us S Q) :
    Reads (expression >>= fun a => mark m place >>= fun _ => f a) (ts ++ t :: us) S Q :=
  (h ts hts).expression.bind (fun _ _ => stops_of_before hm ⟨t, _, rfl, ht⟩) fun a ha =>
    Reads.mark ht (hf a ha)

/-- A list of expressions with a mark behind it. -/
theorem items_reads {close : Token.Punctuation} {f : List (Expr Line) → Parse β} {Q : β → Prop}
    (hes : ∀ e ∈ es, e.Grammatical ∧ Readable e)
    (hts : Spells (Piece.commas (es.map Expr.spelling)) ts) (hclose : close ≠ .comma)
    (hjoins : (Token.Kind.punctuation close).joins = none)
    (hstarts : (Token.Kind.punctuation close).startsExpr = false)
    (ht : t.kind = .punctuation close) (hf : ∀ as, as.map Expr.bare = es → Reads (f as) us S Q) :
    Reads (itemsBefore close expression >>= fun as => mark close place >>= fun _ => f as)
      (ts ++ t :: us) S Q := by
  have hitems : ∀ e ∈ es, ItemReads Expr.bare Expr.spelling expression close e := by
    intro e he
    refine ⟨fun us hus => ((hes e he).2 us hus).expression.mono fun rest hrest => ?_,
      fun us hus => ?_⟩
    · rcases hrest with hrest | hrest
      · exact stops_of_before rfl hrest
      · exact stops_of_before hjoins hrest
    · obtain ⟨t, us, rfl, ht, -⟩ := Expr.exists_head (hes e he).1 hus
      refine ⟨t, us, rfl, fun hk => ?_⟩
      rw [hk, hstarts] at ht
      cases ht
  exact (itemsBefore_reads hclose (fun _ => expression_alike) hitems hts).bind
    (fun _ _ => ⟨t, _, rfl, ht⟩) fun as has => Reads.mark ht (hf as has)

theorem readable_literal (v : Literal) : Readable (.node () (.literal v)) := by
  intro ts hts
  rw [Expr.spelling] at hts
  obtain ⟨t, us, rfl, ht, hus⟩ := hts.exists_kind
  obtain rfl := hus.eq_nil
  refine legible_primary rfl (by rw [ht]; rfl) ?_
  simp only [primaryFrom, ht]
  exact .pure (Expr.bare_node _ _)

/-- A name is read where no arguments and no index follow. -/
theorem primaryFrom_name (hn : n.kind.isIdent = true)
    (hS : ∀ rest, S rest → ∀ t, rest.head? = some t → t.kind ≠ .punctuation .lparen ∧ t.kind ≠
      .punctuation .lbracket) :
    Reads (primaryFrom sub n) [] S fun a => a.bare = .node () (.name n) := by
  rw [primaryFrom_ident hn, afterName]
  refine Reads.accept_none (fun rest hrest t ht => (hS rest hrest t ht).1) ?_
  refine Reads.accept_none (fun rest hrest t ht => (hS rest hrest t ht).2) ?_
  exact .pure (Expr.bare_node _ _)

theorem readable_name (hn : n.kind.isIdent = true) : Readable (.node () (.name n)) := by
  intro ts hts
  rw [Expr.spelling] at hts
  obtain ⟨us, rfl, hus⟩ := hts.exists_token
  obtain rfl := hus.eq_nil
  refine legible_primary rfl (startsPrimary_ident hn) ?_
  exact primaryFrom_name hn fun rest hrest t ht =>
    ⟨hrest.ne_kind rfl (by decide) ht, hrest.ne_kind rfl (by decide) ht⟩

theorem readable_element (hn : n.kind.isIdent = true) (hi : Readable i) :
    Readable (.node () (.element n i)) := by
  intro ts hts
  rw [Expr.spelling] at hts
  obtain ⟨us, rfl, hus⟩ := Spells.exists_token hts
  obtain ⟨t₁, vs, rfl, h₁, hvs⟩ := Spells.exists_kind hus
  obtain ⟨ws, t₂, rfl, hws, h₂⟩ := Spells.exists_last hvs
  refine legible_primary rfl (startsPrimary_ident hn) ?_
  rw [primaryFrom_ident hn, afterName]
  refine Reads.accept_none (fun rest _ t ht => ?_) (Reads.accept_some h₁ ?_)
  · cases ht
    rw [h₁]
    decide
  · refine hi.before hws rfl h₂ fun a ha => .pure ?_
    rw [Expr.bare_node, Expr.Shape.map, ha]

theorem readable_call (hn : n.kind.isIdent = true) (hes : ∀ e ∈ es, e.Grammatical ∧ Readable e) :
    Readable (.node () (.call n es)) := by
  intro ts hts
  rw [Expr.spelling, Expr.spellings_eq] at hts
  obtain ⟨us, rfl, hus⟩ := Spells.exists_token hts
  obtain ⟨t₁, vs, rfl, h₁, hvs⟩ := Spells.exists_kind hus
  obtain ⟨ws, t₂, rfl, hws, h₂⟩ := Spells.exists_last hvs
  refine legible_primary rfl (startsPrimary_ident hn) ?_
  rw [primaryFrom_ident hn, afterName]
  refine Reads.accept_some h₁ ?_
  refine items_reads hes hws (by decide) rfl rfl h₂ fun as has => .pure ?_
  rw [Expr.bare_node, Expr.Shape.map, has]

theorem readable_braces (hes : ∀ e ∈ es, e.Grammatical ∧ Readable e) :
    Readable (.node () (.braces es)) := by
  intro ts hts
  rw [Expr.spelling, Expr.spellings_eq] at hts
  obtain ⟨t₁, vs, rfl, h₁, hvs⟩ := Spells.exists_kind hts
  obtain ⟨ws, t₂, rfl, hws, h₂⟩ := Spells.exists_last hvs
  refine legible_primary rfl (by rw [h₁]; rfl) ?_
  simp only [primaryFrom, h₁]
  refine items_reads hes hws (by decide) rfl rfl h₂ fun as has => .pure ?_
  rw [Expr.bare_node, Expr.Shape.map, has]

theorem readable_grouping (he : Readable e) : Readable (.node () (.grouping e)) := by
  intro ts hts
  rw [Expr.spelling] at hts
  obtain ⟨t₁, vs, rfl, h₁, hvs⟩ := Spells.exists_kind hts
  obtain ⟨ws, t₂, rfl, hws, h₂⟩ := Spells.exists_last hvs
  refine legible_primary rfl (by rw [h₁]; rfl) ?_
  simp only [primaryFrom, h₁]
  refine he.before hws rfl h₂ fun a ha => .pure ?_
  rw [Expr.bare_node, Expr.Shape.map, ha]

theorem readable_random {k : Token} (hk : k.kind = .keyword .randomWord) (he : Readable e) :
    Readable (.node () (.random k e)) := by
  intro ts hts
  rw [Expr.spelling] at hts
  obtain ⟨us, rfl, hus⟩ := Spells.exists_token hts
  obtain ⟨t₁, vs, rfl, h₁, hvs⟩ := Spells.exists_kind hus
  obtain ⟨ws, t₂, rfl, hws, h₂⟩ := Spells.exists_last hvs
  refine legible_primary rfl (by rw [hk]; rfl) ?_
  simp only [primaryFrom, hk]
  refine Reads.mark h₁ (he.before hws rfl h₂ fun a ha => .pure ?_)
  rw [Expr.bare_node, Expr.Shape.map, ha]

/-! ## Operators -/

/-- A sign before an operand. -/
theorem readable_sign (hop : op.kind.isSign = true) (hlevel : 7 ≤ e.level) (he : Readable e) :
    Readable (.node () (.unary op e false)) := by
  intro ts hts
  rw [Expr.spelling] at hts
  obtain ⟨us, rfl, hus⟩ := Spells.exists_token hts
  refine legible_of_unary (Nat.le_refl 7) ?_
  refine Reads.takeIf_some ((Token.isOneOf_signs op).mpr hop) ?_
  have hoperand := (he us hus).operand 7 (by decide) (Nat.le_refl 7) hlevel
  rw [← List.append_nil us]
  refine Reads.bind hoperand (fun rest hrest => hrest) fun a ha => .pure ?_
  rw [Expr.bare_node, Expr.Shape.map, ha]

theorem isSign_of_isCount (h : kind.isCount = true) : kind.isSign = false := by
  cases kind with
  | operator op => cases op <;> first | rfl | cases h
  | _ => rfl

/-- Counting up or down before a name. -/
theorem readable_count (hop : op.kind.isCount = true) (hn : n.kind.isIdent = true) :
    Readable (.node () (.unary op (.node () (.name n)) false)) := by
  intro ts hts
  rw [Expr.spelling] at hts
  obtain ⟨us, rfl, hus⟩ := Spells.exists_token hts
  refine legible_of_unary (Nat.le_refl 7) ?_
  refine Reads.takeIf_none (fun rest _ t ht => ?_)
    (Reads.takeIf_some ((Token.isOneOf_counts op).mpr hop) ?_)
  · cases ht
    rw [Bool.eq_false_iff, ne_eq, Token.isOneOf_signs, isSign_of_isCount hop]
    exact Bool.false_ne_true
  · have hname := (readable_name hn us hus).operand 7 (by decide) (Nat.le_refl 7)
      (Nat.le_succ 7)
    rw [← List.append_nil us]
    refine Reads.bind hname (fun rest hrest => hrest) fun a ha => ?_
    obtain ⟨line, rfl⟩ := exists_of_bare_name ha
    refine .pure ?_
    rw [Expr.bare_node, Expr.Shape.map, ha]

/-- Counting up or down behind a name. -/
theorem readable_trailing (hop : op.kind.isCount = true) (hn : n.kind.isIdent = true) :
    Readable (.node () (.unary op (.node () (.name n)) true)) := by
  intro ts hts
  rw [Expr.spelling, Expr.spelling] at hts
  obtain ⟨us, rfl, hus⟩ := Spells.exists_token hts
  obtain ⟨vs, rfl, hvs⟩ := Spells.exists_token hus
  obtain rfl := hvs.eq_nil
  have hident := startsPrimary_ident hn
  refine legible_of_trailing rfl hident ?_
  have hname : Reads (primary expression) [n] (fun rest => rest.head? = some op)
      fun a => a.bare = .node () (.name n) := by
    refine Reads.takeIf_some (decide_eq_true (startsPrimary_eq hident).2.2) ?_
    refine primaryFrom_name hn fun rest hrest t ht => ?_
    rw [hrest] at ht
    cases ht
    constructor <;> intro hk <;> rw [hk] at hop <;> cases hop
  show Reads _ ([n] ++ [op]) _ _
  refine hname.bind (fun rest _ => rfl) fun a ha => ?_
  obtain ⟨line, rfl⟩ := exists_of_bare_name ha
  refine Reads.takeIf_some ((Token.isOneOf_counts op).mpr hop) (.pure ?_)
  rw [Expr.bare_node, Expr.Shape.map, ha]

/-- Operands on both sides of an operator. -/
theorem readable_binary {l r : Expr Unit} (hop : op.kind.level? = some k) (hl : Readable l)
    (hr : Readable r) (hkl : k ≤ l.level) (hkr : k < r.level) :
    Readable (.node () (.binary l op r)) := by
  intro ts hts
  rw [Expr.spelling, List.append_assoc] at hts
  obtain ⟨us, ws, rfl, hus, hws⟩ := hts.split
  obtain ⟨vs, rfl, hvs⟩ := Spells.exists_token hws
  have hl := hl us hus
  have hr := hr vs hvs
  have hlevel : (Expr.node () (.binary l op r)).level = k := by
    rw [Expr.level, hop, Option.getD_some]
  obtain ⟨hpos, hle⟩ := Token.Kind.level?_bounds hop
  obtain ⟨ops, hlevels, hops⟩ := Token.levelsFrom_eq_cons hpos hle
  have hchains : Chains k ops (us ++ op :: vs) (.node () (.binary l op r)) :=
    chains_binary hops hop (hl.chains k ops hpos hle hkl hlevels)
      (hr.operand (k + 1) (by omega) (by omega) hkr)
  refine legible_of_operand hpos (by omega) (.inl hlevel) (operand_of_chains hops hchains) ?_
  intro ops' _ hlevels'
  obtain rfl : ops = ops' := (List.cons.inj (hlevels.symm.trans hlevels')).1
  exact hchains

/-! ## Assignments -/

/-- What is read as an element is an element. -/
theorem exists_of_bare_element (h : a.bare = .node () (.element n i)) :
    ∃ line j, a = .node line (.element n j) ∧ j.bare = i := by
  obtain ⟨line, shape⟩ := a
  rw [Expr.bare_node] at h
  cases shape <;> cases h
  exact ⟨line, _, rfl, rfl⟩

/-- An assignment is first read as its target, which is taken apart behind the value. -/
theorem legible_assign {eq : Token} {target : Expr Unit} (hlevel : e.level = 0)
    (hlevel' : target.level = 8) (ht : Readable target) (hv : Readable v)
    (hus : Spells target.spelling us) (heq : eq.kind = .operator .assign)
    (hvs : Spells v.spelling vs)
    (hto : ∀ a b : Expr Line, a.bare = target → b.bare = v →
      ∃ r, assignTo a eq b = pure r ∧ r.bare = e) :
    Legible e (us ++ eq :: vs) where
  operand k hk _ hke := by omega
  chains k ops hk _ hke _ := by omega
  expression := by
    have htarget := (ht us hus).operand 1 (Nat.le_refl 1) (by decide) (by omega)
    rw [show expression = levelRound level 0 from level_eq 0]
    refine Reads.bind htarget (fun rest _ => ?_) fun a ha => Reads.accept_some heq ?_
    · refine stops_cons fun i hi => ?_
      rw [heq] at hi
      cases hi
      decide
    · rw [← List.append_nil vs]
      refine (hv vs hvs).expression.bind (fun rest hrest => hrest) fun b hb => ?_
      obtain ⟨r, hr, hbare⟩ := hto a b ha hb
      rw [hr]
      exact .pure hbare

theorem readable_assign_name (hn : n.kind.isIdent = true) (hv : Readable v) :
    Readable (.node () (.assign n none v)) := by
  intro ts hts
  rw [Expr.spelling] at hts
  obtain ⟨us, rfl, hus⟩ := Spells.exists_token hts
  obtain ⟨eq, vs, rfl, heq, hvs⟩ := Spells.exists_kind hus
  have hname : Spells (Expr.node () (.name n)).spelling [n] := by
    rw [Expr.spelling]
    exact .token .nil
  refine legible_assign rfl rfl (readable_name hn) hv hname heq hvs fun a b ha hb => ?_
  obtain ⟨line, rfl⟩ := exists_of_bare_name ha
  refine ⟨_, rfl, ?_⟩
  rw [Expr.bare_node, Expr.Shape.map, hb, Option.map_none]

theorem readable_assign_element (hn : n.kind.isIdent = true) (hi : Readable i) (hv : Readable v) :
    Readable (.node () (.assign n (some i) v)) := by
  intro ts hts
  have hspelling : (Expr.node () (.assign n (some i) v)).spelling =
      (Expr.node () (.element n i)).spelling ++ .equals :: v.spelling := by
    rw [Expr.spelling, Expr.spelling]
    simp
  rw [hspelling] at hts
  obtain ⟨us, ws, rfl, hus, hws⟩ := hts.split
  obtain ⟨eq, vs, rfl, heq, hvs⟩ := Spells.exists_kind hws
  refine legible_assign rfl rfl (readable_element hn hi) hv hus heq hvs fun a b ha hb => ?_
  obtain ⟨line, j, rfl, hj⟩ := exists_of_bare_element ha
  refine ⟨_, rfl, ?_⟩
  rw [Expr.bare_node, Expr.Shape.map, hb, Option.map_some, hj]

/-! ## Expressions -/

/-- Every expression of the grammar is read back. -/
theorem readable (e : Expr Unit) (hg : e.Grammatical) : Readable e := by
  induction e using Expr.induction with
  | step u shape ih =>
    have hroot := hg.root
    have hchild : ∀ c ∈ shape.children, c.Grammatical ∧ Readable c :=
      fun c hc => ⟨hg.child c hc, ih c hc (hg.child c hc)⟩
    cases shape with
    | binary l op r =>
      obtain ⟨k, hop, hkl, hkr⟩ := hroot
      exact readable_binary hop (hchild l (by simp)).2
        (hchild r (by simp)).2 hkl hkr
    | grouping e => exact readable_grouping (hchild e (List.mem_singleton.mpr rfl)).2
    | literal v => exact readable_literal v
    | unary op e trailing =>
      have he := hchild e (List.mem_singleton.mpr rfl)
      cases trailing with
      | false =>
        rcases hroot with ⟨hop, hlevel⟩ | ⟨hop, hname⟩
        · exact readable_sign hop hlevel he.2
        · obtain ⟨n, rfl⟩ := Expr.exists_name hname
          exact readable_count hop he.1.root
      | true =>
        obtain ⟨n, rfl⟩ := Expr.exists_name hroot.2
        exact readable_trailing hroot.1 he.1.root
    | name n => exact readable_name hroot
    | assign n i v =>
      cases i with
      | none => exact readable_assign_name hroot (hchild v (List.mem_singleton.mpr rfl)).2
      | some i =>
        exact readable_assign_element hroot (hchild i (by simp)).2
          (hchild v (by simp)).2
    | call n args => exact readable_call hroot hchild
    | element n i => exact readable_element hroot (hchild i (List.mem_singleton.mpr rfl)).2
    | braces es => exact readable_braces hchild
    | random k e => exact readable_random hroot (hchild e (List.mem_singleton.mpr rfl)).2

/-- An expression of the grammar is read back, if what follows does not continue it. -/
theorem expression_reads (hg : e.Grammatical) (hts : Spells e.spelling ts) :
    Reads expression ts (Stops 0) fun a => a.bare = e :=
  (readable e hg ts hts).expression

end Parse

end StackLang
