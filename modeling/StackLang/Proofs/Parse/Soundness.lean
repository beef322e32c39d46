import Mathlib.Data.Nat.Init
import StackLang.Proofs.Parse.Grammar
import StackLang.Proofs.Program.Laying

/-!
# What is parsed is grammatical

A parser moves forward over some tokens.  What it reads from them is a tree of the grammar that
these tokens spell out: none is skipped, taken twice or put at the wrong node.

* `Parse.Takes` — what a parser reads, and the tokens that it takes.
* `Parse.expression_takes`, `Parse.statementWithin_takes`, `Parse.function_takes` — the parts of a
  program.
* `Program.parse_grammatical` — a program that is parsed.
-/

namespace StackLang

namespace Parse

variable {α β : Type} {x : Parse α} {P P' : α → List Token → Prop} {Q : β → List Token → Prop}
  {c c' : Cursor} {item : Expected} {k : Nat} {ts tokens : List Token}
  {operand : Parse (Expr Line)} {fs : List (Function (Stmt Line))} {p : Token → Bool}

/-! ## Tokens that are taken -/

/-- Whatever the parser reads is related by `P` to the tokens that it takes, none of which is the
end mark. -/
def Takes (x : Parse α) (P : α → List Token → Prop) : Prop :=
  ∀ c a c', x c = .ok (a, c') →
    ∃ ts, c.rest = ts ++ c'.rest ∧ (∀ t ∈ ts, t.kind ≠ .eof) ∧ P a ts

theorem Takes.pure {a : α} (h : P a []) : Takes (pure a) P := by
  intro c b c' hb
  cases hb
  exact ⟨[], rfl, by simp, h⟩

theorem Takes.failAt (pos : Position) (cause : ParseCause) : Takes (failAt pos cause) P := by
  intro c a c' h
  cases h

theorem Takes.fail (cause : ParseCause) : Takes (fail cause) P := by
  intro c a c' h
  cases h

/-- What two parsers in a row have read. -/
theorem exists_of_bind_eq_ok {f : α → Parse β} {b : β} (h : (x >>= f) c = .ok (b, c')) :
    ∃ a c₁, x c = .ok (a, c₁) ∧ f a c₁ = .ok (b, c') := by
  simp only [Bind.bind, StateT.bind, Except.bind] at h
  split at h
  · cases h
  · rename_i r hr
    exact ⟨r.1, r.2, hr, h⟩

theorem Takes.bind {f : α → Parse β} (hx : Takes x P)
    (hf : ∀ a us, P a us → Takes (f a) fun b ts => Q b (us ++ ts)) : Takes (x >>= f) Q := by
  intro c b c' h
  obtain ⟨a, c₁, ha, hb⟩ := exists_of_bind_eq_ok h
  obtain ⟨us, hus, heof, hP⟩ := hx c a c₁ ha
  obtain ⟨vs, hvs, heof', hQ⟩ := hf a us hP c₁ b c' hb
  refine ⟨us ++ vs, by rw [hus, hvs, List.append_assoc], ?_, hQ⟩
  intro t ht
  rcases List.mem_append.mp ht with ht | ht
  · exact heof t ht
  · exact heof' t ht

theorem Takes.mono (hx : Takes x P) (h : ∀ a ts, P a ts → P' a ts) : Takes x P' := by
  intro c a c' hrun
  obtain ⟨ts, hts, heof, hP⟩ := hx c a c' hrun
  exact ⟨ts, hts, heof, h a ts hP⟩

/-- A parser that only looks. -/
theorem Takes.look {f : α → Parse β} (hx : ∀ c a c', x c = .ok (a, c') → c' = c)
    (hf : ∀ a, Takes (f a) Q) : Takes (x >>= f) Q := by
  have hx' : Takes x fun _ ts => ts = [] := by
    intro c a c' h
    exact ⟨[], by rw [hx c a c' h]; rfl, by simp, rfl⟩
  refine hx'.bind fun a us hus => ?_
  subst hus
  exact hf a

theorem Takes.get {f : Cursor → Parse β} (hf : ∀ c, Takes (f c) Q) : Takes (get >>= f) Q := by
  refine Takes.look (fun c a c' h => ?_) hf
  cases h
  rfl

theorem Takes.line {f : Line → Parse β} (hf : ∀ l, Takes (f l) Q) : Takes (line >>= f) Q := by
  refine Takes.look (fun c a c' h => ?_) hf
  cases h
  rfl

theorem Takes.peek {k : Token.Kind} {f : Bool → Parse β} (hf : ∀ b, Takes (f b) Q) :
    Takes (peek k >>= f) Q := by
  refine Takes.look (fun c a c' h => ?_) hf
  cases h
  rfl

/-- One token is taken, if it satisfies the condition. -/
theorem Takes.takeIf (hp : ∀ t, p t = true → t.kind ≠ .eof) {f : Option Token → Parse β}
    (hnone : Takes (f none) Q)
    (hsome : ∀ t, p t = true → Takes (f (some t)) fun b ts => Q b (t :: ts)) :
    Takes (takeIf p >>= f) Q := by
  have htake : Takes (Parse.takeIf p) fun o ts =>
      o = none ∧ ts = [] ∨ ∃ t, p t = true ∧ o = some t ∧ ts = [t] := by
    intro c o c' h
    unfold Parse.takeIf at h
    split at h
    · rename_i t rest hrest
      split at h
      · rename_i hpt
        cases h
        exact ⟨[t], hrest, by simpa using hp t hpt, .inr ⟨t, hpt, rfl, rfl⟩⟩
      · cases h
        exact ⟨[], rfl, by simp, .inl ⟨rfl, rfl⟩⟩
    · cases h
      exact ⟨[], rfl, by simp, .inl ⟨rfl, rfl⟩⟩
  refine htake.bind ?_
  rintro o us (⟨rfl, rfl⟩ | ⟨t, hpt, rfl, rfl⟩)
  · exact hnone
  · exact hsome t hpt

theorem Takes.accept {k : Token.Kind} (hk : k ≠ .eof) {f : Option Token → Parse β}
    (hnone : Takes (f none) Q)
    (hsome : ∀ t, t.kind = k → Takes (f (some t)) fun b ts => Q b (t :: ts)) :
    Takes (accept k >>= f) Q := by
  refine Takes.takeIf (fun t ht => ?_) hnone fun t ht => hsome t ?_
  · rw [of_decide_eq_true ht]
    exact hk
  · exact of_decide_eq_true ht

theorem Takes.require (hp : ∀ t, p t = true → t.kind ≠ .eof) {f : Token → Parse β}
    (hf : ∀ t, p t = true → Takes (f t) fun b ts => Q b (t :: ts)) :
    Takes (require p item >>= f) Q := by
  unfold Parse.require
  rw [bind_assoc]
  refine Takes.takeIf hp ?_ fun t ht => ?_
  · intro c a c' h
    cases h
  · simp only [pure_bind]
    exact hf t ht

theorem Takes.mark {m : Token.Punctuation} {place : Place} {f : Token → Parse β}
    (hf : ∀ t, t.kind = .punctuation m → Takes (f t) fun b ts => Q b (t :: ts)) :
    Takes (mark m place >>= f) Q := by
  refine Takes.require (fun t ht => ?_) fun t ht => hf t (of_decide_eq_true ht)
  rw [of_decide_eq_true ht]
  exact Token.Kind.noConfusion

theorem Takes.ident {f : Token → Parse β}
    (hf : ∀ t, t.kind.isIdent = true → Takes (f t) fun b ts => Q b (t :: ts)) :
    Takes (ident item >>= f) Q := by
  refine Takes.require (fun t ht heof => ?_) fun t ht => hf t ?_
  · rw [heof] at ht
    cases ht
  · cases hk : t.kind with
    | ident name => rfl
    | _ =>
      rw [hk] at ht
      cases ht

theorem Takes.typeName {f : ValueType → Parse β}
    (hf : ∀ type t, t.kind = .typeName type → Takes (f type) fun b ts => Q b (t :: ts)) :
    Takes (typeName item >>= f) Q := by
  unfold Parse.typeName
  rw [bind_assoc]
  refine Takes.require (fun t ht => ?_) fun t ht => ?_
  · intro heof
    rw [heof] at ht
    cases ht
  · cases hk : t.kind with
    | typeName type =>
      simp only [pure_bind, Token.Kind.type?, Option.getD_some]
      exact hf type t hk
    | _ => simp [hk, Token.Kind.type?] at ht

theorem Takes.takeKeyword? {f : Option (Token × Token.Keyword) → Parse β} (hnone : Takes (f none) Q)
    (hsome : ∀ t w, t.kind = .keyword w → Takes (f (some (t, w))) fun b ts => Q b (t :: ts)) :
    Takes (Parse.takeKeyword? >>= f) Q := by
  unfold Parse.takeKeyword?
  rw [bind_assoc]
  refine Takes.takeIf (fun t ht heof => ?_) ?_ fun t ht => ?_
  · rw [heof] at ht
    cases ht
  · rw [pure_bind]
    exact hnone
  · cases hk : t.kind with
    | keyword w =>
      simp only [hk, pure_bind]
      exact hsome t w hk
    | _ =>
      rw [hk] at ht
      cases ht

/-! ## Lists -/

theorem Takes.commaSeparated {spell : α → List Piece} {R : α → Prop} {item : Parse α}
    (hitem : Takes item fun a ts => R a ∧ Spells (spell a) ts) (fuel : Nat) :
    Takes (commaSeparated item fuel) fun as ts =>
      (∀ a ∈ as, R a) ∧ as ≠ [] ∧ Spells (Piece.commas (as.map spell)) ts := by
  induction fuel with
  | zero =>
    rw [Parse.commaSeparated]
    refine hitem.bind fun a us ha => .pure ?_
    simpa [Piece.commas] using ha
  | succ fuel ih =>
    rw [Parse.commaSeparated]
    refine hitem.bind fun a us ha => ?_
    refine Takes.accept (by decide) ?_ fun t ht => ?_
    · refine .pure ?_
      simpa [Piece.commas] using ha
    · refine ih.bind fun as vs has => .pure ?_
      obtain ⟨hall, hne, hspells⟩ := has
      obtain ⟨b, bs, rfl⟩ := List.exists_cons_of_ne_nil hne
      refine ⟨List.forall_mem_cons.mpr ⟨ha.1, hall⟩, List.cons_ne_nil _ _, ?_⟩
      have := (ha.2.append (.kind ht .nil)).append hspells
      simpa [Piece.commas, Piece.mark] using this

theorem Takes.itemsBefore {spell : α → List Piece} {R : α → Prop} {item : Parse α}
    (hitem : Takes item fun a ts => R a ∧ Spells (spell a) ts) (close : Token.Punctuation) :
    Takes (itemsBefore close item) fun as ts =>
      (∀ a ∈ as, R a) ∧ Spells (Piece.commas (as.map spell)) ts := by
  unfold Parse.itemsBefore
  refine Takes.peek fun b => ?_
  cases b with
  | true => exact .pure ⟨by simp, .nil⟩
  | false => exact Takes.get fun c => (hitem.commaSeparated _).mono fun as ts h => ⟨h.1, h.2.2⟩

/-! ## Expressions -/

/-- The tokens spell an expression of the grammar that is at least as tight as the level. -/
structure SpelledAt (k : Nat) (e : Expr Line) (ts : List Token) : Prop where
  grammatical : e.bare.Grammatical
  spells : Spells e.bare.spelling ts
  tight : k ≤ e.bare.level

theorem SpelledAt.mono {j : Nat} {e : Expr Line} (h : SpelledAt k e ts) (hjk : j ≤ k) :
    SpelledAt j e ts :=
  ⟨h.grammatical, h.spells, Nat.le_trans hjk h.tight⟩

/-- A node is spelled if its parts are. -/
theorem spelledAt_node {line : Line} {shape : Expr.Shape (Expr Line)}
    (root : (shape.map Expr.bare).Grammatical)
    (children : ∀ e ∈ shape.children, e.bare.Grammatical)
    (spells : Spells (Expr.node () (shape.map Expr.bare)).spelling ts)
    (tight : k ≤ (Expr.node () (shape.map Expr.bare)).level) :
    SpelledAt k (.node line shape) ts := by
  have hbare := Expr.bare_node line shape
  refine ⟨?_, hbare ▸ spells, hbare ▸ tight⟩
  rw [hbare]
  refine .node root fun e he => ?_
  rw [Expr.Shape.children_map] at he
  obtain ⟨c, hc, rfl⟩ := List.mem_map.mp he
  exact children c hc

/-- The operators of one level are read from the left, so the accumulated expression may be of the
level itself and every further operand is tighter. -/
theorem chain_takes {ops : List Token.Operator}
    (hops : ∀ t : Token, t.isOneOf ops = true ↔ t.kind.level? = some k)
    (ho : Takes operand (SpelledAt (k + 1))) (fuel : Nat) {left : Expr Line} {us : List Token}
    (hl : SpelledAt k left us) :
    Takes (chain operand ops fuel left) fun e ts => SpelledAt k e (us ++ ts) := by
  induction fuel generalizing left us with
  | zero => exact .pure (by simpa using hl)
  | succ fuel ih =>
    rw [chain]
    refine Takes.takeIf (fun t ht heof => ?_) (.pure (by simpa using hl)) fun op hop => ?_
    · rw [hops, heof] at ht
      cases ht
    · rw [hops] at hop
      refine ho.bind fun right vs hr => ?_
      have hnode : SpelledAt k (.node op.line (.binary left op right)) (us ++ op :: vs) := by
        refine spelledAt_node ⟨k, hop, hl.tight, hr.tight⟩ ?_ ?_ ?_
        · simpa [Expr.Shape.children] using ⟨hl.grammatical, hr.grammatical⟩
        · rw [Expr.Shape.map, Expr.spelling, List.append_assoc]
          exact hl.spells.append (.token hr.spells)
        · simp [Expr.Shape.map, Expr.level, hop]
      simpa using ih hnode

theorem binary_takes (ho : Takes operand (SpelledAt 7)) (hpos : 1 ≤ k) (hle : k ≤ 7) :
    Takes (binary operand (Token.levelsFrom k)) (SpelledAt k) := by
  -- From the tightest level to the loosest: each level has the next one as its operand.
  induction hle using Nat.decreasingInduction with
  | self => exact ho
  | of_succ k hk ih =>
    obtain ⟨ops, hlevels, hops⟩ := Token.levelsFrom_eq_cons hpos (Nat.le_of_lt_succ hk)
    have hsub := ih (Nat.le_succ_of_le hpos)
    rw [hlevels, binary]
    refine hsub.bind fun left us hl => Takes.get fun c => ?_
    exact chain_takes hops hsub _ (hl.mono (Nat.le_succ k))

/-- What has been read as an operand becomes a target, if it is a name or an element. -/
theorem assignTo_takes {target value : Expr Line} {eq : Token} {us vs : List Token}
    (ht : SpelledAt 1 target us) (heq : eq.kind = .operator .assign) (hv : SpelledAt 0 value vs) :
    Takes (assignTo target eq value) fun e ts => SpelledAt 0 e (us ++ eq :: (vs ++ ts)) := by
  have hequals : Spells (.equals :: value.bare.spelling) (eq :: vs) := .kind heq hv.spells
  have hg := ht.grammatical
  have htarget := ht.spells
  unfold assignTo
  split
  · rename_i n
    rw [Expr.bare_node, Expr.Shape.map] at hg htarget
    refine .pure (spelledAt_node hg.root ?_ ?_ (Nat.zero_le _))
    · simpa [Expr.Shape.children] using hv.grammatical
    · rw [Expr.spelling] at htarget
      rw [Expr.Shape.map, Option.map_none, Expr.spelling, List.append_nil]
      exact htarget.append hequals
  · rename_i n i
    rw [Expr.bare_node, Expr.Shape.map] at hg htarget
    refine .pure (spelledAt_node hg.root ?_ ?_ (Nat.zero_le _))
    · simpa [Expr.Shape.children] using ⟨hg.child _ (by simp), hv.grammatical⟩
    · rw [Expr.spelling] at htarget
      rw [Expr.Shape.map, Option.map_some, Expr.spelling, List.append_nil]
      simpa using htarget.append hequals
  · exact .failAt _ _

theorem assignment_takes {value : Parse (Expr Line)} (ho : Takes operand (SpelledAt 7))
    (hv : Takes value (SpelledAt 0)) : Takes (assignment operand value) (SpelledAt 0) := by
  have htarget : Takes (binary operand Token.binaryLevels) (SpelledAt 1) :=
    binary_takes ho (Nat.le_refl 1) (by decide)
  unfold assignment
  refine htarget.bind fun target us ht => ?_
  refine Takes.accept (by decide) ?_ fun eq heq => ?_
  · exact .pure (by simpa using ht.mono (Nat.zero_le 1))
  · exact hv.bind fun v vs hv => assignTo_takes ht heq hv

variable {sub : Parse (Expr Line)}

theorem afterName_takes (hs : Takes sub (SpelledAt 0)) {n : Token} (hn : n.kind.isIdent = true) :
    Takes (afterName sub n) fun e ts => SpelledAt 8 e (n :: ts) := by
  unfold afterName
  have hitem : Takes sub fun e ts => e.bare.Grammatical ∧ Spells e.bare.spelling ts :=
    hs.mono fun e ts h => ⟨h.grammatical, h.spells⟩
  refine Takes.accept (by decide) (Takes.accept (by decide) ?_ fun t ht => ?_) fun t ht => ?_
  · -- a bare name
    refine .pure (spelledAt_node hn (by simp) ?_ (Nat.le_refl 8))
    rw [Expr.Shape.map, Expr.spelling]
    exact .token .nil
  · -- an element
    refine hs.bind fun i us hi => Takes.mark fun t' ht' => .pure ?_
    refine spelledAt_node hn (by simpa [Expr.Shape.children] using hi.grammatical) ?_
      (Nat.le_refl 8)
    rw [Expr.Shape.map, Expr.spelling]
    exact .token (.kind ht (hi.spells.append (.kind ht' .nil)))
  · -- a call
    refine (hitem.itemsBefore _).bind fun args us hargs => Takes.mark fun t' ht' => .pure ?_
    refine spelledAt_node hn (by simpa [Expr.Shape.children] using hargs.1) ?_ (Nat.le_refl 8)
    rw [Expr.Shape.map, Expr.spelling, Expr.spellings_eq, List.map_map]
    exact .token (.kind ht (hargs.2.append (.kind ht' .nil)))

theorem primaryFrom_takes (hs : Takes sub (SpelledAt 0)) (t : Token) :
    Takes (primaryFrom sub t) fun e ts => SpelledAt 8 e (t :: ts) := by
  have hitem : Takes sub fun e ts => e.bare.Grammatical ∧ Spells e.bare.spelling ts :=
    hs.mono fun e ts h => ⟨h.grammatical, h.spells⟩
  unfold primaryFrom
  split
  · rename_i v hv
    refine .pure (spelledAt_node trivial (by simp) ?_ (Nat.le_refl 8))
    rw [Expr.Shape.map, Expr.spelling]
    exact .kind hv .nil
  · rename_i name hn
    exact afterName_takes hs (by rw [hn]; rfl)
  · rename_i ht
    refine hs.bind fun e us he => Takes.mark fun t' ht' => .pure ?_
    refine spelledAt_node trivial (by simpa [Expr.Shape.children] using he.grammatical) ?_
      (Nat.le_refl 8)
    rw [Expr.Shape.map, Expr.spelling]
    exact .kind ht (he.spells.append (.kind ht' .nil))
  · rename_i ht
    refine Takes.mark fun t' ht' => hs.bind fun e us he => Takes.mark fun t'' ht'' => .pure ?_
    refine spelledAt_node ht (by simpa [Expr.Shape.children] using he.grammatical) ?_
      (Nat.le_refl 8)
    rw [Expr.Shape.map, Expr.spelling]
    exact .token (.kind ht' (he.spells.append (.kind ht'' .nil)))
  · rename_i ht
    refine (hitem.itemsBefore _).bind fun es us hes => Takes.mark fun t' ht' => .pure ?_
    refine spelledAt_node trivial (by simpa [Expr.Shape.children] using hes.1) ?_ (Nat.le_refl 8)
    rw [Expr.Shape.map, Expr.spelling, Expr.spellings_eq, List.map_map]
    exact .kind ht (hes.2.append (.kind ht' .nil))
  · exact .failAt _ _

theorem primary_takes (hs : Takes sub (SpelledAt 0)) : Takes (primary sub) (SpelledAt 8) := by
  unfold primary
  exact Takes.takeIf (fun t ht => of_decide_eq_true ht) (.fail _) fun t _ => primaryFrom_takes hs t

theorem not_eof_of_isCount {t : Token} (h : t.isOneOf [.increment, .decrement] = true) :
    t.kind ≠ .eof := by
  intro heof
  rw [Token.isOneOf_counts, heof] at h
  cases h

theorem trailing_takes (hs : Takes sub (SpelledAt 0)) : Takes (trailing sub) (SpelledAt 8) := by
  unfold trailing
  refine (primary_takes hs).bind fun e us he => ?_
  split
  · rename_i hname
    refine Takes.takeIf (fun t => not_eof_of_isCount) (.pure (by simpa using he)) fun op hop => ?_
    rw [Token.isOneOf_counts] at hop
    refine .pure (spelledAt_node ⟨hop, by rwa [Expr.isName_bare]⟩ ?_ ?_ (Nat.le_refl 8))
    · simpa [Expr.Shape.children] using he.grammatical
    · rw [Expr.Shape.map, Expr.spelling]
      exact he.spells.append (.token .nil)
  · exact .pure (by simpa using he)

/-- Operands and expressions, with a fuel that they share. -/
theorem unary_expression_takes (fuel : Nat) :
    Takes (unary fuel) (SpelledAt 7) ∧ Takes (expressionWithin fuel) (SpelledAt 0) := by
  induction fuel with
  | zero =>
    rw [unary, expressionWithin]
    exact ⟨.fail _, .fail _⟩
  | succ fuel ih =>
    obtain ⟨hunary, hexpression⟩ := ih
    rw [unary, expressionWithin]
    constructor
    -- With neither a sign nor a count before it, the operand is a primary expression with what
    -- trails.
    · refine Takes.takeIf (fun t ht heof => ?_) ?_ fun op hop => ?_
      · rw [Token.isOneOf_signs, heof] at ht
        cases ht
      · refine Takes.takeIf (fun t => not_eof_of_isCount) ?_ fun op hop => ?_
        · exact (trailing_takes hexpression).mono fun e ts h => h.mono (by decide)
        · rw [Token.isOneOf_counts] at hop
          refine hunary.bind fun e us he => ?_
          split
          · rename_i hname
            refine .pure
              (spelledAt_node (.inr ⟨hop, by rwa [Expr.isName_bare]⟩) ?_ ?_ (Nat.le_refl 7))
            · simpa [Expr.Shape.children] using he.grammatical
            · rw [Expr.Shape.map, Expr.spelling]
              exact .token (by simpa using he.spells)
          · exact .failAt _ _
      · rw [Token.isOneOf_signs] at hop
        refine hunary.bind fun e us he => .pure ?_
        refine spelledAt_node (.inl ⟨hop, he.tight⟩) ?_ ?_ (Nat.le_refl 7)
        · simpa [Expr.Shape.children] using he.grammatical
        · rw [Expr.Shape.map, Expr.spelling]
          exact .token (by simpa using he.spells)
    · exact assignment_takes hunary hexpression

/-- An expression that is read is one of the grammar, and the tokens taken spell it. -/
theorem expression_takes :
    Takes expression fun e ts => e.bare.Grammatical ∧ Spells e.bare.spelling ts :=
  Takes.get fun _ => (unary_expression_takes _).2.mono fun _ _ h => ⟨h.grammatical, h.spells⟩

/-! ## Statements -/

/-- The tokens spell a statement of the grammar. -/
structure Spelled (s : Stmt Line) (ts : List Token) : Prop where
  grammatical : s.bare.Grammatical
  spells : Spells s.bare.spelling ts

theorem spelled_node {line : Line} {shape : Stmt.Shape (Stmt Line) (Expr Line)}
    (root : (shape.map Stmt.bare Expr.bare).Grammatical)
    (exprs : ∀ e ∈ shape.exprs, e.bare.Grammatical)
    (children : ∀ s ∈ shape.children, s.bare.Grammatical)
    (spells : Spells (Stmt.node () (shape.map Stmt.bare Expr.bare)).spelling ts) :
    Spelled (.node line shape) ts := by
  have hbare := Stmt.bare_node line shape
  refine ⟨?_, hbare ▸ spells⟩
  rw [hbare]
  refine .node ⟨root, fun e he => ?_⟩ fun s hs => ?_
  · rw [Stmt.Shape.exprs_map] at he
    obtain ⟨c, hc, rfl⟩ := List.mem_map.mp he
    exact exprs c hc
  · rw [Stmt.Shape.children_map] at hs
    obtain ⟨c, hc, rfl⟩ := List.mem_map.mp hs
    exact children c hc

theorem optionalBefore_takes (m : Token.Punctuation) :
    Takes (optionalBefore m) fun o ts =>
      (∀ e ∈ o, e.bare.Grammatical) ∧ Spells (Stmt.spellingValue (o.map Expr.bare)) ts := by
  unfold optionalBefore
  refine Takes.peek fun b => ?_
  cases b with
  | true => exact .pure ⟨by simp, .nil⟩
  | false =>
    exact expression_takes.bind fun e us he => .pure (by simpa [Stmt.spellingValue] using he)

theorem initializer_takes :
    Takes initializer fun o ts =>
      (∀ e ∈ o, e.bare.Grammatical) ∧ Spells (Stmt.spellingInit (o.map Expr.bare)) ts := by
  unfold initializer
  refine Takes.accept (by decide) (.pure ⟨by simp, .nil⟩) fun t ht => ?_
  refine expression_takes.bind fun e us he => .pure ⟨by simpa using he.1, ?_⟩
  exact .kind ht (by simpa using he.2)

theorem condition_takes (place : Place) :
    Takes (condition place) fun e ts =>
      e.bare.Grammatical ∧ Spells (Stmt.spellingCondition e.bare) ts := by
  unfold condition
  refine Takes.mark fun t ht => expression_takes.bind fun e us he => Takes.mark fun t' ht' => ?_
  exact .pure ⟨he.1, .kind ht (he.2.append (.kind ht' .nil))⟩

/-- A length that is given is positive; the parser takes the literal and nothing else. -/
theorem arrayLength_takes :
    Takes arrayLength fun o ts => o = none ∧ ts = [] ∨ ∃ (n : Nat) (t : Token) (w : Word),
      o = some n ∧ 0 < n ∧ t.kind = .literal (.int w) ∧ w.toInt = n ∧ ts = [t] := by
  unfold arrayLength
  refine Takes.takeIf (fun t ht heof => ?_) (.pure (.inl ⟨rfl, rfl⟩)) fun t ht => ?_
  · rw [heof] at ht
    cases ht
  · obtain ⟨kind, lexeme, pos⟩ := t
    split at ht
    · rename_i w hw
      obtain rfl : kind = .literal (.int w) := hw
      simp only
      split
      · exact .fail _
      · rename_i hpos
        have hzero : Int64.toInt 0 = 0 := rfl
        rw [Int64.le_iff_toInt_le, hzero] at hpos
        exact .pure (.inr ⟨_, _, w, rfl, by omega, rfl, by omega, rfl⟩)
    · cases ht

/-- A length that is counted is the number of elements of a list in braces. -/
theorem canCount_of_elementCount? {init : Option (Expr Line)} {n : Nat}
    (h : elementCount? init = some n) : 0 < n ∧ Stmt.canCount n (init.map Expr.bare) = true := by
  unfold elementCount? at h
  split at h
  · cases h
    rw [Option.map_some, Expr.bare_node]
    simp [Expr.Shape.map, Stmt.canCount]
  · cases h

theorem declaration_takes :
    Takes declaration fun s ts => Spelled s ts ∧ s.isSimple = true := by
  unfold declaration
  refine Takes.line fun line => Takes.typeName fun type t₁ h₁ => ?_
  split
  · exact .fail _
  rename_i hvoid
  refine Takes.ident fun name hname => ?_
  refine Takes.accept (by decide) ?_ fun t₂ h₂ => ?_
  · -- a variable
    refine initializer_takes.bind fun init us hinit => Takes.mark fun t₃ h₃ => .pure ⟨?_, rfl⟩
    refine spelled_node ⟨hname, hvoid⟩ ?_ (by simp) ?_
    · simpa [Stmt.Shape.exprs] using hinit.1
    · rw [Stmt.Shape.map, Stmt.spelling]
      exact .kind h₁ (.token (hinit.2.append (.kind h₃ .nil)))
  · -- an array
    refine arrayLength_takes.bind fun declared us hdeclared => Takes.mark fun t₃ h₃ => ?_
    refine initializer_takes.bind fun init vs hinit => Takes.mark fun t₄ h₄ => ?_
    have hrest : Spells (Stmt.spellingInit (init.map Expr.bare) ++ [.mark .semicolon])
        (vs ++ [t₄]) := hinit.2.append (.kind h₄ .nil)
    have harray : ∀ n : Nat, 0 < n →
        Spells [.length n (Stmt.canCount n (init.map Expr.bare))] us →
        Spelled (.node line (.array name type n init))
          (t₁ :: name :: t₂ :: (us ++ t₃ :: (vs ++ [t₄]))) := by
      intro n hn hlength
      refine spelled_node ⟨hname, hvoid, hn⟩ ?_ (by simp) ?_
      · simpa [Stmt.Shape.exprs] using hinit.1
      · rw [Stmt.Shape.map, Stmt.spelling]
        exact .kind h₁ (.token (.kind h₂ (hlength.append (.kind h₃ hrest))))
    rcases hdeclared with ⟨rfl, rfl⟩ | ⟨n, t, w, rfl, hn, ht, hw, rfl⟩
    · cases hcount : elementCount? init with
      | none => exact .fail _
      | some n =>
        obtain ⟨hn, hc⟩ := canCount_of_elementCount? hcount
        refine .pure ⟨harray n hn ?_, rfl⟩
        rw [hc]
        exact .omitted .nil
    · exact .pure ⟨harray n hn (.length ht hw .nil), rfl⟩

theorem expressionStatement_takes (place : Place) :
    Takes (expressionStatement place) fun s ts => Spelled s ts ∧ s.isSimple = true := by
  unfold expressionStatement
  refine Takes.line fun line => expression_takes.bind fun e us he => Takes.mark fun t ht => ?_
  refine .pure ⟨spelled_node trivial ?_ (by simp) ?_, rfl⟩
  · simpa [Stmt.Shape.exprs] using he.1
  · rw [Stmt.Shape.map, Stmt.spelling]
    exact he.2.append (.kind ht .nil)

theorem forInit_takes :
    Takes forInit fun o ts =>
      (∀ s ∈ o, s.bare.Grammatical ∧ s.isSimple = true) ∧
        Spells (Stmt.spellingFirst (o.map Stmt.bare)) ts := by
  have hsome : ∀ {s : Stmt Line} {ts : List Token}, Spelled s ts ∧ s.isSimple = true →
      (∀ s' ∈ some s, s'.bare.Grammatical ∧ s'.isSimple = true) ∧
        Spells (Stmt.spellingFirst ((some s).map Stmt.bare)) ts := by
    intro s ts h
    rw [Option.map_some, Stmt.spellingFirst]
    exact ⟨by simpa using ⟨h.1.grammatical, h.2⟩, h.1.spells⟩
  unfold forInit
  refine Takes.accept (by decide) (Takes.get fun c => ?_) fun t ht => ?_
  · split
    · exact declaration_takes.bind fun s us hs => .pure (by simpa using hsome hs)
    · exact (expressionStatement_takes _).bind fun s us hs => .pure (by simpa using hsome hs)
  · refine .pure ⟨by simp, ?_⟩
    rw [Option.map_none, Stmt.spellingFirst]
    exact .kind ht .nil

section

variable {t : Token}

variable {item : Parse (Stmt Line)}
  (hitem : Takes item fun s ts => Spelled s ts ∧ ¬s.bare.BeginsWithBrace)

include hitem

theorem statements_takes (fuel : Nat) :
    Takes (statements item fuel) fun ss ts =>
      (∀ s ∈ ss, s.bare.Grammatical ∧ ¬s.bare.BeginsWithBrace) ∧
        Spells (Stmt.spellingList (ss.map Stmt.bare) ++ [.mark .rbrace]) ts := by
  induction fuel with
  | zero => exact .fail _
  | succ fuel ih =>
    rw [statements]
    refine Takes.accept (by decide) (Takes.get fun c => ?_) fun t ht => ?_
    · split
      · exact .fail _
      · refine hitem.bind fun s us hs => ih.bind fun ss vs hss => .pure ⟨?_, ?_⟩
        · exact List.forall_mem_cons.mpr ⟨⟨hs.1.grammatical, hs.2⟩, hss.1⟩
        · rw [List.map_cons, Stmt.spellingList, List.append_nil, List.append_assoc]
          exact hs.1.spells.append hss.2
    · refine .pure ⟨by simp, ?_⟩
      rw [List.map_nil, Stmt.spellingList]
      exact .kind ht .nil

theorem block_takes :
    Takes (block item) fun s ts => Spelled s ts ∧ s.bare.isBlock = true := by
  unfold block
  refine Takes.require (fun t ht => ?_) fun t ht => Takes.get fun c => ?_
  · rw [of_decide_eq_true ht]
    exact Token.Kind.noConfusion
  · refine (statements_takes hitem _).bind fun ss us hss => .pure ⟨?_, ?_⟩
    · refine spelled_node ?_ (by simp) ?_ ?_
      · simpa [Stmt.Shape.map, Stmt.Shape.Grammatical] using fun s hs => (hss.1 s hs).2
      · exact fun s hs => (hss.1 s hs).1
      · rw [Stmt.Shape.map, Stmt.spelling, List.append_nil]
        exact .kind (of_decide_eq_true ht) hss.2
    · rw [Stmt.bare_node]
      rfl

/-- The tokens spell the branches of a choice. -/
structure SpelledArms (arms : List (Expr Line × Stmt Line)) (otherwise : Option (Stmt Line))
    (ts : List Token) : Prop where
  ne_nil : arms ≠ []
  arm : ∀ b ∈ arms, b.1.bare.Grammatical ∧ b.2.bare.Grammatical ∧ b.2.bare.isBlock = true
  last : ∀ s ∈ otherwise, s.bare.Grammatical ∧ s.bare.isBlock = true
  spells : Spells (Stmt.spellingArms (arms.map fun b => (b.1.bare, b.2.bare)) ++
    Stmt.spellingElse (otherwise.map Stmt.bare)) ts

theorem branches_takes (ht : t.kind = .keyword .ifWord) (fuel : Nat) :
    Takes (branches item fuel) fun r ts => SpelledArms r.1 r.2 (t :: ts) := by
  induction fuel generalizing t with
  | zero => exact .fail _
  | succ fuel ih =>
    rw [branches]
    refine (condition_takes _).bind fun c us hc => (block_takes hitem).bind fun s vs hs => ?_
    have hfirst : Spells (.word .ifWord :: (Stmt.spellingCondition c.bare ++ s.bare.spelling))
        (t :: (us ++ vs)) := .kind ht (hc.2.append hs.1.spells)
    have harm : ∀ b ∈ [(c, s)], b.1.bare.Grammatical ∧ b.2.bare.Grammatical ∧
        b.2.bare.isBlock = true := by
      simpa using ⟨hc.1, hs.1.grammatical, hs.2⟩
    -- The choice ends here, or with one more block, or it goes on with a further branch.
    refine Takes.accept (by decide) ?_ fun t' ht' => Takes.accept (by decide) ?_ fun t'' ht'' => ?_
    · refine .pure ⟨List.cons_ne_nil _ _, harm, by simp, ?_⟩
      simpa [Stmt.spellingArms, Stmt.spellingElse] using hfirst
    · refine (block_takes hitem).bind fun o ws ho => .pure ⟨List.cons_ne_nil _ _, harm, ?_, ?_⟩
      · simpa using ⟨ho.1.grammatical, ho.2⟩
      · have hlast : Spells (.word .elseWord :: o.bare.spelling) (t' :: ws) := .kind ht' ho.1.spells
        simpa [Stmt.spellingArms, Stmt.spellingElse] using hfirst.append hlast
    · refine (ih ht'').bind fun r ws hr => .pure ⟨List.cons_ne_nil _ _, ?_, hr.last, ?_⟩
      · exact List.forall_mem_cons.mpr ⟨harm _ (by simp), hr.arm⟩
      · obtain ⟨arms, otherwise⟩ := r
        obtain ⟨b, bs, rfl⟩ := List.exists_cons_of_ne_nil hr.ne_nil
        have hmore := hr.spells
        rw [List.map_cons] at hmore
        rw [List.map_cons, List.map_cons, Stmt.spellingArms]
        have helse : Spells (.word .elseWord :: _) (t' :: t'' :: ws) := .kind ht' hmore
        simpa using hfirst.append helse

theorem keywordStatement_takes {w : Token.Keyword} (ht : t.kind = .keyword w) :
    Takes (keywordStatement item t w) fun s ts => Spelled s (t :: ts) := by
  cases w with
  | ifWord =>
    refine Takes.get fun c => (branches_takes hitem ht _).bind fun r us hr => .pure ?_
    refine spelled_node ⟨by simpa using hr.ne_nil, ?_, ?_⟩ ?_ ?_ ?_
    · intro b hb
      obtain ⟨a, ha, rfl⟩ := List.mem_map.mp hb
      exact (hr.arm a ha).2.2
    · simpa using fun s h => (hr.last s h).2
    · simpa [Stmt.Shape.exprs] using fun e s h => (hr.arm (e, s) h).1
    · intro s hs
      rcases List.mem_append.mp hs with hs | hs
      · obtain ⟨b, hb, rfl⟩ := List.mem_map.mp hs
        exact (hr.arm b hb).2.1
      · exact (hr.last s (by simpa using hs)).1
    · rw [Stmt.Shape.map, Stmt.spelling, List.append_nil]
      exact hr.spells
  | whileWord =>
    refine (condition_takes _).bind fun c us hc => (block_takes hitem).bind fun s vs hs => .pure ?_
    refine spelled_node hs.2 ?_ ?_ ?_
    · simpa [Stmt.Shape.exprs] using hc.1
    · simpa [Stmt.Shape.children] using hs.1.grammatical
    · rw [Stmt.Shape.map, Stmt.spelling, List.append_nil]
      exact .kind ht (hc.2.append hs.1.spells)
  | forWord =>
    refine Takes.mark fun t₁ h₁ => forInit_takes.bind fun init us hinit => ?_
    refine (optionalBefore_takes _).bind fun c vs hc => Takes.mark fun t₂ h₂ => ?_
    refine (optionalBefore_takes _).bind fun u ws hu => Takes.mark fun t₃ h₃ => ?_
    refine (block_takes hitem).bind fun s xs hs => .pure ?_
    refine spelled_node ⟨by simpa using fun s h => (hinit.1 s h).2, hs.2⟩ ?_ ?_ ?_
    · intro e he
      rcases List.mem_append.mp he with he | he
      · exact hc.1 e (by simpa using he)
      · exact hu.1 e (by simpa using he)
    · intro s' hs'
      rcases List.mem_append.mp hs' with hs' | hs'
      · exact (hinit.1 s' (by simpa using hs')).1
      · rw [List.mem_singleton.mp hs']
        exact hs.1.grammatical
    · rw [Stmt.Shape.map, Stmt.spelling, List.append_nil]
      simp only [List.append_assoc]
      have hupdate := hu.2.append (.kind h₃ hs.1.spells)
      have hclauses := hinit.2.append (hc.2.append (.kind h₂ hupdate))
      exact .kind ht (.kind h₁ hclauses)
  | returnWord =>
    refine (optionalBefore_takes _).bind fun v us hv => Takes.mark fun t' ht' => .pure ?_
    refine spelled_node ht ?_ (by simp) ?_
    · simpa [Stmt.Shape.exprs] using hv.1
    · rw [Stmt.Shape.map, Stmt.spelling]
      exact .token (hv.2.append (.kind ht' .nil))
  | breakWord | continueWord =>
    refine Takes.mark fun t' ht' => .pure ?_
    refine spelled_node ht (by simp) (by simp) ?_
    rw [Stmt.Shape.map, Stmt.spelling]
    exact .token (.kind ht' .nil)
  | printWord =>
    refine Takes.mark fun t₁ h₁ => (expression_takes.itemsBefore _).bind fun es us hes => ?_
    refine Takes.mark fun t₂ h₂ => Takes.mark fun t₃ h₃ => .pure ?_
    refine spelled_node ht hes.1 (by simp) ?_
    rw [Stmt.Shape.map, Stmt.spelling, List.map_map]
    exact .token (.kind h₁ (hes.2.append (.kind h₂ (.kind h₃ .nil))))
  | inputWord =>
    refine Takes.mark fun t₁ h₁ => Takes.ident fun n hn => ?_
    refine Takes.mark fun t₂ h₂ => Takes.mark fun t₃ h₃ => .pure ?_
    refine spelled_node hn (by simp) (by simp) ?_
    rw [Stmt.Shape.map, Stmt.spelling]
    exact .kind ht (.kind h₁ (.token (.kind h₂ (.kind h₃ .nil))))
  | elseWord | randomWord => exact .failAt _ _

theorem statementOver_takes : Takes (statementOver item) Spelled := by
  unfold statementOver
  refine Takes.peek fun b => ?_
  cases b with
  | true => exact (block_takes hitem).mono fun s ts h => h.1
  | false =>
    refine Takes.takeKeyword? (Takes.get fun c => ?_) fun t w ht => keywordStatement_takes hitem ht
    split
    · exact declaration_takes.mono fun s ts h => h.1
    · exact (expressionStatement_takes _).mono fun s ts h => h.1

/-- A statement that begins with a brace is read as a block. -/
theorem statementOver_begins :
    Takes (statementOver item) fun s ts => Spelled s ts ∧ ¬s.bare.BeginsWithBrace := by
  intro c s c' h
  obtain ⟨ts, hts, heof, hs⟩ := statementOver_takes hitem c s c' h
  refine ⟨ts, hts, heof, hs, fun hbrace => ?_⟩
  obtain ⟨t, us, rfl, ht⟩ := hs.spells.exists_head hbrace.head?
  have hat : c.isAt (.punctuation .lbrace) = true := by
    simp [Cursor.isAt, Cursor.kind?, hts, ht]
  have hrun : statementOver item c = block item c := by
    simp only [statementOver, peek, bind, StateT.bind, Except.bind, hat, if_true]
  obtain ⟨_, _, _, _, hblock⟩ := block_takes hitem c s c' (hrun ▸ h)
  unfold Stmt.BeginsWithBrace at hbrace
  unfold Stmt.isBlock at hblock
  split at hbrace
  · rename_i heq
    rw [heq] at hblock
    cases hblock
  · exact hbrace

end

/-- A statement that is read is one of the grammar, and the tokens taken spell it. -/
theorem statementWithin_takes (fuel : Nat) :
    Takes (statementWithin fuel) fun s ts => Spelled s ts ∧ ¬s.bare.BeginsWithBrace := by
  induction fuel with
  | zero => exact .fail _
  | succ fuel ih => exact statementOver_begins ih

/-! ## Functions -/

theorem parameter_takes :
    Takes parameter fun p ts =>
      (p.name.kind.isIdent = true ∧ p.type ≠ .void) ∧ Spells p.spelling ts := by
  unfold parameter
  refine Takes.typeName fun type t ht => ?_
  split
  · exact .fail _
  · rename_i hvoid
    exact Takes.ident fun n hn => .pure ⟨⟨hn, hvoid⟩, .kind ht (.token .nil)⟩

theorem function_takes :
    Takes function fun f ts => f.bare.Grammatical ∧ Spells f.bare.spelling ts := by
  unfold function
  refine Takes.typeName fun type t₁ h₁ => Takes.ident fun n hn => Takes.mark fun t₂ h₂ => ?_
  refine (parameter_takes.itemsBefore _).bind fun ps us hps => Takes.mark fun t₃ h₃ => ?_
  unfold body
  rw [bind_assoc]
  refine Takes.get fun c => (block_takes (statementWithin_takes _)).bind fun s vs hs => .pure ?_
  refine ⟨⟨hn, hps.1, hs.2, hs.1.grammatical⟩, ?_⟩
  simp only [Function.spelling, Function.bare, List.append_assoc, List.append_nil]
  exact .kind h₁ (.token (.kind h₂ (hps.2.append (.kind h₃ hs.1.spells))))

theorem functionsWithin_takes (fuel : Nat) :
    Takes (functionsWithin fuel) fun fs ts =>
      (∀ f ∈ fs, f.bare.Grammatical) ∧ Spells (fs.flatMap fun f => f.bare.spelling) ts := by
  induction fuel with
  | zero => exact .pure ⟨by simp, .nil⟩
  | succ fuel ih =>
    rw [functionsWithin]
    refine Takes.get fun c => ?_
    split
    · exact .pure ⟨by simp, .nil⟩
    · refine function_takes.bind fun f us hf => ih.bind fun fs vs hfs => .pure ⟨?_, ?_⟩
      · exact List.forall_mem_cons.mpr ⟨hf.1, hfs.1⟩
      · rw [List.flatMap_cons, List.append_nil]
        exact hf.2.append hfs.2

/-- With enough fuel functions are read up to the end of the stream, as each takes a token. -/
theorem functionsWithin_atEnd {fuel : Nat} (h : functionsWithin fuel c = .ok (fs, c'))
    (hfuel : c.rest.length ≤ fuel) : c'.atEnd = true := by
  induction fuel generalizing c fs with
  | zero =>
    cases h
    have hnil : c'.rest = [] := List.eq_nil_of_length_eq_zero (Nat.le_zero.mp hfuel)
    simp [Cursor.atEnd, hnil]
  | succ fuel ih =>
    rw [functionsWithin] at h
    obtain ⟨_, _, hget, h⟩ := exists_of_bind_eq_ok h
    cases hget
    split at h
    · rename_i hend
      cases h
      exact hend
    · obtain ⟨f, c₁, hf, h⟩ := exists_of_bind_eq_ok h
      obtain ⟨gs, c₂, hgs, h⟩ := exists_of_bind_eq_ok h
      cases h
      refine ih hgs ?_
      -- The return type at least has been taken, so the fuel lasts.
      obtain ⟨ts, hts, -, -, hspells⟩ := function_takes _ _ _ hf
      obtain ⟨t, us, rfl, -⟩ := hspells.exists_head rfl
      rw [hts, List.length_append, List.length_cons] at hfuel
      omega

/-- All functions up to the end of the stream are read, and the tokens before it spell them. -/
theorem functions_spell (h : functions (.start tokens) = .ok (fs, c)) :
    (∀ f ∈ fs, f.bare.Grammatical) ∧
      Spells (fs.flatMap fun f => f.bare.spelling) (tokens.takeWhile fun t => t.kind ≠ .eof) := by
  obtain ⟨_, _, hget, h⟩ := exists_of_bind_eq_ok h
  cases hget
  obtain ⟨ts, hts, heof, hg, hspells⟩ := functionsWithin_takes _ _ _ _ h
  refine ⟨hg, ?_⟩
  -- No end mark is among the tokens taken, and one, or nothing, comes behind them.
  have hend := functionsWithin_atEnd h (Nat.le_refl _)
  have htokens : tokens.takeWhile (fun t => t.kind ≠ .eof) = ts := by
    rw [show tokens = ts ++ c.rest from hts,
      List.takeWhile_append_of_pos (by simpa using heof)]
    cases hrest : c.rest with
    | nil => simp
    | cons t rest =>
      simp only [Cursor.atEnd, hrest, List.isEmpty_cons, Bool.false_or, Cursor.isAt, Cursor.kind?,
        List.head?_cons, Option.map_some, decide_eq_true_eq, Option.some.injEq] at hend
      simp [hend]
  rw [htokens]
  exact hspells

theorem functions_formed (h : functions (.start tokens) = .ok (fs, c)) : ∀ f ∈ fs, f.Formed :=
  fun f hf => ((functions_spell h).1 f hf).formed

end Parse

/-! ## Programs -/

namespace Program

/-- A program that is parsed is one of the grammar, and loses nothing: all its functions are in
view, in the order of their numbers, and the tokens before the end mark, or all of them if there is
none, spell these functions and nothing else. -/
theorem parse_grammatical {tokens : List Token} {p : Program} (h : parse tokens = .ok p) :
    p.tree.views.map Prod.fst = List.range p.tree.functions.size ∧
      (∀ v ∈ p.tree.views, v.2.bare.Grammatical) ∧
      Spells (p.tree.views.flatMap fun v => v.2.bare.spelling)
        (tokens.takeWhile fun t => t.kind ≠ .eof) := by
  cases hfs : Parse.functions.run (.start tokens) with
  | error e =>
    rw [parse, hfs] at h
    cases h
  | ok r =>
    obtain ⟨fs, c⟩ := r
    obtain ⟨hparse, horderly, hviews⟩ := views_of_functions hfs (Parse.functions_formed hfs)
    obtain rfl : ofFunctions fs = p := by
      rw [hparse] at h
      exact Except.ok.inj h
    obtain ⟨hg, hspells⟩ := Parse.functions_spell hfs
    refine ⟨horderly.ids, fun v hv => ?_, ?_⟩
    · have hmem : v.2.bare ∈ fs.map Function.bare := hviews ▸ List.mem_map_of_mem hv
      obtain ⟨f, hf, hfv⟩ := List.mem_map.mp hmem
      exact hfv ▸ hg f hf
    · have hflat := congrArg (List.flatMap Function.spelling) hviews
      rw [List.flatMap_map, List.flatMap_map] at hflat
      rw [hflat]
      exact hspells

/-- `int f(int n) { int a[] = {n, 2}; if (n - 2 - 1 < 7 && !b) { a[0] = n = -1; } else { n++; } }`,
with no end mark. -/
def unmarked : List Token :=
  [.typeName .int, .ident "f", .punctuation .lparen, .typeName .int, .ident "n",
    .punctuation .rparen, .punctuation .lbrace,
    .typeName .int, .ident "a", .punctuation .lbracket, .punctuation .rbracket, .operator .assign,
    .punctuation .lbrace, .ident "n", .punctuation .comma, .literal (.int 2), .punctuation .rbrace,
    .punctuation .semicolon,
    .keyword .ifWord, .punctuation .lparen, .ident "n", .operator .minus, .literal (.int 2),
    .operator .minus, .literal (.int 1), .operator .lt, .literal (.int 7), .operator .and,
    .operator .not, .ident "b", .punctuation .rparen, .punctuation .lbrace,
    .ident "a", .punctuation .lbracket, .literal (.int 0), .punctuation .rbracket,
    .operator .assign, .ident "n", .operator .assign, .operator .minus, .literal (.int 1),
    .punctuation .semicolon, .punctuation .rbrace, .keyword .elseWord, .punctuation .lbrace,
    .ident "n", .operator .increment, .punctuation .semicolon, .punctuation .rbrace,
    .punctuation .rbrace].map Token.ofKind

theorem parse_grammatical_unmarked :
    ∃ p, parse unmarked = .ok p ∧ p.tree.functions.size = 1 ∧
      (∀ v ∈ p.tree.views, v.2.bare.Grammatical) ∧
      Spells (p.tree.views.flatMap fun v => v.2.bare.spelling) unmarked := by
  have hall : ((parse unmarked).toOption.any fun p => p.tree.functions.size = 1) = true := by
    decide +kernel
  simp only [any_toOption_iff, decide_eq_true_eq] at hall
  obtain ⟨p, hp, hall⟩ := hall
  obtain ⟨-, hg, hspells⟩ := parse_grammatical hp
  refine ⟨p, hp, hall, hg, ?_⟩
  have htokens : unmarked.takeWhile (fun t => t.kind ≠ .eof) = unmarked := by decide
  rwa [htokens] at hspells

end Program

/-! ## Initial values of arrays -/

/-- An array with an initial value has a list in braces as that value. -/
def Stmt.Shape.ListInitialized : Shape (Stmt Unit) (Expr Unit) → Prop
  | .array _ _ _ (some (.node _ shape)) => ∃ es, shape = .braces es
  | _ => True

namespace Program

/-- `void main() { int x[1] = y; }` -/
def valueForArray : List Token :=
  [⟨.typeName .void, "void", ⟨1, 1⟩⟩, ⟨.ident "main", "main", ⟨1, 6⟩⟩,
    ⟨.punctuation .lparen, "(", ⟨1, 10⟩⟩, ⟨.punctuation .rparen, ")", ⟨1, 11⟩⟩,
    ⟨.punctuation .lbrace, "\x7b", ⟨1, 13⟩⟩, ⟨.typeName .int, "int", ⟨1, 15⟩⟩,
    ⟨.ident "x", "x", ⟨1, 19⟩⟩, ⟨.punctuation .lbracket, "[", ⟨1, 20⟩⟩,
    ⟨.literal (.int 1), "1", ⟨1, 21⟩⟩, ⟨.punctuation .rbracket, "]", ⟨1, 22⟩⟩,
    ⟨.operator .assign, "=", ⟨1, 24⟩⟩, ⟨.ident "y", "y", ⟨1, 26⟩⟩,
    ⟨.punctuation .semicolon, ";", ⟨1, 27⟩⟩, ⟨.punctuation .rbrace, "\x7d", ⟨1, 29⟩⟩,
    ⟨.eof, "", ⟨1, 30⟩⟩]

/-- An array of a given length may have any expression as its initial value: that it is a list in
braces is left to the type checker. -/
theorem parse_valueForArray :
    ∃ p, parse valueForArray = .ok p ∧ ¬∀ v ∈ p.tree.views,
      v.2.bare.body.All fun _ shape => shape.ListInitialized := by
  obtain ⟨fs, c, hfs, hbody⟩ : ∃ fs c, Parse.functions (.start valueForArray) = .ok (fs, c) ∧
      ∃ f ∈ fs, ∃ n n', f.body = .node 1 (.block [.node 1 (.array n .int 1
        (some (.node 1 (.name n'))))]) := ⟨_, _, rfl, _, List.mem_cons_self, _, _, rfl⟩
  obtain ⟨f, hf, n, n', hbody⟩ := hbody
  obtain ⟨hparse, -, hviews⟩ := views_of_functions hfs (Parse.functions_formed hfs)
  refine ⟨_, hparse, fun hall => ?_⟩
  have hmem : f.bare ∈ (ofFunctions fs).tree.views.map fun v => v.2.bare := by
    rw [hviews]
    exact List.mem_map_of_mem hf
  obtain ⟨v, hv, hvf⟩ := List.mem_map.mp hmem
  have hlisted := hvf ▸ hall v hv
  rw [Function.bare, hbody, Stmt.bare_node] at hlisted
  have harray := hlisted.child _ (List.mem_singleton.mpr rfl)
  rw [Stmt.bare_node] at harray
  obtain ⟨es, hes⟩ := harray.root
  cases hes

end Program

end StackLang
