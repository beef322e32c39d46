import StackLang.Parse.Stmt

/-!
# Parsers that are alike

Two parsers that do the same as long as few tokens remain are alike.  Behind a parser that takes a
token it is enough that the next ones are alike with one token less, so what the parser of a nested
part does where a token comes before it is settled by what it does with fewer tokens.

* `Parse.Alike` — the parsers do the same below a number of tokens, and move forward.
* `Parse.Alike.andThen`, `Parse.Alike.takeIf` — what follows a token has fewer of them.
* `Parse.unaryOver_alike`, `Parse.statementOver_alike` — what nests operands, expressions and
  statements.
-/

namespace StackLang.Parse

variable {α β : Type} {x y : Parse α} {f g : α → Parse β} {n : Nat} {m : Bool}

/-! ## Parsers that do the same -/

/-- Where fewer than `n` tokens remain the two parsers do the same, and move forward over a part of
them; with `m`, over at least one. -/
def Alike (n : Nat) (m : Bool) (x y : Parse α) : Prop :=
  ∀ c : Cursor, c.rest.length < n →
    x c = y c ∧ ∀ a c', x c = .ok (a, c') → ∃ ts, c.rest = ts ++ c'.rest ∧ (m → ts ≠ [])

namespace Alike

variable {p : Token → Bool}

theorem zero : Alike 0 m x y :=
  fun _ hc => absurd hc (Nat.not_lt_zero _)

theorem mono {n' : Nat} (h : Alike n m x y) (hn : n' ≤ n) : Alike n' m x y :=
  fun c hc => h c (Nat.lt_of_lt_of_le hc hn)

/-- A parser that takes a token moves forward. -/
theorem weaken (h : Alike n true x y) : Alike n m x y := by
  intro c hc
  obtain ⟨heq, hmoves⟩ := h c hc
  refine ⟨heq, fun a c' ha => ?_⟩
  obtain ⟨ts, hts, hne⟩ := hmoves a c' ha
  exact ⟨ts, hts, fun _ => hne rfl⟩

/-- A parser that takes nothing. -/
theorem of_stays {v : Cursor → α} (h : ∀ c, x c = .ok (v c, c)) : Alike n false x x := by
  refine fun c _ => ⟨rfl, fun a c' ha => ?_⟩
  rw [h c] at ha
  cases ha
  exact ⟨[], rfl, by simp⟩

theorem pure (a : α) : Alike n false (pure a) (pure a) :=
  of_stays (v := fun _ => a) fun _ => rfl

theorem failAt (pos : Position) (cause : ParseCause) :
    Alike n m (failAt pos cause : Parse α) (Parse.failAt pos cause) :=
  fun c _ => ⟨rfl, fun a c' h => by cases h⟩

theorem fail (cause : ParseCause) : Alike n m (fail cause : Parse α) (Parse.fail cause) :=
  fun c _ => ⟨rfl, fun a c' h => by cases h⟩

/-- Two parsers in a row.  What the first takes is not left for the second. -/
theorem seq {j k : Bool} (hx : Alike n j x y) (hf : ∀ a, Alike (n - j.toNat) k (f a) (g a)) :
    Alike n (j || k) (x >>= f) (y >>= g) := by
  intro c hc
  obtain ⟨heq, hmoves⟩ := hx c hc
  simp only [Bind.bind, StateT.bind, Except.bind, ← heq]
  cases hxc : x c with
  | error e => exact ⟨rfl, fun b c' h => by cases h⟩
  | ok r =>
    obtain ⟨ts, hts, hne⟩ := hmoves r.1 r.2 hxc
    have hlt : r.2.rest.length < n - j.toNat := by
      have hlen : c.rest.length = ts.length + r.2.rest.length := by rw [hts, List.length_append]
      cases j with
      | false => exact Nat.lt_of_le_of_lt (by omega) hc
      | true =>
        have hpos := List.length_pos_iff.mpr (hne rfl)
        simp only [Bool.toNat_true]
        omega
    obtain ⟨hfg, hmoves'⟩ := hf r.1 r.2 hlt
    refine ⟨hfg, fun b c' hb => ?_⟩
    obtain ⟨us, hus, hne'⟩ := hmoves' b c' hb
    exact ⟨ts ++ us, by rw [hts, hus, List.append_assoc], by grind⟩

/-- Behind a parser that may take nothing, no more tokens are left. -/
theorem bind (hx : Alike n false x y) (hf : ∀ a, Alike n m (f a) (g a)) :
    Alike n m (x >>= f) (y >>= g) :=
  seq hx hf

/-- Behind a parser that takes a token, fewer are left. -/
theorem andThen (hx : Alike n true x y) (hf : ∀ a, Alike (n - 1) false (f a) (g a)) :
    Alike n m (x >>= f) (y >>= g) :=
  (seq hx hf).weaken

theorem ite {x' y' : Parse α} {p : Prop} [Decidable p] (hx : Alike n m x y)
    (hx' : Alike n m x' y') :
    Alike n m (if p then x else x') (if p then y else y') := by
  split
  · exact hx
  · exact hx'

/-- A look at the cursor. -/
theorem look {v : Cursor → α} (h : ∀ c, x c = .ok (v c, c)) (hf : ∀ a, Alike n m (f a) (g a)) :
    Alike n m (x >>= f) (x >>= g) :=
  bind (of_stays h) hf

/-- Behind a token that is taken, fewer are left. -/
theorem takeIf {p : Token → Bool} {f g : Option Token → Parse β}
    (hnone : Alike n m (f none) (g none))
    (hsome : ∀ t, Alike (n - 1) false (f (some t)) (g (some t))) :
    Alike n m (takeIf p >>= f) (Parse.takeIf p >>= g) := by
  intro c hc
  have hcases : Parse.takeIf p c = .ok (none, c) ∨
      ∃ t rest, c.rest = t :: rest ∧ Parse.takeIf p c = .ok (some t, ⟨rest, some t⟩) := by
    simp only [Parse.takeIf]
    grind
  obtain hno | ⟨t, rest, hrest, hyes⟩ := hcases
  · simp only [Bind.bind, StateT.bind, Except.bind, hno]
    exact hnone c hc
  · simp only [Bind.bind, StateT.bind, Except.bind, hyes]
    have hlt : rest.length < n - 1 := by
      rw [hrest, List.length_cons] at hc
      omega
    obtain ⟨hfg, hmoves⟩ := hsome t ⟨rest, some t⟩ hlt
    refine ⟨hfg, fun a c' ha => ?_⟩
    obtain ⟨ts, hts, -⟩ := hmoves a c' ha
    exact ⟨t :: ts, by rw [hrest, List.cons_append, ← hts], by simp⟩

/-- Whether a token is taken or not, no more are left behind it. -/
theorem optional {f g : Option Token → Parse β} (hnone : Alike n m (f none) (g none))
    (hsome : ∀ t, Alike n false (f (some t)) (g (some t))) :
    Alike n m (Parse.takeIf p >>= f) (Parse.takeIf p >>= g) :=
  takeIf hnone fun t => (hsome t).mono (Nat.sub_le n 1)

theorem require (p : Token → Bool) (item : Expected) :
    Alike n m (require p item) (Parse.require p item) :=
  takeIf (fail _) fun t => pure t

theorem typeName (item : Expected) : Alike n m (typeName item) (Parse.typeName item) :=
  andThen (require _ _) fun _ => pure _

/-- A token that closes a part. -/
theorem closing {item : Expected} (v : Token → α) :
    Alike n false (Parse.require p item >>= fun t => Pure.pure (v t))
      (Parse.require p item >>= fun t => Pure.pure (v t)) :=
  bind (require _ _) fun _ => pure _

end Alike

/-! ## Loops

One round of each loop, with what goes on behind it. -/

/-- An item and, behind a comma, more. -/
def separated (item : Parse α) (more : Parse (List α)) : Parse (List α) := do
  let first ← item
  match ← accept (.punctuation .comma) with
  | some _ => return first :: (← more)
  | none => return [first]

/-- An item and more, unless the stream ends. -/
def untilEnd (item : Parse α) (more : Parse (List α)) : Parse (List α) := do
  if (← get).atEnd then return []
  else
    let first ← item
    return first :: (← more)

/-- A statement and more, unless the closing brace comes. -/
def untilClosed (item : Parse (Stmt Line)) (more : Parse (List (Stmt Line))) :
    Parse (List (Stmt Line)) := do
  match ← accept (.punctuation .rbrace) with
  | some _ => return []
  | none =>
    if (← get).atEnd then fail .unclosedBlock
    else
      let first ← item
      return first :: (← more)

/-- A branch and, behind `else` and `if`, more. -/
def branched (block : Parse (Stmt Line))
    (more : Parse (List (Expr Line × Stmt Line) × Option (Stmt Line))) :
    Parse (List (Expr Line × Stmt Line) × Option (Stmt Line)) := do
  let c ← condition .ifWord
  let body ← block
  match ← accept (.keyword .elseWord) with
  | none => return ([(c, body)], none)
  | some _ =>
    match ← accept (.keyword .ifWord) with
    | none => return ([(c, body)], some (← block))
    | some _ =>
      let (rest, otherwise) ← more
      return ((c, body) :: rest, otherwise)

/-- An operator of the level with its right operand, and more. -/
def joined (operand : Parse (Expr Line)) (ops : List Token.Operator)
    (more : Expr Line → Parse (Expr Line)) (left : Expr Line) : Parse (Expr Line) := do
  match ← takeIf (Token.isOneOf ops) with
  | none => return left
  | some op =>
    let right ← operand
    more (.node op.line (.binary left op right))

section

variable {item item' : Parse α} {more more' : Parse (List α)}

theorem separated_alike (h : Alike n true item item') (hmore : Alike (n - 1) false more more') :
    Alike n m (separated item more) (separated item' more') :=
  .andThen h fun _ => .optional (.pure _) fun _ => .bind hmore fun _ => .pure _

theorem untilEnd_alike (h : Alike n true item item') (hmore : Alike (n - 1) false more more') :
    Alike n false (untilEnd item more) (untilEnd item' more') :=
  .look (fun _ => rfl) fun _ => .ite (.pure _) (.andThen h fun _ => .bind hmore fun _ => .pure _)

theorem commaSeparated_alike (h : Alike n true item item') (fuel : Nat) :
    Alike n m (commaSeparated item fuel) (commaSeparated item' fuel) := by
  induction fuel generalizing m with
  | zero => exact .andThen h fun _ => .pure _
  | succ fuel ih => exact separated_alike h (ih.mono (Nat.sub_le n 1))

theorem itemsBefore_alike {close : Token.Punctuation} (h : Alike n true item item') :
    Alike n false (itemsBefore close item) (itemsBefore close item') := by
  refine .look (fun _ => rfl) fun _ => .ite (.pure _) (.look (fun _ => rfl) fun _ => ?_)
  exact commaSeparated_alike h _

end

/-! ## Expressions -/

section

variable {operand operand' sub sub' : Parse (Expr Line)} {ops : List Token.Operator}

theorem joined_alike {more more' : Expr Line → Parse (Expr Line)}
    (h : Alike n true operand operand') (hmore : ∀ left, Alike n false (more left) (more' left))
    (left : Expr Line) :
    Alike (n + 1) false (joined operand ops more left) (joined operand' ops more' left) :=
  .takeIf (.pure _) fun _ => .bind h.weaken fun _ => hmore _

theorem chain_alike (h : Alike n true operand operand') (fuel : Nat) (left : Expr Line) :
    Alike n false (chain operand ops fuel left) (chain operand' ops fuel left) := by
  induction fuel generalizing left with
  | zero => exact .pure left
  | succ fuel ih => exact (joined_alike h ih left).mono (Nat.le_succ n)

theorem assignTo_alike (target : Expr Line) (eq : Token) (value : Expr Line) :
    Alike n false (assignTo target eq value) (assignTo target eq value) := by
  unfold assignTo
  split
  · exact .pure _
  · exact .pure _
  · exact .failAt _ _

theorem afterName_alike (h : Alike n true sub sub') (t : Token) :
    Alike n false (afterName sub t) (afterName sub' t) := by
  refine .optional (.optional (.pure _) fun _ => ?_) fun _ => ?_
  · exact .bind h.weaken fun _ => .closing _
  · exact .bind (itemsBefore_alike h) fun _ => .closing _

theorem primaryFrom_alike (h : Alike n true sub sub') (t : Token) :
    Alike n false (primaryFrom sub t) (primaryFrom sub' t) := by
  unfold primaryFrom
  split
  · exact .pure _
  · exact afterName_alike h t
  · exact .bind h.weaken fun _ => .closing _
  · refine .bind (.require _ _) fun _ => .bind h.weaken fun _ => ?_
    exact .closing _
  · exact .bind (itemsBefore_alike h) fun _ => .closing _
  · exact .failAt _ _

theorem primary_alike (h : Alike n true sub sub') :
    Alike (n + 1) m (primary sub) (primary sub') :=
  .takeIf (.fail _) (primaryFrom_alike h)

/-- An operand with the operators before it, where `operand` reads what follows an operator and
`sub` the expressions that are nested. -/
def unaryOver (operand sub : Parse (Expr Line)) : Parse (Expr Line) := do
  match ← takeIf (Token.isOneOf [.not, .minus, .plus]) with
  | some op => return .node op.line (.unary op (← operand) false)
  | none =>
    match ← takeIf (Token.isOneOf [.increment, .decrement]) with
    | some op =>
      let operand ← operand
      if operand.isName then return .node op.line (.unary op operand false)
      else failAt op.pos (.invalidOperand op.lexeme)
    | none => trailing sub

/-- Operands and expressions are nested behind a token. -/
theorem unaryOver_alike (ho : Alike n true operand operand') (hs : Alike n true sub sub') :
    Alike (n + 1) m (unaryOver operand sub) (unaryOver operand' sub') := by
  refine .takeIf (.takeIf ?_ fun op => ?_) fun op => .bind ho.weaken fun _ => .pure _
  · refine .andThen (primary_alike hs) fun e =>
      .ite (.optional (.pure _) fun _ => .pure _) (.pure _)
  · exact .bind ho.weaken fun _ => .ite (.pure _) (.failAt _ _)

end

end StackLang.Parse
