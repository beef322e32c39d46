import Mathlib.Logic.Function.Iterate
import StackLang.Program.Layout
import StackLang.Proofs.Parse.Alike
import StackLang.Proofs.Parse.Grammar

/-!
# The parser ends

The parser runs with a fuel wherever it nests or repeats.  With fuel for all tokens it is the parser
without fuel: each part of it does what it says, by calls to the parts themselves.  A call is made
with fewer tokens left or, at the same token, for a tighter level of expressions, so calls are not
nested without end.

* `Parse.Recurses` — a part does what one round of it does by calls, and these are nested only as
  deep as the remaining tokens and the level allow.
* `Parse.levelRound_guarded` — expressions, level by level.
* `Parse.Loops.recurses` — statements, and each of the loops.
* `Parse.parser_terminates` — where the parser is after a part, and how deep the calls are nested.
-/

namespace StackLang.Parse

variable {α ι : Type} {n : Nat} {m : Bool} {rank : ι → Nat} {round : (ι → Parse α) → ι → Parse α}

/-! ## Rounds that call parts -/

/-- One round settles what it does by calls with fewer tokens left or, with as many, to parts of a
lower rank. -/
def Guarded (m : Bool) (rank : ι → Nat) (round : (ι → Parse α) → ι → Parse α) : Prop :=
  ∀ (n : Nat) (y z : ι → Parse α) (i : ι), (∀ i, Alike n m (y i) (z i)) →
    (∀ j, rank j < rank i → Alike (n + 1) m (y j) (z j)) → Alike (n + 1) m (round y i) (round z i)

/-- The parts `x` do what a round says by calls to themselves.  The calls are not nested deeper than
the remaining tokens and the ranks allow: below that, `stop` is never called. -/
structure Recurses (rank : ι → Nat) (top : Nat) (round : (ι → Parse α) → ι → Parse α)
    (x : ι → Parse α) : Prop where
  eq : ∀ i, x i = round x i
  ends : ∀ (stop : ι → Parse α) {depth : Nat} {i : ι} {c : Cursor},
    c.rest.length * (top + 1) + rank i < depth → round^[depth] stop i c = x i c

/-- What a part does by calls to itself alone. -/
def Loop (round : Parse α → Parse α) (x : Parse α) : Prop :=
  Recurses (fun _ : Unit => 0) 0 (fun more i => round (more i)) fun _ => x

namespace Guarded

variable {top : Nat} {x : ι → Parse α} (h : Guarded m rank round) (htop : ∀ i, rank i ≤ top)
  (hx : ∀ i, x i = round x i)

include h htop hx

theorem iterate_alike (stop : ι → Parse α) {depth n : Nat} {i : ι}
    (hdepth : n * (top + 1) + rank i < depth) : Alike (n + 1) m (round^[depth] stop i) (x i) := by
  induction depth generalizing n i with
  | zero => exact absurd hdepth (Nat.not_lt_zero _)
  | succ depth ih =>
    rw [Function.iterate_succ_apply', hx i]
    refine h _ _ _ _ (fun j => ?_) fun j hj => ih (by omega)
    cases n with
    | zero => exact .zero
    | succ n =>
      have := htop j
      rw [Nat.succ_mul] at hdepth
      exact ih (by omega)

theorem recurses : Recurses rank top round x where
  eq := hx
  ends stop _ _ c hc := (h.iterate_alike htop hx stop hc c (Nat.lt_succ_self _)).1

/-- What recurses moves forward. -/
theorem refl (n : Nat) (i : ι) : Alike n m (x i) (x i) := by
  intro c hc
  have hend := h.iterate_alike htop hx x (Nat.lt_succ_self (n * (top + 1) + rank i)) c (by omega)
  exact ⟨rfl, hend.1 ▸ hend.2⟩

end Guarded

/-! ## Expressions -/

/-- An expression of the level: the loosest is any expression, and from the seventh on it is an
operand with the operators before it. -/
def levelWithin (fuel : Nat) : Nat → Parse (Expr Line)
  | 0 => expressionWithin fuel
  | k + 1 => binary (unary fuel) (Token.levelsFrom (k + 1))

/-- An expression of the level, with fuel for all tokens. -/
def level (k : Nat) : Parse (Expr Line) :=
  fun c => levelWithin c.exprFuel k c

/-- One round of a level, with calls for the others. -/
def levelRound (call : Nat → Parse (Expr Line)) : Nat → Parse (Expr Line)
  | 0 => do
    let target ← call 1
    match ← accept (.operator .assign) with
    | none => return target
    | some eq => assignTo target eq (← call 0)
  | k + 1 =>
    match Token.levelsFrom (k + 1) with
    | ops :: _ => do
      let left ← call (k + 2)
      chain (call (k + 2)) ops (← get).rest.length left
    | [] => unaryOver (call (k + 1)) (call 0)

theorem levelsFrom_cases (k : Nat) :
    (k < 6 ∧ ∃ ops, Token.levelsFrom (k + 1) = ops :: Token.levelsFrom (k + 2)) ∨
      6 ≤ k ∧ Token.levelsFrom (k + 1) = [] := by
  obtain hk | hk := Nat.lt_or_ge k 6
  · obtain ⟨ops, hlevels, -⟩ := Token.levelsFrom_eq_cons (Nat.succ_pos k) hk
    exact .inl ⟨hk, ops, hlevels⟩
  · exact .inr ⟨hk, List.drop_eq_nil_of_le hk⟩

/-- A level calls the next one at the same token, and all others behind a token. -/
theorem levelRound_guarded : Guarded true (fun k => 7 - k) levelRound := by
  intro n y z k hbelow hsame
  cases k with
  | zero =>
    refine .andThen (hsame 1 (by decide)) fun target => .optional (.pure _) fun eq => ?_
    exact .bind (hbelow 0).weaken fun value => assignTo_alike _ _ _
  | succ k =>
    obtain ⟨hk, ops, hlevels⟩ | ⟨-, hlevels⟩ := levelsFrom_cases k
    · have htighter : 7 - (k + 2) < 7 - (k + 1) := by omega
      simp only [levelRound, hlevels]
      refine .andThen (hsame (k + 2) htighter) fun left => .look (fun _ => rfl) fun _ => ?_
      exact chain_alike (hbelow (k + 2)) _ left
    · simp only [levelRound, hlevels]
      exact unaryOver_alike (hbelow (k + 1)) (hbelow 0)

/-- A level with fuel is one round over levels with fuel.  Two units for each token are enough;
where an operand comes first, one less will do. -/
theorem exists_levelRound {k fuel : Nat} (h : 2 * (n + 1) ≤ fuel + min k 1) :
    ∃ fuel', levelWithin fuel k = levelRound (levelWithin fuel') k ∧ 2 * n ≤ fuel' ∧
      (k < 7 → 2 * (n + 1) ≤ fuel' + 1) := by
  cases k with
  | zero =>
    obtain ⟨fuel, rfl⟩ : ∃ g, fuel = g + 1 := ⟨fuel - 1, by omega⟩
    exact ⟨fuel, rfl, by omega, by omega⟩
  | succ k =>
    obtain ⟨-, ops, hlevels⟩ | ⟨hk, hlevels⟩ := levelsFrom_cases k
    · refine ⟨fuel, ?_, by omega, by omega⟩
      simp only [levelWithin, levelRound, hlevels]
      rfl
    · obtain ⟨fuel, rfl⟩ : ∃ g, fuel = g + 1 := ⟨fuel - 1, by omega⟩
      refine ⟨fuel, ?_, by omega, by omega⟩
      simp only [levelWithin, levelRound, hlevels]
      rfl

theorem levelWithin_alike (n : Nat) {k fuel fuel' : Nat} (hf : 2 * n ≤ fuel + min k 1)
    (hf' : 2 * n ≤ fuel' + min k 1) : Alike n true (levelWithin fuel k) (levelWithin fuel' k) := by
  induction n generalizing k fuel fuel' with
  | zero => exact .zero
  | succ n ih =>
    induction hr : 7 - k using Nat.strongRecOn generalizing k fuel fuel' with
    | _ r ihr =>
      subst hr
      obtain ⟨g, hg, hbelow, hsame⟩ := exists_levelRound hf
      obtain ⟨g', hg', hbelow', hsame'⟩ := exists_levelRound hf'
      rw [hg, hg']
      refine levelRound_guarded _ _ _ _ (fun j => ih (by omega) (by omega))
        fun j (hj : 7 - j < 7 - k) => ?_
      exact ihr _ hj (by omega) (by omega) rfl

theorem levelWithin_level {n k fuel : Nat} (h : 2 * n ≤ fuel + min k 1) :
    Alike n true (levelWithin fuel k) (level k) := by
  intro c hc
  refine levelWithin_alike (c.rest.length + 1) (by omega) ?_ c (Nat.lt_succ_self _)
  simp only [Cursor.exprFuel]
  omega

theorem level_eq (k : Nat) : level k = levelRound level k := by
  funext c
  have hfuel : 2 * (c.rest.length + 1) ≤ c.exprFuel + min k 1 := by
    simp only [Cursor.exprFuel]
    omega
  obtain ⟨g, hg, hbelow, hsame⟩ := exists_levelRound hfuel
  have hround :
      Alike (c.rest.length + 1) true (levelRound (levelWithin g) k) (levelRound level k) :=
    levelRound_guarded _ _ _ _ (fun j => levelWithin_level (by omega))
      fun j (hj : 7 - j < 7 - k) => levelWithin_level (by omega)
  exact (congrFun hg c).trans (hround c (Nat.lt_succ_self _)).1

theorem level_alike {k : Nat} : Alike n true (level k) (level k) :=
  levelRound_guarded.refl (fun k => Nat.sub_le 7 k) level_eq n k

theorem expression_alike : Alike n true expression expression :=
  level_alike (k := 0)

/-! ## Statements -/

section

variable {item item' : Parse (Stmt Line)}

theorem condition_alike (place : Place) : Alike n m (condition place) (condition place) := by
  refine .andThen (.require _ _) fun _ => .bind expression_alike.weaken fun _ => ?_
  exact .closing _

theorem optionalBefore_alike (p : Token.Punctuation) :
    Alike n false (optionalBefore p) (optionalBefore p) :=
  .look (fun _ => rfl) fun _ => .ite (.pure _) (.bind expression_alike.weaken fun _ => .pure _)

theorem initializer_alike : Alike n false initializer initializer :=
  .optional (.pure _) fun _ => .bind expression_alike.weaken fun _ => .pure _

theorem arrayLength_alike : Alike n false arrayLength arrayLength := by
  refine .optional (.pure _) fun t => ?_
  split
  · exact .ite (.fail _) (.pure _)
  · exact .pure _

theorem declaration_alike : Alike n m declaration declaration := by
  refine .look (fun _ => rfl) fun _ => .andThen (.typeName _) fun _ => .ite (.fail _) ?_
  refine .bind (.require _ _) fun _ => .optional ?_ fun _ => ?_
  · exact .bind initializer_alike fun _ => .closing _
  · refine .bind arrayLength_alike fun declared => .bind (.require _ _) fun _ => ?_
    refine .bind initializer_alike fun init => .bind (.require _ _) fun _ => ?_
    cases declared <|> elementCount? init with
    | none => exact .fail _
    | some _ => exact .pure _

theorem expressionStatement_alike (place : Place) :
    Alike n m (expressionStatement place) (expressionStatement place) := by
  refine .look (fun _ => rfl) fun _ => .andThen expression_alike fun _ => ?_
  exact .closing _

theorem forInit_alike : Alike n false forInit forInit := by
  refine .optional (.look (fun _ => rfl) fun _ => .ite ?_ ?_) fun _ => .pure _
  · exact .bind declaration_alike fun _ => .pure _
  · exact .bind (expressionStatement_alike _) fun _ => .pure _

theorem untilClosed_alike {more more' : Parse (List (Stmt Line))}
    (h : Alike (n + 1) true item item') (hmore : Alike n false more more') :
    Alike (n + 1) m (untilClosed item more) (untilClosed item' more') := by
  refine .takeIf (.look (fun _ => rfl) fun _ => .ite (.fail _) ?_) fun _ => .pure _
  exact .andThen h fun _ => .bind hmore fun _ => .pure _

theorem block_alike (h : Alike n true item item') : Alike (n + 1) m (block item) (block item') := by
  have hstatements : ∀ fuel, Alike n false (statements item fuel) (statements item' fuel) := by
    intro fuel
    cases n with
    | zero => exact .zero
    | succ n =>
      induction fuel with
      | zero => exact .fail _
      | succ fuel ih => exact untilClosed_alike h (ih.mono (Nat.le_succ n))
  refine .andThen (.require _ _) fun _ => .look (fun _ => rfl) fun _ => ?_
  exact .bind (hstatements _) fun _ => .pure _

theorem branched_alike {block block' : Parse (Stmt Line)}
    {more more' : Parse (List (Expr Line × Stmt Line) × Option (Stmt Line))}
    (h : Alike n false block block') (hmore : Alike n false more more') :
    Alike (n + 1) m (branched block more) (branched block' more') := by
  refine .andThen (condition_alike _) fun _ => .bind h fun _ => .optional (.pure _) fun _ => ?_
  exact .optional (.bind h fun _ => .pure _) fun _ => .bind hmore fun _ => .pure _

theorem branches_alike (h : Alike n true item item') (fuel : Nat) :
    Alike n false (branches item fuel) (branches item' fuel) := by
  induction fuel with
  | zero => exact .fail _
  | succ fuel ih =>
    exact (branched_alike ((block_alike h).mono (Nat.le_succ n)) ih).mono (Nat.le_succ n)

theorem keywordStatement_alike (h : Alike n true item item') (t : Token) (w : Token.Keyword) :
    Alike n false (keywordStatement item t w) (keywordStatement item' t w) := by
  have hblock : Alike n false (block item) (block item') := (block_alike h).mono (Nat.le_succ n)
  cases w with
  | ifWord => exact .look (fun _ => rfl) fun _ => .bind (branches_alike h _) fun _ => .pure _
  | whileWord => exact .bind (condition_alike _) fun _ => .bind hblock fun _ => .pure _
  | forWord =>
    refine .bind (.require _ _) fun _ => .bind forInit_alike fun _ => ?_
    refine .bind (optionalBefore_alike _) fun _ => .bind (.require _ _) fun _ => ?_
    refine .bind (optionalBefore_alike _) fun _ => .bind (.require _ _) fun _ => ?_
    exact .bind hblock fun _ => .pure _
  | returnWord => exact .bind (optionalBefore_alike _) fun _ => .closing _
  | breakWord | continueWord => exact .closing _
  | printWord =>
    refine .bind (.require _ _) fun _ => .bind (itemsBefore_alike expression_alike) fun _ => ?_
    exact .bind (.require _ _) fun _ => .closing _
  | inputWord =>
    refine .bind (.require _ _) fun _ => .bind (.require _ _) fun _ => ?_
    exact .bind (.require _ _) fun _ => .closing _
  | elseWord | randomWord => exact .failAt _ _

/-- Statements are nested behind a token. -/
theorem statementOver_alike (h : Alike n true item item') :
    Alike (n + 1) m (statementOver item) (statementOver item') := by
  refine .look (fun _ => rfl) fun _ => .ite (block_alike h) ?_
  unfold takeKeyword?
  rw [bind_assoc, bind_assoc]
  refine .takeIf ?_ fun t => ?_
  · rw [pure_bind, pure_bind]
    exact .look (fun _ => rfl) fun _ => .ite declaration_alike (expressionStatement_alike _)
  · dsimp only
    split
    · rw [pure_bind, pure_bind]
      exact keywordStatement_alike h t _
    · rw [pure_bind, pure_bind]
      exact .look (fun _ => rfl) fun _ => .ite declaration_alike (expressionStatement_alike _)

end

/-! ## Loops -/

/-- What has fuel for all tokens. -/
def fuelled (x : Nat → ι → Parse α) (i : ι) : Parse α :=
  fun c => x c.rest.length i c

/-- A loop with a fuel: a round calls the loop again with less fuel and fewer tokens, and where
there are no tokens the fuel makes no difference. -/
structure Loops (m : Bool) (x : Nat → ι → Parse α) (round : (ι → Parse α) → ι → Parse α) :
    Prop where
  succ : ∀ fuel, x (fuel + 1) = round (x fuel)
  empty : ∀ fuel i, Alike 1 m (x 0 i) (x fuel i)
  guarded : Guarded m (fun _ => 0) round

namespace Loops

variable {x : Nat → ι → Parse α} (h : Loops m x round)

include h

/-- Fuel for all tokens is as good as more. -/
theorem steady {fuel fuel' : Nat} (hf : fuel ≤ fuel') (i : ι) :
    Alike (fuel + 1) m (x fuel i) (x fuel' i) := by
  induction fuel generalizing fuel' i with
  | zero => exact h.empty fuel' i
  | succ fuel ih =>
    obtain ⟨fuel', rfl⟩ : ∃ k, fuel' = k + 1 := ⟨fuel' - 1, by omega⟩
    rw [h.succ, h.succ]
    exact h.guarded _ _ _ _ (fun i => ih (by omega) i) fun _ hj => absurd hj (Nat.lt_irrefl 0)

theorem alike_fuelled (fuel : Nat) (i : ι) : Alike (fuel + 1) m (x fuel i) (fuelled x i) := by
  intro c hc
  have hsteady := h.steady (Nat.le_of_lt_succ hc) i c (Nat.lt_succ_self _)
  exact ⟨hsteady.1.symm, hsteady.1 ▸ hsteady.2⟩

theorem eq (i : ι) : fuelled x i = round (fuelled x) i := by
  funext c
  have hmore := h.steady (Nat.le_succ c.rest.length) i c (Nat.lt_succ_self _)
  have hround : Alike (c.rest.length + 2) m (round (x c.rest.length) i) (round (fuelled x) i) :=
    h.guarded _ _ _ _ (h.alike_fuelled c.rest.length) fun _ hj => absurd hj (Nat.lt_irrefl 0)
  calc fuelled x i c = x (c.rest.length + 1) i c := hmore.1
    _ = round (x c.rest.length) i c := by rw [h.succ]
    _ = round (fuelled x) i c := (hround c (by omega)).1

theorem refl (n : Nat) (i : ι) : Alike n m (fuelled x i) (fuelled x i) :=
  h.guarded.refl (fun _ => Nat.le_refl 0) h.eq n i

theorem recurses : Recurses (fun _ => 0) 0 round (fuelled x) :=
  h.guarded.recurses (fun _ => Nat.le_refl 0) h.eq

end Loops

/-- Where no tokens remain. -/
theorem Alike.of_empty {x y : Parse α} (hx : Alike 1 m x x)
    (h : ∀ last, x ⟨[], last⟩ = y ⟨[], last⟩) : Alike 1 m x y := by
  rintro ⟨rest, last⟩ hc
  obtain rfl : rest = [] := by simpa using hc
  exact ⟨h last, (hx _ hc).2⟩

theorem commaSeparated_loops {item : Parse α} (h : ∀ n, Alike n true item item) :
    Loops true (fun n (_ : Unit) => commaSeparated item n)
      fun more i => separated item (more i) where
  succ _ := rfl
  empty fuel _ := by cases fuel <;> exact .andThen (h 1) fun _ => .zero
  guarded _ _ _ _ hmore _ := separated_alike (h _) (hmore ()).weaken

theorem chain_loops {operand : Parse (Expr Line)} (ops : List Token.Operator)
    (h : ∀ n, Alike n true operand operand) :
    Loops false (chain operand ops) (joined operand ops) where
  succ _ := rfl
  empty fuel _ := .of_empty (.pure _) fun _ => by cases fuel <;> rfl
  guarded _ _ _ _ hmore _ := joined_alike (h _) hmore _

/-- A statement. -/
def statement : Parse (Stmt Line) :=
  fuelled (fun n (_ : Unit) => statementWithin n) ()

theorem statement_loops :
    Loops true (fun n (_ : Unit) => statementWithin n) fun more i => statementOver (more i) where
  succ _ := rfl
  empty fuel _ := by
    refine .of_empty (.fail _) fun last => ?_
    cases fuel <;> rfl
  guarded _ _ _ _ hmore _ := statementOver_alike (hmore ())

theorem statement_alike : Alike n true statement statement :=
  statement_loops.refl n ()

theorem statement_eq : statement = statementOver statement :=
  statement_loops.eq ()

theorem statements_loops :
    Loops true (fun n (_ : Unit) => statements statement (n + 1))
      fun more i => untilClosed statement (more i) where
  succ _ := rfl
  empty _ _ := untilClosed_alike statement_alike .zero
  guarded _ _ _ _ hmore _ := untilClosed_alike statement_alike (hmore ()).weaken

theorem branches_loops :
    Loops true (fun n (_ : Unit) => branches statement (n + 1))
      fun more i => branched (block statement) (more i) where
  succ _ := rfl
  empty _ _ := branched_alike .zero .zero
  guarded n _ _ _ hmore _ :=
    branched_alike ((block_alike statement_alike).mono (Nat.le_succ n)) (hmore ()).weaken

theorem body_eq : body = block statement := by
  funext c
  have h :
      Alike (c.rest.length + 2) true (block (statementWithin c.rest.length)) (block statement) :=
    block_alike (statement_loops.alike_fuelled c.rest.length ())
  exact (h c (by omega)).1

theorem body_alike : Alike n true body body := by
  rw [body_eq]
  exact (block_alike statement_alike).mono (Nat.le_succ n)

theorem parameter_alike : Alike n true parameter parameter := by
  exact .andThen (.typeName _) fun _ => .ite (.fail _) (.bind (.require _ _) fun _ => .pure _)

theorem function_alike : Alike n true function function := by
  refine .andThen (.typeName _) fun _ => .bind (.require _ _) fun _ =>
    .bind (.require _ _) fun _ => ?_
  refine .bind (itemsBefore_alike parameter_alike) fun _ => .bind (.require _ _) fun _ => ?_
  exact .bind body_alike.weaken fun _ => .pure _

theorem functions_loops :
    Loops false (fun n (_ : Unit) => functionsWithin n)
      fun more i => untilEnd function (more i) where
  succ _ := rfl
  empty fuel _ := .of_empty (.pure _) fun _ => by cases fuel <;> rfl
  guarded _ _ _ _ hmore _ := untilEnd_alike function_alike (hmore ())

/-! ## The parser -/

/-- Whatever the tokens and wherever in them the parser starts: if it succeeds it has moved forward,
and not past the end of the tokens. -/
def Advances (x : Parse α) : Prop :=
  ∀ {tokens : List Token} {pos : Nat} {c c' : Cursor} {a : α}, pos ≤ tokens.length →
    c.rest = tokens.drop pos → x c = .ok (a, c') →
    ∃ pos', c'.rest = tokens.drop pos' ∧ pos < pos' ∧ pos' ≤ tokens.length

theorem advances {x : Parse α} (h : ∀ n, Alike n true x x) : Advances x := by
  intro tokens pos c c' a hpos hc ha
  obtain ⟨ts, hts, hne⟩ := (h _ c (Nat.lt_succ_self _)).2 a c' ha
  rw [hc] at hts
  have hlen : tokens.length - pos = ts.length + c'.rest.length := by
    rw [← List.length_drop, hts, List.length_append]
  have hpos' := List.length_pos_iff.mpr (hne rfl)
  refine ⟨pos + ts.length, ?_, by omega, by omega⟩
  rw [← List.drop_drop, hts, List.drop_left]

/-- The parser ends on every token list, whatever tokens it holds and from every position in it.  A
part that succeeds has taken a token, and the position is not past the end of the list.  Every loop,
and the nesting of statements and of expressions, is the recursion that its rounds describe: calls
are made with fewer tokens left or, at the same token, for a tighter level of expressions.  So only
so many calls are nested, whatever would be done below them, and the parser gives the functions or
an error. -/
theorem parser_terminates :
    (Advances function ∧ Advances body ∧ Advances statement ∧ Advances declaration ∧
      Advances expression ∧ Advances (primary expression)) ∧
    (level 0 = expression ∧ Recurses (fun k => 7 - k) 7 levelRound level) ∧
    (∀ k ops, Recurses (fun _ => 0) 0 (joined (level k) ops)
      fun left => do chain (level k) ops (← get).rest.length left) ∧
    Loop (separated expression) (do commaSeparated expression (← get).rest.length) ∧
    Loop (separated parameter) (do commaSeparated parameter (← get).rest.length) ∧
    (body = block statement ∧ Loop statementOver statement) ∧
    Loop (untilClosed statement) (do statements statement ((← get).rest.length + 1)) ∧
    Loop (branched (block statement)) (do branches statement ((← get).rest.length + 1)) ∧
    Loop (untilEnd function) functions ∧
    ∀ tokens, Program.parse tokens = (functions (.start tokens)).map fun s =>
      Program.ofFunctions s.1 := by
  refine ⟨⟨advances fun _ => function_alike, advances fun _ => body_alike,
    advances fun _ => statement_alike, advances fun _ => declaration_alike,
    advances fun _ => expression_alike,
    advances fun n => (primary_alike expression_alike).mono (Nat.le_succ n)⟩,
    ⟨rfl, levelRound_guarded.recurses (fun k => Nat.sub_le 7 k) level_eq⟩,
    fun k ops => (chain_loops ops fun _ => level_alike).recurses,
    (commaSeparated_loops fun _ => expression_alike).recurses,
    (commaSeparated_loops fun _ => parameter_alike).recurses,
    ⟨body_eq, statement_loops.recurses⟩, statements_loops.recurses, branches_loops.recurses,
    functions_loops.recurses, fun _ => rfl⟩

/-- `) { a[0] = - -b * (c); } else`, with no end mark. -/
def ragged : List Token :=
  [.punctuation .rparen, .punctuation .lbrace, .ident "a", .punctuation .lbracket,
    .literal (.int 0), .punctuation .rbracket, .operator .assign, .operator .minus,
    .operator .minus, .ident "b", .operator .star, .punctuation .lparen, .ident "c",
    .punctuation .rparen, .punctuation .semicolon, .punctuation .rbrace,
    .keyword .elseWord].map Token.ofKind

/-- A block is read from inside a list that is no program. -/
theorem parser_terminates_ragged :
    ∃ s c, body ⟨ragged.drop 1, none⟩ = .ok (s, c) ∧
      ∃ pos, c.rest = ragged.drop pos ∧ 1 < pos ∧ pos ≤ ragged.length := by
  have hok : (body ⟨ragged.drop 1, none⟩).toOption.isSome = true := by decide +kernel
  cases hr : body ⟨ragged.drop 1, none⟩ with
  | error e => rw [hr] at hok; cases hok
  | ok r =>
    obtain ⟨s, c⟩ := r
    exact ⟨s, c, rfl, parser_terminates.1.2.1 (by decide : 1 ≤ ragged.length) rfl hr⟩

end StackLang.Parse
