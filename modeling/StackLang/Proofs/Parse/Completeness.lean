import StackLang.Proofs.Parse.Reading
import StackLang.Proofs.Program.Laying

/-!
# Programs of the grammar are read back

Whatever spells a program of the grammar is parsed, and the functions that are then in view are
those of the program.  A choice may be followed by anything but another branch; all other statements
are read back whatever follows.

* `Parse.Recovered` — a statement is read back.
* `Parse.recovered` — so is every statement of the grammar.
* `Program.parse_spelling` — a program is read back.
-/

namespace StackLang

/-! ## First tokens of statements -/

theorem Token.Kind.startsExpr_ne {k : Kind} (h : k.startsExpr = true) :
    k ≠ .punctuation .rbrace ∧ k ≠ .punctuation .semicolon ∧ k ≠ .eof ∧ k.type? = none ∧
      ∀ w, k = .keyword w → Parse.startsStatement w = false := by
  cases k with
  | keyword w => cases w <;> simp_all [startsExpr, startsPrimary, isSign, isCount, type?,
      Parse.startsStatement]
  | punctuation m => cases m <;> simp_all [startsExpr, startsPrimary, isSign, isCount, type?]
  | _ => simp_all [startsExpr, startsPrimary, isSign, isCount, type?]

namespace Stmt

/-- No statement begins like a branch of a choice, the end of a block or the end of the stream. -/
theorem exists_head {s : Stmt Unit} (hg : s.Grammatical) {ts : List Token}
    (hts : Spells s.spelling ts) :
    ∃ t us, ts = t :: us ∧ t.kind ≠ .punctuation .rbrace ∧ t.kind ≠ .keyword .elseWord ∧
      t.kind ≠ .eof := by
  obtain ⟨u, shape⟩ := s
  have hroot := hg.root
  cases shape with
  | expression e =>
    rw [spelling] at hts
    obtain ⟨us, vs, rfl, hus, -⟩ := hts.split
    obtain ⟨t, us, rfl, ht, -⟩ := Expr.exists_head (hroot.2 e (List.mem_singleton.mpr rfl)) hus
    obtain ⟨hbrace, -, heof, -, hword⟩ := Token.Kind.startsExpr_ne ht
    refine ⟨t, us ++ vs, rfl, hbrace, fun helse => ?_, heof⟩
    rw [helse] at ht
    cases ht
  | choice branches otherwise =>
    obtain ⟨⟨c, s⟩, bs, rfl⟩ := List.exists_cons_of_ne_nil hroot.1.1
    have hfirst : ∃ ps, spellingArms ((c, s) :: bs) = .word .ifWord :: ps := by
      cases bs with
      | nil | cons b bs => exact ⟨_, by rw [spellingArms]; rfl⟩
    obtain ⟨ps, hps⟩ := hfirst
    rw [spelling, hps] at hts
    obtain ⟨t, us, rfl, ht, -⟩ := Spells.exists_kind hts
    exact ⟨t, us, rfl, by simp [ht]⟩
  | ret k v | output k vs | stop k | skip k =>
    rw [spelling] at hts
    obtain ⟨us, rfl, -⟩ := Spells.exists_token hts
    have hk : k.kind = _ := hroot.1
    exact ⟨k, us, rfl, by simp [hk]⟩
  | _ =>
    rw [spelling] at hts
    obtain ⟨t, us, rfl, ht, -⟩ := Spells.exists_kind hts
    exact ⟨t, us, rfl, by simp [ht]⟩

end Stmt

namespace Parse

variable {v init : Option (Expr Unit)} {ss : List (Stmt Unit)} {k n : Token} {c : Expr Unit}
  {otherwise : Option (Stmt Unit)} {place : Place} {ps : List Piece} {type : ValueType}
  {body : Stmt Unit}

variable {α β : Type} {Q : β → Prop} {S : List Token → Prop} {t : Token} {ts us vs : List Token}
variable {e : Expr Unit} {s : Stmt Unit}

/-! ## Parts of statements -/

theorem condition_reads (hg : e.Grammatical) (hts : Spells (Stmt.spellingCondition e) ts) :
    Reads (condition place) ts (fun _ => True) fun a => a.bare = e := by
  obtain ⟨t₁, us, rfl, h₁, hus⟩ := Spells.exists_kind hts
  obtain ⟨vs, t₂, rfl, hvs, h₂⟩ := Spells.exists_last hus
  exact Reads.mark h₁ ((readable e hg).before hvs rfl h₂ fun a ha => .pure ha)

theorem optionalBefore_reads {m : Token.Punctuation}
    (hm : (Token.Kind.punctuation m).joins = none)
    (hm' : (Token.Kind.punctuation m).startsExpr = false) (hg : ∀ e ∈ v, e.Grammatical)
    (hts : Spells (Stmt.spellingValue v) ts) :
    Reads (optionalBefore m) ts (Before m) fun o => o.map Expr.bare = v := by
  unfold optionalBefore
  cases v with
  | none =>
    obtain rfl := Spells.eq_nil hts
    refine Reads.peek (b := true) ?_ (.pure rfl)
    rintro rest ⟨t, us, rfl, ht⟩
    simp [ht]
  | some e =>
    have hg := hg e rfl
    obtain ⟨t, us, rfl, ht, -⟩ := Expr.exists_head hg hts
    refine Reads.peek (b := false) (fun rest _ => ?_) ?_
    · simp only [List.cons_append, List.head?_cons, Option.map_some, Option.some.injEq,
        Bool.false_eq_true, iff_false]
      intro hk
      rw [hk, hm'] at ht
      cases ht
    · rw [← List.append_nil (t :: us)]
      refine (expression_reads hg hts).bind (fun rest h => stops_of_before hm h) fun a ha => ?_
      exact .pure (by simp [ha])

theorem initializer_reads (hg : ∀ e ∈ init, e.Grammatical)
    (hts : Spells (Stmt.spellingInit init) ts) :
    Reads initializer ts (Before .semicolon) fun o => o.map Expr.bare = init := by
  unfold initializer
  cases init with
  | none =>
    obtain rfl := Spells.eq_nil hts
    refine Reads.accept_none ?_ (.pure rfl)
    rintro rest ⟨t, us, rfl, ht⟩ t' ht'
    cases ht'
    rw [ht]
    decide
  | some e =>
    obtain ⟨t, us, rfl, ht, hus⟩ := Spells.exists_kind hts
    refine Reads.accept_some ht ?_
    rw [← List.append_nil us]
    refine (expression_reads (hg e rfl) hus).bind (fun rest h => stops_of_before rfl h)
      fun a ha => ?_
    exact .pure (by simp [ha])

/-- The length of an array is read if it is there. -/
theorem arrayLength_reads {n : Nat} {optional : Bool} (hn : 0 < n)
    (hts : Spells (.length n optional :: ps) ts) :
    ∃ us vs o, ts = us ++ vs ∧ Spells ps vs ∧ (o = some n ∨ o = none ∧ optional = true) ∧
      Reads arrayLength us (Before .rbracket) fun o' => o' = o := by
  cases hts with
  | length hk hw hrest =>
    rename_i w t us
    refine ⟨[t], us, some n, rfl, hrest, .inl rfl, ?_⟩
    obtain ⟨kind, lexeme, pos⟩ := t
    obtain rfl : kind = .literal (.int w) := hk
    refine Reads.takeIf_some rfl ?_
    have hpos : ¬w ≤ 0 := by
      have hzero : Int64.toInt 0 = 0 := rfl
      rw [Int64.le_iff_toInt_le, hzero]
      omega
    simp only [hpos, if_false]
    refine .pure ?_
    rw [hw, Int.toNat_natCast]
  | omitted hrest =>
    refine ⟨[], ts, none, rfl, hrest, .inr ⟨rfl, rfl⟩, ?_⟩
    refine Reads.takeIf_none ?_ (.pure rfl)
    rintro rest ⟨t, us, rfl, ht⟩ t' ht'
    cases ht'
    rw [ht]

theorem elementCount?_of_canCount {init : Option (Expr Line)} {n : Nat} (hn : 0 < n)
    (h : Stmt.canCount n (init.map Expr.bare) = true) : elementCount? init = some n := by
  cases init with
  | none => cases h
  | some e =>
    obtain ⟨line, shape⟩ := e
    rw [Option.map_some, Expr.bare_node] at h
    cases shape with
    | braces es =>
      simp only [Expr.Shape.map, Stmt.canCount, List.length_map, decide_eq_true_eq] at h
      subst h
      cases es with
      | nil => simp at hn
      | cons e es => rfl
    | _ => cases h

/-! ## Declarations and expressions -/

theorem var_reads (hn : n.kind.isIdent = true) (htype : type ≠ .void)
    (hg : ∀ e ∈ init, e.Grammatical) (hts : Spells (Stmt.node () (.var n type init)).spelling ts) :
    Reads declaration ts S fun a => a.bare = .node () (.var n type init) := by
  rw [Stmt.spelling] at hts
  obtain ⟨t₁, us, rfl, h₁, hus⟩ := Spells.exists_kind hts
  obtain ⟨vs, rfl, hvs⟩ := Spells.exists_token hus
  obtain ⟨ws, t₂, rfl, hws, h₂⟩ := Spells.exists_last hvs
  refine Reads.line fun line => Reads.typeName h₁ ?_
  rw [if_neg htype]
  refine Reads.ident hn (Reads.accept_none (fun rest _ t ht => ?_) ?_)
  · cases init with
    | none =>
      obtain rfl := Spells.eq_nil hws
      cases ht
      rw [h₂]
      decide
    | some e =>
      obtain ⟨t', ws, rfl, ht', -⟩ := Spells.exists_kind hws
      cases ht
      rw [ht']
      decide
  · refine (initializer_reads hg hws).bind (fun _ _ => ⟨t₂, _, rfl, h₂⟩) fun o ho => ?_
    refine Reads.mark h₂ (.pure ?_)
    rw [Stmt.bare_node, Stmt.Shape.map, ho]

theorem array_reads {length : Nat} (hn : n.kind.isIdent = true) (htype : type ≠ .void)
    (hlength : 0 < length) (hg : ∀ e ∈ init, e.Grammatical)
    (hts : Spells (Stmt.node () (.array n type length init)).spelling ts) :
    Reads declaration ts S fun a => a.bare = .node () (.array n type length init) := by
  rw [Stmt.spelling] at hts
  obtain ⟨t₁, us₁, rfl, h₁, hus₁⟩ := Spells.exists_kind hts
  obtain ⟨us₂, rfl, hus₂⟩ := Spells.exists_token hus₁
  obtain ⟨t₂, us₃, rfl, h₂, hus₃⟩ := Spells.exists_kind hus₂
  obtain ⟨us, vs₁, declared, rfl, hvs₁, hdeclared, hreads⟩ := arrayLength_reads hlength hus₃
  obtain ⟨t₃, vs₂, rfl, h₃, hvs₂⟩ := Spells.exists_kind hvs₁
  obtain ⟨ws, t₄, rfl, hws, h₄⟩ := Spells.exists_last hvs₂
  refine Reads.line fun line => Reads.typeName h₁ ?_
  rw [if_neg htype]
  refine Reads.ident hn (Reads.accept_some h₂ ?_)
  refine hreads.bind (fun _ _ => ⟨t₃, _, rfl, h₃⟩) fun o ho => Reads.mark h₃ ?_
  refine (initializer_reads hg hws).bind (fun _ _ => ⟨t₄, _, rfl, h₄⟩) fun i hi => Reads.mark h₄ ?_
  have hsome : (o <|> elementCount? i) = some length := by
    subst ho hi
    rcases hdeclared with rfl | ⟨rfl, hcount⟩
    · rfl
    · rw [elementCount?_of_canCount hlength hcount]
      rfl
  rw [hsome]
  refine .pure ?_
  rw [Stmt.bare_node, Stmt.Shape.map, hi]

theorem expressionStatement_reads (hg : e.Grammatical)
    (hts : Spells (Stmt.node () (.expression e)).spelling ts) :
    Reads (expressionStatement place) ts S fun a => a.bare = .node () (.expression e) := by
  rw [Stmt.spelling] at hts
  obtain ⟨us, t, rfl, hus, ht⟩ := Spells.exists_last hts
  refine Reads.line fun line => (readable e hg).before hus rfl ht fun a ha => .pure ?_
  rw [Stmt.bare_node, Stmt.Shape.map, ha]

/-- A declaration or an expression, which are told apart by the first token. -/
theorem simple_cases (place : Place) (hs : s.isSimple = true) (hg : s.Grammatical)
    (hts : Spells s.spelling ts) : ∃ t us, ts = t :: us ∧
      ((∃ type, t.kind = .typeName type) ∧ Reads declaration ts S (fun a => a.bare = s) ∨
        (t.kind.startsExpr = true ∧ (t.kind = .punctuation .lbrace → s.BeginsWithBrace)) ∧
          Reads (expressionStatement place) ts S fun a => a.bare = s) := by
  obtain ⟨u, shape⟩ := s
  obtain ⟨hroot, hexprs⟩ := hg.root
  cases shape with
  | var n type init =>
    have hreads : Reads declaration ts S fun a => a.bare = .node u (.var n type init) :=
      var_reads hroot.1 hroot.2 (fun e he => hexprs e (by simpa [Stmt.Shape.exprs] using he)) hts
    rw [Stmt.spelling] at hts
    obtain ⟨t, us, rfl, ht, -⟩ := Spells.exists_kind hts
    exact ⟨t, us, rfl, .inl ⟨⟨type, ht⟩, hreads⟩⟩
  | array n type length init =>
    have hreads : Reads declaration ts S fun a => a.bare = .node u (.array n type length init) :=
      array_reads hroot.1 hroot.2.1 hroot.2.2
        (fun e he => hexprs e (by simpa [Stmt.Shape.exprs] using he)) hts
    rw [Stmt.spelling] at hts
    obtain ⟨t, us, rfl, ht, -⟩ := Spells.exists_kind hts
    exact ⟨t, us, rfl, .inl ⟨⟨type, ht⟩, hreads⟩⟩
  | expression e =>
    have hge := hexprs e (List.mem_singleton.mpr rfl)
    have hreads : Reads (expressionStatement place) ts S fun a =>
        a.bare = .node u (.expression e) :=
      expressionStatement_reads hge hts
    rw [Stmt.spelling] at hts
    obtain ⟨us, vs, rfl, hus, -⟩ := hts.split
    obtain ⟨t, us, rfl, ht⟩ := Expr.exists_head hge hus
    exact ⟨t, us ++ vs, rfl, .inr ⟨ht, hreads⟩⟩
  | _ => cases hs

/-- The parser looks at the first token, to see whether a declaration comes. -/
theorem simple_reads (place : Place) {f : Stmt Line → Parse β} (hs : s.isSimple = true)
    (hg : s.Grammatical) (hts : Spells s.spelling ts)
    (hf : ∀ a, a.bare = s → Reads (f a) [] S Q) :
    Reads (get >>= fun c : Cursor =>
      if c.atType then declaration >>= f else expressionStatement place >>= f) ts S Q := by
  obtain ⟨t, us, rfl, h⟩ := simple_cases (S := S) place hs hg hts
  refine Reads.get fun c rest _ hc => ?_
  have hat : c.atType = t.kind.type?.isSome := by
    simp [Cursor.atType, Cursor.kind?, hc]
  rw [hat, ← List.append_nil (t :: us)]
  rcases h with ⟨⟨type, ht⟩, h⟩ | ⟨⟨ht, -⟩, h⟩
  · rw [ht]
    exact h.bind (fun _ hrest => hrest) hf
  · rw [(Token.Kind.startsExpr_ne ht).2.2.2.1]
    exact h.bind (fun _ hrest => hrest) hf

theorem forInit_reads {init : Option (Stmt Unit)}
    (hinit : ∀ s ∈ init, s.isSimple = true ∧ s.Grammatical)
    (hts : Spells (Stmt.spellingFirst init) ts) :
    Reads forInit ts S fun o => o.map Stmt.bare = init := by
  unfold forInit
  cases init with
  | none =>
    rw [Stmt.spellingFirst] at hts
    obtain ⟨t, us, rfl, ht, hus⟩ := Spells.exists_kind hts
    obtain rfl := Spells.eq_nil hus
    exact Reads.accept_some ht (.pure rfl)
  | some s =>
    obtain ⟨hs, hg⟩ := hinit s rfl
    rw [Stmt.spellingFirst] at hts
    refine Reads.accept_none (fun rest _ t' ht' => ?_)
      (simple_reads .forInit hs hg hts fun a ha => .pure (by simp [ha]))
    obtain ⟨t, us, rfl, h⟩ := simple_cases (S := S) .forInit hs hg hts
    cases ht'
    rcases h with ⟨⟨type, ht⟩, -⟩ | ⟨⟨ht, -⟩, -⟩
    · rw [ht]
      exact Token.Kind.noConfusion
    · exact (Token.Kind.startsExpr_ne ht).2.1

/-! ## Blocks -/

/-- What follows is not another branch of a choice. -/
def NotElse (rest : List Token) : Prop :=
  ∀ t, rest.head? = some t → t.kind ≠ .keyword .elseWord

/-- The statement is read back from whatever spells it, as a statement or as a block. -/
structure Recovered (s : Stmt Unit) : Prop where
  statement : ¬s.BeginsWithBrace → ∀ ts, Spells s.spelling ts →
    Reads statement ts NotElse fun a => a.bare = s
  block : s.isBlock = true → ∀ ts, Spells s.spelling ts →
    Reads (block Parse.statement) ts (fun _ => True) fun a => a.bare = s

/-- Statements are not followed by a branch. -/
theorem notElse_statements {rest : List Token} (hg : ∀ s ∈ ss, s.Grammatical)
    (hts : Spells (Stmt.spellingList ss) ts) (ht : t.kind = .punctuation .rbrace) :
    NotElse (ts ++ t :: rest) := by
  intro t' ht'
  cases ss with
  | nil =>
    rw [Stmt.spellingList] at hts
    obtain rfl := hts.eq_nil
    cases ht'
    rw [ht]
    exact Token.Kind.noConfusion
  | cons s ss =>
    rw [Stmt.spellingList] at hts
    obtain ⟨us, vs, rfl, hus, -⟩ := hts.split
    obtain ⟨t, us, rfl, -, helse, -⟩ := Stmt.exists_head (hg s (by simp)) hus
    cases ht'
    exact helse

/-- What is made of the result of a loop that has fuel for all tokens. -/
theorem Reads.ofLoop {x : Nat → Unit → Parse α} {f : α → Parse β} (hx : Reads (fuelled x ()) ts S P)
    (hf : ∀ a, P a → Reads (f a) [] S Q) :
    Reads (MonadState.get >>= fun c : Cursor => x c.rest.length () >>= f) ts S Q := by
  rw [← List.append_nil ts]
  exact hx.bind (fun _ h => h) hf

theorem statements_reads (hss : ∀ s ∈ ss, s.Grammatical ∧ ¬s.BeginsWithBrace ∧ Recovered s)
    (hts : Spells (Stmt.spellingList ss) ts) (ht : t.kind = .punctuation .rbrace) :
    Reads (fuelled (fun n (_ : Unit) => statements statement (n + 1)) ()) (ts ++ [t])
      (fun _ => True) fun as => as.map Stmt.bare = ss := by
  have heq := statements_loops.eq ()
  induction ss generalizing ts with
  | nil =>
    rw [Stmt.spellingList] at hts
    obtain rfl := hts.eq_nil
    rw [heq]
    exact Reads.accept_some ht (.pure rfl)
  | cons s ss ih =>
    obtain ⟨hg, hbrace, hs⟩ := hss s (by simp)
    have hss' : ∀ s' ∈ ss, s'.Grammatical ∧ ¬s'.BeginsWithBrace ∧ Recovered s' :=
      fun s' hs' => hss s' (by simp [hs'])
    rw [Stmt.spellingList] at hts
    obtain ⟨us, vs, rfl, hus, hvs⟩ := hts.split
    obtain ⟨t', ws, hws, hrbrace, -, heof⟩ := Stmt.exists_head hg hus
    rw [heq]
    refine Reads.accept_none (fun rest _ t'' ht'' => ?_) (Reads.get fun c rest _ hc => ?_)
    · subst hws
      cases ht''
      exact hrbrace
    · have hend : c.atEnd = false := by
        simp [Cursor.atEnd, Cursor.isAt, Cursor.kind?, hc, hws, heof]
      rw [hend, List.append_assoc]
      refine (hs.statement hbrace us hus).bind (fun rest _ => ?_) fun a ha => ?_
      · rw [List.append_assoc]
        exact notElse_statements (fun s' hs' => (hss' s' hs').1) hvs ht
      · rw [← List.append_nil (vs ++ [t])]
        refine (ih hss' hvs).bind (fun _ h => h) fun as has => ?_
        exact .pure (by rw [List.map_cons, ha, has])

theorem exists_brace (hs : s.isBlock = true) (hts : Spells s.spelling ts) :
    ∃ t us, ts = t :: us ∧ t.kind = .punctuation .lbrace := by
  obtain ⟨u, shape⟩ := s
  cases shape with
  | block ss =>
    rw [Stmt.spelling] at hts
    obtain ⟨t, us, rfl, ht, -⟩ := Spells.exists_kind hts
    exact ⟨t, us, rfl, ht⟩
  | _ => cases hs

theorem recovered_block (hss : ∀ s ∈ ss, s.Grammatical ∧ ¬s.BeginsWithBrace ∧ Recovered s) :
    Recovered (.node () (.block ss)) := by
  have hblock : ∀ ts, Spells (Stmt.node () (.block ss)).spelling ts →
      Reads (block statement) ts (fun _ => True) fun a => a.bare = .node () (.block ss) := by
    intro ts hts
    rw [Stmt.spelling] at hts
    obtain ⟨t₁, us, rfl, h₁, hus⟩ := Spells.exists_kind hts
    obtain ⟨vs, t₂, rfl, hvs, h₂⟩ := Spells.exists_last hus
    refine Reads.require (decide_eq_true h₁) ?_
    refine (statements_reads hss hvs h₂).ofLoop fun as has => .pure ?_
    rw [Stmt.bare_node, Stmt.Shape.map, has]
  refine ⟨fun _ ts hts => ?_, fun _ => hblock⟩
  -- A brace at the beginning is taken for that of a block.
  obtain ⟨t, us, rfl, ht⟩ := exists_brace rfl hts
  rw [statement_eq]
  refine Reads.peek (b := true) (fun rest _ => by simp [ht]) ?_
  exact (hblock _ hts).mono fun _ _ => trivial

/-! ## Statements that begin with a keyword -/

/-- The keyword tells which statement comes. -/
theorem statement_of_keyword {w : Token.Keyword} {P : Stmt Line → Prop}
    (ht : t.kind = .keyword w) (hw : startsStatement w = true)
    (h : Reads (keywordStatement statement t w) ts NotElse P) :
    Reads statement (t :: ts) NotElse P := by
  rw [statement_eq]
  refine Reads.peek (b := false) (fun rest _ => by simp [ht]) ?_
  have htake : Reads takeKeyword? [t] (fun _ => True) fun o => o = some (t, w) := by
    refine Reads.takeIf_some (by simp [ht, hw]) ?_
    simp only [ht]
    exact .pure rfl
  show Reads _ ([t] ++ ts) _ _
  refine htake.bind (fun _ _ => trivial) fun o ho => ?_
  rw [ho]
  exact h

theorem recovered_of_statement (hs : s.isBlock = false)
    (h : ∀ ts, Spells s.spelling ts → Reads statement ts NotElse fun a => a.bare = s) :
    Recovered s where
  statement _ := h
  block hblock := by
    rw [hs] at hblock
    cases hblock

theorem recovered_ret (hk : k.kind = .keyword .returnWord) (hg : ∀ e ∈ v, e.Grammatical) :
    Recovered (.node () (.ret k v)) := by
  refine recovered_of_statement rfl fun ts hts => ?_
  rw [Stmt.spelling] at hts
  obtain ⟨us, rfl, hus⟩ := Spells.exists_token hts
  obtain ⟨vs, t, rfl, hvs, ht⟩ := Spells.exists_last hus
  refine statement_of_keyword hk rfl ?_
  refine (optionalBefore_reads rfl rfl hg hvs).bind (fun _ _ => ⟨t, _, rfl, ht⟩) fun o ho => ?_
  refine Reads.mark ht (.pure ?_)
  rw [Stmt.bare_node, Stmt.Shape.map, ho]

/-- A statement that is a keyword and a semicolon. -/
theorem recovered_word {shape : Stmt.Shape (Stmt Unit) (Expr Unit)} {w : Token.Keyword}
    (hk : k.kind = .keyword w) (hw : startsStatement w = true)
    (hblock : (Stmt.node () shape).isBlock = false)
    (hspelling : (Stmt.node () shape).spelling = [.token k, .mark .semicolon])
    (hread : ∀ {t : Token}, t.kind = .punctuation .semicolon →
      Reads (keywordStatement statement k w) [t] NotElse fun a => a.bare = .node () shape) :
    Recovered (.node () shape) := by
  refine recovered_of_statement hblock fun ts hts => ?_
  rw [hspelling] at hts
  obtain ⟨us, rfl, hus⟩ := Spells.exists_token hts
  obtain ⟨t, vs, rfl, ht, hvs⟩ := Spells.exists_kind hus
  obtain rfl := hvs.eq_nil
  exact statement_of_keyword hk hw (hread ht)

theorem recovered_input (hn : n.kind.isIdent = true) : Recovered (.node () (.input n)) := by
  refine recovered_of_statement rfl fun ts hts => ?_
  rw [Stmt.spelling] at hts
  obtain ⟨t, us₁, rfl, ht, hus₁⟩ := Spells.exists_kind hts
  obtain ⟨t₁, us₂, rfl, h₁, hus₂⟩ := Spells.exists_kind hus₁
  obtain ⟨us₃, rfl, hus₃⟩ := Spells.exists_token hus₂
  obtain ⟨t₂, us₄, rfl, h₂, hus₄⟩ := Spells.exists_kind hus₃
  obtain ⟨t₃, us₅, rfl, h₃, hus₅⟩ := Spells.exists_kind hus₄
  obtain rfl := hus₅.eq_nil
  refine statement_of_keyword ht rfl (Reads.mark h₁ (Reads.ident hn ?_))
  exact Reads.mark h₂ (Reads.mark h₃ (.pure (Stmt.bare_node _ _)))

theorem recovered_output {es : List (Expr Unit)} (hk : k.kind = .keyword .printWord)
    (hg : ∀ e ∈ es, e.Grammatical) : Recovered (.node () (.output k es)) := by
  refine recovered_of_statement rfl fun ts hts => ?_
  rw [Stmt.spelling] at hts
  obtain ⟨us₁, rfl, hus₁⟩ := Spells.exists_token hts
  obtain ⟨t₁, us₂, rfl, h₁, hus₂⟩ := Spells.exists_kind hus₁
  obtain ⟨vs, ws, rfl, hvs, hws⟩ := Spells.split hus₂
  obtain ⟨t₂, ws₁, rfl, h₂, hws₁⟩ := Spells.exists_kind hws
  obtain ⟨t₃, ws₂, rfl, h₃, hws₂⟩ := Spells.exists_kind hws₁
  obtain rfl := hws₂.eq_nil
  refine statement_of_keyword hk rfl (Reads.mark h₁ ?_)
  refine items_reads (fun e he => ⟨hg e he, readable e (hg e he)⟩) hvs (by decide) rfl rfl
    h₂ fun as has => Reads.mark h₃ (.pure ?_)
  rw [Stmt.bare_node, Stmt.Shape.map, has]

theorem recovered_while (hc : c.Grammatical) (hblock : body.isBlock = true)
    (hbody : Recovered body) : Recovered (.node () (.whileLoop c body)) := by
  refine recovered_of_statement rfl fun ts hts => ?_
  rw [Stmt.spelling] at hts
  obtain ⟨t, us, rfl, ht, hus⟩ := Spells.exists_kind hts
  obtain ⟨vs, ws, rfl, hvs, hws⟩ := Spells.split hus
  refine statement_of_keyword ht rfl ?_
  refine (condition_reads hc hvs).bind (fun _ _ => trivial) fun a ha => ?_
  rw [← List.append_nil ws]
  refine (hbody.block hblock ws hws).bind (fun _ _ => trivial) fun b hb => .pure ?_
  rw [Stmt.bare_node, Stmt.Shape.map, ha, hb]

theorem recovered_for {init : Option (Stmt Unit)} {c u : Option (Expr Unit)}
    (hinit : ∀ s ∈ init, s.isSimple = true ∧ s.Grammatical) (hc : ∀ e ∈ c, e.Grammatical)
    (hu : ∀ e ∈ u, e.Grammatical) (hblock : body.isBlock = true) (hbody : Recovered body) :
    Recovered (.node () (.forLoop init c u body)) := by
  refine recovered_of_statement rfl fun ts hts => ?_
  rw [Stmt.spelling] at hts
  simp only [List.append_assoc, List.cons_append, List.nil_append] at hts
  obtain ⟨t, us₁, rfl, ht, hus₁⟩ := Spells.exists_kind hts
  obtain ⟨t₁, us₂, rfl, h₁, hus₂⟩ := Spells.exists_kind hus₁
  obtain ⟨vs₁, us₃, rfl, hvs₁, hus₃⟩ := Spells.split hus₂
  obtain ⟨vs₂, us₄, rfl, hvs₂, hus₄⟩ := Spells.split hus₃
  obtain ⟨t₂, us₅, rfl, h₂, hus₅⟩ := Spells.exists_kind hus₄
  obtain ⟨vs₃, us₆, rfl, hvs₃, hus₆⟩ := Spells.split hus₅
  obtain ⟨t₃, ws, rfl, h₃, hws⟩ := Spells.exists_kind hus₆
  refine statement_of_keyword ht rfl (Reads.mark h₁ ?_)
  refine (forInit_reads (S := fun _ => True) hinit hvs₁).bind (fun _ _ => trivial) fun i hi => ?_
  refine (optionalBefore_reads rfl rfl hc hvs₂).bind (fun _ _ => ⟨t₂, _, rfl, h₂⟩) fun c' hc' => ?_
  refine Reads.mark h₂ ?_
  refine (optionalBefore_reads rfl rfl hu hvs₃).bind (fun _ _ => ⟨t₃, _, rfl, h₃⟩) fun u' hu' => ?_
  refine Reads.mark h₃ ?_
  rw [← List.append_nil ws]
  refine (hbody.block hblock ws hws).bind (fun _ _ => trivial) fun b hb => .pure ?_
  rw [Stmt.bare_node, Stmt.Shape.map, hi, hc', hu', hb]

/-! ## Choices -/

/-- The tokens of a condition, of its block and of what follows them. -/
theorem exists_arm
    (hts : Spells (.word .ifWord :: (Stmt.spellingCondition c ++ (s.spelling ++ ps))) ts) :
    ∃ t us vs ws, ts = t :: (us ++ (vs ++ ws)) ∧ t.kind = .keyword .ifWord ∧
      Spells (Stmt.spellingCondition c) us ∧ Spells s.spelling vs ∧ Spells ps ws := by
  obtain ⟨t, us₁, rfl, ht, hus₁⟩ := Spells.exists_kind hts
  obtain ⟨us, us₂, rfl, hus, hus₂⟩ := Spells.split hus₁
  obtain ⟨vs, ws, rfl, hvs, hws⟩ := Spells.split hus₂
  exact ⟨t, us, vs, ws, rfl, ht, hus, hvs, hws⟩

theorem arm_reads {ws : List Token} {f : Expr Line → Stmt Line → Parse β} (hc : c.Grammatical)
    (hblock : s.isBlock = true) (hs : Recovered s) (hus : Spells (Stmt.spellingCondition c) us)
    (hvs : Spells s.spelling vs) (hf : ∀ a b, a.bare = c → b.bare = s → Reads (f a b) ws S Q) :
    Reads (condition .ifWord >>= fun a => block statement >>= fun b => f a b) (us ++ (vs ++ ws))
      S Q := by
  refine (condition_reads hc hus).bind (fun _ _ => trivial) fun a ha => ?_
  exact (hs.block hblock vs hvs).bind (fun _ _ => trivial) fun b hb => hf a b ha hb

/-- The branches of a choice, behind the first keyword. -/
theorem branches_reads {b : Expr Unit × Stmt Unit} {bs : List (Expr Unit × Stmt Unit)}
    (hbs : ∀ b' ∈ b :: bs, b'.1.Grammatical ∧ b'.2.isBlock = true ∧ Recovered b'.2)
    (ho : ∀ s ∈ otherwise, s.isBlock = true ∧ Recovered s)
    (hts : Spells (Stmt.spellingArms (b :: bs) ++ Stmt.spellingElse otherwise) ts) :
    ∃ t us, ts = t :: us ∧ t.kind = .keyword .ifWord ∧
      Reads (fuelled (fun n (_ : Unit) => branches statement (n + 1)) ()) us NotElse fun r =>
        (r.1.map fun b => (b.1.bare, b.2.bare)) = b :: bs ∧ r.2.map Stmt.bare = otherwise := by
  have heq := branches_loops.eq ()
  induction bs generalizing b ts with
  | nil =>
    obtain ⟨c, s⟩ := b
    obtain ⟨hc, hblock, hs⟩ := hbs (c, s) (by simp)
    rw [Stmt.spellingArms, List.append_nil] at hts
    simp only [List.append_assoc] at hts
    obtain ⟨t, us, vs, ws, rfl, ht, hus, hvs, hws⟩ := exists_arm hts
    refine ⟨t, _, rfl, ht, ?_⟩
    rw [heq]
    refine arm_reads hc hblock hs hus hvs fun a b ha hb => ?_
    cases otherwise with
    | none =>
      rw [Stmt.spellingElse] at hws
      obtain rfl := hws.eq_nil
      exact Reads.accept_none (fun rest hrest => hrest) (.pure (by simp [ha, hb]))
    | some o =>
      obtain ⟨hoblock, ho⟩ := ho o rfl
      rw [Stmt.spellingElse] at hws
      obtain ⟨t', ws, rfl, ht', hws⟩ := Spells.exists_kind hws
      refine Reads.accept_some ht' (Reads.accept_none (fun rest _ t'' ht'' => ?_) ?_)
      -- The last block begins with a brace, so no further branch is looked for.
      · obtain ⟨t₁, us₁, rfl, h₁⟩ := exists_brace hoblock hws
        cases ht''
        rw [h₁]
        exact Token.Kind.noConfusion
      · rw [← List.append_nil ws]
        refine (ho.block hoblock ws hws).bind (fun _ _ => trivial) fun o' ho' => ?_
        exact .pure (by simp [ha, hb, ho'])
  | cons b' bs ih =>
    obtain ⟨c, s⟩ := b
    obtain ⟨hc, hblock, hs⟩ := hbs (c, s) (by simp)
    rw [Stmt.spellingArms] at hts
    simp only [List.append_assoc] at hts
    obtain ⟨t, us, vs, ws, rfl, ht, hus, hvs, hws⟩ := exists_arm hts
    refine ⟨t, _, rfl, ht, ?_⟩
    obtain ⟨t', ws₁, rfl, ht', hws₁⟩ := Spells.exists_kind hws
    obtain ⟨t'', ws₂, rfl, ht'', hmore⟩ := ih (fun b hb => hbs b (List.mem_cons_of_mem _ hb)) hws₁
    rw [heq]
    refine arm_reads hc hblock hs hus hvs fun a b ha hb => ?_
    refine Reads.accept_some ht' (Reads.accept_some ht'' ?_)
    rw [← List.append_nil ws₂]
    refine hmore.bind (fun _ hrest => hrest) fun r hr => ?_
    exact .pure (by simp [ha, hb, hr.1, hr.2])

theorem recovered_choice {branches : List (Expr Unit × Stmt Unit)} (hne : branches ≠ [])
    (hbs : ∀ b ∈ branches, b.1.Grammatical ∧ b.2.isBlock = true ∧ Recovered b.2)
    (ho : ∀ s ∈ otherwise, s.isBlock = true ∧ Recovered s) :
    Recovered (.node () (.choice branches otherwise)) := by
  refine recovered_of_statement rfl fun ts hts => ?_
  obtain ⟨b, bs, rfl⟩ := List.exists_cons_of_ne_nil hne
  rw [Stmt.spelling] at hts
  obtain ⟨t, us, rfl, ht, hreads⟩ := branches_reads hbs ho hts
  refine statement_of_keyword ht rfl ?_
  refine hreads.ofLoop fun r hr => .pure ?_
  rw [Stmt.bare_node, Stmt.Shape.map, hr.1, hr.2]

/-! ## Statements -/

theorem recovered_simple (hs : s.isSimple = true) (hg : s.Grammatical) : Recovered s := by
  refine ⟨fun hbrace ts hts => ?_, fun hblock => ?_⟩
  · obtain ⟨t, us, rfl, h⟩ := simple_cases (S := NotElse) .expression hs hg hts
    have hkind : t.kind ≠ .punctuation .lbrace ∧
        ∀ w, t.kind = .keyword w → startsStatement w = false := by
      rcases h with ⟨⟨type, ht⟩, -⟩ | ⟨⟨ht, hbegins⟩, -⟩
      · simp [ht]
      · exact ⟨fun hk => hbrace (hbegins hk), (Token.Kind.startsExpr_ne ht).2.2.2.2⟩
    rw [statement_eq]
    refine Reads.peek (b := false) (fun rest _ => by simpa using hkind.1) ?_
    have htake : Reads takeKeyword? [] (fun rest => rest.head? = some t) fun o => o = none := by
      refine Reads.takeIf_none (fun rest hrest t' ht' => ?_) (.pure rfl)
      rw [List.nil_append, hrest] at ht'
      cases ht'
      cases hk : t.kind with
      | keyword w => exact hkind.2 w hk
      | _ => rfl
    show Reads _ ([] ++ t :: us) _ _
    refine htake.bind (fun _ _ => rfl) fun o ho => ?_
    rw [ho]
    have hreads := simple_reads (S := NotElse) .expression hs hg hts
      fun a ha => Reads.pure (P := fun b : Stmt Line => b.bare = s) ha
    simpa only [bind_pure] using hreads
  · obtain ⟨u, shape⟩ := s
    cases shape with
    | block ss => cases hs
    | _ => cases hblock

/-- Every statement of the grammar is read back. -/
theorem recovered (s : Stmt Unit) (hg : s.Grammatical) : Recovered s := by
  induction s using Stmt.induction with
  | step u shape ih =>
    obtain ⟨hroot, hexprs⟩ := hg.root
    have hchild : ∀ c ∈ shape.children, c.Grammatical ∧ Recovered c :=
      fun c hc => ⟨hg.child c hc, ih c hc (hg.child c hc)⟩
    cases shape with
    | block ss =>
      exact recovered_block fun s hs => ⟨(hchild s hs).1, hroot s hs, (hchild s hs).2⟩
    | ret k v =>
      exact recovered_ret hroot fun e he => hexprs e (by simpa [Stmt.Shape.exprs] using he)
    | expression e => exact recovered_simple rfl hg
    | choice branches otherwise =>
      refine recovered_choice hroot.1
        (fun b hb => ⟨hexprs b.1 ?_, hroot.2.1 b hb, (hchild b.2 ?_).2⟩)
        fun s hs => ⟨hroot.2.2 s hs, (hchild s ?_).2⟩
      · exact List.mem_map_of_mem hb
      · exact List.mem_append_left _ (List.mem_map_of_mem hb)
      · exact List.mem_append_right _ (by simpa using hs)
    | whileLoop c body =>
      exact recovered_while (hexprs c (List.mem_singleton.mpr rfl)) hroot
        (hchild body (List.mem_singleton.mpr rfl)).2
    | forLoop init c update body =>
      refine recovered_for (fun s hs => ⟨hroot.1 s hs, (hchild s ?_).1⟩) (fun e he => hexprs e ?_)
        (fun e he => hexprs e ?_) hroot.2 (hchild body ?_).2
      · exact List.mem_append_left _ (by simpa using hs)
      · exact List.mem_append_left _ (by simpa using he)
      · exact List.mem_append_right _ (by simpa using he)
      · exact List.mem_append_right _ (List.mem_singleton.mpr rfl)
    | output k vs => exact recovered_output hroot hexprs
    | input n => exact recovered_input hroot
    | var n type init | array n type length init => exact recovered_simple rfl hg
    | stop k | skip k =>
      exact recovered_word hroot rfl rfl (by rw [Stmt.spelling]) fun ht =>
        Reads.mark ht (.pure (Stmt.bare_node _ _))

/-! ## Functions -/

theorem parameter_reads {p : Param} (hname : p.name.kind.isIdent = true) (htype : p.type ≠ .void)
    (hts : Spells p.spelling ts) : Reads parameter ts S fun a => a = p := by
  obtain ⟨t, us, rfl, ht, hus⟩ := Spells.exists_kind hts
  obtain ⟨vs, rfl, hvs⟩ := Spells.exists_token hus
  obtain rfl := hvs.eq_nil
  refine Reads.typeName ht ?_
  rw [if_neg htype]
  exact Reads.ident hname (.pure rfl)

theorem function_reads {f : Function (Stmt Unit)} (hf : f.Grammatical)
    (hts : Spells f.spelling ts) :
    Reads function ts S fun a => a.bare = f := by
  rw [Function.spelling] at hts
  simp only [List.append_assoc, List.cons_append, List.nil_append] at hts
  obtain ⟨t₁, us₁, rfl, h₁, hus₁⟩ := Spells.exists_kind hts
  obtain ⟨us₂, rfl, hus₂⟩ := Spells.exists_token hus₁
  obtain ⟨t₂, us₃, rfl, h₂, hus₃⟩ := Spells.exists_kind hus₂
  obtain ⟨vs, us₄, rfl, hvs, hus₄⟩ := Spells.split hus₃
  obtain ⟨t₃, ws, rfl, h₃, hws⟩ := Spells.exists_kind hus₄
  have hitems : ∀ p ∈ f.params, ItemReads id Param.spelling parameter .rparen p := by
    intro p hp
    obtain ⟨hname, htype⟩ := hf.params p hp
    refine ⟨fun us hus => parameter_reads hname htype hus, fun us hus => ?_⟩
    obtain ⟨t, us, rfl, ht, -⟩ := Spells.exists_kind hus
    refine ⟨t, us, rfl, ?_⟩
    rw [ht]
    exact Token.Kind.noConfusion
  refine Reads.typeName h₁ (Reads.ident hf.name (Reads.mark h₂ ?_))
  refine (itemsBefore_reads (by decide) (fun _ => parameter_alike) hitems hvs).bind
    (fun _ _ => ⟨t₃, _, rfl, h₃⟩) fun ps hps => Reads.mark h₃ ?_
  rw [body_eq, ← List.append_nil ws]
  refine ((recovered f.body hf.body).block hf.isBlock ws hws).bind (fun _ _ => trivial)
    fun b hb => .pure ?_
  rw [List.map_id] at hps
  rw [Function.bare, hps, hb]

theorem functions_reads {fs : List (Function (Stmt Unit))} (hfs : ∀ f ∈ fs, f.Grammatical)
    (hts : Spells (fs.flatMap Function.spelling) ts) :
    Reads functions ts (fun rest => rest = [] ∨ ∃ t us, rest = t :: us ∧ t.kind = .eof)
      fun as => as.map Function.bare = fs := by
  have heq : functions = untilEnd function functions := functions_loops.eq ()
  induction fs generalizing ts with
  | nil =>
    obtain rfl := Spells.eq_nil hts
    rw [heq]
    refine Reads.get fun c rest hrest hc => ?_
    have hend : c.atEnd = true := by
      rcases hrest with rfl | ⟨t, us, rfl, ht⟩
      · simp [Cursor.atEnd, hc]
      · simp [Cursor.atEnd, Cursor.isAt, Cursor.kind?, hc, ht]
    rw [hend]
    exact .pure rfl
  | cons f fs ih =>
    rw [List.flatMap_cons] at hts
    obtain ⟨us, vs, rfl, hus, hvs⟩ := hts.split
    obtain ⟨t, ws, hws, ht⟩ := hus.exists_head (k := .typeName f.returnType) rfl
    rw [heq]
    refine Reads.get fun c rest _ hc => ?_
    have hend : c.atEnd = false := by
      simp [Cursor.atEnd, Cursor.isAt, Cursor.kind?, hc, hws, ht]
    rw [hend]
    refine (function_reads (S := fun _ => True) (hfs f (by simp)) hus).bind (fun _ _ => trivial)
      fun a ha => ?_
    rw [← List.append_nil vs]
    refine (ih (fun g hg => hfs g (by simp [hg])) hvs).bind (fun _ hrest => hrest)
      fun as has => .pure ?_
    rw [List.map_cons, ha, has]

end Parse

/-! ## Programs -/

namespace Program

/-- Whatever spells a program of the grammar, with or without an end mark behind it, is parsed, and
the functions of the program are then in view, in their order. -/
theorem parse_spelling {fs : List (Function (Stmt Unit))} {tokens tail : List Token}
    (hfs : ∀ f ∈ fs, f.Grammatical) (htokens : Spells (fs.flatMap Function.spelling) tokens)
    (htail : tail = [] ∨ ∃ t us, tail = t :: us ∧ t.kind = .eof) :
    ∃ p, parse (tokens ++ tail) = .ok p ∧ p.tree.functions.size = fs.length ∧
      p.tree.views.map Prod.fst = List.range fs.length ∧
      (p.tree.views.map fun v => v.2.bare) = fs := by
  obtain ⟨as, last, hfunctions, hbare⟩ := Parse.functions_reads hfs htokens tail none htail
  have hformed : ∀ f ∈ as, f.Formed := fun f hf =>
    (hfs f.bare (hbare ▸ List.mem_map_of_mem hf)).formed
  obtain ⟨hparse, horderly, hviews⟩ := views_of_functions hfunctions hformed
  have hsize : (ofFunctions as).tree.functions.size = fs.length := by
    rw [← List.length_range (n := (ofFunctions as).tree.functions.size), ← horderly.ids,
      ← hbare, ← hviews, List.length_map, List.length_map]
  exact ⟨_, hparse, hsize, hsize ▸ horderly.ids, hviews.trans hbare⟩

/-- `void main() { int a[] = {1, 2}; a[0] = x = 5 - 2 - 1; if (!b) { x++; } else if (b) { } }` -/
def chained : Function (Stmt Unit) where
  returnType := .void
  name := Token.ofKind (.ident "main")
  params := []
  body := .node () (.block [
    .node () (.array (Token.ofKind (.ident "a")) .int 2 (some (.node () (.braces [
      .node () (.literal (.int 1)), .node () (.literal (.int 2))])))),
    .node () (.expression (.node () (.assign (Token.ofKind (.ident "a"))
      (some (.node () (.literal (.int 0)))) (.node () (.assign (Token.ofKind (.ident "x")) none
        (.node () (.binary (.node () (.binary (.node () (.literal (.int 5)))
          (Token.ofKind (.operator .minus)) (.node () (.literal (.int 2)))))
          (Token.ofKind (.operator .minus)) (.node () (.literal (.int 1)))))))))),
    .node () (.choice
      [(.node () (.unary (Token.ofKind (.operator .not))
          (.node () (.name (Token.ofKind (.ident "b")))) false),
        .node () (.block [.node () (.expression (.node () (.unary
          (Token.ofKind (.operator .increment))
          (.node () (.name (Token.ofKind (.ident "x")))) true)))])),
        (.node () (.name (Token.ofKind (.ident "b"))), .node () (.block []))] none)])

/-- The tokens of `chained`, which do not give the length of the array. -/
def chainedTokens : List Token :=
  [.typeName .void, .ident "main", .punctuation .lparen, .punctuation .rparen, .punctuation .lbrace,
    .typeName .int, .ident "a", .punctuation .lbracket, .punctuation .rbracket, .operator .assign,
    .punctuation .lbrace, .literal (.int 1), .punctuation .comma, .literal (.int 2),
    .punctuation .rbrace, .punctuation .semicolon,
    .ident "a", .punctuation .lbracket, .literal (.int 0), .punctuation .rbracket,
    .operator .assign, .ident "x", .operator .assign, .literal (.int 5), .operator .minus,
    .literal (.int 2), .operator .minus, .literal (.int 1), .punctuation .semicolon,
    .keyword .ifWord, .punctuation .lparen, .operator .not, .ident "b", .punctuation .rparen,
    .punctuation .lbrace, .ident "x", .operator .increment, .punctuation .semicolon,
    .punctuation .rbrace, .keyword .elseWord, .keyword .ifWord, .punctuation .lparen, .ident "b",
    .punctuation .rparen, .punctuation .lbrace, .punctuation .rbrace,
    .punctuation .rbrace].map Token.ofKind

theorem parse_spelling_chained :
    chained.Grammatical ∧ Spells chained.spelling chainedTokens ∧
      ∃ p, parse (chainedTokens ++ [Token.ofKind .eof]) = .ok p ∧ p.tree.functions.size = 1 ∧
        (p.tree.views.map fun v => v.2.bare) = [chained] := by
  have hg : chained.Grammatical := by
    refine ⟨rfl, by simp [chained], rfl, ?_⟩
    simp [chained, Stmt.grammatical_node_iff, Stmt.Shape.Grammatical, Expr.grammatical_node_iff,
      Expr.Shape.Grammatical, Expr.level, Stmt.BeginsWithBrace, Expr.BeginsWithBrace,
      Expr.spelling, Token.ofKind, Token.Kind.level?, Token.Kind.isIdent, Token.Kind.isSign,
      Token.Kind.isCount, Stmt.isBlock, Expr.isName, Piece.mark]
  have hspells : Spells chained.spelling chainedTokens := by
    simp only [chained, Function.spelling, Stmt.spelling, Stmt.spellingList, Stmt.spellingArms,
      Stmt.spellingElse, Stmt.spellingCondition, Stmt.spellingInit, Expr.spelling, Expr.spellings,
      List.map_nil]
    repeat first
      | exact .nil
      | refine Spells.token ?_
      | refine Spells.kind rfl ?_
      | refine Spells.omitted ?_
  have hfs : ∀ f ∈ [chained], f.Grammatical := by simpa using hg
  have htokens : Spells ([chained].flatMap Function.spelling) chainedTokens := by
    simpa using hspells
  have htail : [Token.ofKind .eof] = [] ∨ ∃ t us, [Token.ofKind .eof] = t :: us ∧ t.kind = .eof :=
    .inr ⟨_, _, rfl, rfl⟩
  obtain ⟨p, hp, hsize, -, hviews⟩ := parse_spelling hfs htokens htail
  exact ⟨hg, hspells, p, hp, hsize, hviews⟩

end Program

end StackLang
