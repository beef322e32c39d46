import StackLang.Proofs.Analysis.Scoping

/-!
# What is visible in a scope

The scopes around a place, from the innermost outwards, hold the declarations that can be seen
there, and behind them all lies the root with the functions.  So a look-up finds what the scoping
rules say.

* `ScopeGraph.Shows` — the scopes around a place hold the declarations that can be seen from it.
* `ScopeGraph.Shows.push`, `ScopeGraph.Shows.declare` — a new scope, and a new declaration.
* `ScopeGraph.Shows.resolve_variable`, `ScopeGraph.Shows.resolve_function` — what look-ups find.
-/

namespace StackLang

theorem Scope.get?_concat (s : Scope) (n name : String) (k kind : NameKind) (b : Binding) :
    Scope.get? { s with symbols := s.symbols ++ [((n, k), b)] } name kind =
      (s.get? name kind).or (if n = name ∧ k = kind then some b else none) := by
  rw [Scope.get?, Scope.get?, List.lookup_append, List.lookup_cons, List.lookup_nil]
  congr 1
  by_cases h : n = name ∧ k = kind
  · obtain ⟨rfl, rfl⟩ := h
    simp
  · have hne : ((name, kind) == (n, k)) = false := by
      rw [beq_eq_false_iff_ne, ne_eq, Prod.mk.injEq]
      exact fun h' => h ⟨h'.1.symm, h'.2.symm⟩
    rw [hne, if_neg h]

/-- From `scope` outwards, each scope holds the declarations of `scopes`, the first one of each
name; around them lies the root with the functions. -/
inductive ScopeGraph.Shows (t : Tree) (g : ScopeGraph) : ScopeId → Surroundings → Prop where
  | root {s : Scope} (hs : g.scopes[ScopeGraph.root]? = some s) (hparent : s.parent = none)
    (hvariables : ∀ name, s.get? name .variableName = none)
    (hfunctions : ∀ name, s.get? name .functionName = (t.findFunction? name).map .function) :
    Shows t g ScopeGraph.root []
  | inner {scope parent : ScopeId} {s : Scope} {here : List Declaration} {outer : Surroundings}
    (hs : g.scopes[scope]? = some s) (hparent : s.parent = some parent) (hlt : parent < scope)
    (hvariables : ∀ name, s.get? name .variableName = Declaration.first? here name)
    (hfunctions : ∀ name, s.get? name .functionName = none) (houter : Shows t g parent outer) :
    Shows t g scope (here :: outer)

namespace ScopeGraph

variable {t : Tree} {g g' : ScopeGraph} {scope : ScopeId} {scopes outer : Surroundings}
  {here : List Declaration} {name : String} {b : Binding}

theorem Shows.lt_size (h : g.Shows t scope scopes) : scope < g.size := by
  cases h with
  | root hs | inner hs => exact (Array.getElem?_eq_some_iff.mp hs).1

/-- Scopes that were opened later do not matter. -/
theorem Shows.congr (h : g.Shows t scope scopes)
    (hg : ∀ i : Nat, i ≤ scope → g'.scopes[i]? = g.scopes[i]?) : g'.Shows t scope scopes := by
  induction h with
  | root hs hparent hvariables hfunctions =>
    exact .root ((hg _ (Nat.le_refl _)).trans hs) hparent hvariables hfunctions
  | inner hs hparent hlt hvariables hfunctions _ ih =>
    refine .inner ((hg _ (Nat.le_refl _)).trans hs) hparent hlt hvariables hfunctions ?_
    exact ih fun i hi => hg i (Nat.le_trans hi (Nat.le_of_lt hlt))

theorem getElem?_push_of_lt {i : Nat} (h : i < g.size) :
    (g.push scope).2.scopes[i]? = g.scopes[i]? := by
  rw [size] at h
  simp only [push, Array.getElem?_push, if_neg (Nat.ne_of_lt h)]

@[simp] theorem size_push : (g.push scope).2.size = g.size + 1 := by
  simp [push, size]

/-- A new scope is empty. -/
theorem Shows.push (h : g.Shows t scope scopes) :
    (g.push scope).2.Shows t g.size ([] :: scopes) := by
  have hnew : (g.push scope).2.scopes[g.size]? = some ⟨some scope, []⟩ := by
    simp [ScopeGraph.push, size]
  refine .inner hnew rfl h.lt_size (fun _ => rfl) (fun _ => rfl) (h.congr fun i hi => ?_)
  exact getElem?_push_of_lt (Nat.lt_of_le_of_lt hi h.lt_size)

theorem getElem?_declare_of_ne {i : Nat} (h : i ≠ scope) :
    (g.declare scope name b).2.scopes[i]? = g.scopes[i]? := by
  rw [declare]
  split
  · rfl
  · simp only [Array.getElem?_modify, if_neg h.symm]

theorem declare_snd_of_some {existing : Binding} (h : (g.declare scope name b).1 = some existing) :
    (g.declare scope name b).2 = g := by
  rw [ScopeGraph.declare] at h ⊢
  cases hget : g.get? scope name b.kind with
  | none => simp [hget] at h
  | some _ => rfl

theorem map_parent_declare (i : Nat) :
    (g.declare scope name b).2.scopes[i]?.map Scope.parent = g.scopes[i]?.map Scope.parent := by
  rw [ScopeGraph.declare]
  split
  · rfl
  · simp only [Array.getElem?_modify]
    split
    · rw [Option.map_map]
      rfl
    · rfl

/-- A declaration finds out whether the scope holds one of the name already, and is hidden behind it
if it does. -/
theorem declare_of_first? {s : Scope} {kind : NameKind} (hs : g.scopes[scope]? = some s)
    (hget : ∀ name, s.get? name kind = Declaration.first? here name) (d : Declaration)
    (hd : d.binding.kind = kind) :
    (g.declare scope d.name.lexeme d.binding).1 = Declaration.first? here d.name.lexeme ∧
      ∃ s', (g.declare scope d.name.lexeme d.binding).2.scopes[scope]? = some s' ∧
        s'.parent = s.parent ∧
        (∀ name, s'.get? name kind = Declaration.first? (here ++ [d]) name) ∧
        ∀ name kind', kind' ≠ kind → s'.get? name kind' = s.get? name kind' := by
  have hfound : g.get? scope d.name.lexeme d.binding.kind =
      Declaration.first? here d.name.lexeme := by
    rw [ScopeGraph.get?, hs, Option.bind_some, hd, hget]
  rw [ScopeGraph.declare, hfound]
  cases hfirst : Declaration.first? here d.name.lexeme with
  | some b =>
    refine ⟨rfl, s, hs, rfl, fun name => ?_, fun _ _ _ => rfl⟩
    rw [hget, Declaration.first?_concat]
    split
    · rename_i hname
      rw [← hname, hfirst]
      rfl
    · rw [Option.or_none]
  | none =>
    refine ⟨rfl, { s with symbols := s.symbols ++ [((d.name.lexeme, kind), d.binding)] }, ?_, rfl,
      fun name => ?_, fun name kind' hne => ?_⟩
    · simp [Array.getElem?_modify, hs, hd]
    · rw [Scope.get?_concat, hget, Declaration.first?_concat]
      simp
    · rw [Scope.get?_concat, if_neg fun h => hne h.2.symm, Option.or_none]

/-- Behind a declaration it can be seen, unless there was one of the name before. -/
theorem Shows.declare (h : g.Shows t scope (here :: outer)) (d : Declaration)
    (hd : d.binding.kind = .variableName) :
    (g.declare scope d.name.lexeme d.binding).1 = Declaration.first? here d.name.lexeme ∧
      (g.declare scope d.name.lexeme d.binding).2.Shows t scope ((here ++ [d]) :: outer) := by
  cases h with
  | inner hs hparent hlt hvariables hfunctions houter =>
    obtain ⟨hfirst, s', hs', hparent', hvariables', hother⟩ := declare_of_first? hs hvariables d hd
    refine ⟨hfirst, .inner hs' (hparent'.trans hparent) hlt hvariables' (fun name => ?_) ?_⟩
    · rw [hother name .functionName (by simp), hfunctions]
    · refine houter.congr fun i hi => ?_
      exact getElem?_declare_of_ne (Nat.ne_of_lt (Nat.lt_of_le_of_lt hi hlt))

/-- A variable is looked up from the inside out. -/
theorem Shows.resolve_variable (h : g.Shows t scope scopes) (name : String) :
    g.resolve scope name .variableName = scopes.find? name := by
  have within : ∀ limit, scope < limit →
      g.resolveWithin name .variableName limit scope = scopes.find? name := by
    induction h with
    | root hs hparent hvariables =>
      intro limit hlimit
      obtain ⟨limit, rfl⟩ := Nat.exists_eq_add_of_lt hlimit
      simp [resolveWithin, hs, hvariables, hparent]
    | @inner scope parent s here outer hs hparent hlt hvariables _ _ ih =>
      intro limit hlimit
      cases limit with
      | zero => exact absurd hlimit (Nat.not_lt_zero _)
      | succ limit =>
        simp only [resolveWithin, hs, hvariables, Surroundings.find?_cons]
        cases Declaration.first? here name with
        | some b => rfl
        | none =>
          simp only [hparent, Option.none_or]
          exact ih limit (Nat.lt_of_lt_of_le hlt (Nat.le_of_lt_succ hlimit))
  exact within g.size h.lt_size

/-- A function is found in the root. -/
theorem Shows.resolve_function (h : g.Shows t scope scopes) (name : String) :
    g.resolve scope name .functionName = (t.findFunction? name).map .function := by
  have within : ∀ limit, scope < limit →
      g.resolveWithin name .functionName limit scope = (t.findFunction? name).map .function := by
    induction h with
    | root hs hparent _ hfunctions =>
      intro limit hlimit
      obtain ⟨limit, rfl⟩ := Nat.exists_eq_add_of_lt hlimit
      simp only [resolveWithin, hs, hfunctions, hparent]
      cases t.findFunction? name <;> rfl
    | @inner scope parent s here outer hs hparent hlt _ hfunctions _ ih =>
      intro limit hlimit
      cases limit with
      | zero => exact absurd hlimit (Nat.not_lt_zero _)
      | succ limit =>
        simp only [resolveWithin, hs, hfunctions, hparent]
        exact ih limit (Nat.lt_of_lt_of_le hlt (Nat.le_of_lt_succ hlimit))
  exact within g.size h.lt_size

/-- Scopes are not taken away. -/
theorem size_le_of_parents
    (h : ∀ i : Nat, i < g.size → g'.scopes[i]?.map Scope.parent = g.scopes[i]?.map Scope.parent) :
    g.size ≤ g'.size := by
  by_contra hle
  have hlt := Nat.lt_of_not_le hle
  have hnone : g'.scopes[g'.size]? = none := Array.getElem?_eq_none (Nat.le_refl _)
  have hparent := h g'.size hlt
  rw [hnone, Array.getElem?_eq_getElem hlt] at hparent
  cases hparent

/-- What the innermost scope lies in can be seen from there. -/
theorem Shows.outer_of_parent {parent : ScopeId} (h : g.Shows t scope (here :: outer))
    (hparent : g.scopes[scope]?.map Scope.parent = some (some parent)) :
    g.Shows t parent outer := by
  cases h with
  | inner hs hp _ _ _ houter =>
    rw [hs, Option.map_some, hp, Option.some.injEq, Option.some.injEq] at hparent
    exact hparent ▸ houter

end ScopeGraph

end StackLang
