import StackLang.Proofs.Analysis.Scopes

/-!
# What a declaration changes

Scopes opened one inside another form a tree in which every scope comes behind the one it lies in,
so a look-up gets to the root and ends.  A declaration changes the look-ups that get to its scope
without finding the name on the way, and no others.

* `ScopeGraph.Grown` — graphs made by opening scopes and declaring names.
* `ScopeGraph.Seeks` — a look-up that follows the parents, however long the way is.
* `ScopeGraph.Reaches` — a look-up gets from one scope to another.
* `ScopeGraph.Grown.resolve_declare` — what can be seen behind a declaration.
-/

namespace StackLang.ScopeGraph

/-- Graphs made from the root by opening scopes inside scopes that exist and declaring names in
them. -/
inductive Grown : ScopeGraph → Prop where
  | empty : Grown .empty
  | push {g : ScopeGraph} (h : Grown g) (parent : ScopeId) (hp : parent < g.size) :
    Grown (g.push parent).2
  | declare {g : ScopeGraph} (h : Grown g) (scope : ScopeId) (hs : scope < g.size) (name : String)
    (b : Binding) : Grown (g.declare scope name b).2

/-- The scope that a scope lies in. -/
def parent? (g : ScopeGraph) (scope : ScopeId) : Option ScopeId :=
  (g.scopes[scope]?.map Scope.parent).join

/-- Every scope comes behind the one it lies in. -/
def Ordered (g : ScopeGraph) : Prop :=
  ∀ scope parent, g.parent? scope = some parent → parent < scope

/-- What is found when a name is looked up in a scope that exists and then in the ones around it, on
a way of any length. -/
inductive Seeks (g : ScopeGraph) (name : String) (kind : NameKind) :
    ScopeId → Option Binding → Prop where
  | here {scope : ScopeId} {b : Binding} (h : g.get? scope name kind = some b) :
    Seeks g name kind scope (some b)
  | outwards {scope parent : ScopeId} {found : Option Binding}
    (h : g.get? scope name kind = none) (hp : g.parent? scope = some parent)
    (rest : Seeks g name kind parent found) : Seeks g name kind scope found
  | nowhere {scope : ScopeId} (hs : scope < g.size) (h : g.get? scope name kind = none)
    (hp : g.parent? scope = none) : Seeks g name kind scope none

/-- The scopes on the way from one scope outwards to another one, which is not among them. -/
inductive Way (g : ScopeGraph) : ScopeId → List ScopeId → ScopeId → Prop where
  | here (scope : ScopeId) : Way g scope [] scope
  | outwards {scope parent target : ScopeId} {way : List ScopeId}
    (hp : g.parent? scope = some parent) (rest : Way g parent way target) :
    Way g scope (scope :: way) target

/-- A look-up gets from one scope to another, or is there already: no scope on the way holds the
name. -/
def Reaches (g : ScopeGraph) (name : String) (kind : NameKind) (scope target : ScopeId) : Prop :=
  ∃ way, g.Way scope way target ∧ ∀ s ∈ way, g.get? s name kind = none

variable {g : ScopeGraph} {scope target : ScopeId} {name : String} {kind : NameKind} {b : Binding}

/-! ## Parents -/

theorem parent?_declare (s : ScopeId) : (g.declare scope name b).2.parent? s = g.parent? s := by
  rw [parent?, parent?, map_parent_declare]

theorem parent?_push (parent s : ScopeId) :
    (g.push parent).2.parent? s = if s = g.size then some parent else g.parent? s := by
  rw [parent?, push, Array.getElem?_push]
  split
  · rw [if_pos (by assumption)]
    rfl
  · rw [if_neg (by assumption), parent?]

/-- However a graph has grown, the scopes are in order. -/
theorem Grown.ordered (h : g.Grown) : g.Ordered := by
  induction h with
  | empty =>
    intro scope parent hp
    cases scope with
    | zero | succ scope => cases hp
  | push _ _ hlt ih =>
    intro scope parent hp
    rw [parent?_push] at hp
    split at hp
    · rename_i hnew
      cases hp
      exact hnew ▸ hlt
    · exact ih scope parent hp
  | declare _ _ _ name b ih =>
    intro scope parent hp
    rw [parent?_declare] at hp
    exact ih scope parent hp

/-! ## Look-ups -/

theorem get?_of_size_le (h : g.size ≤ scope) : g.get? scope name kind = none := by
  rw [get?, Array.getElem?_eq_none h, Option.bind_none]

theorem parent?_of_size_le (h : g.size ≤ scope) : g.parent? scope = none := by
  rw [parent?, Array.getElem?_eq_none h, Option.map_none, Option.join_none]

theorem resolveWithin_succ (limit : Nat) (scope : ScopeId) :
    g.resolveWithin name kind (limit + 1) scope =
      (g.get? scope name kind).or ((g.parent? scope).bind (g.resolveWithin name kind limit)) := by
  rw [resolveWithin, get?, parent?]
  cases g.scopes[scope]? with
  | none => rfl
  | some s =>
    simp only [Option.bind_some, Option.map_some, Option.join_some]
    cases s.get? name kind with
    | some b => rfl
    | none => cases s.parent <;> rfl

/-- In an ordered graph the number of a scope bounds the way outwards. -/
theorem Ordered.resolveWithin_eq (h : g.Ordered) (scope : ScopeId) :
    ∀ limit limit', scope < limit → scope < limit' →
      g.resolveWithin name kind limit scope = g.resolveWithin name kind limit' scope := by
  induction scope using Nat.strongRecOn with
  | ind scope ih =>
    intro limit limit' hl hl'
    obtain ⟨limit, rfl⟩ := Nat.exists_eq_add_of_lt hl
    obtain ⟨limit', rfl⟩ := Nat.exists_eq_add_of_lt hl'
    rw [resolveWithin_succ, resolveWithin_succ]
    congr 1
    cases hp : g.parent? scope with
    | none => rfl
    | some parent =>
      have hlt := h scope parent hp
      exact ih parent hlt _ _ (Nat.lt_add_right _ hlt) (Nat.lt_add_right _ hlt)

/-- A look-up goes on in the scope around, if the name is not in the scope itself. -/
theorem Ordered.resolve_eq (h : g.Ordered) (scope : ScopeId) (name : String) (kind : NameKind) :
    g.resolve scope name kind = (g.get? scope name kind).or
      ((g.parent? scope).bind fun parent => g.resolve parent name kind) := by
  rw [resolve]
  rcases Nat.lt_or_ge scope g.size with hs | hs
  · obtain ⟨limit, hlimit⟩ := Nat.exists_eq_add_of_lt hs
    rw [hlimit, resolveWithin_succ]
    congr 1
    cases hp : g.parent? scope with
    | none => rfl
    | some parent =>
      have hlt := h scope parent hp
      exact h.resolveWithin_eq parent _ _ (Nat.lt_add_right _ hlt) (Nat.lt_trans hlt hs)
  · rw [get?_of_size_le hs, parent?_of_size_le hs]
    cases g.size with
    | zero => rfl
    | succ limit => rw [resolveWithin_succ, get?_of_size_le hs, parent?_of_size_le hs]; rfl

/-- A look-up finds what following the parents finds. -/
theorem Ordered.seeks_iff (h : g.Ordered) {scope : ScopeId} (hs : scope < g.size)
    {found : Option Binding} :
    g.Seeks name kind scope found ↔ found = g.resolve scope name kind := by
  constructor
  · intro hfound
    induction hfound with
    | here hget => rw [h.resolve_eq, hget, Option.some_or]
    | outwards hget hp _ ih =>
      rw [h.resolve_eq, hget, hp, Option.none_or, Option.bind_some]
      exact ih (Nat.lt_trans (h _ _ hp) hs)
    | nowhere _ hget hp => rw [h.resolve_eq, hget, hp, Option.none_or, Option.bind_none]
  · rintro rfl
    induction scope using Nat.strongRecOn with
    | ind scope ih =>
      rw [h.resolve_eq]
      cases hget : g.get? scope name kind with
      | some b => exact .here hget
      | none =>
        rw [Option.none_or]
        cases hp : g.parent? scope with
        | none => exact .nowhere hs hget hp
        | some parent =>
          have hlt := h scope parent hp
          exact .outwards hget hp (ih parent hlt (Nat.lt_trans hlt hs))

/-! ## Ways -/

/-- A way outwards leads to a scope that was there before. -/
theorem Ordered.le_of_way (h : g.Ordered) {way : List ScopeId} (hw : g.Way scope way target) :
    target ≤ scope := by
  induction hw with
  | here => exact Nat.le_refl _
  | outwards hp _ ih => exact Nat.le_trans ih (Nat.le_of_lt (h _ _ hp))

theorem Reaches.refl (g : ScopeGraph) (name : String) (kind : NameKind) (scope : ScopeId) :
    g.Reaches name kind scope scope :=
  ⟨[], .here scope, by simp⟩

/-- What is not in a scope is looked up in the one around it. -/
theorem Reaches.outwards {parent : ScopeId} (hget : g.get? scope name kind = none)
    (hp : g.parent? scope = some parent) (h : g.Reaches name kind parent target) :
    g.Reaches name kind scope target := by
  obtain ⟨way, hway, hnone⟩ := h
  exact ⟨scope :: way, .outwards hp hway, List.forall_mem_cons.mpr ⟨hget, hnone⟩⟩

/-! ## Declarations -/

/-- A declaration is refused exactly if the scope holds one of the name and kind, which is then the
answer. -/
theorem declare_fst : (g.declare scope name b).1 = g.get? scope name b.kind := by
  rw [declare]
  cases g.get? scope name b.kind <;> rfl

/-- A declaration that is accepted is added to its scope. -/
theorem get?_declare (hs : scope < g.size) (hnew : (g.declare scope name b).1 = none)
    (s : ScopeId) (n : String) (k : NameKind) :
    (g.declare scope name b).2.get? s n k =
      if s = scope ∧ n = name ∧ k = b.kind then some b else g.get? s n k := by
  rw [declare_fst] at hnew
  rw [declare, hnew, get?, get?]
  simp only [Array.getElem?_modify]
  by_cases hscope : scope = s
  · subst hscope
    rw [if_pos rfl]
    rw [get?] at hnew
    rw [size] at hs
    rw [Array.getElem?_eq_getElem hs, Option.bind_some] at hnew ⊢
    rw [Option.map_some, Option.bind_some, Scope.get?_concat]
    by_cases hkey : name = n ∧ b.kind = k
    · obtain ⟨rfl, rfl⟩ := hkey
      rw [hnew, if_pos ⟨rfl, rfl⟩, if_pos ⟨rfl, rfl, rfl⟩, Option.none_or]
    · rw [if_neg hkey, if_neg fun h => hkey ⟨h.2.1.symm, h.2.2.symm⟩, Option.or_none]
  · rw [if_neg hscope, if_neg fun h => hscope h.1.symm]

section Accepted

variable (h : g.Ordered) (hs : scope < g.size) (hnew : (g.declare scope name b).1 = none)

include h

theorem Ordered.declare : (g.declare scope name b).2.Ordered := by
  intro s parent hp
  rw [parent?_declare] at hp
  exact h s parent hp

include hs hnew

/-- A look-up that gets to the scope of a new declaration finds it. -/
theorem Ordered.resolve_declare_of_reaches {s : ScopeId} (hr : g.Reaches name b.kind s scope) :
    (g.declare scope name b).2.resolve s name b.kind = some b := by
  obtain ⟨way, hway, hnone⟩ := hr
  induction hway with
  | here s =>
    rw [h.declare.resolve_eq, get?_declare hs hnew, if_pos ⟨rfl, rfl, rfl⟩, Option.some_or]
  | @outwards s parent target way hp _ ih =>
    obtain ⟨hget, hnone⟩ := List.forall_mem_cons.mp hnone
    rw [h.declare.resolve_eq, get?_declare hs hnew, parent?_declare, hp, Option.bind_some,
      ih hs hnew hnone, hget]
    split <;> rfl

/-- All other look-ups find what they found before. -/
theorem Ordered.resolve_declare_of_not {n : String} {k : NameKind} (s : ScopeId)
    (hr : ¬(n = name ∧ k = b.kind ∧ g.Reaches n k s scope)) :
    (g.declare scope name b).2.resolve s n k = g.resolve s n k := by
  induction s using Nat.strongRecOn with
  | ind s ih =>
    have hother : ¬(s = scope ∧ n = name ∧ k = b.kind) := by
      rintro ⟨rfl, hn, hk⟩
      exact hr ⟨hn, hk, .refl g n k s⟩
    rw [h.declare.resolve_eq, h.resolve_eq, get?_declare hs hnew, if_neg hother, parent?_declare]
    cases hget : g.get? s n k with
    | some found => rw [Option.some_or, Option.some_or]
    | none =>
      cases hp : g.parent? s with
      | none => rfl
      | some parent =>
        refine congrArg _ (ih parent (h s parent hp) fun hreach => hr ?_)
        exact ⟨hreach.1, hreach.2.1, hreach.2.2.outwards hget hp⟩

end Accepted

/-- In a graph that has grown from the root every look-up ends.  A declaration is refused exactly if
the scope itself holds the name, and then nothing changes; if it is accepted, it is found by the
look-ups that reach its scope, and all others find what they found before. -/
theorem Grown.resolve_declare (hg : g.Grown) :
    (∀ scope parent, g.parent? scope = some parent → parent < scope) ∧
      (∀ scope < g.size, ∀ name kind found,
        g.Seeks name kind scope found ↔ found = g.resolve scope name kind) ∧
      ∀ scope < g.size, ∀ name b,
        (∀ existing, (g.declare scope name b).1 = some existing ↔
          g.get? scope name b.kind = some existing) ∧
        ((g.declare scope name b).1 ≠ none → (g.declare scope name b).2 = g) ∧
        ((g.declare scope name b).1 = none → ∀ s n k,
          (n = name ∧ k = b.kind ∧ g.Reaches n k s scope →
            (g.declare scope name b).2.resolve s n k = some b) ∧
          (¬(n = name ∧ k = b.kind ∧ g.Reaches n k s scope) →
            (g.declare scope name b).2.resolve s n k = g.resolve s n k)) ∧
        ∀ s n k, k ≠ b.kind → (g.declare scope name b).2.resolve s n k = g.resolve s n k := by
  have h := hg.ordered
  refine ⟨h, fun scope hs name kind found => h.seeks_iff hs, fun scope hs name b => ?_⟩
  have refused : (g.declare scope name b).1 ≠ none → (g.declare scope name b).2 = g := by
    intro hold
    obtain ⟨existing, hold⟩ := Option.ne_none_iff_exists'.mp hold
    exact declare_snd_of_some hold
  refine ⟨fun existing => by rw [declare_fst], refused, fun hnew s n k => ⟨?_, ?_⟩, ?_⟩
  · rintro ⟨rfl, rfl, hr⟩
    exact h.resolve_declare_of_reaches hs hnew hr
  · exact h.resolve_declare_of_not hs hnew s
  · intro s n k hk
    by_cases hnew : (g.declare scope name b).1 = none
    · exact h.resolve_declare_of_not hs hnew s fun hr => hk hr.2.1
    · rw [refused hnew]

/-- A new declaration is seen in its scope, but neither in a scope inside it with a declaration of
its own nor in one beside it. -/
theorem resolve_declare_beside : ∃ g : ScopeGraph, g.Grown ∧
    (g.declare 1 "x" (.localVar 9)).1 = none ∧
    (g.declare 1 "x" (.localVar 9)).2.resolve 1 "x" .variableName = some (.localVar 9) ∧
    (g.declare 1 "x" (.localVar 9)).2.resolve 2 "x" .variableName = some (.localVar 7) ∧
    (g.declare 1 "x" (.localVar 9)).2.resolve 3 "x" .variableName = some (.localVar 4) := by
  have opened := ((Grown.empty.push 0 (by decide)).push 1 (by decide)).push 0 (by decide)
  have grown := (opened.declare 0 (by decide) "x" (.localVar 4)).declare 2 (by decide) "x"
    (.localVar 7)
  obtain ⟨-, -, h⟩ := grown.resolve_declare
  obtain ⟨-, -, haccepted, -⟩ := h 1 (by decide) "x" (.localVar 9)
  refine ⟨_, grown, by decide, ?_, ?_, ?_⟩
  · exact (haccepted (by decide) 1 "x" .variableName).1 ⟨rfl, rfl, .refl _ _ _ _⟩
  · refine ((haccepted (by decide) 2 "x" .variableName).2 ?_).trans (by decide)
    rintro ⟨-, -, way, hway, hnone⟩
    cases hway with
    | outwards hp rest => exact absurd (hnone 2 (by simp)) (by decide)
  · refine ((haccepted (by decide) 3 "x" .variableName).2 ?_).trans (by decide)
    rintro ⟨-, -, way, hway, hnone⟩
    cases hway with
    | outwards hp rest =>
      cases hp
      exact absurd (grown.ordered.le_of_way rest) (by decide)

end StackLang.ScopeGraph
