import StackLang.Proofs.Semantics.Expressions

/-!
# Statements

The code of a statement leaves the stack as it was, and the machine behind the statement, at the
label of a jump, or at a return.

* `Execution.Simulates.stmt_succ` — statements with more fuel.
* `Execution.Valid.simulates` — the run follows the evaluation with any fuel.
-/

namespace StackLang.Execution

variable {X : Execution} {fuel depth ip : Nat} {A : Activation X} {loop : Option LoopLabels}
  {e : Option (Expr Mark)} {is : List Item}

/-! ## Expressions of statements -/

theorem Simulates.effect (h : X.Simulates fuel) (hA : A.Valid depth) (he : ∀ e' ∈ e, A.Checks e')
    (hc : Expr.EffectCode A.context X.generated.strings e is) (hl : X.Located ip is) :
    X.Follows (A.At ip []) (Reference.optionally (X.reference.expr fuel depth) e) fun _ =>
      A.At (ip + Item.size is) [] := by
  cases hc with
  | none => exact .pure
  | some hc =>
    simp only [located_append, Item.size_append, ← Nat.add_assoc] at hl ⊢
    exact (h.expr hA (he _ rfl) hc hl.1).steps fun w => Activation.pop hl.2

/-- A condition that does not hold leads to the label. -/
theorem Simulates.guard (h : X.Simulates fuel) (hA : A.Valid depth) (he : ∀ e' ∈ e, A.Checks e')
    {stop : LabelId} {t : Nat} (hc : Expr.GuardCode A.context X.generated.strings stop e is)
    (hl : X.Located ip is) (ht : X.env stop = some t) (hlt : t < X.code.size) :
    X.Follows (A.At ip []) (Reference.optionally (X.reference.expr fuel depth) e) fun w =>
      A.At (if w = 0 then t else ip + Item.size is) [] := by
  cases hc with
  | none => exact .pure
  | some hc =>
    simp only [located_append, Item.size_append, ← Nat.add_assoc] at hl ⊢
    exact (h.expr hA (he _ rfl) hc hl.1).steps fun w => hA.jumpZero hl.2 ht hlt

/-! ## Sequences and branches -/

theorem Simulates.list_succ (h : X.Simulates fuel) : X.FollowsList (fuel + 1) := by
  intro depth ip A loop ss is hA hs hloop hc hl
  cases hc with
  | nil =>
    simp only [Reference.list]
    exact fun s V hV hP => ⟨V, hV, hP⟩
  | cons hfirst hrest =>
    simp only [Reference.list]
    simp only [located_append, Item.size_append, ← Nat.add_assoc] at hl ⊢
    refine (h.stmt hA (hs _ (by simp)) hloop hfirst hl.1).bind fun c => ?_
    cases c with
    | next => exact h.list hA (fun s hmem => hs s (by simp [hmem])) hloop hrest hl.2
    | stop | skip | ret value => exact .pure

theorem Simulates.arms_succ (h : X.Simulates fuel) : X.FollowsArms (fuel + 1) := by
  intro depth ip A loop stop branches otherwise is os hA hb ho hloop hc hco hl hstop
  cases hc with
  | nil =>
    cases hco with
    | none =>
      simp only [Reference.arms]
      exact fun s V hV hP => ⟨V, hV, hP⟩
    | some hcode =>
      simp only [Reference.arms]
      exact h.stmt hA (ho _ rfl) hloop hcode hl
  | @cons _ _ next _ _ _ _ _ _ hguard hbody hrest =>
    have hend := hl.2
    obtain ⟨hcheck, hallows⟩ := hb _ (List.mem_cons_self ..)
    simp only [Reference.arms]
    simp only [located_append, located_place, Item.size_append, Item.size_place, Item.size_nil,
      Nat.add_zero, ← Nat.add_assoc] at hl hstop hend ⊢
    obtain ⟨⟨⟨⟨⟨hl₁, hl₂⟩, hl₃⟩, hnext, hlt⟩, hl₄⟩, hl₅⟩ := hl
    refine (h.guard hA (fun e he => Option.mem_some_iff.mp he ▸ hcheck) hguard hl₁ hnext hlt).bind
      fun w => ?_
    by_cases hw : w = 0
    · simp only [hw, if_true]
      have hrest := h.arms hA (fun b hmem => hb b (by simp [hmem])) ho hloop hrest hco
        (located_append.mpr ⟨hl₄, hl₅⟩) (by rw [hstop, Item.size_append, ← Nat.add_assoc])
      rwa [Item.size_append, ← Nat.add_assoc] at hrest
    · simp only [hw, if_false]
      exact (h.stmt hA hallows hloop hbody hl₂).steps (Activation.Lands.steps
        (hA.jump hl₃ hstop hend))

/-! ## Loops -/

/-- Repetitions with more fuel. -/
theorem Simulates.loop_succ (h : X.Simulates fuel) : X.FollowsLoop (fuel + 1) := by
  intro depth ip A c u body labels top ts bs us hA hc hu hbody hguard hbodyCode hupdate hl₁ hl₂ hl₃
    hl₄ htop hnext hstop
  have hip : ip < X.code.size := Nat.lt_of_le_of_lt (Nat.le_add_right _ _) hl₁.2
  have hplaced : X.LoopPlaced (some labels) := by
    rintro _ ⟨⟩
    refine ⟨?_, _, hstop, hl₄.2⟩
    rcases hnext with hnext | ⟨hnext, -⟩
    · exact ⟨_, hnext, hl₂.2⟩
    · exact ⟨_, hnext, hip⟩
  have again := h.loop hA hc hu hbody hguard hbodyCode hupdate hl₁ hl₂ hl₃ hl₄ htop hnext hstop
  -- from behind the body, the update leads to the next repetition
  have update := (h.effect hA hu hupdate hl₃).bind fun _ =>
    (hA.jump hl₄ htop hip).follows again
  simp only [Reference.loop]
  refine (h.guard hA hc hguard hl₁ hstop hl₄.2).bind fun w => ?_
  by_cases hw : w = 0
  · simp only [hw, if_true]
    exact fun s V hV hP => ⟨V, hV, hP⟩
  · simp only [hw, if_false]
    refine (h.stmt hA hbody hplaced hbodyCode hl₂).bind fun completion => ?_
    cases completion with
    | next => exact update
    | stop =>
      rintro s V hV ⟨_, t, ⟨⟩, ht, hP⟩
      cases ht.symm.trans hstop
      exact ⟨V, hV, hP⟩
    | skip =>
      rintro s V hV ⟨_, t, ⟨⟩, ht, hP⟩
      rcases hnext with hnext | ⟨hnext, rfl⟩
      · cases ht.symm.trans hnext
        exact update s V hV hP
      · cases ht.symm.trans hnext
        exact again s V hV hP
    | ret value => exact fun s V hV hP => ⟨V, hV, hP⟩

/-! ## Statements -/

theorem Simulates.stmt_succ (h : X.Simulates fuel) : X.FollowsStmt (fuel + 1) := by
  intro depth ip A loop s is hA hs hloop hc hl
  obtain ⟨m, shape⟩ := s
  obtain ⟨_, htyped⟩ := hs.typed
  have hbound := hs.bound.root
  have hrule := htyped.root
  cases hc with
  | block hbody =>
    simp only [Reference.stmt]
    exact h.list hA (fun s hmem => hs.child hmem) hloop hbody hl
  | ret ht he =>
    simp only [Reference.stmt, Reference.stored]
    rw [typeOf_reference ht]
    simp only [located_append, Item.size_append, ← Nat.add_assoc, pure_bind] at hl ⊢
    obtain ⟨⟨hl₁, hl₂⟩, hl₃⟩ := hl
    refine (h.expr hA ⟨hrule.2.1, hbound.1 _ (by simp)⟩ he hl₁).bind fun w => ?_
    refine (Activation.narrowing hl₂).follows fun s V hV hP => ?_
    exact ⟨V, hV, _, hl₃.words.1, fun _ => hrule.1, hP⟩
  | retVoid =>
    simp only [Reference.stmt]
    exact fun s V hV hP => ⟨V, hV, _, hl.words.1, by simp, hP⟩
  | expression he =>
    simp only [Reference.stmt]
    refine (h.effect hA ?_ he hl).bind fun _ s V hV hP => ⟨V, hV, hP⟩
    rintro _ ⟨⟩
    exact ⟨hrule, hbound.1 _ (by simp)⟩
  | choice hbranches hotherwise =>
    simp only [Reference.stmt]
    simp only [located_append, located_place] at hl
    obtain ⟨⟨hl₁, hl₂⟩, hstop, -⟩ := hl
    have harms := h.arms hA (fun b hmem => ⟨⟨(hrule b hmem).typed, hbound.1 _ ?_⟩, hs.child ?_⟩)
      (fun s hmem => hs.child ?_) hloop hbranches hotherwise (located_append.mpr ⟨hl₁, hl₂⟩) hstop
    · rw [Item.size_append, Item.size_place, Item.size_nil, Nat.add_zero]
      exact harms
    · exact List.mem_map_of_mem hmem
    · exact List.mem_append_left _ (List.mem_map_of_mem hmem)
    · exact List.mem_append_right _ (Option.mem_toList.mpr hmem)
  | @whileLoop _ _ c _ _ _ _ _ hguard hbody =>
    simp only [Reference.stmt]
    simp only [located_append, located_place, Item.size_append, Item.size_place, Item.size_nil,
      Nat.add_zero, Nat.zero_add, ← Nat.add_assoc] at hl ⊢
    obtain ⟨⟨⟨⟨⟨htop, -⟩, hl₁⟩, hl₂⟩, hl₃⟩, hstop, -⟩ := hl
    have hcond := hbound.1 c (by simp)
    -- There is no update: a body that is left early goes on at the top.
    have hrepeat := h.loop hA (fun e he => Option.mem_some_iff.mp he ▸ ⟨hrule.typed, hcond⟩)
      (fun _ hnone => (Option.not_mem_none _ hnone).elim) (hs.child (by simp))
      hguard hbody .none
      hl₁ hl₂ ⟨trivial, hl₂.2⟩ hl₃ htop (.inr ⟨htop, rfl⟩) hstop
    exact hrepeat.weaken fun c s V hland => hland.of_none loop
  | @forLoop _ _ init c u _ _ _ _ _ _ _ _ hinit hguard hbody hupdate =>
    simp only [located_append, located_place, Item.size_append, Item.size_place, Item.size_nil,
      Nat.add_zero, ← Nat.add_assoc] at hl ⊢
    obtain ⟨⟨⟨⟨⟨⟨⟨hl₀, htop, -⟩, hl₁⟩, hl₂⟩, hnext, -⟩, hl₃⟩, hl₄⟩, hstop, -⟩ := hl
    have hexpr : ∀ e ∈ c.toList ++ u.toList, Expr.Bound _ _ e := hbound.1
    have hrepeat := h.loop hA
      (fun e he =>
        ⟨(hrule.1 e he).typed, hexpr e (List.mem_append_left _ (Option.mem_toList.mpr he))⟩)
      (fun e he => ⟨hrule.2 e he, hexpr e (List.mem_append_right _ (Option.mem_toList.mpr he))⟩)
      (hs.child (by simp)) hguard hbody hupdate hl₁ hl₂ hl₃ hl₄ htop
      (.inl hnext) hstop
    -- Jumps out of the loop have been caught in it, and none is left for the loop around it.
    replace hrepeat := hrepeat.weaken fun c s V hland => hland.of_none loop
    cases hinit with
    | none =>
      simp only [Reference.stmt]
      exact hrepeat
    | some hinit =>
      simp only [Reference.stmt]
      refine (h.stmt hA (hs.child (by simp)) .none hinit hl₀).bind fun completion => ?_
      cases completion with
      | next => exact hrepeat
      | stop | skip => exact fun s V hV hP => ⟨V, hV, hP.of_none loop⟩
      | ret value => exact fun s V hV hP => ⟨V, hV, hP⟩
  | output hvalues =>
    simp only [Reference.stmt]
    refine (h.outputs hA (fun e hmem => ?_) hvalues hl).bind fun _ s V hV hP => ⟨V, hV, hP⟩
    obtain ⟨T, -, htype⟩ := hrule e hmem
    exact ⟨htype.typed, hbound.1 _ hmem⟩
  | input hv hslot =>
    obtain ⟨info, hinfo, hlength⟩ := hrule
    cases hinfo.symm.trans hv
    obtain ⟨β, hβ, hx⟩ := Activation.exists_scalar (hbound.2 _ rfl) hv hslot hlength
    simp only [Reference.stmt]
    rw [show X.reference.program = X.program from rfl, hβ]
    simp only [located_cons, Item.size_cons, ← Nat.add_assoc, pure_bind] at hl ⊢
    refine (hA.read hl.1).bind fun w => ?_
    refine (hA.save hx hl.2).bind fun _ => ?_
    exact fun s V hV hP => ⟨V, hV, hP⟩
  | var hslot ht he =>
    simp only [Reference.stmt, Reference.stored]
    rw [typeOf_reference ht]
    simp only [located_append, Item.size_append, ← Nat.add_assoc, pure_bind] at hl ⊢
    obtain ⟨⟨hl₁, hl₂⟩, hl₃⟩ := hl
    have hcheck : A.Checks _ := ⟨(hrule _ rfl).1, hbound.1 _ (by simp)⟩
    refine (h.expr hA hcheck he hl₁).bind fun w => (Activation.narrowing hl₂).follows ?_
    refine (hA.save (by simpa using hs.cell hslot rfl Nat.zero_lt_one) hl₃).bind fun _ => ?_
    exact fun s V hV hP => ⟨V, hV, hP⟩
  | varBlank =>
    simp only [Reference.stmt]
    exact fun s V hV hP => ⟨V, hV, hP⟩
  | @array _ _ m' _ _ _ es _ _ hslot hes =>
    obtain ⟨_, _, heq, -, hlen, hfits⟩ := hrule _ rfl
    cases heq
    have hall := hbound.1 (.node m' (.braces es)) (by simp)
    simp only [Reference.stmt]
    refine (h.elements hA (fun e hmem => ⟨(hfits e hmem).1, hall.child e hmem⟩)
      (fun i hi => hs.cell hslot rfl (by omega)) (by simpa using hes) hl).bind fun _ => ?_
    exact fun s V hV hP => ⟨V, hV, hP⟩
  | arrayBlank =>
    simp only [Reference.stmt]
    exact fun s V hV hP => ⟨V, hV, hP⟩
  | stop =>
    simp only [Reference.stmt]
    obtain ⟨-, t, ht, hlt⟩ := hloop _ rfl
    refine (hA.jump hl ht hlt).follows fun s V hV hP => ⟨V, hV, _, t, rfl, ht, hP⟩
  | skip =>
    simp only [Reference.stmt]
    obtain ⟨⟨t, ht, hlt⟩, -⟩ := hloop _ rfl
    refine (hA.jump hl ht hlt).follows fun s V hV hP => ⟨V, hV, _, t, rfl, ht, hP⟩

/-! ## All evaluations -/

/-- An evaluation without fuel is not finished. -/
theorem simulates_zero (X : Execution) : X.Simulates 0 where
  expr _ _ _ _ := by
    simp only [Reference.expr]
    exact .halt (by simp)
  args _ _ _ _ := by
    simp only [Reference.args]
    exact .halt (by simp)
  activation _ _ _ _ _ := by
    simp only [Reference.activation]
    exact .halt (by simp)
  outputs _ _ _ _ := by
    simp only [Reference.outputs]
    exact .halt (by simp)
  elements _ _ _ _ _ := by
    simp only [Reference.elements]
    exact .halt (by simp)
  stmt _ _ _ _ _ := by
    simp only [Reference.stmt]
    exact .halt (by simp)
  list _ _ _ _ _ := by
    simp only [Reference.list]
    exact .halt (by simp)
  arms _ _ _ _ _ _ _ _ := by
    simp only [Reference.arms]
    exact .halt (by simp)
  loop _ _ _ _ _ _ _ _ _ _ _ _ _ _ := by
    simp only [Reference.loop]
    exact .halt (by simp)

theorem Valid.simulates (hX : X.Valid) : ∀ fuel, X.Simulates fuel
  | 0 => simulates_zero X
  | fuel + 1 =>
    have h := hX.simulates fuel
    { expr := h.expr_succ
      args := h.args_succ
      activation := h.activation_succ
      outputs := h.outputs_succ
      elements := h.elements_succ
      stmt := h.stmt_succ
      list := h.list_succ
      arms := h.arms_succ
      loop := h.loop_succ }

end StackLang.Execution
