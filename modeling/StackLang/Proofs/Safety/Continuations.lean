import StackLang.Proofs.Code.Shape

/-!
# Code and the code behind it

Some properties of code are told from its end: what is the case where the code begins depends on
what the code behind it asks for.  Where code is put together, the labels that it jumps to are
either its own or those around it.

* `Continuation` — a property of the rest of a function's code.
* `Continuation.Passes` — code that has the property if the code behind it has.
-/

namespace StackLang

/-- Labels with what is the case when they are jumped to. -/
def Jumps (α : Type) : Type :=
  α → LabelId → Prop

/-- One label more. -/
def Jumps.insert {α : Type} (J : Jumps α) (D : α) (l : LabelId) : Jumps α :=
  fun E k => J E k ∨ E = D ∧ k = l

theorem Jumps.forall_insert {α : Type} {J K : Jumps α} {D : α} {l : LabelId} :
    (∀ E k, J.insert D l E k → K E k) ↔ (∀ E k, J E k → K E k) ∧ K D l := by
  refine ⟨fun h => ⟨fun E k hk => h E k (.inl hk), h D l (.inr ⟨rfl, rfl⟩)⟩, ?_⟩
  rintro ⟨hJ, hl⟩ E k (hk | ⟨rfl, rfl⟩)
  · exact hJ E k hk
  · exact hl

/-- A property of the rest of a function's code, for what is the case where it begins. -/
structure Continuation (α : Type) where
  /-- The code has the property, where some labels may be jumped to. -/
  Holds : Jumps α → α → List Item → Prop
  /-- Less is the case than in the second. -/
  Le : α → α → Prop
  refl : ∀ D, Le D D
  trans : ∀ {C D E}, Le C D → Le D E → Le C E
  mono : ∀ {live : Jumps α} {D E : α} {is : List Item}, Holds live D is → Le D E → Holds live E is
  place : ∀ {live : Jumps α} {D : α} {l : LabelId} {is : List Item}, Holds live D is →
    Holds live D (.place l :: is)
  jump : ∀ {live : Jumps α} {D E : α} {l : LabelId} {is : List Item}, live D l → Le D E →
    Holds live E (.withLabel .jump l :: is)

namespace Continuation

variable {α : Type} {G : Continuation α} {J : Jumps α} {C D D' : α} {is js : List Item}
  {l : LabelId}

/-- The code has the property for `D` if the code behind it has it for `D'`, where it may jump to
the labels `J` outside of it.  Some of its own labels may be jumped to, and the code behind them has
the property for what is the case there. -/
def Passes (G : Continuation α) (J : Jumps α) (D D' : α) (is : List Item) : Prop :=
  ∃ N : Jumps α, ∀ live : Jumps α, (∀ E l, J E l → live E l) → (∀ E l, N E l → live E l) →
    ∀ rest, G.Holds live D' rest → G.Holds live D (is ++ rest) ∧
      ∀ E l, N E l → ∃ pre suf, is = pre ++ Item.place l :: suf ∧ G.Holds live E (suf ++ rest)

/-- Inside a loop its labels may be jumped to, when less than `D` is the case. -/
def Around (G : Continuation α) (J : Jumps α) (D : α) (loop : Option LoopLabels) : Prop :=
  ∀ labels ∈ loop, ∃ E, G.Le E D ∧ J E labels.next ∧ J E labels.stop

theorem Around.mono {loop : Option LoopLabels} (h : G.Around J C loop) (hD : G.Le C D) :
    G.Around J D loop := by
  intro labels hlabels
  obtain ⟨E, hE, hlive⟩ := h labels hlabels
  exact ⟨E, G.trans hE hD, hlive⟩

theorem Around.insert {loop : Option LoopLabels} (h : G.Around J D loop) :
    G.Around (J.insert C l) D loop := by
  intro labels hlabels
  obtain ⟨E, hE, hnext, hstop⟩ := h labels hlabels
  exact ⟨E, hE, .inl hnext, .inl hstop⟩

theorem Around.none : G.Around J D none := by
  intro labels hlabels
  cases hlabels

namespace Passes

/-- Code without labels that are jumped to. -/
theorem of_holds (h : ∀ live rest, (∀ E l, J E l → live E l) → G.Holds live D rest →
    G.Holds live C (is ++ rest)) : G.Passes J C D is :=
  ⟨fun _ _ => False, fun live hJ _ rest hrest => ⟨h live rest hJ hrest, fun _ _ hl => hl.elim⟩⟩

/-- One part of the code behind another. -/
theorem append (hi : G.Passes J C D is) (hj : G.Passes J D D' js) : G.Passes J C D' (is ++ js) := by
  obtain ⟨N, hN⟩ := hi
  obtain ⟨N', hN'⟩ := hj
  refine ⟨fun E l => N E l ∨ N' E l, fun live hJ hlive rest hrest => ?_⟩
  obtain ⟨hback, hlabels'⟩ := hN' live hJ (fun E l hl => hlive E l (.inr hl)) rest hrest
  obtain ⟨hfront, hlabels⟩ := hN live hJ (fun E l hl => hlive E l (.inl hl)) (js ++ rest) hback
  refine ⟨by rwa [List.append_assoc], ?_⟩
  rintro E l (hl | hl)
  · obtain ⟨pre, suf, rfl, hsuf⟩ := hlabels E l hl
    exact ⟨pre, suf ++ js, by simp, by rwa [List.append_assoc]⟩
  · obtain ⟨pre, suf, rfl, hsuf⟩ := hlabels' E l hl
    exact ⟨is ++ pre, suf, by simp, hsuf⟩

/-- The code behind may ask for less. -/
theorem weaken (h : G.Passes J C D is) (hD : G.Le D' D) : G.Passes J C D' is := by
  obtain ⟨N, hN⟩ := h
  exact ⟨N, fun live hJ hlive rest hrest => hN live hJ hlive rest (G.mono hrest hD)⟩

/-- Nothing behind a jump is reached by going on. -/
theorem jump (hl : J C l) (hC : G.Le C D) : G.Passes J D D' [.withLabel .jump l] :=
  of_holds fun _ _ hJ _ => G.jump (hJ C l hl) hC

/-- A jump out of the loop around it. -/
theorem stop {labels : LoopLabels} (h : G.Around J D (some labels)) :
    G.Passes J D D' [.withLabel .jump labels.stop] := by
  obtain ⟨E, hE, -, hstop⟩ := h labels rfl
  exact .jump hstop hE

/-- A jump to the end of the body of the loop around it. -/
theorem skip {labels : LoopLabels} (h : G.Around J D (some labels)) :
    G.Passes J D D' [.withLabel .jump labels.next] := by
  obtain ⟨E, hE, hnext, -⟩ := h labels rfl
  exact .jump hnext hE

/-- Code that may jump to its end. -/
theorem placeEnd (h : G.Passes (J.insert D l) C D is) : G.Passes J C D (is ++ [Item.place l]) := by
  obtain ⟨N, hN⟩ := h
  refine ⟨N.insert D l, fun live hJ hlive rest hrest => ?_⟩
  obtain ⟨hinner, hl⟩ := Jumps.forall_insert.mp hlive
  obtain ⟨hall, hlabels⟩ := hN live (Jumps.forall_insert.mpr ⟨hJ, hl⟩) hinner _
    (G.place (l := l) hrest)
  refine ⟨by rwa [List.append_assoc], ?_⟩
  rintro E k (hk | ⟨rfl, rfl⟩)
  · obtain ⟨pre, suf, rfl, hsuf⟩ := hlabels E k hk
    exact ⟨pre, suf ++ [Item.place l], by simp, by rwa [List.append_assoc]⟩
  · exact ⟨is, [], rfl, hrest⟩

/-- Code that jumps back to its beginning. -/
theorem backJump (h : G.Passes (J.insert D l) D D is) :
    G.Passes J D D' ([Item.place l] ++ is ++ [Item.withLabel .jump l]) := by
  obtain ⟨N, hN⟩ := h
  refine ⟨N.insert D l, fun live hJ hlive rest _ => ?_⟩
  obtain ⟨hinner, hl⟩ := Jumps.forall_insert.mp hlive
  have hjump : G.Holds live D (.withLabel .jump l :: rest) := G.jump hl (G.refl D)
  obtain ⟨hall, hlabels⟩ := hN live (Jumps.forall_insert.mpr ⟨hJ, hl⟩) hinner _ hjump
  refine ⟨by simpa using G.place hall, ?_⟩
  rintro E k (hk | ⟨rfl, rfl⟩)
  · obtain ⟨pre, suf, rfl, hsuf⟩ := hlabels E k hk
    exact ⟨Item.place l :: pre, suf ++ [Item.withLabel .jump l],
      by simp, by rwa [List.append_assoc]⟩
  · exact ⟨[], is ++ [Item.withLabel .jump k], by simp, by rwa [List.append_assoc]⟩

/-- A test that may leave the loop, the body, and the jump back. -/
theorem whileLoop {top stop : LabelId} {ts bs : List Item}
    (htest : G.Passes ((J.insert D stop).insert D top) D D ts)
    (hbody : G.Around ((J.insert D stop).insert D top) D (some ⟨top, stop⟩) →
      G.Passes ((J.insert D stop).insert D top) D D bs) :
    G.Passes J D D ([Item.place top] ++ ts ++ bs ++ [Item.withLabel .jump top] ++
      [Item.place stop]) := by
  rw [List.append_assoc [_]]
  refine .placeEnd (.backJump (htest.append (hbody ?_)))
  rintro _ ⟨⟩
  exact ⟨D, G.refl D, .inr ⟨rfl, rfl⟩, .inl (.inr ⟨rfl, rfl⟩)⟩

/-- A test that may leave the loop, the body, the change behind it, and the jump back. -/
theorem forLoop {top next stop : LabelId} {ts bs us : List Item}
    (htest : G.Passes ((J.insert D stop).insert D top) D D ts)
    (hbody : G.Around (((J.insert D stop).insert D top).insert D next) D (some ⟨next, stop⟩) →
      G.Passes (((J.insert D stop).insert D top).insert D next) D D bs)
    (hchange : G.Passes ((J.insert D stop).insert D top) D D us) :
    G.Passes J D D ([Item.place top] ++ (ts ++ (bs ++ ([Item.place next] ++ (us ++
      ([Item.withLabel .jump top] ++ [Item.place stop])))))) := by
  have inner := hbody (by
    rintro _ ⟨⟩
    exact ⟨D, G.refl D, .inr ⟨rfl, rfl⟩, .inl (.inl (.inr ⟨rfl, rfl⟩))⟩)
  have h : G.Passes (J.insert D stop) D D ([Item.place top] ++
      (ts ++ (bs ++ [Item.place next]) ++ us) ++ [Item.withLabel .jump top]) :=
    ((htest.append inner.placeEnd).append hchange).backJump
  simpa only [List.append_assoc] using h.placeEnd

/-- A branch that jumps to the end of the choice, and the branches behind it. -/
theorem arm {next stop : LabelId} {E : α} {ts bs : List Item}
    (htest : G.Passes (J.insert D next) D D ts) (hbody : G.Passes (J.insert D next) D D' bs)
    (hstop : J E stop) (hE : G.Le E D') (hrest : G.Passes J D D is) :
    G.Passes J D D (ts ++ bs ++ [Item.withLabel .jump stop] ++ [Item.place next] ++ is) :=
  (placeEnd ((htest.append hbody).append (.jump (.inl hstop) hE))).append hrest

end Passes

end Continuation

end StackLang
