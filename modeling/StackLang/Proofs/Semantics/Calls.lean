import StackLang.Proofs.Semantics.Instructions

/-!
# Calls

A call begins an activation whose parameters hold the arguments and whose other cells hold what was
left in the memory.  A return leads back to the caller, whose frame has not changed.

* `Execution.Valid.enter` — the beginning of an activation.
* `Activation.Returning.leave` — its end.
* `Execution.Valid.activation` — the run follows an activation if it follows its body.
-/

namespace StackLang

variable {depth : Nat} {s : Situation}

theorem Stacked.reverse {mem : Nat → Word} {lo j : Nat} {ws us : List Word} {w : Word}
    (h : Stacked mem lo (ws.reverse ++ us)) (hw : ws[j]? = some w) :
    mem (lo + us.length + j) = w := by
  induction ws generalizing us j with
  | nil => cases hw
  | cons v ws ih =>
    rw [List.reverse_cons, List.append_assoc] at h
    cases j with
    | zero =>
      cases hw
      exact (append.mp h).2.1
    | succ j =>
      rw [← ih h hw, List.length_append, List.length_singleton]
      congr 1
      omega

/-- An activation, in terms of what its body does. -/
theorem Reference.activation_eq (R : Reference) (fuel depth : Nat) (id : FunctionId)
    (f : Function (Stmt Mark)) (ws : List Word) (s : Situation) :
    R.activation (fuel + 1) (depth + 1) id f ws s =
      match R.stmt fuel depth f.returnType f.body
        ⟨R.entered s.calls id ws, s.world, s.calls + 1⟩ with
      | .ok .next s' => .ok none { s' with store := s.store }
      | .ok (.ret value) s' => .ok value { s' with store := s.store }
      | .ok _ s' => .error .undefined { s' with store := s.store }
      | .error e s' => .error e s' := by
  rw [Reference.activation]
  show (EStateM.bind (R.stmt fuel depth f.returnType f.body) _) _ = _
  rw [EStateM.bind]
  cases R.stmt fuel depth f.returnType f.body ⟨R.entered s.calls id ws, s.world, s.calls + 1⟩ with
  | ok c s' => cases c <;> rfl
  | error e s' => rfl

/-- The activation was begun by the call at which the machine shows `V`; below the address of the
function there are the words `us`. -/
structure Activation.Called {X : Execution} (A : Activation X) (V : View) (us : List Word) :
    Prop where
  code : X.code.size ≤ V.bp
  bp : V.bp ≤ V.lo
  ip : V.ip + 2 < X.code.size
  below : V.lo + us.length + A.f.params.length + 4 = A.bp
  savedIp : A.base (A.bp - 3) = Word.ofNat (V.ip + 2)
  savedBp : A.base (A.bp - 2) = Word.ofNat V.bp
  savedTop : A.base (A.bp - 1) = Word.ofNat (V.lo + us.length)
  stack : Stacked A.base V.lo us
  mem : ∀ a < V.lo, A.base a = V.mem a

/-- A return leads back behind the call. -/
theorem Activation.Returning.leave {X : Execution} {A : Activation X} {n : Nat}
    {value : Option Word} {V V' : View} {us : List Word} (h : A.Returning value s V')
    (hA : A.Valid depth) (hcall : A.Called V us) (hV' : X.Reaches V' n) :
    X.Reaches { V with ip := V.ip + 2, vs := value.toList ++ us, world := s.world } n := by
  obtain ⟨ip, hop, -, -, mem, rfl, hmem⟩ := h
  have hM := hA.run.memory
  have hbelow := hcall.below
  have hcode := hcall.code
  have hbp := hcall.bp
  have hsaved : ∀ k, 0 < k → k ≤ 3 → mem (A.bp - k) = A.base (A.bp - k) := by
    intro k hk hk3
    refine hmem.other _ (by omega) ?_
    rw [Owns]
    omega
  have hip : mem (A.bp - 3) = Word.ofNat (V.ip + 2) :=
    (hsaved 3 (by omega) (by omega)).trans hcall.savedIp
  have hsbp : mem (A.bp - 2) = Word.ofNat V.bp :=
    (hsaved 2 (by omega) (by omega)).trans hcall.savedBp
  have htop : mem (A.bp - 1) = Word.ofNat (V.lo + us.length) :=
    (hsaved 1 (by omega) (by omega)).trans hcall.savedTop
  have hother : ∀ a < V.lo + us.length, mem a = A.base a := by
    intro a ha
    refine hmem.other a (by omega) ?_
    rw [Owns]
    omega
  have hback : X.Reaches ⟨V.ip + 2, V.bp, V.lo + us.length, value.toList, mem, s.world⟩ n := by
    cases value with
    | none =>
      have hne : Op.ret ≠ .call := by decide
      exact hV'.step hop hne (Machine.step_ret hop (Nat.le_add_right _ _) hip hsbp htop hcall.ip
        hcode (by omega) (by simp only [view]; omega) (by omega))
    | some w =>
      have hne : Op.retValue ≠ .call := by decide
      exact hV'.step hop hne (Machine.step_retValue hop rfl (Nat.le_add_right _ _) hip hsbp htop
        hcall.ip hcode (by omega) (by simp only [view]; omega) (by omega))
  obtain ⟨t, m, hafter, hcount, hm⟩ := hback
  refine ⟨t, m, hafter, hcount, ?_⟩
  have hstack : Stacked mem V.lo us := hcall.stack.congr fun a _ ha => hother a ha
  have hshows := hm.unflatten (Nat.le_trans hcode hbp) rfl hstack
  exact hshows.congr fun a ha => ((hother a (Nat.lt_of_lt_of_le ha (Nat.le_add_right _ _))).trans
    (hcall.mem a ha)).symm

namespace Execution

variable {X : Execution} {id : FunctionId} {f : Function (Stmt Mark)} {V : View}
  {ws us : List Word} {is : List Item}

/-- The cells that a function reserves, the code of its body, and the return behind it. -/
structure Body (X : Execution) (id : FunctionId) (f : Function (Stmt Mark)) (t : Nat)
    (is : List Item) : Prop where
  address : X.env id = some t
  code : f.body.Code ⟨X.program.tree, X.program.notes, f.returnType⟩ X.generated.strings none is
  reserving : X.Located t (Item.reserving (X.program.tree.cells f.body.tags))
  located : X.Located (t + Item.size (Item.reserving (X.program.tree.cells f.body.tags))) is
  ret : X.code[t + Item.size (Item.reserving (X.program.tree.cells f.body.tags)) +
    Item.size is]? = some Op.ret.word

/-- The code of every function is in its place. -/
theorem Valid.body (hX : X.Valid) (hv : (id, f) ∈ X.program.tree.views) :
    ∃ t is, X.Body id f t is := by
  obtain ⟨all, hall⟩ := hX.assembled
  obtain ⟨t, js, hcode, hlies, henv⟩ := hall.function hv
  cases hcode with
  | @mk is hbody =>
    simp only [Item.lies_append, Item.size_append, ← Nat.add_assoc] at hlies
    obtain ⟨⟨⟨-, hreserve⟩, hbodyLies⟩, hret⟩ := hlies
    simp only [Item.size_place, Item.size_nil, Nat.add_zero] at hreserve hbodyLies hret
    have hword := hret.1 0 _ rfl
    have hlt : _ < X.code.size := (Array.getElem?_eq_some_iff.mp hword).1
    exact ⟨t, is, henv, hbody, ⟨hreserve, by omega⟩, ⟨hbodyLies, by omega⟩, hword⟩

/-- The cells of an activation hold the arguments and what was left in the memory. -/
theorem Valid.holds_entered (hX : X.Valid) (hv : (id, f) ∈ X.program.tree.views) {n bp lo : Nat}
    {m : Machine} (hm : X.start.Entered n m) (hbp : m.bp = bp)
    (hlo : lo + us.length + (f.params.length + 3) = bp) (hlen : ws.length = f.params.length)
    (hargs : Stacked m.cell lo (ws.reverse ++ us)) :
    Activation.Holds (X := X) ⟨id, f, bp, m.cell⟩ m.cell (X.reference.entered n id ws) where
  own b i a hplace := by
    obtain ⟨x, hcell, ha⟩ := hplace
    simp only at hcell ha
    have hcases := hcell.cases (hX.checked.named _ hv)
    obtain ⟨-, info, slot, hinfo, hslot, -, hx⟩ := hcell
    rcases hcases with ⟨j, hj, rfl, rfl, hxj⟩ | ⟨u, -, cells, slot', rfl, -⟩
    · have hget : ws[j]? = some ws[j] := List.getElem?_eq_getElem (hlen ▸ hj)
      have haddr : a = lo + us.length + j := by
        rw [hxj, paramSlot, frameHeader] at ha
        omega
      simp only [Reference.entered, if_true, List.getD_eq_getElem?_getD, hget, Option.getD_some]
      rw [haddr]
      exact hargs.reverse hget
    · show m.cell a = X.fresh n _ i
      refine Eq.trans ?_ (hX.fresh n m hm _ info slot hinfo hslot i).symm
      congr 1
      rw [hbp]
      omega
  other _ _ _ := rfl

/-- A call begins an activation. -/
theorem Valid.enter (hX : X.Valid) (hv : (id, f) ∈ X.program.tree.views) {t n : Nat}
    (hbody : X.Body id f t is) (hV : X.Reaches V n) (hcode : X.code.size ≤ V.bp)
    (hbp : V.bp ≤ V.lo) (hcall : X.Located V.ip [.withWord .call (Word.ofNat ws.length)])
    (hvs : V.vs = ws.reverse ++ Word.ofNat t :: us) (hlen : ws.length = f.params.length)
    (hroom : V.sp + 3 + (depth + 1) * X.frame ≤ X.memory) :
    ∃ base, let A : Activation X := ⟨id, f, V.sp + 3, base⟩
      A.Valid depth ∧ A.Called V us ∧ ∃ V', X.Reaches V' (n + 1) ∧
        A.At (t + Item.size (Item.reserving (X.program.tree.cells f.body.tags))) []
          ⟨X.reference.entered n id ws, V.world, n + 1⟩ V' := by
  obtain ⟨k, m, hafter, hcount, hm⟩ := hV
  obtain ⟨hop, hw⟩ := hcall.words
  have hM := hX.memory
  have hcells : X.program.tree.cells f.body.tags ≤ X.program.cells :=
    List.single_le_sum (fun _ _ => Nat.zero_le _) _ (List.mem_map.mpr ⟨_, hv, rfl⟩)
  have hone : X.frame ≤ (depth + 1) * X.frame := Nat.le_mul_of_pos_left _ (Nat.succ_pos _)
  have hsp : V.sp = V.lo + (us.length + 1) + ws.length := by
    rw [View.sp, hvs, List.length_append, List.length_cons, List.length_reverse]
    omega
  have hfits : V.sp + 3 + X.program.tree.cells f.body.tags ≤ X.memory := by
    have : X.program.cells + 3 ≤ X.frame := Nat.add_le_add_right (Nat.le_add_left _ _) 3
    omega
  have hargc : X.code[V.ip + 1]? = some (Word.ofNat ws.reverse.length) := by
    rw [List.length_reverse]
    exact hw _ rfl
  obtain ⟨m₁, hstep, hm₁⟩ := Machine.step_call hop hargc hvs
    (Nat.lt_of_le_of_lt (Nat.le_add_right _ _) hbody.reserving.2) (by omega) hM m hm
  have hcalls : X.start.opAt k = some .call := by
    rw [Machine.opAt, hafter, Option.bind_some]
    exact hm.nextOp? (by rwa [hm.ip])
  have hafter₁ := Machine.after_succ hafter hstep
  have hcount₁ : X.start.callCount (k + 1) = n + 1 := by
    rw [Machine.callCount, hcount, hcalls, if_pos rfl]
  -- the stack holds the saved words above the arguments
  obtain ⟨htop, hbase, hip, hargs⟩ := hm₁.stack
  simp only [hvs, List.length_cons, List.length_append, List.length_reverse] at htop hbase hip hargs
  have hbase' : m₁.bp = V.sp + 3 := hm₁.bp
  have hholds := hX.holds_entered hv ⟨k, hcalls, hcount, hafter₁⟩ hbase'
    (by rw [hsp, ← hlen, List.length_cons]; omega) hlen hargs
  refine ⟨m₁.cell, ⟨hX, hv, ?_, hroom⟩, ⟨hcode, hbp, hcall.2, ?_, ?_, ?_, ?_, ?_, hm₁.mem⟩, ?_⟩
  · simp only
    omega
  · simp only
    omega
  · exact (congrArg m₁.cell (by simp only; omega)).trans hip
  · exact (congrArg m₁.cell (by simp only; omega)).trans hbase
  · exact (congrArg m₁.cell (by simp only; omega)).trans htop
  · exact (Stacked.append.mp hargs).2.2
  · have hflat := hm₁.flatten
    have hlo : V.lo + (V.vs.length + 1 + 1 + 1) = V.sp + 3 := rfl
    simp only [View.sp, List.length_cons, hlo] at hflat
    rw [Item.reserving]
    split
    · rename_i hpos
      have hreserve := hbody.reserving
      rw [Item.reserving, if_pos hpos] at hreserve
      obtain ⟨hop₁, hw₁⟩ := hreserve.words
      obtain ⟨m₂, hstep₂, hcell, hm₂⟩ := Machine.step_alloc hflat hop₁ (hw₁ _ rfl) rfl hfits hM
      refine ⟨_, .of_step hafter₁ hcount₁ hflat hop₁ (by decide) hstep₂ hm₂, Nat.zero_le _, m₁.cell,
        rfl, hholds⟩
    · rename_i hzero
      have hnone : X.program.tree.cells f.body.tags = 0 := Nat.eq_zero_of_not_pos hzero
      refine ⟨_, ⟨k + 1, m₁, hafter₁, hcount₁, hflat⟩, Nat.zero_le _, m₁.cell, ?_, hholds⟩
      simp only [Activation.view, Activation.cells, hnone]
      rfl

/-- The run follows an activation if it follows the body of the function. -/
theorem Valid.activation (hX : X.Valid) (hv : (id, f) ∈ X.program.tree.views) {t fuel : Nat}
    (hbody : X.Body id f t is) (hV : X.Reaches V s.calls) (hworld : V.world = s.world)
    (hcode : X.code.size ≤ V.bp) (hbp : V.bp ≤ V.lo)
    (hcall : X.Located V.ip [.withWord .call (Word.ofNat ws.length)])
    (hvs : V.vs = ws.reverse ++ Word.ofNat t :: us) (hlen : ws.length = f.params.length)
    (hroom : V.sp + 3 + (depth + 1) * X.frame ≤ X.memory)
    (hrun : ∀ A : Activation X, A.Valid depth → A.id = id → A.f = f → X.Follows (A.At (t +
      Item.size (Item.reserving (X.program.tree.cells f.body.tags))) []) (X.reference.stmt fuel
      depth f.returnType f.body) (A.Lands none (t + Item.size (Item.reserving
      (X.program.tree.cells f.body.tags)) + Item.size is))) :
    X.Meets (fun value s' V' => (value.isSome = true → f.returnType ≠ .void) ∧ s'.store = s.store ∧
        V' = { V with ip := V.ip + 2, vs := value.toList ++ us, world := s'.world })
      (X.reference.activation (fuel + 1) (depth + 1) id f ws s) := by
  obtain ⟨base, hA, hcalled, V₁, hV₁, hat⟩ := hX.enter hv hbody hV hcode hbp hcall hvs hlen hroom
  have hmeets := hrun _ hA rfl rfl _ V₁ hV₁ (hworld ▸ hat)
  rw [Reference.activation_eq]
  generalize X.reference.stmt fuel depth f.returnType f.body _ = r at hmeets
  match r, hmeets with
  | .ok .next s', ⟨V', hV', hland⟩ =>
    have hret : Activation.Returning _ none s' V' := ⟨_, hbody.ret, by simp, hland⟩
    exact ⟨_, hret.leave hA hcalled hV', by simp, rfl, rfl⟩
  | .ok (.ret value) s', ⟨V', hV', hret⟩ =>
    have hvalue : value.isSome = true → f.returnType ≠ .void := by
      obtain ⟨_, -, hvalue, -⟩ := hret
      exact hvalue
    exact ⟨_, Activation.Returning.leave hret hA hcalled hV', hvalue, rfl, rfl⟩
  | .ok .stop s', _ => trivial
  | .ok .skip s', _ => trivial
  | .error (.failure e) s', hbreaks => exact hbreaks
  | .error .undefined s', _ => trivial
  | .error .unfinished s', _ => trivial

end Execution

end StackLang
