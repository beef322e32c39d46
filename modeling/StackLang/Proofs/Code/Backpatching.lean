import StackLang.Proofs.Code.Assembled

/-!
# Filling in addresses

Labels are made, referred to and placed in any order while the code grows.  Whatever the order, a
word that refers to a label holds the address of the label as soon as the label is placed, and every
other word is as it was appended.

* `Assembly.Action`, `Assembly.run` — what is done to code under construction, from nothing on.
* `Assembly.Proper` — labels are used after they were made, placed once, and a word refers to one.
* `Assembly.Kept` — what is known after any number of actions.
* `Assembly.Proper.backpatched` — which words hold addresses, and which labels are still open.
-/

namespace StackLang.Assembly

/-- Something done to code under construction. -/
inductive Action where
  | fresh
  | emit (ws : List Word)
  | reference (l : LabelId) (site : Nat)
  | place (l : LabelId)
  deriving DecidableEq

/-- The words that an action appends. -/
def Action.words : Action → List Word
  | emit ws => ws
  | fresh | reference _ _ | place _ => []

/-- The code behind an action. -/
def act (a : Assembly) : Action → Assembly
  | .fresh => a.fresh.2
  | .emit ws => a.emit ws
  | .reference l site => a.reference l site
  | .place l => a.place l

/-- The code behind actions that begin with nothing. -/
def run (as : List Action) : Assembly :=
  as.foldl act {}

/-- The words that have been appended, as they were then. -/
def emitted (as : List Action) : List Word :=
  as.flatMap Action.words

/-- The label was the answer to a request for a new one. -/
def Made (as : List Action) (l : LabelId) : Prop :=
  ∃ before, before ++ [.fresh] <+: as ∧ (run before).fresh.1 = l

/-- The action may follow the given ones: the labels that it uses were made, a label is placed for
the first time, and a word that exists refers to a label for the first time. -/
def Allowed (as : List Action) : Action → Prop
  | .fresh | .emit _ => True
  | .reference l site => Made as l ∧ site < (run as).code.size ∧ ∀ k, .reference k site ∉ as
  | .place l => Made as l ∧ .place l ∉ as

/-- Every action may follow the ones before it. -/
def Proper (as : List Action) : Prop :=
  ∀ before next, before ++ [next] <+: as → Allowed before next

/-- The label was placed when the code had the given length. -/
def PlacedAt (as : List Action) (l : LabelId) (v : Nat) : Prop :=
  ∃ before, before ++ [.place l] <+: as ∧ (run before).code.size = v

variable {as done : List Action} {l k : LabelId} {v site p : Nat} {next : Action}

/-! ## One more action -/

theorem run_concat (as : List Action) (next : Action) : run (as ++ [next]) = (run as).act next := by
  simp [run]

theorem emitted_concat (as : List Action) (next : Action) :
    emitted (as ++ [next]) = emitted as ++ next.words := by
  simp [emitted]

theorem concat_prefix_concat {before : List Action} {e : Action} :
    before ++ [e] <+: as ++ [next] ↔ before ++ [e] <+: as ∨ before = as ∧ e = next := by
  rw [List.prefix_concat_iff, or_comm]
  refine or_congr_right ⟨fun h => ?_, fun h => by rw [h.1, h.2]⟩
  exact ⟨(List.append_inj' h rfl).1, List.singleton_inj.mp (List.append_inj' h rfl).2⟩

theorem made_concat : Made (as ++ [next]) l ↔ Made as l ∨ next = .fresh ∧ (run as).fresh.1 = l := by
  simp only [Made, concat_prefix_concat]
  constructor
  · rintro ⟨before, h | ⟨rfl, rfl⟩, hl⟩
    · exact .inl ⟨before, h, hl⟩
    · exact .inr ⟨rfl, hl⟩
  · rintro (⟨before, h, hl⟩ | ⟨rfl, hl⟩)
    · exact ⟨before, .inl h, hl⟩
    · exact ⟨as, .inr ⟨rfl, rfl⟩, hl⟩

theorem placedAt_concat :
    PlacedAt (as ++ [next]) l v ↔ PlacedAt as l v ∨ next = .place l ∧ (run as).code.size = v := by
  simp only [PlacedAt, concat_prefix_concat]
  constructor
  · rintro ⟨before, h | ⟨rfl, rfl⟩, hv⟩
    · exact .inl ⟨before, h, hv⟩
    · exact .inr ⟨rfl, hv⟩
  · rintro (⟨before, h, hv⟩ | ⟨rfl, hv⟩)
    · exact ⟨before, .inl h, hv⟩
    · exact ⟨as, .inr ⟨rfl, rfl⟩, hv⟩

theorem PlacedAt.mem (h : PlacedAt as l v) : .place l ∈ as := by
  obtain ⟨before, hbefore, -⟩ := h
  exact hbefore.subset (by simp)

theorem exists_placedAt (h : .place l ∈ as) : ∃ v, PlacedAt as l v := by
  obtain ⟨before, behind, rfl⟩ := List.append_of_mem h
  exact ⟨_, before, ⟨behind, by simp⟩, rfl⟩

theorem Proper.of_prefix (h : Proper as) (hd : done <+: as) : Proper done :=
  fun before next hbefore => h before next (hbefore.trans hd)

theorem proper_nil : Proper [] := by
  intro before next h
  simp at h

theorem Proper.concat (h : Proper as) (next : Action) (hn : Allowed as next) :
    Proper (as ++ [next]) := by
  intro before e hbefore
  rcases concat_prefix_concat.mp hbefore with hbefore | ⟨rfl, rfl⟩
  · exact h before e hbefore
  · exact hn

/-! ## What is known all along -/

/-- The table knows the labels that were made, where they were placed and, until then, which words
refer to them; the words of labels that were placed hold their addresses, and the others are as they
were appended. -/
structure Kept (as : List Action) : Prop where
  made : ∀ l, Made as l ↔ l < (run as).labels.size
  value : ∀ l v, ((run as).labels.getD l {}).value = some v ↔ PlacedAt as l v
  sites : ∀ l, .place l ∉ as →
    ∀ site, site ∈ ((run as).labels.getD l {}).sites ↔ .reference l site ∈ as
  size : (run as).code.size = (emitted as).length
  inside : ∀ l site, .reference l site ∈ as → site < (run as).code.size
  single : ∀ l k site, .reference l site ∈ as → .reference k site ∈ as → l = k
  patched : ∀ l v site, PlacedAt as l v → .reference l site ∈ as →
    (run as).code[site]? = some (Word.ofNat v)
  plain : ∀ p, (∀ l, .reference l p ∈ as → .place l ∉ as) → (run as).code[p]? = (emitted as)[p]?

theorem kept_nil : Kept [] where
  made l := by simp [Made, run]
  value l v := by simp [PlacedAt, run]
  sites l _ site := by simp [run]
  size := rfl
  inside l site h := by cases h
  single l k site h := by cases h
  patched l v site _ h := by cases h
  plain p _ := by simp [run, emitted]

theorem Kept.value_eq_none (h : Kept as) :
    ((run as).labels.getD l {}).value = none ↔ .place l ∉ as := by
  constructor
  · intro hnone hmem
    obtain ⟨v, hv⟩ := exists_placedAt hmem
    rw [(h.value l v).mpr hv] at hnone
    cases hnone
  · intro hmem
    cases hvalue : ((run as).labels.getD l {}).value with
    | none => rfl
    | some v => exact absurd ((h.value l v).mp hvalue).mem hmem

theorem Kept.fresh (h : Kept as) : Kept (as ++ [.fresh]) := by
  have hlabel : ∀ l, (run (as ++ [.fresh])).labels.getD l {} = (run as).labels.getD l {} := by
    intro l
    rw [run_concat, act, Assembly.fresh, Array.getD_eq_getD_getElem?, Array.getElem?_push,
      Array.getD_eq_getD_getElem?]
    split
    · rename_i hl
      subst hl
      simp
    · rfl
  have hcode : (run (as ++ [.fresh])).code = (run as).code := by rw [run_concat]; rfl
  have hemitted : emitted (as ++ [.fresh]) = emitted as := by simp [emitted_concat, Action.words]
  refine ⟨fun l => ?_, fun l v => ?_, fun l => ?_, ?_, ?_, ?_, fun l v => ?_, ?_⟩
  · rw [made_concat, h.made, run_concat, act, Assembly.fresh, Array.size_push,
      Nat.lt_succ_iff_lt_or_eq]
    simp only [true_and, eq_comm]
  · simpa [hlabel, placedAt_concat] using h.value l v
  · simpa [hlabel] using h.sites l
  · rw [hcode, hemitted, h.size]
  · simpa [hcode] using h.inside
  · simpa using h.single
  · simpa [hcode, placedAt_concat] using h.patched l v
  · simpa [hcode, hemitted] using h.plain

theorem Kept.emit (h : Kept as) (ws : List Word) : Kept (as ++ [.emit ws]) := by
  have hlabels : (run (as ++ [.emit ws])).labels = (run as).labels := by rw [run_concat]; rfl
  have hcode : (run (as ++ [.emit ws])).code.toList = (run as).code.toList ++ ws := by
    simp [run_concat, act, Assembly.emit]
  have hsize : (run (as ++ [.emit ws])).code.size = (run as).code.size + ws.length := by
    rw [← Array.length_toList, hcode, List.length_append, Array.length_toList]
  have hemitted : emitted (as ++ [.emit ws]) = emitted as ++ ws := by
    rw [emitted_concat, Action.words]
  refine ⟨fun l => ?_, fun l v => ?_, fun l => ?_, ?_, fun l site hr => ?_, ?_,
    fun l v site hv hr => ?_, fun p hp => ?_⟩
  · simpa [hlabels, made_concat] using h.made l
  · simpa [hlabels, placedAt_concat] using h.value l v
  · simpa [hlabels] using h.sites l
  · rw [hsize, hemitted, List.length_append, h.size]
  · rw [hsize]
    exact Nat.lt_add_right _ (h.inside l site (by simpa using hr))
  · simpa using h.single
  · have hr : .reference l site ∈ as := by simpa using hr
    rw [← Array.getElem?_toList, hcode,
      List.getElem?_append_left (by simpa using h.inside l site hr), Array.getElem?_toList]
    exact h.patched l v site (by simpa [placedAt_concat] using hv) hr
  · have hold : (run as).code[p]? = (emitted as)[p]? := h.plain p (by simpa using hp)
    rw [← Array.getElem?_toList, hcode, hemitted]
    rcases Nat.lt_or_ge p (run as).code.size with hlt | hge
    · rw [List.getElem?_append_left (by simpa using hlt), Array.getElem?_toList, hold,
        List.getElem?_append_left (by rw [← h.size]; exact hlt)]
    · rw [List.getElem?_append_right (by simpa using hge), Array.length_toList, h.size,
        List.getElem?_append_right (by rw [← h.size]; exact hge)]

/-- A word that begins to refer to a label refers to no other. -/
theorem Kept.single_concat (h : Kept as) (hnew : ∀ k, .reference k site ∉ as) :
    ∀ k j p, .reference k p ∈ as ++ [.reference l site] →
      .reference j p ∈ as ++ [.reference l site] → k = j := by
  intro k j p hk hj
  simp only [List.mem_append, List.mem_singleton, Action.reference.injEq] at hk hj
  rcases hk with hk | ⟨rfl, rfl⟩ <;> rcases hj with hj | ⟨rfl, hp⟩
  · exact h.single k j p hk hj
  · exact absurd (hp ▸ hk) (hnew k)
  · exact absurd hj (hnew j)
  · rfl

/-- A word that begins to refer to a label is there, as the others are. -/
theorem Kept.inside_concat (h : Kept as) (hsite : site < (run as).code.size) :
    ∀ k p, .reference k p ∈ as ++ [.reference l site] → p < (run as).code.size := by
  intro k p hp
  simp only [List.mem_append, List.mem_singleton, Action.reference.injEq] at hp
  rcases hp with hp | ⟨-, rfl⟩
  · exact h.inside k p hp
  · exact hsite

/-- A word begins to refer to a label that was placed: the address is written at once. -/
theorem Kept.reference_placed (h : Kept as) (hv : PlacedAt as l v)
    (hsite : site < (run as).code.size) (hnew : ∀ k, .reference k site ∉ as) :
    Kept (as ++ [.reference l site]) := by
  have hrun : run (as ++ [.reference l site]) =
      { run as with code := (run as).code.setIfInBounds site (Word.ofNat v) } := by
    rw [run_concat, act, Assembly.reference, (h.value l v).mpr hv]
  have hcode : ∀ p, (run (as ++ [.reference l site])).code[p]? =
      if site = p then some (Word.ofNat v) else (run as).code[p]? := by
    intro p
    rw [hrun, Array.getElem?_setIfInBounds, if_pos hsite]
  have hemitted : emitted (as ++ [.reference l site]) = emitted as := by
    rw [emitted_concat, Action.words, List.append_nil]
  refine ⟨fun k => ?_, fun k w => ?_, fun k hk p => ?_, ?_, fun k p hp => ?_,
    h.single_concat hnew, fun k w p hw hp => ?_, fun p hp => ?_⟩
  · simpa [hrun, made_concat] using h.made k
  · simpa [hrun, placedAt_concat] using h.value k w
  · have hk : .place k ∉ as := by simpa using hk
    have hne : k ≠ l := fun heq => hk (heq ▸ hv.mem)
    simpa [hrun, hne] using h.sites k hk p
  · simpa [hrun, hemitted] using h.size
  · simpa [hrun] using h.inside_concat hsite k p hp
  · replace hw : PlacedAt as k w := by simpa [placedAt_concat] using hw
    simp only [List.mem_append, List.mem_singleton, Action.reference.injEq] at hp
    rcases hp with hp | ⟨rfl, rfl⟩
    · have hne : site ≠ p := fun heq => hnew k (heq ▸ hp)
      rw [hcode, if_neg hne]
      exact h.patched k w p hw hp
    · have hvalue := (h.value k w).mpr hw
      rw [(h.value k v).mpr hv] at hvalue
      rw [hcode, if_pos rfl, Option.some.inj hvalue]
  · have hne : site ≠ p := by
      rintro rfl
      exact hp l (by simp) (by simpa using hv.mem)
    rw [hcode, if_neg hne, hemitted]
    exact h.plain p fun k hk => by simpa using hp k (by simp [hk])

/-- A word begins to refer to a label that was not placed: the table remembers it. -/
theorem Kept.reference_unplaced (h : Kept as) (hl : Made as l) (hopen : .place l ∉ as)
    (hsite : site < (run as).code.size) (hnew : ∀ k, .reference k site ∉ as) :
    Kept (as ++ [.reference l site]) := by
  have hrun : run (as ++ [.reference l site]) = { run as with
      labels := (run as).labels.modify l fun x => { x with sites := x.sites ++ [site] } } := by
    rw [run_concat, act, Assembly.reference, h.value_eq_none.mpr hopen]
  have hlabel : ∀ k, (run (as ++ [.reference l site])).labels.getD k {} =
      if l = k then { (run as).labels.getD k {} with
        sites := ((run as).labels.getD k {}).sites ++ [site] } else (run as).labels.getD k {} := by
    intro k
    rw [hrun, getD_modify ((h.made l).mp hl)]
  have hemitted : emitted (as ++ [.reference l site]) = emitted as := by
    rw [emitted_concat, Action.words, List.append_nil]
  refine ⟨fun k => ?_, fun k w => ?_, fun k hk p => ?_, ?_, fun k p hp => ?_,
    h.single_concat hnew, fun k w p hw hp => ?_, fun p hp => ?_⟩
  · simpa [hrun, made_concat] using h.made k
  · have hvalue : ((run (as ++ [.reference l site])).labels.getD k {}).value =
        ((run as).labels.getD k {}).value := by
      rw [hlabel]
      split <;> rfl
    rw [hvalue]
    simpa [placedAt_concat] using h.value k w
  · have hold := h.sites k (by simpa using hk) p
    rw [hlabel]
    by_cases hlk : l = k
    · subst hlk
      rw [if_pos rfl, List.mem_append, hold]
      simp
    · rw [if_neg hlk, hold]
      simp [Ne.symm hlk]
  · simpa [hrun, hemitted] using h.size
  · simpa [hrun] using h.inside_concat hsite k p hp
  · replace hw : PlacedAt as k w := by simpa [placedAt_concat] using hw
    simp only [List.mem_append, List.mem_singleton, Action.reference.injEq] at hp
    rcases hp with hp | ⟨rfl, rfl⟩
    · rw [hrun]
      exact h.patched k w p hw hp
    · exact absurd hw.mem hopen
  · rw [hrun, hemitted]
    exact h.plain p fun k hk => by simpa using hp k (by simp [hk])

/-- A label is placed: all words that refer to it get their address. -/
theorem Kept.place (h : Kept as) (hl : Made as l) (hopen : .place l ∉ as) :
    Kept (as ++ [.place l]) := by
  have hlabel : ∀ k, (run (as ++ [.place l])).labels.getD k {} =
      if l = k then { (run as).labels.getD k {} with value := some (run as).code.size }
      else (run as).labels.getD k {} := by
    intro k
    rw [run_concat, act, Assembly.place, getD_modify ((h.made l).mp hl)]
  have hsize : (run (as ++ [.place l])).code.size = (run as).code.size := by
    rw [run_concat, act, Assembly.place, size_patch]
  have hcode : ∀ p, (run (as ++ [.place l])).code[p]? =
      if .reference l p ∈ as then some (Word.ofNat (run as).code.size) else (run as).code[p]? := by
    intro p
    rw [run_concat, act, Assembly.place, getElem?_patch]
    simp only [h.sites l hopen p]
    refine if_congr ⟨fun hp => hp.1, fun hp => ⟨hp, h.inside l p hp⟩⟩ rfl rfl
  have hemitted : emitted (as ++ [.place l]) = emitted as := by
    rw [emitted_concat, Action.words, List.append_nil]
  refine ⟨fun k => ?_, fun k w => ?_, fun k hk p => ?_, ?_, fun k p hp => ?_, ?_,
    fun k w p hw hp => ?_, fun p hp => ?_⟩
  · simpa [run_concat, act, Assembly.place, made_concat] using h.made k
  · rw [hlabel, placedAt_concat]
    by_cases hlk : l = k
    · subst hlk
      have hnone : ¬PlacedAt as l w := fun hw => hopen hw.mem
      simp [hnone]
    · simpa [hlk] using h.value k w
  · simp only [List.mem_append, List.mem_singleton, Action.place.injEq, not_or] at hk
    rw [hlabel, if_neg (Ne.symm hk.2)]
    simpa using h.sites k hk.1 p
  · rw [hsize, hemitted, h.size]
  · rw [hsize]
    exact h.inside k p (by simpa using hp)
  · simpa using h.single
  · have hp : .reference k p ∈ as := by simpa using hp
    rw [hcode]
    rcases placedAt_concat.mp hw with hw | ⟨hk, rfl⟩
    · have hne : .reference l p ∉ as := fun hlp => hopen (h.single k l p hp hlp ▸ hw.mem)
      rw [if_neg hne]
      exact h.patched k w p hw hp
    · cases hk
      rw [if_pos hp]
  · have hne : .reference l p ∉ as := fun hlp => hp l (by simpa using hlp) (by simp)
    rw [hcode, if_neg hne, hemitted]
    refine h.plain p fun k hk hplace => hp k (by simpa using hk) (by simp [hplace])

/-- What is known is known after every action. -/
theorem Proper.kept (h : Proper as) : Kept as := by
  induction as using List.reverseRecOn with
  | nil => exact kept_nil
  | append_singleton as next ih =>
    have hkept := ih (h.of_prefix (List.prefix_append as [next]))
    have hnext := h as next (List.prefix_refl _)
    cases next with
    | fresh => exact hkept.fresh
    | emit ws => exact hkept.emit ws
    | reference l site =>
      obtain ⟨hl, hsite, hnew⟩ := hnext
      by_cases hopen : .place l ∈ as
      · obtain ⟨v, hv⟩ := exists_placedAt hopen
        exact hkept.reference_placed hv hsite hnew
      · exact hkept.reference_unplaced hl hopen hsite hnew
    | place l => exact hkept.place hnext.1 hnext.2

/-! ## Open labels -/

/-- The labels that are open are the ones that are referred to and not placed. -/
theorem Kept.mem_unplaced (h : Kept as) :
    l ∈ (run as).unplaced ↔ (∃ site, .reference l site ∈ as) ∧ .place l ∉ as := by
  have hplaced : (!((run as).labels.getD l {}).isPlaced) = true ↔ .place l ∉ as := by
    rw [← h.value_eq_none, Label.isPlaced]
    simp
  simp only [unplaced, List.mem_filter, List.mem_range, Bool.and_eq_true, hplaced]
  constructor
  · rintro ⟨-, hopen, hsites⟩
    refine ⟨?_, hopen⟩
    obtain ⟨site, hsite⟩ := List.exists_mem_of_ne_nil ((run as).labels.getD l {}).sites
      (by simpa using hsites)
    exact ⟨site, (h.sites l hopen site).mp hsite⟩
  · rintro ⟨⟨site, hsite⟩, hopen⟩
    have hmem := (h.sites l hopen site).mpr hsite
    refine ⟨?_, hopen, by simpa using List.ne_nil_of_mem hmem⟩
    -- a label beyond the table would have no words that wait for it
    by_contra hge
    rw [Array.getD_eq_getD_getElem?, Array.getElem?_eq_none (Nat.le_of_not_lt hge)] at hmem
    cases hmem

theorem pairwise_unplaced (a : Assembly) : a.unplaced.Pairwise (· < ·) :=
  List.pairwise_lt_range.filter _

/-- After each of a proper sequence of actions, a word that refers to a label that was placed holds
the length of the code at that moment, all other words are as they were appended, and the open
labels are those that are referred to and not placed, in ascending order. -/
theorem Proper.backpatched (h : Proper as) (hd : done <+: as) :
    (∀ before behind l site, done = before ++ .place l :: behind → .reference l site ∈ done →
        (run done).code[site]? = some (Word.ofNat (run before).code.size)) ∧
      (∀ p, (∀ l, .reference l p ∈ done → .place l ∉ done) →
        (run done).code[p]? = (emitted done)[p]?) ∧
      (∀ l, l ∈ (run done).unplaced ↔
        (∃ site, .reference l site ∈ done) ∧ .place l ∉ done) ∧
      (run done).unplaced.Pairwise (· < ·) := by
  have hkept := (h.of_prefix hd).kept
  refine ⟨fun before behind l site heq hr => ?_, hkept.plain, fun l => hkept.mem_unplaced,
    pairwise_unplaced _⟩
  exact hkept.patched l _ site ⟨before, ⟨behind, by simp [heq]⟩, rfl⟩ hr

/-- A label is placed between two references to it, and another one stays open. -/
theorem backpatched_both_ways : ∃ as, Proper as ∧ (run as).code[1]? = some 4 ∧
    (run as).code[5]? = some 4 ∧ (run as).code[3]? = some 9 ∧ 1 ∈ (run as).unplaced := by
  have two : Proper [.fresh, .fresh] := (proper_nil.concat .fresh trivial).concat .fresh trivial
  have first : Made [.fresh, .fresh, .emit [27, 0, 27, 9]] 0 := ⟨[], by decide, rfl⟩
  have second : Made [.fresh, .fresh, .emit [27, 0, 27, 9], .reference 0 1] 1 :=
    ⟨[.fresh], by decide, rfl⟩
  have waiting : Proper [.fresh, .fresh, .emit [27, 0, 27, 9], .reference 0 1, .reference 1 3] :=
    ((two.concat (.emit [27, 0, 27, 9]) trivial).concat (.reference 0 1)
      ⟨first, by decide, by simp⟩).concat _ ⟨second, by decide, by simp⟩
  have placed : Proper [.fresh, .fresh, .emit [27, 0, 27, 9], .reference 0 1, .reference 1 3,
      .place 0, .emit [27, 0]] :=
    (waiting.concat (.place 0) ⟨⟨[], by decide, rfl⟩, by decide⟩).concat _ trivial
  have all := placed.concat (.reference 0 5) ⟨⟨[], by decide, rfl⟩, by decide, by simp⟩
  obtain ⟨hpatched, hplain, hopen, -⟩ := all.backpatched (List.prefix_refl _)
  refine ⟨_, all, ?_, ?_, ?_, ?_⟩
  · exact hpatched [.fresh, .fresh, .emit [27, 0, 27, 9], .reference 0 1, .reference 1 3] _ 0 1 rfl
      (by simp)
  · exact hpatched [.fresh, .fresh, .emit [27, 0, 27, 9], .reference 0 1, .reference 1 3] _ 0 5 rfl
      (by simp)
  · exact hplain 3 (by simp)
  · exact (hopen 1).mpr ⟨⟨3, by simp⟩, by simp⟩

end StackLang.Assembly
