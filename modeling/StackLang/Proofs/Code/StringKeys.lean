import Mathlib.Data.List.Induction
import StackLang.Proofs.Code.Generation
import StackLang.Proofs.Image.Roundtrip

/-!
# Keys of strings

A pool holds its strings twice: in an array, where a key is a position, and in an index, where the
key of a string is looked up.  The index is not written with the strings; it is made anew from the
array.  In every pool that comes about in these ways, a string is found where the array has it last,
and a string that is not found is not in the array.  So nothing is added that is there already, and
what has been added stays where it is.

* `StringPool.Becomes` — what can be done with a pool.
* `StringPool.Grown.eq_of_becomes` — writing and reading leave no trace.
* `StringPool.Grown.key?_eq_some_iff` — the key of a string is the last place where it stands.
* `StringPool.Grown.get?_of_becomes` — a key stands for the same string ever after.
* `StringPool.Grown.get?_intern`, `StringPool.Grown.intern_eq_iff` — strings and the keys they get.
* `StringPool.toList_of_becomes` — each string is there once, in the order they were first seen.
-/

namespace StackLang

/-- A word is known by its index. -/
theorem Word.eq_ofNat_of_toIndex? {w : Word} {k : Nat} (h : w.toIndex? = some k) :
    w = Word.ofNat k := by
  have hk := toIndex?_eq_some_iff.mp h
  have hlt := w.toInt_lt
  have hindex : (Word.ofNat k).toInt = k := Int64.toInt_ofNat_of_lt (by omega)
  rw [← Int64.toInt_inj, hindex, hk]

namespace StringPool

variable {p q : StringPool} {s t : String} {k : Nat} {v w : Word} {added : List String}

theorem get?_eq_some_iff :
    p.get? w = some s ↔ ∃ k, w.toIndex? = some k ∧ p.toList[k]? = some s := by
  rw [get?, Option.bind_eq_some_iff, toList]
  simp only [Array.getElem?_toList]

/-! ## What can be done with a pool -/

/-- The pool that is read from the bytes of a pool.  Its index is made anew. -/
def reload (p : StringPool) : Except DecodeError StringPool :=
  (Image.readList Image.readText (Image.writeList Image.writeText p.toList)).map fun r =>
    reindex ⟨r.1.toArray, []⟩

/-- From `p` one comes to the other pool by adding the given strings in their order.  At any time
the pool may also be written and read, and its index may be made anew. -/
inductive Becomes (p : StringPool) : List String → StringPool → Prop where
  | refl : Becomes p [] p
  | intern {added : List String} {q : StringPool} (h : Becomes p added q) (s : String) :
    Becomes p (added ++ [s]) (q.intern s).2
  | reindex {added : List String} {q : StringPool} (h : Becomes p added q) :
    Becomes p added q.reindex
  | reload {added : List String} {q r : StringPool} (h : Becomes p added q)
    (hfits : Image.CountedList Image.CountedText q.toList) (hr : q.reload = .ok r) :
    Becomes p added r

theorem reload_eq (hfits : Image.CountedList Image.CountedText p.toList) :
    p.reload = .ok p.reindex := by
  have hread := (Image.inverts_readList Image.inverts_readText).read_write p.toList hfits []
  rw [List.append_nil] at hread
  rw [reload, hread]
  rfl

/-- Writing, reading and a new index change nothing. -/
theorem Grown.eq_of_becomes (hp : p.Grown) (h : p.Becomes added q) : q = p.addAll added := by
  induction h with
  | refl => rfl
  | @intern added q h s ih =>
    rw [ih, addAll_append]
    rfl
  | @reindex added q h ih => rw [ih, (hp.addAll added).reindex_eq]
  | @reload added q r h hfits hr ih =>
    rw [reload_eq hfits, ih, (hp.addAll added).reindex_eq] at hr
    cases hr
    rfl

theorem becomes_addAll (p : StringPool) (added : List String) :
    p.Becomes added (p.addAll added) := by
  induction added using List.reverseRecOn with
  | nil => exact .refl
  | append_singleton added s ih =>
    rw [addAll_append]
    exact ih.intern s

/-! ## Looking up -/

/-- An index that lists the latest string first finds a string where it stands last. -/
theorem lookup_zipIdx_reverse (strings : List String) (s : String) (k : Nat) :
    strings.zipIdx.reverse.lookup s = some k ↔
      strings[k]? = some s ∧ ∀ j, k < j → strings[j]? ≠ some s := by
  induction strings using List.reverseRecOn with
  | nil => simp
  | append_singleton strings t ih =>
    have hreverse : (strings ++ [t]).zipIdx.reverse =
        (t, strings.length) :: strings.zipIdx.reverse := by
      simp [List.zipIdx_append]
    rw [hreverse, List.lookup_cons]
    by_cases hs : s = t
    · subst hs
      rw [beq_self_eq_true, Option.some_inj]
      constructor
      · rintro rfl
        refine ⟨List.getElem?_concat_length, fun j hj => ?_⟩
        rw [List.getElem?_eq_none (by rw [List.length_append]; exact hj)]
        exact (Option.some_ne_none s).symm
      · rintro ⟨hk, hlast⟩
        have hlt := (List.getElem?_eq_some_iff.mp hk).1
        rw [List.length_append, List.length_singleton] at hlt
        by_contra hne
        exact hlast strings.length (by omega) List.getElem?_concat_length
    · rw [beq_false_of_ne hs, ih]
      -- what stands behind the others is another string
      have hget : ∀ j : Nat, (strings ++ [t])[j]? = some s ↔ strings[j]? = some s := by
        intro j
        grind
      simp only [ne_eq, hget]

/-- The key of a string is the last place where the string stands. -/
theorem Grown.key?_eq_some_iff (h : p.Grown) :
    p.key? s = some k ↔ p.toList[k]? = some s ∧ ∀ j, k < j → p.toList[j]? ≠ some s := by
  rw [key?, ← h.reindex_eq, index_reindex]
  exact lookup_zipIdx_reverse _ s k

theorem Grown.key?_eq_none_iff (h : p.Grown) : p.key? s = none ↔ s ∉ p.toList := by
  rw [key?, ← h.reindex_eq, index_reindex, List.lookup_eq_none_iff]
  constructor
  · intro hall hmem
    obtain ⟨k, hk⟩ := List.getElem?_of_mem hmem
    have hne := hall (s, k) (List.mem_reverse.mpr (List.mem_zipIdx_iff_getElem?.mpr hk))
    exact bne_iff_ne.mp hne rfl
  · rintro hmem ⟨t, k⟩ hentry
    have hk := List.mem_zipIdx_iff_getElem?.mp (List.mem_reverse.mp hentry)
    refine bne_iff_ne.mpr ?_
    rintro rfl
    exact hmem (List.mem_of_getElem? hk)

/-- A string that is looked up is at its key. -/
theorem Grown.get?_of_key? (h : p.Grown) (hk : p.key? s = some k) (hlt : k < 0x8000000000000000) :
    p.get? (Word.ofNat k) = some s :=
  get?_eq_some_iff.mpr ⟨k, Word.toIndex?_ofNat hlt, (h.key?_eq_some_iff.mp hk).1⟩

theorem Grown.lt_size_of_key? (h : p.Grown) (hk : p.key? s = some k) : k < p.size := by
  have hget := (h.key?_eq_some_iff.mp hk).1
  simpa [toList, size] using (List.getElem?_eq_some_iff.mp hget).1

/-! ## Adding strings -/

theorem Grown.toList_intern (h : p.Grown) (s : String) :
    (p.intern s).2.toList = if s ∈ p.toList then p.toList else p.toList ++ [s] := by
  rw [StringPool.intern]
  cases hk : p.key? s with
  | some k => rw [if_pos (List.mem_of_getElem? (h.key?_eq_some_iff.mp hk).1)]
  | none =>
    rw [if_neg (h.key?_eq_none_iff.mp hk)]
    exact Array.toList_push

/-- What is in the pool stays where it is. -/
theorem Grown.prefix_addAll (h : p.Grown) (added : List String) :
    p.toList <+: (p.addAll added).toList := by
  induction added generalizing p with
  | nil => exact List.prefix_rfl
  | cons s added ih =>
    refine List.IsPrefix.trans ?_ (ih (h.intern s))
    rw [h.toList_intern]
    split
    · exact List.prefix_rfl
    · exact List.prefix_append _ _

theorem Grown.nodup_addAll (h : p.Grown) (hn : p.toList.Nodup) (added : List String) :
    (p.addAll added).toList.Nodup := by
  induction added generalizing p with
  | nil => exact hn
  | cons s added ih =>
    refine ih (h.intern s) ?_
    rw [h.toList_intern]
    split
    · exact hn
    · rename_i hs
      refine List.nodup_append.mpr ⟨hn, List.pairwise_singleton _ s, ?_⟩
      rintro a ha b hb rfl
      rw [List.mem_singleton] at hb
      exact hs (hb ▸ ha)

/-- The strings of a pool are in the order in which they were first seen. -/
theorem Grown.toList_addAll (h : p.Grown) {seen : List String} (hp : p.toList = seen.eraseDups)
    (added : List String) : (p.addAll added).toList = (seen ++ added).eraseDups := by
  induction added generalizing p seen with
  | nil => rw [List.append_nil, ← hp]; rfl
  | cons s added ih =>
    have hs : (p.intern s).2.toList = (seen ++ [s]).eraseDups := by
      rw [h.toList_intern, hp, List.eraseDups_append]
      by_cases hmem : s ∈ seen
      · simp [hmem, List.removeAll]
      · simp [hmem, List.removeAll, List.eraseDups_cons]
    have hrest := ih (h.intern s) hs
    rwa [List.append_assoc] at hrest

/-- A pool that is made from strings has each once, in the order in which they were first seen. -/
theorem toList_of_becomes {first : List String} (h : (ofList first).Becomes added p) :
    p.toList = (first ++ added).eraseDups ∧ p.toList.Nodup := by
  have hp : p = empty.addAll (first ++ added) := by
    rw [(Grown.ofList first).eq_of_becomes h, addAll_append]
    rfl
  have hnone : empty.toList = List.eraseDups [] := rfl
  rw [hp]
  exact ⟨Grown.empty.toList_addAll hnone _, Grown.empty.nodup_addAll List.nodup_nil _⟩

/-! ## Keys -/

/-- A key stands for the same string, whatever is done with the pool. -/
theorem Grown.get?_of_becomes (hp : p.Grown) (h : p.Becomes added q) (hw : p.get? w = some s) :
    q.get? w = some s := by
  obtain ⟨k, hk, hs⟩ := get?_eq_some_iff.mp hw
  obtain ⟨rest, hrest⟩ := hp.prefix_addAll added
  refine get?_eq_some_iff.mpr ⟨k, hk, ?_⟩
  have hlt := (List.getElem?_eq_some_iff.mp hs).1
  rw [hp.eq_of_becomes h, ← hrest, List.getElem?_append_left hlt, hs]

/-- The key that a string gets is looked up for it ever after. -/
theorem Grown.exists_key (hp : p.Grown) (h : (p.intern s).2.Becomes added q) :
    ∃ k, (p.intern s).1 = Word.ofNat k ∧ q.key? s = some k ∧ k ≤ p.size := by
  obtain ⟨-, k, hword, hk⟩ := p.intern_extends s
  have hle : (p.intern s).2.size ≤ p.size + 1 := by
    rw [StringPool.intern]
    split
    · exact Nat.le_succ _
    · exact Nat.le_of_eq (Array.size_push s)
  have hlt := (hp.intern s).lt_size_of_key? hk
  rw [(hp.intern s).eq_of_becomes h]
  exact ⟨k, hword, addAll_extends _ added s k hk, by omega⟩

theorem Grown.of_becomes (hp : p.Grown) (h : p.Becomes added q) : q.Grown :=
  hp.eq_of_becomes h ▸ hp.addAll added

/-- The key that a string gets stands for the string. -/
theorem Grown.get?_intern (hp : p.Grown) (hsize : p.size < 0x8000000000000000)
    (h : (p.intern s).2.Becomes added q) : q.get? (p.intern s).1 = some s := by
  obtain ⟨k, hword, hk, hle⟩ := hp.exists_key h
  rw [hword]
  exact ((hp.intern s).of_becomes h).get?_of_key? hk (by omega)

theorem Grown.size_le_of_becomes (hp : p.Grown) (h : (p.intern s).2.Becomes added q) :
    p.size ≤ q.size := by
  have hle : p.toList.length ≤ ((p.intern s).2.addAll added).toList.length :=
    (hp.prefix_addAll (s :: added)).length_le
  rw [(hp.intern s).eq_of_becomes h]
  simpa [toList, size] using hle

/-- Strings get the same key only if they are the same. -/
theorem Grown.intern_eq_iff (hp : p.Grown) (h : (p.intern s).2.Becomes added q)
    (hsize : q.size < 0x8000000000000000) : (q.intern t).1 = (p.intern s).1 ↔ t = s := by
  constructor
  · intro heq
    -- both strings are at the one key
    have hs := hp.get?_intern (Nat.lt_of_le_of_lt (hp.size_le_of_becomes h) hsize) (h.intern t)
    have ht := ((hp.intern s).of_becomes h).get?_intern (s := t) hsize .refl
    rw [heq] at ht
    exact Option.some_inj.mp (ht.symm.trans hs)
  · rintro rfl
    obtain ⟨k, hword, hk, -⟩ := hp.exists_key h
    rw [hword, StringPool.intern, hk]

/-- A string that is in the pool gets the last of its keys. -/
theorem Grown.intern_of_last (hp : p.Grown) (hk : p.toList[k]? = some s)
    (hlast : ∀ j, k < j → p.toList[j]? ≠ some s) : p.intern s = (Word.ofNat k, p) := by
  rw [StringPool.intern, hp.key?_eq_some_iff.mpr ⟨hk, hlast⟩]

/-- Without repetitions, a string has one key. -/
theorem Grown.intern_eq_idxOf (hp : p.Grown) (hn : p.toList.Nodup) (s : String) :
    (p.intern s).1 = Word.ofNat ((p.intern s).2.toList.idxOf s) := by
  obtain ⟨k, hword, hk, -⟩ := hp.exists_key (.refl (p := (p.intern s).2))
  obtain ⟨hlt, hget⟩ := List.getElem?_eq_some_iff.mp ((hp.intern s).key?_eq_some_iff.mp hk).1
  have hnodup : (p.intern s).2.toList.Nodup := hp.nodup_addAll hn [s]
  rw [hword, ← hnodup.idxOf_getElem k hlt, hget]

/-- Without repetitions, keys are equal exactly if their strings are. -/
theorem eq_iff_of_get? (hn : p.toList.Nodup) (hv : p.get? v = some s) (hw : p.get? w = some t) :
    v = w ↔ s = t := by
  obtain ⟨i, hi, hs⟩ := get?_eq_some_iff.mp hv
  obtain ⟨j, hj, ht⟩ := get?_eq_some_iff.mp hw
  constructor
  · rintro rfl
    exact Option.some_inj.mp (hv.symm.trans hw)
  · rintro rfl
    have hlt := (List.getElem?_eq_some_iff.mp hs).1
    have hij : i = j := (List.getElem?_inj hlt hn).mp (hs.trans ht.symm)
    rw [Word.eq_ofNat_of_toIndex? hi, Word.eq_ofNat_of_toIndex? hj, hij]

end StringPool

end StackLang
