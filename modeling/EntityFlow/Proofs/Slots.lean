import EntityFlow.Slots

/-!
# Slot tables keep their entries

A table is read through `get?`.  As long as the list of vacant slots is right, an insertion fills a
vacant index and an erasure empties one, and both leave every other index alone.  The list of
entries is then a view of `get?`: an entry is in it when it is at some index, and a relation between
entries at different indices is a relation between different places of the list.
-/

namespace EntityFlow.Slots

variable {α : Type} {s : Slots α} {a b : α} {i j : Nat}

/-- The vacant slots are listed, each once. -/
structure Coherent (s : Slots α) : Prop where
  nodup : s.free.Nodup
  mem_free : ∀ i, i ∈ s.free ↔ s.cells[i]? = some none

theorem get?_eq_some_iff : s.get? i = some a ↔ s.cells[i]? = some (some a) := by
  simp [get?, Option.join_eq_some_iff]

theorem coherent_empty : (empty : Slots α).Coherent where
  nodup := List.nodup_nil
  mem_free i := by simp [empty]

@[simp] theorem get?_empty : (empty : Slots α).get? i = none := by
  simp [empty, get?]

/-- An index is in use exactly if it has an entry. -/
theorem contains_iff : s.contains i ↔ ∃ a, s.get? i = some a := by
  rw [contains, Option.isSome_iff_exists]

theorem lt_size_of_get? (h : s.get? i = some a) : i < s.size := by
  obtain ⟨hi, -⟩ := Array.getElem?_eq_some_iff.1 (get?_eq_some_iff.1 h)
  exact hi

/-! ## Insertion -/

/-- A new entry gets the next index. -/
@[simp] theorem insert_fst : (s.insert a).1 = s.next := by
  cases hf : s.free <;> simp [insert, next, hf]

/-- The next index is not in use. -/
theorem get?_next (h : s.Coherent) : s.get? s.next = none := by
  cases hf : s.free with
  | nil => simp [next, hf, get?]
  | cons k rest =>
    have hk : s.cells[k]? = some none := (h.mem_free k).1 (by simp [hf])
    simp [next, hf, get?, hk]

/-- Inserting fills the next index and no other. -/
theorem get?_insert (h : s.Coherent) :
    (s.insert a).2.get? i = if i = s.next then some a else s.get? i := by
  cases hf : s.free with
  | nil =>
    simp only [insert, next, hf, get?, Array.getElem?_push]
    split <;> simp_all
  | cons k rest =>
    have hk : s.cells[k]? = some none := (h.mem_free k).1 (by simp [hf])
    obtain ⟨hlt, -⟩ := Array.getElem?_eq_some_iff.1 hk
    simp only [insert, next, hf, get?, Array.getElem?_setIfInBounds, eq_comm (a := k), hlt, if_true]
    split <;> simp_all

/-- An entry keeps its index when another one comes. -/
theorem get?_insert_of_get? (h : s.Coherent) (hi : s.get? i = some b) :
    (s.insert a).2.get? i = some b := by
  have hne : i ≠ s.next := by
    rintro rfl
    rw [get?_next h] at hi
    exact absurd hi (by simp)
  rw [get?_insert h, if_neg hne, hi]

/-- Inserting keeps the table coherent. -/
theorem Coherent.insert (h : s.Coherent) : (s.insert a).2.Coherent := by
  cases hf : s.free with
  | nil =>
    refine ⟨by simp [Slots.insert, hf], fun i => ?_⟩
    have hi := h.mem_free i
    rw [hf] at hi
    simp only [Slots.insert, hf, Array.getElem?_push]
    split
    · simp
    · exact hi
  | cons k rest =>
    have hnd : k ∉ rest ∧ rest.Nodup := by
      have hn := h.nodup
      rwa [hf, List.nodup_cons] at hn
    refine ⟨by simpa [Slots.insert, hf] using hnd.2, fun i => ?_⟩
    have hi := h.mem_free i
    rw [hf, List.mem_cons] at hi
    simp only [Slots.insert, hf, Array.getElem?_setIfInBounds]
    by_cases hk : k = i
    · subst hk
      simp [hnd.1]
    · rw [if_neg hk, ← hi]
      simp [Ne.symm hk]

/-! ## Erasure -/

/-- Erasing clears one index and no other. -/
theorem get?_erase : (s.erase j).get? i = if i = j then none else s.get? i := by
  by_cases hc : s.contains j
  · simp only [erase, hc, if_true, get?, Array.getElem?_setIfInBounds, eq_comm (a := j)]
    by_cases hi : i = j
    · simp only [hi, if_true]
      split <;> rfl
    · simp [hi]
  · have hn : s.get? j = none := by simpa [contains] using hc
    simp only [erase, hc, Bool.false_eq_true, if_false]
    split
    · rename_i hi
      rw [hi, hn]
    · rfl

/-- Erasing keeps the table coherent. -/
theorem Coherent.erase (h : s.Coherent) : (s.erase j).Coherent := by
  by_cases hc : s.contains j
  · obtain ⟨a, ha⟩ := contains_iff.1 hc
    have hj : s.cells[j]? = some (some a) := get?_eq_some_iff.1 ha
    obtain ⟨hlt, -⟩ := Array.getElem?_eq_some_iff.1 hj
    have hfree : j ∉ s.free := by
      rw [h.mem_free, hj]
      simp
    simp only [Slots.erase, hc, if_true]
    refine ⟨List.nodup_cons.2 ⟨hfree, h.nodup⟩, fun i => ?_⟩
    rw [List.mem_cons, Array.getElem?_setIfInBounds]
    by_cases hi : j = i
    · simp [← hi, hlt]
    · rw [if_neg hi, ← h.mem_free i]
      simp [Ne.symm hi]
  · simpa [Slots.erase, hc] using h

/-! ## The list of entries -/

/-- The listed entries are those at some index. -/
theorem mem_toList : a ∈ s.toList ↔ ∃ i, s.get? i = some a := by
  simp only [toList, List.mem_filterMap, id, exists_eq_right, get?_eq_some_iff]
  rw [Array.mem_toList_iff, Array.mem_iff_getElem?]

/-- What holds between the entries at any two indices holds along the list. -/
theorem pairwise_toList {R : α → α → Prop}
    (h : ∀ i j a b, i < j → s.get? i = some a → s.get? j = some b → R a b) :
    s.toList.Pairwise R := by
  rw [toList, List.pairwise_filterMap, List.pairwise_iff_getElem]
  intro i j hi hj hij a ha b hb
  refine h i j a b hij (get?_eq_some_iff.2 ?_) (get?_eq_some_iff.2 ?_)
  · rw [← ha, Array.getElem?_eq_some_iff]
    exact ⟨by simpa using hi, by simp⟩
  · rw [← hb, Array.getElem?_eq_some_iff]
    exact ⟨by simpa using hj, by simp⟩

end EntityFlow.Slots
