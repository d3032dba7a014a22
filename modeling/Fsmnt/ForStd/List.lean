import Mathlib.Data.List.GetD

/-!
# Lists around one of their entries
-/

namespace List

variable {α : Type*} {l : List α} {P : α → Prop} {i : Nat}

/-- A list is what precedes an entry, the entry, and what follows it. -/
theorem eq_take_append_of_getElem? {a : α} (h : l[i]? = some a) :
    l = l.take i ++ a :: l.drop (i + 1) := by
  obtain ⟨hi, rfl⟩ := getElem?_eq_some_iff.mp h
  rw [getElem_cons_drop, take_append_drop]

/-- The first entry with a property. -/
theorem exists_first (h : ∃ a ∈ l, P a) :
    ∃ front a back, l = front ++ a :: back ∧ (∀ c ∈ front, ¬ P c) ∧ P a := by
  classical
  have hsome : (l.find? (P ·)).isSome := find?_isSome.mpr (by simpa using h)
  obtain ⟨a, ha⟩ := Option.isSome_iff_exists.mp hsome
  obtain ⟨hPa, front, back, rfl, hfront⟩ := find?_eq_some_iff_append.mp ha
  exact ⟨front, a, back, rfl, by simpa using hfront, by simpa using hPa⟩

/-- There is only one first entry with a property. -/
theorem first_unique {front front' back back' : List α} {a a' : α}
    (h : front ++ a :: back = front' ++ a' :: back') (hfront : ∀ c ∈ front, ¬ P c) (ha : P a)
    (hfront' : ∀ c ∈ front', ¬ P c) (ha' : P a') : a = a' := by
  classical
  have hfind : ∀ {front : List α} back {a : α}, (∀ c ∈ front, ¬ P c) → P a →
      (front ++ a :: back).find? (P ·) = some a := fun _ _ hfront ha =>
    find?_eq_some_iff_append.mpr ⟨by simpa using ha, _, _, rfl, by simpa using hfront⟩
  have hsame := hfind back hfront ha
  rw [h, hfind back' hfront' ha'] at hsame
  exact (Option.some.inj hsame).symm

theorem getD_set_of_lt (hi : i < l.length) (j : Nat) (a d : α) :
    (l.set i a).getD j d = if j = i then a else l.getD j d := by
  rw [getD_eq_getElem?_getD, getElem?_set, getD_eq_getElem?_getD]
  by_cases heq : i = j
  · rw [if_pos heq, if_pos hi, if_pos heq.symm, Option.getD_some]
  · rw [if_neg heq, if_neg (Ne.symm heq)]

/-- The entries of a list in pairs. -/
theorem flatMap_range_getD {d : α} {n : Nat} (h : 2 * n ≤ l.length) :
    ((range n).flatMap fun i => [l.getD (2 * i) d, l.getD (2 * i + 1) d]) = l.take (2 * n) := by
  induction n with
  | zero => simp
  | succ n ih =>
    rw [range_succ, flatMap_append, ih (by omega), Nat.mul_succ,
      take_succ_eq_append_getElem (show 2 * n + 1 < l.length by omega),
      take_succ_eq_append_getElem (show 2 * n < l.length by omega), flatMap_singleton,
      append_assoc, singleton_append, getD_eq_getElem _ _ (by omega),
        getD_eq_getElem _ _ (by omega)]

end List
