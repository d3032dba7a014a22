import Mathlib.Data.List.Induction

/-!
# Building tree maps by folds

What a lookup finds after a sequence of insertions, and after copying the entries of one
map into another through a filter.
-/

namespace Std.TreeMap

variable {κ β γ : Type*} {cmp : κ → κ → Ordering}
variable [TransCmp cmp] [LawfulEqCmp cmp] [DecidableEq κ] (t : TreeMap κ β cmp) (p : κ × β → Bool)

/-- After a sequence of insertions a key holds the value of the last one for it. -/
theorem getElem?_foldl_insert {α : Type*} (l : List α) (key : α → κ) (val : α → β)
    (m : TreeMap κ β cmp) (k : κ) : (l.foldl (fun m x => m.insert (key x) (val x)) m)[k]? =
      match (l.filter (fun x => key x = k)).getLast? with
      | some x => some (val x)
      | none => m[k]? := by
  induction l using List.reverseRecOn with
  | nil => rfl
  | append_singleton l x ih =>
    rw [List.foldl_append]
    simp only [List.foldl_cons, List.foldl_nil]
    by_cases hk : key x = k
    · simp [hk]
    · have hcmp : cmp (key x) k ≠ .eq := fun h => hk (LawfulEqCmp.eq_of_compare h)
      rw [getElem?_insert, ih]
      simp [hk]

/-- The entries of a map with key `k` that pass a filter: at most one. -/
theorem getLast?_filter_toList (k : κ) :
    ((t.toList.filter p).filter (fun x => x.1 = k)).getLast? =
      t[k]?.bind (fun v => if p (k, v) then some (k, v) else none) := by
  have hmem : ∀ x : κ × β, x ∈ (t.toList.filter p).filter (fun x => x.1 = k) ↔
      t[k]? = some x.2 ∧ x.1 = k ∧ p x = true := by
    intro x
    obtain ⟨k', v⟩ := x
    rw [List.mem_filter, List.mem_filter, mem_toList_iff_getElem?_eq_some]
    constructor
    · rintro ⟨⟨hget, hp⟩, hk⟩
      obtain rfl : k' = k := by simpa using hk
      exact ⟨hget, rfl, hp⟩
    · rintro ⟨hget, rfl, hp⟩
      exact ⟨⟨hget, hp⟩, by simp⟩
  cases hlast : ((t.toList.filter p).filter (fun x => x.1 = k)).getLast? with
  | some x =>
    obtain ⟨hget, rfl, hp⟩ := (hmem x).mp (List.mem_of_getLast? hlast)
    simp [hget, hp]
  | none =>
    have hnil := List.getLast?_eq_none_iff.mp hlast
    cases hget : t[k]? with
    | none => rfl
    | some v =>
      have hp : ¬ p (k, v) = true := by
        intro hp
        have hin := (hmem (k, v)).mpr ⟨hget, rfl, hp⟩
        rw [hnil] at hin
        cases hin
      simp [hp]

omit [TransCmp cmp] [LawfulEqCmp cmp] [DecidableEq κ] in
theorem values_eq_map_snd : t.values = t.toList.map Prod.snd := by
  show DTreeMap.Internal.Impl.values t.inner.inner =
    (DTreeMap.Internal.Impl.Const.toList t.inner.inner).map Prod.snd
  rw [DTreeMap.Internal.Impl.values_eq_map_snd,
    DTreeMap.Internal.Impl.Const.toList_eq_toListModel_map, List.map_map]
  rfl

end Std.TreeMap

namespace Std.TreeSet

/-- No element is listed twice. -/
theorem nodup_toList {κ : Type*} {cmp : κ → κ → Ordering} [TransCmp cmp] (t : TreeSet κ cmp) :
    t.toList.Nodup := by
  refine distinct_toList.imp fun {a b} hne heq => hne ?_
  rw [heq]
  exact ReflCmp.compare_self

end Std.TreeSet
