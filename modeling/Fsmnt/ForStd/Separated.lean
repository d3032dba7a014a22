import Mathlib.Data.List.Basic

/-!
# Segments joined by a separator

`[x].intercalate` writes a list of segments with the separator `x` between them. When no segment
holds the separator, the segments can be read back, and the joined text of a longer list goes on
after the joined text of a shorter one with the separator exactly when the shorter list comes
first in the longer one.
-/

namespace List

open List

variable {α : Type*} {x : α} {p q r : List (List α)}

/-- No segment of the list holds the separator. -/
def SeparatorFree (x : α) (p : List (List α)) : Prop := ∀ s ∈ p, x ∉ s

/-- Two joined texts have a separator between them. -/
theorem intercalate_append (hp : p ≠ []) (hr : r ≠ []) :
    [x].intercalate (p ++ r) = [x].intercalate p ++ x :: [x].intercalate r := by
  induction p with
  | nil => exact absurd rfl hp
  | cons s p ih =>
    cases p with
    | nil => simp [intercalate_cons_of_ne_nil hr]
    | cons t p =>
      rw [cons_append, intercalate_cons_of_ne_nil (by simp), ih (by simp)]
      simp

theorem intercalate_eq_nil_iff (hp : ∀ s ∈ p, s ≠ []) : [x].intercalate p = [] ↔ p = [] := by
  cases p with
  | nil => simp
  | cons s p =>
    have hs : s ≠ [] := hp s mem_cons_self
    cases p with
    | nil => simpa using hs
    | cons t p => simp [intercalate_cons_cons]

variable [BEq α] [LawfulBEq α]

theorem separatorFree_splitOn (x : α) (a : List α) : SeparatorFree x (splitOn x a) := by
  induction a with
  | nil => simp [SeparatorFree]
  | cons y a ih =>
    intro s hs
    rw [splitOn_cons_eq_if_modifyHead] at hs
    cases hsplit : splitOn x a with
    | nil => exact absurd hsplit (splitOn_ne_nil x a)
    | cons t ts =>
      rw [hsplit] at hs ih
      split at hs
      · rcases mem_cons.mp hs with rfl | hs
        · exact not_mem_nil
        · exact ih s hs
      rename_i hy
      rcases mem_cons.mp hs with rfl | hs
      · have ht : x ∉ t := ih t mem_cons_self
        intro hmem
        rcases mem_cons.mp hmem with rfl | hmem
        · exact hy (beq_self_eq_true x)
        · exact ht hmem
      · exact ih s (mem_cons_of_mem t hs)

/-- What follows the joined text of `p` and a separator is the joined text of the segments
    after `p`. -/
theorem intercalate_eq_append_cons_iff (hp : p ≠ []) (hpf : SeparatorFree x p)
    (hqf : SeparatorFree x q) {t : List α} : [x].intercalate q = [x].intercalate p ++ x :: t ↔
      ∃ r, r ≠ [] ∧ q = p ++ r ∧ t = [x].intercalate r := by
  constructor
  · intro h
    have hq : q ≠ [] := by
      rintro rfl
      simp at h
    have hsplit := congrArg (splitOn x) h
    rw [splitOn_intercalate x hqf hq, splitOn_append_cons_self, splitOn_intercalate x hpf hp]
      at hsplit
    exact ⟨splitOn x t, splitOn_ne_nil x t, hsplit, (intercalate_splitOn x).symm⟩
  · rintro ⟨r, hr, rfl, rfl⟩
    exact intercalate_append hp hr

/-- A joined text determines its parts. -/
theorem intercalate_inj (hp : ∀ s ∈ p, s ≠ []) (hq : ∀ s ∈ q, s ≠ []) (hpf : SeparatorFree x p)
    (hqf : SeparatorFree x q) : [x].intercalate p = [x].intercalate q ↔ p = q := by
  constructor
  · intro h
    by_cases hnil : p = []
    · rw [hnil, intercalate_nil, eq_comm, intercalate_eq_nil_iff hq] at h
      rw [hnil, h]
    have hq' : q ≠ [] := by
      rintro rfl
      exact hnil ((intercalate_eq_nil_iff hp).mp (h.trans intercalate_nil))
    rw [← splitOn_intercalate x hpf hnil, h, splitOn_intercalate x hqf hq']
  · exact congrArg _

end List
