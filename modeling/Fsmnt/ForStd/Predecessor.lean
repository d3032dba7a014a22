import Mathlib.Order.Lattice
import Fsmnt.ForStd.List

/-!
# The predecessor of a key in a sorted list

The last element whose rank is not above a key. In a list that is cut into pieces, as the leaves of
a search tree cut the list of its entries, it is in the last piece that starts at or below the key.
-/

namespace List

variable {α κ : Type} [LinearOrder κ] {rank : α → κ} {k : κ} {l : List α} {split : Nat}

/-- The last element with a rank that is not above `k`. -/
def predecessor (rank : α → κ) (k : κ) (l : List α) : Option α :=
  (l.filter fun a => decide (rank a ≤ k)).getLast?

/-- The elements that are not above `k` come first in a list that is sorted. -/
theorem predecessor_eq_of_split (hle : split ≤ l.length)
    (hsplit : ∀ i a, l[i]? = some a → (rank a ≤ k ↔ i < split)) :
    predecessor rank k l = if split = 0 then none else l[split - 1]? := by
  have hfilter : (l.filter fun a => decide (rank a ≤ k)) = l.take split := by
    rw [← take_append_drop split l, filter_append]
    have htake : ((l.take split).filter fun a => decide (rank a ≤ k)) = l.take split := by
      apply filter_eq_self.mpr
      intro a ha
      obtain ⟨i, hi⟩ := mem_iff_getElem?.mp ha
      rw [getElem?_take] at hi
      split at hi
      · rename_i hlt
        exact decide_eq_true ((hsplit i a hi).mpr hlt)
      · cases hi
    have hdrop : ((l.drop split).filter fun a => decide (rank a ≤ k)) = [] := by
      apply filter_eq_nil_iff.mpr
      intro a ha hle
      obtain ⟨i, hi⟩ := mem_iff_getElem?.mp ha
      rw [getElem?_drop] at hi
      have hlt := (hsplit _ a hi).mp (of_decide_eq_true hle)
      omega
    rw [htake, hdrop, append_nil, take_append_drop]
  rw [predecessor, hfilter, getLast?_take]
  split
  · rfl
  · rename_i hne
    rw [getElem?_eq_getElem (by omega), Option.some_or]

theorem predecessor_append (l l' : List α) :
    predecessor rank k (l ++ l') = (predecessor rank k l').or (predecessor rank k l) := by
  rw [predecessor, filter_append, getLast?_append]
  rfl

theorem predecessor_eq_none_iff : predecessor rank k l = none ↔ ∀ a ∈ l, k < rank a := by
  simp [predecessor]

section

variable (hsorted : l.Pairwise fun a b => rank a < rank b)

include hsorted

/-- In a list that is sorted by rank no two elements have the same rank. -/
theorem eq_of_rank_eq {a b : α} (ha : a ∈ l) (hb : b ∈ l) (heq : rank a = rank b) : a = b := by
  obtain ⟨i, hi, rfl⟩ := getElem_of_mem ha
  obtain ⟨j, hj, rfl⟩ := getElem_of_mem hb
  have hpairs := pairwise_iff_getElem.mp hsorted
  obtain hlt | rfl | hgt := Nat.lt_trichotomy i j
  · exact absurd heq (ne_of_lt (hpairs i j hi hj hlt))
  · rfl
  · exact absurd heq (ne_of_gt (hpairs j i hj hi hgt))

/-- In a sorted list the predecessor is the greatest of the elements that are not above `k`. -/
theorem predecessor_eq_some_iff {a : α} :
    predecessor rank k l = some a ↔ a ∈ l ∧ rank a ≤ k ∧ ∀ b ∈ l, rank b ≤ k → rank b ≤ rank a := by
  have hgreatest : ∀ a, predecessor rank k l = some a →
      a ∈ l ∧ rank a ≤ k ∧ ∀ b ∈ l, rank b ≤ k → rank b ≤ rank a := by
    intro a h
    obtain ⟨front, hfront⟩ := getLast?_eq_some_iff.mp h
    have hmem : ∀ b, b ∈ l ∧ rank b ≤ k ↔ b ∈ front ∨ b = a := by
      intro b
      have hb : b ∈ (l.filter fun a => decide (rank a ≤ k)) ↔ b ∈ front ++ [a] := by rw [hfront]
      simpa using hb
    obtain ⟨ha, hak⟩ := (hmem a).mpr (.inr rfl)
    refine ⟨ha, hak, fun b hb hbk => ?_⟩
    obtain hb | rfl := (hmem b).mp ⟨hb, hbk⟩
    · have hpairs := hsorted.filter fun a => decide (rank a ≤ k)
      rw [hfront, pairwise_append] at hpairs
      exact le_of_lt (hpairs.2.2 b hb a (mem_singleton.mpr rfl))
    · exact le_refl _
  refine ⟨hgreatest a, fun ⟨ha, hak, hmax⟩ => ?_⟩
  cases hpred : predecessor rank k l with
  | none => exact absurd (predecessor_eq_none_iff.mp hpred a ha) (not_lt_of_ge hak)
  | some b =>
    obtain ⟨hb, hbk, hbmax⟩ := hgreatest b hpred
    rw [eq_of_rank_eq hsorted hb ha (le_antisymm (hmax b hb hbk) (hbmax a ha hak))]

theorem rank_head_le {first : α} (hfirst : l.head? = some first) :
    ∀ a ∈ l, rank first ≤ rank a := by
  obtain ⟨rest, rfl⟩ := head?_eq_some_iff.mp hfirst
  rw [pairwise_cons] at hsorted
  intro a ha
  obtain rfl | ha := mem_cons.mp ha
  · exact le_refl _
  · exact le_of_lt (hsorted.1 a ha)

end

/-- The predecessor in a list of pieces is in the last one that does not start above `k`, or else in
    the first one, where there is none either. -/
theorem predecessor_flatten {pieces : List (List α)} {piece : List α}
    (hsorted : pieces.flatten.Pairwise fun a b => rank a < rank b)
    (hsplit : ∀ i piece, pieces[i]? = some piece →
      ∃ first, piece.head? = some first ∧ (rank first ≤ k ↔ i < split))
    (hpiece : pieces[split - 1]? = some piece) :
    predecessor rank k pieces.flatten = predecessor rank k piece := by
  have heach := (pairwise_flatten.mp hsorted).1
  -- a piece that starts above the key has nothing at or below it
  have habove : ∀ i piece, pieces[i]? = some piece → split ≤ i → ∀ a ∈ piece, k < rank a := by
    intro i piece hi hle a ha
    obtain ⟨first, hfirst, hiff⟩ := hsplit i piece hi
    have hk : k < rank first := lt_of_not_ge fun hge => absurd (hiff.mp hge) (by omega)
    exact lt_of_lt_of_le hk (rank_head_le (heach piece (mem_of_getElem? hi)) hfirst a ha)
  have hnone : ∀ n, split ≤ n → predecessor rank k (pieces.drop n).flatten = none := by
    intro n hn
    rw [predecessor_eq_none_iff]
    intro a ha
    obtain ⟨other, hother, ha⟩ := mem_flatten.mp ha
    obtain ⟨i, hi⟩ := mem_iff_getElem?.mp hother
    rw [getElem?_drop] at hi
    exact habove _ other hi (by omega) a ha
  by_cases hzero : split = 0
  · rw [hzero] at hnone
    have hall := hnone 0 (Nat.le_refl 0)
    rw [drop_zero] at hall
    rw [hall, eq_comm, predecessor_eq_none_iff]
    exact habove _ piece hpiece (by omega)
  obtain ⟨first, hfirst, hiff⟩ := hsplit _ piece hpiece
  have hfirst := mem_of_mem_head? hfirst
  rw [eq_take_append_of_getElem? hpiece, flatten_append, flatten_cons, predecessor_append,
    predecessor_append, hnone _ (by omega), Option.none_or]
  cases hpred : predecessor rank k piece with
  | none =>
    exact absurd (predecessor_eq_none_iff.mp hpred first hfirst) (not_lt.mpr (hiff.mpr (by omega)))
  | some a => rfl

end List
