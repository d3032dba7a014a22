import Fsmnt.Native.Device.TolerantReader
import Mathlib.Algebra.BigOperators.Group.List.Basic
import Mathlib.Order.Interval.Finset.Nat

/-!
# Substituted ranges

The tally of substituted bytes is the measure of a union of ranges.
-/

namespace Fsmnt.Device.Ranges

open Finset List

variable {r : Ranges} {start stop q : Nat} {x : Nat × Nat}

/-- The offsets in some range of a list. -/
def offsets (l : List (Nat × Nat)) : Finset Nat :=
  l.toFinset.biUnion fun range => Finset.Ico range.1 range.2

theorem mem_offsets {l : List (Nat × Nat)} : q ∈ offsets l ↔ ∃ x ∈ l, q ∈ Finset.Ico x.1 x.2 := by
  simp [offsets]

theorem offsets_cons : offsets (x :: r) = Finset.Ico x.1 x.2 ∪ offsets r := by simp [offsets]

theorem offsets_append (l l' : List (Nat × Nat)) : offsets (l ++ l') = offsets l ∪ offsets l' := by
  simp [offsets, union_biUnion]

theorem offsets_filter {p p' : Nat × Nat → Bool} (h : ∀ x ∈ r, p x = true ∨ p' x = true) :
    offsets (r.filter p) ∪ offsets (r.filter p') = offsets r := by
  ext q
  simp only [mem_union, mem_offsets, List.mem_filter]
  grind

/-- The ranges are sorted and not empty, and there is a gap between any two of them. -/
structure Separated (r : Ranges) : Prop where
  nonempty : ∀ x ∈ r, x.1 < x.2
  gaps : r.Pairwise fun x y => x.2 < y.1

theorem Separated.sublist {r' : Ranges} (h : Separated r) (hsub : r' <+ r) : Separated r' :=
  ⟨fun x hx => h.nonempty x (hsub.subset hx), h.gaps.sublist hsub⟩

/-- The successors that are reached are absorbed. -/
theorem absorb_spec (h : Separated r) (hstart : ∀ x ∈ r, start ≤ x.1) (hlt : start < stop) :
    Separated (absorb start stop r) ∧ (∀ x ∈ absorb start stop r, start ≤ x.1) ∧
      offsets (absorb start stop r) = Finset.Ico start stop ∪ offsets r := by
  induction r generalizing stop with
  | nil => exact ⟨⟨by simpa [absorb] using hlt, by simp [absorb]⟩, by simp [absorb], offsets_cons⟩
  | cons next r ih =>
    obtain ⟨hnext, hstart⟩ := forall_mem_cons.mp hstart
    have hpos := h.nonempty next mem_cons_self
    rw [absorb]
    split
    · obtain ⟨hsep, hge, hunion⟩ := ih (h.sublist (sublist_cons_self next r)) hstart
        (show start < max stop next.2 by omega)
      refine ⟨hsep, hge, ?_⟩
      rw [hunion, offsets_cons, ← union_assoc, Ico_union_Ico' ‹_› (by omega), Nat.min_eq_left hnext]
    · refine ⟨⟨forall_mem_cons.mpr ⟨hlt, h.nonempty⟩, pairwise_cons.mpr ⟨?_, h.gaps⟩⟩,
        forall_mem_cons.mpr ⟨le_rfl, forall_mem_cons.mpr ⟨hnext, hstart⟩⟩, offsets_cons⟩
      refine forall_mem_cons.mpr ⟨by dsimp only; omega, fun x hx => ?_⟩
      have := rel_of_pairwise_cons h.gaps hx
      omega

/-- An insertion keeps the ranges apart and adds its own offsets. -/
theorem addAt_spec (h : Separated r) (hbefore : ∀ x ∈ r, x.1 < start → x.2 < start)
    (hlt : start < stop) :
    Separated (r.addAt start stop) ∧
      offsets (r.addAt start stop) = Finset.Ico start stop ∪ offsets r := by
  obtain ⟨hsep, hge, hunion⟩ := absorb_spec (h.sublist (filter_sublist
    (p := fun range => decide (start ≤ range.1)))) (by simp) hlt
  refine ⟨⟨fun x hx => ?_, pairwise_append.mpr ⟨h.gaps.filter _, hsep.gaps, fun x hx y hy => ?_⟩⟩,
    ?_⟩
  · rcases mem_append.mp hx with hx | hx
    · exact h.nonempty x (mem_of_mem_filter hx)
    · exact hsep.nonempty x hx
  · rw [List.mem_filter, decide_eq_true_eq] at hx
    exact Nat.lt_of_lt_of_le (hbefore x hx.1 hx.2) (hge y hy)
  · rw [addAt, offsets_append, hunion, union_left_comm, offsets_filter]
    simp [Nat.lt_or_ge]

/-- Only the predecessor can reach the start of the new range. -/
theorem add_spec (h : Separated r) (start stop : Nat) :
    Separated (r.add start stop) ∧
      offsets (r.add start stop) = Finset.Ico start stop ∪ offsets r := by
  unfold add
  split
  · exact ⟨h, by rw [Ico_eq_empty (by omega), empty_union]⟩
  split
  · rename_i prev hprev
    obtain ⟨front, hfront⟩ := getLast?_eq_some_iff.mp hprev
    have hmem : ∀ x, x ∈ r ∧ x.1 ≤ start ↔ x ∈ front ∨ x = prev := fun x => by
      simpa using congrArg (x ∈ ·) hfront
    obtain ⟨hin, hle⟩ := (hmem prev).mpr (.inr rfl)
    have hgaps := h.gaps.filter fun range => decide (range.1 ≤ start)
    rw [hfront, pairwise_append] at hgaps
    -- the other ranges that start up to `start` end before the predecessor
    have hlast : ∀ x ∈ r, x.1 ≤ start → x = prev ∨ x.2 < prev.1 := fun x hx hxs =>
      ((hmem x).mp ⟨hx, hxs⟩).symm.imp_right fun hx => hgaps.2.2 x hx prev (by simp)
    split
    · obtain ⟨hsep, hunion⟩ := addAt_spec
        (h.sublist (filter_sublist (p := fun range => decide (range.1 ≠ prev.1))))
        (fun x hx (hbefore : x.1 < prev.1) => by grind) (show prev.1 < max stop prev.2 by omega)
      refine ⟨hsep, ?_⟩
      have hprev : offsets r = Finset.Ico prev.1 prev.2 ∪
          offsets (r.filter fun range => range.1 ≠ prev.1) := by
        ext q
        simp only [mem_union, mem_offsets, List.mem_filter]
        grind
      rw [hunion, hprev, ← union_assoc, Ico_union_Ico' (by omega) (by omega),
        Nat.min_eq_right hle, Nat.max_def]
    · refine addAt_spec h (fun x hx hbefore => ?_) (by omega)
      obtain rfl | hx := hlast x hx (Nat.le_of_lt hbefore) <;> omega
  · rename_i hnone
    refine addAt_spec h (fun x hx hbefore => ?_) (by omega)
    have := filter_eq_nil_iff.mp (getLast?_eq_none_iff.mp hnone) x hx
    simp only [decide_eq_true_eq] at this
    omega

/-- Ranges with gaps between them are counted one by one. -/
theorem Separated.total_eq (h : Separated r) : r.total = (offsets r).card := by
  induction r with
  | nil => rfl
  | cons x r ih =>
    have hdisjoint : Disjoint (Finset.Ico x.1 x.2) (offsets r) := by
      rw [Finset.disjoint_left]
      intro q hq hq'
      obtain ⟨y, hy, hqy⟩ := mem_offsets.mp hq'
      have := rel_of_pairwise_cons h.gaps hy
      rw [mem_Ico] at hq hqy
      omega
    rw [offsets_cons, card_union_of_disjoint hdisjoint, Nat.card_Ico,
      ← ih (h.sublist (sublist_cons_self x r)), total, List.map_cons, List.sum_cons, total]

/-- A sequence of additions. -/
def addAll (r adds : List (Nat × Nat)) : Ranges :=
  adds.foldl (fun r range => add r range.1 range.2) r

/-- After any sequence of additions the ranges are sorted and not empty and have gaps between them,
    they hold the offsets that were added, and the total is the number of these. -/
theorem measures_union (adds : List (Nat × Nat)) :
    Separated (addAll [] adds) ∧ offsets (addAll [] adds) = offsets adds ∧
      (addAll [] adds).total = (offsets adds).card := by
  have hrun : ∀ r, Separated r → Separated (addAll r adds) ∧
      offsets (addAll r adds) = offsets adds ∪ offsets r := by
    unfold addAll
    induction adds with
    | nil => exact fun r h => ⟨h, by simp [offsets]⟩
    | cons range adds ih =>
      intro r h
      obtain ⟨hadd, hoffsets⟩ := add_spec h range.1 range.2
      obtain ⟨hrest, hunion⟩ := ih _ hadd
      refine ⟨hrest, ?_⟩
      rw [foldl_cons, hunion, hoffsets, offsets_cons, union_left_comm, union_assoc]
  obtain ⟨hseparated, hunion⟩ := hrun [] ⟨by simp, .nil⟩
  rw [show offsets [] = ∅ from rfl, union_empty] at hunion
  exact ⟨hseparated, hunion, by rw [hseparated.total_eq, hunion]⟩

end Fsmnt.Device.Ranges
