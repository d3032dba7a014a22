import Fsmnt.Native.NtCompression.Huffman
import Fsmnt.ForStd.Except
import Fsmnt.ForStd.List
import Mathlib.Algebra.BigOperators.Ring.List
import Mathlib.Algebra.Order.BigOperators.Group.List

/-!
# Code lengths fit the code space

`build_code_lengths` gives every symbol that occurs a length within the limit, and all lengths
together fit the code space. The depths in the tree fill it exactly; depths above the limit are
cut, and the loop of `limit_code_lengths` makes up for that.
-/

namespace Fsmnt.NtCompression

open CanonicalCode List

variable {freqs : List Nat} {maxBits : Nat}

/-! ### Limiting code lengths -/

section Limit

variable {max : Nat} {lengths : List Nat}

theorem kraftSum_eq (hle : ∀ l ∈ lengths, l ≤ max) : kraftSum max lengths = kraft max lengths := by
  unfold kraftSum
  induction lengths with
  | nil => rfl
  | cons l ls ih =>
    have hls := ih fun x hx => hle x (mem_cons_of_mem _ hx)
    have hl := hle l mem_cons_self
    rw [kraft_cons, ← hls, filter_cons, cost]
    by_cases hpos : 0 < l
    · rw [if_pos (by simpa using hpos), if_pos ⟨hpos, hl⟩, map_cons, sum_cons, Nat.one_shiftLeft]
    · rw [if_neg (by simpa using hpos), if_neg (fun h => hpos h.1), Nat.zero_add]

/-- Both lists give codes to the same symbols, and no code is longer than `max`. -/
structure Longer (max : Nat) (ls ls' : List Nat) : Prop where
  length : ls'.length = ls.length
  pos : ∀ s, 0 < ls.getD s 0 → 0 < ls'.getD s 0
  le : ∀ l ∈ ls', l ≤ max

theorem Longer.trans {ls ls' ls'' : List Nat} (h : Longer max ls ls') (h' : Longer max ls' ls'') :
    Longer max ls ls'' :=
  ⟨h'.length.trans h.length, fun s hs => h'.pos s (h.pos s hs), h'.le⟩

theorem Longer.cons {ls ls' : List Nat} {l l' : Nat} (h : Longer max ls ls')
    (hpos : 0 < l → 0 < l') (hle : l' ≤ max) : Longer max (l :: ls) (l' :: ls') := by
  refine ⟨congrArg (· + 1) h.length, fun s hs => ?_, forall_mem_cons.mpr ⟨hle, h.le⟩⟩
  cases s with
  | zero => exact hpos hs
  | succ s => exact h.pos s hs

/-- `lengthen` stays within the limit. -/
theorem longer_lengthen {minLen : Nat} (hlt : minLen < max) (hle : ∀ l ∈ lengths, l ≤ max)
    (needed : Nat) : Longer max lengths (lengthen minLen needed lengths) := by
  induction lengths generalizing needed with
  | nil => cases needed <;> exact ⟨rfl, fun _ h => h, hle⟩
  | cons l ls ih =>
    obtain ⟨hl, hls⟩ := forall_mem_cons.mp hle
    cases needed with
    | zero => exact ⟨rfl, fun _ h => h, hle⟩
    | succ needed =>
      rw [lengthen]
      split
      · exact (ih hls needed).cons (fun _ => Nat.succ_pos _) hlt
      · exact (ih hls (needed + 1)).cons id hl

/-- Codes of `max` bits take one word each. -/
theorem kraft_le_length (max : Nat) (h : ∀ l ∈ lengths, 0 < l → l = max) :
    kraft max lengths ≤ lengths.length := by
  have hcost : ∀ c ∈ lengths.map (cost max), c ≤ 1 := by
    intro c hc
    obtain ⟨l, hl, rfl⟩ := mem_map.mp hc
    unfold cost
    split
    · rename_i hpos
      rw [h l hl hpos.1, Nat.sub_self, Nat.pow_zero]
    · exact Nat.zero_le 1
  simpa [kraft] using sum_le_card_nsmul _ 1 hcost

/-- Where the code space is exceeded, some code can get longer. -/
theorem exists_min? (hle : ∀ l ∈ lengths, l ≤ max) (hn : lengths.length ≤ 2 ^ max)
    (hover : ¬kraft max lengths ≤ 2 ^ max) :
    ∃ minLen < max, (lengths.filter (0 < ·)).min? = some minLen := by
  obtain ⟨l, hl, hpos, hlt⟩ : ∃ l ∈ lengths, 0 < l ∧ l < max := by
    by_contra! hnone
    have hkraft := kraft_le_length max fun l hl hpos => (hle l hl).antisymm (hnone l hl hpos)
    omega
  have hmem : l ∈ lengths.filter (0 < ·) := mem_filter.mpr ⟨hl, by simpa using hpos⟩
  cases hmin : (lengths.filter (0 < ·)).min? with
  | none => exact absurd (min?_eq_none_iff.mp hmin) (ne_nil_of_mem hmem)
  | some minLen =>
    exact ⟨minLen, Nat.lt_of_le_of_lt ((min?_eq_some_iff.mp hmin).2 l hmem) hlt, rfl⟩

variable {m k : Nat} {depths : List Nat}

/-- Depths cut at `max`, with the codes shorter than `m` made longer. -/
def raised (max m : Nat) (depths : List Nat) : List Nat :=
  depths.map fun d => if d = 0 then 0 else if d ≤ m then m else min d max

/-- At the level where the loop ends, whole codes make up for the excess. -/
def LandsExactly (max : Nat) (depths : List Nat) : Prop :=
  ∀ m < max, 2 ^ max < kraft max (raised max m depths) →
    kraft max (raised max (m + 1) depths) ≤ 2 ^ max →
    2 ^ (max - m - 1) ∣ kraft max (raised max m depths) - 2 ^ max

theorem raised_le (hm : m ≤ max) : ∀ l ∈ raised max m depths, l ≤ max := by
  intro l hl
  obtain ⟨d, -, rfl⟩ := mem_map.mp hl
  split
  · exact Nat.zero_le _
  · split <;> omega

/-- A code that gets a bit longer gives half of its words back. -/
theorem kraft_lengthen (hpos : 0 < m) (hm : m < max) (lengths : List Nat) (k : Nat) :
    kraft max (lengthen m k lengths) + min k (lengths.count m) * 2 ^ (max - m - 1) =
      kraft max lengths := by
  have hcost : cost max m = cost max (m + 1) + 2 ^ (max - m - 1) := by
    rw [cost, if_pos ⟨hpos, by omega⟩, cost, if_pos ⟨by omega, by omega⟩, Nat.sub_add_eq,
      ← Nat.two_mul, ← Nat.pow_succ']
    congr 1
    omega
  induction lengths generalizing k with
  | nil => cases k <;> simp [lengthen]
  | cons l ls ih =>
    cases k with
    | zero => simp [lengthen]
    | succ k =>
      rw [lengthen, kraft_cons]
      split
      · rename_i heq
        rw [kraft_cons, ← ih k, heq, count_cons_self, Nat.add_min_add_right, Nat.succ_mul]
        omega
      · rename_i hne
        rw [kraft_cons, ← ih (k + 1), count_cons_of_ne hne]
        omega

/-- All the codes of length `m` get longer. -/
theorem lengthen_of_count_le (h : lengths.count m ≤ k) :
    lengthen m k lengths = lengths.map fun l => if l = m then m + 1 else l := by
  induction lengths generalizing k with
  | nil => cases k <;> rfl
  | cons l ls ih =>
    rw [map_cons]
    by_cases heq : l = m
    · subst heq
      rw [count_cons_self] at h
      obtain ⟨k, rfl⟩ := Nat.exists_eq_add_of_le' (Nat.le_of_add_left_le h)
      rw [lengthen, if_pos rfl, if_pos rfl, ih (by omega)]
    rw [count_cons_of_ne heq] at h
    rw [if_neg heq, ← ih h]
    cases k with
    | zero => cases ls <;> rfl
    | succ k => rw [lengthen, if_neg heq]

theorem raised_succ (hpos : 0 < m) (hm : m < max) : raised max (m + 1) depths =
    (raised max m depths).map fun l => if l = m then m + 1 else l := by
  rw [raised, raised, map_map]
  apply map_congr_left
  intro d _
  simp only [Function.comp_apply]
  split
  · rw [if_neg (by omega)]
  · split <;> split <;> split <;> omega

/-- The words that a level gives back. -/
theorem kraft_raised_succ (depths : List Nat) (hpos : 0 < m) (hm : m < max) :
    kraft max (raised max (m + 1) depths) +
      (raised max m depths).count m * 2 ^ (max - m - 1) = kraft max (raised max m depths) := by
  have h := kraft_lengthen hpos hm (raised max m depths) ((raised max m depths).count m)
  rwa [Nat.min_self, lengthen_of_count_le (Nat.le_refl _), ← raised_succ hpos hm] at h

theorem kraft_raised_anti (depths : List Nat) (hmk : m ≤ k) (hk : k ≤ max) :
    kraft max (raised max k depths) ≤ kraft max (raised max m depths) := by
  induction k, hmk using Nat.le_induction with
  | base => exact Nat.le_refl _
  | succ k _ ih =>
    refine Nat.le_trans ?_ (ih (by omega))
    rcases Nat.eq_zero_or_pos k with rfl | hpos
    · refine Nat.le_of_eq (congrArg _ (map_congr_left fun d _ => ?_))
      split
      · rfl
      · split <;> split <;> omega
    · have := kraft_raised_succ depths hpos hk
      omega

/-- Only one level is the last one. -/
theorem landsExactly_iff (hm : m < max) (hover : 2 ^ max < kraft max (raised max m depths))
    (hfits : kraft max (raised max (m + 1) depths) ≤ 2 ^ max) : LandsExactly max depths ↔
      2 ^ (max - m - 1) ∣ kraft max (raised max m depths) - 2 ^ max := by
  refine ⟨fun h => h m hm hover hfits, fun h k hk hover' hfits' => ?_⟩
  rcases Nat.lt_trichotomy k m with hlt | rfl | hlt
  · have := kraft_raised_anti depths (show k + 1 ≤ m from hlt) (Nat.le_of_lt hm)
    omega
  · exact h
  · have := kraft_raised_anti depths (show m + 1 ≤ k from hlt) (Nat.le_of_lt hk)
    omega

/-- The shortest length is the level that the lengths are raised to. -/
theorem raised_eq_of_min? {minLen : Nat} (hlt : minLen < max)
    (h : ((raised max m depths).filter (0 < ·)).min? = some minLen) :
    0 < minLen ∧ m ≤ minLen ∧ raised max m depths = raised max minLen depths := by
  obtain ⟨hmem, hleast⟩ := min?_eq_some_iff.mp h
  obtain ⟨hmem, hpos⟩ := mem_filter.mp hmem
  obtain ⟨d₀, -, heq⟩ := mem_map.mp hmem
  have hpos : 0 < minLen := by simpa using hpos
  have hge : m ≤ minLen := by grind
  refine ⟨hpos, hge, map_congr_left fun d hd => ?_⟩
  have hle : ∀ l, l ∈ raised max m depths → 0 < l → minLen ≤ l := fun l hl hlpos =>
    hleast l (mem_filter.mpr ⟨hl, by simpa using hlpos⟩)
  have hd := hle _ (mem_map_of_mem hd)
  grind

/-- The loop ends within its fuel, with lengths that fit the code space. If they did not fit before,
    they fill it exactly if the loop lands so. -/
theorem limitLoop_spec (hn : depths.length ≤ 2 ^ max) (fuel m : Nat) (hm : m ≤ max)
    (hfuel : max < fuel + m) :
    ∃ lengths', limitLoop max fuel (raised max m depths) = .ok lengths' ∧
      Longer max (raised max m depths) lengths' ∧ kraft max lengths' ≤ 2 ^ max ∧
      (2 ^ max < kraft max (raised max m depths) →
        (kraft max lengths' = 2 ^ max ↔ LandsExactly max depths)) := by
  induction fuel generalizing m with
  | zero => exact by omega
  | succ fuel ih =>
    have hle : ∀ l ∈ raised max m depths, l ≤ max := raised_le hm
    rw [limitLoop, kraftSum_eq hle, Nat.one_shiftLeft]
    split
    · rename_i hfits
      exact ⟨_, rfl, ⟨rfl, fun _ h => h, hle⟩, hfits, fun h => absurd hfits (Nat.not_le.mpr h)⟩
    rename_i hover
    obtain ⟨minLen, hlt, hmin⟩ := exists_min? hle (by rwa [raised, length_map]) hover
    obtain ⟨hpos, hge, hraised⟩ := raised_eq_of_min? hlt hmin
    rw [hmin]
    dsimp only
    rw [if_neg (Nat.not_le.mpr hlt), Nat.one_shiftLeft, hraised]
    rw [hraised] at hover
    generalize hneeded : (kraft max (raised max minLen depths) - 2 ^ max +
      (2 ^ (max - minLen - 1) - 1)) / 2 ^ (max - minLen - 1) = needed
    have hlonger : Longer max (raised max minLen depths) _ :=
      longer_lengthen hlt (raised_le (Nat.le_of_lt hlt)) needed
    have hstep := Nat.two_pow_pos (max - minLen - 1)
    have hback := kraft_raised_succ depths hpos hlt
    by_cases hcount : needed ≤ (raised max minLen depths).count minLen
    · -- the level has codes enough, and the loop ends
      have hpart := kraft_lengthen hpos hlt (raised max minLen depths) needed
      rw [Nat.min_eq_left hcount] at hpart
      have hceil := Nat.lt_div_mul_add (a := kraft max (raised max minLen depths) - 2 ^ max +
        (2 ^ (max - minLen - 1) - 1)) hstep
      rw [hneeded] at hceil
      have hmul := Nat.mul_le_mul_right (2 ^ (max - minLen - 1)) hcount
      have hfits : kraft max (lengthen minLen needed (raised max minLen depths)) ≤ 2 ^ max := by
        omega
      obtain ⟨fuel, rfl⟩ : ∃ n, fuel = n + 1 := Nat.exists_eq_succ_of_ne_zero (by omega)
      rw [limitLoop, kraftSum_eq hlonger.le, Nat.one_shiftLeft, if_pos hfits]
      refine ⟨_, rfl, hlonger, hfits, fun _ => ?_⟩
      rw [landsExactly_iff hlt (Nat.lt_of_not_le hover) (by omega)]
      constructor
      · intro h
        exact ⟨needed, by rw [Nat.mul_comm]; omega⟩
      · rintro ⟨q, hq⟩
        rw [hq, Nat.mul_add_div hstep, Nat.div_eq_of_lt (by omega), Nat.add_zero] at hneeded
        rw [hneeded, Nat.mul_comm] at hq
        omega
    · -- all codes of the level get longer, and there are still too many
      rw [lengthen_of_count_le (Nat.le_of_not_le hcount), ← raised_succ hpos hlt] at hlonger ⊢
      rw [← hneeded, Nat.not_le, Nat.lt_iff_add_one_le, Nat.le_div_iff_mul_le hstep,
        Nat.succ_mul] at hcount
      obtain ⟨lengths', hrun, hlonger', hfits, hexact⟩ := ih (minLen + 1) hlt (by omega)
      exact ⟨lengths', hrun, hlonger.trans hlonger', hfits, fun _ => hexact (by omega)⟩

theorem landsExactly_of_le (h : kraft max (raised max 0 depths) ≤ 2 ^ max) :
    LandsExactly max depths := by
  intro m hm hover
  have := kraft_raised_anti depths (Nat.zero_le m) (Nat.le_of_lt hm)
  omega

/-- The depths of a full code take more words when they are cut, not less. -/
theorem le_kraft_raised (hbits : 1 ≤ max)
    (hfull : ∀ w, (∀ d ∈ depths, d ≤ w) → kraft w depths = 2 ^ w) :
    2 ^ max ≤ kraft max (raised max 0 depths) := by
  obtain ⟨w, hw, hle⟩ : ∃ w, max ≤ w ∧ ∀ d ∈ depths, d ≤ w :=
    ⟨max + depths.sum, by omega, fun d hd => Nat.le_add_left_of_le (le_sum_of_mem hd)⟩
  have hcut : kraft w depths ≤ kraft max (raised max 0 depths) * 2 ^ (w - max) := by
    rw [kraft, kraft, raised, map_map, ← sum_map_mul_right]
    refine sum_le_sum fun d hd => ?_
    have hd := hle d hd
    simp only [Function.comp_apply]
    rcases Nat.eq_zero_or_pos d with rfl | hpos
    · rw [cost]
      exact Nat.zero_le _
    · rw [if_neg (by omega), if_neg (by omega), cost, if_pos ⟨hpos, hd⟩, cost,
        if_pos ⟨by omega, by omega⟩, ← Nat.pow_add]
      exact Nat.pow_le_pow_right (by decide) (by omega)
  have hpow : 2 ^ w = 2 ^ max * 2 ^ (w - max) := by
    rw [← Nat.pow_add]
    congr 1
    omega
  rw [hfull w hle, hpow] at hcut
  exact Nat.le_of_mul_le_mul_right hcut (Nat.two_pow_pos _)

end Limit

/-! ### The tree -/

open Huffman

/-- The symbols that occur, with their frequencies. -/
def occurring (freqs : List Nat) : List (Nat × Nat) := freqs.zipIdx.filter fun p => p.1 ≠ 0

theorem mem_occurring {p : Nat × Nat} : p ∈ occurring freqs ↔ freqs[p.2]? = some p.1 ∧ p.1 ≠ 0 := by
  unfold occurring
  rw [mem_filter, mem_zipIdx_iff_getElem?]
  simp

theorem mem_map_occurring {s : Nat} : s ∈ (occurring freqs).map Prod.snd ↔ freqs.getD s 0 ≠ 0 := by
  rw [mem_map]
  constructor
  · rintro ⟨p, hp, rfl⟩
    obtain ⟨hget, hne⟩ := mem_occurring.mp hp
    rwa [getD_eq_getElem?_getD, hget]
  · intro hne
    have hlt := lt_length_of_getD_pos (Nat.pos_of_ne_zero hne)
    refine ⟨(freqs.getD s 0, s), mem_occurring.mpr ⟨?_, hne⟩, rfl⟩
    rw [getElem?_eq_getElem hlt, getD_eq_getElem _ 0 hlt]

theorem occurring_ne_nil {i : Nat} (h : 0 < freqs.getD i 0) : occurring freqs ≠ [] := by
  intro hnil
  have hmem := mem_map_occurring.mpr (Nat.ne_of_gt h)
  rw [hnil] at hmem
  cases hmem

theorem occurring_nodup (freqs : List Nat) : ((occurring freqs).map Prod.snd).Nodup := by
  have hsub : ((occurring freqs).map Prod.snd).Sublist (freqs.zipIdx.map Prod.snd) :=
    (filter_sublist).map _
  refine hsub.nodup ?_
  rw [zipIdx_map_snd]
  exact nodup_range'

theorem symbolHeap_spec (freqs : List Nat) : (symbolHeap freqs).Perm (occurring freqs) ∧
      (symbolHeap freqs).Pairwise fun p q => p.1 ≤ q.1 := by
  suffices ∀ (ps heap : List (Nat × Nat)), heap.Pairwise (fun p q => p.1 ≤ q.1) →
      (ps.foldl (fun heap p => if p.1 = 0 then heap else heapPush p heap) heap).Perm
          (heap ++ ps.filter fun p => p.1 ≠ 0) ∧
        (ps.foldl (fun heap p => if p.1 = 0 then heap else heapPush p heap) heap).Pairwise
          fun p q => p.1 ≤ q.1 from this _ [] List.Pairwise.nil
  intro ps
  induction ps with
  | nil => simp
  | cons p ps ih =>
    intro heap hsorted
    rw [foldl_cons, filter_cons]
    split
    · rename_i hzero
      rw [if_neg (by simpa using hzero)]
      exact ih heap hsorted
    rename_i hzero
    rw [if_pos (by simpa using hzero)]
    obtain ⟨hperm, hdone⟩ := ih (heapPush p heap) (pairwise_insertKey hsorted)
    refine ⟨hperm.trans ?_, hdone⟩
    exact ((insertKey_perm p heap).append_right _).trans perm_middle.symm

/-- The leaf of a heap entry. -/
def leafTree (p : Nat × Nat) : Tree := .leaf p.2 p.1

/-- Before the first merge. -/
theorem forest_symbolHeap (freqs : List Nat) :
    Forest ((occurring freqs).map Prod.swap) freqs.length (fun _ => none)
      ((symbolHeap freqs).map leafTree) := by
  obtain ⟨hperm, hsorted⟩ := symbolHeap_spec freqs
  have hlabels : (((symbolHeap freqs).map leafTree).flatMap Tree.labels) =
      (symbolHeap freqs).map Prod.snd := by
    rw [flatMap_map]
    exact (map_eq_flatMap ..).symm
  have hleaves : (((symbolHeap freqs).map leafTree).flatMap Tree.leaves) =
      (symbolHeap freqs).map Prod.swap := by
    rw [flatMap_map]
    exact (map_eq_flatMap ..).symm
  refine ⟨?_, ?_, ?_, ?_, fun _ _ => rfl, fun _ _ => rfl, 0, ?_, fun _ _ => Nat.zero_le _, ?_, ?_⟩
  · rw [hleaves]
    exact hperm.map _
  · rw [hlabels]
    exact (hperm.map Prod.snd).nodup_iff.mpr (occurring_nodup freqs)
  · intro i hi
    rw [hlabels] at hi
    obtain ⟨p, hp, rfl⟩ := mem_map.mp hi
    exact (List.getElem?_eq_some_iff.mp (mem_occurring.mp (hperm.mem_iff.mp hp)).1).1
  · intro t ht
    obtain ⟨p, -, rfl⟩ := mem_map.mp ht
    trivial
  · exact pairwise_map.mpr hsorted
  · intro t ht
    obtain ⟨p, hp, rfl⟩ := mem_map.mp ht
    exact Nat.one_le_iff_ne_zero.mpr (mem_occurring.mp (hperm.mem_iff.mp hp)).2
  · intro t ht
    obtain ⟨p, -, rfl⟩ := mem_map.mp ht
    exact Nat.le_refl 0

/-- The loop merges the forest to one tree, whose parents it records. -/
theorem mergeLoop_spec {leaves : List (Nat × Nat)} (fuel : Nat) (ts : List Tree) (internal : Nat)
    (parent : List (Option Nat)) (hforest : Forest leaves internal (fun i => parent.getD i none) ts)
    (hne : ts ≠ []) (hfuel : ts.length ≤ fuel + 1) (hroom : internal + ts.length ≤ parent.length) :
    ∃ t next, next ≤ parent.length ∧
      Forest leaves next (fun i => (mergeLoop fuel (ts.map key) internal parent).getD i none)
      [t] := by
  induction fuel generalizing ts internal parent with
  | zero =>
    obtain ⟨t, rfl⟩ : ∃ t, ts = [t] := by
      match ts, hne, hfuel with
      | [t], _, _ => exact ⟨t, rfl⟩
    exact ⟨t, internal, by omega, hforest⟩
  | succ fuel ih =>
    match ts, hne, hfuel with
    | [t], _, _ => exact ⟨t, internal, by omega, hforest⟩
    | t :: u :: ts, _, hfuel =>
      have hlt : ∀ v ∈ t :: u :: ts, v.label < parent.length := by
        intro v hv
        have := hforest.lt v.label (mem_flatMap.mpr ⟨v, hv, v.label_mem_labels⟩)
        omega
      have hparent : (fun i => ((parent.set t.label (some internal)).set u.label
          (some internal)).getD i none) =
          join (fun i => parent.getD i none) t.label u.label internal := by
        funext i
        rw [getD_set_of_lt (by rw [length_set]; exact hlt u (by simp)),
          getD_set_of_lt (hlt t (by simp))]
        rfl
      have hperm : (insertKey key (.node internal t u) ts).Perm _ :=
        insertKey_perm (.node internal t u) ts
      have hlen := hperm.length_eq
      obtain ⟨r, next, hnext, hdone⟩ := ih (insertKey key (.node internal t u) ts) (internal + 1)
        ((parent.set t.label (some internal)).set u.label (some internal))
        (by rw [hparent]; exact hforest.merge) (by intro h; rw [h] at hlen; simp at hlen)
        (by rw [hlen]; simpa using hfuel)
        (by
          rw [hlen, length_set, length_set]
          simp only [length_cons] at hroom ⊢
          omega)
      rw [length_set, length_set] at hnext
      refine ⟨r, next, hnext, ?_⟩
      rw [map_insertKey] at hdone
      exact hdone

/-- The number of steps to the root is the depth. -/
theorem depthLoop_spec {parent : List (Option Nat)} {t : Tree}
    (h : t.Linked fun i => parent.getD i none) (d0 fuel depth : Nat) (p : Nat × Nat)
    (hp : p ∈ t.depths d0) (hsmall : depth + (p.2 - d0) < 256) :
    depthLoop parent (fuel + (p.2 - d0)) p.1 depth =
      depthLoop parent fuel t.label (depth + (p.2 - d0)) := by
  induction t generalizing d0 fuel depth p with
  | leaf sym weight =>
    rw [mem_singleton.mp hp, Nat.sub_self]
    rfl
  | node label left right ihl ihr =>
    obtain ⟨hl, hr, hleft, hright⟩ := h
    have hstep : ∀ u : Tree, parent.getD u.label none = some label → p ∈ u.depths (d0 + 1) →
        (∀ fuel, depth + (p.2 - (d0 + 1)) < 256 →
          depthLoop parent (fuel + (p.2 - (d0 + 1))) p.1 depth =
          depthLoop parent fuel u.label (depth + (p.2 - (d0 + 1)))) →
        depthLoop parent (fuel + (p.2 - d0)) p.1 depth =
          depthLoop parent fuel label (depth + (p.2 - d0)) := by
      intro u hup hp hu
      have hd := (Tree.depths_le hp).1
      rw [show fuel + (p.2 - d0) = fuel + 1 + (p.2 - (d0 + 1)) by omega, hu (fuel + 1) (by omega),
        depthLoop, hup]
      rw [Nat.mod_eq_of_lt (by omega), show depth + (p.2 - (d0 + 1)) + 1 =
        depth + (p.2 - d0) by omega]
    rcases mem_append.mp hp with hp | hp
    · exact hstep left hl hp fun fuel => ihl hleft (d0 + 1) fuel depth p hp
    · exact hstep right hr hp fun fuel => ihr hright (d0 + 1) fuel depth p hp

/-- The recorded depths are those in `t`, whose leaves are the symbols that occur. -/
structure DepthsIn (freqs : List Nat) (t : Tree) : Prop where
  syms : (t.leaves.map Prod.fst).Perm ((occurring freqs).map Prod.snd)
  length : (symbolDepths freqs).length = freqs.length
  depth : ∀ p ∈ t.depths 0, (symbolDepths freqs).getD p.1 0 = p.2
  zero : ∀ s, freqs.getD s 0 = 0 → (symbolDepths freqs).getD s 0 = 0

theorem length_occurring_le (freqs : List Nat) : (occurring freqs).length ≤ freqs.length :=
  (length_filter_le _ _).trans_eq length_zipIdx

/-- The parents that `build_code_lengths_into` records. -/
def parents (freqs : List Nat) : List (Option Nat) :=
  mergeLoop (symbolHeap freqs).length (symbolHeap freqs) freqs.length
    (replicate (freqs.length * 2) none)

theorem getD_symbolDepths (freqs : List Nat) (s : Nat) : (symbolDepths freqs).getD s 0 =
    if freqs.getD s 0 = 0 then 0 else depthLoop (parents freqs) (freqs.length * 2) s 0 := by
  unfold symbolDepths
  rw [getD_eq_getElem?_getD, getElem?_map, getElem?_zipIdx, Nat.zero_add, getD_eq_getElem?_getD]
  cases freqs[s]? with
  | none | some f => rfl

/-- The symbols that occur are merged to one tree. -/
theorem exists_forest (hne : occurring freqs ≠ []) : ∃ t next, next ≤ freqs.length * 2 ∧
    Forest ((occurring freqs).map Prod.swap) next (fun i => (parents freqs).getD i none) [t] := by
  have hperm := (symbolHeap_spec freqs).1
  have hcount := length_occurring_le freqs
  have hheap : ((symbolHeap freqs).map leafTree).map key = symbolHeap freqs := by
    rw [map_map]
    exact map_id _
  have hnone : (fun i => (replicate (freqs.length * 2) (none : Option Nat)).getD i none) =
      fun _ => none := by
    funext i
    rw [getD_eq_getElem?_getD, getElem?_replicate]
    split <;> rfl
  have hforest := forest_symbolHeap freqs
  rw [← hnone] at hforest
  have hdone := mergeLoop_spec (symbolHeap freqs).length _ _ _ hforest
    (by
      rw [Ne, map_eq_nil_iff]
      rintro h
      exact hne (nil_perm.mp (h ▸ hperm)))
    (by rw [length_map]; exact Nat.le_succ _)
    (by rw [length_map, length_replicate, hperm.length_eq]; omega)
  rwa [hheap, length_replicate] at hdone

/-- The height is bounded by the weight, and by the number of labels. -/
theorem height_lt {t : Tree} {next : Nat} {parent : Nat → Option Nat}
    (h : Forest ((occurring freqs).map Prod.swap) next parent [t])
    (hsum : freqs.sum < Nat.fib 257) : t.height < 256 ∧ t.height ≤ next := by
  constructor
  · have hfib := h.fib_le
    rw [map_map] at hfib
    have hsub : ((occurring freqs).map Prod.fst).Sublist (freqs.zipIdx.map Prod.fst) :=
      filter_sublist.map _
    rw [zipIdx_map_fst] at hsub
    have hle : ((occurring freqs).map Prod.fst).sum ≤ freqs.sum :=
      hsub.sum_le_sum fun _ _ => Nat.zero_le _
    by_contra hge
    have hmono : Nat.fib 257 ≤ Nat.fib (t.height + 1) := Nat.fib_mono (by omega)
    exact absurd (Nat.le_trans hmono (Nat.le_trans hfib hle)) (by omega)
  · have hnodup := h.nodup
    have hlt := h.lt
    rw [flatMap_singleton] at hnodup hlt
    have hle := (subperm_of_subset hnodup fun i hi => mem_range.mpr (hlt i hi)).length_le
    rw [length_range] at hle
    have := t.height_lt_length_labels
    omega

theorem exists_depthsIn (hne : occurring freqs ≠ []) (hsum : freqs.sum < Nat.fib 257) :
    ∃ t : Tree, DepthsIn freqs t := by
  obtain ⟨t, next, hnext, hdone⟩ := exists_forest hne
  obtain ⟨hheight, hfuel⟩ := height_lt hdone hsum
  have hsyms := hdone.leaves_perm.map Prod.fst
  rw [flatMap_singleton, map_map] at hsyms
  refine ⟨t, hsyms, ?_, fun p hp => ?_, fun s hs => ?_⟩
  · unfold symbolDepths
    rw [length_map, length_zipIdx]
  · have hle := (Tree.depths_le hp).2
    have hocc : p.1 ∈ (occurring freqs).map Prod.snd := by
      refine hsyms.mem_iff.mp ?_
      rw [← t.depths_map_fst 0]
      exact mem_map_of_mem hp
    have hroot := hdone.root t mem_cons_self
    have hclimb := depthLoop_spec (hdone.linked t mem_cons_self) 0
      (freqs.length * 2 - p.2) 0 p hp (by omega)
    rw [Nat.sub_zero, Nat.sub_add_cancel (by omega), Nat.zero_add] at hclimb
    rw [getD_symbolDepths, if_neg (mem_map_occurring.mp hocc), hclimb]
    cases freqs.length * 2 - p.2 with
    | zero => rfl
    | succ fuel => rw [depthLoop, hroot]
  · rw [getD_symbolDepths, if_pos hs]

open CanonicalCode in
/-- The depths of the symbols in a tree with two or more leaves fill the code space. -/
theorem kraft_symbolDepths {t : Tree} {max : Nat} (h : DepthsIn freqs t)
    (htwo : 2 ≤ (occurring freqs).length) (hmax : t.height ≤ max) :
    kraft max (symbolDepths freqs) = 2 ^ max := by
  -- Symbols that do not occur take no code space.
  have hskip : kraft max (symbolDepths freqs) = kraft max
      (((occurring freqs).map Prod.snd).map fun s => (symbolDepths freqs).getD s 0) := by
    rw [map_map]
    refine (kraft_map_filter (fun p => p.1 ≠ 0) _ (fun p hp => if_pos (by simpa using hp))
      freqs.zipIdx).symm.trans (congrArg _ (map_congr_left fun p hp => ?_))
    have hget : freqs.getD p.2 0 = p.1 := by
      rw [getD_eq_getElem?_getD, (mem_occurring.mp hp).1]
      rfl
    rw [Function.comp_apply, getD_symbolDepths, hget]
    rfl
  have hdepths : (t.depths 0).map Prod.snd =
      (t.leaves.map Prod.fst).map fun s => (symbolDepths freqs).getD s 0 := by
    rw [← t.depths_map_fst 0, map_map]
    exact map_congr_left fun p hp => (h.depth p hp).symm
  rw [hskip, kraft_perm (h.syms.symm.map _), ← hdepths]
  cases t with
  | leaf sym weight => exact absurd h.syms.length_eq (by simp [Tree.leaves]; omega)
  | node label left right =>
    rw [Huffman.Tree.height] at hmax
    rw [Tree.depths, map_append, kraft_append, left.kraft_depths (by omega) (by omega),
      right.kraft_depths (by omega) (by omega), ← Nat.two_mul, ← Nat.pow_succ']
    congr 1
    omega

/-- One symbol, and a second one that does not occur. -/
theorem single_spec {n only dummy : Nat} (hbits : 1 ≤ maxBits) (honly : only < n)
    (hdummy : dummy < n) (hne : dummy ≠ only) :
    (∀ l ∈ ((replicate n 0).set only 1).set dummy 1, l ≤ maxBits) ∧
      kraft maxBits (((replicate n 0).set only 1).set dummy 1) = 2 ^ maxBits ∧
      0 < (((replicate n 0).set only 1).set dummy 1).getD only 0 := by
  have hlen : ((replicate n 0).set only 1).length = n := by
    rw [length_set, length_replicate]
  refine ⟨fun l hl => ?_, ?_, ?_⟩
  · rcases mem_or_eq_of_mem_set hl with hl | rfl
    · rcases mem_or_eq_of_mem_set hl with hl | rfl
      · rw [eq_of_mem_replicate hl]
        exact Nat.zero_le _
      · exact hbits
    · exact hbits
  · have hcost : cost maxBits 1 = 2 ^ (maxBits - 1) := if_pos ⟨Nat.one_pos, hbits⟩
    have hfirst : (replicate n 0)[only]? = some 0 := getElem?_replicate_of_lt honly
    have hsecond : ((replicate n 0).set only 1)[dummy]? = some 0 := by
      rw [getElem?_set, if_neg (Ne.symm hne), getElem?_replicate_of_lt hdummy]
    rw [kraft_set hsecond, kraft_set hfirst, kraft_replicate_zero, hcost, Nat.zero_add,
      ← Nat.two_mul, ← Nat.pow_succ']
    congr 1
    omega
  · rw [getD_set_of_lt (by rw [hlen]; exact hdummy), if_neg (Ne.symm hne),
      getD_set_of_lt (by rw [length_replicate]; exact honly), if_pos rfl]
    exact Nat.one_pos

/-- The lengths of a tree, limited. -/
theorem limitCodeLengths_spec {lengths : List Nat} (hbits : 1 ≤ maxBits) (hmax : maxBits < 64)
    (hn : lengths.length ≤ 2 ^ maxBits)
    (hfull : ∀ w, (∀ l ∈ lengths, l ≤ w) → kraft w lengths = 2 ^ w) :
    ∃ lengths', limitCodeLengths lengths maxBits = .ok lengths' ∧
      lengths'.length = lengths.length ∧ Admissible maxBits lengths' ∧
      (∀ s, 0 < lengths.getD s 0 → 0 < lengths'.getD s 0) ∧
      (kraft maxBits lengths' = 2 ^ maxBits ↔ LandsExactly maxBits lengths) := by
  have hcut : lengths.map (fun len => if len > maxBits then maxBits else len) =
      raised maxBits 0 lengths := by
    apply map_congr_left
    grind
  have hne : lengths.length ≠ 0 := by
    intro hnil
    have h := hfull 0
    rw [length_eq_zero_iff.mp hnil] at h
    exact absurd (h fun _ hd => absurd hd not_mem_nil) (by decide)
  -- depths within the limit go through the loop unchanged
  have hloop : limitCodeLengths lengths maxBits =
      limitLoop maxBits (maxBits * lengths.length + 1) (raised maxBits 0 lengths) := by
    unfold limitCodeLengths
    rw [hcut]
    split
    · exact if_neg (Nat.not_le.mpr hmax)
    rename_i hfits
    have hle : ∀ l ∈ lengths, l ≤ maxBits := by
      intro l hl
      by_contra hgt
      exact hfits (any_eq_true.mpr ⟨l, hl, by simpa using hgt⟩)
    have hsame : raised maxBits 0 lengths = lengths := by
      rw [← hcut]
      exact (map_congr_left fun l hl => if_neg (Nat.not_lt.mpr (hle l hl))).trans (map_id _)
    rw [hsame, limitLoop, kraftSum_eq hle, hfull _ hle, Nat.one_shiftLeft, if_pos (Nat.le_refl _)]
  have hfuel : maxBits ≤ maxBits * lengths.length := Nat.le_mul_of_pos_right _ (by omega)
  obtain ⟨lengths', hrun, hlonger, hdone, hexact⟩ := limitLoop_spec hn
    (maxBits * lengths.length + 1) 0 (Nat.zero_le _) (by omega)
  refine ⟨lengths', hloop.trans hrun, hlonger.length.trans (length_map _), ⟨hlonger.le, hdone⟩,
    fun s hs => hlonger.pos s ?_, ?_⟩
  · have hlt := lt_length_of_getD_pos hs
    rw [getD_eq_getElem _ 0 hlt] at hs
    rw [← hcut, getD_eq_getElem _ 0 (by rw [length_map]; exact hlt), getElem_map]
    split <;> omega
  · by_cases hover : 2 ^ maxBits < kraft maxBits (raised maxBits 0 lengths)
    · exact hexact hover
    · have hfits := Nat.le_of_not_lt hover
      rw [limitLoop, kraftSum_eq (raised_le (Nat.zero_le _)), Nat.one_shiftLeft, if_pos hfits]
        at hrun
      cases hrun
      exact iff_of_true (Nat.le_antisymm hfits (le_kraft_raised hbits hfull))
        (landsExactly_of_le hfits)

/-- `build_code_lengths`: every symbol that occurs gets a code, within the code space. -/
theorem buildCodeLengths_spec (hocc : occurring freqs ≠ []) (htwo : 2 ≤ freqs.length)
    (hslice : freqs.length ≤ 2 ^ 31) (hmax : maxBits < 64) (hn : freqs.length ≤ 2 ^ maxBits)
    (hsum : freqs.sum < Nat.fib 257) : ∃ lengths, buildCodeLengths freqs maxBits = .ok lengths ∧
      lengths.length = freqs.length ∧
      Admissible maxBits lengths ∧ (∀ s, freqs.getD s 0 ≠ 0 → 0 < lengths.getD s 0) ∧
      (kraft maxBits lengths = 2 ^ maxBits ↔
        (occurring freqs).length = 1 ∨ LandsExactly maxBits (symbolDepths freqs)) := by
  have hbits : 1 ≤ maxBits := by
    by_contra hzero
    obtain rfl : maxBits = 0 := by omega
    omega
  obtain ⟨t, ht⟩ := exists_depthsIn hocc hsum
  unfold buildCodeLengths
  rw [show (freqs.zipIdx.filter fun p => p.1 ≠ 0) = occurring freqs from rfl]
  match hcase : occurring freqs, hocc with
  | [(f, only)], _ =>
    have honly : only < freqs.length := by
      have h : (f, only) ∈ occurring freqs := by rw [hcase]; exact mem_cons_self
      exact (List.getElem?_eq_some_iff.mp (mem_occurring.mp h).1).1
    have hdummy : (if only = 0 then 1 else 0) < freqs.length := by split <;> omega
    have hne : (if only = 0 then 1 else 0) ≠ only := by split <;> omega
    obtain ⟨hle, hkraft, hpos⟩ := single_spec hbits honly hdummy hne
    dsimp only
    rw [if_neg (by omega)]
    refine ⟨_, rfl, ?_, ⟨hle, Nat.le_of_eq hkraft⟩, fun s hs => ?_, iff_of_true hkraft (.inl rfl)⟩
    · rw [length_set, length_set, length_replicate]
    · have h := mem_map_occurring.mpr hs
      rw [hcase, map_cons, map_nil, mem_singleton] at h
      rw [h]
      exact hpos
  | p :: q :: ps, _ =>
    have hcount : 2 ≤ (occurring freqs).length := by
      rw [hcase, length_cons, length_cons]
      omega
    have hfull : ∀ w, (∀ l ∈ symbolDepths freqs, l ≤ w) → kraft w (symbolDepths freqs) = 2 ^ w := by
      intro w hle
      obtain ⟨leaf, hleaf, hheight⟩ := t.exists_depths_eq 0
      have hmax := getD_le hle leaf.1
      rw [ht.depth leaf hleaf] at hmax
      exact kraft_symbolDepths ht hcount (by omega)
    have hfew := length_occurring_le freqs
    rw [hcase, length_cons, length_cons] at hfew
    dsimp only [length_cons]
    rw [if_neg (by omega)]
    obtain ⟨lengths, hrun, hlen, hadm, hpos, hexact⟩ := limitCodeLengths_spec hbits hmax
      (by rw [ht.length]; exact hn) hfull
    refine ⟨lengths, hrun, hlen.trans ht.length, hadm, fun s hs => hpos s ?_,
      hexact.trans (or_iff_right (by simp)).symm⟩
    have hsym : s ∈ (t.depths 0).map Prod.fst := by
      rw [t.depths_map_fst, ht.syms.mem_iff]
      exact mem_map_occurring.mpr hs
    obtain ⟨leaf, hleaf, rfl⟩ := mem_map.mp hsym
    rw [ht.depth leaf hleaf]
    -- A leaf at depth zero would be the only symbol.
    cases t with
    | leaf sym weight => exact absurd ht.syms.length_eq (by simp [Tree.leaves]; omega)
    | node label left right =>
      rcases mem_append.mp hleaf with h | h
      · exact (Tree.depths_le h).1
      · exact (Tree.depths_le h).1

/-! ### Complete codes -/

/-- Every symbol that occurs gets a code within the limit, and the codes fill the code space. -/
def BuildsCompleteCode (freqs : List Nat) (maxBits : Nat) : Prop :=
  ∃ lengths, buildCodeLengths freqs maxBits = .ok lengths ∧ (∀ l ∈ lengths, l ≤ maxBits) ∧
    (∀ s < freqs.length, freqs.getD s 0 ≠ 0 → 0 < lengths.getD s 0) ∧
    kraft maxBits lengths = 2 ^ maxBits

/-- The code is complete exactly if one symbol occurs, or if the loop that makes up for cut depths
    lands on a full code space. -/
theorem buildsCompleteCode_iff (hfreqs : ∀ f ∈ freqs, f < 2 ^ 32) (hslice : freqs.length ≤ 2 ^ 31)
    (hmax : maxBits < 64) (hocc : ∃ f ∈ freqs, f ≠ 0) (htwo : 2 ≤ freqs.length)
    (hn : freqs.length ≤ 2 ^ maxBits) :
    BuildsCompleteCode freqs maxBits ↔
      (occurring freqs).length = 1 ∨ LandsExactly maxBits (symbolDepths freqs) := by
  have hsum : freqs.sum < Nat.fib 257 := calc
    freqs.sum ≤ freqs.length * 2 ^ 32 := sum_le_card_nsmul _ _ fun f hf =>
      Nat.le_of_lt (hfreqs f hf)
    _ ≤ 2 ^ 31 * 2 ^ 32 := Nat.mul_le_mul_right _ hslice
    _ < Nat.fib 150 := by decide +kernel
    _ ≤ Nat.fib 257 := Nat.fib_mono (by decide)
  obtain ⟨f, hf, hne⟩ := hocc
  obtain ⟨i, hi⟩ := mem_iff_getElem?.mp hf
  have hmem : (f, i) ∈ occurring freqs := mem_occurring.mpr ⟨hi, hne⟩
  obtain ⟨lengths, hrun, -, hadm, hpos, hexact⟩ :=
    buildCodeLengths_spec (ne_nil_of_mem hmem) htwo hslice hmax hn hsum
  rw [← hexact]
  constructor
  · rintro ⟨_, h, -, -, hkraft⟩
    rw [hrun] at h
    cases h
    exact hkraft
  · intro hkraft
    exact ⟨lengths, hrun, hadm.le, fun s _ hs => hpos s hs, hkraft⟩

/-- Depths 2, 2, 2, 3, 4, 4: at three bits the loop lengthens one code of two bits. -/
theorem buildsCompleteCode_of_cut : BuildsCompleteCode [4, 4, 4, 2, 1, 1] 3 :=
  (buildsCompleteCode_iff (by decide) (by decide) (by decide) (by decide) (by decide)
    (by decide)).mpr (.inr (by unfold LandsExactly; decide))

/-- Depths 1, 2, 3, 4, 4: at three bits one word is too many, and lengthening the code of one bit
    gives back two. -/
theorem not_buildsCompleteCode_doubling : (∃ f ∈ [8, 4, 2, 1, 1], f ≠ 0) ∧
    2 ≤ [8, 4, 2, 1, 1].length ∧ [8, 4, 2, 1, 1].length ≤ 2 ^ 3 ∧
    ¬BuildsCompleteCode [8, 4, 2, 1, 1] 3 := by
  unfold BuildsCompleteCode
  decide

end Fsmnt.NtCompression
