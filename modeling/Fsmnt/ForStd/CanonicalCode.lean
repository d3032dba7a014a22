import Mathlib.Algebra.BigOperators.Group.List.Basic
import Mathlib.Algebra.GroupWithZero.Nat
import Mathlib.Algebra.Order.BigOperators.Group.Finset
import Mathlib.Data.List.GetD
import Mathlib.Order.Interval.Finset.Nat

/-!
# Canonical prefix codes

A canonical code is given by the length of the code of each symbol; zero stands for a symbol without
a code. Codes of one length are consecutive numbers in the order of their symbols, and codes of
different lengths are intervals one after the other.
-/

namespace CanonicalCode

open Finset List

variable {lengths : List Nat} {w sym max w' : Nat}

/-- The number of codes of length `w`. -/
def count (lengths : List Nat) (w : Nat) : Nat := if w = 0 then 0 else lengths.count w

/-- The first code of length `w`. -/
def first (lengths : List Nat) : Nat → Nat
  | 0 => 0
  | w + 1 => 2 * (first lengths w + count lengths w)

/-- The code of a symbol. -/
def code (lengths : List Nat) (sym : Nat) : Nat :=
  first lengths (lengths.getD sym 0) + (lengths.take sym).count (lengths.getD sym 0)

/-! ### Code space -/

/-- What a code of length `l` takes of the `2 ^ w` words of `w` bits. -/
def cost (w l : Nat) : Nat := if 0 < l ∧ l ≤ w then 2 ^ (w - l) else 0

/-- What all codes of up to `w` bits take of the words of `w` bits. -/
def kraft (w : Nat) (lengths : List Nat) : Nat := (lengths.map (cost w)).sum

@[simp] theorem kraft_nil (w : Nat) : kraft w [] = 0 := rfl

@[simp] theorem kraft_cons (w l : Nat) (ls : List Nat) :
    kraft w (l :: ls) = cost w l + kraft w ls := by
  rw [kraft, List.map_cons, List.sum_cons, kraft]

/-- A symbol without a code takes no words. -/
@[simp] theorem cost_zero (w : Nat) : cost w 0 = 0 := if_neg (by omega)

theorem cost_succ (w l : Nat) : cost (w + 1) l = 2 * cost w l + if l = w + 1 then 1 else 0 := by
  unfold cost
  by_cases hle : 0 < l ∧ l ≤ w
  · rw [if_pos hle, if_pos ⟨hle.1, by omega⟩, if_neg (by omega),
      show w + 1 - l = (w - l) + 1 by omega, Nat.pow_succ]
    omega
  rw [if_neg hle]
  by_cases heq : l = w + 1
  · rw [if_pos ⟨by omega, by omega⟩, if_pos heq, heq, Nat.sub_self]
    rfl
  · rw [if_neg (by omega), if_neg heq]

/-- Codes of the next length take one place each. -/
theorem kraft_succ (w : Nat) (lengths : List Nat) :
    kraft (w + 1) lengths = 2 * kraft w lengths + lengths.count (w + 1) := by
  induction lengths with
  | nil => rfl
  | cons l ls ih =>
    rw [kraft_cons, kraft_cons, cost_succ, count_cons]
    simp only [beq_iff_eq]
    omega

/-- The codes of up to `w` bits are the words below `first w + count w`, up to their extensions. -/
theorem first_add_count (lengths : List Nat) (w : Nat) :
    first lengths w + count lengths w = kraft w lengths := by
  induction w with
  | zero =>
    induction lengths with
    | nil => rfl
    | cons l ls ih =>
      have hcost : cost 0 l = 0 := if_neg (by omega)
      rw [kraft_cons, ← ih, hcost]
      rfl
  | succ w ih =>
    have hcount : count lengths (w + 1) = lengths.count (w + 1) := if_neg (Nat.succ_ne_zero w)
    rw [kraft_succ, ← ih, first, hcount]

theorem cost_scale (l : Nat) (h : w ≤ w') : cost w l * 2 ^ (w' - w) ≤ cost w' l := by
  unfold cost
  split
  · rename_i hle
    rw [if_pos ⟨hle.1, by omega⟩, ← Nat.pow_add]
    exact Nat.le_of_eq (by congr 1; omega)
  · rw [Nat.zero_mul]
    exact Nat.zero_le _

theorem kraft_scale (lengths : List Nat) (h : w ≤ w') :
    kraft w lengths * 2 ^ (w' - w) ≤ kraft w' lengths := by
  induction lengths with
  | nil => simp
  | cons l ls ih =>
    rw [kraft_cons, Nat.add_mul]
    exact Nat.add_le_add (cost_scale l h) ih

/-- The order of the lengths does not matter. -/
theorem kraft_perm {ls ls' : List Nat} (h : ls.Perm ls') : kraft w ls = kraft w ls' :=
  (h.map _).sum_eq

theorem kraft_append (w : Nat) (ls ls' : List Nat) :
    kraft w (ls ++ ls') = kraft w ls + kraft w ls' := by
  rw [kraft, map_append, sum_append, kraft, kraft]

theorem kraft_replicate_zero (w n : Nat) : kraft w (replicate n 0) = 0 := by
  simp [kraft]

/-- Symbols without a code may be left out. -/
theorem kraft_map_filter {α : Type} (p : α → Bool) (f : α → Nat) (hf : ∀ x, ¬p x → f x = 0)
    (xs : List α) : kraft w ((xs.filter p).map f) = kraft w (xs.map f) := by
  induction xs with
  | nil => rfl
  | cons x xs ih =>
    rw [List.map_cons, kraft_cons, ← ih, List.filter_cons]
    split
    · rw [List.map_cons, kraft_cons]
    · rename_i hx
      rw [hf x hx, cost_zero, Nat.zero_add]

/-- A symbol without a code gets one. -/
theorem kraft_set {i a : Nat} {ls : List Nat} (hi : ls[i]? = some 0) :
    kraft w (ls.set i a) = kraft w ls + cost w a := by
  induction ls generalizing i with
  | nil => cases hi
  | cons l ls ih =>
    cases i with
    | zero =>
      obtain rfl : l = 0 := Option.some.inj hi
      rw [set_cons_zero, kraft_cons, kraft_cons, cost_zero]
      omega
    | succ i =>
      rw [set_cons_succ, kraft_cons, kraft_cons, ih hi, Nat.add_assoc]

/-- The lengths fit the code space of `2 ^ max` words. -/
structure Admissible (max : Nat) (lengths : List Nat) : Prop where
  le : ∀ l ∈ lengths, l ≤ max
  kraft_le : kraft max lengths ≤ 2 ^ max

/-- The codes of one length fit into it. -/
theorem Admissible.first_add_count_le (h : Admissible max lengths) (hw : w ≤ max) :
    first lengths w + count lengths w ≤ 2 ^ w := by
  have hscale : kraft w lengths * 2 ^ (max - w) ≤ 2 ^ w * 2 ^ (max - w) := by
    rw [← Nat.pow_add, Nat.add_sub_of_le hw]
    exact Nat.le_trans (kraft_scale lengths hw) h.kraft_le
  rw [first_add_count]
  exact Nat.le_of_mul_le_mul_right hscale (Nat.two_pow_pos _)

/-! ### Codes of symbols -/

theorem lt_length_of_getD_pos (h : 0 < lengths.getD sym 0) : sym < lengths.length := by
  by_contra hge
  rw [getD_eq_default _ 0 (Nat.le_of_not_lt hge)] at h
  exact Nat.lt_irrefl 0 h

theorem getD_le (hle : ∀ l ∈ lengths, l ≤ max) (sym : Nat) : lengths.getD sym 0 ≤ max := by
  by_cases hin : sym < lengths.length
  · rw [getD_eq_getElem _ 0 hin]
    exact hle _ (getElem_mem hin)
  · rw [getD_eq_default _ 0 (Nat.le_of_not_lt hin)]
    exact Nat.zero_le _

/-- Longer codes begin past the shorter ones. -/
theorem first_add_count_mul_le (lengths : List Nat) (h : w < w') :
    (first lengths w + count lengths w) * 2 ^ (w' - w) ≤ first lengths w' := by
  induction w' with
  | zero => omega
  | succ w' ih =>
    rw [first]
    rcases Nat.lt_or_eq_of_le (Nat.lt_succ_iff.mp h) with hlt | rfl
    · have hstep := ih hlt
      rw [show w' + 1 - w = (w' - w) + 1 by omega, Nat.pow_succ, ← Nat.mul_assoc]
      omega
    · rw [Nat.add_sub_cancel_left, Nat.pow_one, Nat.mul_comm]

theorem take_count_lt (hsym : sym < lengths.length) {n : Nat} (hn : sym < n) :
    (lengths.take sym).count (lengths.getD sym 0) <
      (lengths.take n).count (lengths.getD sym 0) := by
  have hsucc : (lengths.take (sym + 1)).count (lengths.getD sym 0) =
      (lengths.take sym).count (lengths.getD sym 0) + 1 := by
    rw [take_succ_eq_append_getElem hsym, count_append, getD_eq_getElem _ 0 hsym]
    simp
  have hmono : (lengths.take (sym + 1)).count (lengths.getD sym 0) ≤
      (lengths.take n).count (lengths.getD sym 0) :=
    ((take_prefix_take_left hn).sublist).count_le _
  omega

theorem code_lt (h : 0 < lengths.getD sym 0) :
    code lengths sym < first lengths (lengths.getD sym 0) + count lengths (lengths.getD sym 0) := by
  have hsym := lt_length_of_getD_pos h
  have hlt := take_count_lt hsym hsym
  rw [take_length] at hlt
  rw [code, count, if_neg (by omega)]
  omega

/-- A code fits into its length. -/
theorem Admissible.code_lt_two_pow (h : Admissible max lengths) (hsym : 0 < lengths.getD sym 0) :
    code lengths sym < 2 ^ lengths.getD sym 0 :=
  Nat.lt_of_lt_of_le (code_lt hsym) (h.first_add_count_le (getD_le h.le sym))

/-- Symbols of one length have different codes. -/
theorem code_injective {s t : Nat} (hs : 0 < lengths.getD s 0) (ht : 0 < lengths.getD t 0)
    (hlen : lengths.getD s 0 = lengths.getD t 0) (hcode : code lengths s = code lengths t) :
    s = t := by
  unfold code at hcode
  rw [hlen] at hcode
  rcases Nat.lt_trichotomy s t with h | h | h
  · have := take_count_lt (lt_length_of_getD_pos hs) h
    rw [hlen] at this
    omega
  · exact h
  · have := take_count_lt (lt_length_of_getD_pos ht) h
    omega

/-- The first `w` bits of the code of a symbol. -/
def pfx (lengths : List Nat) (sym w : Nat) : Nat := code lengths sym / 2 ^ (lengths.getD sym 0 - w)

theorem pfx_length (lengths : List Nat) (sym : Nat) :
    pfx lengths sym (lengths.getD sym 0) = code lengths sym := by
  rw [pfx, Nat.sub_self, Nat.pow_zero, Nat.div_one]

theorem pfx_succ_div_two (hw : w < lengths.getD sym 0) :
    pfx lengths sym (w + 1) / 2 = pfx lengths sym w := by
  rw [pfx, Nat.div_div_eq_div_mul, ← Nat.pow_succ]
  congr 2
  omega

/-- A longer code lies past the codes of length `w`, in its first `w` bits. -/
theorem first_add_count_le_pfx (hw : w < lengths.getD sym 0) :
    first lengths w + count lengths w ≤ pfx lengths sym w := by
  rw [pfx, Nat.le_div_iff_mul_le (Nat.two_pow_pos _)]
  exact Nat.le_trans (first_add_count_mul_le lengths hw) (Nat.le_add_right _ _)

/-- No code is the beginning of the code of another symbol. -/
theorem pfx_ne_code {s t : Nat} (hs : 0 < lengths.getD s 0)
    (hle : lengths.getD s 0 ≤ lengths.getD t 0) (hne : s ≠ t) :
    pfx lengths t (lengths.getD s 0) ≠ code lengths s := by
  rcases Nat.lt_or_eq_of_le hle with hlt | heq
  · have hpast := first_add_count_le_pfx hlt
    have hbelow := code_lt hs
    omega
  · rw [heq, pfx_length]
    intro hcode
    exact hne (code_injective hs (by omega) heq hcode.symm)

/-! ### Proper prefixes -/

/-- The number of words of `max - d` bits that are proper prefixes of codes. -/
def interior (lengths : List Nat) (max : Nat) : Nat → Nat
  | 0 => 0
  | d + 1 => (count lengths (max - d) + interior lengths max d + 1) / 2

/-- The proper prefixes of `w` bits come right after the codes of `w` bits. -/
theorem pfx_lt_interior (hle : ∀ l ∈ lengths, l ≤ max) :
    ∀ d w : Nat, w + d = max → w < lengths.getD sym 0 →
      pfx lengths sym w < first lengths w + count lengths w + interior lengths max d := by
  intro d
  induction d with
  | zero =>
    have hmax := getD_le hle sym
    omega
  | succ d ih =>
    intro w hw hlt
    have hfirst : first lengths (w + 1) = 2 * (first lengths w + count lengths w) := rfl
    rw [interior, show max - d = w + 1 by omega, ← pfx_succ_div_two hlt]
    rcases Nat.lt_or_eq_of_le (Nat.succ_le_of_lt hlt) with hlong | heq
    · have hnext := ih (w + 1) (by omega) hlong
      omega
    have hbelow := code_lt (show 0 < lengths.getD sym 0 by omega)
    have hself := pfx_length lengths sym
    rw [← heq] at hbelow hself
    change code lengths sym < first lengths (w + 1) + count lengths (w + 1) at hbelow
    change pfx lengths sym (w + 1) = code lengths sym at hself
    omega

/-- A list of proper prefixes with at least `low` bits. -/
theorem length_prefixes_le {low : Nat} (hle : ∀ l ∈ lengths, l ≤ max) {nodes : List (Nat × Nat)}
    (hnodup : nodes.Nodup)
    (hnodes : ∀ n ∈ nodes, low ≤ n.2 ∧ ∃ s, n.2 < lengths.getD s 0 ∧ n.1 = pfx lengths s n.2) :
    nodes.length ≤ ∑ w ∈ Finset.Ico low max, interior lengths max (max - w) := by
  classical
  let words (w : Nat) : Finset (Nat × Nat) :=
    (Finset.Ico (first lengths w + count lengths w)
      (first lengths w + count lengths w + interior lengths max (max - w))).image fun v => (v, w)
  have hsub : nodes.toFinset ⊆ (Finset.Ico low max).biUnion words := by
    intro n hn
    obtain ⟨hlow, s, hlt, heq⟩ := hnodes n (mem_toFinset.mp hn)
    have hmax := getD_le hle s
    refine mem_biUnion.mpr ⟨n.2, mem_Ico.mpr ⟨hlow, by omega⟩, ?_⟩
    refine mem_image.mpr ⟨n.1, mem_Ico.mpr ⟨?_, ?_⟩, rfl⟩
    · rw [heq]
      exact first_add_count_le_pfx hlt
    · rw [heq]
      exact pfx_lt_interior hle (max - n.2) n.2 (by omega) hlt
  calc nodes.length = nodes.toFinset.card := (toFinset_card_of_nodup hnodup).symm
    _ ≤ ((Finset.Ico low max).biUnion words).card := card_le_card hsub
    _ ≤ ∑ w ∈ Finset.Ico low max, (words w).card := card_biUnion_le
    _ ≤ ∑ w ∈ Finset.Ico low max, interior lengths max (max - w) := by
        refine Finset.sum_le_sum fun w _ => Nat.le_trans Finset.card_image_le ?_
        rw [Nat.card_Ico, Nat.add_sub_cancel_left]

end CanonicalCode
