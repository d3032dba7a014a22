import Fsmnt.Native.NtCompression.XpressHuffman
import Fsmnt.Spec.NtCompression.HuffmanCodes
import Mathlib.Algebra.BigOperators.Intervals

/-!
# The packed decode table decodes the canonical code

Codes of up to ten bits are looked up directly. Longer ones lead through the nodes of the overflow
tree; a node stands for a proper prefix of a code, and two nodes never for the same one. That bounds
their number, so that the table does not run full.
-/

namespace Fsmnt.NtCompression.XpressHuffman

open CanonicalCode TableBuilder PackedDecodeTable
open List hiding count

variable {s i k l w c b : Nat} {α : Type} (n : Nat)

/-- The packed entry of a symbol. -/
def entryOf (lengths : List Nat) (s : Nat) : Nat := s * 16 + lengths.getD s 0

theorem shiftLeft_four_or (h : l < 16) : s <<< 4 ||| l = s * 16 + l := by
  rw [← Nat.shiftLeft_add_eq_or_of_lt h, Nat.shiftLeft_eq]

theorem shiftLeft_four : n <<< 4 = n * 16 := Nat.shiftLeft_eq n 4

theorem table_size : TABLE_SIZE = 1024 := rfl

theorem mul_shiftRight_four : (n * 16) >>> 4 = n := by
  rw [Nat.shiftRight_eq_div_pow, Nat.mul_div_cancel _ (by decide)]

/-- A word cut twice. -/
theorem div_two_pow_div {n a : Nat} (hab : a ≤ b) (hbc : b ≤ c) :
    n / 2 ^ (c - b) / 2 ^ (b - a) = n / 2 ^ (c - a) := by
  rw [Nat.div_div_eq_div_mul, ← Nat.pow_add, Nat.sub_add_sub_cancel hbc hab]

/-- A place of the table: an entry for ten bits, or a cell of the overflow tree. -/
inductive Place where
  | direct (p : Nat)
  | overflow (c : Nat)
  deriving DecidableEq

/-- What a place holds. A cell of the overflow tree is empty while it is zero: the node `0` is a
    root, and no cell leads to it. -/
def held (tbl : TableBuilder) : Place → Option Nat
  | .direct p => if tbl.directFilled.getD p false then some (tbl.direct.getD p 0) else none
  | .overflow c => if tbl.overflow.getD c 0 = 0 then none else some (tbl.overflow.getD c 0)

/-- The place that a prefix, a word `w` of `k ≥ 10` bits, leads to, if node `i` stands for
    `nodes[i]`. -/
def Leads (nodes : List (Nat × Nat)) (w k : Nat) : Place → Prop
  | .direct p => k = 10 ∧ w = p
  | .overflow c => ∃ i m : Nat, k = m + 1 ∧ 10 ≤ m ∧ nodes[i]? = some (w / 2, m) ∧ c = i * 2 + w % 2

/-- A place is taken by a short code that begins its index, by a node, or by the end of a long code.
    -/
def Taken (lengths syms : List Nat) (nodes : List (Nat × Nat)) (q : Place) : Prop :=
  (∃ s ∈ syms, ∃ p, q = .direct p ∧ lengths.getD s 0 ≤ 10 ∧
    p / 2 ^ (10 - lengths.getD s 0) = code lengths s) ∨
  ∃ w k, Leads nodes w k q ∧
    ((w, k) ∈ nodes ∨ ∃ s ∈ syms, 10 < lengths.getD s 0 ∧ lengths.getD s 0 = k ∧ code lengths s = w)

/-- The sizes of the arrays. -/
def Sized (tbl : TableBuilder) : Prop :=
  tbl.direct.length = 1024 ∧ tbl.directFilled.length = 1024 ∧ tbl.overflow.length = 1024

/-- A node stands for a proper prefix of a code. -/
def Proper (lengths : List Nat) (n : Nat × Nat) : Prop :=
  10 ≤ n.2 ∧ ∃ s, n.2 < lengths.getD s 0 ∧ n.1 = pfx lengths s n.2

/-- The table after the codes of `syms` have been inserted. -/
structure Filled (lengths syms : List Nat) (nodes : List (Nat × Nat)) (tbl : TableBuilder) :
    Prop where
  sized : Sized tbl
  overflowLen : tbl.overflowLen = nodes.length
  le : nodes.length ≤ 512
  nodup : nodes.Nodup
  proper : ∀ n ∈ nodes, Proper lengths n
  short : ∀ s ∈ syms, lengths.getD s 0 ≤ 10 → ∀ p < 1024,
    p / 2 ^ (10 - lengths.getD s 0) = code lengths s → held tbl (.direct p) =
      some (entryOf lengths s)
  node : ∀ j w k : Nat, nodes[j]? = some (w, k) → ∃ q, Leads nodes w k q ∧
    held tbl q = some (j * 16)
  leaf : ∀ s ∈ syms, 10 < lengths.getD s 0 →
    ∃ q, Leads nodes (code lengths s) (lengths.getD s 0) q ∧ held tbl q = some (entryOf lengths s)
  taken : ∀ q v, held tbl q = some v → Taken lengths syms nodes q

section Table

variable {lengths syms : List Nat} {nodes : List (Nat × Nat)} {tbl t : TableBuilder} {xs : List α}
  {j v : Nat} {q q' : Place} {places : Place → Prop}

theorem filled_new (lengths : List Nat) : Filled lengths [] [] new := by
  have hget : ∀ {β : Type} (b : β) p, (replicate 1024 b).getD p b = b := by
    intro β b p
    rw [getD_eq_getElem?_getD, getElem?_replicate]
    split <;> rfl
  refine ⟨⟨length_replicate, length_replicate, length_replicate⟩, rfl, Nat.zero_le _, nodup_nil,
    by simp, by simp, by simp, by simp, ?_⟩
  rintro (p | c) v hq
  · cases (if_neg (ne_true_of_eq_false (hget false p))).symm.trans hq
  · cases (if_pos (hget 0 c)).symm.trans hq

/-! ### Room -/

theorem long_count_le (lengths : List Nat) :
    count lengths 11 + count lengths 12 + count lengths 13 + count lengths 14 +
      count lengths 15 ≤ lengths.length := by
  simp only [count, Nat.reduceEqDiff, if_false]
  induction lengths with
  | nil => exact Nat.le_refl 0
  | cons l ls ih =>
    simp only [count_cons, beq_iff_eq, length_cons]
    split_ifs <;> omega

/-- The prefixes of 512 codes of at most 15 bits fit the nodes of the overflow tree. -/
theorem length_nodes_le (hle : ∀ l ∈ lengths, l ≤ 15) (hlen : lengths.length ≤ 512)
    (hnodup : nodes.Nodup) (hproper : ∀ n ∈ nodes, Proper lengths n) : nodes.length ≤ 512 := by
  refine Nat.le_trans (length_prefixes_le hle hnodup hproper) ?_
  have hcount := long_count_le lengths
  simp only [Finset.sum_Ico_eq_sum_range, Finset.sum_range_succ, Finset.sum_range_zero,
    Nat.reduceSub, Nat.reduceAdd, CanonicalCode.interior, Nat.zero_add]
  omega

/-! ### Places -/

theorem getElem?_concat {x y : α} (h : (xs ++ [x])[i]? = some y) :
    xs[i]? = some y ∨ i = xs.length ∧ y = x := by
  rw [getElem?_append] at h
  split at h
  · exact Or.inl h
  rw [getElem?_singleton] at h
  split at h
  · exact Or.inr ⟨by omega, (Option.some.inj h).symm⟩
  · cases h

theorem getElem?_concat_of_some {x y : α} (h : xs[i]? = some y) :
    (xs ++ [x])[i]? = some y := by
  rw [List.getElem?_append_left (List.getElem?_eq_some_iff.mp h).1, h]

theorem eq_of_getElem? (hnodup : xs.Nodup) {x : α} (hi : xs[i]? = some x) (hj : xs[j]? = some x) :
    i = j := by
  exact (List.getElem?_inj (List.getElem?_eq_some_iff.mp hi).1 hnodup).mp (hi.trans hj.symm)

/-- The next prefix of a code leads to a cell of the node before it. -/
theorem leads_pfx_succ (hi : nodes[i]? = some (pfx lengths s k, k)) (hk : 10 ≤ k)
    (hlt : k < lengths.getD s 0) :
    Leads nodes (pfx lengths s (k + 1)) (k + 1) (.overflow (i * 2 + pfx lengths s (k + 1) % 2)) :=
  ⟨i, k, rfl, hk, by rwa [pfx_succ_div_two hlt], rfl⟩

/-- A place stands for at most one prefix. -/
theorem Leads.inj {w' k' : Nat} (h : Leads nodes w k q) (h' : Leads nodes w' k' q) :
    w = w' ∧ k = k' := by
  cases q with
  | direct p => exact ⟨h.2.trans h'.2.symm, h.1.trans h'.1.symm⟩
  | overflow c =>
    obtain ⟨i, m, rfl, -, hi, rfl⟩ := h
    obtain ⟨i', m', rfl, -, hi', hcell⟩ := h'
    obtain rfl : i = i' := by omega
    rw [hi, Option.some.injEq, Prod.mk.injEq] at hi'
    exact ⟨by omega, by omega⟩

/-- Behind the first ten bits, the place is a cell of the node before it. -/
theorem Leads.parent (h : Leads nodes w (k + 1) q) (hk : 10 ≤ k) :
    ∃ i : Nat, nodes[i]? = some (w / 2, k) ∧ q = .overflow (i * 2 + w % 2) := by
  cases q with
  | direct p =>
    have := h.1
    omega
  | overflow c =>
    obtain ⟨i, m, hm, -, hi, rfl⟩ := h
    obtain rfl : k = m := by omega
    exact ⟨i, hi, rfl⟩

/-- A prefix leads to one place. -/
theorem Leads.unique (hnodup : nodes.Nodup) (h : Leads nodes w k q) (h' : Leads nodes w k q') :
    q = q' := by
  cases q with
  | direct p =>
    obtain ⟨rfl, rfl⟩ := h
    cases q' with
    | direct p' => rw [h'.2]
    | overflow c' =>
      obtain ⟨i, m, hm, hge, -⟩ := h'
      omega
  | overflow c =>
    obtain ⟨i, m, rfl, hm, hi, rfl⟩ := h
    obtain ⟨i', hi', rfl⟩ := h'.parent hm
    rw [eq_of_getElem? hnodup hi hi']

theorem Leads.concat (h : Leads nodes w k q) (n : Nat × Nat) : Leads (nodes ++ [n]) w k q := by
  cases q with
  | direct p => exact h
  | overflow c =>
    obtain ⟨i, m, hk, hm, hi, hc⟩ := h
    exact ⟨i, m, hk, hm, getElem?_concat_of_some hi, hc⟩

theorem Taken.cons (h : Taken lengths syms nodes q) (s : Nat) :
    Taken lengths (s :: syms) nodes q := by
  obtain ⟨t, ht, hp⟩ | ⟨w, k, hq, hnode | ⟨t, ht, hleaf⟩⟩ := h
  · exact .inl ⟨t, mem_cons_of_mem _ ht, hp⟩
  · exact .inr ⟨w, k, hq, .inl hnode⟩
  · exact .inr ⟨w, k, hq, .inr ⟨t, mem_cons_of_mem _ ht, hleaf⟩⟩

theorem Taken.concat (h : Taken lengths syms nodes q) (n : Nat × Nat) :
    Taken lengths syms (nodes ++ [n]) q := by
  obtain hshort | ⟨w, k, hq, htaken⟩ := h
  · exact .inl hshort
  · exact .inr ⟨w, k, hq.concat n, htaken.imp_left (mem_append_left _)⟩

theorem Filled.held_node (h : Filled lengths syms nodes tbl) (hj : nodes[j]? = some (w, k))
    (hq : Leads nodes w k q) : held tbl q = some (j * 16) := by
  obtain ⟨q', hq', hheld⟩ := h.node j w k hj
  rwa [hq.unique h.nodup hq']

theorem Filled.held_leaf (h : Filled lengths syms nodes tbl) (hs : s ∈ syms)
    (hlong : 10 < lengths.getD s 0) (hq : Leads nodes (code lengths s) (lengths.getD s 0) q) :
    held tbl q = some (entryOf lengths s) := by
  obtain ⟨q', hq', hheld⟩ := h.leaf s hs hlong
  rwa [hq.unique h.nodup hq']

/-- The table `t` is `tbl` with an entry in some places. -/
structure Enters (tbl t : TableBuilder) (places : Place → Prop) (v : Nat) : Prop where
  sized : Sized t
  overflowLen : t.overflowLen = tbl.overflowLen
  new : ∀ q, places q → held t q = some v
  old : ∀ q, ¬places q → held t q = held tbl q

theorem getD_of_held (h : held tbl (.overflow c) = some v) : tbl.overflow.getD c 0 = v := by
  rw [held] at h
  split at h
  · cases h
  · exact Option.some.inj h

/-- If the places were empty, all others keep what they hold. -/
theorem Enters.keeps {u : Nat} (h : Enters tbl t places v)
    (hempty : ∀ q, places q → held tbl q = none) (hq : held tbl q = some u) :
    held t q = some u := by
  rw [h.old q, hq]
  intro hplace
  cases (hempty q hplace).symm.trans hq

theorem Enters.congr {places' : Place → Prop} (h : Enters tbl t places v)
    (hiff : ∀ q, places q ↔ places' q) : Enters tbl t places' v :=
  ⟨h.sized, h.overflowLen, fun q hq => h.new q ((hiff q).mpr hq),
    fun q hq => h.old q fun hplace => hq ((hiff q).mp hplace)⟩

theorem Enters.trans {t' : TableBuilder} {more all : Place → Prop} (h : Enters tbl t places v)
    (h' : Enters t t' more v) (hall : ∀ q, all q ↔ places q ∨ more q) : Enters tbl t' all v := by
  refine ⟨h'.sized, h'.overflowLen.trans h.overflowLen, fun q hq => ?_, fun q hq => ?_⟩
  · by_cases hmore : more q
    · exact h'.new q hmore
    · rw [h'.old q hmore, h.new q (((hall q).mp hq).resolve_right hmore)]
  · rw [hall, not_or] at hq
    rw [h'.old q hq.2, h.old q hq.1]

theorem setDirect_enters {p : Nat} (h : Sized tbl) (hp : p < 1024) (v : Nat) : Enters tbl { tbl with
      direct := tbl.direct.set p v
      directFilled := tbl.directFilled.set p true } (· = .direct p) v := by
  have hdirect := getD_set_of_lt (h.1.symm ▸ hp)
  have hfilled := getD_set_of_lt (h.2.1.symm ▸ hp)
  refine ⟨⟨length_set.trans h.1, length_set.trans h.2.1, h.2.2⟩, rfl, ?_, ?_⟩
  · rintro q rfl
    rw [held, hfilled, hdirect, if_pos rfl, if_pos rfl, if_pos rfl]
  · intro q hq
    cases q with
    | overflow c => rfl
    | direct p' =>
      have hne : p' ≠ p := fun heq => hq (congrArg _ heq)
      rw [held, held, hfilled, hdirect, if_neg hne, if_neg hne]

theorem setOverflow_enters (h : Sized tbl) (hc : c < 1024) (hv : v ≠ 0) : Enters tbl { tbl with
      overflow := tbl.overflow.set c v } (· = .overflow c) v := by
  have hset := getD_set_of_lt (h.2.2.symm ▸ hc)
  refine ⟨⟨h.1, h.2.1, length_set.trans h.2.2⟩, rfl, ?_, ?_⟩
  · rintro q rfl
    rw [held, hset, if_pos rfl, if_neg hv]
  · intro q hq
    cases q with
    | direct p => rfl
    | overflow c' => rw [held, held, hset, if_neg fun heq => hq (congrArg _ heq)]

/-- A new symbol takes places that were empty. -/
theorem Filled.addSymbol (h : Filled lengths syms nodes tbl)
    (he : Enters tbl t places (entryOf lengths s)) (hempty : ∀ q, places q → held tbl q = none)
    (hshort : lengths.getD s 0 ≤ 10 → ∀ p,
      p / 2 ^ (10 - lengths.getD s 0) = code lengths s → places (.direct p))
    (hleaf : 10 < lengths.getD s 0 → ∃ q, Leads nodes (code lengths s) (lengths.getD s 0) q ∧
      places q)
    (htaken : ∀ q, places q → Taken lengths (s :: syms) nodes q) :
    Filled lengths (s :: syms) nodes t := by
  refine ⟨he.sized, he.overflowLen.trans h.overflowLen, h.le, h.nodup, h.proper, ?_, ?_, ?_, ?_⟩
  · intro t ht h10 p hp hpt
    obtain rfl | ht := mem_cons.mp ht
    · exact he.new _ (hshort h10 p hpt)
    · exact he.keeps hempty (h.short t ht h10 p hp hpt)
  · intro j w k hj
    obtain ⟨q, hq, hheld⟩ := h.node j w k hj
    exact ⟨q, hq, he.keeps hempty hheld⟩
  · intro t ht h10
    obtain rfl | ht := mem_cons.mp ht
    · obtain ⟨q, hq, hplace⟩ := hleaf h10
      exact ⟨q, hq, he.new q hplace⟩
    · obtain ⟨q, hq, hheld⟩ := h.leaf t ht h10
      exact ⟨q, hq, he.keeps hempty hheld⟩
  · intro q v hq
    by_cases hplace : places q
    · exact htaken q hplace
    · rw [he.old q hplace] at hq
      exact (h.taken q v hq).cons s

/-! ### Short codes -/

/-- The places of a short code are those whose index begins with it. -/
theorem div_eq_iff_mem (p : Nat) :
    (c * 2 ^ (10 - l) ≤ p ∧ p < c * 2 ^ (10 - l) + 2 ^ (10 - l)) ↔ p / 2 ^ (10 - l) = c := by
  rw [Nat.div_eq_iff (Nat.two_pow_pos _)]
  have := Nat.two_pow_pos (10 - l)
  omega

/-- The loop over the entries that begin with a short code. -/
theorem fillShort_enters (sym : Nat) (hl : l ≤ 10) (hc : c < 2 ^ l) (h : Sized tbl) :
    Enters tbl (tbl.fillShort sym c l)
      (fun q => ∃ p, q = .direct p ∧ p / 2 ^ (10 - l) = c) (sym * 16 + l) := by
  have hroom : c * 2 ^ (10 - l) + 2 ^ (10 - l) ≤ 1024 := by
    have hmul : (c + 1) * 2 ^ (10 - l) ≤ 2 ^ l * 2 ^ (10 - l) := Nat.mul_le_mul_right _ hc
    rwa [← Nat.pow_add, Nat.add_sub_of_le hl, Nat.add_mul, Nat.one_mul] at hmul
  -- the first `n` suffixes
  have hloop : ∀ n ≤ 2 ^ (10 - l), Enters tbl ((range n).foldl (fun (tbl : TableBuilder) i =>
      { tbl with
        direct := tbl.direct.set (c <<< (10 - l) ||| i) (sym * 16 + l)
        directFilled := tbl.directFilled.set (c <<< (10 - l) ||| i) true }) tbl)
      (fun q => ∃ i < n, q = .direct (c * 2 ^ (10 - l) + i)) (sym * 16 + l) := by
    intro n
    induction n with
    | zero => exact fun _ => ⟨h, rfl, by simp, fun q _ => rfl⟩
    | succ n ih =>
      intro hn
      have hor : c <<< (10 - l) ||| n = c * 2 ^ (10 - l) + n := by
        rw [← Nat.shiftLeft_add_eq_or_of_lt (by omega), Nat.shiftLeft_eq]
      have hfirst := ih (by omega)
      rw [range_succ, foldl_append, foldl_cons, hor]
      refine hfirst.trans (setDirect_enters hfirst.sized (by omega) _) fun q => ?_
      simp only [Nat.exists_lt_succ_right]
  unfold fillShort
  dsimp only
  rw [shiftLeft_four_or (by omega), Nat.one_shiftLeft]
  refine (hloop _ (Nat.le_refl _)).congr fun q => ⟨?_, ?_⟩
  · rintro ⟨i, hi, rfl⟩
    exact ⟨_, rfl, (div_eq_iff_mem _).mp (by omega)⟩
  · rintro ⟨p, rfl, hp⟩
    have hmem := (div_eq_iff_mem p).mpr hp
    exact ⟨p - c * 2 ^ (10 - l), by omega, by rw [Nat.add_sub_of_le hmem.1]⟩

/-- Two codes of at most ten bits do not begin the same entry. -/
theorem short_disjoint {t p : Nat} (hs : 0 < lengths.getD s 0) (ht : 0 < lengths.getD t 0)
    (hs10 : lengths.getD s 0 ≤ 10) (ht10 : lengths.getD t 0 ≤ 10)
    (hps : p / 2 ^ (10 - lengths.getD s 0) = code lengths s)
    (hpt : p / 2 ^ (10 - lengths.getD t 0) = code lengths t) : s = t := by
  have hcase : ∀ {u v : Nat}, 0 < lengths.getD u 0 → lengths.getD u 0 ≤ lengths.getD v 0 →
      lengths.getD v 0 ≤ 10 → p / 2 ^ (10 - lengths.getD u 0) = code lengths u →
      p / 2 ^ (10 - lengths.getD v 0) = code lengths v → u = v := by
    intro u v hu huv hv hpu hpv
    by_contra hne
    refine pfx_ne_code hu huv hne ?_
    rw [pfx, ← hpv, div_two_pow_div huv hv, hpu]
  rcases Nat.le_total (lengths.getD s 0) (lengths.getD t 0) with hle | hle
  · exact hcase hs hle ht10 hps hpt
  · exact (hcase ht hle hs10 hpt hps).symm

/-- A short code does not begin a prefix that is a node. -/
theorem short_ne_node {t : Nat} (hs : 0 < lengths.getD s 0) (hs10 : lengths.getD s 0 ≤ 10)
    (ht : 10 < lengths.getD t 0) :
    pfx lengths t 10 / 2 ^ (10 - lengths.getD s 0) ≠ code lengths s := by
  intro heq
  refine pfx_ne_code hs (show lengths.getD s 0 ≤ lengths.getD t 0 by omega) ?_ ?_
  · rintro rfl
    omega
  · rw [← heq, pfx, pfx, div_two_pow_div hs10 (Nat.le_of_lt ht)]

theorem Filled.insertShort (h : Filled lengths syms nodes tbl) (hadm : Admissible 15 lengths)
    (hsyms : ∀ t ∈ syms, 0 < lengths.getD t 0) (hs : s ∉ syms) (hpos : 0 < lengths.getD s 0)
    (hle : lengths.getD s 0 ≤ 10) :
    Filled lengths (s :: syms) nodes (tbl.fillShort s (code lengths s) (lengths.getD s 0)) := by
  refine h.addSymbol (fillShort_enters s hle (hadm.code_lt_two_pow hpos) h.sized) ?_
    (fun _ p hp => ⟨p, rfl, hp⟩) (fun hlong => by omega) ?_
  · rintro q ⟨p, rfl, hp⟩
    rw [Option.eq_none_iff_forall_ne_some]
    intro v hv
    obtain ⟨t, ht, p', hq, h10, hpt⟩ | ⟨w, k, ⟨rfl, rfl⟩, hnode | ⟨t, -, hlong, hlen, -⟩⟩ :=
      h.taken _ v hv
    · cases hq
      exact hs (short_disjoint hpos (hsyms t ht) hle h10 hp hpt ▸ ht)
    · obtain ⟨-, t, ht, hpt⟩ := h.proper _ hnode
      dsimp only at hpt ht
      exact short_ne_node hpos hle ht (hpt ▸ hp)
    · omega
  · rintro q ⟨p, rfl, hp⟩
    exact .inl ⟨s, mem_cons_self, p, rfl, hle, hp⟩

/-! ### Long codes -/

theorem Filled.allocOverflow (h : Filled lengths syms nodes tbl) (hroom : nodes.length < 512) :
    tbl.allocOverflow = .ok (nodes.length, { tbl with overflowLen := nodes.length + 1 }) := by
  unfold TableBuilder.allocOverflow
  rw [h.overflowLen, if_neg (show ¬nodes.length ≥ TABLE_SIZE / 2 from Nat.not_le.mpr hroom)]

theorem pfx_ten_lt (hadm : Admissible 15 lengths) (hlong : 10 < lengths.getD s 0) :
    pfx lengths s 10 < 1024 := by
  have hcode := hadm.code_lt_two_pow (show 0 < lengths.getD s 0 by omega)
  rw [pfx, Nat.div_lt_iff_lt_mul (Nat.two_pow_pos _)]
  have hpow : 1024 * 2 ^ (lengths.getD s 0 - 10) = 2 ^ lengths.getD s 0 := by
    rw [show (1024 : Nat) = 2 ^ 10 by rfl, ← Nat.pow_add]
    congr 1
    omega
  rw [hpow]
  exact hcode

theorem code_shiftRight (h : lengths.getD s 0 = k + b) :
    code lengths s >>> b = pfx lengths s k := by
  rw [Nat.shiftRight_eq_div_pow, pfx, h, Nat.add_sub_cancel_left]

theorem code_div_two (h : lengths.getD s 0 = k + 1) : code lengths s / 2 = pfx lengths s k := by
  rw [← code_shiftRight h, Nat.shiftRight_one]

/-- The leaf of a long code. -/
theorem Filled.setLeaf (h : Filled lengths syms nodes tbl) (hs : s ∉ syms)
    (hk : 10 ≤ k) (hlast : lengths.getD s 0 = k + 1) (hsyms : ∀ t ∈ syms, 0 < lengths.getD t 0)
    (hi : nodes[i]? = some (code lengths s / 2, k)) :
    Filled lengths (s :: syms) nodes { tbl with
      overflow := tbl.overflow.set (i * 2 + code lengths s % 2) (entryOf lengths s) } := by
  have hilt := (List.getElem?_eq_some_iff.mp hi).1
  have hle := h.le
  have hq : Leads nodes (code lengths s) (lengths.getD s 0)
    (.overflow (i * 2 + code lengths s % 2)) :=
    ⟨i, k, hlast, hk, hi, rfl⟩
  refine h.addSymbol (setOverflow_enters h.sized (by omega) (by unfold entryOf; omega)) ?_
    (fun h10 => by omega) (fun _ => ⟨_, hq, rfl⟩) ?_
  · rintro q rfl
    rw [Option.eq_none_iff_forall_ne_some]
    intro v hv
    obtain ⟨-, -, p, hcell, -⟩ | ⟨w, k', hq', hin⟩ := h.taken _ v hv
    · cases hcell
    obtain ⟨rfl, rfl⟩ := hq.inj hq'
    obtain hnode | ⟨t, ht, -, hlen, hcode⟩ := hin
    · -- a node is a proper prefix of a code
      obtain ⟨-, t, ht, hpfx⟩ := h.proper _ hnode
      dsimp only at ht hpfx
      refine pfx_ne_code (by omega) (Nat.le_of_lt ht) ?_ hpfx.symm
      rintro rfl
      omega
    · exact hs (code_injective (hsyms t ht) (by omega) hlen hcode ▸ ht)
  · rintro q rfl
    exact .inr ⟨_, _, hq, .inr ⟨s, mem_cons_self, by omega, rfl, rfl⟩⟩

section Node

variable (h : Filled lengths syms nodes tbl) (hadm : Admissible 15 lengths)
  (hlen : lengths.length ≤ 512) {n : Nat × Nat} (hn : Proper lengths n)
  (hq : Leads nodes n.1 n.2 q) (hempty : held tbl q = none)

include h hadm hlen hn hq hempty

/-- A prefix whose place is empty leaves room for its node. -/
theorem Filled.room : (nodes ++ [n]).Nodup ∧ (∀ m ∈ nodes ++ [n], Proper lengths m) ∧
    nodes.length < 512 := by
  have hnodup : (nodes ++ [n]).Nodup := by
    refine nodup_append.mpr ⟨h.nodup, nodup_singleton _, ?_⟩
    rintro a ha b hb rfl
    obtain ⟨j, hj⟩ := getElem?_of_mem ha
    rw [mem_singleton.mp hb] at hj
    cases hempty.symm.trans (h.held_node hj hq)
  have hproper : ∀ m ∈ nodes ++ [n], Proper lengths m := by
    intro m hm
    rcases mem_append.mp hm with hm | hm
    · exact h.proper m hm
    · exact mem_singleton.mp hm ▸ hn
  have hle := length_nodes_le hadm.le hlen hnodup hproper
  rw [length_append, length_singleton] at hle
  exact ⟨hnodup, hproper, hle⟩

/-- A new node takes a place that was empty. -/
theorem Filled.addNode
    (he : Enters { tbl with overflowLen := nodes.length + 1 } t (· = q) (nodes.length * 16)) :
    Filled lengths syms (nodes ++ [n]) t := by
  obtain ⟨hnodup, hproper, hroom⟩ := h.room hadm hlen hn hq hempty
  have hlength : (nodes ++ [n]).length = nodes.length + 1 := length_append
  have hkeeps : ∀ {q' u}, held tbl q' = some u → held t q' = some u := by
    refine fun hheld => he.keeps ?_ hheld
    rintro q rfl
    exact hempty
  refine ⟨he.sized, he.overflowLen.trans hlength.symm, by omega, hnodup, hproper, ?_, ?_, ?_, ?_⟩
  · exact fun t ht h10 p hp hpt => hkeeps (h.short t ht h10 p hp hpt)
  · intro j w' k' hj
    obtain hj | ⟨rfl, heq⟩ := getElem?_concat hj
    · obtain ⟨q', hq', hheld⟩ := h.node j w' k' hj
      exact ⟨q', hq'.concat _, hkeeps hheld⟩
    · cases heq
      exact ⟨q, hq.concat _, he.new q rfl⟩
  · intro t ht h10
    obtain ⟨q', hq', hheld⟩ := h.leaf t ht h10
    exact ⟨q', hq'.concat _, hkeeps hheld⟩
  · intro q' v hv
    by_cases hsame : q' = q
    · exact .inr ⟨_, _, hsame ▸ hq.concat _, .inl (mem_append_right _ (mem_singleton_self _))⟩
    · exact (h.taken q' v ((he.old q' hsame).symm.trans hv)).concat _

end Node

section Insert

variable (hadm : Admissible 15 lengths) (hlen : lengths.length ≤ 512)
  (hsyms : ∀ t ∈ syms, 0 < lengths.getD t 0)
include hadm hlen hsyms

omit hadm hlen in
/-- The place of a proper prefix of a new code holds nothing but its node. -/
theorem Filled.node_of_held (h : Filled lengths syms nodes tbl) (hlt : k < lengths.getD s 0)
    (hq : Leads nodes (pfx lengths s k) k q) (hv : held tbl q = some v) :
    ∃ j : Nat, v = j * 16 ∧ nodes[j]? = some (pfx lengths s k, k) := by
  obtain ⟨t, ht, p, rfl, h10, hp⟩ | ⟨w, k', hq', hin⟩ := h.taken q v hv
  · obtain ⟨rfl, rfl⟩ := hq
    exact absurd hp (short_ne_node (hsyms t ht) h10 hlt)
  obtain ⟨rfl, rfl⟩ := hq.inj hq'
  obtain hnode | ⟨t, ht, -, rfl, hcode⟩ := hin
  · obtain ⟨j, hj⟩ := getElem?_of_mem hnode
    exact ⟨j, Option.some.inj (hv.symm.trans (h.held_node hj hq)), hj⟩
  · -- no code ends on the way
    refine absurd hcode.symm (pfx_ne_code (hsyms t ht) (Nat.le_of_lt hlt) ?_)
    rintro rfl
    omega

/-- The first node on the way to a long code. -/
theorem Filled.overflowRoot (h : Filled lengths syms nodes tbl) (hlong : 10 < lengths.getD s 0) :
    ∃ i nodes' tbl', tbl.overflowRoot (pfx lengths s 10) = .ok (i, tbl') ∧
      Filled lengths syms nodes' tbl' ∧ nodes'[i]? = some (pfx lengths s 10, 10) := by
  have hq : Leads nodes (pfx lengths s 10) 10 (.direct (pfx lengths s 10)) := ⟨rfl, rfl⟩
  unfold TableBuilder.overflowRoot
  split
  · rename_i hfilled
    obtain ⟨j, hv, hj⟩ := h.node_of_held hsyms hlong hq (if_pos hfilled)
    exact ⟨_, nodes, tbl, rfl, h, by rwa [hv, mul_shiftRight_four]⟩
  · rename_i hfilled
    have hempty : held tbl (.direct (pfx lengths s 10)) = none := if_neg hfilled
    have hn : Proper lengths (pfx lengths s 10, 10) := ⟨Nat.le_refl 10, s, hlong, rfl⟩
    rw [h.allocOverflow (h.room hadm hlen hn hq hempty).2.2]
    refine ⟨_, _, _, rfl, h.addNode hadm hlen hn hq hempty ?_, getElem?_concat_length ..⟩
    rw [shiftLeft_four]
    exact setDirect_enters (by exact h.sized) (pfx_ten_lt hadm hlong) _

/-- The next node on the way to a long code. -/
theorem Filled.overflowChild (h : Filled lengths syms nodes tbl)
    (hi : nodes[i]? = some (pfx lengths s k, k)) (hk : 10 ≤ k) (hlt : k + 1 < lengths.getD s 0) :
    ∃ j nodes' tbl', tbl.overflowChild (i * 2 + pfx lengths s (k + 1) % 2) = .ok (j, tbl') ∧
      Filled lengths syms nodes' tbl' ∧ nodes'[j]? = some (pfx lengths s (k + 1), k + 1) := by
  have hilt := (List.getElem?_eq_some_iff.mp hi).1
  have hle := h.le
  have hq := leads_pfx_succ hi hk (by omega)
  unfold TableBuilder.overflowChild
  split
  · rename_i hzero
    have hempty : held tbl (.overflow (i * 2 + pfx lengths s (k + 1) % 2)) = none := if_pos hzero
    have hcell : i * 2 + pfx lengths s (k + 1) % 2 < tbl.overflow.length := by
      rw [h.sized.2.2]
      omega
    have hn : Proper lengths (pfx lengths s (k + 1), k + 1) := ⟨Nat.le_succ_of_le hk, s, hlt, rfl⟩
    rw [h.allocOverflow (h.room hadm hlen hn hq hempty).2.2]
    simp only [bind, Except.bind]
    rw [getD_set_of_lt hcell, if_pos rfl, shiftLeft_four, mul_shiftRight_four]
    refine ⟨_, _, _, rfl, h.addNode hadm hlen hn hq hempty ?_, getElem?_concat_length ..⟩
    exact setOverflow_enters (by exact h.sized) (h.sized.2.2 ▸ hcell) (by omega)
  · rename_i hused
    obtain ⟨j, hv, hj⟩ := h.node_of_held hsyms hlt hq (if_neg hused)
    exact ⟨_, nodes, tbl, rfl, h, by rwa [hv, mul_shiftRight_four]⟩

/-- The walk from a node to the leaf of a long code. -/
theorem insertLeaf_spec (hs : s ∉ syms) : ∀ (b k i : Nat) (nodes : List (Nat × Nat))
    (tbl : TableBuilder), lengths.getD s 0 = k + b + 1 → 10 ≤ k → Filled lengths syms nodes tbl →
      nodes[i]? = some (pfx lengths s k, k) →
      ∃ nodes' tbl', insertLeaf s (code lengths s) (lengths.getD s 0) (b + 1) i tbl =
        .ok tbl' ∧ Filled lengths (s :: syms) nodes' tbl' := by
  have hmax := getD_le hadm.le s
  intro b
  induction b with
  | zero =>
    intro k i nodes tbl hlast hk h hi
    have hilt := (List.getElem?_eq_some_iff.mp hi).1
    have hle := h.le
    rw [← code_div_two hlast] at hi
    rw [insertLeaf]
    rw [Nat.shiftRight_zero, if_neg (by rw [table_size]; omega), if_pos rfl,
      shiftLeft_four_or (by omega)]
    exact ⟨nodes, _, rfl, h.setLeaf hs hk hlast hsyms hi⟩
  | succ b ih =>
    intro k i nodes tbl hlast hk h hi
    have hilt := (List.getElem?_eq_some_iff.mp hi).1
    have hle := h.le
    obtain ⟨j, nodes', tbl', hrun, h', hj⟩ := h.overflowChild hadm hlen hsyms hi hk (by omega)
    rw [insertLeaf]
    rw [code_shiftRight (k := k + 1) (by omega), if_neg (by rw [table_size]; omega),
      if_neg (by omega), hrun]
    exact ih (k + 1) j nodes' tbl' (by omega) (by omega) h' hj

/-- One more symbol is entered. -/
theorem Filled.insertCode (h : Filled lengths syms nodes tbl) (hs : s ∉ syms)
    (hpos : 0 < lengths.getD s 0) :
    ∃ nodes' tbl', tbl.insertCode (s, code lengths s, lengths.getD s 0) = .ok tbl' ∧
      Filled lengths (s :: syms) nodes' tbl' := by
  unfold TableBuilder.insertCode
  dsimp only
  split
  · rename_i hshort
    exact ⟨nodes, _, rfl, h.insertShort hadm hsyms hs hpos hshort⟩
  rename_i hshort
  have hlong : 10 < lengths.getD s 0 := Nat.lt_of_not_le hshort
  obtain ⟨i, nodes', tbl', hrun, h', hi⟩ := h.overflowRoot hadm hlen hsyms hlong
  obtain ⟨b, hb⟩ := Nat.exists_eq_add_of_lt hlong
  rw [code_shiftRight (k := 10) (by rw [TABLE_BITS]; omega), hrun,
    show lengths.getD s 0 - TABLE_BITS = b + 1 by rw [TABLE_BITS]; omega]
  exact insertLeaf_spec hadm hlen hsyms hs b 10 i nodes' tbl' hb (Nat.le_refl 10) h' hi

end Insert

/-! ### Building and decoding -/

/-- All codes, one after the other. -/
theorem foldlM_insertCode (hadm : Admissible 15 lengths) (hlen : lengths.length ≤ 512)
    (rest syms : List Nat) (nodes : List (Nat × Nat)) (tbl : TableBuilder)
    (h : Filled lengths syms nodes tbl) (hpos : ∀ t ∈ rest ++ syms, 0 < lengths.getD t 0)
    (hnodup : (rest ++ syms).Nodup) :
    ∃ nodes' tbl', (rest.map fun s => (s, code lengths s, lengths.getD s 0)).foldlM
        TableBuilder.insertCode tbl = .ok tbl' ∧
      Filled lengths (rest.reverse ++ syms) nodes' tbl' := by
  induction rest generalizing syms nodes tbl with
  | nil =>
    exact ⟨nodes, tbl, rfl, h⟩
  | cons s rest ih =>
    have hmove : s :: (rest ++ syms) ~ rest ++ s :: syms := perm_middle.symm
    obtain ⟨nodes₁, tbl₁, hrun, h₁⟩ := h.insertCode hadm hlen
      (fun t ht => hpos t (mem_append_right _ ht)) (s := s)
      (fun hs => (nodup_cons.mp hnodup).1 (mem_append_right _ hs)) (hpos s mem_cons_self)
    obtain ⟨nodes', tbl', hrun', h'⟩ := ih (s :: syms) nodes₁ tbl₁ h₁
      (fun t ht => hpos t (hmove.mem_iff.mpr ht)) (hmove.nodup_iff.mp hnodup)
    refine ⟨nodes', tbl', ?_, by simpa using h'⟩
    rw [map_cons, foldlM_cons, hrun]
    exact hrun'

section

variable (h : Filled lengths syms nodes tbl)

include h

/-- All prefixes of a long code are nodes. -/
theorem Filled.exists_node (hs : s ∈ syms) (hk : 10 ≤ k) (hlt : k < lengths.getD s 0) :
    ∃ i : Nat, nodes[i]? = some (pfx lengths s k, k) := by
  -- up from the leaf
  obtain ⟨d, hd⟩ := Nat.exists_eq_add_of_lt hlt
  induction d generalizing k with
  | zero =>
    obtain ⟨q, hq, -⟩ := h.leaf s hs (by omega)
    rw [hd] at hq
    obtain ⟨i, hi, -⟩ := hq.parent hk
    exact ⟨i, by rw [hi, code_div_two hd]⟩
  | succ d ih =>
    obtain ⟨j, hj⟩ := ih (k := k + 1) (by omega) (by omega) (by omega)
    obtain ⟨q, hq, -⟩ := h.node j _ _ hj
    obtain ⟨i, hi, -⟩ := hq.parent hk
    exact ⟨i, by rw [hi, pfx_succ_div_two hlt]⟩

/-- Finishing keeps the entries that are filled. -/
theorem finish_direct {p : Nat} (hp : held tbl (.direct p) = some v) :
    tbl.finish.direct.getD p 0 = v := by
  have hfilled : tbl.directFilled.getD p false = true := by
    by_contra hne
    cases (if_neg hne).symm.trans hp
  rw [held, if_pos hfilled, Option.some.injEq] at hp
  rw [← hp]
  unfold finish
  dsimp only
  split
  · have hlt : p < tbl.directFilled.length := by
      by_contra hge
      rw [getD_eq_default _ _ (Nat.le_of_not_lt hge)] at hfilled
      cases hfilled
    have hlt' : p < tbl.direct.length := by rwa [h.sized.1, ← h.sized.2.1]
    rw [getD_eq_getElem _ _ hlt] at hfilled
    rw [getD_eq_getElem _ _ (by simpa using ⟨hlt', hlt⟩), getElem_map, getElem_zip, if_pos hfilled,
      getD_eq_getElem _ _ hlt']
  · rfl

/-- The walk of `decode_overflow` along the prefixes of a code. -/
theorem decodeOverflow_spec (hadm : Admissible 15 lengths) {nb : Nat} (hs : s ∈ syms)
    (hlong : 10 < lengths.getD s 0) (hnb : nb / 2 ^ (32 - lengths.getD s 0) = code lengths s) :
    ∀ (n k i : Nat), k + n = 15 → 10 ≤ k → k < lengths.getD s 0 →
      nodes[i]? = some (pfx lengths s k, k) →
      tbl.finish.decodeOverflow nb (range' k n) i = .ok (s, lengths.getD s 0) := by
  have hmax := getD_le hadm.le s
  have hword : ∀ k ≤ lengths.getD s 0, nb / 2 ^ (32 - k) = pfx lengths s k := by
    intro k hk
    rw [pfx, ← hnb, div_two_pow_div hk (by omega)]
  intro n
  induction n with
  | zero =>
    omega
  | succ n ih =>
    intro k i hkn hk hlt hi
    have hilt := (List.getElem?_eq_some_iff.mp hi).1
    have hle := h.le
    have hbit : (nb >>> (31 - k)) % 2 = pfx lengths s (k + 1) % 2 := by
      rw [Nat.shiftRight_eq_div_pow, ← hword (k + 1) (by omega),
        show 31 - k = 32 - (k + 1) by omega]
    rw [range'_succ, decodeOverflow]
    rw [hbit, if_neg (by rw [table_size]; omega), show tbl.finish.overflow = tbl.overflow from rfl]
    have hq := leads_pfx_succ hi hk hlt
    rcases Nat.lt_or_eq_of_le (Nat.succ_le_of_lt hlt) with hmore | hlast
    · obtain ⟨j, hj⟩ := h.exists_node hs (Nat.le_succ_of_le hk) hmore
      rw [getD_of_held (h.held_node hj hq), if_neg (by omega), mul_shiftRight_four]
      exact ih (k + 1) j (by omega) (by omega) hmore hj
    · have hself : pfx lengths s (k + 1) = code lengths s := by
        rw [show k + 1 = lengths.getD s 0 from hlast, pfx_length]
      rw [hself, show k + 1 = lengths.getD s 0 from hlast] at hq
      rw [hself, getD_of_held (h.held_leaf hs hlong hq), entryOf, if_pos (by omega)]
      congr 2 <;> omega

/-- The table decodes every symbol with a code. -/
structure Decodes (lengths : List Nat) (table : PackedDecodeTable) : Prop where
  decode : ∀ s nb : Nat, 0 < lengths.getD s 0 → nb < 2 ^ 32 →
    nb / 2 ^ (32 - lengths.getD s 0) = code lengths s →
    table.decode nb = .ok (s, lengths.getD s 0)

/-- A table with every symbol decodes. -/
theorem Filled.decodes (hadm : Admissible 15 lengths)
    (hall : ∀ s, 0 < lengths.getD s 0 → s ∈ syms) :
    Decodes lengths tbl.finish := by
  refine ⟨fun s nb hpos hnb hword => ?_⟩
  have hs := hall s hpos
  have hmax := getD_le hadm.le s
  have hindex : nb >>> (32 - TABLE_BITS) < 1024 := by
    rw [Nat.shiftRight_eq_div_pow, Nat.div_lt_iff_lt_mul (Nat.two_pow_pos _)]
    exact hnb
  unfold decode
  by_cases hshort : lengths.getD s 0 ≤ 10
  · have hpt : nb >>> (32 - TABLE_BITS) / 2 ^ (10 - lengths.getD s 0) = code lengths s := by
      rw [← hword, Nat.shiftRight_eq_div_pow, TABLE_BITS, div_two_pow_div hshort (by omega)]
    rw [finish_direct h (h.short s hs hshort _ hindex hpt), entryOf, if_pos (by omega)]
    congr 2 <;> omega
  have hlong : 10 < lengths.getD s 0 := by omega
  have hten : nb >>> (32 - TABLE_BITS) = pfx lengths s 10 := by
    rw [pfx, ← hword, Nat.shiftRight_eq_div_pow, TABLE_BITS,
      div_two_pow_div (Nat.le_of_lt hlong) (by omega)]
  obtain ⟨i, hi⟩ := h.exists_node hs (Nat.le_refl 10) hlong
  have hroot : held tbl (.direct (pfx lengths s 10)) = some (i * 16) := h.held_node hi ⟨rfl, rfl⟩
  rw [hten, finish_direct h hroot, if_neg (by omega), mul_shiftRight_four]
  exact decodeOverflow_spec h hadm hs hlong hword 5 10 i rfl (Nat.le_refl _) hlong hi

end

/-- `build` succeeds on admissible lengths, and the table decodes their canonical code. -/
theorem build_spec (hadm : Admissible 15 lengths) (hlen : lengths.length ≤ 512)
    (hpos : 0 < lengths.getD s 0) :
    ∃ table, build lengths = .ok table ∧ Decodes lengths table := by
  have hle : ∀ l ∈ lengths, l ≤ 16 := fun l hl => Nat.le_succ_of_le (hadm.le l hl)
  have hused : ∀ t, 0 < lengths.getD t 0 ↔
      t ∈ (range lengths.length).filter fun s => 0 < lengths.getD s 0 := by
    intro t
    rw [mem_filter, mem_range]
    exact ⟨fun h => ⟨lt_length_of_getD_pos h, decide_eq_true h⟩, fun h => of_decide_eq_true h.2⟩
  obtain ⟨nodes, tbl, hrun, h⟩ := foldlM_insertCode hadm hlen
    ((range lengths.length).filter fun s => 0 < lengths.getD s 0) [] [] new (filled_new lengths)
    (by simp) (by simpa using nodup_range.filter _)
  have hvalid : validateLengths lengths = .ok () := by
    refine if_neg fun hzero => ?_
    rw [length_eq_zero_iff, filter_eq_nil_iff] at hzero
    have hmem := getElem_mem (lt_length_of_getD_pos hpos)
    rw [getD_eq_getElem _ 0 (lt_length_of_getD_pos hpos)] at hpos
    exact hzero _ hmem (decide_eq_true hpos)
  have hspace : kraft 16 lengths ≤ 2 ^ 16 := by
    have hcount : lengths.count 16 = 0 := by
      rw [count_eq_zero]
      intro hmem
      have := hadm.le 16 hmem
      omega
    have hkraft := hadm.kraft_le
    rw [kraft_succ, hcount]
    omega
  refine ⟨tbl.finish, ?_, h.decodes hadm fun t ht => by simpa using (hused t).mp ht⟩
  unfold build
  dsimp only
  rw [hvalid, validateCodeSpace_ok hspace, canonicalCodes_eq hle]
  simp only [bind, Except.bind]
  rw [hrun]

end Table

end Fsmnt.NtCompression.XpressHuffman
