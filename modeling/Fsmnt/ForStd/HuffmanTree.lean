import Mathlib.Data.Nat.Fib.Basic
import Mathlib.Data.List.Nodup
import Fsmnt.ForStd.CanonicalCode

/-!
# Huffman trees

Merging the two lightest trees of a forest until one is left. The nodes carry labels, so that an
implementation may keep the tree as a table of parents.
-/

namespace Huffman

open List Prod

/-- A tree of labelled nodes; the label of a leaf is its symbol. -/
inductive Tree where
  | leaf (sym weight : Nat)
  | node (label : Nat) (left right : Tree)
  deriving Repr

variable {t u : Tree} {parent : Nat → Option Nat} {ts : List Tree} {next : Nat}

namespace Tree

def label : Tree → Nat
  | leaf sym _ => sym
  | node label _ _ => label

def weight : Tree → Nat
  | leaf _ weight => weight
  | node _ left right => left.weight + right.weight

def height : Tree → Nat
  | leaf _ _ => 0
  | node _ left right => max left.height right.height + 1

/-- All labels in the tree. -/
def labels : Tree → List Nat
  | leaf sym _ => [sym]
  | node label left right => label :: (left.labels ++ right.labels)

/-- The leaves, as pairs of symbol and weight. -/
def leaves : Tree → List (Nat × Nat)
  | leaf sym weight => [(sym, weight)]
  | node _ left right => left.leaves ++ right.leaves

/-- The symbols with their depths, for a tree whose root is at depth `d`. -/
def depths (d : Nat) : Tree → List (Nat × Nat)
  | leaf sym _ => [(sym, d)]
  | node _ left right => left.depths (d + 1) ++ right.depths (d + 1)

theorem label_mem_labels (t : Tree) : t.label ∈ t.labels := by
  cases t <;> simp [label, labels]

theorem depths_map_fst (t : Tree) (d : Nat) : (t.depths d).map fst = t.leaves.map fst := by
  induction t generalizing d with
  | leaf sym weight => rfl
  | node label left right ihl ihr => rw [depths, leaves, map_append, map_append, ihl, ihr]

/-- A leaf lies between the root and the height of the tree. -/
theorem depths_le {d : Nat} {p : Nat × Nat} (h : p ∈ t.depths d) :
    d ≤ p.2 ∧ p.2 ≤ d + t.height := by
  induction t generalizing d with
  | leaf sym weight =>
    rw [mem_singleton.mp h]
    exact ⟨Nat.le_refl d, Nat.le_add_right d _⟩
  | node label left right ihl ihr =>
    rw [height]
    rcases mem_append.mp h with hl | hr
    · have := ihl hl
      omega
    · have := ihr hr
      omega

/-- Some leaf is at the full height. -/
theorem exists_depths_eq (t : Tree) (d : Nat) : ∃ p ∈ t.depths d, p.2 = d + t.height := by
  induction t generalizing d with
  | leaf sym weight => exact ⟨(sym, d), mem_singleton_self _, rfl⟩
  | node label left right ihl ihr =>
    rcases Nat.le_total left.height right.height with hle | hle
    · obtain ⟨p, hmem, hp⟩ := ihr (d + 1)
      exact ⟨p, mem_append_right _ hmem, by rw [height]; omega⟩
    · obtain ⟨p, hmem, hp⟩ := ihl (d + 1)
      exact ⟨p, mem_append_left _ hmem, by rw [height]; omega⟩

theorem height_lt_length_labels (t : Tree) : t.height < t.labels.length := by
  induction t with
  | leaf sym weight => exact Nat.one_pos
  | node label left right ihl ihr =>
    rw [height, labels, length_cons, length_append]
    omega

theorem weight_eq_sum (t : Tree) : t.weight = (t.leaves.map snd).sum := by
  induction t with
  | leaf sym w => exact (Nat.add_zero w).symm
  | node label left right ihl ihr =>
    rw [weight, leaves, map_append, sum_append, ihl, ihr]

open CanonicalCode in
/-- The subtree at depth `d` takes the words of `max` bits that begin with its path. -/
theorem kraft_depths {max : Nat} (t : Tree) {d : Nat} (hd : 0 < d) (h : d + t.height ≤ max) :
    kraft max ((t.depths d).map snd) = 2 ^ (max - d) := by
  induction t generalizing d with
  | leaf sym weight =>
    have hcost : cost max d = 2 ^ (max - d) := if_pos ⟨hd, h⟩
    rw [depths, map_singleton, kraft_cons, kraft_nil, hcost, Nat.add_zero]
  | node label left right ihl ihr =>
    rw [height] at h
    rw [depths, map_append, kraft_append, ihl (by omega) (by omega), ihr (by omega) (by omega),
      show max - d = (max - (d + 1)) + 1 by omega, Nat.pow_succ]
    omega

/-- The parents of the nodes below the root. -/
def Linked (parent : Nat → Option Nat) : Tree → Prop
  | leaf _ _ => True
  | node label left right => parent left.label = some label ∧ parent right.label = some label ∧
      left.Linked parent ∧ right.Linked parent

/-- The parent of the root is free. -/
theorem Linked.congr {parent' : Nat → Option Nat} (h : t.Linked parent)
    (heq : ∀ i ∈ t.labels, i ≠ t.label → parent' i = parent i) (hnodup : t.labels.Nodup) :
    t.Linked parent' := by
  induction t with
  | leaf sym weight => trivial
  | node label left right ihl ihr =>
    obtain ⟨hl, hr, hleft, hright⟩ := h
    rw [labels, nodup_cons, nodup_append] at hnodup
    obtain ⟨hout, hnl, hnr, hdisj⟩ := hnodup
    have hbelow : ∀ i ∈ left.labels ++ right.labels, parent' i = parent i := by
      intro i hi
      refine heq i (mem_cons_of_mem _ hi) ?_
      rintro rfl
      exact hout hi
    refine ⟨?_, ?_, ihl hleft (fun i hi _ => hbelow i (mem_append_left _ hi)) hnl,
      ihr hright (fun i hi _ => hbelow i (mem_append_right _ hi)) hnr⟩
    · rw [hbelow _ (mem_append_left _ left.label_mem_labels), hl]
    · rw [hbelow _ (mem_append_right _ right.label_mem_labels), hr]

end Tree

/-! ### A queue -/

section Queue

variable {α : Type} {key : α → Nat × Nat} {bs : List α}

/-- Insert into a list that is ordered by keys. -/
def insertKey (key : α → Nat × Nat) (a : α) : List α → List α
  | [] => [a]
  | b :: bs =>
    if (key a).1 < (key b).1 ∨ (key a).1 = (key b).1 ∧ (key a).2 ≤ (key b).2 then a :: b :: bs
    else b :: insertKey key a bs

/-- Nothing is lost by an insertion. -/
theorem insertKey_perm (a : α) (bs : List α) : (insertKey key a bs).Perm (a :: bs) := by
  induction bs with
  | nil => exact List.Perm.refl _
  | cons b bs ih =>
    rw [insertKey]
    split
    · exact List.Perm.refl _
    · exact (List.Perm.cons b ih).trans (List.Perm.swap a b bs)

theorem mem_insertKey {a c : α} : c ∈ insertKey key a bs ↔ c = a ∨ c ∈ bs := by
  rw [(insertKey_perm a bs).mem_iff, mem_cons]

theorem map_insertKey (a : α) (bs : List α) :
    (insertKey key a bs).map key = insertKey (fun k => k) (key a) (bs.map key) := by
  induction bs with
  | nil => rfl
  | cons b bs ih =>
    rw [insertKey, map_cons, insertKey]
    split
    · rfl
    · rw [map_cons, ih]

theorem pairwise_insertKey {a : α} (h : bs.Pairwise fun b c => (key b).1 ≤ (key c).1) :
    (insertKey key a bs).Pairwise fun b c => (key b).1 ≤ (key c).1 := by
  induction bs with
  | nil => exact pairwise_singleton _ a
  | cons b bs ih =>
    obtain ⟨hb, hbs⟩ := pairwise_cons.mp h
    rw [insertKey]
    split
    · rename_i hle
      refine pairwise_cons.mpr ⟨fun c hc => ?_, h⟩
      rcases mem_cons.mp hc with rfl | hc
      · omega
      · have := hb c hc
        omega
    · rename_i hgt
      refine pairwise_cons.mpr ⟨fun c hc => ?_, ih hbs⟩
      rcases mem_insertKey.mp hc with rfl | hc
      · omega
      · exact hb c hc

end Queue

/-! ### Merging -/

/-- The order in which trees are taken: by weight, then by label. -/
def key (t : Tree) : Nat × Nat := (t.weight, t.label)

/-- A forest in the order of its weights, none of which is below `low`, the last weight that was
    taken. -/
structure Balanced (low : Nat) (ts : List Tree) : Prop where
  sorted : ts.Pairwise fun t u => t.weight ≤ u.weight
  low_le : ∀ t ∈ ts, low ≤ t.weight
  fib_le : ∀ t ∈ ts, Nat.fib (t.height + 1) ≤ t.weight
  fib_le_low : ∀ t ∈ ts, Nat.fib t.height ≤ low

/-- The two lightest trees are replaced by their sum. -/
theorem Balanced.merge {low : Nat} (h : Balanced low (t :: u :: ts)) (label : Nat) :
    Balanced u.weight (insertKey key (.node label t u) ts) := by
  obtain ⟨ht, hrest⟩ := pairwise_cons.mp h.sorted
  obtain ⟨hu, hts⟩ := pairwise_cons.mp hrest
  have htu := ht u mem_cons_self
  have hmemt : t ∈ t :: u :: ts := mem_cons_self
  have hmemu : u ∈ t :: u :: ts := mem_cons_of_mem _ mem_cons_self
  have hlowt := h.low_le t hmemt
  have hfibt := h.fib_le t hmemt
  have hfibu := h.fib_le u hmemu
  have hfibt' := h.fib_le_low t hmemt
  have hfibu' := h.fib_le_low u hmemu
  have hmax := max_choice t.height u.height
  have hnode : Nat.fib (Tree.node label t u).height ≤ u.weight := by
    change Nat.fib (max t.height u.height + 1) ≤ u.weight
    rcases hmax with heq | heq <;> rw [heq] <;> omega
  have hkeys : ts.Pairwise fun v w => (key v).1 ≤ (key w).1 := hts
  refine ⟨pairwise_insertKey hkeys, fun v hv => ?_, fun v hv => ?_, fun v hv => ?_⟩
  · rcases mem_insertKey.mp hv with rfl | hv
    · exact Nat.le_add_left _ _
    · exact hu v hv
  · rcases mem_insertKey.mp hv with rfl | hv
    · change Nat.fib (max t.height u.height + 2) ≤ t.weight + u.weight
      rw [Nat.fib_add_two]
      rcases hmax with heq | heq <;> rw [heq] <;> omega
    · exact h.fib_le v (mem_cons_of_mem _ (mem_cons_of_mem _ hv))
  · rcases mem_insertKey.mp hv with rfl | hv
    · exact hnode
    · have := h.fib_le_low v (mem_cons_of_mem _ (mem_cons_of_mem _ hv))
      omega

/-- The trees over some leaves, with labels below `next` and the parents of their nodes. -/
structure Forest (leaves : List (Nat × Nat)) (next : Nat) (parent : Nat → Option Nat)
    (ts : List Tree) : Prop where
  leaves_perm : (ts.flatMap Tree.leaves).Perm leaves
  nodup : (ts.flatMap Tree.labels).Nodup
  lt : ∀ i ∈ ts.flatMap Tree.labels, i < next
  linked : ∀ t ∈ ts, t.Linked parent
  root : ∀ t ∈ ts, parent t.label = none
  fresh : ∀ i, next ≤ i → parent i = none
  balanced : ∃ low, Balanced low ts

/-- The parents after `t` and `u` have been joined. -/
def join (parent : Nat → Option Nat) (t u next : Nat) : Nat → Option Nat :=
  fun i => if i = u then some next else if i = t then some next else parent i

/-- The two lightest trees become one. -/
theorem Forest.merge {leaves : List (Nat × Nat)} (h : Forest leaves next parent (t :: u :: ts)) :
    Forest leaves (next + 1) (join parent t.label u.label next)
      (insertKey key (.node next t u) ts) := by
  have hperm : (insertKey key (.node next t u) ts).Perm _ := insertKey_perm (.node next t u) ts
  have hlabels : ((insertKey key (.node next t u) ts).flatMap Tree.labels).Perm
      (next :: (t :: u :: ts).flatMap Tree.labels) := by
    refine (hperm.flatMap_right Tree.labels).trans ?_
    simp only [flatMap_cons, Tree.labels, cons_append, append_assoc]
    exact List.Perm.refl _
  obtain ⟨hnt, hnrest, hdt⟩ := nodup_append.mp h.nodup
  obtain ⟨hnu, hnts, hdu⟩ := nodup_append.mp hnrest
  have hltt : t.label < next := h.lt _ (mem_append_left _ t.label_mem_labels)
  have hltu : u.label < next :=
    h.lt _ (mem_append_right _ (mem_append_left _ u.label_mem_labels))
  -- Only the two roots get a parent, and they are in no other tree.
  have hkeep : ∀ i, i ≠ t.label → i ≠ u.label → join parent t.label u.label next i = parent i := by
    intro i hit hiu
    rw [join, if_neg hiu, if_neg hit]
  have hother : ∀ v ∈ ts, ∀ i ∈ v.labels, join parent t.label u.label next i = parent i := by
    intro v hv i hi
    have hmem : i ∈ ts.flatMap Tree.labels := mem_flatMap.mpr ⟨v, hv, hi⟩
    refine hkeep i (fun heq => ?_) (fun heq => ?_)
    · exact hdt _ t.label_mem_labels _ (mem_append_right _ hmem) heq.symm
    · exact hdu _ u.label_mem_labels _ hmem heq.symm
  refine ⟨?_, ?_, ?_, ?_, ?_, ?_, ?_⟩
  · refine (hperm.flatMap_right Tree.leaves).trans (List.Perm.trans ?_ h.leaves_perm)
    simp only [flatMap_cons, Tree.leaves, append_assoc]
    exact List.Perm.refl _
  · exact hlabels.nodup_iff.mpr (nodup_cons.mpr ⟨fun hi => Nat.lt_irrefl _ (h.lt _ hi), h.nodup⟩)
  · intro i hi
    rcases mem_cons.mp (hlabels.mem_iff.mp hi) with rfl | hi
    · exact Nat.lt_succ_self i
    · exact Nat.lt_succ_of_lt (h.lt i hi)
  · intro v hv
    rcases mem_insertKey.mp hv with rfl | hv
    · have htu : t.label ≠ u.label :=
        hdt _ t.label_mem_labels _ (mem_append_left _ u.label_mem_labels)
      refine ⟨?_, if_pos rfl, ?_, ?_⟩
      · rw [join, if_neg htu, if_pos rfl]
      · refine (h.linked t mem_cons_self).congr (fun i hi hne => hkeep i hne ?_) hnt
        exact hdt i hi _ (mem_append_left _ u.label_mem_labels)
      · refine (h.linked u (mem_cons_of_mem _ mem_cons_self)).congr (fun i hi hne => ?_) hnu
        exact hkeep i (hdt _ t.label_mem_labels _ (mem_append_left _ hi)).symm hne
    · have hmem : v ∈ t :: u :: ts := mem_cons_of_mem _ (mem_cons_of_mem _ hv)
      refine (h.linked v hmem).congr (fun i hi _ => hother v hv i hi) ?_
      exact (nodup_flatMap.mp hnts).1 v hv
  · intro v hv
    rcases mem_insertKey.mp hv with rfl | hv
    · exact (hkeep next (Nat.ne_of_gt hltt) (Nat.ne_of_gt hltu)).trans
        (h.fresh next (Nat.le_refl _))
    · rw [hother v hv _ v.label_mem_labels, h.root v (mem_cons_of_mem _ (mem_cons_of_mem _ hv))]
  · intro i hi
    rw [hkeep i (by omega) (by omega), h.fresh i (by omega)]
  · obtain ⟨low, hbal⟩ := h.balanced
    exact ⟨_, hbal.merge next⟩

/-- A tree over leaves of total weight `w` is of logarithmic height. -/
theorem Forest.fib_le {leaves : List (Nat × Nat)} (h : Forest leaves next parent [t]) :
    Nat.fib (t.height + 1) ≤ (leaves.map snd).sum := by
  obtain ⟨low, hbal⟩ := h.balanced
  have hperm := h.leaves_perm
  rw [flatMap_singleton] at hperm
  rw [← (hperm.map snd).sum_eq, ← t.weight_eq_sum]
  exact hbal.fib_le t mem_cons_self

end Huffman
