import Fsmnt.ForStd.Predecessor
import Fsmnt.Spec.FsApfs.Lookups

/-!
# Object maps are snapshot lookups

The tree of an object map denotes the list of its mappings. A lookup goes to the leaf with the
predecessor of the key, which is the newest mapping that is not above the transaction, or belongs to
another object.
-/

namespace Fsmnt.FsApfs

open Bytes EStateM Except List Option Relation Omap BtreeNode

/-! ### Searching a node -/

namespace BtreeNode

variable {compare : Bytes → Bytes → Ordering} {node : BtreeNode} {search : Bytes}
  {keyLen valLen : Nat} {entries : Nat → Entry}

/-- The binary search finds where the keys get above the search key. -/
theorem searchLoop_eq (hentry : ∀ i, i < node.nkeys → node.entry i keyLen valLen = .ok (entries i))
    (hmono : ∀ i j, i ≤ j → j < node.nkeys → compare (entries i).key search = .gt →
      compare (entries j).key search = .gt) (start : Option Nat) (passes : Nat) :
    ∀ lo hi, lo ≤ hi → hi ≤ node.nkeys → hi - lo ≤ passes →
      (∀ i, i < lo → compare (entries i).key search ≠ .gt) →
      (∀ i, hi ≤ i → i < node.nkeys → compare (entries i).key search = .gt) →
      ∃ split, split ≤ node.nkeys ∧
        (∀ i, i < node.nkeys → (compare (entries i).key search ≠ .gt ↔ i < split)) ∧
        node.searchLoop compare search keyLen valLen passes
          (if lo = 0 then start else some (lo - 1)) lo hi =
            .ok (if split = 0 then start else some (split - 1)) := by
  have hdone : ∀ lo, lo ≤ node.nkeys → (∀ i, i < lo → compare (entries i).key search ≠ .gt) →
      (∀ i, lo ≤ i → i < node.nkeys → compare (entries i).key search = .gt) →
      ∀ i, i < node.nkeys → (compare (entries i).key search ≠ .gt ↔ i < lo) := by
    intro lo _ hbelow habove i hi
    refine ⟨fun hne => ?_, hbelow i⟩
    exact Nat.lt_of_not_le fun hle => hne (habove i hle hi)
  induction passes with
  | zero =>
    intro lo hi hle hn hpasses hbelow habove
    obtain rfl : lo = hi := by omega
    exact ⟨lo, hn, hdone lo hn hbelow habove, rfl⟩
  | succ passes ih =>
    intro lo hi hle hn hpasses hbelow habove
    by_cases hlt : lo < hi
    · rw [searchLoop, if_pos hlt]
      -- the middle is inside the interval, so that either half is shorter
      have hmid : lo ≤ lo + (hi - lo) / 2 ∧ lo + (hi - lo) / 2 < hi := by omega
      generalize lo + (hi - lo) / 2 = mid at hmid
      simp only [hentry mid (by omega)]
      split
      · rename_i hgt
        exact ih lo mid hmid.1 (by omega) (by omega) hbelow fun i hi' hin => hmono mid i hi' hin hgt
      rename_i hgt
      have hnext := ih (mid + 1) hi hmid.2 hn (by omega)
        (fun i hi' habove' => hgt (hmono i mid (by omega) (by omega) habove')) habove
      rwa [if_neg (by omega)] at hnext
    · obtain rfl : lo = hi := by omega
      rw [searchLoop, if_neg hlt]
      exact ⟨lo, hn, hdone lo hn hbelow habove, rfl⟩

end BtreeNode

/-! ### What a tree denotes -/

/-- A mapping of an object map. -/
structure Mapping where
  oid : Nat
  xid : Nat
  xid_lt : xid < 2 ^ 64
  value : OmapValue

/-- The place of a key in the order. -/
def keyRank (oid xid : Nat) : Nat := oid * 2 ^ 64 + xid

def Mapping.rank (m : Mapping) : Nat := keyRank m.oid m.xid

theorem readU64_lt (bytes : Bytes) (off : Nat) : readU64 bytes off < 2 ^ 64 := by
  have hlt := ofLE_lt (bytes.slice off 8)
  have hle : (256 : Nat) ^ (bytes.slice off 8).length ≤ 256 ^ 8 :=
    Nat.pow_le_pow_right (by decide) (by rw [length_slice]; exact Nat.min_le_left _ _)
  unfold readU64
  omega

/-- The rank of a key in a node. -/
def rankOf (key : Bytes) : Nat := keyRank (readU64 key 0) (readU64 key 8)

/-- `omap_key_cmp` compares ranks. -/
theorem omapKeyCmp_gt_iff {a b : Bytes} : omapKeyCmp a b = .gt ↔ rankOf b < rankOf a := by
  have ha := readU64_lt a 8
  have hb := readU64_lt b 8
  unfold omapKeyCmp rankOf keyRank
  split
  · rename_i heq
    rw [Nat.compare_eq_eq] at heq
    rw [Nat.compare_eq_gt]
    omega
  rename_i hne
  rw [Nat.compare_eq_gt]
  have hoid : readU64 a 0 ≠ readU64 b 0 := fun heq => hne (Nat.compare_eq_eq.mpr heq)
  omega

/-- An entry of a leaf. -/
def decodeValue (value : Bytes) : OmapValue where
  flags := value.le32 0
  size := value.le32 4
  paddr := toI64 (Bytes.ofLE (value.slice 8 8))

/-- The entry is the mapping. -/
structure Entry.Holds (entry : Entry) (m : Mapping) : Prop where
  oid : readU64 entry.key 0 = m.oid
  xid : readU64 entry.key 8 = m.xid
  value : ∃ value, entry.value = some value ∧ 16 ≤ value.length ∧ decodeValue value = m.value

/-- The entry of a node that is no leaf names a child, with the first key of it. -/
structure Entry.LinksTo (entry : Entry) (image : ByteImage) (blockSize : Nat) (child : BtreeNode)
    (ms : List Mapping) : Prop where
  link : ∃ value, entry.value = some value ∧ 8 ≤ value.length ∧
    NodeAt image blockSize (Bytes.ofLE (value.slice 0 8)) child
  separator : ∃ first, ms.head? = some first ∧ readU64 entry.key 0 = first.oid ∧
    readU64 entry.key 8 = first.xid

/-- The tree below a node, of some depth, holds the mappings; `info` has the sizes of keys and
    values. -/
def Denotes (image : ByteImage) (blockSize : Nat) (info : Nat × Nat) :
    Nat → BtreeNode → List Mapping → Prop
  | 0, node, ms => node.isLeaf = true ∧ node.nkeys = ms.length ∧
      ∀ i m, ms[i]? = some m → ∃ entry, node.entry i info.1 info.2 = .ok entry ∧ entry.Holds m
  | depth + 1, node, ms => node.isLeaf = false ∧ ∃ pieces : List (List Mapping),
      pieces ≠ [] ∧ node.nkeys = pieces.length ∧ ms = pieces.flatten ∧
      ∀ i piece, pieces[i]? = some piece → ∃ entry child, node.entry i info.1 8 = .ok entry ∧
        entry.LinksTo image blockSize child piece ∧ Denotes image blockSize info depth child piece

/-- The object map has a sound tree, which holds the mappings, sorted by object and transaction. -/
def Omap.WellFormed (self : Omap) (image : ByteImage) (blockSize : Nat) (ms : List Mapping) :
    Prop :=
  ∃ root info depth, NodeAt image blockSize self.treeOid root ∧ rootInfo root = .ok info ∧
    Denotes image blockSize info depth root ms ∧ ms.Pairwise fun a b => a.rank < b.rank

/-- The mapping stored for the object with the greatest transaction that is not above `xid`. -/
def Newest (ms : List Mapping) (oid xid : Nat) (m : Mapping) : Prop :=
  m ∈ ms ∧ m.oid = oid ∧ m.xid ≤ xid ∧ ∀ other ∈ ms, other.oid = oid → other.xid ≤ xid →
    other.xid ≤ m.xid

/-- The mapping is marked as deleted. -/
def Mapping.Deleted (m : Mapping) : Prop := m.value.flags.testBit 0 = true

instance (m : Mapping) : Decidable m.Deleted := inferInstanceAs (Decidable (_ = true))

/-! ### The way to the leaf -/

section Way

variable {image : ByteImage} {blockSize oid xid : Nat} {info : Nat × Nat} {node : BtreeNode}
  {ms : List Mapping}

variable (hoid : oid < 2 ^ 64) (hxid : xid < 2 ^ 64) {depth : Nat}

include hoid hxid

theorem rankOf_searchKey : rankOf (searchKey oid xid) = keyRank oid xid := by
  have hpow : (2 : Nat) ^ 64 = 256 ^ 8 := by decide
  have hkeyOid : readU64 (searchKey oid xid) 0 = oid := by
    exact ofLE_toLE 8 oid (hpow ▸ hoid)
  have hkeyXid : readU64 (searchKey oid xid) 8 = xid := by
    exact ofLE_toLE 8 xid (hpow ▸ hxid)
  rw [rankOf, hkeyOid, hkeyXid]

/-- Searching a node whose keys can be read and have these ranks. -/
theorem searchLoop_eq_of_sorted {keyLen valLen : Nat} {ranks : List Nat}
    (hkeys : node.nkeys = ranks.length)
    (hread : ∀ i rank, ranks[i]? = some rank →
      ∃ entry, node.entry i keyLen valLen = .ok entry ∧ rankOf entry.key = rank)
    (hsorted : ranks.Pairwise (· < ·)) (start : Option Nat) : ∃ split, split ≤ ranks.length ∧
      (∀ i rank, ranks[i]? = some rank → (rank ≤ keyRank oid xid ↔ i < split)) ∧
      node.searchLoop omapKeyCmp (searchKey oid xid) keyLen valLen node.nkeys start 0 node.nkeys =
        .ok (if split = 0 then start else some (split - 1)) := by
  have hchoice : ∀ i, ∃ entry, ∀ rank, ranks[i]? = some rank →
      node.entry i keyLen valLen = .ok entry ∧ rankOf entry.key = rank := by
    intro i
    cases hrank : ranks[i]? with
    | none => exact ⟨⟨[], none⟩, nofun⟩
    | some rank =>
      obtain ⟨entry, hentry⟩ := hread i rank hrank
      exact ⟨entry, by rintro _ ⟨⟩; exact hentry⟩
  obtain ⟨entries, hentries⟩ := Classical.axiomOfChoice hchoice
  have hentry : ∀ i (hi : i < node.nkeys), node.entry i keyLen valLen = .ok (entries i) ∧
      rankOf (entries i).key = ranks[i] := fun i hi =>
    hentries i _ (getElem?_eq_getElem (hkeys ▸ hi))
  have hgt : ∀ i, omapKeyCmp (entries i).key (searchKey oid xid) = .gt ↔
      keyRank oid xid < rankOf (entries i).key := by
    intro i
    rw [omapKeyCmp_gt_iff, rankOf_searchKey hoid hxid]
  have hmono : ∀ i j, i ≤ j → j < node.nkeys →
      omapKeyCmp (entries i).key (searchKey oid xid) = .gt →
      omapKeyCmp (entries j).key (searchKey oid xid) = .gt := by
    intro i j hij hj habove
    rw [hgt, (hentry _ (by omega)).2] at habove ⊢
    obtain rfl | hlt := Nat.eq_or_lt_of_le hij
    · exact habove
    · exact Nat.lt_trans habove (pairwise_iff_getElem.mp hsorted i j _ _ hlt)
  obtain ⟨split, hle, hsplit, hloop⟩ := searchLoop_eq (fun i hi => (hentry i hi).1) hmono
    start node.nkeys 0 node.nkeys (Nat.zero_le _) (Nat.le_refl _) (Nat.le_refl _)
    (fun i hi => absurd hi (Nat.not_lt_zero i)) (fun i hi hlt => absurd hlt (Nat.not_lt.mpr hi))
  refine ⟨split, hkeys ▸ hle, fun i rank hrank => ?_, hloop⟩
  have hi : i < node.nkeys := hkeys ▸ (List.getElem?_eq_some_iff.mp hrank).1
  rw [← hsplit i hi, Ne, hgt, Nat.not_lt, (hentries i rank hrank).2]

/-- The child that a search goes to has the predecessor of the key. -/
theorem exists_childFor (h : Denotes image blockSize info (depth + 1) node ms)
    (hsorted : ms.Pairwise fun a b => a.rank < b.rank) : ∃ child piece,
      ChildFor omapKeyCmp (NodeAt image blockSize) (searchKey oid xid) info.1 node child ∧
      Denotes image blockSize info depth child piece ∧
      (piece.Pairwise fun a b => a.rank < b.rank) ∧
      ms.predecessor Mapping.rank (keyRank oid xid) =
        piece.predecessor Mapping.rank (keyRank oid xid) := by
  obtain ⟨hleaf, pieces, hne, hkeys, rfl, hpieces⟩ := h
  obtain ⟨heach, hacross⟩ := pairwise_flatten.mp hsorted
  -- a separator has the rank of the first mapping of its piece
  let rank : List Mapping → Nat := fun piece => (piece.head?.map Mapping.rank).getD 0
  have hread : ∀ i piece, pieces[i]? = some piece → ∃ entry first,
      node.entry i info.1 8 = .ok entry ∧
      piece.head? = some first ∧ rankOf entry.key = first.rank ∧ rank piece = first.rank := by
    intro i piece hpiece
    obtain ⟨entry, child, hentry, hlinks, -⟩ := hpieces i piece hpiece
    obtain ⟨first, hfirst, hkeyOid, hkeyXid⟩ := hlinks.separator
    exact ⟨entry, first, hentry, hfirst, by rw [rankOf, hkeyOid, hkeyXid, Mapping.rank],
      by simp [rank, hfirst]⟩
  have hranks : (pieces.map rank).Pairwise (· < ·) := by
    refine pairwise_map.mpr (hacross.imp_of_mem fun ha hb hlt => ?_)
    obtain ⟨i, hi⟩ := getElem?_of_mem ha
    obtain ⟨j, hj⟩ := getElem?_of_mem hb
    obtain ⟨-, first, -, hfirst, -, hrank⟩ := hread i _ hi
    obtain ⟨-, first', -, hfirst', -, hrank'⟩ := hread j _ hj
    rw [hrank, hrank']
    exact hlt first (mem_of_mem_head? hfirst) first' (mem_of_mem_head? hfirst')
  have hkeyed : ∀ i r, (pieces.map rank)[i]? = some r →
      ∃ entry, node.entry i info.1 8 = .ok entry ∧ rankOf entry.key = r := by
    intro i r hr
    rw [getElem?_map, Option.map_eq_some_iff] at hr
    obtain ⟨piece, hpiece, rfl⟩ := hr
    obtain ⟨entry, first, hentry, -, hkey, hrank⟩ := hread i piece hpiece
    exact ⟨entry, hentry, hkey.trans hrank.symm⟩
  obtain ⟨split, hle, hsplit, hloop⟩ := searchLoop_eq_of_sorted hoid hxid
    (by rw [hkeys, length_map]) hkeyed hranks (some 0)
  rw [length_map] at hle
  have hpos : 0 < pieces.length := length_pos_iff.mpr hne
  -- before every key the search goes to the first child as well
  have hindex : node.childIndex omapKeyCmp (searchKey oid xid) info.1 = .ok (split - 1) := by
    rw [childIndex, if_neg (by omega), hloop]
    split
    · rename_i hzero
      rw [hzero]
      rfl
    · rfl
  have hlt : split - 1 < pieces.length := by omega
  obtain ⟨entry, child, hentry, hlinks, hchild⟩ := hpieces (split - 1) _ (getElem?_eq_getElem hlt)
  obtain ⟨value, hvalue, hlong, hnode⟩ := hlinks.link
  refine ⟨child, pieces[split - 1], ⟨hleaf, _, ?_, hnode⟩, hchild, heach _ (getElem_mem hlt), ?_⟩
  · rw [childLink]
    simp only [Except.bind_eq_ok_iff]
    refine ⟨split - 1, hindex, entry, hentry, ?_⟩
    rw [hvalue]
    exact if_neg (Nat.not_lt.mpr hlong)
  · apply predecessor_flatten hsorted _ (getElem?_eq_getElem hlt)
    intro i piece hpiece
    obtain ⟨-, first, -, hfirst, -, hrank⟩ := hread i piece hpiece
    exact ⟨first, hfirst, hrank ▸ hsplit i (rank piece) (by simp [hpiece])⟩

/-- The way ends at a leaf that has the predecessor of the key. -/
theorem exists_leaf (h : Denotes image blockSize info depth node ms)
    (hsorted : ms.Pairwise fun a b => a.rank < b.rank) : ∃ leaf piece,
      ReflTransGen (ChildFor omapKeyCmp (NodeAt image blockSize) (searchKey oid xid) info.1) node
        leaf ∧
      Denotes image blockSize info 0 leaf piece ∧ (piece.Pairwise fun a b => a.rank < b.rank) ∧
      ms.predecessor Mapping.rank (keyRank oid xid) =
        piece.predecessor Mapping.rank (keyRank oid xid) := by
  induction depth generalizing node ms with
  | zero => exact ⟨node, ms, .refl, h, hsorted, rfl⟩
  | succ depth ih =>
    obtain ⟨child, piece, hchild, hdenotes, hpieceSorted, hpred⟩ :=
      exists_childFor hoid hxid h hsorted
    obtain ⟨leaf, last, hreach, hlast, hlastSorted, hpred'⟩ := ih hdenotes hpieceSorted
    exact ⟨leaf, last, hreach.head hchild, hlast, hlastSorted, hpred.trans hpred'⟩

/-- In a leaf the entry with the predecessor is found. -/
theorem findLe_eq (h : Denotes image blockSize info 0 node ms)
    (hsorted : ms.Pairwise fun a b => a.rank < b.rank) :
    ∃ found, node.findLe omapKeyCmp (searchKey oid xid) info.1 info.2 = .ok found ∧
      ((found = none ∧ ms.predecessor Mapping.rank (keyRank oid xid) = none) ∨
        ∃ entry m, found = some entry ∧ entry.Holds m ∧
          ms.predecessor Mapping.rank (keyRank oid xid) = some m) := by
  obtain ⟨-, hkeys, hentries⟩ := h
  have hread : ∀ i rank, (ms.map Mapping.rank)[i]? = some rank →
      ∃ entry, node.entry i info.1 info.2 = .ok entry ∧ rankOf entry.key = rank := by
    intro i rank hrank
    rw [getElem?_map, Option.map_eq_some_iff] at hrank
    obtain ⟨m, hm, rfl⟩ := hrank
    obtain ⟨entry, hentry, hholds⟩ := hentries i m hm
    exact ⟨entry, hentry, by rw [rankOf, hholds.oid, hholds.xid, Mapping.rank]⟩
  obtain ⟨split, hle, hsplit, hloop⟩ := searchLoop_eq_of_sorted hoid hxid
    (by rw [hkeys, length_map]) hread (pairwise_map.mpr hsorted) none
  rw [length_map] at hle
  have hpred : ms.predecessor Mapping.rank (keyRank oid xid) =
      if split = 0 then none else ms[split - 1]? :=
    predecessor_eq_of_split hle fun i m hm => hsplit i m.rank (by simp [hm])
  by_cases hzero : split = 0
  · refine ⟨none, ?_, .inl ⟨rfl, ?_⟩⟩
    · rw [findLe, hloop, if_pos hzero]
    · rw [hpred, if_pos hzero]
  have hlt : split - 1 < ms.length := by omega
  obtain ⟨entry, hentry, hholds⟩ := hentries (split - 1) _ (getElem?_eq_getElem hlt)
  refine ⟨some entry, ?_, .inr ⟨entry, _, rfl, hholds, ?_⟩⟩
  · rw [findLe, hloop, if_neg hzero]
    simp only [hentry, Except.map]
  · rw [hpred, if_neg hzero, getElem?_eq_getElem hlt]

end Way

/-! ### What a lookup returns -/

section Resolve

variable {ε σ : Type} {fs : BlockReader ε σ} {image : ByteImage} {pos : σ → Nat} {D H : σ → Prop}
  {ms : List Mapping} {blockSize oid xid : Nat} {m : Mapping}

/-- The predecessor is the newest mapping of the object, unless it belongs to another one. -/
theorem newest_iff (hxid : xid < 2 ^ 64) (hsorted : ms.Pairwise fun a b => a.rank < b.rank) :
    Newest ms oid xid m ↔
      ms.predecessor Mapping.rank (keyRank oid xid) = some m ∧ m.oid = oid := by
  rw [predecessor_eq_some_iff hsorted]
  -- below, ranks are compared as pairs
  have hle : ∀ other : Mapping, other.oid = oid →
    (other.rank ≤ keyRank oid xid ↔ other.xid ≤ xid) := by
    rintro other rfl
    simp only [Mapping.rank, keyRank]
    omega
  constructor
  · rintro ⟨hm, hoid, hmxid, hmax⟩
    refine ⟨⟨hm, (hle m hoid).mpr hmxid, fun other hother hrank => ?_⟩, hoid⟩
    have hxid' := other.xid_lt
    by_cases hsame : other.oid = oid
    · have hnewer := hmax other hother hsame ((hle other hsame).mp hrank)
      rw [Mapping.rank, Mapping.rank, hsame, hoid]
      exact Nat.add_le_add_left hnewer _
    -- a mapping of another object that is not above the key is one of an earlier object
    rw [Mapping.rank, keyRank] at hrank ⊢
    rw [Mapping.rank, keyRank, hoid]
    obtain hlt | hgt := Nat.lt_or_gt_of_ne hsame
    · omega
    · unfold keyRank at hrank
      omega
  · rintro ⟨⟨hm, hrank, hmax⟩, hoid⟩
    refine ⟨hm, hoid, (hle m hoid).mp hrank, fun other hother hsame hoxid => ?_⟩
    have hother := hmax other hother ((hle other hsame).mpr hoxid)
    simp only [Mapping.rank, keyRank, hoid] at hother
    omega

/-- What a lookup has to return. -/
def Answers (ms : List Mapping) (oid xid : Nat) (found : Option OmapValue) : Prop :=
  ∀ value, found = some value ↔ ∃ m, Newest ms oid xid m ∧ ¬ m.Deleted ∧ m.value = value

/-- What is made of the predecessor. -/
theorem exists_mapping_eq (hxid : xid < 2 ^ 64) (hsorted : ms.Pairwise fun a b => a.rank < b.rank)
    {entry : Entry} (hentry : entry.Holds m)
    (hpred : ms.predecessor Mapping.rank (keyRank oid xid) = some m) :
    ∃ found, mapping oid (entry.value.map fun value => (entry.key, value)) = .ok found ∧
      Answers ms oid xid found := by
  obtain ⟨value, hvalue, hlong, hdecode⟩ := hentry.value
  have honly : ∀ m', Newest ms oid xid m' ↔ m' = m ∧ m.oid = oid := by
    intro m'
    rw [newest_iff hxid hsorted, hpred, some.injEq]
    constructor
    · rintro ⟨rfl, hoid⟩
      exact ⟨rfl, hoid⟩
    · rintro ⟨rfl, hoid⟩
      exact ⟨rfl, hoid⟩
  rw [hvalue, map_some]
  by_cases hoid : m.oid = oid
  · have hflags : value.le32 0 = m.value.flags := by rw [← hdecode, decodeValue]
    by_cases hdeleted : m.value.flags.testBit 0 = true
    · refine ⟨none, ?_, fun v => ⟨nofun, ?_⟩⟩
      · rw [mapping, if_neg (by rw [hentry.oid]; exact not_not.mpr hoid),
          if_neg (Nat.not_lt.mpr hlong), hflags, if_pos hdeleted]
      · rintro ⟨m', hm', hnot, -⟩
        obtain ⟨rfl, -⟩ := (honly m').mp hm'
        exact absurd hdeleted hnot
    refine ⟨some m.value, ?_, fun v => ⟨fun h => ?_, ?_⟩⟩
    · rw [mapping, if_neg (by rw [hentry.oid]; exact not_not.mpr hoid),
        if_neg (Nat.not_lt.mpr hlong), if_neg (by rw [hflags]; exact hdeleted), ← hdecode]
      rfl
    · exact ⟨m, (honly m).mpr ⟨rfl, hoid⟩, hdeleted, some.inj h⟩
    · rintro ⟨m', hm', -, rfl⟩
      obtain ⟨rfl, -⟩ := (honly m').mp hm'
      rfl
  · refine ⟨none, ?_, fun v => ⟨nofun, ?_⟩⟩
    · rw [mapping, if_pos (by rw [hentry.oid]; exact hoid)]
    · rintro ⟨m', hm', -, -⟩
      exact absurd ((honly m').mp hm').2 hoid

/-- In a sound tree the way to the key ends, at the answer. -/
theorem Omap.WellFormed.exists_maps {self : Omap} (h : self.WellFormed image blockSize ms)
    (hoid : oid < 2 ^ 64) (hxid : xid < 2 ^ 64) :
    ∃ found, self.Maps image blockSize oid xid found ∧ Answers ms oid xid found := by
  obtain ⟨root, info, depth, hroot, hinfo, hdenotes, hsorted⟩ := h
  obtain ⟨leaf, piece, hreach, hleaf, hpiece, hpred⟩ := exists_leaf hoid hxid hdenotes hsorted
  obtain ⟨found, hfind, hfound⟩ := findLe_eq hoid hxid hleaf hpiece
  have hway : LeafFor omapKeyCmp (NodeAt image blockSize) (searchKey oid xid) root info leaf :=
    ⟨hinfo, hreach, hleaf.1⟩
  have hpair : pairOfLe omapKeyCmp (searchKey oid xid) info leaf =
      .ok (found.bind fun entry => entry.value.map fun value => (entry.key, value)) := by
    rw [pairOfLe, hfind]
    rfl
  obtain ⟨rfl, hnone⟩ | ⟨entry, m, rfl, hentry, hm⟩ := hfound
  · refine ⟨none, ⟨root, hroot, none, ⟨info, leaf, hway, hpair⟩, rfl⟩, fun v => ⟨nofun, ?_⟩⟩
    rintro ⟨m, hm, -, -⟩
    rw [newest_iff hxid hsorted, hpred, hnone] at hm
    cases hm.1
  · obtain ⟨answer, hmapping, hanswer⟩ := exists_mapping_eq hxid hsorted hentry (hpred.trans hm)
    exact ⟨answer, ⟨root, hroot, _, ⟨info, leaf, hway, hpair⟩, hmapping⟩, hanswer⟩

/-- A call of `resolve`; it may also end before it is done. -/
structure ResolveCall where
  blockSize : Nat
  fuel : Nat
  oid : Nat
  xid : Nat

/-- The state after a call, however it ends. -/
def Omap.after (fs : BlockReader ε σ) (self : Omap) (s : OmapState σ) (call : ResolveCall) :
    OmapState σ :=
  (self.resolve fs call.blockSize call.fuel call.oid call.xid s).state

theorem Omap.inv_after (hfs : fs.ReadsImage image pos D) (self : Omap) {s : OmapState σ}
    (hs : Inv image D s) (call : ResolveCall) : Inv image D (self.after fs s call) :=
  (((computes_resolve ⟨hfs, False.elim⟩ self call.blockSize call.oid call.xid).post call.fuel s
    hs).mono (fun _ _ hok => hok.1) fun _ _ hfail => hfail.1).state

/-- After any lookups, with any failures of the device and whatever the cache has evicted, a lookup
    returns the newest mapping of the object that is not above the transaction, unless it is
    deleted. It fails only when the device does. -/
theorem resolve_is_snapshot_lookup (hfs : fs.ReadsImage image pos D)
    (hserves : fs.ServesImage image pos H) {self : Omap}
    (hwf : self.WellFormed image blockSize ms) (hoid : oid < 2 ^ 64) (hxid : xid < 2 ^ 64) :
    ∃ enough, ∀ fuel, enough ≤ fuel → ∀ d (calls : List ResolveCall), D d →
      Post (self.resolve fs blockSize fuel oid xid) (calls.foldl (self.after fs) ⟨d, []⟩)
        (fun found _ => Answers ms oid xid found)
        (fun _ _ => ¬ H (calls.foldl (self.after fs) ⟨d, []⟩).fs) := by
  obtain ⟨answer, hmaps, hanswer⟩ := hwf.exists_maps hoid hxid
  have hD := computes_resolve ⟨hfs, False.elim⟩ self blockSize oid xid
  have hH := computes_resolve hserves.provides self blockSize oid xid
  obtain ⟨enoughD, hokD⟩ := hD.exists_ok (hD.exclusive hmaps) hmaps
  obtain ⟨enoughH, hokH⟩ := hH.exists_ok (hH.exclusive hmaps) hmaps
  refine ⟨max enoughD enoughH, fun fuel hfuel d calls hd => ?_⟩
  have hinv : Omap.Inv image D (calls.foldl (self.after fs) ⟨d, []⟩) :=
    foldlRecOn calls _ ⟨hd, BtreeNodeCache.truthful_nil⟩ fun _ hs call _ =>
      self.inv_after hfs hs call
  generalize calls.foldl (self.after fs) ⟨d, []⟩ = s at hinv ⊢
  by_cases hs : H s.fs
  · apply (hokH fuel (by omega) s ⟨hs, hinv.nodeCache⟩).mono
    · rintro found _ ⟨-, rfl⟩
      exact hanswer
    · exact fun _ _ hfail => absurd trivial hfail.2
  apply (hokD fuel (by omega) s hinv).mono
  · rintro found _ ⟨-, rfl⟩
    exact hanswer
  · exact fun _ _ _ => hs

end Resolve

/-- The mappings of the two leaves of `twoLevelTree`. -/
private def leftMappings : List Mapping :=
  [⟨1, 2, by decide, ⟨0, 0, 10⟩⟩, ⟨1, 5, by decide, ⟨0, 0, 11⟩⟩]

private def rightMappings : List Mapping :=
  [⟨1, 7, by decide, ⟨1, 0, 0⟩⟩, ⟨2, 3, by decide, ⟨0, 0, 12⟩⟩]

theorem twoLevelTree_wellFormed :
    firstOmap.WellFormed twoLevelTree 4096 (leftMappings ++ rightMappings) := by
  have hroot : (blockNode twoLevelTree 1).entry 0 16 8 = .ok ⟨searchKey 1 2, some (toLE 8 2)⟩ ∧
      (blockNode twoLevelTree 1).entry 1 16 8 = .ok ⟨searchKey 1 7, some (toLE 8 3)⟩ := by
    decide +kernel
  have hleft : (blockNode twoLevelTree 2).entry 0 16 16 =
        .ok ⟨searchKey 1 2, some (zeros 8 ++ toLE 8 10)⟩ ∧
      (blockNode twoLevelTree 2).entry 1 16 16 =
        .ok ⟨searchKey 1 5, some (zeros 8 ++ toLE 8 11)⟩ := by
    decide +kernel
  have hright : (blockNode twoLevelTree 3).entry 0 16 16 =
        .ok ⟨searchKey 1 7, some (toLE 8 1 ++ zeros 8)⟩ ∧
      (blockNode twoLevelTree 3).entry 1 16 16 =
        .ok ⟨searchKey 2 3, some (zeros 8 ++ toLE 8 12)⟩ := by
    decide +kernel
  obtain ⟨hnode, hnodeLeft, hnodeRight⟩ := twoLevelTree_nodeAt
  have hdenotesLeft : Denotes twoLevelTree 4096 (16, 16) 0 (blockNode twoLevelTree 2)
      leftMappings := by
    refine ⟨by decide +kernel, by decide +kernel, ?_⟩
    rintro (_ | _ | i) m hm
    · cases hm
      exact ⟨_, hleft.1, by decide, by decide, _, rfl, by decide, by decide⟩
    · cases hm
      exact ⟨_, hleft.2, by decide, by decide, _, rfl, by decide, by decide⟩
    · cases hm
  have hdenotesRight : Denotes twoLevelTree 4096 (16, 16) 0 (blockNode twoLevelTree 3)
      rightMappings := by
    refine ⟨by decide +kernel, by decide +kernel, ?_⟩
    rintro (_ | _ | i) m hm
    · cases hm
      exact ⟨_, hright.1, by decide, by decide, _, rfl, by decide, by decide⟩
    · cases hm
      exact ⟨_, hright.2, by decide, by decide, _, rfl, by decide, by decide⟩
    · cases hm
  refine ⟨blockNode twoLevelTree 1, (16, 16), 1, hnode, by decide +kernel, ⟨by decide +kernel,
    [leftMappings, rightMappings], cons_ne_nil _ _, by decide +kernel, rfl, ?_⟩, by decide⟩
  rintro (_ | _ | i) piece hpiece
  · cases hpiece
    exact ⟨_, _, hroot.1, ⟨⟨_, rfl, by decide, hnodeLeft⟩, _, rfl, by decide, by decide⟩,
      hdenotesLeft⟩
  · cases hpiece
    exact ⟨_, _, hroot.2, ⟨⟨_, rfl, by decide, hnodeRight⟩, _, rfl, by decide, by decide⟩,
      hdenotesRight⟩
  · cases hpiece

/-- Object 1 in transaction 6 is the mapping of transaction 5, also after a lookup in transaction 9,
    where it is deleted. -/
theorem resolve_is_snapshot_lookup_two_levels :
    (∃ fuel t, firstOmap.resolve (twoLevelTree.reader ()) 4096 fuel 1 6
      (firstOmap.after (twoLevelTree.reader ()) ⟨0, []⟩ ⟨4096, 3, 1, 9⟩) =
        .ok (some ⟨0, 0, 11⟩) t) ∧
    ∃ fuel t, firstOmap.resolve (twoLevelTree.reader ()) 4096 fuel 1 9 ⟨0, []⟩ = .ok none t := by
  have hserves := twoLevelTree.reader_serves ()
  -- the device does not fail, so every call succeeds, after any calls
  have hall : ∀ xid, xid < 2 ^ 64 → ∀ calls : List ResolveCall, ∃ fuel found t,
      firstOmap.resolve (twoLevelTree.reader ()) 4096 fuel 1 xid
        (calls.foldl (firstOmap.after (twoLevelTree.reader ())) ⟨0, []⟩) = .ok found t ∧
      Answers (leftMappings ++ rightMappings) 1 xid found := by
    intro xid hxid calls
    obtain ⟨enough, hfound⟩ := resolve_is_snapshot_lookup hserves.toReadsImage hserves
      twoLevelTree_wellFormed (show 1 < 2 ^ 64 by decide) hxid
    exact ⟨enough, ((hfound enough (Nat.le_refl _) 0 calls True.intro).mono (fun _ _ h => h)
      fun _ _ h => h True.intro).exists_ok⟩
  constructor
  · obtain ⟨fuel, found, t, hrun, hanswer⟩ := hall 6 (by decide) [⟨4096, 3, 1, 9⟩]
    have hsome : found = some ⟨0, 0, 11⟩ := (hanswer _).mpr
      ⟨⟨1, 5, by decide, ⟨0, 0, 11⟩⟩, by simp [Newest, leftMappings, rightMappings], by decide, rfl⟩
    rw [foldl_cons, foldl_nil, hsome] at hrun
    exact ⟨fuel, t, hrun⟩
  · obtain ⟨fuel, found, t, hrun, hanswer⟩ := hall 9 (by decide) []
    have hnone : found = none := by
      refine eq_none_iff_forall_not_mem.mpr fun v hv => ?_
      obtain ⟨m, ⟨hm, hoid, -, hmax⟩, hdeleted, -⟩ := (hanswer v).mp hv
      have hseven : 7 ≤ m.xid :=
        hmax ⟨1, 7, by decide, ⟨1, 0, 0⟩⟩ (by simp [rightMappings]) rfl (by decide)
      simp only [leftMappings, rightMappings, cons_append, nil_append, mem_cons, not_mem_nil,
        or_false] at hm
      obtain rfl | rfl | rfl | rfl := hm
      · exact absurd hseven (by decide)
      · exact absurd hseven (by decide)
      · exact hdeleted rfl
      · exact absurd hoid (by decide)
    rw [foldl_nil, hnone] at hrun
    exact ⟨fuel, t, hrun⟩

end Fsmnt.FsApfs
