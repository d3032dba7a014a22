import Mathlib.Data.Set.Finite.Lattice
import Fsmnt.ForStd.ReadContent
import Fsmnt.Native.FsApfs.Omap

/-!
# Descents, without the device and the caches

A descent depends on the nodes that the child links name and on nothing else: not on where the
device stands, and not on which nodes happen to be cached. So what it comes to is stated over a
relation between links and nodes, and the cached reads of an object map are shown to realise this
relation.
-/

namespace Fsmnt.FsApfs

open Bytes EStateM List Relation Computes

variable {ε σ α : Type} {fs : BlockReader ε σ} {image : ByteImage} {pos : σ → Nat} {D : σ → Prop}
  {total : Prop}

variable {blockSize address : Nat} {node : BtreeNode}

/-! ### Nodes of the container -/

/-- The block is inside the container and holds the node. -/
structure NodeAt (image : ByteImage) (blockSize address : Nat) (node : BtreeNode) : Prop where
  addressable : address * blockSize < 2 ^ 64
  inside : address * blockSize + blockSize ≤ image.length
  parse : BtreeNode.parse (Bytes.window image.content (address * blockSize) blockSize) = .ok node

theorem NodeAt.unique {node' : BtreeNode} (h : NodeAt image blockSize address node)
    (h' : NodeAt image blockSize address node') : node = node' :=
  Except.ok.inj (h.parse.symm.trans h'.parse)

/-- What reading a block of the container comes to. -/
def blockAt (image : ByteImage) (blockSize address : Nat) : Except ApfsError Bytes :=
  if 2 ^ 64 ≤ address * blockSize then
    .error (.malformed "container" "block address overflows the device")
  else if image.length < address * blockSize + blockSize then .error .io
  else .ok (Bytes.window image.content (address * blockSize) blockSize)

/-- A block is read as the image has it, or it does not lie inside. -/
theorem post_readBlock (hfs : fs.Provides image pos D total) {s : σ} (hs : D s)
    (blockSize address : Nat) :
    Post (readBlock fs blockSize address) s (fun block t => D t ∧ address * blockSize < 2 ^ 64 ∧
        address * blockSize + blockSize ≤ image.length ∧
        block = window image.content (address * blockSize) blockSize)
      (fun e t => D t ∧ (total → blockAt image blockSize address = .error e)) := by
  unfold blockAt
  simp only [readBlock, post_ite, post_throw, post_adaptExcept]
  refine ⟨fun hbig => ⟨hs, fun _ => if_pos hbig⟩, fun hsmall => ?_⟩
  apply (hfs.post_readAt hs _ _).mono
  · rintro block t ⟨ht, hblock, hinside⟩
    exact ⟨ht, Nat.lt_of_not_le hsmall, hinside, hblock⟩
  · rintro _ t ⟨ht, hshort⟩
    refine ⟨ht, fun htotal => ?_⟩
    rw [if_neg hsmall, if_pos (hshort htotal)]

theorem blockAt_eq_ok_iff {block : Bytes} :
    blockAt image blockSize address = .ok block ↔ address * blockSize < 2 ^ 64 ∧
      address * blockSize + blockSize ≤ image.length ∧
      block = window image.content (address * blockSize) blockSize := by
  unfold blockAt
  split
  · rename_i hbig
    exact ⟨nofun, fun h => absurd h.1 (Nat.not_lt.mpr hbig)⟩
  rename_i hbig
  split
  · rename_i hshort
    exact ⟨nofun, fun h => absurd h.2.1 (Nat.not_le.mpr hshort)⟩
  rename_i hshort
  constructor
  · intro h
    exact ⟨Nat.lt_of_not_le hbig, Nat.le_of_not_lt hshort, (Except.ok.inj h).symm⟩
  · rintro ⟨-, -, rfl⟩
    rfl

/-- A block that cannot be read holds no node. -/
theorem not_nodeAt_of_error {e : ApfsError} (h : blockAt image blockSize address = .error e)
    (node : BtreeNode) : ¬ NodeAt image blockSize address node := by
  intro hnode
  rw [blockAt_eq_ok_iff.mpr ⟨hnode.addressable, hnode.inside, rfl⟩] at h
  cases h

/-! ### The cache -/

namespace BtreeNodeCache

/-- What is cached is right. -/
def Truthful (P : Nat → BtreeNode → Prop) (cache : BtreeNodeCache) : Prop :=
  ∀ cached ∈ cache, P cached.1 cached.2

variable {P : Nat → BtreeNode → Prop} {cache cache' : BtreeNodeCache} {key : Nat} {node : BtreeNode}

theorem truthful_nil : Truthful P [] := nofun

/-- A hit is true, and leaves a truthful cache. -/
theorem Truthful.get (h : Truthful P cache) (hget : cache.get key = some (node, cache')) :
    P key node ∧ Truthful P cache' := by
  obtain ⟨cached, hfind, hpair⟩ := Option.map_eq_some_iff.mp hget
  obtain ⟨rfl, rfl⟩ := Prod.mk.inj hpair
  have hkey : cached.1 = key := by simpa using find?_some hfind
  have hcached := h cached (mem_of_find?_eq_some hfind)
  refine ⟨hkey ▸ hcached, fun other hother => ?_⟩
  obtain hother | hother := mem_append.mp hother
  · exact h other (mem_of_mem_eraseP hother)
  · rw [mem_singleton.mp hother]
    exact hcached

theorem Truthful.insert (h : Truthful P cache) (hnode : P key node) :
    Truthful P (cache.insert key node) := by
  intro cached hcached
  obtain hcached | hcached := mem_append.mp hcached
  · -- whichever node was evicted, what is left was there before
    apply h
    split at hcached
    · exact mem_of_mem_eraseP hcached
    · split at hcached
      · exact mem_of_mem_drop hcached
      · exact hcached
  · rw [mem_singleton.mp hcached]
    exact hnode

end BtreeNodeCache

/-! ### Nodes of an object map -/

namespace Omap

variable {blockSize address : Nat}

/-- What the cache of an object map says: the key has the size of the blocks and the address. -/
def Cached (image : ByteImage) (key : Nat) (node : BtreeNode) : Prop :=
  ∃ blockSize address, key = cacheKey blockSize address ∧ address < 2 ^ 64 ∧
    NodeAt image blockSize address node

/-- The states that lookups go through. -/
structure Inv (image : ByteImage) (D : σ → Prop) (s : OmapState σ) : Prop where
  fs : D s.fs
  nodeCache : BtreeNodeCache.Truthful (Cached image) s.nodeCache

theorem cached_iff (hlt : address < 2 ^ 64) :
    Cached image (cacheKey blockSize address) node ↔ NodeAt image blockSize address node := by
  constructor
  · rintro ⟨blockSize', address', hkey, hlt', hnode⟩
    unfold cacheKey at hkey
    obtain rfl : blockSize = blockSize' := by omega
    obtain rfl : address = address' := by omega
    exact hnode
  · exact fun hnode => ⟨blockSize, address, rfl, hlt, hnode⟩

variable (hfs : fs.Provides image pos D total)
  (blockSize : Nat)

include hfs

/-- The node at an address is read, and no other. -/
theorem computes_loadTreeNode (hlt : address < 2 ^ 64) :
    Computes (Inv image D) total (fun _ => loadTreeNode fs blockSize address)
      (NodeAt image blockSize address) False := by
  apply of_post NodeAt.unique
  intro s hs
  simp only [loadTreeNode, post_bind, post_zoom, post_liftFailure, post_liftExcept, post_modify,
    post_pure]
  apply (post_readBlock hfs hs.fs blockSize address).mono
  · rintro block d ⟨hd, haddressable, hinside, rfl⟩
    refine ⟨fun node hparse => ?_, fun e hparse =>
      ⟨⟨hd, hs.nodeCache⟩, Stop.failed_ne_outOfFuel e, fun _ node hnode => ?_⟩⟩
    · have hnode : NodeAt image blockSize address node := ⟨haddressable, hinside, hparse⟩
      exact ⟨⟨hd, hs.nodeCache.insert ((cached_iff hlt).mpr hnode)⟩, hnode⟩
    · rw [hnode.parse] at hparse
      cases hparse
  · rintro e d ⟨hd, hnone⟩
    exact ⟨⟨hd, hs.nodeCache⟩, Stop.failed_ne_outOfFuel e,
      fun htotal => not_nodeAt_of_error (hnone htotal)⟩

theorem computes_resolveTreeNode (hlt : address < 2 ^ 64) :
    Computes (Inv image D) total (fun _ => resolveTreeNode fs blockSize address)
      (NodeAt image blockSize address) False := by
  apply (computes_loadTreeNode hfs blockSize hlt).memo
  intro _ s hs
  rw [resolveTreeNode, get_bind_run]
  cases hget : s.nodeCache.get (cacheKey blockSize address) with
  | none => exact .inl rfl
  | some hit =>
    obtain ⟨hnode, hcache⟩ := hs.nodeCache.get hget
    exact .inr ⟨hit.1, _, rfl, ⟨hs.fs, hcache⟩, (cached_iff hlt).mp hnode⟩

end Omap

/-! ### Descents -/

section Descend

variable (compare : Bytes → Bytes → Ordering) (nodeOf : Nat → BtreeNode → Prop) (search : Bytes)

/-- The child of a node that a search goes to. -/
def ChildFor (keyLen : Nat) (node next : BtreeNode) : Prop :=
  node.isLeaf = false ∧ ∃ link, node.childLink compare search keyLen = .ok link ∧ nodeOf link next

/-- What one pass of the loop comes to. -/
def StepTo (keyLen : Nat) (atLeaf : BtreeNode → Except ApfsError α) (node : BtreeNode) :
    BtreeNode ⊕ α → Prop
  | .inl next => ChildFor compare nodeOf search keyLen node next
  | .inr found => node.isLeaf = true ∧ atLeaf node = .ok found

/-- The way from a root to a leaf, along the child links for the key. -/
def LeafFor (root : BtreeNode) (info : Nat × Nat) (leaf : BtreeNode) : Prop :=
  rootInfo root = .ok info ∧ ReflTransGen (ChildFor compare nodeOf search info.1) root leaf ∧
    leaf.isLeaf = true

/-- On the way from a root along the child links for the key a node comes up that was there before.
    -/
def GoesInCircles (root : BtreeNode) : Prop :=
  ∃ info, rootInfo root = .ok info ∧ ReachesCycle (ChildFor compare nodeOf search info.1) root

/-- On the way a link is followed with `hangs`. -/
def MeetsLink (hangs : Nat → Prop) (root : BtreeNode) : Prop :=
  ∃ info node link, rootInfo root = .ok info ∧
    ReflTransGen (ChildFor compare nodeOf search info.1) root node ∧ node.isLeaf = false ∧
    node.childLink compare search info.1 = .ok link ∧ hangs link

variable {compare nodeOf search} {keyLen : Nat} {I : σ → Prop} {hangs : Nat → Prop}
  {atLeaf : BtreeNode → Except ApfsError α}
  {resolve : Nat → Nat → EStateM (Stop ApfsError) σ BtreeNode}

/-- A link is a 64 bit number. -/
theorem childLink_lt {link : Nat} (h : node.childLink compare search keyLen = .ok link) :
    link < 2 ^ 64 := by
  unfold BtreeNode.childLink at h
  simp only [Except.bind_eq_ok_iff] at h
  obtain ⟨index, -, entry, -, h⟩ := h
  split at h
  · cases h
  split at h
  · cases h
  cases h
  rename_i value _ hlen
  have hlt := ofLE_lt (value.slice 0 8)
  have hwidth : min 8 (length value - 0) = 8 := by omega
  rwa [length_slice, hwidth] at hlt

/-- The nodes that a descent can come to are named by links, and these are words. -/
theorem finite_reached (hunique : ∀ link node node', link < 2 ^ 64 → nodeOf link node →
    nodeOf link node' → node = node') (root : BtreeNode) :
    {node | ReflTransGen (ChildFor compare nodeOf search keyLen) root node}.Finite := by
  have hlinked : (⋃ link ∈ {link | link < 2 ^ 64}, {node | nodeOf link node}).Finite := by
    apply (Set.finite_lt_nat _).biUnion
    intro link hlink
    apply Set.Subsingleton.finite
    exact fun node hnode node' hnode' => hunique link node node' hlink hnode hnode'
  apply (hlinked.insert root).subset
  intro node hreach
  obtain rfl | ⟨_, -, -, link, hlink, hnode⟩ := hreach.cases_tail
  · exact Set.mem_insert _ _
  · exact Set.mem_insert_of_mem _ (Set.mem_biUnion (childLink_lt hlink) hnode)

variable (hresolve : ∀ link, link < 2 ^ 64 →
  Computes I total (fun fuel => resolve fuel link) (nodeOf link) (hangs link))

include hresolve

theorem computes_descendStep (node : BtreeNode) :
    Computes I total (fun fuel => descendStep compare (resolve fuel) search keyLen atLeaf node)
      (StepTo compare nodeOf search keyLen atLeaf node)
      (node.isLeaf = false ∧ ∃ link, node.childLink compare search keyLen = .ok link ∧
        hangs link) := by
  unfold descendStep
  cases hleaf : node.isLeaf with
  | true =>
    apply ((lift (atLeaf node)).bind fun found _ =>
      lift (.ok (Sum.inr found) : Except ApfsError (BtreeNode ⊕ α))).congr
    · rintro (next | found)
      · simp [StepTo, ChildFor, hleaf]
      · simp [StepTo, hleaf]
    · simp
  | false =>
    apply ((lift (node.childLink compare search keyLen)).bind fun link hlink =>
      (hresolve link (childLink_lt hlink)).bind fun next _ =>
        lift (.ok (Sum.inl next) : Except ApfsError (BtreeNode ⊕ α))).congr
    · rintro (next | found)
      · simp [StepTo, ChildFor, hleaf]
      · simp [StepTo, hleaf]
    · simp

/-- A descent from a root: the loop is the same for both, and they differ in what they do in the
    leaf. -/
theorem computes_descent {atLeaf : Nat × Nat → BtreeNode → Except ApfsError α} (root : BtreeNode) :
    Computes I total (fun fuel => do
        let info ← liftExcept (rootInfo root)
        loop (descendStep compare (resolve fuel) search info.1 (atLeaf info)) fuel root)
      (fun found => ∃ info leaf, LeafFor compare nodeOf search root info leaf ∧
        atLeaf info leaf = .ok found)
      (GoesInCircles compare nodeOf search root ∨ MeetsLink compare nodeOf search hangs root) := by
  apply ((lift (rootInfo root)).bind fun info _ =>
    loop (computes_descendStep hresolve) ?_).congr
  · intro found
    constructor
    · rintro ⟨info, hinfo, leaf, hreach, hleaf, hfound⟩
      exact ⟨info, leaf, ⟨hinfo, hreach, hleaf⟩, hfound⟩
    · rintro ⟨info, leaf, ⟨hinfo, hreach, hleaf⟩, hfound⟩
      exact ⟨info, hinfo, leaf, hreach, hleaf, hfound⟩
  · constructor
    · rintro (h | ⟨info, hinfo, node, hreach, ⟨hleaf, link, hlink, hhangs⟩ | hcycle⟩)
      · exact h.elim
      · exact .inr ⟨info, node, link, hinfo, hreach, hleaf, hlink, hhangs⟩
      · exact .inl ⟨info, hinfo, node, hreach, hcycle⟩
    · rintro (⟨info, hinfo, node, hreach, hcycle⟩ | ⟨info, node, link, hinfo, hreach, hleaf, hlink,
        hhangs⟩)
      · exact .inr ⟨info, hinfo, node, hreach, .inr hcycle⟩
      · exact .inr ⟨info, hinfo, node, hreach, .inl ⟨hleaf, link, hlink, hhangs⟩⟩
  · exact finite_reached (fun link node node' hlt => (hresolve link hlt).functional) root

end Descend

end Fsmnt.FsApfs
