import Fsmnt.Spec.FsApfs.Btree

/-!
# When lookups end

Nothing but the flag of a leaf ends a descent: levels are not compared and nodes are not counted. So
a lookup ends unless the child links for its key lead back to a node that was there before, and it
goes on forever if they do.
-/

namespace Fsmnt.FsApfs

open Bytes EStateM Relation Omap

variable {ε σ τ : Type} {fs : BlockReader ε σ} {image : ByteImage} {pos : σ → Nat} {D : σ → Prop}
  {total : Prop}

/-- The resolver of a descent returns the node that a link names, and fails when there is none. -/
structure ReadsNodes (I : τ → Prop) (nodeOf : Nat → BtreeNode → Prop)
    (resolve : Nat → EStateM (Stop ApfsError) τ BtreeNode) : Prop where
  unique : ∀ {link node node'}, nodeOf link node → nodeOf link node' → node = node'
  post : ∀ link t, link < 2 ^ 64 → I t → Post (resolve link) t
    (fun node u => I u ∧ nodeOf link node)
    (fun e u => I u ∧ e ≠ .outOfFuel ∧ ∀ node, ¬ nodeOf link node)

theorem ReadsNodes.computes {I : τ → Prop} {nodeOf : Nat → BtreeNode → Prop}
    {resolve : Nat → EStateM (Stop ApfsError) τ BtreeNode} (h : ReadsNodes I nodeOf resolve)
    (link : Nat) (hlt : link < 2 ^ 64) :
    Computes I True (fun _ => resolve link) (nodeOf link) False :=
  .of_post h.unique fun t ht => (h.post link t hlt ht).mono (fun _ _ hok => hok)
    fun _ _ hfail => ⟨hfail.1, hfail.2.1, fun _ => hfail.2.2⟩

/-! ### Object maps -/

namespace Omap

/-- The resolver of an object map. -/
theorem readsNodes (hfs : fs.ServesImage image pos D) (blockSize : Nat) :
    ReadsNodes (Inv image D) (NodeAt image blockSize) (resolveTreeNode fs blockSize) where
  unique := NodeAt.unique
  post := by
    intro link s hlt hs
    have h := computes_resolveTreeNode hfs.provides blockSize hlt
    obtain ⟨enough, hfinish⟩ := h.finishes id
    apply ((h.post enough s hs).and (hfinish enough (Nat.le_refl _) s hs)).mono
    · exact fun _ _ hok => hok.1
    · rintro e t ⟨⟨ht, hnone⟩, hne⟩
      exact ⟨ht, hne, hnone trivial hne⟩

/-- The way to the key in the tree of the object map leads back to a node that was there before. -/
def GoesInCircles (self : Omap) (image : ByteImage) (blockSize oid xid : Nat) : Prop :=
  ∃ root, NodeAt image blockSize self.treeOid root ∧
    FsApfs.GoesInCircles omapKeyCmp (NodeAt image blockSize) (searchKey oid xid) root

/-- What the leaf on the way to the key says about the object. -/
def Maps (self : Omap) (image : ByteImage) (blockSize oid xid : Nat) (value : Option OmapValue) :
    Prop :=
  ∃ root, NodeAt image blockSize self.treeOid root ∧ ∃ found,
    (∃ info leaf, LeafFor omapKeyCmp (NodeAt image blockSize) (searchKey oid xid) root info leaf ∧
      pairOfLe omapKeyCmp (searchKey oid xid) info leaf = .ok found) ∧
    mapping oid found = .ok value

/-- An object is resolved to what the map has for it. -/
theorem computes_resolve (hfs : fs.Provides image pos D total) (self : Omap)
    (blockSize oid xid : Nat) :
    Computes (Inv image D) total (fun fuel => self.resolve fs blockSize fuel oid xid)
      (self.Maps image blockSize oid xid) (self.GoesInCircles image blockSize oid xid) := by
  apply ((computes_resolveTreeNode hfs blockSize self.treeOid_lt).bind fun root _ =>
    (computes_descent (fun _ hlt => computes_resolveTreeNode hfs blockSize hlt) root).bind
      fun found _ => Computes.lift (mapping oid found)).congr
  · exact fun _ => Iff.rfl
  constructor
  · rintro (hfalse | ⟨root, hroot, (hcircles | ⟨_, _, _, -, -, -, -, hfalse⟩) | ⟨_, -, hfalse⟩⟩)
    · exact hfalse.elim
    · exact ⟨root, hroot, hcircles⟩
    · exact hfalse.elim
    · exact hfalse.elim
  · rintro ⟨root, hroot, hcircles⟩
    exact .inr ⟨root, hroot, .inl (.inl hcircles)⟩

end Omap

/-! ### The catalog -/

namespace Catalog

/-- The node of the catalog with an object identifier. -/
def NodeOf (self : Catalog) (image : ByteImage) (oid : Nat) (node : BtreeNode) : Prop :=
  ∃ value, self.omap.Maps image self.blockSize oid self.xid value ∧ ∃ address,
    nodeAddress value = .ok address ∧ NodeAt image self.blockSize address node

/-- The object map goes in circles for a node of the catalog. -/
def HidesNode (self : Catalog) (image : ByteImage) (oid : Nat) : Prop :=
  self.omap.GoesInCircles image self.blockSize oid self.xid

/-- The search in the catalog goes in circles, or the object map does for a node on its way. -/
def GoesInCircles (self : Catalog) (image : ByteImage) (objId : Nat) (kind : JObjType) : Prop :=
  self.HidesNode image self.rootOid ∨ ∃ root, self.NodeOf image self.rootOid root ∧
    (FsApfs.GoesInCircles jKeyHeaderCmp (self.NodeOf image) (Bytes.toLE 8 (packJkey objId kind))
      root ∨
      MeetsLink jKeyHeaderCmp (self.NodeOf image) (Bytes.toLE 8 (packJkey objId kind))
        (self.HidesNode image) root)

/-- The states that lookups go through. -/
structure Inv (catalog : Catalog) (image : ByteImage) (D : σ → Prop) (s : CatalogState σ) :
    Prop where
  omap : Omap.Inv image D s.omap
  nodeCache : BtreeNodeCache.Truthful (catalog.NodeOf image) s.nodeCache

section

variable (hfs : fs.Provides image pos D total)
  (self : Catalog) (oid : Nat)

include hfs

/-- Reading the block of a node, and keeping the node. -/
theorem computes_readNode {oid address : Nat}
    (hmaps : ∀ node, NodeAt image self.blockSize address node → self.NodeOf image oid node) :
    Computes (self.Inv image D) total (fun _ => do
        let block ← onFs (liftFailure (readBlock fs self.blockSize address))
        let node ← liftExcept (BtreeNode.parse block)
        modify fun state => { state with nodeCache := state.nodeCache.insert oid node }
        pure node)
      (NodeAt image self.blockSize address) False := by
  apply Computes.of_post NodeAt.unique
  intro s hs
  simp only [onFs, onOmap, post_bind, post_zoom, post_liftFailure, post_liftExcept, post_modify,
    post_pure]
  apply (post_readBlock hfs hs.omap.fs self.blockSize address).mono
  · rintro block d ⟨hd, haddressable, hinside, rfl⟩
    have homap : Omap.Inv image D { s.omap with fs := d } := ⟨hd, hs.omap.nodeCache⟩
    refine ⟨fun node hparse => ?_, fun e hparse =>
      ⟨⟨homap, hs.nodeCache⟩, Stop.failed_ne_outOfFuel e, fun _ node hnode => ?_⟩⟩
    · have hnode : NodeAt image self.blockSize address node := ⟨haddressable, hinside, hparse⟩
      exact ⟨⟨homap, hs.nodeCache.insert (hmaps node hnode)⟩, hnode⟩
    · rw [hnode.parse] at hparse
      cases hparse
  · rintro e d ⟨hd, hnone⟩
    exact ⟨⟨⟨hd, hs.omap.nodeCache⟩, hs.nodeCache⟩, Stop.failed_ne_outOfFuel e,
      fun htotal => not_nodeAt_of_error (hnone htotal)⟩

theorem computes_loadNode :
    Computes (self.Inv image D) total (fun fuel => self.loadNode fs fuel oid)
      (self.NodeOf image oid) (self.HidesNode image oid) := by
  have homap : Computes (self.Inv image D) total
      (fun fuel => onOmap (self.omap.resolve fs self.blockSize fuel oid self.xid))
      (self.omap.Maps image self.blockSize oid self.xid) (self.HidesNode image oid) :=
    (computes_resolve hfs self.omap self.blockSize oid self.xid).zoom
      (fun _ hs => hs.omap) fun _ _ hs ht => ⟨ht, hs.nodeCache⟩
  apply (homap.bind fun value hvalue =>
    (Computes.lift (nodeAddress value)).bind fun address haddress =>
      computes_readNode hfs self fun node hnode =>
        ⟨value, hvalue, address, haddress, hnode⟩).congr
  · exact fun _ => Iff.rfl
  · simp

theorem computes_resolveNode :
    Computes (self.Inv image D) total (fun fuel => self.resolveNode fs fuel oid)
      (self.NodeOf image oid) (self.HidesNode image oid) := by
  apply (computes_loadNode hfs self oid).memo
  intro fuel s hs
  rw [resolveNode, get_bind_run]
  cases hget : s.nodeCache.get oid with
  | none => exact .inl rfl
  | some hit =>
    obtain ⟨hnode, hcache⟩ := hs.nodeCache.get hget
    exact .inr ⟨hit.1, _, rfl, ⟨hs.omap, hcache⟩, hnode⟩

/-- A record is found where the tree leads to it. -/
theorem computes_findRecord (objId : Nat) (kind : JObjType) :
    Computes (self.Inv image D) total (fun fuel => self.findRecord fs fuel objId kind)
      (fun found => ∃ root, self.NodeOf image self.rootOid root ∧ ∃ info leaf,
        LeafFor jKeyHeaderCmp (self.NodeOf image) (toLE 8 (packJkey objId kind)) root info leaf ∧
          valueOfEqual jKeyHeaderCmp (toLE 8 (packJkey objId kind)) info leaf = .ok found)
      (self.GoesInCircles image objId kind) :=
  (computes_resolveNode hfs self self.rootOid).bind fun root _ =>
    computes_descent (fun link _ => computes_resolveNode hfs self link) root

end

end Catalog

/-! ### When lookups end -/

/-- With a device that serves the container, and with caches that hold nodes of it, every lookup
    ends unless its way goes in circles. -/
theorem lookups_finish_iff (hfs : fs.ServesImage image pos D) {I : τ → Prop}
    {nodeOf : Nat → BtreeNode → Prop} {resolve : Nat → EStateM (Stop ApfsError) τ BtreeNode}
    (hresolve : ReadsNodes I nodeOf resolve) (compare : Bytes → Bytes → Ordering) (root : BtreeNode)
    (search : Bytes) {t : τ} (ht : I t) (omap : Omap) (blockSize oid xid : Nat) {s : OmapState σ}
    (hs : Omap.Inv image D s) (catalog : Catalog) (objId : Nat) (kind : JObjType)
    {c : CatalogState σ} (hc : catalog.Inv image D c) :
    ((∃ fuel, Finishes (descend compare resolve fuel root search) t) ↔
      ¬ GoesInCircles compare nodeOf search root) ∧
    ((∃ fuel, Finishes (descendLe compare resolve fuel root search) t) ↔
      ¬ GoesInCircles compare nodeOf search root) ∧
    ((∃ fuel, Finishes (omap.resolve fs blockSize fuel oid xid) s) ↔
      ¬ omap.GoesInCircles image blockSize oid xid) ∧
    ((∃ fuel, Finishes (catalog.findRecord fs fuel objId kind) c) ↔
      ¬ catalog.GoesInCircles image objId kind) := by
  -- the resolver of a descent itself always ends
  have hcircles : GoesInCircles compare nodeOf search root ∨
      MeetsLink compare nodeOf search (fun _ => False) root ↔
        GoesInCircles compare nodeOf search root := by
    simp [MeetsLink]
  refine ⟨?_, ?_, ?_, ?_⟩
  · rw [← hcircles]
    exact (computes_descent hresolve.computes root).exists_finishes_iff trivial ht
  · rw [← hcircles]
    exact (computes_descent hresolve.computes root).exists_finishes_iff trivial ht
  · exact (omap.computes_resolve hfs.provides blockSize oid xid).exists_finishes_iff trivial hs
  · exact (catalog.computes_findRecord hfs.provides objId kind).exists_finishes_iff trivial hc

/-- A container that is zero except at some offsets. -/
def sparseImage (length : Nat) (bytes : List (Nat × UInt8)) : ByteImage where
  content := fun offset => (bytes.lookup offset).getD 0
  length := length

/-- The node whose header a block of 4096 bytes has. -/
def blockNode (image : ByteImage) (address : Nat) : BtreeNode :=
  let block := window image.content (address * 4096) 4096
  { block, flags := block.le16 32, nkeys := block.le32 36
    tocOff := btnDataOffset + block.le16 40, tocLen := block.le16 42 }

theorem nodeAt_blockNode {address : Nat} (haddress : address * 4096 < 2 ^ 64)
    (hinside : address * 4096 + 4096 ≤ image.length)
    (htoc : (blockNode image address).tocOff + (blockNode image address).tocLen ≤ 4096) :
    NodeAt image 4096 address (blockNode image address) where
  addressable := haddress
  inside := hinside
  parse := by
    have hlen : (window image.content (address * 4096) 4096).length = 4096 := length_window ..
    simp only [blockNode] at htoc ⊢
    generalize window image.content (address * 4096) 4096 = block at hlen htoc ⊢
    simp only [BtreeNode.parse, hlen, if_neg (Nat.not_lt.mpr htoc)]
    rfl

/-- The container of an object map of two levels. The root at block 1 has the separators `(1, 2)`
    and `(1, 7)`, the leaf at block 2 the keys `(1, 2)` and `(1, 5)`, and the leaf at block 3 the
    keys `(1, 7)`, which is deleted, and `(2, 3)`. -/
def twoLevelTree : ByteImage := sparseImage 16384 [
  -- the root: header, table of contents, keys, links and sizes
  (4128, 5), (4132, 2), (4138, 8), (4154, 8), (4156, 16), (4158, 16),
  (4160, 1), (4168, 2), (4176, 1), (4184, 7), (8144, 2), (8136, 3), (8160, 16), (8164, 16),
  -- the leaves: header, table of contents, keys and values
  (8224, 6), (8228, 2), (8234, 8), (8250, 16), (8252, 16), (8254, 32),
  (8256, 1), (8264, 2), (8272, 1), (8280, 5), (12280, 10), (12264, 11),
  (12320, 6), (12324, 2), (12330, 8), (12346, 16), (12348, 16), (12350, 32),
  (12352, 1), (12360, 7), (12368, 2), (12376, 3), (16368, 1), (16360, 12)]

theorem twoLevelTree_nodeAt : NodeAt twoLevelTree 4096 1 (blockNode twoLevelTree 1) ∧
    NodeAt twoLevelTree 4096 2 (blockNode twoLevelTree 2) ∧
    NodeAt twoLevelTree 4096 3 (blockNode twoLevelTree 3) :=
  ⟨nodeAt_blockNode (by decide) (by decide) (by decide +kernel),
    nodeAt_blockNode (by decide) (by decide) (by decide +kernel),
    nodeAt_blockNode (by decide) (by decide) (by decide +kernel)⟩

/-- A container of two blocks. The second is the root of an object map with one key, whose link is
    the block of the root itself. -/
def circularTree : ByteImage := sparseImage 8192
  [(4128, 5), (4132, 1), (4138, 4), (4154, 8), (8144, 1), (8160, 16), (8164, 16)]

/-- The object map whose root is at block 1. -/
def firstOmap : Omap := ⟨1, by decide⟩

/-- A lookup in a new object map and in a new catalog, over the container as it is. -/
def newOmapState : OmapState Nat := ⟨0, []⟩

def newCatalogState : CatalogState Nat := ⟨newOmapState, []⟩

theorem inv_newOmapState : Omap.Inv image (fun _ => True) newOmapState :=
  ⟨trivial, BtreeNodeCache.truthful_nil⟩

theorem inv_newCatalogState (catalog : Catalog) :
    catalog.Inv image (fun _ => True) newCatalogState :=
  ⟨inv_newOmapState, BtreeNodeCache.truthful_nil⟩

/-- The catalog whose nodes are found by `firstOmap`. -/
def firstCatalog : Catalog := ⟨1, firstOmap, 4096, 1⟩

/-- The way goes from the root to a leaf and ends there. -/
theorem lookups_finish_iff_two_levels :
    ∃ fuel, Finishes (firstOmap.resolve (twoLevelTree.reader ()) 4096 fuel 1 6) newOmapState := by
  have hserves := twoLevelTree.reader_serves ()
  have hends := lookups_finish_iff hserves (readsNodes hserves 4096) omapKeyCmp
    (blockNode twoLevelTree 1) (searchKey 1 6) inv_newOmapState firstOmap 4096 1 6 inv_newOmapState
    firstCatalog 2 .inode (inv_newCatalogState _)
  apply hends.2.2.1.mpr
  rintro ⟨root, hroot, info, hinfo, node, hreach, hcycle⟩
  obtain ⟨hnode, hleft, -⟩ := twoLevelTree_nodeAt
  obtain rfl := hroot.unique hnode
  obtain rfl : (16, 16) = info := Except.ok.inj (Eq.trans (by decide +kernel) hinfo)
  have hchild : ∀ next, ChildFor omapKeyCmp (NodeAt twoLevelTree 4096) (searchKey 1 6) 16
      (blockNode twoLevelTree 1) next → next = blockNode twoLevelTree 2 := by
    rintro next ⟨-, link, hlink, hnext⟩
    obtain rfl : 2 = link := Except.ok.inj (Eq.trans (by decide +kernel) hlink)
    exact hnext.unique hleft
  have hleaf : ∀ next, ¬ ChildFor omapKeyCmp (NodeAt twoLevelTree 4096) (searchKey 1 6) 16
      (blockNode twoLevelTree 2) next := fun next hnext => absurd hnext.1 (by decide +kernel)
  -- a node on a circle has a child, and so is the root; but its child has none
  obtain ⟨next, hnext, hback⟩ := TransGen.head'_iff.mp hcycle
  obtain rfl | ⟨first, hfirst, hrest⟩ := hreach.cases_head
  · obtain rfl := hchild next hnext
    obtain heq | ⟨_, hsecond, -⟩ := hback.cases_head
    · exact absurd (congrArg BtreeNode.isLeaf heq) (by decide +kernel)
    · exact hleaf _ hsecond
  · obtain rfl := hchild first hfirst
    obtain rfl | ⟨_, hsecond, -⟩ := hrest.cases_head
    · exact hleaf _ hnext
    · exact hleaf _ hsecond

/-- The link of the root is the block of the root itself. -/
theorem circular_goesInCircles : firstOmap.GoesInCircles circularTree 4096 1 1 := by
  have hnode : NodeAt circularTree 4096 1 (blockNode circularTree 1) :=
    nodeAt_blockNode (by decide) (by decide) (by decide +kernel)
  exact ⟨blockNode circularTree 1, hnode, (16, 16), by decide +kernel, blockNode circularTree 1,
    .refl, .single ⟨by decide +kernel, 1, by decide +kernel, hnode⟩⟩

/-- The object map never answers, and neither does a catalog that asks it for its root. -/
theorem circular_root_never_ends :
    (¬ ∃ fuel, Finishes (firstOmap.resolve (circularTree.reader ()) 4096 fuel 1 1)
      newOmapState) ∧
    ¬ ∃ fuel, Finishes (firstCatalog.findRecord (circularTree.reader ()) fuel 2 .inode)
      newCatalogState := by
  have hserves := circularTree.reader_serves ()
  constructor
  · rw [(computes_resolve hserves.provides firstOmap 4096 1
      1).exists_finishes_iff trivial inv_newOmapState, not_not]
    exact circular_goesInCircles
  · rw [(Catalog.computes_findRecord hserves.provides firstCatalog 2
      .inode).exists_finishes_iff trivial (inv_newCatalogState _), not_not]
    exact .inl circular_goesInCircles

end Fsmnt.FsApfs
