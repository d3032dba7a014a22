import Fsmnt.Native.FsApfs.Btree

/-!
# Object maps and the catalog

`omap.rs`, and the lookup of one record in `catalog.rs`. Of an object map only the root of its tree
is kept. The caches are behind shared references in the source, so they are part of the state here.
-/

namespace Fsmnt.FsApfs

/-- `Omap`: the block of the root of its tree. -/
structure Omap where
  treeOid : Nat
  treeOid_lt : treeOid < 2 ^ 64

structure OmapValue where
  flags : Nat
  size : Nat
  paddr : Int
  deriving DecidableEq, Repr

/-- What a lookup in an object map works on: the device and the nodes that were read. -/
structure OmapState (σ : Type) where
  fs : σ
  nodeCache : BtreeNodeCache

/-- `read_u64`: what is missing is taken as zero. -/
def readU64 (bytes : Bytes) (off : Nat) : Nat := Bytes.ofLE (bytes.slice off 8)

def omapKeyCmp (a b : Bytes) : Ordering :=
  match compare (readU64 a 0) (readU64 b 0) with
  | .eq => compare (readU64 a 8) (readU64 b 8)
  | oid => oid

/-- An `i64` in two's complement. -/
def toI64 (raw : Nat) : Int := if raw < 2 ^ 63 then raw else (raw : Int) - 2 ^ 64

namespace Omap

open EStateM

variable {ε σ : Type} (fs : BlockReader ε σ) (blockSize : Nat)

/-- The key of a node in the cache. -/
def cacheKey (address : Nat) : Nat := blockSize * 2 ^ 64 + address

/-- `resolve_tree_node` for a node that is not cached. -/
def loadTreeNode (address : Nat) : EStateM (Stop ApfsError) (OmapState σ) BtreeNode := do
  let block ← zoom OmapState.fs (fun fs self => { self with fs })
    (liftFailure (readBlock fs blockSize address))
  let node ← liftExcept (BtreeNode.parse block)
  modify fun self =>
    { self with nodeCache := self.nodeCache.insert (cacheKey blockSize address) node }
  pure node

def resolveTreeNode (address : Nat) : EStateM (Stop ApfsError) (OmapState σ) BtreeNode := do
  let self ← get
  match self.nodeCache.get (cacheKey blockSize address) with
  | some (node, nodeCache) => do
    set { self with nodeCache }
    pure node
  | none => loadTreeNode fs blockSize address

/-- What the value found for a key says about the object. -/
def mapping (oid : Nat) : Option (Bytes × Bytes) → Except ApfsError (Option OmapValue)
  | none => .ok none
  | some (key, value) =>
    -- the predecessor may belong to an earlier object
    if readU64 key 0 ≠ oid then .ok none
    else if value.length < 16 then
      .error (.malformed "omap_val_t" "value is shorter than omap_val_t")
    else if (value.le32 0).testBit 0 then .ok none
    else .ok (some { flags := value.le32 0, size := value.le32 4
                     paddr := toI64 (Bytes.ofLE (value.slice 8 8)) })

/-- The key that is searched for. -/
def searchKey (oid xid : Nat) : Bytes := Bytes.toLE 8 oid ++ Bytes.toLE 8 xid

def resolve (self : Omap) (fuel oid xid : Nat) :
    EStateM (Stop ApfsError) (OmapState σ) (Option OmapValue) := do
  let root ← resolveTreeNode fs blockSize self.treeOid
  let found ← descendLe omapKeyCmp (resolveTreeNode fs blockSize) fuel root (searchKey oid xid)
  liftExcept (mapping oid found)

end Omap

/-! ### The catalog -/

structure Catalog where
  rootOid : Nat
  omap : Omap
  blockSize : Nat
  xid : Nat

/-- What a lookup in the catalog works on. -/
structure CatalogState (σ : Type) where
  omap : OmapState σ
  nodeCache : BtreeNodeCache

inductive JObjType where
  | any
  | snapMetadata
  | extent
  | inode
  | xattr
  | siblingLink
  | dstreamId
  | cryptoState
  | fileExtent
  | dirRec
  | dirStats
  | snapName
  | siblingMap
  | fileInfo
  | invalid
  | unknown (value : UInt8)
  deriving DecidableEq, Repr

namespace JObjType

def fromValue (value : UInt8) : JObjType :=
  match value.toNat with
  | 0 => any
  | 1 => snapMetadata
  | 2 => extent
  | 3 => inode
  | 4 => xattr
  | 5 => siblingLink
  | 6 => dstreamId
  | 7 => cryptoState
  | 8 => fileExtent
  | 9 => dirRec
  | 10 => dirStats
  | 11 => snapName
  | 12 => siblingMap
  | 13 => fileInfo
  | 15 => invalid
  | _ => unknown value

def asValue : JObjType → Nat
  | any => 0
  | snapMetadata => 1
  | extent => 2
  | inode => 3
  | xattr => 4
  | siblingLink => 5
  | dstreamId => 6
  | cryptoState => 7
  | fileExtent => 8
  | dirRec => 9
  | dirStats => 10
  | snapName => 11
  | siblingMap => 12
  | fileInfo => 13
  | invalid => 15
  | unknown value => value.toNat

end JObjType

structure JKey where
  objId : Nat
  kind : JObjType
  deriving DecidableEq, Repr

def jKeySize : Nat := 8

def JKey.parse (key : Bytes) : Except ApfsError JKey :=
  if key.length < jKeySize then .error (.truncated "j_key_t" jKeySize key.length)
  else
    let raw := Bytes.ofLE (key.slice 0 8)
    .ok { objId := raw % 2 ^ 60, kind := JObjType.fromValue (UInt8.ofNat (raw / 2 ^ 60)) }

/-- The order of byte strings. -/
def compareBytes : Bytes → Bytes → Ordering
  | [], [] => .eq
  | [], _ :: _ => .lt
  | _ :: _, [] => .gt
  | a :: as, b :: bs =>
    match compare a.toNat b.toNat with
    | .eq => compareBytes as bs
    | order => order

/-- `j_key_header_cmp`; a key that is too short is compared byte by byte. -/
def jKeyHeaderCmp (a b : Bytes) : Ordering :=
  match JKey.parse a, JKey.parse b with
  | .ok a, .ok b => (compare a.objId b.objId).then (compare a.kind.asValue b.kind.asValue)
  | _, _ => compareBytes a b

namespace Catalog

open EStateM

variable {ε σ : Type} (fs : BlockReader ε σ)

/-- A call on the object map. -/
def onOmap {α : Type} (x : EStateM (Stop ApfsError) (OmapState σ) α) :
    EStateM (Stop ApfsError) (CatalogState σ) α :=
  zoom CatalogState.omap (fun omap self => { self with omap }) x

/-- A read of a block, past the caches. -/
def onFs {α : Type} (x : EStateM (Stop ApfsError) σ α) :
    EStateM (Stop ApfsError) (CatalogState σ) α :=
  onOmap (zoom OmapState.fs (fun fs self => { self with fs }) x)

/-- Where a node is, from its mapping. -/
def nodeAddress : Option OmapValue → Except ApfsError Nat
  | none => .error (.notFound "catalog tree node")
  | some mapping =>
    if mapping.paddr < 0 then .error (.malformed "omap_val_t" "catalog node address is negative")
    else .ok mapping.paddr.toNat

/-- `resolve_node` for a node that is not cached. -/
def loadNode (self : Catalog) (fuel nodeOid : Nat) :
    EStateM (Stop ApfsError) (CatalogState σ) BtreeNode := do
  let mapping ← onOmap (self.omap.resolve fs self.blockSize fuel nodeOid self.xid)
  let address ← liftExcept (nodeAddress mapping)
  let block ← onFs (liftFailure (readBlock fs self.blockSize address))
  let node ← liftExcept (BtreeNode.parse block)
  modify fun state => { state with nodeCache := state.nodeCache.insert nodeOid node }
  pure node

def resolveNode (self : Catalog) (fuel nodeOid : Nat) :
    EStateM (Stop ApfsError) (CatalogState σ) BtreeNode := do
  let state ← get
  match state.nodeCache.get nodeOid with
  | some (node, nodeCache) => do
    set { state with nodeCache }
    pure node
  | none => self.loadNode fs fuel nodeOid

/-- `pack_jkey`; what the shift moves out of the word is lost. -/
def packJkey (objId : Nat) (kind : JObjType) : Nat :=
  kind.asValue * 2 ^ 60 % 2 ^ 64 + objId % 2 ^ 60

def findRecord (self : Catalog) (fuel objId : Nat) (kind : JObjType) :
    EStateM (Stop ApfsError) (CatalogState σ) (Option Bytes) := do
  let root ← self.resolveNode fs fuel self.rootOid
  descend jKeyHeaderCmp (self.resolveNode fs fuel) fuel root (Bytes.toLE 8 (packJkey objId kind))

end Catalog

end Fsmnt.FsApfs
