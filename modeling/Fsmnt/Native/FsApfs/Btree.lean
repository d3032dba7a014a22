import Fsmnt.ForStd.Fuel
import Fsmnt.ForStd.ReadSeek

/-!
# B-tree nodes and descents

`btree.rs`, with `read_block` of `checkpoint.rs`. Of the trailer of a root only the sizes of keys
and values are kept, and of a node only what a search reads. Flags are numbers whose bits are
tested. The loops that go down a tree have no bound in the source, so they are given fuel here.
-/

namespace Fsmnt.FsApfs

/-- `ApfsError`, as far as it occurs here. -/
inductive ApfsError where
  | io
  | truncated (structure_ : String) (expected actual : Nat)
  | malformed (structure_ reason : String)
  | notFound (what : String)
  | invalidMagic (structure_ : String) (expected actual : Nat)
  | unsupported (what : String)
  | checksumMismatch (block : Nat)
  deriving DecidableEq, Repr

structure BtreeNode where
  block : Bytes
  flags : Nat
  nkeys : Nat
  tocOff : Nat
  tocLen : Nat
  deriving DecidableEq, Repr

/-- `Entry`; a ghost has no value. -/
structure Entry where
  key : Bytes
  value : Option Bytes
  deriving DecidableEq, Repr

/-- `btn_data` starts behind the object header and 24 bytes of fields. -/
def btnDataOffset : Nat := 56

def btreeInfoSize : Nat := 40

def btoffInvalid : Nat := 0xFFFF

namespace BtreeNode

/-- An error in a node. -/
def malformed (reason : String) : ApfsError := .malformed "btree_node_phys_t" reason

def parse (block : Bytes) : Except ApfsError BtreeNode :=
  if block.length < btnDataOffset then
    .error (.truncated "btree_node_phys_t" btnDataOffset block.length)
  else
    let tocOff := btnDataOffset + block.le16 40
    let tocLen := block.le16 42
    if block.length < tocOff + tocLen then
      .error (malformed "table of contents extends past the node")
    else .ok { block, flags := block.le16 32, nkeys := block.le32 36, tocOff, tocLen }

def isRoot (node : BtreeNode) : Bool := node.flags.testBit 0

def isLeaf (node : BtreeNode) : Bool := node.flags.testBit 1

/-- Whether the table of contents has offsets only. -/
def fixedKvSize (node : BtreeNode) : Bool := node.flags.testBit 2

/-- `btree_info`: the sizes of keys and values of the tree, in its root. -/
def btreeInfo (node : BtreeNode) : Except ApfsError (Option (Nat × Nat)) :=
  if node.isRoot then
    if node.block.length < btreeInfoSize + btnDataOffset then
      .error (.malformed "btree_info_t" "root node too small for the info trailer")
    else
      let start := node.block.length - btreeInfoSize
      .ok (some (node.block.le32 (start + 8), node.block.le32 (start + 12)))
  else .ok none

def keyAreaStart (node : BtreeNode) : Nat := node.tocOff + node.tocLen

def valueAreaEnd (node : BtreeNode) : Nat :=
  if node.isRoot then node.block.length - btreeInfoSize else node.block.length

def tocSlice (node : BtreeNode) (base len : Nat) : Except ApfsError Bytes :=
  if node.tocOff + node.tocLen < base + len then
    .error (malformed "table-of-contents entry out of range")
  else if node.block.length < base + len then
    .error (malformed "table-of-contents entry out of range")
  else .ok (node.block.slice base len)

/-- Where key and value of an entry are: offset and length of each. -/
structure Location where
  keyOff : Nat
  keyLen : Nat
  valueOff : Nat
  valueLen : Nat

/-- The entry of the table of contents. -/
def location (node : BtreeNode) (index keyLen valLen : Nat) : Except ApfsError Location :=
  if node.fixedKvSize then do
    let toc ← node.tocSlice (node.tocOff + index * 4) 4
    .ok { keyOff := toc.le16 0, keyLen, valueOff := toc.le16 2, valueLen := valLen }
  else do
    let toc ← node.tocSlice (node.tocOff + index * 8) 8
    .ok { keyOff := toc.le16 0, keyLen := toc.le16 2, valueOff := toc.le16 4
          valueLen := toc.le16 6 }

/-- `block.get(start..start + len)`. -/
def range (node : BtreeNode) (start len : Nat) (reason : String) : Except ApfsError Bytes :=
  if node.block.length < start + len then .error (malformed reason)
  else .ok (node.block.slice start len)

/-- The value of an entry. -/
def value (node : BtreeNode) (location : Location) : Except ApfsError (Option Bytes) :=
  if location.valueOff = btoffInvalid then .ok none
  else if node.valueAreaEnd < location.valueOff then
    .error (malformed "value offset precedes the node")
  else do
    let value ← node.range (node.valueAreaEnd - location.valueOff) location.valueLen
      "value extends past the node"
    .ok (some value)

def entry (node : BtreeNode) (index keyLen valLen : Nat) : Except ApfsError Entry :=
  if node.nkeys ≤ index then .error (malformed "entry index out of range")
  else do
    let location ← node.location index keyLen valLen
    let key ← node.range (node.keyAreaStart + location.keyOff) location.keyLen
      "key extends past the node"
    let value ← node.value location
    .ok { key, value }

variable (compare : Bytes → Bytes → Ordering)

/-- The loop of `find_equal`. Each pass makes the interval shorter. -/
def findEqualLoop (node : BtreeNode) (search : Bytes) (keyLen valLen : Nat) :
    Nat → Nat → Nat → Except ApfsError (Option Entry)
  | 0, _, _ => .ok none
  | passes + 1, lo, hi =>
    if lo < hi then
      let mid := lo + (hi - lo) / 2
      match node.entry mid keyLen valLen with
      | .error e => .error e
      | .ok entry =>
        match compare search entry.key with
        | .eq => .ok (some entry)
        | .lt => findEqualLoop node search keyLen valLen passes lo mid
        | .gt => findEqualLoop node search keyLen valLen passes (mid + 1) hi
    else .ok none

def findEqual (node : BtreeNode) (search : Bytes) (keyLen valLen : Nat) :
    Except ApfsError (Option Entry) :=
  node.findEqualLoop compare search keyLen valLen node.nkeys 0 node.nkeys

/-- The loop that `find_le` and `child_index` share: the last index that was seen with a key that is
    not above `search`. Each pass makes the interval shorter. -/
def searchLoop (node : BtreeNode) (search : Bytes) (keyLen valLen : Nat) :
    Nat → Option Nat → Nat → Nat → Except ApfsError (Option Nat)
  | 0, chosen, _, _ => .ok chosen
  | passes + 1, chosen, lo, hi =>
    if lo < hi then
      let mid := lo + (hi - lo) / 2
      match node.entry mid keyLen valLen with
      | .error e => .error e
      | .ok entry =>
        if compare entry.key search = .gt then
          searchLoop node search keyLen valLen passes chosen lo mid
        else searchLoop node search keyLen valLen passes (some mid) (mid + 1) hi
    else .ok chosen

def findLe (node : BtreeNode) (search : Bytes) (keyLen valLen : Nat) :
    Except ApfsError (Option Entry) :=
  match node.searchLoop compare search keyLen valLen node.nkeys none 0 node.nkeys with
  | .error e => .error e
  | .ok none => .ok none
  | .ok (some index) => (node.entry index keyLen valLen).map some

/-- `child_index`; before every key it is the leftmost child. -/
def childIndex (node : BtreeNode) (search : Bytes) (keyLen : Nat) : Except ApfsError Nat :=
  if node.nkeys = 0 then .error (malformed "non-leaf node has no keys")
  else (node.searchLoop compare search keyLen 8 node.nkeys (some 0) 0 node.nkeys).map
    fun chosen => chosen.getD 0

def childLink (node : BtreeNode) (search : Bytes) (keyLen : Nat) : Except ApfsError Nat := do
  let index ← node.childIndex compare search keyLen
  let entry ← node.entry index keyLen 8
  match entry.value with
  | none => .error (malformed "non-leaf entry has no child link")
  | some value =>
    if value.length < 8 then .error (malformed "child link shorter than an object identifier")
    else .ok (Bytes.ofLE (value.slice 0 8))

end BtreeNode

/-! ### Descents -/

section Descend

open EStateM

variable {σ α : Type} (compare : Bytes → Bytes → Ordering)
  (resolve : Nat → EStateM (Stop ApfsError) σ BtreeNode)

/-- One pass of the loop that both descents share: a leaf is searched by `atLeaf`, and from another
    node the child for the key is next. -/
def descendStep (search : Bytes) (keyLen : Nat) (atLeaf : BtreeNode → Except ApfsError α)
    (node : BtreeNode) : EStateM (Stop ApfsError) σ (BtreeNode ⊕ α) :=
  if node.isLeaf then do
    let found ← liftExcept (atLeaf node)
    pure (.inr found)
  else do
    let child ← liftExcept (node.childLink compare search keyLen)
    let next ← resolve child
    pure (.inl next)

/-- What both descents start with: the sizes in the root. -/
def rootInfo (root : BtreeNode) : Except ApfsError (Nat × Nat) :=
  match root.btreeInfo with
  | .error e => .error e
  | .ok none => .error (BtreeNode.malformed "descent must start at a root node")
  | .ok (some info) => .ok info

/-- What `descend` does in the leaf. -/
def valueOfEqual (search : Bytes) (info : Nat × Nat) (node : BtreeNode) :
    Except ApfsError (Option Bytes) :=
  (node.findEqual compare search info.1 info.2).map fun found => found.bind Entry.value

def descend (fuel : Nat) (root : BtreeNode) (search : Bytes) :
    EStateM (Stop ApfsError) σ (Option Bytes) := do
  let info ← liftExcept (rootInfo root)
  loop (descendStep compare resolve search info.1 (valueOfEqual compare search info)) fuel root

/-- What `descend_le` does in the leaf; a ghost counts as nothing found. -/
def pairOfLe (search : Bytes) (info : Nat × Nat) (node : BtreeNode) :
    Except ApfsError (Option (Bytes × Bytes)) :=
  (node.findLe compare search info.1 info.2).map fun found =>
    found.bind fun entry => entry.value.map fun value => (entry.key, value)

def descendLe (fuel : Nat) (root : BtreeNode) (search : Bytes) :
    EStateM (Stop ApfsError) σ (Option (Bytes × Bytes)) := do
  let info ← liftExcept (rootInfo root)
  loop (descendStep compare resolve search info.1 (pairOfLe compare search info)) fuel root

end Descend

/-! ### Blocks and the node cache -/

/-- `read_block` of `checkpoint.rs`; what the device reports becomes `Io`. -/
def readBlock {ε σ : Type} (fs : BlockReader ε σ) (blockSize addr : Nat) :
    EStateM ApfsError σ Bytes :=
  if 2 ^ 64 ≤ addr * blockSize then
    throw (.malformed "container" "block address overflows the device")
  else EStateM.adaptExcept (fun _ => .io) do
    let _ ← fs.seek (.start (addr * blockSize))
    fs.readExact blockSize

/-- `BtreeNodeCache`: the nodes that were used last are at the end. -/
abbrev BtreeNodeCache := List (Nat × BtreeNode)

namespace BtreeNodeCache

def capacity : Nat := 8

/-- `get`: the node, and the cache with it at the end. -/
def get (cache : BtreeNodeCache) (key : Nat) : Option (BtreeNode × BtreeNodeCache) :=
  (cache.find? fun cached => cached.1 == key).map fun cached =>
    (cached.2, cache.eraseP (fun other => other.1 == key) ++ [cached])

def insert (cache : BtreeNodeCache) (key : Nat) (node : BtreeNode) : BtreeNodeCache :=
  let kept :=
    if cache.any fun cached => cached.1 == key then cache.eraseP fun cached => cached.1 == key
    else if cache.length = capacity then cache.drop 1
    else cache
  kept ++ [(key, node)]

end BtreeNodeCache

end Fsmnt.FsApfs
