import Fsmnt.Native.FsExt.ExtentSurgeon

/-!
# `ADD_RANGE` and `DEL_RANGE`

The entry points of `journal/fast_commit/extents/mod.rs`: `add_range`, `del_range` and
`shrink_inode`.
-/

namespace Fsmnt.FsExt

namespace ExtentSurgeon

variable [Crc] (ext : Ext) (fs : FsReader)

/-- `i_block` of an inode. -/
def inodeIBlock (inode : Bytes) : Bytes := inode.slice 0x28 60

/-- `i_generation` of an inode. -/
def inodeGeneration (inode : Bytes) : Nat := inode.le32 0x64

/-! ### `add_range` -/

inductive InPlaceAdd where
  | done (outcome : ExtentSurgeryOutcome)
  | needsGrow
  deriving Repr, DecidableEq

/-- Free the blocks that an edited leaf no longer maps. -/
def freeOldPhysical : Option (Nat × Nat) → SurgeonM Unit
  | none => pure ()
  | some (pblk, len) => do
    let freed ← .onMutator (Mutator.markBlockRangeFree ext fs pblk len)
    modify fun s => { s with allocationUnitsFreed := s.allocationUnitsFreed + freed }

variable (inum generation : Nat)

/-- Renew the keys above a leaf whose first logical block changed. -/
def renewParentKeys (target : LeafTarget)
    (oldFirstLogical newFirstLogical : Option Nat) : SurgeonM Unit :=
  if oldFirstLogical ≠ newFirstLogical then
    match newFirstLogical with
    | none => throw (.invalidExtentHeader inum)
    | some newFirstLogical =>
      patchParentIndexKeys ext fs inum generation newFirstLogical target.ancestors.reverse
  else pure ()

/-- The `Patched` branch of `try_add_range_in_place`. -/
def applyLeafPatch (target : LeafTarget) (oldFirstLogical : Option Nat)
    (bytes : Bytes) (free : Option (Nat × Nat)) : SurgeonM InPlaceAdd := do
  freeOldPhysical ext fs free
  let newFirstLogical ← .ofExcept (firstLeafLogical bytes inum)
  patchNode ext fs inum generation target.location bytes
  renewParentKeys ext fs inum generation target oldFirstLogical newFirstLogical
  pure (.done .applied)

def tryAddRangeInPlace (iBlock : Bytes) (extent : RawExtent)
    (blocksPerCluster : Nat) : SurgeonM InPlaceAdd := do
  match findTargetLeaf ext fs (← get).mutator inum generation iBlock extent.eeBlock with
  | .error err => return .done (← .ofExcept (surgeryErrorToOutcome err))
  | .ok target =>
    match firstLeafLogical target.bytes inum with
    | .error err => return .done (← .ofExcept (structuralErrorToOutcome err))
    | .ok oldFirstLogical =>
      match editLeaf target.bytes inum extent blocksPerCluster target.successorLogicalBound with
      | .error err => return .done (← .ofExcept (structuralErrorToOutcome err))
      | .ok .unchanged => pure (.done .applied)
      | .ok .leafFull => pure .needsGrow
      | .ok .structurallyUnsupported => pure (.done .requiresMetadataAllocation)
      | .ok (.patched bytes freeOldPhysical) =>
        applyLeafPatch ext fs inum generation target oldFirstLogical bytes freeOldPhysical

/-- `add_range`: edit in place, or grow the tree once and edit then. -/
def addRange (extent : RawExtent) : SurgeonM ExtentSurgeryOutcome := do
  let blocksPerCluster := ext.blocksPerCluster
  if blocksPerCluster > 1 ∧ extent.eePblk % blocksPerCluster ≠ 0 then
    pure (.failed .bigallocPblkNotClusterAligned)
  else
    match validateNewExtent inum extent with
    | .error err => .ofExcept (structuralErrorToOutcome err)
    | .ok () =>
      .ofExcept (validatePhysicalRange ext extent)
      let inode ← .ofExcept ((← get).mutator.currentInodeBytes ext fs inum)
      if inode.length < 0x28 + 60 ∨ inode.length < 0x68 then
        throw (.invalidInode inum "too short")
      else
        let generation := inodeGeneration inode
        match ← tryAddRangeInPlace ext fs inum generation (inodeIBlock inode) extent
            blocksPerCluster with
        | .done outcome => pure outcome
        | .needsGrow =>
          match ← growForAdd ext fs inum generation (inodeIBlock inode) extent.eeBlock with
          | .halt outcome => pure outcome
          | .grown =>
            let inode ← .ofExcept ((← get).mutator.currentInodeBytes ext fs inum)
            match ← tryAddRangeInPlace ext fs inum generation (inodeIBlock inode) extent
                blocksPerCluster with
            | .done outcome => pure outcome
            | .needsGrow => pure .requiresMetadataAllocation

/-! ### `del_range` -/

/-- Physical ranges and largest logical end of a subtree. -/
def collectDataRangesAndLogicalEnd (m : Mutator) (inum generation : Nat) : Nat → Bytes →
    Except SurgeryError (List (Nat × Nat) × Nat)
  | levels, node => do
    let hdr ← (validHeader node inum).mapError .ext
    if hdr.ehDepth = 0 then
      (validateLeafOrder node hdr.ehEntries inum).mapError .ext
      let records ← (leafRecords node hdr.ehEntries inum).mapError .ext
      let logicalEnd ← (maxLeafLogicalEnd inum records 0).mapError .ext
      .ok (records.map fun record => (record.pblk, record.len), logicalEnd)
    else if hdr.ehEntries = 0 then .error (.ext (.invalidExtentHeader inum))
    else
      match levels with
      | 0 => .error (.ext (.invalidExtentHeader inum))
      | levels + 1 =>
        (validateIndexOrder node hdr.ehEntries inum).mapError .ext
        let records ← (indexRecords node hdr.ehEntries inum).mapError .ext
        let children ← records.mapM fun record => do
          let child ← readChildNode ext fs m inum generation record.child (hdr.ehDepth - 1)
          collectDataRangesAndLogicalEnd m inum generation levels child
        .ok (children.flatMap (·.1), (children.map (·.2)).foldl max 0)

inductive RightmostChildEnd where
  | absent
  | unresolved
  | known (logicalEnd : Nat)
  deriving Repr, DecidableEq

structure DeleteIndexState where
  surviving : List IndexRecord := []
  lastSurvivingChildEnd : RightmostChildEnd := .absent
  freeRanges : List PlannedFree := []
  survivingDataRanges : List (Nat × Nat) := []
  patches : List (Nat × Bytes) := []
  deriving Repr, DecidableEq

/-- A child that the range does not meet survives as it is. Its blocks are only listed on
    bigalloc, and its logical end is left to be resolved otherwise. -/
def keepChild (m : Mutator) (inum generation depth blocksPerCluster levels : Nat)
    (state : DeleteIndexState) (record : IndexRecord) : Except SurgeryError DeleteIndexState := do
  if blocksPerCluster > 1 then
    let child ← readChildNode ext fs m inum generation record.child (depth - 1)
    let (ranges, childEnd) ← collectDataRangesAndLogicalEnd ext fs m inum generation levels child
    .ok { state with
          survivingDataRanges := state.survivingDataRanges ++ ranges
          lastSurvivingChildEnd := .known childEnd
          surviving := state.surviving ++ [record] }
  else
    .ok { state with
          lastSurvivingChildEnd := .unresolved
          surviving := state.surviving ++ [record] }

/-- Take over the edit of a child. -/
def mergeChildEdit (state : DeleteIndexState) (record : IndexRecord)
    (edit : DeleteNodeEdit) : Except SurgeryError DeleteIndexState := do
  let state := { state with
    freeRanges := state.freeRanges ++ edit.freeRanges
    survivingDataRanges := state.survivingDataRanges ++ edit.survivingDataRanges
    patches := state.patches ++ edit.patches }
  match edit.bytes with
  | none => .ok state
  | some childNode =>
    match edit.firstLogical with
    | none => .error (.ext (.invalidExtentHeader inum))
    | some firstLogical =>
      .ok { state with
            patches := if edit.changed then state.patches ++ [(record.child, childNode)]
              else state.patches
            surviving := state.surviving ++ [{ logical := firstLogical, child := record.child }]
            lastSurvivingChildEnd := .known edit.endBlockExclusive }

/-- The loop of `delete_index_children`; `deleteNode` is the recursive call on a child. -/
def deleteIndexChildren (m : Mutator) (inum generation depth blocksPerCluster levels : Nat)
    (range : LogicalDeleteRange)
    (deleteNode : Bytes → Option Nat → Except SurgeryError DeleteNodeEdit) :
    List IndexRecord → DeleteIndexState → Except SurgeryError DeleteIndexState
  | [], state => .ok state
  | record :: rest, state => do
    let outside := range.endExclusive ≤ record.logical ∨
      rest.head?.any fun next => decide (range.start ≥ next.logical)
    let state ←
      if outside then keepChild ext fs m inum generation depth blocksPerCluster levels state record
      else do
        let child ← readChildNode ext fs m inum generation record.child (depth - 1)
        let edit ← deleteNode child (some record.child)
        mergeChildEdit inum state record edit
    deleteIndexChildren m inum generation depth blocksPerCluster levels range deleteNode rest state

def finishIndexDelete (m : Mutator) (inum generation depth max levels : Nat) (node : Bytes)
    (thisBlock : Option Nat) (original : List IndexRecord) (state : DeleteIndexState) :
    Except SurgeryError DeleteNodeEdit := do
  if state.surviving.isEmpty then
    match thisBlock with
    | some block =>
      .ok { bytes := none, changed := true, firstLogical := none,
            freeRanges := state.freeRanges ++ [{ pblk := block, len := 1, kind := .metadata }],
            survivingDataRanges := state.survivingDataRanges, endBlockExclusive := 0,
            patches := state.patches }
    | none =>
      let root ← (emptyInlineLeafRoot node inum).mapError .ext
      .ok { bytes := some root, changed := true, firstLogical := none,
            freeRanges := state.freeRanges, survivingDataRanges := state.survivingDataRanges,
            endBlockExclusive := 0, patches := state.patches }
  else
    let endBlockExclusive ← match state.lastSurvivingChildEnd with
      | .known logicalEnd => .ok logicalEnd
      | .absent => .ok 0
      | .unresolved =>
        match state.surviving.getLast? with
        | none => .error (.ext (.invalidExtentHeader inum))
        | some rightmost => do
          let child ← readChildNode ext fs m inum generation rightmost.child (depth - 1)
          let (_, childEnd) ← collectDataRangesAndLogicalEnd ext fs m inum generation levels child
          .ok childEnd
    let changed := decide (state.surviving ≠ original)
    let bytes ← if changed then (rewriteIndexRecords node state.surviving max inum).mapError .ext
      else .ok node
    .ok { bytes := some bytes, changed, firstLogical := state.surviving.head?.map (·.logical),
          freeRanges := state.freeRanges, survivingDataRanges := state.survivingDataRanges,
          endBlockExclusive, patches := state.patches }

def deleteNode (m : Mutator) (inum generation : Nat) (range : LogicalDeleteRange)
    (blocksPerCluster : Nat) : Nat → Bytes → Option Nat → Except SurgeryError DeleteNodeEdit
  | levels, node, thisBlock => do
    let hdr ← (validHeader node inum).mapError .ext
    if hdr.ehDepth = 0 then deleteFromLeaf node inum thisBlock range blocksPerCluster
    else
      (validateIndexOrder node hdr.ehEntries inum).mapError .ext
      if hdr.ehEntries = 0 then .error (.ext (.invalidExtentHeader inum))
      else
        match levels with
        | 0 => .error (.ext (.invalidExtentHeader inum))
        | levels + 1 =>
          let original ← (indexRecords node hdr.ehEntries inum).mapError .ext
          let state ← deleteIndexChildren ext fs m inum generation hdr.ehDepth blocksPerCluster
            levels range (deleteNode m inum generation range blocksPerCluster levels) original {}
          finishIndexDelete ext fs m inum generation hdr.ehDepth hdr.ehMax levels node thisBlock
            original state

/-- Mark every planned range free. -/
def freeRanges : List PlannedFree → SurgeonM Unit
  | [] => pure ()
  | free :: rest => do
    let freed ← .onMutator (Mutator.markBlockRangeFree ext fs free.pblk free.len)
    modify fun s => { s with allocationUnitsFreed := s.allocationUnitsFreed + freed }
    freeRanges rest

def patchNodes (inum generation : Nat) : List (Nat × Bytes) → SurgeonM Unit
  | [] => pure ()
  | (block, bytes) :: rest => do
    patchNode ext fs inum generation (.externalBlock block) bytes
    patchNodes inum generation rest

/-- Write the root that a deletion changed. -/
def patchRoot (edit : DeleteNodeEdit) : SurgeonM Unit :=
  if edit.changed then
    match edit.bytes with
    | none => throw (.invalidExtentHeader inum)
    | some root => patchNode ext fs inum generation .inlineRoot root
  else pure ()

def applyDeleteEdit (edit : DeleteNodeEdit) : SurgeonM ExtentSurgeryOutcome := do
  match validateBigallocDelFrees edit ext.blocksPerCluster with
  | .error err => .ofExcept (surgeryErrorToOutcome err)
  | .ok () =>
    if !(edit.changed || !edit.patches.isEmpty || !edit.freeRanges.isEmpty) then pure .applied
    else
      freeRanges ext fs edit.freeRanges
      patchNodes ext fs inum generation edit.patches
      patchRoot ext fs inum generation edit
      pure (.appliedNeedsShrink edit.endBlockExclusive)

def delRangeAfterGrow (range : LogicalDeleteRange) : SurgeonM ExtentSurgeryOutcome := do
  let m := (← get).mutator
  let inode ← .ofExcept (m.currentInodeBytes ext fs inum)
  if inode.length < 0x28 + 60 then throw (.invalidInode inum "too short")
  else
    match deleteNode ext fs m inum generation range ext.blocksPerCluster MAX_EXTENT_DEPTH
        (inodeIBlock inode) none with
    | .ok edit => applyDeleteEdit ext fs inum generation edit
    | .error .requiresMetadataAllocation => pure .requiresMetadataAllocation
    | .error err => .ofExcept (surgeryErrorToOutcome err)

/-- `del_range`: delete, or grow the tree once and delete then. -/
def delRange (lblkStart lblkEndInclusive : Nat) : SurgeonM ExtentSurgeryOutcome := do
  if lblkStart > lblkEndInclusive ∨ lblkEndInclusive + 1 ≥ 2 ^ 32 then
    pure (.logicalRangeInvalid lblkStart (logicalRangeLenForOutcome lblkStart lblkEndInclusive))
  else
    let range : LogicalDeleteRange := { start := lblkStart, endExclusive := lblkEndInclusive + 1 }
    let m := (← get).mutator
    let inode ← .ofExcept (m.currentInodeBytes ext fs inum)
    if inode.length < 0x28 + 60 ∨ inode.length < 0x68 then throw (.invalidInode inum "too short")
    else
      let generation := inodeGeneration inode
      match deleteNode ext fs m inum generation range ext.blocksPerCluster MAX_EXTENT_DEPTH
          (inodeIBlock inode) none with
      | .ok edit => applyDeleteEdit ext fs inum generation edit
      | .error .requiresMetadataAllocation =>
        -- a punched hole needs one record more than the leaf holds
        match ← growForAdd ext fs inum generation (inodeIBlock inode) range.start with
        | .halt outcome => pure outcome
        | .grown => delRangeAfterGrow ext fs inum generation range
      | .error err => .ofExcept (surgeryErrorToOutcome err)

/-- `i_size` of an inode. -/
def inodeSizeField (inode : Bytes) : Nat := inode.le32 0x04 + inode.le32 0x6C * 2 ^ 32

/-- Overwrite `i_size`. -/
def writeInodeSize (inode : Bytes) (size : Nat) : Bytes :=
  (inode.splice 0x04 (Bytes.toLE 4 size)).splice 0x6C (Bytes.toLE 4 (size / 2 ^ 32))

def shrinkInode (endBlockExclusive : Nat) : SurgeonM Unit := do
  let targetSize := endBlockExclusive * ext.blockSize
  let inode ← .ofExcept ((← get).mutator.currentInodeBytes ext fs inum)
  if inode.length < 0x70 then throw (.invalidInode inum "too short")
  else if inodeSizeField inode ≤ targetSize then pure ()
  else .onMutator (Mutator.patchInodeScratch ext fs inum fun inode =>
    .ok (writeInodeSize inode targetSize))

end ExtentSurgeon

end Fsmnt.FsExt
