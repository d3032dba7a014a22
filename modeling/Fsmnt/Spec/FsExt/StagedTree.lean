import Fsmnt.ForStd.Except
import Fsmnt.Native.FsExt.HtreeMutate

/-!
# Directory blocks and staged extent nodes

A transaction stages the extent nodes it edits in the scratch of the mutator. The blocks of a
directory are resolved from the staged inline root, but every node below it is read through the
overlay, so the resolution follows the staged tree as long as the nodes on its way are not edited.
-/

namespace Fsmnt.FsExt

open Bytes Mutator

section Walk

variable (read : Nat → Except ExtError Bytes) (inode logicalBlock : Nat)

/-- What a node has for a logical block: an answer, or the child to go on with. -/
def follow (node : Bytes) : Except ExtError (Option Extent ⊕ Nat) := do
  let hdr ← parseNode node inode
  if hdr.ehDepth = 0 then .ok (.inl (searchLeaf node logicalBlock))
  else
    match bestIndex node logicalBlock with
    | none => .ok (.inl none)
    | some idx => .ok (.inr idx.child)

/-- What a tree maps a logical block to, where `read` gives the external nodes. -/
def resolveWith : Nat → Bytes → Except ExtError (Option Extent)
  | 0, node => do
    match ← follow inode logicalBlock node with
    | .inl found => .ok found
    | .inr _ => .error .panicked
  | fuel + 1, node => do
    match ← follow inode logicalBlock node with
    | .inl found => .ok found
    | .inr child => resolveWith fuel (← read child)

/-- The external nodes that this reads, in order. -/
def nodesOnWay : Nat → Bytes → List Nat
  | 0, _ => []
  | fuel + 1, node =>
    match follow inode logicalBlock node with
    | .ok (.inr child) => child :: (read child).toOption.elim [] (nodesOnWay fuel)
    | _ => []

variable {read inode logicalBlock} {read' : Nat → Except ExtError Bytes}

/-- Two trees that agree on the nodes on the way map the logical block alike. -/
theorem resolveWith_congr {fuel : Nat} {node : Bytes}
    (h : ∀ block ∈ nodesOnWay read inode logicalBlock fuel node, read' block = read block) :
    resolveWith read' inode logicalBlock fuel node =
      resolveWith read inode logicalBlock fuel node := by
  induction fuel generalizing node with
  | zero => rfl
  | succ fuel ih =>
    rw [nodesOnWay] at h
    rw [resolveWith, resolveWith]
    cases hfollow : follow inode logicalBlock node with
    | error e => rfl
    | ok next =>
      cases next with
      | inl found => rfl
      | inr child =>
        simp only [hfollow, List.forall_mem_cons] at h
        obtain ⟨hchild, hrest⟩ := h
        show (read' child >>= _) = (read child >>= _)
        rw [hchild]
        cases hread : read child with
        | error e => rfl
        | ok bytes =>
          rw [hread] at hrest
          exact ih hrest

end Walk

section Staged

variable [Crc] (ext : Ext) (fs : FsReader)

/-- An external node of the staged tree: from scratch when present, otherwise from the overlay. -/
def Mutator.stagedNode (m : Mutator) (inode generation block : Nat) : Except ExtError Bytes :=
  match m.blocks[block]? with
  | some scratch => .ok scratch.content
  | none => readExtentBlock ext fs inode generation block

/-- The physical block of an extent that was found for a logical block of a directory. -/
def dirBlockOf (logicalBlock : Nat) : Option Extent → Except ExtError Nat
  | none => .error (.blockOutOfRange logicalBlock)
  | some extent =>
    if extent.uninitialized then .error (.blockOutOfRange logicalBlock)
    else
      let physical := extent.physicalBlock + (logicalBlock - extent.logicalBlock)
      if physical ≥ ext.blocksCount then .error (.blockOutOfRange physical) else .ok physical

/-- The block that the staged extent tree of a directory maps a logical block to. -/
def stagedDirBlock (m : Mutator) (dir : CurrentDirInode) (logicalBlock : Nat) :
    Except ExtError Nat := do
  dirBlockOf ext logicalBlock
    (← resolveWith (m.stagedNode ext fs dir.number dir.generation) dir.number logicalBlock READ_FUEL
      dir.iBlock)

/-- No node on the way to the logical block is staged with another content than the overlay has. -/
def WayUnedited (m : Mutator) (dir : CurrentDirInode) (logicalBlock : Nat) : Prop :=
  ∀ block ∈ nodesOnWay (readExtentBlock ext fs dir.number dir.generation) dir.number logicalBlock
      READ_FUEL dir.iBlock,
    ∀ scratch, m.blocks[block]? = some scratch →
      readExtentBlock ext fs dir.number dir.generation block = .ok scratch.content

variable {ext fs}

theorem resolveNode_eq_resolveWith (inode generation logicalBlock fuel : Nat) (node : Bytes) :
    resolveNode ext fs inode generation logicalBlock fuel node =
      resolveWith (readExtentBlock ext fs inode generation) inode logicalBlock fuel node := by
  induction fuel generalizing node with
  | zero =>
    rw [resolveNode, resolveWith, follow]
    cases parseNode node inode with
    | error e => rfl
    | ok hdr =>
      show ite _ _ _ = (ite _ _ _ >>= _)
      split
      · rfl
      · cases bestIndex node logicalBlock <;> rfl
  | succ fuel ih =>
    rw [resolveNode, resolveWith, follow]
    cases parseNode node inode with
    | error e => rfl
    | ok hdr =>
      show ite _ _ _ = (ite _ _ _ >>= _)
      split
      · rfl
      · cases bestIndex node logicalBlock with
        | none => rfl
        | some idx => exact congrArg _ (funext ih)

theorem resolveDirLogicalBlock_of_extents {dir : CurrentDirInode}
    (hflag : hasFlag dir.flags EXTENTS_FL) (logicalBlock : Nat) :
    resolveDirLogicalBlock ext fs dir logicalBlock =
      (resolveExtent ext fs dir.number dir.generation dir.iBlock logicalBlock >>=
        dirBlockOf ext logicalBlock) := by
  rw [resolveDirLogicalBlock, if_pos hflag]
  cases resolveExtent ext fs dir.number dir.generation dir.iBlock logicalBlock with
  | error e => rfl
  | ok found =>
    cases found with
    | none => rfl
    | some extent =>
      show (if extent.uninitialized = true then _ else _) = ite _ _ _
      split <;> rfl

/-- In every state in which no node on the way is edited, the directory's block is resolved as the
    staged tree maps it. -/
theorem resolveDirLogicalBlock_eq_staged (m : Mutator) (dir : CurrentDirInode) (logicalBlock : Nat)
    (hflag : hasFlag dir.flags EXTENTS_FL) (hway : WayUnedited ext fs m dir logicalBlock) :
    resolveDirLogicalBlock ext fs dir logicalBlock = stagedDirBlock ext fs m dir logicalBlock := by
  have hagree : ∀ block ∈ nodesOnWay (readExtentBlock ext fs dir.number dir.generation) dir.number
      logicalBlock READ_FUEL dir.iBlock,
      m.stagedNode ext fs dir.number dir.generation block =
        readExtentBlock ext fs dir.number dir.generation block := by
    intro block hblock
    rw [stagedNode]
    cases hscratch : m.blocks[block]? with
    | none => rfl
    | some scratch => exact (hway block hblock scratch hscratch).symm
  rw [resolveDirLogicalBlock_of_extents hflag, resolveExtent, resolveNode_eq_resolveWith,
    stagedDirBlock, resolveWith_congr hagree]

end Staged

/-! ### A leaf that the transaction has edited -/

/-- Inode 1: a directory whose root has the children 5, and 7 from logical block 10 on. -/
def grownDir : Bytes :=
  toLE 2 0x41ED ++ zeros 2 ++ toLE 4 11264 ++ zeros 24 ++ toLE 4 EXTENTS_FL ++
    zeros 4 ++ toLE 2 0xF30A ++ toLE 2 2 ++ toLE 2 4 ++ toLE 2 1 ++
    zeros 8 ++ toLE 4 5 ++ zeros 4 ++ toLE 4 10 ++ toLE 4 7

/-- A leaf that maps one logical block. -/
def grownLeaf (logical physical : Nat) : Bytes :=
  toLE 2 0xF30A ++ toLE 2 1 ++ toLE 2 84 ++ zeros 6 ++ toLE 4 logical ++ toLE 4 1 ++
    toLE 4 physical

/-- A device with the inode at the start of block 3, the leaves and zeros elsewhere. -/
def grownDirDevice : FsReader where
  readExact off len :=
    let used := if off = 3 * 1024 then grownDir
      else if off = 5 * 1024 then grownLeaf 0 6
      else if off = 7 * 1024 then grownLeaf 10 8 else []
    .ok ((used ++ zeros len).take len)
  length_readExact off len bs h := by cases h; simp

def grownDirExt : Ext := Ext.plain 16 16 [⟨3, 1, 2, 0⟩]

def grownDirInode : CurrentDirInode :=
  ⟨1, 0x41ED, EXTENTS_FL, 11264, 0, (grownDir ++ zeros 32).slice 40 60⟩

attribute [local instance] Crc.standard

/-- The mutator after logical block 1 of the directory was mapped to block 9. -/
def afterAddRange : Option Mutator :=
  match ExtentSurgeon.addRange grownDirExt grownDirDevice 1 ⟨1, 1, 9, false⟩ ⟨new [], 0, 0⟩ with
  | .ok .applied s => some s.mutator
  | _ => none

/-- The staged tree has the block, and the directory's resolution does not see it. -/
theorem added_block_unseen : ∃ m, afterAddRange = some m ∧
    m.currentDirInode grownDirExt grownDirDevice 1 = .ok grownDirInode ∧
    hasFlag grownDirInode.flags EXTENTS_FL ∧
    stagedDirBlock grownDirExt grownDirDevice m grownDirInode 1 = .ok 9 ∧
    resolveDirLogicalBlock grownDirExt grownDirDevice grownDirInode 1 =
      .error (.blockOutOfRange 1) := by
  refine ⟨afterAddRange.get (by decide +kernel), (Option.some_get _).symm, ?_, rfl, ?_, ?_⟩
  · decide +kernel
  · decide +kernel
  · decide +kernel

/-- The leaf in block 5 is staged, and logical block 10 is found through the other one. -/
theorem resolveDirLogicalBlock_eq_staged_aside : ∃ m, afterAddRange = some m ∧
    (m.blocks[5]?.map (·.content)) ≠ (readExtentBlock grownDirExt grownDirDevice 1 0 5).toOption ∧
    WayUnedited grownDirExt grownDirDevice m grownDirInode 10 ∧
    resolveDirLogicalBlock grownDirExt grownDirDevice grownDirInode 10 =
      stagedDirBlock grownDirExt grownDirDevice m grownDirInode 10 ∧
    stagedDirBlock grownDirExt grownDirDevice m grownDirInode 10 = .ok 8 := by
  refine ⟨afterAddRange.get (by decide +kernel), (Option.some_get _).symm, by decide +kernel, ?_⟩
  generalize hm : afterAddRange.get _ = m
  have hseven : (afterAddRange.get (by decide +kernel)).blocks[7]? = none := by decide +kernel
  have hway : WayUnedited grownDirExt grownDirDevice m grownDirInode 10 := by
    have hnodes : nodesOnWay (readExtentBlock grownDirExt grownDirDevice 1 0) 1 10 READ_FUEL
        grownDirInode.iBlock = [7] := by decide +kernel
    intro block hblock scratch hscratch
    obtain rfl := List.mem_singleton.mp (hnodes ▸ hblock)
    rw [← hm, hseven] at hscratch
    cases hscratch
  refine ⟨hway, resolveDirLogicalBlock_eq_staged m _ 10 rfl hway, ?_⟩
  rw [← hm]
  decide +kernel

end Fsmnt.FsExt
