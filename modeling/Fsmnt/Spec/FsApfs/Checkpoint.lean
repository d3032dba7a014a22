import Fsmnt.ForStd.Evaluates
import Fsmnt.ForStd.List
import Fsmnt.Native.FsApfs.Checkpoint
import Fsmnt.Spec.FsApfs.Btree

/-!
# The newest intact checkpoint

The scan of the descriptor area only reads, so it comes to its meaning on the content of the
container. There a checkpoint is intact if every block of its span verifies and parses. The scan
takes the newest superblock that it does not pass over, and this is the newest intact one unless a
mapping block that does not parse, or a superblock that is not one, is met before.
-/

namespace Fsmnt.FsApfs

open Bytes EStateM Evaluates Except List Option CheckpointMapPhys

variable {ε σ : Type} {fs : BlockReader ε σ} {image : ByteImage} {pos : σ → Nat} {D : σ → Prop}

variable {block body : Bytes} {mappings : List CheckpointMapping} {nodes nodes' left i : Nat}

/-! ### The scan only reads -/

section Reads

variable {read : Nat → EStateM ApfsError σ Bytes} {block : Nat → Except ApfsError Bytes}

variable (hread : ∀ addr, Evaluates D (read addr) (block addr)) (area : DescriptorArea)
  (desc : CheckpointArea) (left : Nat)

include hread

/-- The walk over the descriptor tree only reads. -/
theorem evaluates_visitTree (pending fragments) :
    Evaluates D (visitTree read left pending fragments)
      (visitTree block left pending fragments) := by
  induction left generalizing pending fragments with
  | zero =>
    cases pending with
    | nil => exact .pure _
    | cons addr pending => exact .throw _
  | succ left ih =>
    cases pending with
    | nil => exact .pure _
    | cons addr pending =>
      apply ((hread addr).bind fun _ => .ite (.throw _) (.ofExcept _)).bind
      intro node
      apply Evaluates.ite
      · exact (ofExcept _).bind fun found => ih pending _
      · exact (ofExcept _).bind fun children => ih _ fragments

/-- So does finding the area, -/
theorem evaluates_descriptorArea :
    Evaluates D (descriptorArea read desc) (descriptorArea block desc) := by
  apply ite (.throw _)
  apply ite (.throw _)
  apply Evaluates.ite
  · exact (evaluates_visitTree hread _ _ _).bind fun _ => .pure _
  · exact .pure _

/-- collecting its superblocks, -/
theorem evaluates_collectCandidates (i candidates) :
    Evaluates D (collectCandidates read area left i candidates)
      (collectCandidates block area left i candidates) := by
  induction left generalizing i candidates with
  | zero => exact .pure _
  | succ left ih =>
    rw [collectCandidates, collectCandidates]
    cases area.blockAddr i with
    | none => exact ih _ _
    | some addr => exact (hread addr).bind fun _ => ih _ _

/-- gathering the mappings of a span, -/
theorem evaluates_gatherFrom (ringLen start left : Nat) (j mappings) :
    Evaluates D (gatherFrom read area ringLen start left j mappings)
      (gatherFrom block area ringLen start left j mappings) := by
  induction left generalizing j mappings with
  | zero => exact .pure _
  | succ left ih =>
    rw [gatherFrom, gatherFrom]
    cases area.blockAddr ((start + j) % ringLen) with
    | none => exact .pure _
    | some addr =>
      apply (hread addr).bind
      intro bytes
      apply (ofExcept (mappingsOf bytes)).bind
      intro more
      cases more with
      | none => exact .pure _
      | some more => exact ih _ _

/-- trying the superblocks, and -/
theorem evaluates_firstValid (ringLen : Nat) (candidates : List NxSuperblock) :
    Evaluates D (firstValid read area ringLen candidates)
    (firstValid block area ringLen candidates) := by
  induction candidates with
  | nil => exact .throw _
  | cons superblock candidates ih =>
    have hgather : Evaluates D (gatherMappings read area ringLen superblock)
        (gatherMappings block area ringLen superblock) :=
      .ite (.pure _) (evaluates_gatherFrom hread area ringLen _ _ _ _)
    apply hgather.bind
    intro mappings
    cases mappings with
    | none => exact ih
    | some mappings => exact .pure _

/-- the scan as a whole. -/
theorem evaluates_latestCheckpointWith :
    Evaluates D (latestCheckpointWith read desc) (latestCheckpointWith block desc) := by
  apply (evaluates_descriptorArea hread desc).bind
  intro area
  apply (evaluates_collectCandidates hread area _ _ _).bind
  intro candidates
  exact evaluates_firstValid hread area _ _

end Reads

/-- Reading a block of a device that serves the image. -/
theorem evaluates_readBlock (hfs : fs.ServesImage image pos D) (blockSize addr : Nat) :
    Evaluates D (readBlock fs blockSize addr) (blockAt image blockSize addr) := by
  intro s hs
  apply (post_readBlock hfs.provides hs blockSize addr).mono
  · rintro bytes t ⟨ht, hblock⟩
    exact ⟨ht, blockAt_eq_ok_iff.mpr hblock⟩
  · rintro e t ⟨ht, herror⟩
    exact ⟨ht, herror trivial⟩

/-! ### The descriptor area of a container -/

section Area

variable (image) (blockSize : Nat)

/-- A walk over descriptor trees that is not bounded: from the pending nodes on, the number of nodes
    and the fragments in their leaves. The children of a node are visited from the last to the
    first. -/
inductive TreeMaps : List Nat → Nat → List DescFragment → Prop
  | nil : TreeMaps [] 0 []
  | leaf {addr nodes : Nat} {pending : List Nat} {node : BtreeNode}
  {found rest : List DescFragment} :
      readTreeNode (blockAt image blockSize) addr = .ok node → node.isLeaf = true →
      leafFragments node = .ok found → TreeMaps pending nodes rest →
      TreeMaps (addr :: pending) (nodes + 1) (found ++ rest)
  | inner {addr nodes : Nat} {pending children : List Nat} {node : BtreeNode}
  {found : List DescFragment} :
      readTreeNode (blockAt image blockSize) addr = .ok node → node.isLeaf = false →
      childPointers node = .ok children → TreeMaps (children.reverse ++ pending) nodes found →
      TreeMaps (addr :: pending) (nodes + 1) found

/-- Block zero describes the area; a tree that maps it has so many nodes. -/
def MapsArea (desc : CheckpointArea) (nodes : Nat) (area : DescriptorArea) : Prop :=
  0 ≤ desc.base ∧ 0 < descriptorRingLength desc.blocks ∧
    if desc.blocks.testBit 31 then ∃ fragments,
      TreeMaps image blockSize [desc.base.toNat] nodes fragments ∧
      area = .fragmented (fragments.insertionSort fun a b => a.startIndex ≤ b.startIndex)
    else nodes = 0 ∧ area = .contiguous desc.base.toNat

end Area

/-- The blocks of the descriptor area of a container. -/
structure Ring where
  image : ByteImage
  blockSize : Nat
  area : DescriptorArea
  len : Nat

namespace Ring

variable (ring : Ring)

/-- Reading a block. -/
def read : Nat → Except ApfsError Bytes := blockAt ring.image ring.blockSize

/-- Every block of the area can be read. -/
def Readable : Prop := ∀ i < ring.len, ∀ addr, ring.area.blockAddr i = some addr →
  ∃ block, ring.read addr = .ok block

/-- The block at an index of the area, if it is mapped. -/
def blockOf (index : Nat) : Option Bytes :=
  (ring.area.blockAddr index).bind fun addr => (ring.read addr).toOption

/-- The superblocks of the area that verify and parse. -/
def superblocks : List NxSuperblock :=
  (range ring.len).filterMap fun i => (ring.blockOf i).bind candidateOf

/-- The superblocks of the area, the newest transaction first. -/
def newestFirst : List NxSuperblock := ring.superblocks.insertionSort fun a b => b.xid ≤ a.xid

end Ring

section Walk

variable {blockSize : Nat} {desc : CheckpointArea}

/-- A walk without a bound has one result. -/
theorem TreeMaps.unique {pending : List Nat} {found found' : List DescFragment}
    (h : TreeMaps image blockSize pending nodes found)
    (h' : TreeMaps image blockSize pending nodes' found') : nodes = nodes' ∧ found = found' := by
  induction h generalizing nodes' found' with
  | nil =>
    cases h'
    exact ⟨rfl, rfl⟩
  | leaf hread hleaf hfound _ ih =>
    cases h' with
    | leaf hread' _ hfound' hrest' =>
      grind
    | inner => grind
  | inner hread hinner hchildren _ ih =>
    cases h' with
    | leaf => grind
    | inner hread' _ hchildren' hrest' =>
      cases hread.symm.trans hread'
      cases hchildren.symm.trans hchildren'
      grind

/-- Without a pending node the walk is over. -/
theorem visitTree_nil_iff {fragments result : List DescFragment} :
    visitTree (blockAt image blockSize) left [] fragments = .ok result ↔
      ∃ nodes found, nodes ≤ left ∧ TreeMaps image blockSize [] nodes found ∧
        result = fragments ++ found := by
  rw [visitTree]
  constructor
  · intro h
    cases h
    exact ⟨0, [], Nat.zero_le _, .nil, (append_nil _).symm⟩
  · rintro ⟨nodes, found, -, hmaps, rfl⟩
    cases hmaps
    rw [append_nil]
    rfl

/-- The walk of the source is the walk without a bound, as far as the bound goes. -/
theorem visitTree_eq_ok_iff (left : Nat) (pending fragments result) :
    visitTree (blockAt image blockSize) left pending fragments = .ok result ↔
      ∃ nodes found, nodes ≤ left ∧ TreeMaps image blockSize pending nodes found ∧
        result = fragments ++ found := by
  induction left generalizing pending fragments result with
  | zero =>
    cases pending with
    | nil => exact visitTree_nil_iff
    | cons addr pending =>
      constructor
      · exact nofun
      · rintro ⟨nodes, found, hle, hmaps, -⟩
        cases hmaps with
        | leaf => omega
        | inner => omega
  | succ left ih =>
    cases pending with
    | nil => exact visitTree_nil_iff
    | cons addr pending =>
      rw [visitTree, Except.bind_eq_ok_iff]
      constructor
      · rintro ⟨node, hread, hrest⟩
        split at hrest
        · rename_i hleaf
          rw [ofExcept_eq, Except.bind_eq_ok_iff] at hrest
          obtain ⟨found, hfound, hrest⟩ := hrest
          obtain ⟨nodes, more, hle, hmaps, rfl⟩ := (ih _ _ _).mp hrest
          exact ⟨nodes + 1, found ++ more, by omega, .leaf hread hleaf hfound hmaps,
            append_assoc _ _ _⟩
        · rename_i hleaf
          rw [ofExcept_eq, Except.bind_eq_ok_iff] at hrest
          obtain ⟨children, hchildren, hrest⟩ := hrest
          obtain ⟨nodes, more, hle, hmaps, rfl⟩ := (ih _ _ _).mp hrest
          exact ⟨nodes + 1, more, by omega, .inner hread (by simpa using hleaf) hchildren hmaps,
            rfl⟩
      · rintro ⟨nodes, found, hle, hmaps, rfl⟩
        cases hmaps with
        | leaf hread hleaf hfound hmaps =>
          refine ⟨_, hread, ?_⟩
          rw [if_pos hleaf, ofExcept_eq, Except.bind_eq_ok_iff]
          exact ⟨_, hfound, (ih _ _ _).mpr ⟨_, _, by omega, hmaps, (append_assoc _ _ _).symm⟩⟩
        | inner hread hinner hchildren hmaps =>
          refine ⟨_, hread, ?_⟩
          rw [if_neg (by rw [hinner]; decide), ofExcept_eq, Except.bind_eq_ok_iff]
          exact ⟨_, hchildren, (ih _ _ _).mpr ⟨_, _, by omega, hmaps, rfl⟩⟩

/-- Block zero describes one area. -/
theorem MapsArea.unique {area area' : DescriptorArea} (h : MapsArea image blockSize desc nodes area)
    (h' : MapsArea image blockSize desc nodes' area') :
    nodes = nodes' ∧ area = area' := by
  obtain ⟨-, -, harea⟩ := h
  obtain ⟨-, -, harea'⟩ := h'
  split at harea
  · rename_i htree
    rw [if_pos htree] at harea'
    obtain ⟨fragments, hmaps, rfl⟩ := harea
    obtain ⟨fragments', hmaps', rfl⟩ := harea'
    obtain ⟨rfl, rfl⟩ := hmaps.unique hmaps'
    exact ⟨rfl, rfl⟩
  · rename_i hflat
    rw [if_neg hflat] at harea'
    obtain ⟨rfl, rfl⟩ := harea
    obtain ⟨rfl, rfl⟩ := harea'
    exact ⟨rfl, rfl⟩

/-- The source knows the area unless its tree has too many nodes. -/
theorem descriptorArea_eq_ok_iff {area : DescriptorArea} :
    descriptorArea (blockAt image blockSize) desc = .ok area ↔
      ∃ nodes, nodes ≤ maxDescTreeNodes ∧ MapsArea image blockSize desc nodes area := by
  unfold descriptorArea MapsArea
  by_cases hbase : desc.base < 0
  · rw [if_pos hbase]
    exact ⟨nofun, fun ⟨_, _, hge, _⟩ => absurd hbase (Int.not_lt.mpr hge)⟩
  by_cases hring : descriptorRingLength desc.blocks = 0
  · rw [if_neg hbase, if_pos hring]
    exact ⟨nofun, fun ⟨_, _, _, hpos, _⟩ => absurd hring (Nat.ne_of_gt hpos)⟩
  have hdescribed : 0 ≤ desc.base ∧ 0 < descriptorRingLength desc.blocks :=
    ⟨Int.not_lt.mp hbase, Nat.pos_of_ne_zero hring⟩
  rw [if_neg hbase, if_neg hring]
  split
  · rw [readDescriptorTree, Except.bind_eq_ok_iff]
    constructor
    · rintro ⟨fragments, hvisit, hsorted⟩
      obtain ⟨nodes, found, hle, hmaps, rfl⟩ := (visitTree_eq_ok_iff _ _ _ _).mp hvisit
      exact ⟨nodes, hle, hdescribed.1, hdescribed.2, _, hmaps, (ok.inj hsorted).symm⟩
    · rintro ⟨nodes, hle, -, -, fragments, hmaps, rfl⟩
      exact ⟨fragments, (visitTree_eq_ok_iff _ _ _ _).mpr ⟨nodes, fragments, hle, hmaps, rfl⟩, rfl⟩
  · constructor
    · intro h
      exact ⟨0, Nat.zero_le _, hdescribed.1, hdescribed.2, rfl, (ok.inj h).symm⟩
    · rintro ⟨nodes, -, -, -, -, rfl⟩
      rfl

end Walk

/-- Collecting the superblocks succeeds exactly when every block of the area can be read. -/
theorem collectCandidates_eq_ok_iff (ring : Ring) (left : Nat) (i candidates result) :
    collectCandidates ring.read ring.area left i candidates = .ok result ↔
      (∀ k ∈ range' i left, ∀ addr, ring.area.blockAddr k = some addr →
        ∃ block, ring.read addr = .ok block) ∧
      result = candidates ++
        (range' i left).filterMap fun k => (ring.blockOf k).bind candidateOf := by
  induction left generalizing i candidates result with
  | zero =>
    simp [collectCandidates, eq_comm]
  | succ left ih =>
    rw [range'_succ, forall_mem_cons, collectCandidates]
    cases haddr : ring.area.blockAddr i with
    | none => simp [Ring.blockOf, haddr, ih]
    | some addr =>
      cases hblock : ring.read addr with
      | error e => simp [hblock]
      | ok block =>
        have hof : ring.blockOf i = some block := by simp [Ring.blockOf, haddr, hblock]
        cases hcandidate : candidateOf block <;> simp [hof, hblock, hcandidate, ih]

/-- All superblocks, from the first index on. -/
theorem collect_eq_ok_iff {ring : Ring} {result : List NxSuperblock} :
    collectCandidates ring.read ring.area ring.len 0 [] = .ok result ↔
      ring.Readable ∧ result = ring.superblocks := by
  rw [collectCandidates_eq_ok_iff, ← range_eq_range']
  simp only [mem_range]
  exact Iff.rfl

/-! ### The blocks of a checkpoint -/

/-- The block verifies and has an object of this kind. -/
def Verifies (block : Bytes) (kind : ObjectType) : Prop :=
  verifyBlock block = true ∧ ∃ header, ObjPhys.parse block = .ok header ∧ header.objectKind = kind

/-- The mapping block can be used. -/
def ParsesAsMap (block : Bytes) (mappings : List CheckpointMapping) : Prop :=
  Verifies block .checkpointMap ∧ ∃ map, parse block = .ok map ∧ mappings = map.mappings

/-- The block verifies and parses; the mappings are those in it. -/
def Parses (block : Bytes) (mappings : List CheckpointMapping) : Prop :=
  (Verifies block .nxSuperblock ∧ (∃ superblock, NxSuperblock.parse block = .ok superblock) ∧
    mappings = []) ∨ ParsesAsMap block mappings

/-- The source accepts the block: it does not parse superblocks of the span. -/
def Passes (block : Bytes) (mappings : List CheckpointMapping) : Prop :=
  (Verifies block .nxSuperblock ∧ mappings = []) ∨ ParsesAsMap block mappings

/-- A mapping block that verifies and does not parse. -/
def IsBadMap (block : Bytes) : Prop := Verifies block .checkpointMap ∧ ∃ e, parse block = .error e

instance (block : Bytes) (kind : ObjectType) : Decidable (Verifies block kind) :=
  inferInstanceAs (Decidable (_ ∧ _))

instance : Decidable (ParsesAsMap block mappings) := inferInstanceAs (Decidable (_ ∧ _))

instance : Decidable (Parses block mappings) := inferInstanceAs (Decidable (_ ∨ _))

instance : Decidable (IsBadMap block) := inferInstanceAs (Decidable (_ ∧ _))

/-- A block that parses is accepted. -/
theorem Parses.passes (h : Parses block mappings) : Passes block mappings := by
  obtain ⟨hverifies, -, hnil⟩ | hmap := h
  · exact .inl ⟨hverifies, hnil⟩
  · exact .inr hmap

/-- How the source takes a block: it is accepted, it fails, or it ends the span. -/
theorem mappingsOf_iff :
    (∀ mappings, mappingsOf block = .ok (some mappings) ↔ Passes block mappings) ∧
      ((∃ e, mappingsOf block = .error e) ↔ IsBadMap block) := by
  unfold mappingsOf Passes ParsesAsMap IsBadMap Verifies
  cases verifyBlock block with
  | false => simp
  | true =>
    cases ObjPhys.parse block with
    | error e => simp
    | ok header =>
      cases hkind : header.objectKind with
      | nxSuperblock => simp [mappingsOfKind, hkind]
      | checkpointMap =>
        cases hparse : parse block <;> simp [mappingsOfKind, hkind, hparse, eq_comm]
      | other field => simp [mappingsOfKind, hkind]

/-! ### The span of a checkpoint -/

namespace Ring

variable (ring : Ring)

/-- The block at a place of the span is as `P` says. -/
def BlockAtPlace (P : Bytes → List CheckpointMapping → Prop) (start j : Nat)
    (mappings : List CheckpointMapping) : Prop :=
  ∃ block, ring.blockOf ((start + j) % ring.len) = some block ∧ P block mappings

/-- The span is not empty and inside the ring. -/
def SpanInRing (superblock : NxSuperblock) : Prop :=
  0 < superblock.xpDesc.len ∧ superblock.xpDesc.len ≤ ring.len ∧ superblock.xpDesc.index < ring.len

instance (superblock : NxSuperblock) : Decidable (ring.SpanInRing superblock) :=
  inferInstanceAs (Decidable (_ ∧ _))

/-- Every block of the span is as `P` says, and the mappings are those of its blocks. -/
def Spans (P : Bytes → List CheckpointMapping → Prop) (superblock : NxSuperblock)
    (mappings : List CheckpointMapping) : Prop :=
  ring.SpanInRing superblock ∧ ∃ parts, List.Forall₂ (ring.BlockAtPlace P superblock.xpDesc.index)
    (range superblock.xpDesc.len) parts ∧ mappings = parts.flatten

/-- Every block of the span verifies and parses. -/
def Intact : NxSuperblock → List CheckpointMapping → Prop := ring.Spans Parses

/-- The source accepts every block of the span. -/
def Accepted : NxSuperblock → List CheckpointMapping → Prop := ring.Spans Passes

/-- Behind blocks that the source accepts there is a mapping block in the span that does not parse.
    -/
def Trips (superblock : NxSuperblock) : Prop :=
  ring.SpanInRing superblock ∧ ∃ j < superblock.xpDesc.len,
    (∀ i < j, ∃ mappings, ring.BlockAtPlace Passes superblock.xpDesc.index i mappings) ∧
    ring.BlockAtPlace (fun block _ => IsBadMap block) superblock.xpDesc.index j []

/-- The source does not pass over the superblock. -/
def Stops (superblock : NxSuperblock) : Prop :=
  ring.Trips superblock ∨ ∃ mappings, ring.Accepted superblock mappings

/-- A superblock of the area with an intact checkpoint. -/
def IntactIn (superblock : NxSuperblock) (mappings : List CheckpointMapping) : Prop :=
  superblock ∈ ring.superblocks ∧ ring.Intact superblock mappings

end Ring

namespace Ring

variable {ring : Ring} {start j : Nat} {superblock : NxSuperblock}

/-- A span of blocks that satisfy more. -/
theorem Spans.mono {P Q : Bytes → List CheckpointMapping → Prop}
    (hPQ : ∀ block mappings, P block mappings → Q block mappings)
    (h : ring.Spans P superblock mappings) : ring.Spans Q superblock mappings := by
  obtain ⟨hspan, parts, hparts, rfl⟩ := h
  refine ⟨hspan, parts, hparts.imp ?_, rfl⟩
  rintro j part ⟨block, hblock, hP⟩
  exact ⟨block, hblock, hPQ block part hP⟩

/-- The source accepts an intact checkpoint. -/
theorem Intact.accepted (h : ring.Intact superblock mappings) :
    ring.Accepted superblock mappings :=
  h.mono fun _ _ => Parses.passes

/-- A block of the span that is mapped. -/
theorem gatherFrom_of_some (h : ring.blockOf ((start + j) % ring.len) = some block) :
    gatherFrom ring.read ring.area ring.len start (left + 1) j mappings =
      mappingsOf block >>= fun found =>
        match found with
        | none => .ok none
        | some more =>
          gatherFrom ring.read ring.area ring.len start left (j + 1) (mappings ++ more) := by
  obtain ⟨addr, haddr, hblock⟩ := bind_eq_some_iff.mp h
  rw [gatherFrom, haddr]
  show (ring.read addr >>= _) = _
  rw [toOption_eq_some_iff.mp hblock]
  show ((MonadExcept.ofExcept (mappingsOf block) : Except ApfsError _) >>= _) = _
  rw [ofExcept_eq]
  rfl

section

variable (hreadable : ring.Readable)

include hreadable

/-- A block of the span that is not mapped ends it. -/
theorem gatherFrom_of_none (hpos : 0 < ring.len)
    (h : ring.blockOf ((start + j) % ring.len) = none) :
    gatherFrom ring.read ring.area ring.len start (left + 1) j mappings = .ok none := by
  rw [gatherFrom]
  cases haddr : ring.area.blockAddr ((start + j) % ring.len) with
  | none => rfl
  | some addr =>
    obtain ⟨block, hblock⟩ := hreadable _ (Nat.mod_lt _ hpos) addr haddr
    rw [blockOf, haddr, bind_some, hblock] at h
    cases h

omit hreadable in
/-- The first place of a span where the blocks before it pass. -/
theorem exists_place_succ_iff {P Q : Nat → Prop} :
    (∃ k, j ≤ k ∧ k < j + (left + 1) ∧ (∀ i, j ≤ i → i < k → P i) ∧ Q k) ↔
      Q j ∨ P j ∧ ∃ k, j + 1 ≤ k ∧ k < j + 1 + left ∧ (∀ i, j + 1 ≤ i → i < k → P i) ∧ Q k := by
  constructor
  · rintro ⟨k, hge, hlt, hbefore, hk⟩
    obtain rfl | hgt := Nat.eq_or_lt_of_le hge
    · exact .inl hk
    · exact .inr ⟨hbefore j (Nat.le_refl j) hgt, k, hgt, by omega,
        fun i hi => hbefore i (by omega), hk⟩
  · rintro (hj | ⟨hj, k, hge, hlt, hbefore, hk⟩)
    · exact ⟨j, Nat.le_refl j, by omega, fun i hi hlt => by omega, hj⟩
    · refine ⟨k, by omega, by omega, fun i hi hik => ?_, hk⟩
      obtain rfl | hgt := Nat.eq_or_lt_of_le hi
      · exact hj
      · exact hbefore i hgt hik

/-- What the span gathers, and where it fails. -/
theorem gatherFrom_iff (hpos : 0 < ring.len) (left : Nat) (j mappings) :
    (∀ result, gatherFrom ring.read ring.area ring.len start left j mappings = .ok (some result) ↔
      ∃ parts, List.Forall₂ (ring.BlockAtPlace Passes start) (range' j left) parts ∧
        result = mappings ++ parts.flatten) ∧
    ((∃ e, gatherFrom ring.read ring.area ring.len start left j mappings = .error e) ↔
      ∃ k, j ≤ k ∧ k < j + left ∧
        (∀ i, j ≤ i → i < k → ∃ mappings, ring.BlockAtPlace Passes start i mappings) ∧
        ring.BlockAtPlace (fun block _ => IsBadMap block) start k []) := by
  induction left generalizing j mappings with
  | zero =>
    simp [gatherFrom, eq_comm]
    omega
  | succ left ih =>
    rw [range'_succ, exists_place_succ_iff]
    cases hblock : ring.blockOf ((start + j) % ring.len) with
    | none =>
      simp [gatherFrom_of_none hreadable hpos hblock, forall₂_cons_left_iff, BlockAtPlace, hblock]
    | some block =>
      rw [gatherFrom_of_some hblock]
      cases hmore : mappingsOf block with
      | error e =>
        simp [forall₂_cons_left_iff, BlockAtPlace, hblock, ← mappingsOf_iff.1, ← mappingsOf_iff.2,
          hmore]
      | ok more =>
        cases more <;> simp [forall₂_cons_left_iff, BlockAtPlace, hblock, ← mappingsOf_iff.1,
          ← mappingsOf_iff.2, hmore, ih]

variable {superblock : NxSuperblock}

/-- A span is accepted, it fails, or neither. -/
theorem gatherMappings_iff :
    (∀ mappings, gatherMappings ring.read ring.area ring.len superblock = .ok (some mappings) ↔
      ring.Accepted superblock mappings) ∧
    ((∃ e, gatherMappings ring.read ring.area ring.len superblock = .error e) ↔
      ring.Trips superblock) := by
  unfold gatherMappings Accepted Spans Trips
  by_cases hspan : ring.SpanInRing superblock
  · have hpos : 0 < ring.len := Nat.lt_of_lt_of_le hspan.1 hspan.2.1
    rw [if_neg (by unfold SpanInRing at hspan; omega), range_eq_range']
    simp [gatherFrom_iff hreadable hpos, hspan]
  · rw [if_pos (by unfold SpanInRing at hspan; omega)]
    simp [hspan]

/-- A span is passed over when it is not accepted and does not fail. -/
theorem gatherMappings_eq_none_iff :
    gatherMappings ring.read ring.area ring.len superblock = .ok none ↔
      ¬ ring.Stops superblock := by
  unfold Stops
  rw [← (gatherMappings_iff hreadable).2]
  simp only [← (gatherMappings_iff hreadable).1]
  cases gatherMappings ring.read ring.area ring.len superblock with
  | error e => simp
  | ok mappings =>
    cases mappings with
    | none => simp
    | some mappings => simp

/-- A span has one list of mappings. -/
theorem Accepted.unique {mappings' : List CheckpointMapping} (h : ring.Accepted superblock mappings)
    (h' : ring.Accepted superblock mappings') : mappings = mappings' := by
  have hsome := ((gatherMappings_iff hreadable).1 _).mpr h
  rw [((gatherMappings_iff hreadable).1 _).mpr h'] at hsome
  cases hsome
  rfl

/-- A span that fails is not accepted. -/
theorem Trips.not_accepted (h : ring.Trips superblock) : ¬ ring.Accepted superblock mappings := by
  intro haccepted
  obtain ⟨e, he⟩ := (gatherMappings_iff hreadable).2.mpr h
  cases he.symm.trans (((gatherMappings_iff hreadable).1 _).mpr haccepted)

/-- The first superblock that is not passed over decides. -/
theorem firstValid_eq_ok_iff (candidates : List NxSuperblock) {checkpoint : Checkpoint} :
    firstValid ring.read ring.area ring.len candidates = .ok checkpoint ↔
      ∃ front back, candidates = front ++ checkpoint.superblock :: back ∧
        (∀ c ∈ front, ¬ ring.Stops c) ∧
        ring.Accepted checkpoint.superblock checkpoint.mappings := by
  induction candidates with
  | nil =>
    constructor
    · exact nofun
    · rintro ⟨front, back, hnil, -⟩
      exact absurd hnil.symm (append_ne_nil_of_right_ne_nil _ (cons_ne_nil _ _))
  | cons superblock candidates ih =>
    rw [firstValid, Except.bind_eq_ok_iff]
    constructor
    · rintro ⟨mappings, hgather, hrest⟩
      cases mappings with
      | none =>
        obtain ⟨front, back, rfl, hfront, haccepted⟩ := ih.mp hrest
        refine ⟨superblock :: front, back, rfl, ?_, haccepted⟩
        exact forall_mem_cons.mpr ⟨(gatherMappings_eq_none_iff hreadable).mp hgather, hfront⟩
      | some mappings =>
        cases hrest
        exact ⟨[], candidates, rfl, nofun, ((gatherMappings_iff hreadable).1 _).mp hgather⟩
    · rintro ⟨front, back, hsplit, hfront, haccepted⟩
      cases front with
      | nil =>
        obtain ⟨rfl, rfl⟩ := cons.inj hsplit
        exact ⟨_, ((gatherMappings_iff hreadable).1 _).mpr haccepted, rfl⟩
      | cons first front =>
        obtain ⟨rfl, rfl⟩ := cons.inj hsplit
        obtain ⟨hfirst, hfront⟩ := forall_mem_cons.mp hfront
        exact ⟨none, (gatherMappings_eq_none_iff hreadable).mpr hfirst,
          ih.mpr ⟨front, back, rfl, hfront, haccepted⟩⟩

end

end Ring

/-! ### The newest intact checkpoint -/

section Newest

variable {blockZero : NxSuperblock} {d : σ}

/-- Block zero describes the ring; a tree that maps its area has so many nodes. -/
def MapsRing (image : ByteImage) (blockZero : NxSuperblock) (nodes : Nat) (ring : Ring) : Prop :=
  ∃ area, MapsArea image blockZero.blockSize blockZero.xpDesc nodes area ∧
    ring = ⟨image, blockZero.blockSize, area, descriptorRingLength blockZero.xpDesc.blocks⟩

/-- What is returned is the newest intact checkpoint, and one is returned if there is one and the
    blocks of the area can be read. -/
structure OpensNewest (image : ByteImage) (blockZero : NxSuperblock) (fs : BlockReader ε σ)
    (d : σ) : Prop where
  newest : ∀ checkpoint t, latestCheckpoint fs blockZero d = .ok checkpoint t →
    ∃ nodes ring, MapsRing image blockZero nodes ring ∧
      ring.IntactIn checkpoint.superblock checkpoint.mappings ∧
      ∀ superblock mappings, ring.IntactIn superblock mappings →
        superblock.xid ≤ checkpoint.superblock.xid
  opens : ∀ nodes ring, MapsRing image blockZero nodes ring → ring.Readable →
    (∃ superblock mappings, ring.IntactIn superblock mappings) →
    ∃ checkpoint t, latestCheckpoint fs blockZero d = .ok checkpoint t

/-- Of the superblocks of the area, the newest one that is not passed over is intact, or it trips
    and no other is intact; and a tree that maps an area with an intact checkpoint is not too large.
    -/
def NothingInTheWay (image : ByteImage) (blockZero : NxSuperblock) : Prop :=
  ∀ nodes ring, MapsRing image blockZero nodes ring → ring.Readable →
    ((∃ superblock mappings, ring.IntactIn superblock mappings) → nodes ≤ maxDescTreeNodes) ∧
    (nodes ≤ maxDescTreeNodes → ∀ front superblock back,
      ring.newestFirst = front ++ superblock :: back → (∀ c ∈ front, ¬ ring.Stops c) →
      ring.Stops superblock → (∃ mappings, ring.IntactIn superblock mappings) ∨
        (ring.Trips superblock ∧ ¬ ∃ superblock mappings, ring.IntactIn superblock mappings))

/-- Block zero describes one ring. -/
theorem MapsRing.unique {ring ring' : Ring} (h : MapsRing image blockZero nodes ring)
    (h' : MapsRing image blockZero nodes' ring') : nodes = nodes' ∧ ring = ring' := by
  obtain ⟨area, hmaps, rfl⟩ := h
  obtain ⟨area', hmaps', rfl⟩ := h'
  obtain ⟨rfl, rfl⟩ := hmaps.unique hmaps'
  exact ⟨rfl, rfl⟩

/-- The scan ends with the checkpoint. -/
def Ring.EndsWith (ring : Ring) (checkpoint : Checkpoint) : Prop :=
  ∃ front back, ring.newestFirst = front ++ checkpoint.superblock :: back ∧
    (∀ c ∈ front, ¬ ring.Stops c) ∧ ring.Accepted checkpoint.superblock checkpoint.mappings

/-- What the scan comes to on the content of the container. -/
theorem latest_eq_ok_iff {checkpoint : Checkpoint} :
    latestCheckpointWith (blockAt image blockZero.blockSize) blockZero.xpDesc = .ok checkpoint ↔
      ∃ nodes ring, nodes ≤ maxDescTreeNodes ∧ MapsRing image blockZero nodes ring ∧ ring.Readable ∧
        ring.EndsWith checkpoint := by
  rw [latestCheckpointWith, Except.bind_eq_ok_iff]
  constructor
  · rintro ⟨area, harea, hrest⟩
    obtain ⟨nodes, hle, hmaps⟩ := descriptorArea_eq_ok_iff.mp harea
    obtain ⟨candidates, hcollect, hfirst⟩ := bind_eq_ok_iff.mp hrest
    let ring : Ring :=
      ⟨image, blockZero.blockSize, area, descriptorRingLength blockZero.xpDesc.blocks⟩
    have hring : collectCandidates ring.read ring.area ring.len 0 [] = .ok candidates := hcollect
    obtain ⟨hreadable, rfl⟩ := collect_eq_ok_iff.mp hring
    exact ⟨nodes, ring, hle, ⟨area, hmaps, rfl⟩, hreadable,
      (Ring.firstValid_eq_ok_iff hreadable _).mp hfirst⟩
  · rintro ⟨nodes, ring, hle, ⟨area, hmaps, rfl⟩, hreadable, hends⟩
    refine ⟨area, descriptorArea_eq_ok_iff.mpr ⟨nodes, hle, hmaps⟩, Except.bind_eq_ok_iff.mpr ?_⟩
    exact ⟨_, collect_eq_ok_iff.mpr ⟨hreadable, rfl⟩, (Ring.firstValid_eq_ok_iff hreadable _).mpr
      hends⟩

/-- The scan on the device is the scan on the content. -/
theorem run_eq_ok_iff (hfs : fs.ServesImage image pos D) (hd : D d) (checkpoint : Checkpoint) :
    (∃ t, latestCheckpoint fs blockZero d = .ok checkpoint t) ↔
      ∃ nodes ring, nodes ≤ maxDescTreeNodes ∧ MapsRing image blockZero nodes ring ∧ ring.Readable ∧
        ring.EndsWith checkpoint :=
  ((evaluates_latestCheckpointWith (evaluates_readBlock hfs _) _).exists_ok_iff hd).trans
    latest_eq_ok_iff

/-- If the newest intact checkpoint is opened, nothing was in the way. -/
theorem nothingInTheWay_of_opensNewest (hfs : fs.ServesImage image pos D) (hd : D d)
    (hopens : OpensNewest image blockZero fs d) : NothingInTheWay image blockZero := by
  intro nodes ring hmaps hreadable
  -- if there is an intact checkpoint the scan ends with one, in the same ring
  have hends : (∃ superblock mappings, ring.IntactIn superblock mappings) →
      nodes ≤ maxDescTreeNodes ∧ ∃ checkpoint, ring.EndsWith checkpoint := by
    intro hintact
    obtain ⟨checkpoint, t, hrun⟩ := hopens.opens nodes ring hmaps hreadable hintact
    obtain ⟨nodes', ring', hle, hmaps', -, hends⟩ := (run_eq_ok_iff hfs hd checkpoint).mp ⟨t, hrun⟩
    obtain ⟨rfl, rfl⟩ := hmaps.unique hmaps'
    exact ⟨hle, checkpoint, hends⟩
  refine ⟨fun hintact => (hends hintact).1, fun hle front superblock back hsplit hfront hstops =>
    ?_⟩
  obtain htrips | ⟨mappings, haccepted⟩ := hstops
  · refine .inr ⟨htrips, fun hintact => ?_⟩
    obtain ⟨-, checkpoint, front', back', hsplit', hfront', haccepted⟩ := hends hintact
    obtain rfl := first_unique (hsplit.symm.trans hsplit') hfront (.inl htrips) hfront'
      (.inr ⟨_, haccepted⟩)
    exact htrips.not_accepted hreadable haccepted
  · obtain ⟨t, hrun⟩ := (run_eq_ok_iff hfs hd ⟨superblock, mappings⟩).mpr
      ⟨nodes, ring, hle, hmaps, hreadable, front, back, hsplit, hfront, haccepted⟩
    obtain ⟨nodes', ring', hmaps', hintact, -⟩ := hopens.newest _ t hrun
    obtain ⟨rfl, rfl⟩ := hmaps.unique hmaps'
    exact .inl ⟨mappings, hintact⟩

/-- If nothing is in the way, the newest intact checkpoint is opened. -/
theorem opensNewest_of_nothingInTheWay (hfs : fs.ServesImage image pos D) (hd : D d)
    (hway : NothingInTheWay image blockZero) : OpensNewest image blockZero fs d where
  newest := by
    intro checkpoint t hrun
    obtain ⟨nodes, ring, hle, hmaps, hreadable, front, back, hsplit, hfront, haccepted⟩ :=
      (run_eq_ok_iff hfs hd checkpoint).mp ⟨t, hrun⟩
    obtain ⟨mappings, hin, hintact⟩ | ⟨htrips, -⟩ := (hway nodes ring hmaps hreadable).2 hle front
      checkpoint.superblock back hsplit hfront (.inr ⟨_, haccepted⟩)
    · obtain rfl := haccepted.unique hreadable hintact.accepted
      refine ⟨nodes, ring, hmaps, ⟨hin, hintact⟩, fun superblock mappings hother => ?_⟩
      have hmem : superblock ∈ ring.newestFirst := (mem_insertionSort _).mpr hother.1
      rw [hsplit, mem_append, mem_cons] at hmem
      obtain hbefore | rfl | hafter := hmem
      · exact absurd (.inr ⟨mappings, hother.2.accepted⟩) (hfront superblock hbefore)
      · exact Nat.le_refl _
      · have hsorted : ring.newestFirst.Pairwise fun a b => b.xid ≤ a.xid :=
          pairwise_insertionSort _ _
        rw [hsplit] at hsorted
        exact (pairwise_cons.mp (pairwise_append.mp hsorted).2.1).1 superblock hafter
    · exact absurd haccepted (htrips.not_accepted hreadable)
  opens := by
    intro nodes ring hmaps hreadable hintact
    obtain ⟨hsmall, hfirst⟩ := hway nodes ring hmaps hreadable
    have hle := hsmall hintact
    obtain ⟨superblock, mappings, hin, hintactAt⟩ := hintact
    have hmem : superblock ∈ ring.newestFirst := (mem_insertionSort _).mpr hin
    obtain ⟨front, first, back, hsplit, hfront, hstops⟩ :=
      exists_first (P := ring.Stops) ⟨superblock, hmem, .inr ⟨mappings, hintactAt.accepted⟩⟩
    obtain ⟨mappings', -, hfirstIntact⟩ | ⟨-, hnone⟩ :=
      hfirst hle front first back hsplit hfront hstops
    · obtain ⟨t, hrun⟩ := (run_eq_ok_iff hfs hd ⟨first, mappings'⟩).mpr
        ⟨nodes, ring, hle, hmaps, hreadable, front, back, hsplit, hfront, hfirstIntact.accepted⟩
      exact ⟨_, t, hrun⟩
    · exact absurd ⟨superblock, mappings, hin, hintactAt⟩ hnone

/-- On a device that serves the container, the newest intact checkpoint is opened exactly when
    nothing is in its way. -/
theorem opens_newest_iff (hfs : fs.ServesImage image pos D) {d : σ} (hd : D d) :
    OpensNewest image blockZero fs d ↔ NothingInTheWay image blockZero :=
  ⟨nothingInTheWay_of_opensNewest hfs hd, opensNewest_of_nothingInTheWay hfs hd⟩

end Newest

/-! ### A container with two checkpoints -/

/-- A block with its checksum in front. -/
def sealBlock (body : Bytes) : Bytes := toLE 8 (fletcher64 body) ++ body

/-- A superblock of a ring of three blocks that starts at block 1. -/
def superblockBody (xid index len : UInt8) : Bytes :=
  [0, 0, 0, 0, 0, 0, 0, 0, xid, 0, 0, 0, 0, 0, 0, 0, 1, 0, 0, 0x80, 0, 0, 0, 0, 0x4E, 0x58, 0x53,
    0x42, 0, 16, 0, 0] ++ (zeros 64 ++ ([3, 0, 0, 0, 0, 0, 0, 0, 1] ++ (zeros 23 ++
      ([index, 0, 0, 0, len, 0, 0, 0] ++ zeros 3952))))

/-- A mapping block that claims so many mappings. -/
def mapBody (count : UInt8) : Bytes :=
  zeros 16 ++ ([0x0C, 0, 0, 0x40, 0, 0, 0, 0, 0, 0, 0, 0, count, 0, 0, 0] ++ zeros 4056)

/-- The superblock in its block. -/
def ringSuperblock (xid index len : UInt8) : NxSuperblock :=
  .ofBlock (sealBlock (superblockBody xid index len))

/-- The first transaction is in one block, and the second has a mapping block. -/
def twoCheckpoints (count : UInt8) : List Bytes :=
  [zeros 4096, sealBlock (superblockBody 1 0 1), sealBlock (mapBody count),
    sealBlock (superblockBody 2 1 2)]

/-- A container of blocks of 4096 bytes. -/
def blockImage (blocks : List Bytes) : ByteImage where
  content := fun offset => (blocks.getD (offset / 4096) []).toContent (offset % 4096)
  length := blocks.length * 4096

/-- The blocks of the container. -/
theorem blockAt_blockImage {blocks : List Bytes} (hblocks : ∀ block ∈ blocks, block.length = 4096)
    (hcount : blocks.length < 2 ^ 50) (h : blocks[i]? = some block) :
    blockAt (blockImage blocks) 4096 i = .ok block := by
  obtain ⟨hlt, -⟩ := List.getElem?_eq_some_iff.mp h
  have hlen : block.length = 4096 := hblocks block (mem_of_getElem? h)
  refine blockAt_eq_ok_iff.mpr ⟨by omega, ?_, ?_⟩
  · show i * 4096 + 4096 ≤ blocks.length * 4096
    omega
  have hself : block = window block.toContent 0 4096 := by
    rw [← slice_eq_window (by omega), slice, drop_zero, ← hlen, take_length]
  conv_lhs => rw [hself]
  apply window_inj.mpr
  intro k hk
  show _ = (blocks.getD ((i * 4096 + k) / 4096) []).toContent ((i * 4096 + k) % 4096)
  rw [show (i * 4096 + k) / 4096 = i by omega, show (i * 4096 + k) % 4096 = 0 + k by omega,
    getD_eq_getElem?_getD, h, getD_some]

/-- Block zero of the container. -/
def twoCheckpointsZero : NxSuperblock :=
  { ringSuperblock 1 0 1 with blockSize := 4096, xpDesc := ⟨3, 1, 0, 0, 1⟩ }

/-- The ring of the container. -/
def twoCheckpointsRing (count : UInt8) : Ring :=
  ⟨blockImage (twoCheckpoints count), 4096, .contiguous 1, 3⟩

section TwoCheckpoints

variable (count : UInt8)

/-- Block zero of the container describes its ring. -/
theorem twoCheckpoints_maps :
    MapsRing (blockImage (twoCheckpoints count)) twoCheckpointsZero 0 (twoCheckpointsRing count) :=
  ⟨.contiguous 1, ⟨by decide, by decide, by rw [if_neg (by decide)]; exact ⟨rfl, rfl⟩⟩, rfl⟩

/-- Its blocks can be read. -/
theorem twoCheckpoints_read (h : (twoCheckpoints count)[i]? = some block) :
    (twoCheckpointsRing count).read i = .ok block := by
  have hlen : ∀ block ∈ twoCheckpoints count, block.length = 4096 := by
    simp [twoCheckpoints, sealBlock, superblockBody, mapBody]
  exact blockAt_blockImage hlen (show 4 < 2 ^ 50 by decide) h

/-- The ring starts at block 1. -/
theorem twoCheckpoints_blockOf (hi : i < 3) (h : (twoCheckpoints count)[1 + i]? = some block) :
    (twoCheckpointsRing count).blockOf i = some block := by
  have haddr : (twoCheckpointsRing count).area.blockAddr i = some (1 + i) := if_pos (by omega)
  rw [Ring.blockOf, haddr, bind_some, twoCheckpoints_read count h]
  rfl

/-- The ring can be read. -/
theorem twoCheckpoints_readable : (twoCheckpointsRing count).Readable := by
  intro i hi addr haddr
  have hlt : 1 + i < (twoCheckpoints count).length := Nat.add_lt_add_left hi 1
  have haddr' : some (1 + i) = some addr := by
    rw [← haddr]
    exact (if_pos (Nat.lt_trans hlt (show 4 < 2 ^ 64 by decide))).symm
  cases haddr'
  exact ⟨_, twoCheckpoints_read count (getElem?_eq_getElem hlt)⟩

section

variable (hmap : candidateOf (sealBlock (mapBody count)) = none)

include hmap

/-- Two of its blocks are superblocks. -/
theorem twoCheckpoints_superblocks :
    (twoCheckpointsRing count).superblocks = [ringSuperblock 1 0 1, ringSuperblock 2 1 2] := by
  show [0, 1, 2].filterMap _ = _
  rw [filterMap_cons_some (b := ringSuperblock 1 0 1), filterMap_cons_none,
    filterMap_cons_some (b := ringSuperblock 2 1 2), filterMap_nil]
  · rw [twoCheckpoints_blockOf count (by decide) rfl, bind_some]
    decide +kernel
  · rw [twoCheckpoints_blockOf count (by decide) rfl, bind_some, hmap]
  · rw [twoCheckpoints_blockOf count (by decide) rfl, bind_some]
    decide +kernel

/-- The second transaction comes first. -/
theorem twoCheckpoints_newestFirst :
    (twoCheckpointsRing count).newestFirst = [ringSuperblock 2 1 2, ringSuperblock 1 0 1] := by
  have hnewer : ¬ (ringSuperblock 2 1 2).xid ≤ (ringSuperblock 1 0 1).xid := by decide +kernel
  rw [Ring.newestFirst, twoCheckpoints_superblocks count hmap, insertionSort_cons]
  exact orderedInsert_of_not_le _ [] hnewer

/-- The older checkpoint is intact. -/
theorem twoCheckpoints_older : (twoCheckpointsRing count).IntactIn (ringSuperblock 1 0 1) [] := by
  refine ⟨by rw [twoCheckpoints_superblocks count hmap]; exact mem_cons_self, ⟨?_, ?_, ?_⟩, [[]],
    ?_, rfl⟩
  · show 0 < (ringSuperblock 1 0 1).xpDesc.len
    decide +kernel
  · show (ringSuperblock 1 0 1).xpDesc.len ≤ 3
    decide +kernel
  · show (ringSuperblock 1 0 1).xpDesc.index < 3
    decide +kernel
  · exact .cons ⟨_, twoCheckpoints_blockOf count (show 0 < 3 by decide) rfl, by decide +kernel⟩ .nil

end

/-- A newer checkpoint whose mapping block can be used is opened. -/
theorem opens_newest_iff_usable : OpensNewest (blockImage (twoCheckpoints 0)) twoCheckpointsZero
    ((blockImage (twoCheckpoints 0)).reader ()) 0 := by
  have hmap : candidateOf (sealBlock (mapBody 0)) = none := by decide +kernel
  have hnewer : (twoCheckpointsRing 0).Intact (ringSuperblock 2 1 2) [] :=
    ⟨by decide +kernel, [[], []],
      .cons ⟨_, twoCheckpoints_blockOf 0 (by decide) rfl, by decide +kernel⟩
      (.cons ⟨_, twoCheckpoints_blockOf 0 (by decide) rfl, by decide +kernel⟩ .nil), rfl⟩
  apply (opens_newest_iff (ByteImage.reader_serves _ ()) trivial).mpr
  intro nodes ring hmaps hreadable
  obtain ⟨rfl, rfl⟩ := (twoCheckpoints_maps 0).unique hmaps
  refine ⟨fun _ => by decide, fun _ front superblock back hsplit hfront hstops => .inl ⟨[], ?_⟩⟩
  rw [twoCheckpoints_newestFirst 0 hmap] at hsplit
  cases front with
  | nil =>
    obtain ⟨rfl, -⟩ := cons.inj hsplit
    refine ⟨?_, hnewer⟩
    rw [twoCheckpoints_superblocks 0 hmap]
    exact mem_cons_of_mem _ mem_cons_self
  | cons first front =>
    obtain ⟨rfl, -⟩ := cons.inj hsplit
    exact absurd (.inr ⟨_, hnewer.accepted⟩) (hfront _ mem_cons_self)

/-- With a mapping block that claims more mappings than it has room for, the older checkpoint is not
    opened although it is intact. -/
theorem bad_map_blocks_fallback : (twoCheckpointsRing 255).Readable ∧
    (twoCheckpointsRing 255).IntactIn (ringSuperblock 1 0 1) [] ∧
    ¬ OpensNewest (blockImage (twoCheckpoints 255)) twoCheckpointsZero
      ((blockImage (twoCheckpoints 255)).reader ()) 0 := by
  have hmap : candidateOf (sealBlock (mapBody 255)) = none := by decide +kernel
  refine ⟨twoCheckpoints_readable 255, twoCheckpoints_older 255 hmap, fun hopens => ?_⟩
  have htrips : (twoCheckpointsRing 255).Trips (ringSuperblock 2 1 2) :=
    ⟨by decide +kernel, 0, by decide +kernel, nofun,
      ⟨_, twoCheckpoints_blockOf 255 (by decide) rfl, by decide +kernel⟩⟩
  have hway := nothingInTheWay_of_opensNewest (ByteImage.reader_serves _ ()) trivial hopens 0 _
    (twoCheckpoints_maps 255) (twoCheckpoints_readable 255)
  obtain ⟨mappings, -, hintact⟩ | ⟨-, hnone⟩ :=
    hway.2 (by decide) [] _ _ (twoCheckpoints_newestFirst 255 hmap) nofun (.inl htrips)
  · exact htrips.not_accepted (twoCheckpoints_readable 255) hintact.accepted
  · exact hnone ⟨_, _, twoCheckpoints_older 255 hmap⟩

end TwoCheckpoints

end Fsmnt.FsApfs
