import Fsmnt.Spec.FsExt.Bitmap
import Fsmnt.Spec.FsExt.MutatorFrame

/-!
# Block bitmaps as a function of the log

The log of a mutator says what happened to the bits of every block bitmap: a group was
initialised, units were marked. As long as nothing else writes the bitmap's block, replaying
the log on a bit gives the bit that the mutator has, and a unit that is handed out was free.
-/

namespace Fsmnt.FsExt

open EStateM Mutator Option Std TreeMap MutatorEvent EStateM.Result

variable (ext : Ext) (fs : FsReader)

/-- The content of a block: scratch before the reader. -/
def Mutator.view (m : Mutator) (block : Nat) : Except ExtError Bytes :=
  match m.blocks[block]? with
  | some scratch => .ok scratch.content
  | none => readBlock ext fs block

/-- A bit of a bitmap that may not be readable. -/
def viewBit (content : Except ExtError Bytes) (unit : Nat) : Bool :=
  match content with
  | .ok bitmap => bitSet bitmap unit
  | .error _ => false

/-- The bitmap that a lazily initialised group gets. -/
def initialBits (group : Nat) (gdp : GroupDescriptor) : Bytes :=
  (initialBitmap ext group gdp (Bytes.zeros ext.blockSize)).state

variable (block : Nat) (cls : BlockClass)

/-- Group and unit of a block. -/
def allocUnit : Nat × Nat :=
  let unit := (block - ext.firstDataBlock) / max ext.blocksPerCluster 1
  (unit / ext.clustersPerGroup, unit % ext.clustersPerGroup)

/-- What an event does to a bit of the bitmap of `group`. -/
def MutatorEvent.effect (group : Nat) (gdp : GroupDescriptor) (unit : Nat) :
    MutatorEvent → Bool → Bool
  | .init g, bit => if g = group then bitSet (initialBits ext group gdp) unit else bit
  | .mark g bitStart count alloc, bit =>
    if g = group ∧ bitStart ≤ unit ∧ unit < bitStart + count then
      alloc && decide (unit / 8 < ext.blockSize)
    else bit
  | .write _, bit | .free _ _, bit | .handOut _, bit | .map _ _, bit => bit

/-- What a log does to a bit of the bitmap of `group`. -/
def replayBit (group : Nat) (gdp : GroupDescriptor) (unit : Nat) (log : List MutatorEvent)
    (bit : Bool) : Bool :=
  log.foldl (fun bit event => event.effect ext group gdp unit bit) bit

theorem replayBit_append (group : Nat) (gdp : GroupDescriptor) (unit : Nat)
    (l₁ l₂ : List MutatorEvent) (bit : Bool) : replayBit ext group gdp unit (l₁ ++ l₂) bit =
      replayBit ext group gdp unit l₂ (replayBit ext group gdp unit l₁ bit) :=
  List.foldl_append

/-! ### The relation -/

/-- `gdp` describes `group`, and no other group has its bitmap block. -/
structure OwnsBitmap (group : Nat) (gdp : GroupDescriptor) : Prop where
  desc : ext.groupDescs[group]? = some gdp
  only : ∀ g d, ext.groupDescs[g]? = some d → d.blockBitmap = gdp.blockBitmap → g = group

/-- The bitmap's scratch, if there is one, is a whole block of its class. -/
def SeededAsBitmap (group : Nat) (gdp : GroupDescriptor) (m : Mutator) : Prop :=
  ∀ s, m.blocks[gdp.blockBitmap]? = some s →
    s.cls = .blockBitmap group ∧ s.content.length = ext.blockSize

/-- What `log` has done to the bits of `group`. -/
structure BitLog (group : Nat) (gdp : GroupDescriptor) (before after : Nat → Bool)
    (log : List MutatorEvent) : Prop where
  bits : ∀ unit, after unit = replayBit ext group gdp unit log (before unit)
  /-- A unit that is handed out was free until it was marked for that. -/
  handOut : ∀ l₁ block l₂, log = l₁ ++ .handOut block :: l₂ → (allocUnit ext block).1 = group →
    (allocUnit ext block).2 / 8 < ext.blockSize ∧
    ∃ l₀, l₁ = l₀ ++ [.mark group (allocUnit ext block).2 1 true] ∧
      replayBit ext group gdp (allocUnit ext block).2 l₀ (before (allocUnit ext block).2) = false

/-- What `log` has done to the bitmap of `group` between two states. -/
structure BitmapStep (group : Nat) (gdp : GroupDescriptor) (m m' : Mutator)
    (log : List MutatorEvent) : Prop where
  seeded : SeededAsBitmap ext group gdp m'
  bitLog : BitLog ext group gdp (viewBit (m.view ext fs gdp.blockBitmap))
    (viewBit (m'.view ext fs gdp.blockBitmap)) log

/-- Only lazily initialised groups are initialised, and blocks are handed out from groups that
    exist. -/
def MutatorEvent.Admitted : MutatorEvent → Prop
  | .init group => ∀ gdp, ext.groupDescs[group]? = some gdp →
    gdp.flags &&& EXT4_BG_BLOCK_UNINIT ≠ 0
  | .handOut block => ∃ gdp, ext.groupDescs[(allocUnit ext block).1]? = some gdp
  | _ => True

/-- The log grows, and it accounts for every bitmap that nothing else writes. -/
def Tracks (m m' : Mutator) : Prop :=
  ∃ log, m'.log = m.log ++ log ∧ (∀ e ∈ log, e.Admitted ext) ∧
    ∀ group gdp, OwnsBitmap ext group gdp → .write gdp.blockBitmap ∉ log →
      SeededAsBitmap ext group gdp m → BitmapStep ext fs group gdp m m' log

variable {ext fs} {m m' : Mutator}

variable {group unit c : Nat} {gdp : GroupDescriptor} {log : List MutatorEvent}

theorem BitLog.nil (bits : Nat → Bool) : BitLog ext group gdp bits bits [] :=
  ⟨fun _ => rfl, fun _ _ _ heq => by simp at heq⟩

/-- Logs are concatenated. -/
theorem BitLog.append {b₁ b₂ b₃ : Nat → Bool} {log₁ log₂ : List MutatorEvent}
    (h₁ : BitLog ext group gdp b₁ b₂ log₁) (h₂ : BitLog ext group gdp b₂ b₃ log₂) :
    BitLog ext group gdp b₁ b₃ (log₁ ++ log₂) := by
  refine ⟨fun unit => by rw [h₂.bits, h₁.bits, replayBit_append], ?_⟩
  intro l₁ block l₂ heq hgroup
  rcases List.append_eq_append_iff.mp heq with ⟨a, hl₁, hlog⟩ | ⟨a, hlog, hrest⟩
  · obtain ⟨hinside, l₀, ha, hfree⟩ := h₂.handOut a block l₂ hlog hgroup
    refine ⟨hinside, log₁ ++ l₀, by rw [hl₁, ha, List.append_assoc], ?_⟩
    rw [replayBit_append, ← h₁.bits, hfree]
  cases a with
  | nil =>
    obtain ⟨_, l₀, ha, _⟩ := h₂.handOut [] block l₂ hrest.symm hgroup
    simp at ha
  | cons x a =>
    obtain ⟨hx, _⟩ := List.cons.inj hrest
    subst hx
    exact h₁.handOut l₁ block a hlog hgroup

theorem Tracks.refl (m : Mutator) : Tracks ext fs m m :=
  ⟨[], by simp, by simp, fun _ _ _ _ hseed => ⟨hseed, .nil _⟩⟩

/-- Tracking is transitive. -/
theorem Tracks.trans {m₁ m₂ m₃ : Mutator} (h₁ : Tracks ext fs m₁ m₂) (h₂ : Tracks ext fs m₂ m₃) :
    Tracks ext fs m₁ m₃ := by
  obtain ⟨log₁, hlog₁, hadm₁, hstep₁⟩ := h₁
  obtain ⟨log₂, hlog₂, hadm₂, hstep₂⟩ := h₂
  refine ⟨log₁ ++ log₂, by rw [hlog₂, hlog₁, List.append_assoc], fun e he => ?_, ?_⟩
  · exact (List.mem_append.mp he).elim (hadm₁ e) (hadm₂ e)
  intro group gdp hown hwrite hseed
  rw [List.mem_append, not_or] at hwrite
  have hs₁ := hstep₁ group gdp hown hwrite.1 hseed
  have hs₂ := hstep₂ group gdp hown hwrite.2 hs₁.seeded
  exact ⟨hs₂.seeded, hs₁.bitLog.append hs₂.bitLog⟩

/-- The events that say nothing about a bitmap. -/
def MutatorEvent.Silent : MutatorEvent → Prop
  | .write _ | .free _ _ | .map _ _ => True
  | .init _ | .mark _ _ _ _ | .handOut _ => False

theorem MutatorEvent.Silent.admitted {e : MutatorEvent} (h : e.Silent) : e.Admitted ext := by
  cases e with
  | init | mark | handOut => exact h.elim
  | write | free | map => trivial

/-- A silent event sets no bit. -/
theorem replayBit_silent (hsilent : ∀ e ∈ log, e.Silent) (bit : Bool) :
    replayBit ext group gdp unit log bit = bit := by
  induction log with
  | nil => rfl
  | cons e log ih =>
    have he := hsilent e List.mem_cons_self
    have hrest := ih fun e' he' => hsilent e' (List.mem_cons_of_mem _ he')
    cases e with
    | init | mark | handOut => exact he.elim
    | write | free | map => exact hrest

/-- A bitmap that the log says nothing about, and whose block stays. -/
theorem BitmapStep.of_block (hseed : SeededAsBitmap ext group gdp m)
    (hsame : (m'.blocks[gdp.blockBitmap]?).map (fun s => (s.cls, s.content)) =
      (m.blocks[gdp.blockBitmap]?).map (fun s => (s.cls, s.content)))
    (hquiet : ∀ unit bit, replayBit ext group gdp unit log bit = bit)
    (hout : ∀ block, .handOut block ∉ log) : BitmapStep ext fs group gdp m m' log := by
  refine ⟨fun s hs => ?_, fun unit => ?_, fun l₁ block l₂ heq _ => ?_⟩
  · rw [hs] at hsame
    obtain ⟨s', hs', heq⟩ := map_eq_some_iff.mp hsame.symm
    obtain ⟨hcls, hcontent⟩ := Prod.mk.inj heq
    rw [← hcls, ← hcontent]
    exact hseed s' hs'
  · rw [hquiet]
    congr 1
    unfold view
    cases hm : m.blocks[gdp.blockBitmap]? with
    | none =>
      rw [hm, map_none, map_eq_none_iff] at hsame
      rw [hsame]
    | some s =>
      rw [hm] at hsame
      obtain ⟨s', hs', heq⟩ := map_eq_some_iff.mp hsame
      rw [hs']
      exact congrArg Except.ok (Prod.mk.inj heq).2
  · exact absurd (by rw [heq]; simp) (hout block)

/-- A step that leaves every bitmap alone. -/
theorem Tracks.of_blocks (log : List MutatorEvent) (hlog : m'.log = m.log ++ log)
    (hsilent : ∀ e ∈ log, e.Silent)
    (hblocks : ∀ group gdp, OwnsBitmap ext group gdp → .write gdp.blockBitmap ∉ log →
      SeededAsBitmap ext group gdp m →
      (m'.blocks[gdp.blockBitmap]?).map (fun s => (s.cls, s.content)) =
        (m.blocks[gdp.blockBitmap]?).map (fun s => (s.cls, s.content))) : Tracks ext fs m m' := by
  refine ⟨log, hlog, fun e he => (hsilent e he).admitted, fun group gdp hown hwrite hseed => ?_⟩
  exact .of_block hseed (hblocks group gdp hown hwrite hseed) (fun _ => replayBit_silent hsilent)
    fun block hmem => hsilent _ hmem

/-! ### Primitive operations -/

variable (ext fs) (f : Bytes → Except MutatorError Bytes)

theorem tracks_stepRel : StepRel (Tracks ext fs) := ⟨Tracks.refl, Tracks.trans⟩

theorem seedBlock_run (m : Mutator) : seedBlock ext fs block cls m =
      if m.blocks.contains block then .ok () m else match readBlock ext fs block with
        | .ok content => .ok () { m with blocks := m.blocks.insert block { cls, content } }
        | .error e => .error (.ext e) m := by
  unfold seedBlock
  rw [get_bind_run]
  split
  · rfl
  · cases readBlock ext fs block <;> rfl

/-- Seeding changes nothing, or it adds the content that the reader has. -/
theorem seedBlock_state (m : Mutator) : (seedBlock ext fs block cls m).state = m ∨
    (m.blocks[block]? = none ∧ ∃ content, readBlock ext fs block = .ok content ∧
      (seedBlock ext fs block cls m).state =
        { m with blocks := m.blocks.insert block { cls, content } }) := by
  rw [seedBlock_run]
  split
  · exact .inl rfl
  rename_i hin
  cases readBlock ext fs block with
  | error e => exact .inl rfl
  | ok content => exact .inr ⟨by simpa using hin, content, rfl, rfl⟩

theorem modifyBlock_of_ne {block b : Nat} (f : ScratchBlock → ScratchBlock) (m : Mutator)
    (hne : b ≠ block) : (m.modifyBlock block f).blocks[b]? = m.blocks[b]? := by
  show (m.blocks.modify block f)[b]? = _
  rw [getElem?_modify, if_neg (by simpa using Ne.symm hne)]

theorem modifyBlock_self (f : ScratchBlock → ScratchBlock) (m : Mutator) :
    (m.modifyBlock block f).blocks[block]? = (m.blocks[block]?).map f := by
  show (m.blocks.modify block f)[block]? = _
  rw [getElem?_modify, if_pos (by simp)]

/-- Seeding touches one block. -/
theorem seedBlock_other (m : Mutator) : (seedBlock ext fs block cls m).state.log = m.log ∧
    ∀ b ≠ block, (seedBlock ext fs block cls m).state.blocks[b]? = m.blocks[b]? := by
  rcases seedBlock_state ext fs block cls m with heq | ⟨_, content, _, heq⟩
  · rw [heq]
    exact ⟨rfl, fun _ _ => rfl⟩
  rw [heq]
  refine ⟨rfl, fun b hb => ?_⟩
  show (m.blocks.insert block _)[b]? = _
  rw [getElem?_insert, if_neg (by simpa using Ne.symm hb)]

/-- Patching touches one block. -/
theorem patchBlock_state (m : Mutator) :
    (patchBlock ext fs block cls f m).state.log = m.log ++ [.write block] ∧
    ∀ b ≠ block, (patchBlock ext fs block cls f m).state.blocks[b]? = m.blocks[b]? := by
  unfold patchBlock
  rw [modify_bind_run]
  obtain ⟨hlog, hblocks⟩ := seedBlock_other ext fs block cls (m.note (.write block))
  cases hseed : seedBlock ext fs block cls (m.note (.write block)) with
  | error e t =>
    rw [hseed] at hlog hblocks
    rw [bind_run_error hseed]
    exact ⟨hlog, hblocks⟩
  | ok u t =>
    rw [hseed] at hlog hblocks
    rw [bind_run_ok hseed, get_bind_run]
    cases t.blocks[block]? with
    | none => exact ⟨hlog, hblocks⟩
    | some scratch =>
      dsimp only
      cases f scratch.content with
      | error e => exact ⟨hlog, hblocks⟩
      | ok content => exact ⟨hlog, fun b hb => (modifyBlock_of_ne _ t hb).trans (hblocks b hb)⟩

/-- A patch outside the bitmaps is silent. -/
theorem tracks_patchBlock :
    Keeps (Tracks ext fs) (patchBlock ext fs block cls f) := by
  intro m
  obtain ⟨hlog, hblocks⟩ := patchBlock_state ext fs block cls f m
  refine .of_blocks _ hlog (by simp [MutatorEvent.Silent]) fun group gdp _ hwrite _ => ?_
  rw [hblocks _ (by simpa using hwrite)]

/-- Changes outside of the blocks and the log do not matter. -/
theorem tracks_of_blocks_eq (hlog : m'.log = m.log) (hblocks : m'.blocks = m.blocks) :
    Tracks ext fs m m' :=
  .of_blocks [] (by simp [hlog]) (by simp [MutatorEvent.Silent]) fun _ _ _ _ _ => by rw [hblocks]

theorem tracks_mutated (m : Mutator) (block inum : Nat) :
    Tracks ext fs m (m.modifyBlock block fun s =>
      { s with mutatedInodes := s.mutatedInodes.insert inum }) := by
  refine .of_blocks [] (by simp [modifyBlock]) (by simp [MutatorEvent.Silent]) fun _ gdp _ _ _ => ?_
  by_cases hb : gdp.blockBitmap = block
  · rw [hb, modifyBlock_self, map_map]
    rfl
  · rw [modifyBlock_of_ne _ _ hb]

/-- Pruning changes nothing, or it drops the scratch of a block of the inode table. -/
theorem keeps_prune {R : Mutator → Mutator → Prop} (hrefl : ∀ m, R m m) {inum : Nat}
    (herase : ∀ m slot s group, inodeTableSlot ext inum = .ok slot → m.blocks[slot.1]? = some s →
      s.cls = .inodeTable group → R m { m with blocks := m.blocks.erase slot.1 }) :
    Keeps R (pruneInodeTableBlockIfUnchanged ext fs inum) := by
  intro m
  unfold pruneInodeTableBlockIfUnchanged
  cases hslot : inodeTableSlot ext inum with
  | error e => exact hrefl m
  | ok slot =>
    simp only [MutatorM.ofExcept, pure_bind, get_bind_run]
    cases hscratch : m.blocks[slot.1]? with
    | none => exact hrefl m
    | some scratch =>
      dsimp only
      cases hcls : scratch.cls with
      | inodeTable g =>
        cases readBlock ext fs slot.1 with
        | error e => exact hrefl m
        | ok backing =>
          show R m (state ((if scratch.content = backing then _ else _ : MutatorM Bool) m))
          split
          · exact herase m slot scratch g hslot hscratch hcls
          · exact hrefl m
      | _ => exact hrefl m

theorem tracks_prune (inum : Nat) :
    Keeps (Tracks ext fs) (pruneInodeTableBlockIfUnchanged ext fs inum) := by
  refine keeps_prune ext fs .refl fun m slot scratch _ _ hscratch hcls => ?_
  refine .of_blocks [] (by simp) (by simp [MutatorEvent.Silent]) fun group gdp _ _ hseed => ?_
  have hne : slot.1 ≠ gdp.blockBitmap := by
    intro hb
    have hbitmap := (hseed scratch (hb ▸ hscratch)).1
    rw [hcls] at hbitmap
    cases hbitmap
  show ((m.blocks.erase slot.1)[gdp.blockBitmap]?).map _ = _
  rw [getElem?_erase, if_neg (by simpa using hne)]

/-- A block that is read whole has the size of a block. -/
theorem readBlock_length {block : Nat} {content : Bytes}
    (h : readBlock ext fs block = .ok content) : content.length = ext.blockSize := by
  unfold readBlock at h
  split at h
  · cases h
  · exact fs.length_readExact _ _ _ h

theorem onBitmap_state (event : MutatorEvent) (f : EStateM MutatorError Bytes Nat)
    (m : Mutator) : (m.blocks[block]? = none ∧ (onBitmap block event f m).state = m) ∨
    ∃ s, m.blocks[block]? = some s ∧ (onBitmap block event f m).state =
      (m.note event).modifyBlock block fun t => { t with content := (f s.content).state } := by
  unfold onBitmap
  rw [get_bind_run]
  cases hs : m.blocks[block]? with
  | none => exact .inl ⟨rfl, rfl⟩
  | some s =>
    refine .inr ⟨s, rfl, ?_⟩
    dsimp only
    cases f s.content <;> rfl

/-- Initialising a bitmap keeps its length. -/
theorem initialBitmap_length (group : Nat) (gdp : GroupDescriptor) :
    Keeps (fun bitmap bitmap' : Bytes => bitmap'.length = bitmap.length)
      (initialBitmap ext group gdp) := by
  have hrel : StepRel fun bitmap bitmap' : Bytes => bitmap'.length = bitmap.length :=
    ⟨fun _ => rfl, fun h₁ h₂ => h₂.trans h₁⟩
  have hmark : ∀ unit count, Keeps (fun bitmap bitmap' : Bytes => bitmap'.length = bitmap.length)
      (markBitmapBits true unit count) :=
    fun unit count bitmap => (bitSet_markBitmapBits true unit count bitmap).1
  have hreserve : ∀ units, Keeps (fun bitmap bitmap' : Bytes => bitmap'.length = bitmap.length)
      (reserveUnits units) := by
    intro units
    induction units with
    | nil => exact hrel.pure _
    | cons unit rest ih => exact hrel.bind (hmark _ _) fun _ => ih
  refine hrel.bind (Keeps.modify fun bitmap => List.length_replicate) fun _ => ?_
  refine hrel.bind (hreserve _) fun _ => ?_
  exact hrel.bind hrel.get fun _ => hmark _ _

/-- The first block of a unit. -/
def unitBlock (group unit : Nat) : Nat :=
  (group * ext.clustersPerGroup + unit) * max ext.blocksPerCluster 1 + ext.firstDataBlock

variable {ext} in
theorem allocUnit_unitBlock (hunit : unit < ext.clustersPerGroup) :
    allocUnit ext (unitBlock ext group unit) = (group, unit) := by
  have hratio : 0 < max ext.blocksPerCluster 1 := by omega
  unfold allocUnit unitBlock
  dsimp only
  rw [Nat.add_sub_cancel, Nat.mul_div_cancel _ hratio, Nat.mul_comm group,
    Nat.mul_add_div (by omega), Nat.div_eq_of_lt hunit, Nat.mul_add_mod, Nat.mod_eq_of_lt hunit,
    Nat.add_zero]

theorem allocationUnitsPerGroup_eq (ratio : Nat) :
    allocationUnitsPerGroup ext ratio = .ok ext.clustersPerGroup := by
  have hpos := ext.clustersPerGroup_pos
  unfold allocationUnitsPerGroup
  rw [if_pos (show ext.clustersPerGroup ≠ 0 by omega), if_neg (by omega)]

theorem divCeil_le_divCeil {a b : Nat} (h : a ≤ b) (d : Nat) : divCeil a d ≤ divCeil b d :=
  Nat.div_le_div_right (by omega)

/-- The units of a group are those of the filesystem that begin in it. -/
theorem allocationUnitsInGroup_eq (group : Nat) : allocationUnitsInGroup ext group =
      min (divCeil (ext.blocksCount - ext.firstDataBlock) ext.blocksPerCluster -
        group * ext.clustersPerGroup) ext.clustersPerGroup := by
  have hpos := ext.blocksPerCluster_pos
  have hratio : max ext.blocksPerCluster 1 = ext.blocksPerCluster := by omega
  have hfirst : groupFirstBlock ext group = ext.firstDataBlock +
      group * ext.clustersPerGroup * ext.blocksPerCluster := by
    rw [groupFirstBlock, ← ext.blocksPerGroup_eq, Nat.mul_assoc]
  have hwhole : ∀ n, divCeil (n * ext.blocksPerCluster) ext.blocksPerCluster = n := fun n => by
    unfold divCeil
    rw [Nat.mul_comm, Nat.add_sub_assoc hpos, Nat.mul_add_div hpos,
      Nat.div_eq_of_lt (by omega), Nat.add_zero]
  unfold allocationUnitsInGroup
  dsimp only
  rw [hratio, hfirst, ← ext.blocksPerGroup_eq]
  split
  · have hle := divCeil_le_divCeil (show ext.blocksCount - ext.firstDataBlock ≤
      group * ext.clustersPerGroup * ext.blocksPerCluster by omega) ext.blocksPerCluster
    rw [hwhole] at hle
    omega
  have hsub : divCeil (ext.blocksCount - (ext.firstDataBlock +
      group * ext.clustersPerGroup * ext.blocksPerCluster)) ext.blocksPerCluster =
      divCeil (ext.blocksCount - ext.firstDataBlock) ext.blocksPerCluster -
        group * ext.clustersPerGroup := by
    unfold divCeil
    rw [← Nat.sub_mul_div]
    congr 1
    rw [Nat.mul_comm ext.blocksPerCluster]
    omega
  have hmono : Monotone fun n => divCeil n ext.blocksPerCluster :=
    fun _ _ h => divCeil_le_divCeil h _
  rw [← hsub]
  refine (hmono.map_min).trans ?_
  rw [hwhole]

/-- A group has at most `clusters_per_group` units. -/
theorem allocationUnitsInGroup_le (group : Nat) :
    allocationUnitsInGroup ext group ≤ ext.clustersPerGroup := by
  rw [allocationUnitsInGroup_eq]
  exact Nat.min_le_right _ _

/-! ### Loops of the allocator -/

section

variable {K : ∀ {α : Type}, MutatorM α → Prop} (hK : Closed @K)

include hK

omit ext fs in
theorem closed_ofExcept_bind {α β : Type} {x : Except ExtError α} {f : α → MutatorM β}
    (h : ∀ a, x = .ok a → K (f a)) : K (MutatorM.ofExcept x >>= f) := by
  cases x with
  | ok a => exact h a rfl
  | error e => exact hK.throw (.ext e)

/-- The units that are marked lie in their groups. -/
theorem closed_markBlockRangeState {pblk len : Nat} {alloc : Bool}
    (hunits : ∀ group bitStart count, bitStart + count ≤ allocationUnitsInGroup ext group →
      K (markGroupUnits ext fs group bitStart count pblk alloc))
    (hfree : K (modify (·.note (.free pblk len)))) :
    K (markBlockRangeState ext fs pblk len alloc) := by
  have hloop : ∀ fuel unit last,
      last ≤ divCeil (ext.blocksCount - ext.firstDataBlock) ext.blocksPerCluster →
      K (markUnitsLoop ext fs ext.clustersPerGroup pblk alloc fuel unit last) := by
    intro fuel unit last hlast
    induction fuel generalizing unit with
    | zero => exact hK.pure _
    | succ fuel ih =>
      rw [markUnitsLoop]
      split
      · refine hK.bind (hunits _ _ _ ?_) fun _ => hK.bind (ih _) fun _ => hK.pure _
        have hstart := Nat.div_mul_le_self unit ext.clustersPerGroup
        have hend :
          unit < unit / ext.clustersPerGroup * ext.clustersPerGroup + ext.clustersPerGroup :=
          Nat.lt_div_mul_add ext.clustersPerGroup_pos
        rw [allocationUnitsInGroup_eq]
        omega
      · exact hK.pure _
  have hnote : K (noteRange pblk len alloc) := by
    unfold noteRange
    split
    · exact hK.pure _
    · exact hfree
  have hpos := ext.blocksPerCluster_pos
  have hratio : max ext.blocksPerCluster 1 = ext.blocksPerCluster := by omega
  unfold markBlockRangeState
  split
  · exact hK.throw _
  split
  · exact hK.pure _
  split
  · exact hK.throw _
  rename_i hlow hlen hhigh
  rw [hratio]
  refine closed_ofExcept_bind hK fun units hunits => closed_ofExcept_bind hK fun cpg hcpg => ?_
  refine hK.bind hnote fun _ => ?_
  rw [allocationUnitsPerGroup_eq] at hcpg
  cases hcpg
  refine hloop _ _ _ ?_
  unfold projectBlockRangeToAllocUnits at hunits
  rw [if_neg (by omega), if_neg hlow] at hunits
  rw [if_neg hlen] at hunits
  cases hunits
  have hle := divCeil_le_divCeil (show pblk - ext.firstDataBlock + len ≤
    ext.blocksCount - ext.firstDataBlock by omega) ext.blocksPerCluster
  have hfirst : (pblk - ext.firstDataBlock) / ext.blocksPerCluster ≤
      divCeil (pblk - ext.firstDataBlock + len) ext.blocksPerCluster :=
    Nat.div_le_div_right (by omega)
  omega

theorem closed_allocateMetadataBlock (htry : ∀ group, K (tryAllocateInGroup ext fs group))
    (nearInum : Nat) : K (allocateMetadataBlock ext fs nearInum) := by
  have hloop : ∀ groupCount startGroup offsets,
      K (allocateLoop ext fs groupCount startGroup offsets) := by
    intro groupCount startGroup offsets
    induction offsets with
    | nil => exact hK.throw _
    | cons offset rest ih =>
      refine hK.bind (htry _) fun found => ?_
      cases found with
      | none => exact ih
      | some pblk => exact hK.pure _
  unfold allocateMetadataBlock
  dsimp only
  split
  · exact hK.throw _
  · exact hloop _ _ _

end

section

variable (hdesc : ext.groupDescs[group]? = some gdp)

include hdesc

/-- The scratch of a bitmap is seeded in its class. -/
theorem tracks_seedBitmap : Keeps (Tracks ext fs)
      (seedBlock ext fs gdp.blockBitmap (.blockBitmap group)) := by
  intro m
  rcases seedBlock_state ext fs gdp.blockBitmap (.blockBitmap group) m with
    heq | ⟨hnone, content, hread, heq⟩
  · rw [heq]
    exact .refl m
  rw [heq]
  refine ⟨[], by simp, by simp, fun group' gdp' hown _ hseed => ?_⟩
  by_cases hb : gdp'.blockBitmap = gdp.blockBitmap
  · have hgroup := hown.only group gdp hdesc hb.symm
    subst hgroup
    have hget : (m.blocks.insert gdp.blockBitmap
        { cls := .blockBitmap group, content })[gdp'.blockBitmap]? =
        some { cls := .blockBitmap group, content } := by
      rw [hb, getElem?_insert_self]
    refine ⟨fun s hs => ?_, fun unit => ?_, fun _ _ _ heq => by simp at heq⟩
    · rw [show _ = some _ from hget] at hs
      injection hs with hs
      rw [← hs]
      exact ⟨rfl, readBlock_length ext fs hread⟩
    · show viewBit _ unit = viewBit _ unit
      unfold view
      rw [show _ = some _ from hget, hb, hnone, hread]
  · refine .of_block hseed ?_ (fun _ _ => rfl) (by simp)
    show ((m.blocks.insert gdp.blockBitmap _)[gdp'.blockBitmap]?).map _ = _
    rw [getElem?_insert, if_neg (by simpa using Ne.symm hb)]

/-! ### Bitmap operations -/

/-- The events of the bitmap of `group`. -/
def MutatorEvent.OfGroup (group : Nat) : MutatorEvent → Prop
  | .init g => g = group
  | .mark g _ _ _ => g = group
  | _ => False

/-- A bitmap operation that does to the bits what its event says. -/
theorem tracks_onBitmap {event : MutatorEvent} {f : EStateM MutatorError Bytes Nat}
    (hevent : event.OfGroup group)
    (hlazy : event = .init group → gdp.flags &&& EXT4_BG_BLOCK_UNINIT ≠ 0)
    (hf : ∀ bitmap : Bytes, bitmap.length = ext.blockSize → (f bitmap).state.length = ext.blockSize
      ∧ ∀ unit, bitSet (f bitmap).state unit = event.effect ext group gdp unit
      (bitSet bitmap unit)) :
    Keeps (Tracks ext fs) (onBitmap gdp.blockBitmap event f) := by
  intro m
  rcases onBitmap_state gdp.blockBitmap event f m with ⟨_, heq⟩ | ⟨s, hs, heq⟩
  · rw [heq]
    exact .refl m
  rw [heq]
  have hout : ∀ block, .handOut block ∉ [event] := by
    intro block hmem
    rw [← List.mem_singleton.mp hmem] at hevent
    exact hevent
  refine ⟨[event], rfl, fun e he => ?_, fun group' gdp' hown _ hseed => ?_⟩
  · rw [List.mem_singleton.mp he]
    cases event with
    | init g =>
      intro gdp' hdesc'
      rw [show g = group from hevent, hdesc] at hdesc'
      rw [← some.inj hdesc']
      exact hlazy (congrArg init hevent)
    | handOut => exact hevent.elim
    | _ => trivial
  by_cases hb : gdp'.blockBitmap = gdp.blockBitmap
  · have hgroup := hown.only group gdp hdesc hb.symm
    subst hgroup
    have hgdp : gdp' = gdp := some.inj (hown.desc.symm.trans hdesc)
    subst hgdp
    obtain ⟨hcls, hlen⟩ := hseed s hs
    obtain ⟨hlen', hbits⟩ := hf s.content hlen
    have hget : ((m.note event).modifyBlock gdp'.blockBitmap
        fun t => { t with content := (f s.content).state }).blocks[gdp'.blockBitmap]? =
        some { s with content := (f s.content).state } := by
      rw [modifyBlock_self, show (m.note event).blocks[gdp'.blockBitmap]? = some s from hs]
      rfl
    refine ⟨fun t ht => ?_, fun unit => ?_,
      fun l₁ block l₂ hsplit => absurd (by rw [hsplit]; simp) (hout block)⟩
    · rw [hget] at ht
      injection ht with ht
      rw [← ht]
      exact ⟨hcls, hlen'⟩
    · unfold view
      rw [hget, hs]
      exact hbits unit
  · -- the bitmap of another group is not changed
    have hne : group ≠ group' := by
      intro hsame
      rw [hsame, hown.desc] at hdesc
      exact hb (congrArg _ (some.inj hdesc))
    refine .of_block hseed (congrArg (Option.map _) (modifyBlock_of_ne _ _ hb))
      (fun unit bit => ?_) hout
    cases event with
    | init g => exact if_neg (by rw [show g = group from hevent]; exact hne)
    | mark g _ _ _ => exact if_neg (fun hc => hne ((show g = group from hevent) ▸ hc.1))
    | _ => rfl

theorem tracks_initGroup (hlazy : gdp.flags &&& EXT4_BG_BLOCK_UNINIT ≠ 0) :
    Keeps (Tracks ext fs) (onBitmap gdp.blockBitmap (.init group)
      (initialBitmap ext group gdp)) := by
  refine tracks_onBitmap ext fs hdesc rfl (fun _ => hlazy) fun bitmap hlen => ⟨?_, fun unit => ?_⟩
  · rw [initialBitmap_length ext group gdp bitmap, hlen]
  · refine Eq.trans ?_ (if_pos rfl).symm
    unfold initialBits initialBitmap
    rw [modify_bind_run, modify_bind_run, hlen, Bytes.length_zeros]

theorem tracks_markUnits (bitStart count : Nat) (alloc : Bool) :
    Keeps (Tracks ext fs) (onBitmap gdp.blockBitmap (.mark group bitStart count alloc)
      (markBitmapBits alloc bitStart count)) := by
  refine tracks_onBitmap ext fs hdesc rfl (fun h => nomatch h) fun bitmap hlen => ?_
  obtain ⟨hlen', hbits⟩ := bitSet_markBitmapBits alloc bitStart count bitmap
  refine ⟨hlen'.trans hlen, fun unit => ?_⟩
  rw [hbits, hlen]
  simp only [effect, true_and]

omit hdesc in
theorem tracks_ensure (group : Nat) :
    Keeps (Tracks ext fs) (ensureBlockGroupInitialized ext fs group) := by
  have hrel := tracks_stepRel ext fs
  unfold ensureBlockGroupInitialized
  split
  · exact hrel.throw _
  rename_i gdp hdesc
  split
  · exact hrel.pure _
  rename_i hlazy
  refine hrel.bind hrel.get fun m => ?_
  split
  · exact hrel.pure _
  refine hrel.bind (tracks_seedBitmap ext fs hdesc) fun _ => ?_
  refine hrel.bind (tracks_initGroup ext fs hdesc hlazy) fun _ => ?_
  refine hrel.bind (tracks_patchBlock ext fs _ _ _) fun _ => ?_
  exact Keeps.modify fun m => tracks_of_blocks_eq ext fs rfl rfl

omit hdesc in
theorem tracks_markGroupUnits (group bitStart count pblk : Nat) (alloc : Bool) :
    Keeps (Tracks ext fs) (markGroupUnits ext fs group bitStart count pblk alloc) := by
  have hrel := tracks_stepRel ext fs
  unfold markGroupUnits
  split
  · exact hrel.throw _
  rename_i gdp hdesc
  refine hrel.bind (tracks_ensure ext fs group) fun _ => ?_
  refine hrel.bind (tracks_seedBitmap ext fs hdesc) fun _ => ?_
  refine hrel.bind (tracks_markUnits ext fs hdesc _ _ _) fun changed => ?_
  refine hrel.bind (Keeps.modify fun m => ?_) fun _ => hrel.pure _
  unfold tallyUnits
  split <;> exact tracks_of_blocks_eq ext fs rfl rfl

omit hdesc in
theorem tracks_markBlockRangeState (pblk len : Nat) (alloc : Bool) :
    Keeps (Tracks ext fs) (markBlockRangeState ext fs pblk len alloc) :=
  closed_markBlockRangeState ext fs (tracks_stepRel ext fs).closed
    (fun group bitStart count _ => tracks_markGroupUnits ext fs group bitStart count pblk alloc)
    (Keeps.modify fun m => .of_blocks [.free pblk len] rfl (by simp [MutatorEvent.Silent])
      fun _ _ _ _ _ => rfl)

/-! ### Allocation -/

/-- The group is not lazily initialised, or this mutator has initialised it. -/
def GroupReady (group : Nat) (gdp : GroupDescriptor) (m : Mutator) : Prop :=
  gdp.flags &&& EXT4_BG_BLOCK_UNINIT = 0 ∨ m.initializedBlockGroups.contains group = true

section

variable (hready : GroupReady group gdp m)

include hready

theorem ensure_of_ready : ensureBlockGroupInitialized ext fs group m = .ok () m := by
  unfold ensureBlockGroupInitialized
  rw [hdesc]
  dsimp only
  split
  · rfl
  · rename_i hflag
    rw [get_bind_run, if_pos (hready.resolve_left hflag)]
    rfl

omit hready in
theorem ensure_ready {u : Unit} (h : ensureBlockGroupInitialized ext fs group m = .ok u m') :
    GroupReady group gdp m' := by
  unfold ensureBlockGroupInitialized at h
  rw [hdesc] at h
  dsimp only at h
  by_cases hflag : gdp.flags &&& EXT4_BG_BLOCK_UNINIT = 0
  · exact .inl hflag
  rw [if_neg hflag, get_bind_run] at h
  right
  split at h
  · rename_i hdone
    rw [pure_eq_ok_iff] at h
    rw [← h.2]
    exact hdone
  obtain ⟨_, _, _, h⟩ := bind_eq_ok_iff.mp h
  obtain ⟨_, _, _, h⟩ := bind_eq_ok_iff.mp h
  obtain ⟨_, t, _, h⟩ := bind_eq_ok_iff.mp h
  rw [modify_eq_ok_iff] at h
  rw [← h]
  show (t.initializedBlockGroups.insert group).contains group = true
  simp

/-- Marking one unit of a ready group whose bitmap is seeded logs that and nothing else. -/
theorem markGroupUnits_log {bitStart count pblk : Nat}
    (hseeded : m.blocks.contains gdp.blockBitmap = true)
    (h : markGroupUnits ext fs group bitStart count pblk true m = .ok c m') :
    m'.log = m.log ++ [.mark group bitStart count true] := by
  unfold markGroupUnits at h
  rw [hdesc] at h
  dsimp only at h
  rw [bind_run_ok (ensure_of_ready ext fs hdesc hready), bind_run_ok
    (show seedBlock ext fs gdp.blockBitmap (.blockBitmap group) m = .ok () m by
      rw [seedBlock_run, if_pos hseeded])] at h
  obtain ⟨changed, t, hmark, h⟩ := bind_eq_ok_iff.mp h
  obtain ⟨_, t', htally, h⟩ := bind_eq_ok_iff.mp h
  rw [modify_eq_ok_iff] at htally
  rw [pure_eq_ok_iff] at h
  have hlog : t.log = m.log ++ [.mark group bitStart count true] := by
    have hstate := congrArg state hmark
    rcases onBitmap_state gdp.blockBitmap _ _ m with ⟨hnone, _⟩ | ⟨s, hs, heq⟩
    · rw [contains_eq_isSome_getElem?, hnone] at hseeded
      cases hseeded
    · rw [heq] at hstate
      rw [← show _ = t from hstate]
      rfl
  rw [← h.2, ← htally, ← hlog]
  unfold tallyUnits
  split <;> rfl

/-- Marking the first block of a unit logs the unit and nothing else. -/
theorem markUnitBlock_log (hseeded : m.blocks.contains gdp.blockBitmap = true)
    (hunit : unit < ext.clustersPerGroup)
    (h : markBlockRangeAllocated ext fs (unitBlock ext group unit) 1 m = .ok c m') :
    m'.log = m.log ++ [.mark group unit 1 true] := by
  have hratio : 0 < max ext.blocksPerCluster 1 := by omega
  have hge : ¬ unitBlock ext group unit < ext.firstDataBlock := by
    unfold unitBlock
    omega
  have hproj : projectBlockRangeToAllocUnits (unitBlock ext group unit) 1
      (max ext.blocksPerCluster 1) ext.firstDataBlock =
      .ok (group * ext.clustersPerGroup + unit, 1) := by
    unfold projectBlockRangeToAllocUnits
    rw [if_neg (by omega), if_neg hge]
    dsimp only
    rw [if_neg (by omega)]
    unfold unitBlock divCeil
    rw [Nat.add_sub_cancel, Nat.mul_div_cancel _ hratio,
      show (group * ext.clustersPerGroup + unit) * max ext.blocksPerCluster 1 + 1 +
        max ext.blocksPerCluster 1 - 1 =
        (group * ext.clustersPerGroup + unit + 1) * max ext.blocksPerCluster 1 by
          rw [Nat.succ_mul]; omega, Nat.mul_div_cancel _ hratio, Nat.add_sub_cancel_left]
  have hgroup : (group * ext.clustersPerGroup + unit) / ext.clustersPerGroup = group := by
    rw [Nat.mul_comm, Nat.mul_add_div (by omega), Nat.div_eq_of_lt hunit, Nat.add_zero]
  unfold markBlockRangeAllocated markBlockRangeState at h
  rw [if_neg hge, if_neg (by decide)] at h
  split at h
  · exact absurd h throw_ne_ok
  simp only [hproj, allocationUnitsPerGroup_eq] at h
  change markUnitsLoop ext fs ext.clustersPerGroup _ true 1 _ _ m = .ok c m' at h
  rw [markUnitsLoop, if_pos (by omega), hgroup] at h
  obtain ⟨changed, t, hmark, h⟩ := bind_eq_ok_iff.mp h
  have hlog := markGroupUnits_log ext fs hdesc hready hseeded hmark
  obtain ⟨_, t', hrest, h⟩ := bind_eq_ok_iff.mp h
  rw [markUnitsLoop, pure_eq_ok_iff] at hrest
  rw [pure_eq_ok_iff] at h
  rw [← h.2, ← hrest.2, hlog]
  congr 3 <;> omega

/-- Marking a free unit and handing its first block out. -/
theorem tracks_handOut {s : ScratchBlock} (hseeded : m.blocks[gdp.blockBitmap]? = some s)
    (hunit : unit < ext.clustersPerGroup) (hinside : unit / 8 < s.content.length)
    (hfree : bitSet s.content unit = false)
    (h : markBlockRangeAllocated ext fs (unitBlock ext group unit) 1 m = .ok c m') :
    Tracks ext fs m (m'.note (.handOut (unitBlock ext group unit))) := by
  have hin : m.blocks.contains gdp.blockBitmap = true := by
    rw [contains_eq_isSome_getElem?, hseeded]
    rfl
  have hlog := markUnitBlock_log ext fs hdesc hready hin hunit h
  obtain ⟨log, hlog', _, hstep⟩ := (tracks_markBlockRangeState ext fs _ _ _).of_ok h
  have hmarks : log = [.mark group unit 1 true] := (List.append_cancel_left (hlog'.symm.trans hlog))
  subst hmarks
  refine ⟨[.mark group unit 1 true, .handOut (unitBlock ext group unit)], ?_, ?_, ?_⟩
  · show m'.log ++ _ = _
    rw [hlog, List.append_assoc]
    rfl
  · intro e he
    rcases List.mem_cons.mp he with rfl | he
    · trivial
    · rw [List.mem_singleton.mp he]
      exact ⟨gdp, by rw [allocUnit_unitBlock hunit]; exact hdesc⟩
  intro group' gdp' hown hwrite hseed
  have hs := hstep group' gdp' hown (by simp) hseed
  refine ⟨hs.seeded, hs.bitLog.bits, fun l₁ block l₂ hsplit hgroup => ?_⟩
  -- the only block that is handed out is the one that was marked
  obtain ⟨hl₁, hblock⟩ : l₁ = [.mark group unit 1 true] ∧ block = unitBlock ext group unit := by
    rcases l₁ with _ | ⟨e, _ | ⟨e', l₁⟩⟩
    · simp at hsplit
    · simp only [List.cons_append, List.nil_append, List.cons.injEq, handOut.injEq] at hsplit
      exact ⟨by rw [hsplit.1], hsplit.2.1.symm⟩
    · simp at hsplit
  rw [hblock, allocUnit_unitBlock hunit] at hgroup ⊢
  subst hgroup
  have hgdp : gdp' = gdp := some.inj (hown.desc.symm.trans hdesc)
  subst hgdp
  refine ⟨(hseed s hseeded).2 ▸ hinside, [], hl₁, ?_⟩
  show viewBit (m.view ext fs gdp'.blockBitmap) unit = false
  unfold view
  rw [hseeded]
  exact hfree

end

end

/-- An allocation logs the unit that it marks. -/
theorem tracks_tryAllocateInGroup (group : Nat) :
    Keeps (Tracks ext fs) (tryAllocateInGroup ext fs group) := by
  have hrel := tracks_stepRel ext fs
  intro m
  unfold tryAllocateInGroup
  split
  · exact hrel.pure _ m
  refine hrel.bind_run (tracks_ensure ext fs group) fun _ t hensure => ?_
  cases hdesc : ext.groupDescs[group]? with
  | none => exact hrel.throw _ t
  | some gdp => ?_
  have hready := ensure_ready ext fs hdesc hensure
  refine hrel.bind_run (tracks_seedBitmap ext fs hdesc) fun _ t' hseed => ?_
  have hready' : GroupReady group gdp t' := by
    rcases seedBlock_state ext fs gdp.blockBitmap (.blockBitmap group) t with heq | ⟨_, _, _, heq⟩
    all_goals
      rw [hseed] at heq
      cases heq
      exact hready
  rw [get_bind_run]
  cases hscratch : t'.blocks[gdp.blockBitmap]? with
  | none => exact hrel.throw _ t'
  | some scratch => ?_
  dsimp only
  cases hfind : findFreeUnit scratch.content (allocationUnitsInGroup ext group) with
  | none => exact hrel.pure _ t'
  | some unit => ?_
  obtain ⟨hreal, hinside, hfree⟩ := findFreeUnit_eq_some hfind
  have hunit := Nat.lt_of_lt_of_le hreal (allocationUnitsInGroup_le ext group)
  rw [allocationUnitsPerGroup_eq]
  change Tracks ext fs t' (state
    ((if unitBlock ext group unit ≥ ext.blocksCount then _ else _ : MutatorM (Option Nat)) t'))
  split
  · exact hrel.pure _ t'
  change Tracks ext fs t' (state
    ((markBlockRangeAllocated ext fs (unitBlock ext group unit) 1 >>= fun _ =>
      (modify (·.note (.handOut (unitBlock ext group unit))) >>= fun _ =>
        pure (some (unitBlock ext group unit)) : MutatorM (Option Nat))) t'))
  cases hmark : markBlockRangeAllocated ext fs (unitBlock ext group unit) 1 t' with
  | error e u =>
    rw [bind_run_error hmark]
    have hs := tracks_markBlockRangeState ext fs (unitBlock ext group unit) 1 true t'
    rwa [show markBlockRangeState ext fs _ 1 true t' = _ from hmark] at hs
  | ok c u =>
    rw [bind_run_ok hmark]
    exact tracks_handOut ext fs hdesc hready' hscratch hunit hinside hfree hmark

/-- Every operation of the mutator accounts for the bitmaps in the log. -/
theorem tracks_frame : Frame ext fs (Tracks ext fs) where
  refl := Tracks.refl
  trans := Tracks.trans
  patch := tracks_patchBlock ext fs
  mutated := tracks_mutated ext fs
  prune := tracks_prune ext fs
  mark := tracks_markBlockRangeState ext fs
  allocate := closed_allocateMetadataBlock ext fs (tracks_stepRel ext fs).closed
    (tracks_tryAllocateInGroup ext fs)
  map := fun _ pblk len =>
    .of_blocks [.map pblk len] rfl (by simp [MutatorEvent.Silent]) fun _ _ _ _ _ => rfl

end Fsmnt.FsExt
