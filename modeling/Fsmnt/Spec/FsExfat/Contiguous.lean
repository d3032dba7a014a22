import Fsmnt.Spec.FsExfat.Directory

/-!
# Directories that are stored without a chain

A directory is opened by its first cluster alone, and its clusters are taken from the table also
when the table has nothing to say about them. So such a directory is seen in full, whatever is
stored in it, if and only if the table chains its clusters one after the other nevertheless.
-/

namespace Fsmnt.FsExfat

open Bytes ClusterBuffer DirEntries EStateM ParserCore Except Assembly

variable {count cluster : Nat} {dir : EntrySet}

/-- The directory is in consecutive clusters of the volume, which the table does not chain. -/
structure StoredContiguously (exfat : ExFat) (dir : EntrySet) (count : Nat) : Prop where
  isDirectory : dir.isDirectory = true
  noFatChain : dir.noFatChain = true
  dataLength : dir.dataLength = count * exfat.clusterSize
  count_pos : 0 < count
  first_ge : 2 ≤ dir.firstCluster
  last_le : dir.firstCluster + count ≤ exfat.lastCluster + 1

theorem StoredContiguously.count_le {exfat : ExFat} (h : StoredContiguously exfat dir count) :
    count ≤ exfat.clusterCount := by
  have hlast : exfat.lastCluster ≤ exfat.clusterCount + 1 := Nat.min_le_left _ _
  have hge := h.first_ge
  have hle := h.last_le
  omega

/-- The entries of consecutive clusters. -/
def storedEntries (exfat : ExFat) (image : ByteImage) (first count : Nat) : EntryList :=
  chainEntries exfat image ((List.range count).map fun i => .ok (first + i))

/-- `x` ends, and ends as `y` does. -/
def EndsAs {ε σ τ α : Type} (x : EStateM (Stop ε) σ α) (s : σ) (y : EStateM (Stop ε) τ α) (t : τ) :
    Prop :=
  outcome x s = outcome y t ∧ Finishes y t

/-- The driver's listing, the traversal and the search by name see what is stored in the clusters,
    and a path through the directory is resolved with it. -/
def SeenInFull (exfat : ExFat) (image : ByteImage) (dir : EntrySet) (count : Nat) : Prop :=
  ∀ (σ : Type) (fs : BlockReader ExFatError σ) (pos : σ → Nat) (D : σ → Prop),
    fs.ServesImage image pos D → ∃ enough, ∀ fuel, enough ≤ fuel → ∀ d, D d →
      let read := readEntryBytes exfat fs
      let dirEntries := DirEntries.new (new exfat d dir.firstCluster)
      let stored := DirEntries.new (storedEntries exfat image dir.firstCluster count)
      EndsAs (readClusterDirectory read fuel) dirEntries
        (readClusterDirectory readFlat fuel) stored ∧
      EndsAs (walkEntries read fuel) dirEntries (walkEntries readFlat fuel) stored ∧
      ∀ upcase name, EndsAs (findInDirectory read upcase name fuel) dirEntries
          (findInDirectory readFlat upcase name fuel) stored ∧
        ∀ d₀ cluster components, components ≠ [] →
          openFrom exfat fs upcase fuel cluster components d₀ = .ok dir d →
          EndsAs (openFrom exfat fs upcase fuel cluster (components ++ [name])) d₀
            (findInDirectory readFlat upcase name fuel) stored

/-- The table chains consecutive clusters one after the other, and ends there. -/
def ChainsInOrder (exfat : ExFat) (table : Nat → Nat) (first count : Nat) : Prop :=
  (∀ i, i + 1 < count →
    exfat.classifyNextCluster (first + i) (table (first + i)) = .ok (some (first + i + 1))) ∧
  exfat.classifyNextCluster (first + (count - 1)) (table (first + (count - 1))) = .ok none

/-! ### Chains -/

section Chain

variable {exfat : ExFat} {table : Nat → Nat}

theorem chain_ne_nil (left cluster : Nat) : chain exfat table left cluster ≠ [] := by
  cases left with
  | zero => exact List.cons_ne_nil _ _
  | succ left =>
    rw [chain]
    repeat' split
    all_goals exact List.cons_ne_nil _ _

/-- A chain is a list of clusters of the volume, with an error behind it or not. -/
theorem chain_eq (left : Nat) : ∀ cluster, ∃ (clusters : List Nat)
    (rest : List (Except ExFatError Nat)),
    chain exfat table left cluster = clusters.map .ok ++ rest ∧
      (∀ c ∈ clusters, 2 ≤ c ∧ c ≤ exfat.lastCluster) ∧ (rest = [] ∨ ∃ e, rest = [.error e]) := by
  induction left with
  | zero => exact fun _ => ⟨[], _, rfl, nofun, .inr ⟨_, rfl⟩⟩
  | succ left ih =>
    intro cluster
    rw [chain]
    split
    · exact ⟨[], _, rfl, nofun, .inr ⟨_, rfl⟩⟩
    have hle : 2 ≤ cluster ∧ cluster ≤ exfat.lastCluster := by omega
    split
    · exact ⟨[], _, rfl, nofun, .inr ⟨_, rfl⟩⟩
    · exact ⟨[cluster], [], rfl, by simpa using hle, .inl rfl⟩
    rename_i next _
    obtain ⟨clusters, rest, hchain, hclusters, hrest⟩ := ih next
    refine ⟨cluster :: clusters, rest, by rw [hchain]; rfl, ?_, hrest⟩
    intro c hc
    obtain rfl | hc := List.mem_cons.mp hc
    · exact hle
    · exact hclusters c hc

theorem range_succ_map (first count : Nat) :
    ((List.range (count + 1)).map fun i => (.ok (first + i) : Except ExFatError Nat)) =
      .ok first :: (List.range count).map fun i => .ok (first + 1 + i) := by
  rw [List.range_succ_eq_map, List.map_cons, List.map_map]
  refine congrArg₂ List.cons rfl (List.map_congr_left fun i _ => ?_)
  show ok (first + (i + 1)) = _
  congr 1
  omega

/-- A table chains clusters in order from the first on. -/
theorem chainsInOrder_succ {first : Nat} (hcount : 0 < count) :
    ChainsInOrder exfat table first (count + 1) ↔
      exfat.classifyNextCluster first (table first) = .ok (some (first + 1)) ∧
        ChainsInOrder exfat table (first + 1) count := by
  obtain ⟨count, rfl⟩ : ∃ m, count = m + 1 := ⟨count - 1, by omega⟩
  unfold ChainsInOrder
  have hlast : first + (count + 1 + 1 - 1) = first + 1 + (count + 1 - 1) := by omega
  rw [hlast]
  constructor
  · rintro ⟨hnext, hend⟩
    refine ⟨hnext 0 (by omega), fun i hi => ?_, hend⟩
    have hi' := hnext (i + 1) (by omega)
    rwa [show first + (i + 1) = first + 1 + i by omega] at hi'
  · rintro ⟨hfirst, hnext, hend⟩
    refine ⟨fun i hi => ?_, hend⟩
    cases i with
    | zero => exact hfirst
    | succ i =>
      have hi' := hnext i (by omega)
      rwa [show first + 1 + i = first + (i + 1) by omega] at hi'

theorem chain_eq_cons_iff {left c : Nat} {rest : List (Except ExFatError Nat)} :
    chain exfat table (left + 1) cluster = .ok c :: rest ↔
      c = cluster ∧ 2 ≤ cluster ∧ cluster ≤ exfat.lastCluster ∧
        (exfat.classifyNextCluster cluster (table cluster) = .ok none ∧ rest = [] ∨
          ∃ next, exfat.classifyNextCluster cluster (table cluster) = .ok (some next) ∧
            rest = chain exfat table left next) := by
  rw [chain]
  split
  · simp
    omega
  have hin : 2 ≤ cluster ∧ cluster ≤ exfat.lastCluster := by omega
  rw [eq_comm]
  split <;> simp [*]

/-- The chain is the list of the consecutive clusters. -/
theorem chain_eq_range_iff {left first : Nat} (hcount : 0 < count) (hleft : count ≤ left)
    (hge : 2 ≤ first) (hle : first + count ≤ exfat.lastCluster + 1) :
    (chain exfat table left first = (List.range count).map fun i => .ok (first + i)) ↔
      ChainsInOrder exfat table first count := by
  induction count generalizing left first with
  | zero => exact absurd hcount (Nat.lt_irrefl 0)
  | succ count ih =>
    obtain ⟨left, rfl⟩ : ∃ m, left = m + 1 := ⟨left - 1, by omega⟩
    rw [range_succ_map, chain_eq_cons_iff]
    cases count with
    | zero =>
      have hone : ChainsInOrder exfat table first (0 + 1) ↔
          exfat.classifyNextCluster first (table first) = .ok none := by simp [ChainsInOrder]
      rw [hone]
      constructor
      · rintro ⟨-, -, -, ⟨hend, -⟩ | ⟨next, -, hrest⟩⟩
        · exact hend
        · exact absurd hrest.symm (chain_ne_nil _ _)
      · exact fun hend => ⟨rfl, hge, by omega, .inl ⟨hend, rfl⟩⟩
    | succ count =>
      obtain ⟨left, rfl⟩ : ∃ m, left = m + 1 := ⟨left - 1, by omega⟩
      rw [chainsInOrder_succ (Nat.succ_pos count),
        ← ih (Nat.succ_pos count) (show count + 1 ≤ left + 1 by omega) (by omega) (by omega)]
      constructor
      · rintro ⟨-, -, -, ⟨-, hrest⟩ | ⟨next, hnext, hrest⟩⟩
        · simp at hrest
        · -- the next cluster is the first one of the rest
          obtain ⟨rfl, -⟩ := chain_eq_cons_iff.mp (hrest.symm.trans (range_succ_map _ _))
          exact ⟨hnext, hrest.symm⟩
      · exact fun ⟨hnext, hrest⟩ => ⟨rfl, hge, by omega, .inr ⟨_, hnext, hrest.symm⟩⟩

end Chain

/-! ### A table that chains the clusters is enough -/

section Open

variable {σ : Type} {exfat : ExFat} {fs : BlockReader ExFatError σ}

theorem outcome_withDirEntries {α : Type} (cluster : Nat) (d : σ)
    (x : EStateM (Stop ExFatError) (DirEntries (ClusterBuffer σ)) α) :
    outcome (withDirEntries exfat cluster x) d = outcome x (.new (.new exfat d cluster)) := by
  unfold outcome withDirEntries
  cases x (.new (.new exfat d cluster)) with
  | ok a t | error e t => rfl

/-- Opening a name in a directory. -/
theorem outcome_openFrom_singleton (upcase : UpcaseTable) (fuel cluster : Nat) (name : List Nat)
    (d : σ) :
    outcome (openFrom exfat fs upcase fuel cluster [name]) d =
      outcome (findInDirectory (readEntryBytes exfat fs) upcase name fuel)
        (.new (.new exfat d cluster)) := by
  rw [← outcome_withDirEntries, openFrom]
  unfold outcome
  cases hfind : withDirEntries exfat cluster
      (findInDirectory (readEntryBytes exfat fs) upcase name fuel) d with
  | ok entry t =>
    rw [bind_run_ok hfind]
    rfl
  | error e t => rw [bind_run_error hfind]

/-- A path through a directory goes on in it. -/
theorem openFrom_append {upcase : UpcaseTable} {fuel : Nat} {d : σ} (hdir : dir.isDirectory = true)
    (name : List Nat) (components : List (List Nat)) :
    ∀ cluster d₀, components ≠ [] →
      openFrom exfat fs upcase fuel cluster components d₀ = .ok dir d →
      openFrom exfat fs upcase fuel cluster (components ++ [name]) d₀ =
        openFrom exfat fs upcase fuel dir.firstCluster [name] d := by
  induction components with
  | nil => exact fun _ _ hne => absurd rfl hne
  | cons component rest ih =>
    intro cluster d₀ _ hopen
    obtain ⟨entry, t, hfind, hrest⟩ := bind_eq_ok_iff.mp hopen
    rw [List.cons_append, openFrom, bind_run_ok hfind,
      if_neg (List.append_ne_nil_of_right_ne_nil rest (List.cons_ne_nil name []))]
    split at hrest
    · rename_i hlast
      cases hrest
      rw [if_pos hdir, hlast, List.nil_append]
    rename_i hlast
    split at hrest
    · rename_i hentry
      rw [if_pos hentry]
      exact ih _ t hlast hrest
    · cases hrest

end Open

section Seen

variable {exfat : ExFat} {image : ByteImage} {table : Nat → Nat} {dir : EntrySet} {count : Nat}

/-- What the iterator sees of a directory is the chain of its first cluster. -/
theorem holdsEntries_new {σ : Type} {D : σ → Prop} {d : σ} (hd : D d) (cluster : Nat) :
    HoldsEntries exfat image D table (.new exfat d cluster)
      (chainEntries exfat image (chain exfat table exfat.clusterCount cluster)) where
  fat := BlockCache.inv_new hd
  whole := ⟨0, rfl⟩
  addressable := Nat.two_pow_pos 64
  entries_eq := by
    have hbuffered : buffered (.new exfat d cluster) = [] := by simp [buffered, ClusterBuffer.new]
    have hpending : pending exfat table (new exfat d cluster).clusterIter =
        chain exfat table exfat.clusterCount cluster := rfl
    rw [hbuffered, hpending, List.map_nil, List.nil_append]

theorem seenInFull_of_chainsInOrder (hdir : StoredContiguously exfat dir count)
    (hchain : ChainsInOrder exfat table dir.firstCluster count) (hcomplete : Complete exfat image)
    (htable : HoldsTable exfat image table) : SeenInFull exfat image dir count := by
  intro σ fs pos D hfs
  refine ⟨(storedEntries exfat image dir.firstCluster count).length + 1, fun fuel hfuel d hd => ?_⟩
  have hcount : count ≤ exfat.clusterCount := hdir.count_le
  have hentries : storedEntries exfat image dir.firstCluster count =
      chainEntries exfat image (chain exfat table exfat.clusterCount dir.firstCluster) := by
    rw [storedEntries,
      (chain_eq_range_iff hdir.count_pos hcount hdir.first_ge hdir.last_le).mpr hchain]
  have hread := simulates_readEntryBytes hfs hcomplete htable
  have hstart : DirRel (HoldsEntries exfat image D table) (.new (.new exfat d dir.firstCluster))
      (.new (storedEntries exfat image dir.firstCluster count)) := by
    rw [hentries]
    exact dirRel_new (holdsEntries_new hd dir.firstCluster)
  have hleft : left (.new (storedEntries exfat image dir.firstCluster count)) < fuel := hfuel
  have hfind : ∀ upcase name, EndsAs (findInDirectory (readEntryBytes exfat fs) upcase name fuel)
        (.new (.new exfat d dir.firstCluster)) (findInDirectory readFlat upcase name fuel)
        (.new (storedEntries exfat image dir.firstCluster count)) := fun upcase name =>
    ⟨(simulates_forItems hread _ _ fuel ()).outcome_eq hstart, finishes_forItems fuel () _ hleft⟩
  refine ⟨⟨?_, ?_⟩, ⟨?_, ?_⟩, fun upcase name => ⟨hfind upcase name, ?_⟩⟩
  · exact (simulates_readClusterDirectory hread fuel).outcome_eq hstart
  · exact finishes_forItems fuel [] _ hleft
  · exact (simulates_walkEntries hread fuel).outcome_eq hstart
  · exact finishes_walkEntries fuel _ hleft
  · intro d₀ cluster components hne hopen
    refine ⟨?_, (hfind upcase name).2⟩
    rw [← (hfind upcase name).1, ← outcome_openFrom_singleton, outcome, outcome,
      openFrom_append hdir.isDirectory name components cluster d₀ hne hopen]

end Seen

/-! ### A content that tells the clusters apart -/

section Label

/-- The first entry of a set of three. -/
def labelPrimary : Bytes := [0x85, 2] ++ zeros 30

/-- A stream that names the cluster it is stored in. -/
def labelStream (cluster : Nat) : Bytes := [0xC0, 0, 0, 1] ++ zeros 16 ++ toLE 4 cluster ++ zeros 8

def labelName : Bytes := [0xC1, 0] ++ zeros 30

/-- An entry that is not in use. -/
def filler : Bytes := [1] ++ zeros 31

/-- Every cluster starts with an entry set that names it. -/
def labelEntry (cluster : Nat) : Nat → Bytes
  | 0 => labelPrimary
  | 1 => labelStream cluster
  | 2 => labelName
  | _ => filler

/-- The checksum of the entries of a cluster, up to the stream and up to the name. -/
def streamChecksum (cluster : Nat) : Nat :=
  (labelStream cluster).foldl updateSetChecksum (primaryChecksum labelPrimary)

def nameChecksum (cluster : Nat) : Nat := labelName.foldl updateSetChecksum (streamChecksum cluster)

/-- The entry set of a cluster. -/
def labelSet (cluster : Nat) : EntrySet :=
  assembleOwned labelPrimary (labelStream cluster)
    ⟨nameChecksum cluster, some (labelStream cluster), [0]⟩

theorem length_labelEntry (cluster i : Nat) : (labelEntry cluster i).length = dirEntrySize := by
  match i with
  | 0 => rfl
  | 1 => rfl
  | 2 => rfl
  | i + 3 => rfl

variable {clusters : List Nat}

/-- The clusters are known from their entry sets. -/
theorem map_firstCluster_labelSet (h : ∀ c ∈ clusters, c < 2 ^ 32) :
    (clusters.map labelSet).map EntrySet.firstCluster = clusters := by
  rw [List.map_map]
  exact (List.map_congr_left fun c hc => ofLE_toLE 4 c (h c hc)).trans (List.map_id clusters)

variable {rest : EntryList} {e : ExFatError} {o o₁ o₂ : Nat}

theorem nextStep_labelled (cluster : Nat) : nextStep readFlat
    (.new (.ok (labelPrimary, o) :: .ok (labelStream cluster, o₁) :: .ok (labelName, o₂) :: rest)) =
      .ok (.inr (some (.fileEntry (labelSet cluster)))) (.new rest) := by
  have hattempt : ∀ rest, attempt (readEntry readFlat) (.new (.ok (labelPrimary, o) :: rest)) =
      .ok (.ok (some (labelPrimary, o))) (.new rest) := fun _ => rfl
  have hkind : byteAt labelPrimary 0 = 0x85 := rfl
  rw [nextStep, get_bind_run]
  show (attempt (readEntry readFlat) >>= _) _ = _
  rw [bind_run_ok (hattempt _)]
  simp only [handleEntry, get_bind_run, hkind]
  rfl

/-- The entries are not in use. -/
def Unused (entries : EntryList) : Prop := ∀ entry ∈ entries, ∃ o, entry = .ok (filler, o)

/-- Entries that are not in use are passed over. -/
theorem next_unused {fillers : EntryList} (hfillers : Unused fillers) (fuel) :
    next readFlat (fillers.length + fuel) (.new (fillers ++ rest)) =
      next readFlat fuel (.new rest) := by
  induction fillers generalizing fuel with
  | nil =>
    rw [List.length_nil, Nat.zero_add, List.nil_append]
  | cons entry fillers ih =>
    obtain ⟨o, rfl⟩ := hfillers entry List.mem_cons_self
    have htail : Unused fillers := fun entry hentry =>
      hfillers entry (List.mem_cons_of_mem _ hentry)
    rw [List.length_cons, Nat.add_right_comm, List.cons_append, ← ih htail fuel, next, loop,
      bind_run_ok (show nextStep readFlat _ = .ok (.inl ()) (.new (fillers ++ rest)) from rfl)]
    rfl

theorem next_of_nextStep {fuel : Nat} {s t : DirEntries EntryList} {item : Option DirItem}
    (h : nextStep readFlat s = .ok (.inr item) t) : next readFlat (fuel + 1) s = .ok item t := by
  rw [next, loop, bind_run_ok h]
  rfl

/-- One pass of the driver's listing. -/
def listStep (fuel : Nat) (entries : List EntrySet) :
    EStateM (Stop ExFatError) (DirEntries EntryList) (List EntrySet ⊕ List EntrySet) := do
  match ← next readFlat fuel with
  | none => pure (.inr entries)
  | some (.fileEntry entry) => pure (.inl (entries ++ [entry]))
  | some _ => pure (.inl entries)

theorem readClusterDirectory_eq (fuel : Nat) :
    readClusterDirectory readFlat fuel = loop (listStep fuel) fuel [] := by
  rw [readClusterDirectory, forItems]
  congr 1
  funext entries
  congr 1
  funext item
  match item with
  | none => rfl
  | some (.fileEntry entry) => rfl
  | some (.volumeLabel chars) => rfl
  | some (.benignEntry entryType data byteOffset) => rfl
  | some (.deletedEntry entryType data byteOffset) => rfl

variable {fillers : EntryList} {fuel : Nat}

section

variable (hfillers : Unused fillers)

include hfillers

section

variable (hfuel : fillers.length < fuel) (outer : Nat) (entries : List EntrySet)

include hfuel

theorem next_behind_unused {r : Result (Stop ExFatError) (DirEntries EntryList) (Option DirItem)}
    (h : ∀ spare, next readFlat (spare + 1) (.new rest) = r) :
    next readFlat fuel (.new (fillers ++ rest)) = r := by
  obtain ⟨spare, rfl⟩ : ∃ spare, fuel = fillers.length + (spare + 1) :=
    ⟨fuel - fillers.length - 1, by omega⟩
  rw [next_unused hfillers, h]

/-- Behind the last cluster the listing ends. -/
theorem listing_end :
    outcome (loop (listStep fuel) (outer + 1) entries) (.new (fillers ++ [])) = .ok entries := by
  have hnext := next_behind_unused hfillers hfuel fun _ => next_of_nextStep (s := .new []) rfl
  rw [outcome, loop, listStep, bind_assoc, bind_run_ok hnext]
  rfl

/-- An error is the end of the listing. -/
theorem listing_error :
    outcome (loop (listStep fuel) (outer + 1) entries) (.new (fillers ++ [.error e])) =
      .error (.failed e) := by
  have hnext : next readFlat fuel (.new (fillers ++ [.error e])) =
      .error (.failed e) (finish (.new [])) :=
    next_behind_unused hfillers hfuel fun _ => rfl
  rw [outcome, loop, listStep, bind_assoc, bind_run_error hnext]

/-- A cluster adds its entry set to the listing. -/
theorem listing_cons (cluster : Nat) :
    outcome (loop (listStep fuel) (outer + 1) entries) (.new (fillers ++ .ok (labelPrimary, o) ::
        .ok (labelStream cluster, o₁) :: .ok (labelName, o₂) :: rest)) =
      outcome (loop (listStep fuel) outer (entries ++ [labelSet cluster])) (.new rest) := by
  rw [outcome, loop, listStep, bind_assoc, bind_run_ok (next_behind_unused hfillers hfuel fun _ =>
    next_of_nextStep (nextStep_labelled cluster))]
  rfl

end

end

/-- The cluster starts with the entry set that names it. -/
def NamesItself (exfat : ExFat) (image : ByteImage) (cluster : Nat) : Prop :=
  ∃ o o₁ o₂ fillers, Unused fillers ∧ fillers.length < exfat.clusterSize ∧
    (clusterEntries exfat image cluster).map .ok = .ok (labelPrimary, o) ::
      .ok (labelStream cluster, o₁) :: .ok (labelName, o₂) :: fillers

variable {exfat : ExFat} {image : ByteImage} {tail : List (Except ExFatError Nat)}

/-- The listing of clusters that name themselves. -/
theorem listing_labelled (hfuel : exfat.clusterSize ≤ fuel)
    {final : List EntrySet → Except (Stop ExFatError) (List EntrySet)}
    (hend : ∀ outer entries fillers, Unused fillers → fillers.length < exfat.clusterSize →
      outcome (loop (listStep fuel) (outer + 1) entries)
        (.new (fillers ++ chainEntries exfat image tail)) = final entries)
    (clusters : List Nat) (outer entries fillers)
    (houter : clusters.length < outer) (hfillers : Unused fillers)
    (hlen : fillers.length < exfat.clusterSize)
    (hnames : ∀ c ∈ clusters, NamesItself exfat image c) :
    outcome (loop (listStep fuel) outer entries)
        (.new (fillers ++ chainEntries exfat image (clusters.map .ok ++ tail))) =
      final (entries ++ clusters.map labelSet) := by
  induction clusters generalizing outer entries fillers with
  | nil =>
    obtain ⟨outer, rfl⟩ : ∃ m, outer = m + 1 := ⟨outer - 1, by simp at houter; omega⟩
    rw [List.map_nil, List.map_nil, List.append_nil]
    exact hend outer entries fillers hfillers hlen
  | cons cluster clusters ih =>
    rw [List.length_cons] at houter
    obtain ⟨outer, rfl⟩ : ∃ m, outer = m + 1 := ⟨outer - 1, by omega⟩
    obtain ⟨o, o₁, o₂, more, hmore, hmoreLen, hentries⟩ := hnames cluster List.mem_cons_self
    have hsplit : chainEntries exfat image ((cluster :: clusters).map .ok ++ tail) =
        .ok (labelPrimary, o) :: .ok (labelStream cluster, o₁) :: .ok (labelName, o₂) ::
          (more ++ chainEntries exfat image (clusters.map .ok ++ tail)) := by
      show (clusterEntries exfat image cluster).map ok ++ _ = _
      rw [hentries]
      rfl
    rw [hsplit, listing_cons hfillers (by omega), ih outer _ more (by omega) hmore hmoreLen
      fun c hc => hnames c (List.mem_cons_of_mem _ hc), List.map_cons, List.append_assoc,
      List.singleton_append]

variable (exfat) in
/-- The table, and clusters that name themselves. -/
def labelledImage (table : Nat → Nat) : ByteImage where
  content := fun offset =>
    if offset < exfat.clusterHeapByteOffset then
      (toLE 4 (table ((offset - exfat.fatByteOffset) / 4))).toContent
        ((offset - exfat.fatByteOffset) % 4)
    else
      let p := offset - exfat.clusterHeapByteOffset
      (labelEntry (p / exfat.clusterSize + 2) (p % exfat.clusterSize / dirEntrySize)).toContent
        (p % dirEntrySize)
  length := exfat.clusterHeapByteOffset + exfat.clusterCount * exfat.clusterSize

variable {table : Nat → Nat}

theorem holdsTable_labelledImage (htable : ∀ cluster, table cluster < 2 ^ 32)
    (hlayout : exfat.fatByteOffset + (exfat.clusterCount + 2) * 4 ≤ exfat.clusterHeapByteOffset) :
    HoldsTable exfat (labelledImage exfat table) table := by
  intro cluster hge hle
  have hcluster : cluster ≤ exfat.clusterCount + 1 := hle.trans (Nat.min_le_left _ _)
  have hwindow : window (labelledImage exfat table).content (exfat.fatByteOffset + cluster * 4) 4 =
      window (toLE 4 (table cluster)).toContent 0 4 := by
    apply window_inj.mpr
    intro i hi
    show (if _ then _ else _) = _
    rw [if_pos (by omega),
      show (exfat.fatByteOffset + cluster * 4 + i - exfat.fatByteOffset) / 4 = cluster by omega,
      show (exfat.fatByteOffset + cluster * 4 + i - exfat.fatByteOffset) % 4 = 0 + i by omega]
  rw [hwindow, ← slice_eq_window (by rw [length_toLE])]
  exact ofLE_toLE 4 _ (htable cluster)

theorem entry_labelledImage {i : Nat} (hge : 2 ≤ cluster)
    (hi : i < exfat.clusterSize / dirEntrySize) :
    window (labelledImage exfat table).content (heapOffset exfat cluster + i * dirEntrySize)
      dirEntrySize = labelEntry cluster i := by
  obtain ⟨n, -, hsize⟩ := exists_clusterSize exfat
  have hpos : 0 < dirEntrySize := by decide
  rw [hsize, Nat.mul_div_cancel _ hpos] at hi
  have hentry : window (labelEntry cluster i).toContent 0 dirEntrySize = labelEntry cluster i := by
    rw [← slice_eq_window (by rw [length_labelEntry, Nat.zero_add]), slice, List.drop_zero,
      ← length_labelEntry cluster i, List.take_length]
  rw [← hentry]
  apply window_inj.mpr
  intro b hb
  have hinside : i * dirEntrySize + b < exfat.clusterSize := by
    have hmul : (i + 1) * dirEntrySize ≤ n * dirEntrySize := Nat.mul_le_mul_right _ hi
    rw [Nat.succ_mul] at hmul
    omega
  have hp : heapOffset exfat cluster + i * dirEntrySize + b - exfat.clusterHeapByteOffset =
      i * dirEntrySize + b + (cluster - 2) * exfat.clusterSize := by
    rw [heapOffset]
    omega
  have hge' : ¬ heapOffset exfat cluster + i * dirEntrySize + b < exfat.clusterHeapByteOffset := by
    rw [heapOffset]
    omega
  show (if _ then _ else _) = _
  rw [if_neg hge', hp, Nat.add_mul_div_right _ _ (by omega), Nat.add_mul_mod_self_right,
    Nat.div_eq_of_lt hinside, Nat.mod_eq_of_lt hinside, Nat.zero_add, Nat.sub_add_cancel hge,
    Nat.zero_add, hsize, ← Nat.mul_assoc, Nat.add_mul_mod_self_right,
    Nat.add_comm (i * dirEntrySize) b, Nat.add_mul_div_right _ _ hpos, Nat.div_eq_of_lt hb,
    Nat.zero_add, Nat.add_mul_mod_self_right, Nat.mod_eq_of_lt hb]

/-- Every cluster of the labelled image names itself. -/
theorem namesItself_labelledImage (hge : 2 ≤ cluster) :
    NamesItself exfat (labelledImage exfat table) cluster := by
  obtain ⟨n, hn, hsize⟩ := exists_clusterSize exfat
  obtain ⟨n, rfl⟩ : ∃ m, n = m + 3 := ⟨n - 3, by omega⟩
  have hentries : clusterEntries exfat (labelledImage exfat table) cluster =
      (List.range (n + 3)).map fun i =>
        (labelEntry cluster i, heapOffset exfat cluster + i * dirEntrySize) := by
    rw [clusterEntries]
    have hcount : exfat.clusterSize / dirEntrySize = n + 3 := by
      rw [hsize, Nat.mul_div_cancel _ (by decide)]
    rw [hcount]
    apply List.map_congr_left
    intro i hi
    rw [entry_labelledImage hge (hcount ▸ List.mem_range.mp hi)]
  refine ⟨heapOffset exfat cluster + 0 * dirEntrySize, heapOffset exfat cluster + 1 * dirEntrySize,
    heapOffset exfat cluster + 2 * dirEntrySize, (List.range n).map fun i =>
      .ok (filler, heapOffset exfat cluster + (i + 3) * dirEntrySize), ?_, ?_, ?_⟩
  · intro entry hentry
    obtain ⟨i, -, rfl⟩ := List.mem_map.mp hentry
    exact ⟨_, rfl⟩
  · rw [List.length_map, List.length_range, hsize, dirEntrySize]
    omega
  · rw [hentries, List.range_succ_eq_map, List.range_succ_eq_map, List.range_succ_eq_map]
    simp only [List.map_cons, List.map_map]
    rfl

theorem listing_of_labelled (hfuel : exfat.clusterSize ≤ fuel) (hlen : clusters.length < fuel)
    (hclusters : ∀ c ∈ clusters, 2 ≤ c) :
    outcome (readClusterDirectory readFlat fuel)
        (.new (chainEntries exfat (labelledImage exfat table) (clusters.map .ok))) =
      .ok (clusters.map labelSet) ∧
    outcome (readClusterDirectory readFlat fuel)
        (.new (chainEntries exfat (labelledImage exfat table) (clusters.map .ok ++ [.error e]))) =
      .error (.failed e) := by
  have hpos : 0 < exfat.clusterSize := Nat.two_pow_pos _
  have hnames : ∀ c ∈ clusters, NamesItself exfat (labelledImage exfat table) c := fun c hc =>
    namesItself_labelledImage (hclusters c hc)
  have hnone : Unused [] := nofun
  rw [readClusterDirectory_eq]
  constructor
  · rw [← List.append_nil (clusters.map ok)]
    exact listing_labelled hfuel (fun outer entries fillers hfillers hlt =>
      listing_end hfillers (by omega) outer entries) clusters fuel [] [] hlen hnone hpos hnames
  · have hend : chainEntries exfat (labelledImage exfat table) [.error e] = [.error e] := rfl
    have hfinal : ∀ outer entries fillers, Unused fillers → fillers.length < exfat.clusterSize →
        outcome (loop (listStep fuel) (outer + 1) entries)
          (.new (fillers ++ chainEntries exfat (labelledImage exfat table) [.error e])) =
            .error (.failed e) := by
      intro outer entries fillers hfillers hlt
      exact listing_error hfillers (by omega) outer entries
    exact listing_labelled hfuel hfinal clusters fuel [] [] hlen hnone hpos hnames

/-- In a volume with clusters that name themselves the listing shows which clusters it has seen. -/
theorem chainsInOrder_of_seenInFull (htable : ∀ cluster, table cluster < 2 ^ 32)
    (hlayout : exfat.fatByteOffset + (exfat.clusterCount + 2) * 4 ≤ exfat.clusterHeapByteOffset)
    (hdir : StoredContiguously exfat dir count)
    (hseen : SeenInFull exfat (labelledImage exfat table) dir count) :
    ChainsInOrder exfat table dir.firstCluster count := by
  have hcomplete : Complete exfat (labelledImage exfat table) := ⟨hlayout, Nat.le_refl _⟩
  have hholds := holdsTable_labelledImage htable hlayout
  have hserves := (labelledImage exfat table).reader_serves ExFatError.notFound
  obtain ⟨enough, hends⟩ := hseen _ _ _ _ hserves
  rw [← chain_eq_range_iff hdir.count_pos hdir.count_le hdir.first_ge hdir.last_le]
  obtain ⟨clusters, rest, hchain, hclusters, hrest⟩ := chain_eq exfat.clusterCount dir.firstCluster
  let stored := (List.range count).map fun i => dir.firstCluster + i
  have hstored : ∀ c ∈ stored, 2 ≤ c ∧ c ≤ exfat.lastCluster := by
    intro c hc
    obtain ⟨i, hi, rfl⟩ := List.mem_map.mp hc
    have hlt := List.mem_range.mp hi
    have hge := hdir.first_ge
    have hle := hdir.last_le
    omega
  let fuel := enough + exfat.clusterSize + clusters.length + stored.length + 1
  have hlisting : outcome (readClusterDirectory readFlat fuel)
      (.new (chainEntries exfat (labelledImage exfat table)
        (chain exfat table exfat.clusterCount dir.firstCluster))) = .ok (stored.map labelSet) := by
    have hread := simulates_readEntryBytes hserves hcomplete hholds
    have hsim := (simulates_readClusterDirectory hread fuel).outcome_eq
      (dirRel_new (holdsEntries_new (d := 0) trivial dir.firstCluster))
    have hstoredEntries : storedEntries exfat (labelledImage exfat table) dir.firstCluster count =
        chainEntries exfat (labelledImage exfat table) (stored.map .ok) := by
      rw [List.map_map]
      rfl
    have hfull := (hends fuel (by omega) 0 trivial).1.1
    rw [hstoredEntries, (listing_of_labelled (e := .notFound) (by omega) (by omega)
      fun c hc => (hstored c hc).1).1] at hfull
    exact hsim.symm.trans hfull
  rw [hchain] at hlisting ⊢
  have hbelow : ∀ c ∈ clusters, 2 ≤ c := fun c hc => (hclusters c hc).1
  obtain rfl | ⟨e, rfl⟩ := hrest
  · rw [List.append_nil, (listing_of_labelled (e := .notFound) (by omega) (by omega) hbelow).1]
      at hlisting
    have heq : clusters.map labelSet = stored.map labelSet := ok.inj hlisting
    have hlast : exfat.lastCluster < 2 ^ 32 := by
      have hle : exfat.lastCluster ≤ 2 ^ 32 - 1 := Nat.min_le_right _ _
      omega
    have hclusters_eq : clusters = stored := by
      rw [← map_firstCluster_labelSet fun c hc => Nat.lt_of_le_of_lt (hclusters c hc).2 hlast, heq,
        map_firstCluster_labelSet fun c hc => Nat.lt_of_le_of_lt (hstored c hc).2 hlast]
    rw [hclusters_eq, List.append_nil, List.map_map]
    rfl
  · -- a chain that fails would fail the listing
    rw [(listing_of_labelled (by omega) (by omega) hbelow).2] at hlisting
    cases hlisting

end Label

/-! ### When directories are seen in full -/

/-- A directory that is stored without a chain is seen in full, whatever the volume holds, exactly
    when the table chains its clusters one after the other. -/
theorem directory_seen_iff {exfat : ExFat} {table : Nat → Nat} {dir : EntrySet} {count : Nat}
    (htable : ∀ cluster, table cluster < 2 ^ 32)
    (hlayout : exfat.fatByteOffset + (exfat.clusterCount + 2) * 4 ≤ exfat.clusterHeapByteOffset)
    (hdir : StoredContiguously exfat dir count) :
    (∀ image, Complete exfat image → HoldsTable exfat image table →
      SeenInFull exfat image dir count) ↔
      ChainsInOrder exfat table dir.firstCluster count := by
  constructor
  · intro hseen
    exact chainsInOrder_of_seenInFull htable hlayout hdir
      (hseen _ ⟨hlayout, Nat.le_refl _⟩ (holdsTable_labelledImage htable hlayout))
  · exact fun hchain image hcomplete hholds => seenInFull_of_chainsInOrder hdir hchain hcomplete
      hholds

/-- A volume with sixteen clusters of one sector each. -/
def sampleVolume : ExFat where
  bytesPerSectorShift := 9
  sectorsPerClusterShift := 0
  shift_ge := by decide
  shift_le := by decide
  cluster_le := by decide
  fatOffset := 24
  fatOffset_lt := by decide
  clusterHeapOffset := 32
  clusterHeapOffset_lt := by decide
  clusterCount := 16
  clusterCount_lt := by decide
  rootDirectoryCluster := 2
  upcaseTable := none

/-- A directory in the clusters 4 and 5, which are not chained. -/
def sampleDirectory : EntrySet where
  fileEntry := [0x85, 2, 0, 0, 0x10] ++ zeros 27
  streamEntry := [0xC0, 3, 0, 1] ++ zeros 16 ++ toLE 4 4 ++ toLE 8 1024
  nameChars := [65]
  checksumValid := true

theorem sampleDirectory_stored : StoredContiguously sampleVolume sampleDirectory 2 where
  isDirectory := by decide
  noFatChain := by decide
  dataLength := by decide
  count_pos := by decide
  first_ge := by decide
  last_le := by decide

/-- A table that chains the two clusters nevertheless. -/
def chainedTable (cluster : Nat) : Nat := if cluster = 4 then 5 else 0xFFFFFFFF

theorem directory_seen_iff_chained : StoredContiguously sampleVolume sampleDirectory 2 ∧
    SeenInFull sampleVolume (labelledImage sampleVolume chainedTable) sampleDirectory 2 := by
  have htable : ∀ cluster, chainedTable cluster < 2 ^ 32 := by
    intro cluster
    unfold chainedTable
    split
    · decide
    · decide
  have hchain : ChainsInOrder sampleVolume chainedTable sampleDirectory.firstCluster 2 := by
    constructor
    · intro i hi
      obtain rfl : i = 0 := by omega
      decide
    · decide
  exact ⟨sampleDirectory_stored, (directory_seen_iff htable (by decide) sampleDirectory_stored).mpr
    hchain _ ⟨by decide, Nat.le_refl _⟩ (holdsTable_labelledImage htable (by decide))⟩

/-- The table of a volume that has no chains: a free entry ends the directory behind its first
    cluster, and what is stored in the second one is not seen. -/
theorem unchained_directory_not_seen : StoredContiguously sampleVolume sampleDirectory 2 ∧
    Complete sampleVolume (labelledImage sampleVolume fun _ => 0) ∧
    HoldsTable sampleVolume (labelledImage sampleVolume fun _ => 0) (fun _ => 0) ∧
    ¬ SeenInFull sampleVolume (labelledImage sampleVolume fun _ => 0) sampleDirectory 2 := by
  have htable : ∀ cluster : Nat, (fun _ => 0) cluster < 2 ^ 32 := fun _ => Nat.two_pow_pos 32
  refine ⟨sampleDirectory_stored, ⟨by decide, Nat.le_refl _⟩,
    holdsTable_labelledImage htable (by decide), fun hseen => ?_⟩
  have hchain := chainsInOrder_of_seenInFull htable (by decide) sampleDirectory_stored hseen
  exact absurd (hchain.1 0 (by decide)) (by decide)

end Fsmnt.FsExfat
