import Fsmnt.Spec.Core.NamespaceTree
import Fsmnt.Spec.Device.PartitionReader
import Fsmnt.Spec.Device.Substitutions
import Fsmnt.Spec.Device.TolerantReader
import Fsmnt.Spec.FsApfs.Checkpoint
import Fsmnt.Spec.FsApfs.OmapTree
import Fsmnt.Spec.FsBtrfs.Compression
import Fsmnt.Spec.FsExfat.Contiguous
import Fsmnt.Spec.FsExt.BlockOwner
import Fsmnt.Spec.FsExt.BlockReuse
import Fsmnt.Spec.FsExt.ClusterOverlap
import Fsmnt.Spec.FsExt.FastCommitLockstep
import Fsmnt.Spec.FsExt.JournalWrap
import Fsmnt.Spec.FsExt.OverlayReader
import Fsmnt.Spec.FsExt.StagedTree
import Fsmnt.Spec.FsExt.SuperblockCounts
import Fsmnt.Spec.FsFat.Value
import Fsmnt.Spec.FsNtfs.CachedReaders
import Fsmnt.Spec.FsNtfs.DataRuns
import Fsmnt.Spec.FsNtfs.MftEntries
import Fsmnt.Spec.FsNtfs.Owned
import Fsmnt.Spec.NtBitlocker.Diffuser
import Fsmnt.Spec.NtCompression.E8
import Fsmnt.Spec.NtCompression.RoundTrip
import Fsmnt.Spec.NtCompression.XpressHuffman
