import Fsmnt.ForStd.ReadSeek

/-!
# I/O errors of the device readers

The kinds of `std::io::Error` that the readers of `fsmnt-device` produce or tell apart.
-/

namespace Fsmnt.Device

inductive IoError where
  | interrupted
  | unexpectedEof (message : String)
  | invalidInput (message : String)
  | invalidData (message : String)
  /-- An error that carries an `AbsentHead` marker. -/
  | absentHead (gap readOffset readLength : Nat)
  | other (message : String)
  deriving DecidableEq, Repr

end Fsmnt.Device
