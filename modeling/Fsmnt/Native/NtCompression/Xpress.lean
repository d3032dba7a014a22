import Fsmnt.Native.NtCompression.Lz77

/-!
# XPRESS Plain LZ77

`xpress/compress.rs` and the strict decoder of `xpress/decompress.rs`. Every 32 items stand behind
a flag word. A match word may be followed by a nibble, a byte and two bytes of further length; two
nibbles share the byte that the first of them was written to.
-/

namespace Fsmnt.NtCompression.Xpress

/-! ### Compression -/

def compressBound (inputLen : Nat) : Nat := inputLen + (inputLen / 32 + 1) * 4 + 16

structure TokenEncoder where
  output : Bytes
  outPos : Nat
  nibblePos : Option Nat
  flagPos : Nat
  flags : Nat
  groupLen : Nat
  error : Option Error

variable (output : Bytes)

/-- `emit`: the buffer and the updated position. -/
def emit (pos : Nat) (byte : Nat) : Except Error (Bytes × Nat) :=
  if pos ≥ output.length then .error (.outputTooSmall (pos + 1) output.length)
  else .ok (output.set pos (UInt8.ofNat byte), pos + 1)

/-- The two bytes of a word. -/
def emitWord (pos word : Nat) : Except Error (Bytes × Nat) := do
  let (output, pos) ← emit output pos (word % 256)
  emit output pos (word / 256)

/-- The nibble extension of `encode_match`: the high half of a byte that waits for it, or the low
    half of a new one. -/
def emitNibble (pos : Nat) (nibblePos : Option Nat) (nibbleVal : Nat) :
    Except Error (Bytes × Nat × Option Nat) :=
  match nibblePos with
  | some np =>
    .ok (output.set np (output.getD np 0 ||| UInt8.ofNat (nibbleVal <<< 4)), pos, none)
  | none => do
    let (output, next) ← emit output pos nibbleVal
    .ok (output, next, some pos)

/-- What `encode_match` writes behind the nibble. -/
def emitLengthTail (pos rem length : Nat) : Except Error (Bytes × Nat) :=
  if rem ≥ 15 then do
    let byteRem := rem - 15
    let (output, pos) ← emit output pos (min byteRem 255)
    if byteRem ≥ 255 then emitWord output pos (length - 3) else .ok (output, pos)
  else .ok (output, pos)

/-- `encode_match`: the buffer, the position and the byte that waits for a nibble. -/
def encodeMatch (pos : Nat) (nibblePos : Option Nat) (offset length : Nat) :
    Except Error (Bytes × Nat × Option Nat) := do
  let baseLength := length - 3
  let fieldVal := if baseLength < 7 then baseLength else 7
  let word := (offset - 1) <<< 3 % 2 ^ 16 ||| fieldVal % 2 ^ 3
  let (output, pos) ← emitWord output pos word
  if baseLength < 7 then .ok (output, pos, nibblePos)
  else
    let rem := baseLength - 7
    let (output, pos, nibblePos) ← emitNibble output pos nibblePos (min rem 15)
    let (output, pos) ← emitLengthTail output pos rem length
    .ok (output, pos, nibblePos)

namespace TokenEncoder

def new (output : Bytes) : TokenEncoder :=
  { output, outPos := 0, nibblePos := none, flagPos := 0, flags := 0, groupLen := 0, error := none }

variable (enc : TokenEncoder)

/-- `finish_group`: unused slots are marked as matches. -/
def finishGroup : TokenEncoder :=
  let flags := (List.range' enc.groupLen (32 - enc.groupLen)).foldl
    (fun flags i => flags ||| 1 <<< (31 - i)) enc.flags
  { enc with
    flags
    output := enc.output.splice enc.flagPos (Bytes.toLE 4 flags)
    groupLen := 0 }

/-- Reserve a flag word at the start of a group. -/
def openGroup : Except Error TokenEncoder :=
  if enc.groupLen = 0 then
    if enc.outPos + 4 > enc.output.length then
      .error (.outputTooSmall (enc.outPos + 4) enc.output.length)
    else .ok { enc with flagPos := enc.outPos, outPos := enc.outPos + 4, flags := 0 }
  else .ok enc

/-- The item of a token. -/
def writeItem (token : Lz77.Token UInt8) : Except Error TokenEncoder :=
  match token with
  | .literal b =>
    if enc.outPos ≥ enc.output.length then
      .error (.outputTooSmall (enc.outPos + 1) enc.output.length)
    else .ok { enc with output := enc.output.set enc.outPos b, outPos := enc.outPos + 1 }
  | .copy m => do
    let (output, outPos, nibblePos) ← encodeMatch enc.output enc.outPos enc.nibblePos m.offset
      m.length
    .ok { enc with output, outPos, nibblePos, flags := enc.flags ||| 1 <<< (31 - enc.groupLen) }

/-- The end of `push_inner`. -/
def closeItem : TokenEncoder :=
  let enc := { enc with groupLen := enc.groupLen + 1 }
  if enc.groupLen = 32 then enc.finishGroup else enc

def pushInner (token : Lz77.Token UInt8) : Except Error TokenEncoder := do
  let enc ← enc.openGroup
  let enc ← enc.writeItem token
  .ok enc.closeItem

/-- `push`: the first error is kept and ends the encoding. -/
def push (token : Lz77.Token UInt8) : TokenEncoder :=
  if enc.error.isSome then enc
  else
    match enc.pushInner token with
    | .ok enc => enc
    | .error error => { enc with error := some error }

/-- `finish`: the buffer and the number of bytes written. -/
def finish : Except Error (Bytes × Nat) :=
  match enc.error with
  | some error => .error error
  | none =>
    let enc := if enc.groupLen ≠ 0 then enc.finishGroup else enc
    .ok (enc.output, enc.outPos)

end TokenEncoder

/-- `Compressor::compress` with the finder of a `Compressor`. -/
def compressWith (finder : MatchFinder) (input output : Bytes) : Except Error (Bytes × Nat) :=
  if input.isEmpty then .ok (output, 0)
  else do
    let (_, enc) ← MatchFinder.tokenizeStreaming TokenEncoder.push input finder.reset
      (TokenEncoder.new output)
    enc.finish

def compress (input output : Bytes) : Except Error (Bytes × Nat) :=
  compressWith (MatchFinder.standard 8192 65535 32) input output

/-! ### Decompression -/

def FLAG_GROUP_SIZE : Nat := 32

def INPUT_GUARD : Nat := 196

def OUTPUT_GUARD : Nat := 256

/-- `DecompressState`, without the input and the length of the output. -/
structure DecompressState where
  inPos : Nat
  outPos : Nat
  nibblePos : Option Nat
  deriving Repr, DecidableEq

namespace DecompressState

variable (input : Bytes) (st : DecompressState)

def readFlagDword : Except Error (Nat × DecompressState) :=
  if st.inPos + 4 > input.length then
    .error (.inputTruncated st.inPos 4 (input.length - st.inPos))
  else .ok (input.le32 st.inPos, { st with inPos := st.inPos + 4 })

/-- A byte; `read_literal` and `read_byte_extension` are the same. -/
def readByte : Except Error (UInt8 × DecompressState) :=
  if st.inPos ≥ input.length then .error (.inputTruncated st.inPos 1 0)
  else .ok (input.getD st.inPos 0, { st with inPos := st.inPos + 1 })

def readU16 : Except Error (Nat × DecompressState) :=
  if st.inPos + 2 > input.length then
    .error (.inputTruncated st.inPos 2 (input.length - st.inPos))
  else .ok (input.le16 st.inPos, { st with inPos := st.inPos + 2 })

def readNibbleExtension : Except Error (Nat × DecompressState) :=
  match st.nibblePos with
  | some pos => .ok ((input.getD pos 0).toNat >>> 4, { st with nibblePos := none })
  | none =>
    if st.inPos ≥ input.length then .error (.inputTruncated st.inPos 1 0)
    else .ok ((input.getD st.inPos 0).toNat % 16,
      { st with nibblePos := some st.inPos, inPos := st.inPos + 1 })

/-- The length of a match, from the field of its word and its nibble. -/
def readLengthTail (lengthField nibble : Nat) (st : DecompressState) :
    Except Error (Nat × DecompressState) :=
  if nibble < 15 then .ok (lengthField + 3 + nibble, st)
  else do
    let (byteExt, st) ← readByte input st
    if byteExt.toNat < 255 then .ok (lengthField + 3 + nibble + byteExt.toNat, st)
    else
      let (ext, st) ← readU16 input st
      .ok (ext + 3, st)

/-- The length of a match, from the field of its word. -/
def readLength (lengthField : Nat) (st : DecompressState) : Except Error (Nat × DecompressState) :=
  if lengthField < 7 then .ok (lengthField + 3, st)
  else do
    let (nibble, st) ← readNibbleExtension input st
    readLengthTail input lengthField nibble st

def readMatch : Except Error (Lz77.Match × DecompressState) := do
  let (word, st) ← readU16 input st
  let offset := word >>> 3 + 1
  let (length, st) ← readLength input (word % 2 ^ 3) st
  if offset > st.outPos then
    .error (.invalidData (st.inPos - 2) ("XPRESS match offset " ++ toString offset ++
      " exceeds output position " ++ toString st.outPos))
  else .ok ({ offset, length }, st)

end DecompressState

/-- `while filled < length` of `copy_match`: a filled run is copied behind itself. -/
def fillLoop (outPos length : Nat) : Nat → Nat → Bytes → Bytes
  | 0, _, output => output
  | fuel + 1, filled, output =>
    if filled < length then
      let chunk := min filled (length - filled)
      fillLoop outPos length fuel (filled + chunk)
        (Lz77.copyWithin output outPos (outPos + filled) chunk)
    else output

def copyMatch (outPos offset length : Nat) : Except Error Bytes :=
  if outPos + length > output.length then
    .error (.outputTooSmall (outPos + length) output.length)
  else
    let srcStart := outPos - offset
    if offset ≥ length then .ok (Lz77.copyWithin output srcStart outPos length)
    else if offset = 1 then
      .ok (fillLoop outPos length length 1 (output.set outPos (output.getD srcStart 0)))
    else if offset ≥ 8 then
      .ok (copyTail srcStart outPos length [] (8 * (length / 8))
        (Lz77.copyChunks 8 srcStart outPos (length / 8) 0 output))
    else .ok (Lz77.copyChunks 1 srcStart outPos length 0 output)

/-- A match of the fast path: the bound is checked before the unchecked copy. -/
def copyMatchGuarded (level : SimdLevel) (output : Bytes) (outPos offset length : Nat) :
    Except Error Bytes :=
  if outPos + length > output.length then
    .error (.outputTooSmall (outPos + length) output.length)
  else .ok (copyMatchFast level output outPos offset length)

/-- `state.input[state.in_pos]` of the fast path. -/
def indexLiteral (input : Bytes) (st : DecompressState) : Except Error (UInt8 × DecompressState) :=
  if st.inPos ≥ input.length then .error .panicked
  else .ok (input.getD st.inPos 0, { st with inPos := st.inPos + 1 })

/-- The items of a flag word, for the remaining `bits`; `true` if the function returned. The two
    paths differ in how they read a literal and copy a match. -/
def groupItems (literal : DecompressState → Except Error (UInt8 × DecompressState))
    (copy : Bytes → Nat → Nat → Nat → Except Error Bytes) (input : Bytes) (flags : Nat) :
    List Nat → DecompressState → Bytes → Except Error (Bool × DecompressState × Bytes)
  | [], st, output => .ok (false, st, output)
  | bit :: bits, st, output =>
    if st.outPos ≥ output.length then .ok (true, st, output)
    else if (flags >>> (31 - bit)) % 2 = 0 then do
      let (byte, st) ← literal st
      groupItems literal copy input flags bits { st with outPos := st.outPos + 1 }
        (output.set st.outPos byte)
    else if st.inPos ≥ input.length then .ok (true, st, output)
    else do
      let (m, st) ← st.readMatch input
      let output ← copy output st.outPos m.offset m.length
      groupItems literal copy input flags bits { st with outPos := st.outPos + m.length } output

/-- The fast path. -/
def fastLoop (level : SimdLevel) (input : Bytes) : Nat → DecompressState → Bytes →
    Except Error (Bool × DecompressState × Bytes)
  | 0, st, output => .ok (false, st, output)
  | fuel + 1, st, output =>
    if st.outPos + OUTPUT_GUARD < output.length ∧ st.inPos + INPUT_GUARD ≤ input.length then do
      let flags := input.le32 st.inPos
      let (returned, st, output) ← groupItems (indexLiteral input) (copyMatchGuarded level) input
        flags (List.range FLAG_GROUP_SIZE) { st with inPos := st.inPos + 4 } output
      if returned then .ok (true, st, output) else fastLoop level input fuel st output
    else .ok (false, st, output)

/-- The slow path. -/
def slowLoop (input : Bytes) : Nat → DecompressState → Bytes →
    Except Error (DecompressState × Bytes)
  | 0, st, output => .ok (st, output)
  | fuel + 1, st, output =>
    if st.outPos < output.length then do
      let (flags, st) ← st.readFlagDword input
      let (returned, st, output) ← groupItems (DecompressState.readByte input) copyMatch input
        flags (List.range FLAG_GROUP_SIZE) st output
      if returned then .ok (st, output) else slowLoop input fuel st output
    else .ok (st, output)

/-- `decompress` on a processor of the given level: the buffer and the number of bytes written. A
    group takes at least the four bytes of its flag word, so that the fuel does not run out. -/
def decompress (level : SimdLevel) (input output : Bytes) : Except Error (Bytes × Nat) := do
  let st : DecompressState := { inPos := 0, outPos := 0, nibblePos := none }
  let (returned, st, output) ← fastLoop level input input.length st output
  if returned then .ok (output, st.outPos)
  else do
    let (st, output) ← slowLoop input (input.length + 1) st output
    .ok (output, st.outPos)

end Fsmnt.NtCompression.Xpress
