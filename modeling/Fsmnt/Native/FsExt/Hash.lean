import Fsmnt.Native.FsExt.Basic

/-!
# Directory name hashes

`hash.rs`: the legacy, half-MD4 and TEA hashes of hash versions 0 to 5, with signed and
unsigned name bytes.
-/

namespace Fsmnt.FsExt

structure DxHash where
  major : UInt32
  minor : UInt32
  deriving Repr, DecidableEq

def HTREE_EOF_32BIT : UInt32 := 0x7FFFFFFF

def finalizeHash (major minor : UInt32) : DxHash :=
  let hash := major &&& ~~~1
  { major := if hash = HTREE_EOF_32BIT <<< 1 then (HTREE_EOF_32BIT - 1) <<< 1 else hash, minor }

def rotateLeft (x : UInt32) (n : UInt32) : UInt32 := (x <<< n) ||| (x >>> (32 - n))

/-- A name byte, sign-extended for the signed variants. -/
def hashByte (signed : Bool) (b : UInt8) : UInt32 :=
  if signed ∧ b ≥ 0x80 then b.toUInt32 ||| 0xFFFFFF00 else b.toUInt32

/-- The words of `str2hashbuf` before padding: four bytes each, the last one possibly fewer. -/
def hashWords (signed : Bool) (pad : UInt32) : Nat → Bytes → List UInt32
  | 0, _ => []
  | n + 1, name =>
    let word : UInt32 := (name.take 4).foldl (fun val b => hashByte signed b + (val <<< 8)) pad
    word :: hashWords signed pad n (name.drop 4)

/-- `str2hashbuf`: `n` words. Words past the name are the padding. -/
def str2hashbuf (n : Nat) (name : Bytes) (signed : Bool) : List UInt32 :=
  let len := UInt32.ofNat name.length
  let pad := len ||| (len <<< 8)
  let pad := pad ||| (pad <<< 16)
  hashWords signed pad n name

/-! ### Legacy -/

def legacyHash (name : Bytes) (signed : Bool) : DxHash :=
  let (hash, minor) := name.foldl (fun (hash, minor) b =>
    let hash := rotateLeft hash 7 ^^^ hashByte signed b
    (hash, minor * hash)) ((0x12A3FE2D : UInt32), (0x37ABE8F9 : UInt32))
  finalizeHash hash minor

/-! ### Half-MD4 -/

def md4Choose (a b c : UInt32) : UInt32 := (a &&& b) ||| (~~~a &&& c)
def md4Majority (a b c : UInt32) : UInt32 := (a &&& b) ||| (a &&& c) ||| (b &&& c)
def md4Parity (a b c : UInt32) : UInt32 := a ^^^ b ^^^ c

/-- The four words of the hash state. -/
structure HashBuf where
  a : UInt32
  b : UInt32
  c : UInt32
  d : UInt32
  deriving Repr, DecidableEq

/-- Four steps of a round on the words `w0..w3` with rotations `r0..r3`. -/
def md4Steps (f : UInt32 → UInt32 → UInt32 → UInt32) (k : UInt32) (r0 r1 r2 r3 : UInt32)
    (w0 w1 w2 w3 : UInt32) (s : HashBuf) : HashBuf :=
  let a := rotateLeft (s.a + f s.b s.c s.d + w0 + k) r0
  let d := rotateLeft (s.d + f a s.b s.c + w1 + k) r1
  let c := rotateLeft (s.c + f d a s.b + w2 + k) r2
  let b := rotateLeft (s.b + f c d a + w3 + k) r3
  { a, b, c, d }

/-- `half_md4_transform` of eight input words. -/
def halfMd4Transform (buf : HashBuf) (input : List UInt32) : HashBuf :=
  let w := fun i => input.getD i 0
  let s := md4Steps md4Choose 0 3 7 11 19 (w 0) (w 1) (w 2) (w 3) buf
  let s := md4Steps md4Choose 0 3 7 11 19 (w 4) (w 5) (w 6) (w 7) s
  let s := md4Steps md4Majority 0x5A827999 3 5 9 13 (w 1) (w 3) (w 5) (w 7) s
  let s := md4Steps md4Majority 0x5A827999 3 5 9 13 (w 0) (w 2) (w 4) (w 6) s
  let s := md4Steps md4Parity 0x6ED9EBA1 3 9 11 15 (w 3) (w 7) (w 2) (w 6) s
  let s := md4Steps md4Parity 0x6ED9EBA1 3 9 11 15 (w 1) (w 5) (w 0) (w 4) s
  { a := buf.a + s.a, b := buf.b + s.b, c := buf.c + s.c, d := buf.d + s.d }

/-- Transform the name in chunks of `words` words; every chunk but the last is full. -/
def hashChunks (transform : HashBuf → List UInt32 → HashBuf) (words : Nat) (signed : Bool) :
    Nat → HashBuf → Bytes → HashBuf
  | 0, buf, _ => buf
  | fuel + 1, buf, name =>
    let buf := transform buf (str2hashbuf words name signed)
    if name.length ≤ words * 4 then buf
    else hashChunks transform words signed fuel buf (name.drop (words * 4))

def halfMd4Hash (name : Bytes) (seed : HashBuf) (signed : Bool) : DxHash :=
  let buf := hashChunks halfMd4Transform 8 signed (name.length + 1) seed name
  finalizeHash buf.b buf.c

/-! ### TEA -/

def teaTransform (buf : HashBuf) (input : List UInt32) : HashBuf :=
  let w := fun i => input.getD i 0
  let (b0, b1, _) := (List.range 16).foldl (fun (b0, b1, sum) _ =>
    let sum := sum + 0x9E3779B9
    let b0 := b0 + (((b1 <<< 4) + w 0) ^^^ (b1 + sum) ^^^ ((b1 >>> 5) + w 1))
    let b1 := b1 + (((b0 <<< 4) + w 2) ^^^ (b0 + sum) ^^^ ((b0 >>> 5) + w 3))
    (b0, b1, sum)) (buf.a, buf.b, (0 : UInt32))
  { buf with a := buf.a + b0, b := buf.b + b1 }

def teaHash (name : Bytes) (seed : HashBuf) (signed : Bool) : DxHash :=
  let buf := hashChunks teaTransform 4 signed (name.length + 1) seed name
  finalizeHash buf.a buf.b

/-- `dx_hash`; `none` for an unsupported hash version. -/
def dxHash (name : Bytes) (hashVersion : UInt8) (seed : UInt32 × UInt32 × UInt32 × UInt32) :
    Option DxHash :=
  let seed : HashBuf := { a := seed.1, b := seed.2.1, c := seed.2.2.1, d := seed.2.2.2 }
  if hashVersion = 0 then some (legacyHash name true)
  else if hashVersion = 1 then some (halfMd4Hash name seed true)
  else if hashVersion = 2 then some (teaHash name seed true)
  else if hashVersion = 3 then some (legacyHash name false)
  else if hashVersion = 4 then some (halfMd4Hash name seed false)
  else if hashVersion = 5 then some (teaHash name seed false)
  else none

-- `file_250.txt` as `debugfs` prints its hash, with the seed of that image.
example : dxHash [0x66, 0x69, 0x6C, 0x65, 0x5F, 0x32, 0x35, 0x30, 0x2E, 0x74, 0x78, 0x74] 1
    (0x1EC90553, 0x6B4BD7DF, 0x2A8EF4A0, 0xBA52E666) = some ⟨0x1CEB8490, 0xE654559D⟩ := by
  decide +kernel

end Fsmnt.FsExt
