import Fsmnt.ForStd.Bytes

/-!
# The Elephant diffusers

`crypto/diffuser.rs` of `nt-bitlocker`. The four functions are one with parameters. A buffer of
fewer than five words, where the source would underflow, is not modelled.
-/

namespace Fsmnt.NtBitlocker

open Bytes

def readU32Le (data : Bytes) (offset : Nat) : BitVec 32 := .ofNat 32 (data.le32 offset)

def writeU32Le (data : Bytes) (offset : Nat) (value : BitVec 32) : Bytes :=
  data.splice offset (toLE 4 value.toNat)

/-- What the diffusers differ in: the neighbours of word `i` of `n`, the rotations of the second
    neighbour, and how often all words are visited. -/
structure Diffuser where
  cycles : Nat
  first : Nat → Nat → Nat
  second : Nat → Nat → Nat
  rotations : List Nat

namespace Diffuser

def RA : List Nat := [9, 0, 13, 0]

def RB : List Nat := [0, 10, 0, 25]

def a : Diffuser := ⟨5, fun n i => (i + n - 2) % n, fun n i => (i + n - 5) % n, RA⟩

def b : Diffuser := ⟨3, fun n i => (i + 2) % n, fun n i => (i + 5) % n, RB⟩

variable (d : Diffuser) (op : BitVec 32 → BitVec 32 → BitVec 32) (pass : Nat → List Nat)

/-- The body of the loops: the neighbours of word `i` change it. -/
def step (data : Bytes) (n i : Nat) : Bytes :=
  let a := readU32Le data (d.first n i * 4)
  let b := readU32Le data (d.second n i * 4)
  let cur := readU32Le data (i * 4)
  writeU32Le data (i * 4) (op cur (a ^^^ b.rotateLeft (d.rotations.getD (i % 4) 0)))

/-- The loops, each cycle visiting the words that `pass` lists. -/
def run (data : Bytes) : Bytes :=
  let n := data.length / 4
  (List.replicate d.cycles (pass n)).flatten.foldl (d.step op · n ·) data

/-- Forward iteration, addition. -/
def decrypt : Bytes → Bytes := d.run (· + ·) List.range

/-- Reverse iteration, subtraction. -/
def encrypt : Bytes → Bytes := d.run (· - ·) fun n => (List.range n).reverse

end Diffuser

def diffuserADecrypt : Bytes → Bytes := Diffuser.a.decrypt

def diffuserAEncrypt : Bytes → Bytes := Diffuser.a.encrypt

def diffuserBDecrypt : Bytes → Bytes := Diffuser.b.decrypt

def diffuserBEncrypt : Bytes → Bytes := Diffuser.b.encrypt

end Fsmnt.NtBitlocker
