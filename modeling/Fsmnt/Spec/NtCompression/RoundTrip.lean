import Fsmnt.Spec.NtCompression.Lznt1
import Fsmnt.Spec.NtCompression.Xpress

/-! # Round trips

What a byte codec with a published bound promises, and which data the LZNT1 and the plain XPRESS
codec keep the promise for. -/

namespace Fsmnt.NtCompression

open Xpress Bytes

/-- With an output of at least the bound, compression succeeds, and a buffer of the length of the
    data is decompressed to the data. -/
def RoundTrips (bound : Nat → Nat) (compress : Bytes → Bytes → Except Error (Bytes × Nat))
    (decompress : Bytes → Bytes → Except Error (Bytes × Nat)) (x : Bytes) : Prop :=
  ∀ output : Bytes, bound x.length ≤ output.length → ∃ out n, compress x output = .ok (out, n) ∧
      ∀ buf : Bytes, buf.length = x.length → decompress (out.take n) buf = .ok (x, x.length)

namespace Xpress

theorem roundTrips_iff (level : SimdLevel) (x : Bytes) :
    RoundTrips compressBound compress (decompress level) x ↔ Indexed x := by
  constructor
  · intro h
    obtain ⟨out, n, hrun, -⟩ := h (zeros (compressBound x.length))
      (Nat.le_of_eq (length_zeros _).symm)
    exact indexed_of_compress hrun
  · intro h output hbound
    exact decompress_compress level h hbound

theorem not_indexed_of_length {x : Bytes} (h : 2 ^ 32 + 65536 ≤ x.length) : ¬Indexed x := by
  intro hx
  obtain ⟨out, n, hrun, -⟩ := (roundTrips_iff .scalar x).mpr hx _
    (Nat.le_of_eq (length_zeros (compressBound x.length)).symm)
  rw [compress_panics h] at hrun
  cases hrun

end Xpress

/-- LZNT1 keeps the promise for all data. XPRESS keeps it for exactly the data whose positions fit
    the match finder's `u32` chains: all data of up to `2 ^ 32 + 1` bytes, none of `2 ^ 32 + 65536`
    or more, and in between those where a match covers what lies past the last position. -/
theorem roundTrips_iff_indexed (level : SimdLevel) (x : Bytes) :
    RoundTrips Lznt1.compressBound Lznt1.compress Lznt1.decompress x ∧
    (RoundTrips compressBound compress (decompress level) x ↔ Xpress.Indexed x) ∧
    (x.length ≤ 2 ^ 32 + 1 → Xpress.Indexed x) ∧
    (2 ^ 32 + 65536 ≤ x.length → ¬Xpress.Indexed x) :=
  ⟨fun _ hbound => Lznt1.decompress_compress hbound, roundTrips_iff level x,
    MatchFinder.indexes_of_length _, not_indexed_of_length⟩

/-- Eight gigabytes of zeros have more positions than a `u32` holds, and `compress` panics on them
    whatever the size of the output. -/
theorem eightGigabytes_not_roundTrips : ¬RoundTrips compressBound compress (decompress .scalar)
      (zeros (2 ^ 33)) ∧
    compress (zeros (2 ^ 33)) (zeros (compressBound (2 ^ 33))) = .error .panicked := by
  have hlen : 2 ^ 32 + 65536 ≤ (zeros (2 ^ 33)).length := by
    rw [length_zeros]
    omega
  refine ⟨fun h => ?_, compress_panics hlen⟩
  exact not_indexed_of_length hlen ((roundTrips_iff .scalar _).mp h)

end Fsmnt.NtCompression
