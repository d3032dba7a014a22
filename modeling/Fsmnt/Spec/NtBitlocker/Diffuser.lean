import Fsmnt.Native.NtBitlocker.Diffuser
import Mathlib.Data.Set.Function

/-!
# The Elephant diffusers are inverse pairs

A word is changed by words other than itself, so that the opposite change, which meets these words
unchanged, takes it back. A reverse pass takes the changes back in the opposite order.
-/

namespace List

/-- A fold whose steps can be undone is undone in reverse order. -/
theorem foldl_reverse_foldl {α β : Type} {P : α → Prop} {f g : α → β → α} {l : List β}
    (h : ∀ a, P a → ∀ b ∈ l, P (f a b) ∧ g (f a b) b = a) {a : α} (ha : P a) :
    P (l.foldl f a) ∧ l.reverse.foldl g (l.foldl f a) = a := by
  induction l generalizing a with
  | nil => exact ⟨ha, rfl⟩
  | cons b l ih =>
    obtain ⟨hb, hback⟩ := h a ha b mem_cons_self
    obtain ⟨hl, hrest⟩ := ih (fun a ha b hb => h a ha b (mem_cons_of_mem _ hb)) hb
    rw [foldl_cons, reverse_cons, foldl_append, hrest]
    exact ⟨hl, hback⟩

end List

namespace Fsmnt.NtBitlocker

open Bytes List

variable {data : Bytes} {n i : Nat} {d : Diffuser} {op op' : BitVec 32 → BitVec 32 → BitVec 32}

/-- What was overwritten can be put back. -/
theorem splice_splice_slice {src : Bytes} {off w : Nat} (hsrc : src.length = w)
    (h : off + w ≤ data.length) : (data.splice off src).splice off (data.slice off w) = data := by
  subst hsrc
  have hlen : (data.slice off src.length).length = src.length := by
    rw [length_slice]
    omega
  apply ext_getElem?
  intro i
  rw [getElem?_splice (by rwa [length_splice h, hlen]), getElem?_splice h, hlen]
  split
  · rw [slice, getElem?_take_of_lt (by omega), getElem?_drop]
    congr 1
    omega
  · rfl

/-- The buffers of a size. -/
def ofLength (size : Nat) : Set Bytes := {data | data.length = size}

namespace Diffuser

/-- No word is its own neighbour. -/
def Proper (d : Diffuser) (n : Nat) : Prop :=
  ∀ i < n, (d.first n i < n ∧ d.first n i ≠ i) ∧ d.second n i < n ∧ d.second n i ≠ i

section

variable (hproper : d.Proper n) (hop : ∀ x y, op' (op x y) y = x)

include hproper hop

/-- The opposite change takes the change of a word back. -/
theorem step_step (hdata : data ∈ ofLength (4 * n)) (hi : i < n) :
    d.step op data n i ∈ ofLength (4 * n) ∧ d.step op' (d.step op data n i) n i = data := by
  have hfits : i * 4 + 4 ≤ data.length := by
    rw [hdata.out]
    omega
  have hother : ∀ {j}, j < n ∧ j ≠ i → ∀ value,
      readU32Le (writeU32Le data (i * 4) value) (j * 4) = readU32Le data (j * 4) := by
    intro j hj value
    rw [readU32Le, writeU32Le, le32_splice_of_disjoint _ hfits (by omega)]
    rfl
  have hself : ∀ value, readU32Le (writeU32Le data (i * 4) value) (i * 4) = value := by
    intro value
    rw [readU32Le, writeU32Le, le32_splice_self hfits value.isLt, BitVec.ofNat_toNat,
      BitVec.setWidth_eq]
  have hback : ∀ value,
      writeU32Le (writeU32Le data (i * 4) value) (i * 4) (readU32Le data (i * 4)) = data := by
    intro value
    have hword := toLE_ofLE (data.slice (i * 4) 4)
    rw [length_slice, Nat.min_eq_left (by omega)] at hword
    rw [writeU32Le, writeU32Le, readU32Le, BitVec.toNat_ofNat, Nat.mod_eq_of_lt (le32_lt _ _), le32,
      hword]
    exact splice_splice_slice (length_toLE 4 _) hfits
  obtain ⟨hfirst, hsecond⟩ := hproper i hi
  constructor
  · rwa [step, writeU32Le, ofLength, Set.mem_ofPred, length_splice (by rwa [length_toLE])]
  · rw [step, step]
    simp only [hother hfirst, hother hsecond, hself, hop, hback]

/-- The opposite changes, in the opposite order, take a run back. -/
theorem run_run {pass pass' : Nat → List Nat} (hpass : ∀ i ∈ pass n, i < n)
    (hreverse : pass' n = (pass n).reverse) (hdata : data ∈ ofLength (4 * n)) :
    d.run op pass data ∈ ofLength (4 * n) ∧ d.run op' pass' (d.run op pass data) = data := by
  have hcount : ∀ data ∈ ofLength (4 * n), data.length / 4 = n := by
    intro data hdata
    rw [hdata.out, Nat.mul_div_cancel_left n (by decide)]
  have hvisits : (replicate d.cycles (pass' n)).flatten =
      (replicate d.cycles (pass n)).flatten.reverse := by
    simp [reverse_flatten, hreverse]
  obtain ⟨hmem, hundo⟩ := foldl_reverse_foldl (l := (replicate d.cycles (pass n)).flatten)
    (f := (d.step op · n ·)) (g := (d.step op' · n ·)) (fun data hdata i hi => by
      obtain ⟨_, hcycle, hi⟩ := mem_flatten.mp hi
      exact step_step hproper hop hdata (hpass i (eq_of_mem_replicate hcycle ▸ hi))) hdata
  rw [run, hcount data hdata]
  refine ⟨hmem, ?_⟩
  rw [run, hcount _ hmem, hvisits]
  exact hundo

end

/-- Addition forwards and subtraction backwards are inverse to each other. -/
theorem Proper.invOn (h : d.Proper n) :
    Set.InvOn d.encrypt d.decrypt (ofLength (4 * n)) (ofLength (4 * n)) ∧
      Set.BijOn d.decrypt (ofLength (4 * n)) (ofLength (4 * n)) := by
  have hforth : ∀ data ∈ ofLength (4 * n),
      d.decrypt data ∈ ofLength (4 * n) ∧ d.encrypt (d.decrypt data) = data := fun _ =>
    run_run h BitVec.add_sub_cancel (fun _ => mem_range.mp) rfl
  have hback : ∀ data ∈ ofLength (4 * n),
      d.encrypt data ∈ ofLength (4 * n) ∧ d.decrypt (d.encrypt data) = data := fun _ =>
    run_run h BitVec.sub_add_cancel (fun _ hi => mem_range.mp (mem_reverse.mp hi))
      (reverse_reverse _).symm
  have hinv : Set.InvOn d.encrypt d.decrypt (ofLength (4 * n)) (ofLength (4 * n)) :=
    ⟨fun data hdata => (hforth data hdata).2, fun data hdata => (hback data hdata).2⟩
  exact ⟨hinv, hinv.bijOn (fun data hdata => (hforth data hdata).1) fun data hdata =>
    (hback data hdata).1⟩

end Diffuser

/-- For every size of at least six words: the diffusers are inverse pairs, and the decryption of a
    sector, B and then A, is a bijection. -/
theorem diffusers_inverse (size : Nat) (hwords : 4 ∣ size) (hsize : 24 ≤ size) :
    Set.InvOn diffuserAEncrypt diffuserADecrypt (ofLength size) (ofLength size) ∧
      Set.InvOn diffuserBEncrypt diffuserBDecrypt (ofLength size) (ofLength size) ∧
      Set.BijOn (diffuserADecrypt ∘ diffuserBDecrypt) (ofLength size) (ofLength size) := by
  obtain ⟨n, rfl⟩ := hwords
  have hmod : ∀ x < 2 * n, x < n ∧ x % n = x ∨ n ≤ x ∧ x % n = x - n := by
    intro x hx
    by_cases hlt : x < n
    · exact .inl ⟨hlt, Nat.mod_eq_of_lt hlt⟩
    · rw [Nat.mod_eq_sub_mod (by omega), Nat.mod_eq_of_lt (by omega)]
      omega
  have hA : Diffuser.a.Proper n := by
    intro i hi
    have hfirst := hmod (i + n - 2) (by omega)
    have hsecond := hmod (i + n - 5) (by omega)
    simp only [Diffuser.a]
    omega
  have hB : Diffuser.b.Proper n := by
    intro i hi
    have hfirst := hmod (i + 2) (by omega)
    have hsecond := hmod (i + 5) (by omega)
    simp only [Diffuser.b]
    omega
  exact ⟨hA.invOn.1, hB.invOn.1, hA.invOn.2.comp hB.invOn.2⟩

/-- Seven words of different bytes are changed and come back. -/
theorem diffusers_inverse_seven_words :
    diffuserADecrypt ((range 28).map UInt8.ofNat) ≠ (range 28).map UInt8.ofNat ∧
      diffuserAEncrypt (diffuserADecrypt ((range 28).map UInt8.ofNat)) =
        (range 28).map UInt8.ofNat ∧
      diffuserBDecrypt (diffuserBEncrypt ((range 28).map UInt8.ofNat)) =
        (range 28).map UInt8.ofNat := by
  obtain ⟨hA, hB, -⟩ := diffusers_inverse 28 (by decide) (by decide)
  exact ⟨by decide +kernel, hA.1 rfl, hB.2 rfl⟩

end Fsmnt.NtBitlocker
