import Fsmnt.Native.NtCompression.Xpress
import Fsmnt.Spec.NtCompression.Lz77

/-!
# XPRESS encoder

The encoder goes back to bytes it has written: a flag word is filled in at the end of its group,
and the high half of a nibble byte may be filled in much later. A state of the encoder is therefore
understood by the final outputs it still allows (`Extends`). Every step allows fewer of them, and
whatever has been emitted can be read from each.
-/

namespace Fsmnt.NtCompression.Xpress

open Bytes DecompressState Except List Lz77 Option TokenEncoder UInt8

variable {v p p' flags count total i q : Nat} {ts : List (Token UInt8)} {fin : Bytes}
  {n n' o : Option Nat} {t : Token UInt8} {enc : TokenEncoder} {D : Nat → Token UInt8 → Prop}
  {g : OpenGroup} {d : Draft}

/-! ### What an unfinished output allows -/

/-- An unfinished output: the buffer, the position behind what is written, and the byte that waits
    for a nibble. -/
structure Draft where
  output : Bytes
  pos : Nat
  nibble : Option Nat

/-- A flag word that is not yet written. -/
structure OpenGroup where
  pos : Nat
  flags : Nat
  count : Nat

/-- The position is in a flag word that is not yet written. -/
def OpenGroup.Covers (group : Option OpenGroup) (i : Nat) : Prop :=
  ∃ g, group = some g ∧ g.pos ≤ i ∧ i < g.pos + 4

@[simp] theorem OpenGroup.covers_some :
    OpenGroup.Covers (some g) i ↔ g.pos ≤ i ∧ i < g.pos + 4 := by
  simp [OpenGroup.Covers]

@[simp] theorem OpenGroup.not_covers_none : ¬OpenGroup.Covers none i := by
  simp [OpenGroup.Covers]

/-- The shape of an unfinished output. -/
structure Laid (d : Draft) (group : Option OpenGroup) : Prop where
  fits : d.pos ≤ d.output.length
  nibble : ∀ np, d.nibble = some np →
    np < d.pos ∧ (d.output.getD np 0).toNat < 16 ∧ ¬OpenGroup.Covers group np
  group : ∀ g, group = some g → g.pos + 4 ≤ d.pos

/-- `fin` is an output that the encoder may still end with. -/
structure Extends (d : Draft) (group : Option OpenGroup) (fin : Bytes) : Prop where
  length : d.pos ≤ fin.length
  agree : ∀ i < d.pos, ¬OpenGroup.Covers group i → d.nibble ≠ some i → fin[i]? = d.output[i]?
  nibble : ∀ np, d.nibble = some np → (fin.getD np 0).toNat % 16 = (d.output.getD np 0).toNat
  flags : ∀ g, group = some g → ∀ j < g.count,
    (fin.le32 g.pos).testBit (31 - j) = g.flags.testBit (31 - j)

/-- A step from one unfinished output to another: a final output that is allowed behind it was
    allowed before, and `shows` what the step has written. -/
structure Step (group : Option OpenGroup) (d d' : Draft) (shows : Bytes → Prop) : Prop where
  length : d'.output.length = d.output.length
  laid : Laid d' group
  back : ∀ fin, Extends d' group fin → Extends d group fin ∧ shows fin

section Steps

variable {d d' : Draft} {group : Option OpenGroup} {P Q : Bytes → Prop}

/-- Two steps are one. -/
theorem Step.trans {last : Draft} (h : Step group d d' P) (h' : Step group d' last Q) :
    Step group d last fun fin => P fin ∧ Q fin := by
  refine ⟨h'.length.trans h.length, h'.laid, fun fin hfin => ?_⟩
  obtain ⟨hmid, hQ⟩ := h'.back fin hfin
  obtain ⟨hstart, hP⟩ := h.back fin hmid
  exact ⟨hstart, hP, hQ⟩

theorem Step.mono (h : Step group d d' P) (hPQ : ∀ fin, d'.pos ≤ fin.length → P fin → Q fin) :
    Step group d d' Q :=
  ⟨h.length, h.laid, fun fin hfin => ⟨(h.back fin hfin).1, hPQ fin hfin.length (h.back fin hfin).2⟩⟩

/-- The high half of a nibble byte. -/
theorem nibble_or {a : UInt8} (ha : a.toNat < 16) (hv : v < 16) :
    (a ||| UInt8.ofNat (v <<< 4)).toNat = v * 16 + a.toNat := by
  have hshift : v <<< 4 < 2 ^ 8 := by
    omega
  rw [UInt8.toNat_or, UInt8.toNat_ofNat_of_lt' hshift, Nat.or_comm,
    ← Nat.shiftLeft_add_eq_or_of_lt (by omega), Nat.shiftLeft_eq]

theorem le16_of_getElem? {a b : Nat} (h₀ : fin[p]? = some (ofNat a))
    (h₁ : fin[p + 1]? = some (ofNat b)) (ha : a < 256) (hb : b < 256) :
    fin.le16 p = b * 256 + a := by
  obtain ⟨hlt₁, hget₁⟩ := List.getElem?_eq_some_iff.mp h₁
  obtain ⟨hlt₀, hget₀⟩ := List.getElem?_eq_some_iff.mp h₀
  have hslice : fin.slice p 2 = [ofNat a, ofNat b] := by
    rw [slice, drop_eq_getElem_cons hlt₀, drop_eq_getElem_cons hlt₁, hget₀, hget₁]
    rfl
  have hbyte : ∀ n < 256, (ofNat n).toNat = n := fun n hn => toNat_ofNat_of_lt' hn
  simp only [le16, hslice, ofLE, hbyte a ha, hbyte b hb]
  omega

section

variable (h : Laid d group)

include h

theorem Laid.not_covers : ¬OpenGroup.Covers group d.pos := by
  rintro ⟨g, hg, -, hlt⟩
  have := h.group g hg
  omega

/-- A byte is written at the end. -/
theorem step_set (hlt : d.pos < d.output.length) (b : UInt8) :
    Step group d ⟨d.output.set d.pos b, d.pos + 1, d.nibble⟩ fun fin => fin[d.pos]? = some b := by
  have hkeep : ∀ np, d.nibble = some np →
      (d.output.set d.pos b).getD np 0 = d.output.getD np 0 := by
    intro np hnp
    have hnp' := (h.nibble np hnp).1
    rw [getD_eq_getElem?_getD, getElem?_set_ne (by omega), ← getD_eq_getElem?_getD]
  refine ⟨length_set, ⟨by rw [length_set]; exact hlt, fun np hnp => ?_, fun g hg =>
    Nat.le_succ_of_le (h.group g hg)⟩, fun fin hfin => ?_⟩
  · obtain ⟨hnp', hsmall, hcov⟩ := h.nibble np hnp
    exact ⟨Nat.lt_succ_of_lt hnp', by rwa [hkeep np hnp], hcov⟩
  · refine ⟨⟨Nat.le_of_succ_le hfin.length, fun i hi hcov hne => ?_, fun np hnp => ?_, hfin.flags⟩,
      ?_⟩
    · rw [hfin.agree i (Nat.lt_succ_of_lt hi) hcov hne, getElem?_set_ne (Nat.ne_of_gt hi)]
    · rw [hfin.nibble np hnp, hkeep np hnp]
    · have hne : d.nibble ≠ some d.pos := fun heq => Nat.lt_irrefl _ (h.nibble d.pos heq).1
      rw [hfin.agree d.pos (Nat.lt_succ_self _) h.not_covers hne, getElem?_set_self hlt]

/-- A byte is written whose high half is still to come. -/
theorem step_set_nibble (hnone : d.nibble = none) (hlt : d.pos < d.output.length) (hv : v < 16) :
    Step group d ⟨d.output.set d.pos (ofNat v), d.pos + 1, some d.pos⟩
      fun fin => (fin.getD d.pos 0).toNat % 16 = v := by
  have hbyte : ((d.output.set d.pos (ofNat v)).getD d.pos 0).toNat = v := by
    rw [getD_eq_getElem?_getD, getElem?_set_self hlt, getD_some,
      toNat_ofNat_of_lt' (Nat.lt_trans hv (by decide))]
  refine ⟨length_set, ⟨by rw [length_set]; exact hlt, ?_, fun g hg =>
    Nat.le_succ_of_le (h.group g hg)⟩, fun fin hfin => ?_⟩
  · rintro np ⟨⟩
    exact ⟨Nat.lt_succ_self _, by rw [hbyte]; exact hv, h.not_covers⟩
  · refine ⟨⟨Nat.le_of_succ_le hfin.length, fun i hi hcov _ => ?_, by rw [hnone]; nofun,
      hfin.flags⟩, ?_⟩
    · have hne : some d.pos ≠ some i := fun heq => Nat.ne_of_gt hi (some.inj heq)
      rw [hfin.agree i (Nat.lt_succ_of_lt hi) hcov hne, getElem?_set_ne (Nat.ne_of_gt hi)]
    · rw [hfin.nibble d.pos rfl, hbyte]

/-- The high half of a byte is filled in. -/
theorem step_fill_nibble {np : Nat} (hsome : d.nibble = some np) (hv : v < 16) :
    Step group d ⟨d.output.set np (d.output.getD np 0 ||| ofNat (v <<< 4)), d.pos, none⟩
      fun fin => (fin.getD np 0).toNat >>> 4 = v := by
  obtain ⟨hlt, hsmall, hcov⟩ := h.nibble np hsome
  have hfits := h.fits
  refine ⟨length_set, ⟨by rw [length_set]; exact hfits, nofun, h.group⟩, fun fin hfin => ?_⟩
  have hbyte : (fin.getD np 0).toNat = v * 16 + (d.output.getD np 0).toNat := by
    rw [show fin.getD np 0 = fin[np]?.getD 0 from getD_eq_getElem?_getD,
      hfin.agree np hlt hcov nofun, getElem?_set_self (by omega), getD_some, nibble_or hsmall hv]
  refine ⟨⟨hfin.length, fun i hi hcov' hne => ?_, fun np' hnp => ?_, hfin.flags⟩, ?_⟩
  · have hne' : np ≠ i := fun heq => hne (hsome.trans (congrArg some heq))
    rw [hfin.agree i hi hcov' nofun, getElem?_set_ne hne']
  · obtain rfl : np = np' := some.inj (hsome.symm.trans hnp)
    rw [hbyte, Nat.add_comm, Nat.add_mul_mod_self_right, Nat.mod_eq_of_lt hsmall]
  · rw [hbyte, Nat.shiftRight_eq_div_pow]
    omega

/-! ### A match -/

theorem emit_spec (hlt : d.pos < d.output.length) (b : Nat) :
    ∃ output', emit d.output d.pos b = .ok (output', d.pos + 1) ∧
      Step group d ⟨output', d.pos + 1, d.nibble⟩ fun fin => fin[d.pos]? = some (ofNat b) :=
  ⟨_, if_neg (Nat.not_le.mpr hlt), step_set h hlt _⟩

theorem emitWord_spec (hlt : d.pos + 2 ≤ d.output.length) {word : Nat} (hword : word < 2 ^ 16) :
    ∃ output', emitWord d.output d.pos word = .ok (output', d.pos + 2) ∧
      Step group d ⟨output', d.pos + 2, d.nibble⟩
        fun fin => ∀ o n, readU16 fin ⟨d.pos, o, n⟩ = .ok (word, ⟨d.pos + 2, o, n⟩) := by
  obtain ⟨mid, hemit, hlow⟩ := emit_spec h (by omega) (word % 256)
  have hlen : mid.length = d.output.length := hlow.length
  obtain ⟨output', hemit', hhigh⟩ := emit_spec hlow.laid (show d.pos + 1 < mid.length by omega)
    (word / 256)
  refine ⟨output', ?_, (hlow.trans hhigh).mono fun fin hin hread o n => ?_⟩
  · rw [emitWord, hemit]
    exact hemit'
  · rw [readU16, if_neg (Nat.not_lt.mpr hin),
      le16_of_getElem? hread.1 hread.2 (by omega) (by omega)]
    congr 2
    omega

/-- Two nibbles share a byte. -/
theorem emitNibble_spec (hlt : d.pos < d.output.length) (hv : v < 16) : ∃ d',
      emitNibble d.output d.pos d.nibble v = .ok (d'.output, d'.pos, d'.nibble) ∧
      d.pos ≤ d'.pos ∧ d'.pos ≤ d.pos + 1 ∧ Step group d d' fun fin => ∀ o,
        readNibbleExtension fin ⟨d.pos, o, d.nibble⟩ = .ok (v, ⟨d'.pos, o, d'.nibble⟩) := by
  cases hnibble : d.nibble with
  | some np =>
    refine ⟨⟨_, _, _⟩, rfl, Nat.le_refl _, Nat.le_succ _, (step_fill_nibble h hnibble hv).mono ?_⟩
    intro fin _ hread o
    simp only [readNibbleExtension, hread]
  | none =>
    refine ⟨⟨_, _, _⟩, ?_, Nat.le_succ _, Nat.le_refl _,
      (step_set_nibble h hnibble hlt hv).mono fun fin hin hread o => ?_⟩
    · rw [emitNibble, emit, if_neg (Nat.not_le.mpr hlt)]
      rfl
    · simp only [readNibbleExtension, hread]
      exact if_neg (Nat.not_le.mpr hin)

theorem emitLengthTail_spec {length : Nat} (hmin : 10 ≤ length) (hmax : length ≤ 65538)
    (hroom : d.pos + (if length < 25 then 0 else if length < 280 then 1 else 3) ≤ d.output.length) :
    ∃ output' pos', emitLengthTail d.output d.pos (length - 10) length = .ok (output', pos') ∧
      pos' = d.pos + (if length < 25 then 0 else if length < 280 then 1 else 3) ∧
      Step group d ⟨output', pos', d.nibble⟩ fun fin => ∀ o n,
        readLengthTail fin 7 (min (length - 10) 15) ⟨d.pos, o, n⟩ =
          .ok (length, ⟨pos', o, n⟩) := by
  unfold emitLengthTail readLengthTail
  by_cases hnibble : length < 25
  · rw [if_neg (by omega), if_pos hnibble]
    refine ⟨d.output, d.pos, rfl, rfl, rfl, h, fun fin hfin => ⟨hfin, fun o n => ?_⟩⟩
    rw [if_pos (by omega)]
    congr 2
    omega
  rw [if_neg hnibble] at hroom ⊢
  rw [if_pos (by omega)]
  obtain ⟨mid, hemit, hbyte⟩ := emit_spec h
    (show d.pos < d.output.length by split at hroom <;> omega) (min (length - 10 - 15) 255)
  have hread : ∀ fin, fin[d.pos]? = some (ofNat (min (length - 10 - 15) 255)) → ∀ o n,
      ∃ b : UInt8, readByte fin ⟨d.pos, o, n⟩ = .ok (b, ⟨d.pos + 1, o, n⟩) ∧
        b.toNat = min (length - 10 - 15) 255 := by
    intro fin hget o n
    obtain ⟨hlt, -⟩ := List.getElem?_eq_some_iff.mp hget
    refine ⟨fin.getD d.pos 0, if_neg (Nat.not_le_of_lt hlt), ?_⟩
    rw [getD_eq_getElem?_getD, hget, getD_some,
      toNat_ofNat_of_lt' (Nat.lt_of_le_of_lt (Nat.min_le_right _ _) (by decide))]
  by_cases hshort : length < 280
  · rw [if_pos hshort]
    refine ⟨mid, d.pos + 1, ?_, rfl, hbyte.mono fun fin _ hget o n => ?_⟩
    · dsimp only
      rw [hemit]
      exact if_neg (by omega)
    · obtain ⟨b, hb, hval⟩ := hread fin hget o n
      rw [if_neg (by omega), hb]
      simp only [bind, Except.bind]
      rw [if_pos (by omega)]
      congr 2
      omega
  · rw [if_neg hshort] at hroom ⊢
    have hlen : mid.length = d.output.length := hbyte.length
    obtain ⟨output', hemit', hword⟩ := emitWord_spec hbyte.laid
      (show d.pos + 1 + 2 ≤ mid.length by omega) (show length - 3 < 2 ^ 16 by omega)
    refine ⟨output', d.pos + 3, ?_, rfl, (hbyte.trans hword).mono fun fin _ hget o n => ?_⟩
    · dsimp only
      rw [hemit]
      simp only [bind, Except.bind]
      rw [if_pos (by omega), hemit']
    · obtain ⟨b, hb, hval⟩ := hread fin hget.1 o n
      rw [if_neg (by omega), hb]
      simp only [bind, Except.bind, hget.2]
      rw [if_neg (by omega), Nat.sub_add_cancel (by omega)]

/-- What `encode_match` writes is read back as the match, from every output that is still
    allowed, and takes no more bytes than the match covers. -/
theorem encodeMatch_spec {m : Match} (hoff : 1 ≤ m.offset) (hwindow : m.offset ≤ 8192)
    (hmin : 3 ≤ m.length) (hmax : m.length ≤ 65538) (hroom : d.pos + m.length ≤ d.output.length) :
    ∃ d', encodeMatch d.output d.pos d.nibble m.offset m.length =
        .ok (d'.output, d'.pos, d'.nibble) ∧
      d.pos < d'.pos ∧ d'.pos ≤ d.pos + m.length ∧
      Step group d d' fun fin => ∀ o, m.offset ≤ o →
        readMatch fin ⟨d.pos, o, d.nibble⟩ = .ok (m, ⟨d'.pos, o, d'.nibble⟩) := by
  simp only [encodeMatch]
  generalize hf : (if m.length - 3 < 7 then m.length - 3 else 7) = field
  have hshift : (m.offset - 1) <<< 3 < 2 ^ 16 := by
    omega
  have hfield : field < 2 ^ 3 := by split at hf <;> omega
  have hword : (m.offset - 1) <<< 3 % 2 ^ 16 ||| field % 2 ^ 3 = (m.offset - 1) * 8 + field := by
    rw [Nat.mod_eq_of_lt hshift, Nat.mod_eq_of_lt hfield, ← Nat.shiftLeft_add_eq_or_of_lt hfield,
      Nat.shiftLeft_eq]
  obtain ⟨mid, hemit, hstep⟩ := emitWord_spec h (by omega)
    (show (m.offset - 1) * 8 + field < 2 ^ 16 by omega)
  have hlen : mid.length = d.output.length := hstep.length
  simp only [hword, hemit, ok_bind]
  -- The word holds the offset and the field.
  have hstart : ∀ fin, (∀ o n,
      readU16 fin ⟨d.pos, o, n⟩ = .ok ((m.offset - 1) * 8 + field, ⟨d.pos + 2, o, n⟩)) →
      ∀ o s, m.offset ≤ o →
      readLength fin field ⟨d.pos + 2, o, d.nibble⟩ = .ok (m.length, s) → s.outPos = o →
      readMatch fin ⟨d.pos, o, d.nibble⟩ = .ok (m, s) := by
    intro fin hget o s ho hlength hs
    have hdiv : ((m.offset - 1) * 8 + field) >>> 3 + 1 = m.offset := by
      omega
    have hmod : ((m.offset - 1) * 8 + field) % 2 ^ 3 = field := by omega
    unfold readMatch
    simp only [hget, ok_bind, hdiv, hmod, hlength]
    rw [if_neg (by omega)]
  by_cases hshort : m.length - 3 < 7
  · rw [if_pos hshort] at hf ⊢
    subst hf
    refine ⟨⟨mid, d.pos + 2, d.nibble⟩, rfl, by dsimp only; omega, by dsimp only; omega,
      hstep.mono fun fin _ hget o ho => hstart fin hget o _ ho ?_ rfl⟩
    rw [readLength, if_pos hshort, Nat.sub_add_cancel hmin]
  rw [if_neg hshort] at hf ⊢
  subst hf
  obtain ⟨⟨mid₁, pos₁, nibble₁⟩, hnibble, hge, hle, hstep₁⟩ := emitNibble_spec hstep.laid
    (show d.pos + 2 < mid.length by omega) (show min (m.length - 10) 15 < 16 by omega)
  have hlen₁ : mid₁.length = mid.length := hstep₁.length
  dsimp only at hnibble hge hle
  obtain ⟨output', pos', htail, hpos, hstep₂⟩ := emitLengthTail_spec hstep₁.laid
    (show 10 ≤ m.length by omega) hmax (show pos₁ + _ ≤ mid₁.length by split <;> [skip; split] <;>
      omega)
  rw [show m.length - 3 - 7 = m.length - 10 by omega]
  dsimp only at htail hpos
  refine ⟨⟨output', pos', nibble₁⟩, ?_, by dsimp only; omega, ?_,
    ((hstep.trans hstep₁).trans hstep₂).mono fun fin _ hget o ho =>
      hstart fin hget.1.1 o _ ho ?_ rfl⟩
  · simp only [hnibble, ok_bind, htail]
  · dsimp only
    split at hpos
    · omega
    · split at hpos <;> omega
  · rw [readLength, hget.1.2 o]
    exact hget.2 o nibble₁

end

end Steps

/-! ### Reading items -/

def isCopy : Token UInt8 → Bool
  | .literal _ => false
  | .copy _ => true

/-- A token can be read from `fin` at `p`, with the nibble byte at `n`, up to `p'` and `n'`. -/
def ReadsToken (fin : Bytes) (p : Nat) (n : Option Nat) (p' : Nat) (n' : Option Nat) :
    Token UInt8 → Prop
  | .literal a => fin[p]? = some a ∧ p' = p + 1 ∧ n' = n
  | .copy m => p < fin.length ∧ p ≤ p' ∧ ∀ o, m.offset ≤ o →
    DecompressState.readMatch fin ⟨p, o, n⟩ = .ok (m, ⟨p', o, n'⟩)

/-- Tokens in sequence. -/
def ReadsItems (fin : Bytes) : Nat → Option Nat → List (Token UInt8) → Nat → Option Nat → Prop
  | p, n, [], p', n' => p' = p ∧ n' = n
  | p, n, t :: ts, p', n' => ∃ q o, ReadsToken fin p n q o t ∧ ReadsItems fin q o ts p' n'

theorem ReadsItems.snoc (hts : ReadsItems fin p n ts q o) (ht : ReadsToken fin q o p' n' t) :
    ReadsItems fin p n (ts ++ [t]) p' n' := by
  induction ts generalizing p n with
  | nil =>
    obtain ⟨rfl, rfl⟩ := hts
    exact ⟨p', n', ht, rfl, rfl⟩
  | cons u us ih =>
    obtain ⟨r, s, hu, hus⟩ := hts
    exact ⟨r, s, hu, ih hus⟩

theorem ReadsItems.le (h : ReadsItems fin p n ts p' n') : p ≤ p' := by
  induction ts generalizing p n with
  | nil => exact Nat.le_of_eq h.1.symm
  | cons t ts ih =>
    obtain ⟨q, o, ht, hts⟩ := h
    have hle := ih hts
    cases t with
    | literal a =>
      obtain ⟨-, rfl, -⟩ := ht
      omega
    | copy m => exact Nat.le_trans ht.2.1 hle

/-- A flag word and the items behind it. -/
structure ReadsGroup (fin : Bytes) (p : Nat) (n : Option Nat) (ts : List (Token UInt8)) (p' : Nat)
    (n' : Option Nat) : Prop where
  fits : p + 4 ≤ fin.length
  flags : ∀ j < ts.length, (fin.le32 p).testBit (31 - j) = ts[j]?.any isCopy
  items : ReadsItems fin (p + 4) n ts p' n'

theorem ReadsGroup.snoc (h : ReadsGroup fin p n ts q o)
    (hflag : (fin.le32 p).testBit (31 - ts.length) = isCopy t) (ht : ReadsToken fin q o p' n' t) :
    ReadsGroup fin p n (ts ++ [t]) p' n' := by
  refine ⟨h.fits, fun j hj => ?_, h.items.snoc ht⟩
  by_cases hlt : j < ts.length
  · rw [h.flags j hlt, getElem?_append_left hlt]
  rw [length_append, length_singleton] at hj
  obtain rfl : j = ts.length := by omega
  rw [hflag, getElem?_append_right (Nat.le_refl _), Nat.sub_self]
  rfl

/-- Full groups from the start of the output. -/
inductive ReadsFull (fin : Bytes) : List (List (Token UInt8)) → Nat → Option Nat → Prop
  | nil : ReadsFull fin [] 0 none
  | snoc {tss : List (List (Token UInt8))} {ts : List (Token UInt8)} {p p' : Nat}
      {n n' : Option Nat} (hfull : ReadsFull fin tss p n) (hgroup : ReadsGroup fin p n ts p' n')
      (hlen : ts.length = 32) : ReadsFull fin (tss ++ [ts]) p' n'

/-! ### The encoder -/

/-- What an encoder has written. -/
abbrev TokenEncoder.draft (enc : TokenEncoder) : Draft := ⟨enc.output, enc.outPos, enc.nibblePos⟩

/-- The flag word of the group that an encoder is in. -/
abbrev TokenEncoder.group (enc : TokenEncoder) : OpenGroup := ⟨enc.flagPos, enc.flags, enc.groupLen⟩

/-- The encoder is inside a group, at the point where the flag word is reserved. -/
structure Opened (enc : TokenEncoder) : Prop where
  error : enc.error = none
  count : enc.groupLen < 32
  flags_lt : enc.flags < 2 ^ 32
  flags_zero : ∀ j, enc.groupLen ≤ j → j < 32 → enc.flags.testBit (31 - j) = false
  laid : Laid enc.draft (some enc.group)

/-- The encoder is between two groups. -/
structure Closed (enc : TokenEncoder) : Prop where
  error : enc.error = none
  count : enc.groupLen = 0
  laid : Laid enc.draft none

/-- A match that the encoder can write. -/
def Encodable : Token UInt8 → Prop
  | .literal _ => True
  | .copy m => 1 ≤ m.offset ∧ m.offset ≤ 8192 ∧ 3 ≤ m.length ∧ m.length ≤ 65538

/-- The flags once an item has been added. -/
def flagsWith (flags count : Nat) (t : Token UInt8) : Nat :=
  if isCopy t then flags ||| 1 <<< (31 - count) else flags

theorem testBit_or_one_shiftLeft (flags k b : Nat) :
    (flags ||| 1 <<< k).testBit b = (flags.testBit b || decide (k = b)) := by
  rw [Nat.testBit_or, Nat.one_shiftLeft, Nat.testBit_two_pow]

theorem or_one_shiftLeft_lt {k : Nat} (h : flags < 2 ^ 32) (hk : k < 32) :
    flags ||| 1 <<< k < 2 ^ 32 := by
  refine Nat.or_lt_two_pow h ?_
  rw [Nat.one_shiftLeft]
  exact Nat.pow_lt_pow_right (by decide) hk

/-- The flag of the new item is set as it should be, and the others are kept. -/
theorem flagsWith_spec (t : Token UInt8) (hcount : count < 32) (hlt : flags < 2 ^ 32)
    (hzero : ∀ j, count ≤ j → j < 32 → flags.testBit (31 - j) = false) :
    flagsWith flags count t < 2 ^ 32 ∧ (flagsWith flags count t).testBit (31 - count) = isCopy t ∧
      (∀ j, count + 1 ≤ j → j < 32 → (flagsWith flags count t).testBit (31 - j) = false) ∧
      ∀ j < count, (flagsWith flags count t).testBit (31 - j) = flags.testBit (31 - j) := by
  unfold flagsWith
  cases hcopy : isCopy t with
  | false =>
    exact ⟨hlt, hzero count (Nat.le_refl _) hcount, fun j hj => hzero j (by omega), fun j _ => rfl⟩
  | true =>
    rw [if_pos rfl]
    refine ⟨or_one_shiftLeft_lt hlt (by omega), ?_, fun j hj hj' => ?_, fun j hj => ?_⟩
    · simp
    · rw [testBit_or_one_shiftLeft, hzero j (by omega) hj']
      simp
      omega
    · rw [testBit_or_one_shiftLeft]
      simp
      omega

theorem writeItem_spec (h : Opened enc) (ht : Encodable t)
    (hroom : enc.outPos + t.span ≤ enc.output.length) : ∃ d : Draft,
      enc.writeItem t = .ok { enc with
        output := d.output, outPos := d.pos, nibblePos := d.nibble
        flags := flagsWith enc.flags enc.groupLen t } ∧
      d.pos ≤ enc.outPos + t.span ∧ d.output.length = enc.output.length ∧
      ∀ group, Laid enc.draft group → Step group enc.draft d
        fun fin => ReadsToken fin enc.outPos enc.nibblePos d.pos d.nibble t := by
  cases t with
  | literal a =>
    have hlt : enc.outPos < enc.output.length := hroom
    refine ⟨_, ?_, Nat.le_refl _, length_set,
      fun group hlaid => (step_set hlaid hlt a).mono fun fin _ hget => ⟨hget, rfl, rfl⟩⟩
    rw [writeItem, if_neg (by omega)]
    rfl
  | copy m =>
    obtain ⟨hoff, hwindow, hmin, hmax⟩ := ht
    obtain ⟨d, hrun, hlt, hle, hstep⟩ := encodeMatch_spec h.laid hoff hwindow hmin hmax hroom
    refine ⟨d, ?_, hle, hstep.length, fun group hlaid => ?_⟩
    · rw [writeItem, hrun]
      rfl
    · -- The bytes do not depend on the group, so that the same run serves every one of them.
      obtain ⟨d', hrun', -, -, hstep'⟩ := encodeMatch_spec hlaid hoff hwindow hmin hmax hroom
      rw [hrun] at hrun'
      obtain rfl : d = d' := by
        cases d
        cases d'
        cases hrun'
        rfl
      exact hstep'.mono fun fin hin hmatch => ⟨Nat.lt_of_lt_of_le hlt hin, Nat.le_of_lt hlt, hmatch⟩

/-- Writing the flag word. -/
theorem writeFlags_spec (h : Laid d (some g)) (hlt : flags < 2 ^ 32)
    (hflags : ∀ j < g.count, flags.testBit (31 - j) = g.flags.testBit (31 - j)) :
    Laid { d with output := d.output.splice g.pos (toLE 4 flags) } none ∧
      ∀ fin, Extends { d with output := d.output.splice g.pos (toLE 4 flags) } none fin →
        Extends d (some g) fin := by
  have hfits := h.fits
  have hpos := h.group g rfl
  have hword : (toLE 4 flags).length = 4 := length_toLE 4 flags
  have hget : ∀ i, ¬OpenGroup.Covers (some g) i →
      (d.output.splice g.pos (toLE 4 flags))[i]? = d.output[i]? := by
    intro i hcov
    rw [OpenGroup.covers_some] at hcov
    rw [getElem?_splice (by omega), if_neg (by omega)]
  have hnibble : ∀ np, d.nibble = some np →
      (d.output.splice g.pos (toLE 4 flags)).getD np 0 = d.output.getD np 0 := by
    intro np hnp
    rw [getD_eq_getElem?_getD, getD_eq_getElem?_getD, hget np (h.nibble np hnp).2.2]
  refine ⟨⟨by rw [length_splice (by omega)]; exact hfits, fun np hnp => ?_, nofun⟩,
    fun fin hfin => ⟨hfin.length, fun i hi hcov hne => ?_, fun np hnp => ?_, ?_⟩⟩
  · obtain ⟨hlt', hsmall, -⟩ := h.nibble np hnp
    exact ⟨hlt', by rw [hnibble np hnp]; exact hsmall, OpenGroup.not_covers_none⟩
  · rw [hfin.agree i hi OpenGroup.not_covers_none hne, hget i hcov]
  · rw [hfin.nibble np hnp, hnibble np hnp]
  · rintro g' ⟨⟩ j hj
    have hslice : fin.slice g.pos 4 = toLE 4 flags := by
      apply ext_getElem?
      intro k
      rw [slice, getElem?_take, getElem?_drop]
      split
      · rename_i hk
        have hne : d.nibble ≠ some (g.pos + k) := by
          intro heq
          exact (h.nibble _ heq).2.2 (by simp; omega)
        rw [hfin.agree (g.pos + k) (by dsimp only; omega) OpenGroup.not_covers_none hne,
          getElem?_splice (by omega), if_pos (by omega), Nat.add_sub_cancel_left]
      · exact (getElem?_eq_none (by omega)).symm
    rw [le32, hslice, ofLE_toLE 4 flags hlt, hflags j hj]

/-- Marking the unused slots keeps the flags of the others. -/
theorem padFlags_spec : ∀ (n lo : Nat), count ≤ lo → lo + n ≤ 32 →
    ∀ flags, flags < 2 ^ 32 →
      (range' lo n).foldl (fun flags i => flags ||| 1 <<< (31 - i)) flags < 2 ^ 32 ∧
        ∀ j < count, ((range' lo n).foldl (fun flags i => flags ||| 1 <<< (31 - i)) flags).testBit
          (31 - j) = flags.testBit (31 - j) := by
  intro n
  induction n with
  | zero =>
    intro lo _ _ flags hlt
    exact ⟨hlt, fun j _ => rfl⟩
  | succ n ih =>
    intro lo hlo hn flags hlt
    rw [range'_succ, foldl_cons]
    obtain ⟨hlt', hbits⟩ := ih (lo + 1) (by omega) (by omega) _
      (or_one_shiftLeft_lt hlt (show 31 - lo < 32 by omega))
    refine ⟨hlt', fun j hj => ?_⟩
    rw [hbits j hj, testBit_or_one_shiftLeft]
    simp
    omega

/-- The encoder is inside a group: `full` groups and the items `cur` have been written. -/
structure InGroup (size pos : Nat) (enc : TokenEncoder) (full : List (List (Token UInt8)))
    (cur : List (Token UInt8)) : Prop where
  opened : Opened enc
  size : enc.output.length = size
  count : cur.length = enc.groupLen
  covered : 32 * full.length + cur.length ≤ pos
  bound : enc.outPos ≤ pos + 4 * (full.length + 1)
  reads : ∀ fin, Extends enc.draft (some enc.group) fin → ∃ n, ReadsFull fin full enc.flagPos n ∧
    ReadsGroup fin enc.flagPos n cur enc.outPos enc.nibblePos

/-- The encoder is between two groups, after `full`. -/
structure AtGroup (size pos : Nat) (enc : TokenEncoder) (full : List (List (Token UInt8))) :
    Prop where
  closed : Closed enc
  size : enc.output.length = size
  covered : 32 * full.length ≤ pos
  bound : enc.outPos ≤ pos + 4 * full.length
  reads : ∀ fin, Extends enc.draft none fin →
    ReadsFull fin full enc.outPos enc.nibblePos

/-- The encoder has written `ts`, which cover the data up to `pos`. -/
inductive Emitted (size pos : Nat) (enc : TokenEncoder) : List (Token UInt8) → Prop
  | atGroup {full : List (List (Token UInt8))} (h : AtGroup size pos enc full) :
      Emitted size pos enc full.flatten
  | inGroup {full : List (List (Token UInt8))} {cur : List (Token UInt8)}
      (h : InGroup size pos enc full cur) (hne : cur ≠ []) :
      Emitted size pos enc (full.flatten ++ cur)

section Push

variable {size pos n : Nat} {enc : TokenEncoder} {full : List (List (Token UInt8))}
  {cur : List (Token UInt8)} {t : Token UInt8}

/-- The flag word of a new group is reserved. -/
theorem AtGroup.openGroup (h : AtGroup size pos enc full) (hroom : enc.outPos + 4 ≤ size) :
    ∃ enc', enc.openGroup = .ok enc' ∧ InGroup size pos enc' full [] := by
  have hsize := h.size
  have hbound := h.bound
  have hnibble := h.closed.laid.nibble
  refine ⟨{ enc with flagPos := enc.outPos, outPos := enc.outPos + 4, flags := 0 }, ?_,
    ⟨h.closed.error, by rw [h.closed.count]; decide, Nat.two_pow_pos 32,
      fun j _ _ => Nat.zero_testBit _, hsize ▸ hroom, fun np hnp => ?_, ?_⟩, hsize,
    h.closed.count.symm, h.covered, by dsimp only; omega, fun fin hfin => ⟨enc.nibblePos, ?_, ?_⟩⟩
  · rw [TokenEncoder.openGroup, if_pos h.closed.count, if_neg (by omega)]
  · obtain ⟨hlt, hsmall, -⟩ := hnibble np hnp
    exact ⟨Nat.lt_add_right 4 hlt, hsmall, fun hcov =>
      Nat.not_le.mpr hlt (OpenGroup.covers_some.mp hcov).1⟩
  · rintro g ⟨⟩
    exact Nat.le_refl _
  · refine h.reads fin
      ⟨Nat.le_of_add_right_le hfin.length, fun i hi _ hne => ?_, hfin.nibble, nofun⟩
    exact hfin.agree i (Nat.lt_add_right 4 hi) (fun hcov =>
      Nat.not_le.mpr hi (OpenGroup.covers_some.mp hcov).1) hne
  · exact ⟨hfin.length, nofun, rfl, rfl⟩

theorem InGroup.item (h : InGroup size pos enc full cur) (ht : Encodable t) (hspan : 1 ≤ t.span)
    (hroom : enc.outPos + t.span ≤ size) : ∃ enc', enc.writeItem t = .ok enc' ∧
      Emitted size (pos + t.span) enc'.closeItem (full.flatten ++ (cur ++ [t])) := by
  obtain ⟨d, hrun, hle, hlen, hsteps⟩ := writeItem_spec h.opened ht (by rw [h.size]; exact hroom)
  obtain ⟨hlt, hbit, hzero, hkeep⟩ := flagsWith_spec t h.opened.count h.opened.flags_lt
    h.opened.flags_zero
  have hcount := h.count
  have hcovered := h.covered
  have hbound := h.bound
  have hlimit := h.opened.count
  -- The group with the flag of the new item, against which the whole step is read.
  obtain ⟨hfits, hnibble, hgroup⟩ := h.opened.laid
  obtain ⟨-, hlaid, hread⟩ := hsteps
    (some ⟨enc.flagPos, flagsWith enc.flags enc.groupLen t, enc.groupLen + 1⟩)
    ⟨hfits, by simpa using hnibble, by rintro g ⟨⟩; exact hgroup enc.group rfl⟩
  have hreads : ∀ fin, Extends d
      (some ⟨enc.flagPos, flagsWith enc.flags enc.groupLen t, enc.groupLen + 1⟩) fin →
      ∃ n, ReadsFull fin full enc.flagPos n ∧
        ReadsGroup fin enc.flagPos n (cur ++ [t]) d.pos d.nibble := by
    intro fin hfin
    obtain ⟨hbefore, htoken⟩ := hread fin hfin
    have hold : Extends enc.draft (some enc.group) fin := by
      refine ⟨hbefore.length, fun i hi hcov => hbefore.agree i hi (by simpa using hcov),
        hbefore.nibble, ?_⟩
      rintro g ⟨⟩ j hj
      rw [hbefore.flags _ rfl j (Nat.lt_succ_of_lt hj)]
      exact hkeep j hj
    obtain ⟨n, hfull, hgroup⟩ := h.reads fin hold
    refine ⟨n, hfull, hgroup.snoc ?_ htoken⟩
    rw [hcount, hbefore.flags _ rfl enc.groupLen (Nat.lt_succ_self _), hbit]
  refine ⟨_, hrun, ?_⟩
  unfold closeItem
  dsimp only
  split
  · rename_i hfullGroup
    obtain ⟨hclosed, hback⟩ := writeFlags_spec hlaid hlt fun j _ => rfl
    have hempty : range' (enc.groupLen + 1) (32 - (enc.groupLen + 1)) = [] := by
      rw [hfullGroup]
      rfl
    rw [← flatten_concat]
    refine .atGroup ⟨⟨h.opened.error, rfl, ?_⟩, ?_, ?_, ?_, ?_⟩
    · simp only [finishGroup, hempty]
      exact hclosed
    · simp only [finishGroup, hempty]
      have hpos := hlaid.group _ rfl
      have hfits := hlaid.fits
      rw [length_splice (by rw [length_toLE]; dsimp only at hpos; omega), hlen, h.size]
    · rw [length_append, length_singleton]
      omega
    · rw [length_append, length_singleton]
      simp only [finishGroup]
      omega
    intro fin hfin
    simp only [finishGroup, hempty] at hfin ⊢
    obtain ⟨n, hfull, hgroup⟩ := hreads fin (hback fin hfin)
    exact .snoc hfull hgroup (by rw [length_append, length_singleton]; omega)
  · rename_i hopen
    refine .inGroup ⟨⟨h.opened.error, ?_, hlt, hzero, hlaid⟩, hlen.trans h.size, ?_, ?_, ?_,
      hreads⟩ (by simp)
    · dsimp only
      omega
    · rw [length_append, length_singleton, hcount]
    · rw [length_append, length_singleton]
      omega
    · dsimp only
      omega

theorem push_of_ok {enc₁ enc₂ : TokenEncoder} (herror : enc.error = none)
    (hopen : enc.openGroup = .ok enc₁) (hitem : enc₁.writeItem t = .ok enc₂) :
    enc.push t = enc₂.closeItem := by
  simp [push, pushInner, herror, hopen, hitem]

/-- One token more, with the room that `compress_bound` leaves for data of `n` bytes. -/
theorem Emitted.push (h : Emitted size pos enc ts) (ht : Encodable t) (hspan : 1 ≤ t.span)
    (hn : pos + t.span ≤ n) (hsize : n + (n / 32 + 1) * 4 ≤ size) :
    Emitted size (pos + t.span) (enc.push t) (ts ++ [t]) := by
  cases h with
  | atGroup h =>
    have hbound := h.bound
    have hcovered := h.covered
    obtain ⟨enc₁, hopen, hin⟩ := h.openGroup (by omega)
    have hbound₁ := hin.bound
    obtain ⟨enc₂, hitem, hemitted⟩ := hin.item ht hspan (by omega)
    rwa [push_of_ok h.closed.error hopen hitem]
  | inGroup h hne =>
    have hbound := h.bound
    have hcovered := h.covered
    obtain ⟨enc₂, hitem, hemitted⟩ := h.item ht hspan (by omega)
    have hopen : enc.openGroup = .ok enc := by
      have hpos := length_pos_of_ne_nil hne
      have hcount := h.count
      rw [openGroup, if_neg (by omega)]
    rwa [push_of_ok h.opened.error hopen hitem, append_assoc]

/-- All tokens are emitted, group by group. -/
theorem Emitted.foldl (hD : ∀ pos t, D pos t → Encodable t ∧ 1 ≤ t.span)
    (hsize : n + (n / 32 + 1) * 4 ≤ size) (us : List (Token UInt8)) (pos : Nat) (enc : TokenEncoder)
    (ts : List (Token UInt8)) (hparse : Parses D pos us n) (h : Emitted size pos enc ts) :
    Emitted size n (us.foldl TokenEncoder.push enc) (ts ++ us) := by
  induction us generalizing pos enc ts with
  | nil =>
    obtain rfl : n = pos := hparse
    rwa [append_nil]
  | cons u us ih =>
    obtain ⟨henc, hspan⟩ := hD _ _ hparse.1
    have hnext := h.push henc hspan hparse.2.le hsize
    have hdone := ih _ _ _ hparse.2 hnext
    rwa [append_assoc] at hdone

end Push

/-- What was written last is itself an output that is allowed. -/
theorem extends_take (h : Laid d none) : Extends d none (d.output.take d.pos) := by
  have hfits := h.fits
  refine ⟨by rw [length_take]; omega, fun i hi _ _ => getElem?_take_of_lt hi, fun np hnp => ?_, ?_⟩
  · obtain ⟨hlt, hsmall, -⟩ := h.nibble np hnp
    rw [getD_eq_getElem?_getD, getElem?_take_of_lt hlt, ← getD_eq_getElem?_getD,
      Nat.mod_eq_of_lt hsmall]
  · nofun

/-- The groups of a parse of `data` from `pos` on, read from `fin` at `p`. -/
inductive Groups (D : Nat → Token UInt8 → Prop) (total : Nat) (fin : Bytes) :
    Nat → Option Nat → Nat → Prop
  | done {p : Nat} {n : Option Nat} : Groups D total fin p n total
  | group {p p' pos next : Nat} {n n' : Option Nat} {ts : List (Token UInt8)}
      (hgroup : ReadsGroup fin p n ts p' n') (hparse : Parses D pos ts next)
      (hlen : ts.length = 32 ∨ ts ≠ [] ∧ ts.length < 32 ∧ next = total)
      (hrest : Groups D total fin p' n' next) : Groups D total fin p n pos

/-- Full groups are read one after another. -/
theorem ReadsFull.groups {full : List (List (Token UInt8))} (h : ReadsFull fin full p n) {pos : Nat}
    (hparse : Parses D 0 full.flatten pos) (hgroups : Groups D total fin p n pos) :
    Groups D total fin 0 none 0 := by
  induction h generalizing pos with
  | nil =>
    obtain rfl : pos = 0 := hparse
    exact hgroups
  | snoc hfull hgroup hlen ih =>
    rw [flatten_concat] at hparse
    obtain ⟨mid, hbefore, hts⟩ := parses_append.mp hparse
    exact ih hbefore (.group hgroup hts (.inl hlen) hgroups)

/-- The finished output holds the groups of the parse that was encoded. -/
theorem Emitted.finish {size : Nat} (h : Emitted size total enc ts) (hparse : Parses D 0 ts total) :
    ∃ out n, enc.finish = .ok (out, n) ∧ Groups D total (out.take n) 0 none 0 := by
  cases h with
  | atGroup h =>
    refine ⟨enc.output, enc.outPos, ?_, ?_⟩
    · rw [finish, h.closed.error]
      simp [h.closed.count]
    · exact (h.reads _ (extends_take h.closed.laid)).groups hparse .done
  | inGroup h hne =>
    have hpos := length_pos_of_ne_nil hne
    have hcount := h.count
    have hlimit := h.opened.count
    obtain ⟨hlt, hflags⟩ := padFlags_spec (32 - enc.groupLen) enc.groupLen (Nat.le_refl _)
      (by omega) enc.flags h.opened.flags_lt
    obtain ⟨hlaid, hback⟩ := writeFlags_spec h.opened.laid hlt hflags
    refine ⟨enc.finishGroup.output, enc.outPos, ?_, ?_⟩
    · rw [finish, h.opened.error]
      rw [if_pos (by omega)]
      rfl
    · obtain ⟨n, hfull, hgroup⟩ := h.reads _ (hback _ (extends_take hlaid))
      obtain ⟨mid, hbefore, hcur⟩ := parses_append.mp hparse
      exact hfull.groups hbefore (.group hgroup hcur (.inr ⟨hne, by omega, rfl⟩) .done)

end Fsmnt.NtCompression.Xpress
