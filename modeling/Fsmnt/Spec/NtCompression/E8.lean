import Fsmnt.Native.NtCompression.E8

/-!
# When E8 translation is undone

Neither pass moves or rewrites a `0xE8` byte, so both visit the same calls and the composition is
decided call by call: `undo_e8_preprocessing` restores an operand exactly if it is one of those in
`E8Restored`. Backward calls are not among them.
-/

namespace Fsmnt.NtCompression

open Bytes List Option

variable {bs : Bytes} {n fileSize pos : Int}

/-! ### Operands -/

theorem length_i32ToLE (n : Int) : (i32ToLE n).length = 4 := length_toLE _ _

/-- The bytes of a 32 bit integer determine it. -/
theorem i32OfLE_i32ToLE (h : InI32 n) : i32OfLE (i32ToLE n) = n := by
  obtain ⟨hlo, hhi⟩ := h
  have hlt : (n % 2 ^ 32).toNat < 256 ^ 4 := by omega
  unfold i32OfLE i32ToLE
  rw [ofLE_toLE _ _ hlt]
  dsimp only
  split <;> omega

theorem i32ToLE_i32OfLE (h : bs.length = 4) : i32ToLE (i32OfLE bs) = bs := by
  have hlt := ofLE_lt bs
  rw [h] at hlt
  have hround : ((i32OfLE bs) % 2 ^ 32).toNat = ofLE bs := by
    unfold i32OfLE
    dsimp only
    split <;> omega
  unfold i32ToLE
  rw [hround, ← h, toLE_ofLE]

theorem i32OfLE_inI32 (h : bs.length = 4) : InI32 (i32OfLE bs) := by
  have hlt := ofLE_lt bs
  rw [h] at hlt
  unfold i32OfLE InI32
  dsimp only
  split <;> omega

variable (translate : E8Translation) {chunkOffset : Int}

/-- The four bytes that a pass leaves in place of an operand. -/
def e8Operand (pos : Int) (bs : Bytes) : Bytes :=
  match translate (i32OfLE bs) pos with
  | some value => i32ToLE value
  | none => bs

theorem length_e8Operand (pos : Int) (h : bs.length = 4) :
    (e8Operand translate pos bs).length = 4 := by
  unfold e8Operand
  split
  · exact length_i32ToLE _
  · exact h

/-- The operands that survive both passes: those that neither pass touches, those of forward
    calls inside of the file, and two kinds that occur at or past the end of the file only. -/
def E8Restored (fileSize pos n : Int) : Prop :=
  n < -pos ∨ fileSize ≤ n ∨ (0 ≤ n ∧ n < fileSize - pos) ∨ (pos = fileSize ∧ 0 ≤ n) ∨
    (fileSize < pos ∧ fileSize - pos ≤ n ∧ -fileSize ≤ n ∧ n < 0)

/-- What the two passes make of an operand as a number. -/
def roundTripOperand (fileSize pos n : Int) : Int :=
  let absolute := (applyE8Operand fileSize n pos).getD n
  (undoE8Operand fileSize absolute pos).getD absolute

theorem applyE8Operand_getD (fileSize pos n : Int) : (applyE8Operand fileSize n pos).getD n =
      if -pos ≤ n ∧ n < fileSize - pos then (if 0 ≤ n then n + pos else n + fileSize) else n := by
  unfold applyE8Operand
  split <;> rfl

theorem undoE8Operand_getD (fileSize pos n : Int) : (undoE8Operand fileSize n pos).getD n =
      if 0 ≤ n ∧ n < fileSize then (if n < pos then n - pos + fileSize else n - pos)
      else if -pos ≤ n ∧ n < 0 then (if 0 ≤ n + fileSize then n else n + fileSize) else n := by
  unfold undoE8Operand
  split
  · simp only [getD_some]
    split <;> split <;> omega
  split
  · simp only [getD_some]
    split <;> split <;> omega
  · rfl

/-- When the decoder restores an operand. -/
theorem roundTripOperand_eq_iff (hsize : 0 < fileSize) (hpos : 0 ≤ pos) :
    roundTripOperand fileSize pos n = n ↔ E8Restored fileSize pos n := by
  unfold roundTripOperand E8Restored
  rw [undoE8Operand_getD, applyE8Operand_getD]
  split
  · split
    · rw [if_pos (by omega), if_neg (by omega)]
      omega
    -- a backward call comes back as a number of another size
    split
    · split <;> omega
    · split
      · split <;> omega
      · omega
  · split
    · split <;> omega
    · split
      · split <;> omega
      · omega

theorem applyE8Operand_inI32 (hsize : 0 < fileSize) (hmax : InI32 fileSize) (pos : Int)
    (hn : InI32 n) : InI32 ((applyE8Operand fileSize n pos).getD n) := by
  unfold InI32 at *
  rw [applyE8Operand_getD]
  split
  · split <;> omega
  · exact hn

theorem undoE8Operand_inI32 (hsize : 0 < fileSize) (hmax : InI32 fileSize) (hpos : 0 ≤ pos)
    (hposMax : InI32 pos) (hn : InI32 n) : InI32 ((undoE8Operand fileSize n pos).getD n) := by
  unfold InI32 at *
  rw [undoE8Operand_getD]
  split
  · split <;> omega
  · split
    · split <;> omega
    · exact hn

/-- A pass writes the bytes of the number that its operand becomes. -/
theorem e8Operand_eq (pos : Int) (h : bs.length = 4) :
    e8Operand translate pos bs = i32ToLE ((translate (i32OfLE bs) pos).getD (i32OfLE bs)) := by
  unfold e8Operand
  split
  · rename_i value hvalue
    rw [hvalue, getD_some]
  · rename_i hnone
    rw [hnone, getD_none, i32ToLE_i32OfLE h]

/-- One operand comes back exactly if it is one of those in `E8Restored`. -/
theorem undo_apply_operand_iff (hsize : 0 < fileSize) (hmax : InI32 fileSize) (hpos : 0 ≤ pos)
    (hposMax : InI32 pos) (h : bs.length = 4) :
    e8Operand (undoE8Operand fileSize) pos (e8Operand (applyE8Operand fileSize) pos bs) = bs ↔
      E8Restored fileSize pos (i32OfLE bs) := by
  have hn := i32OfLE_inI32 h
  have habs := applyE8Operand_inI32 hsize hmax pos hn
  have hback := undoE8Operand_inI32 hsize hmax hpos hposMax habs
  rw [e8Operand_eq _ _ (length_e8Operand _ _ h), e8Operand_eq _ _ h, i32OfLE_i32ToLE habs,
    ← roundTripOperand_eq_iff hsize hpos]
  constructor
  · intro heq
    have hval := congrArg i32OfLE heq
    rwa [i32OfLE_i32ToLE hback] at hval
  · intro heq
    rw [show (undoE8Operand fileSize _ pos).getD _ = i32OfLE bs from heq, i32ToLE_i32OfLE h]

/-! ### The scan -/

/-- A pass over the rest of a buffer, which starts at `pos`. The last ten bytes are left alone. -/
def e8Scan (translate : E8Translation) (pos : Int) : Bytes → Bytes
  | [] => []
  | b :: rest =>
    if rest.length < 10 then b :: rest
    else if b ≠ 0xE8 then b :: e8Scan translate (pos + 1) rest
    else b :: e8Operand translate pos (rest.take 4) ++ e8Scan translate (pos + 5) (rest.drop 4)
termination_by l => l.length
decreasing_by all_goals simp only [length_drop, length_cons]; omega

/-- Position and operand of every call that a pass visits. -/
def e8Calls (pos : Int) : Bytes → List (Int × Int)
  | [] => []
  | b :: rest =>
    if rest.length < 10 then []
    else if b ≠ 0xE8 then e8Calls (pos + 1) rest
    else (pos, i32OfLE (rest.take 4)) :: e8Calls (pos + 5) (rest.drop 4)
termination_by l => l.length
decreasing_by all_goals simp only [length_drop, length_cons]; omega

theorem length_e8Scan (pos : Int) (l : Bytes) : (e8Scan translate pos l).length = l.length := by
  fun_induction e8Scan translate pos l with
  | case1 => rfl
  | case2 => rfl
  | case3 pos b rest hlong hb ih => simp [ih]
  | case4 pos b rest hlong hb ih =>
    have hoperand : (rest.take 4).length = 4 := by rw [length_take]; omega
    rw [cons_append, length_cons, length_append, length_e8Operand _ _ hoperand, ih,
      length_drop, length_cons]
    omega

/-- Both passes visit the same calls, so that they compose call by call. -/
theorem e8Scan_e8Scan_iff {t u : E8Translation} (P : Int → Int → Prop) {l : Bytes} (hlo : 0 ≤ pos)
    (hhi : pos + l.length < 2 ^ 31)
    (hP : ∀ p bs, 0 ≤ p → p < 2 ^ 31 → bs.length = 4 → (e8Operand u p (e8Operand t p bs) = bs ↔ P p
      (i32OfLE bs))) : e8Scan u pos (e8Scan t pos l) = l ↔ ∀ c ∈ e8Calls pos l, P c.1 c.2 := by
  fun_induction e8Calls pos l with
  | case1 => simp [e8Scan]
  | case2 pos b rest hshort =>
    rw [e8Scan, if_pos hshort, e8Scan, if_pos hshort]
    simp
  | case3 pos b rest hlong hb ih =>
    rw [length_cons] at hhi
    have hscan : e8Scan u pos (e8Scan t pos (b :: rest)) =
        b :: e8Scan u (pos + 1) (e8Scan t (pos + 1) rest) := by
      rw [e8Scan.eq_2 t, if_neg hlong, if_pos hb, e8Scan, length_e8Scan, if_neg hlong, if_pos hb]
    rw [hscan, cons.injEq]
    rw [ih (by omega) (by omega)]
    simp
  | case4 pos b rest hlong hb ih =>
    rw [length_cons] at hhi
    have hoperand : (rest.take 4).length = 4 := by rw [length_take]; omega
    have hout := length_e8Operand t pos hoperand
    have hscan : e8Scan u pos (e8Scan t pos (b :: rest)) =
        b :: (e8Operand u pos (e8Operand t pos (rest.take 4)) ++
          e8Scan u (pos + 5) (e8Scan t (pos + 5) (rest.drop 4))) := by
      rw [e8Scan.eq_2 t, if_neg hlong, if_neg hb, cons_append, e8Scan, length_append, hout,
        length_e8Scan, length_drop, if_neg (by omega), if_neg hb, take_left' hout,
        drop_left' hout, cons_append]
    rw [hscan, cons.injEq]
    have hsplit : ∀ a b : Bytes, a.length = 4 →
        (a ++ b = rest ↔ a = rest.take 4 ∧ b = rest.drop 4) := by
      intro a b ha
      constructor
      · rintro rfl
        exact ⟨(take_left' ha).symm, (drop_left' ha).symm⟩
      · rintro ⟨rfl, rfl⟩
        exact take_append_drop 4 rest
    rw [hsplit _ _ (length_e8Operand u pos hout), hP pos _ hlo (by omega) hoperand,
      ih (by omega) (by rw [length_drop]; omega)]
    simp

/-- Writing an operand, or leaving it, is one splice of the bytes of `e8Operand`. -/
theorem rewriteOperand_eq (currentPos : Int) (off : Nat) (data : Bytes) :
    rewriteOperand translate currentPos off data =
      data.take off ++ (e8Operand translate currentPos ((data.drop off).take 4) ++
        (data.drop off).drop 4) := by
  unfold rewriteOperand e8Operand
  rw [show data.slice off 4 = (data.drop off).take 4 from rfl]
  cases translate (i32OfLE ((data.drop off).take 4)) currentPos with
  | none =>
    rw [take_append_drop, take_append_drop]
  | some value => simp [splice, length_i32ToLE]

/-- The loop of a pass is the scan of what lies ahead of it. -/
theorem e8Loop_eq_scan {limit : Nat} (fuel pos : Nat) (data : Bytes)
    (hlen : data.length = limit + 10) (hlo : 0 ≤ chunkOffset)
    (hhi : chunkOffset + data.length < 2 ^ 31) (hfuel : data.length ≤ fuel + pos) :
    e8Loop translate chunkOffset limit fuel pos data =
      data.take pos ++ e8Scan translate (chunkOffset + pos) (data.drop pos) := by
  induction fuel generalizing pos data with
  | zero =>
    rw [e8Loop, take_of_length_le (by omega), drop_of_length_le (by omega), e8Scan, append_nil]
  | succ fuel ih =>
    rw [e8Loop]
    by_cases hpos : pos < limit
    · have hlt : pos < data.length := by omega
      have hlong : ¬(data.drop (pos + 1)).length < 10 := by rw [length_drop]; omega
      have hbyte : data.getD pos 0 = data[pos] := by simp [hlt]
      rw [if_pos hpos, drop_eq_getElem_cons hlt, e8Scan, if_neg hlong, hbyte]
      by_cases hcall : data[pos] ≠ 0xE8
      · rw [if_pos hcall, if_pos hcall, ih _ _ hlen hhi (by omega),
          take_succ_eq_append_getElem hlt, append_assoc, singleton_append,
          Int.natCast_add, ← Int.add_assoc]
        rfl
      have hin : InI32 (chunkOffset + pos) := by unfold InI32; omega
      have hoperand : ((data.drop (pos + 1)).take 4).length = 4 := by
        rw [length_take, length_drop]; omega
      rw [if_neg hcall, if_neg hcall]
      simp only [if_pos hin]
      have hout := length_e8Operand translate (chunkOffset + pos) hoperand
      have hhead : (data.take (pos + 1) ++
          e8Operand translate (chunkOffset + pos) ((data.drop (pos + 1)).take 4)).length =
            pos + 5 := by
        rw [length_append, length_take, hout]; omega
      have hkeep : (data.take (pos + 1) ++
          (e8Operand translate (chunkOffset + pos) ((data.drop (pos + 1)).take 4) ++
            (data.drop (pos + 1)).drop 4)).length = data.length := by
        rw [← append_assoc, length_append, hhead, length_drop, length_drop]
        omega
      rw [rewriteOperand_eq, ih _ _ (hkeep.trans hlen) (by rw [hkeep]; exact hhi)
        (by rw [hkeep]; omega), ← append_assoc, take_left' hhead,
        drop_left' hhead, take_succ_eq_append_getElem hlt, Int.natCast_add,
        ← Int.add_assoc, append_assoc, append_assoc, singleton_append,
        cons_append]
      rfl
    · -- no call starts in the last ten bytes
      rw [if_neg hpos]
      cases hrest : data.drop pos with
      | nil =>
        rw [e8Scan, ← hrest, take_append_drop]
      | cons b rest =>
        have hshort : rest.length < 10 := by
          have := congrArg length hrest
          rw [length_drop, length_cons] at this
          omega
        rw [e8Scan, if_pos hshort, ← hrest, take_append_drop]

/-- The calls that both passes of a buffer visit. -/
def e8CallsOf (data : Bytes) (chunkOffset : Int) : List (Int × Int) :=
  if chunkOffset ≥ 0x40000000 then [] else e8Calls chunkOffset data

/-- Outside the guard on the offset a pass is the scan of the whole buffer. -/
theorem e8Pass_eq_scan {data : Bytes} (hlo : 0 ≤ chunkOffset) (hguard : ¬chunkOffset ≥ 0x40000000)
    (hhi : chunkOffset + data.length < 2 ^ 31) :
    e8Pass translate data chunkOffset = e8Scan translate chunkOffset data := by
  unfold e8Pass
  by_cases hshort : data.length ≤ 10
  · rw [if_pos (.inl hshort)]
    cases data with
    | nil => rw [e8Scan]
    | cons b rest =>
      rw [length_cons] at hshort
      rw [e8Scan, if_pos (by omega)]
  · rw [if_neg (not_or.mpr ⟨hshort, hguard⟩),
      e8Loop_eq_scan translate _ _ _ (by omega) hlo hhi (by omega)]
    simp

/-- Undoing the translation restores the buffer exactly if every call in it has an operand that
comes back. The operand of a backward call inside the file does not. -/
theorem undo_apply_e8_iff {data : Bytes} {fileSize chunkOffset : Int} (hsize : 0 < fileSize)
    (hmax : InI32 fileSize) (hlo : 0 ≤ chunkOffset) (hhi : chunkOffset + data.length < 2 ^ 31) :
    undoE8Preprocessing (applyE8Preprocessing data fileSize chunkOffset) fileSize chunkOffset =
        data ↔
      ∀ call ∈ e8CallsOf data chunkOffset, E8Restored fileSize call.1 call.2 := by
  unfold undoE8Preprocessing applyE8Preprocessing e8CallsOf
  by_cases hguard : chunkOffset ≥ 0x40000000
  · simp [e8Pass, hguard]
  rw [if_neg hguard, e8Pass_eq_scan _ hlo hguard hhi,
    e8Pass_eq_scan _ hlo hguard (by rw [length_e8Scan]; exact hhi)]
  apply e8Scan_e8Scan_iff (E8Restored fileSize) hlo hhi
  intro p bs hp hpMax hbs
  exact undo_apply_operand_iff hsize hmax hp ⟨by omega, hpMax⟩ hbs

/-- A buffer with one forward call at position 1. -/
def forwardCall : Bytes := [0x90, 0xE8, 0x10, 0, 0, 0] ++ replicate 10 0x90

/-- A buffer with one call to the byte before the operand of the call. -/
def backwardCall : Bytes := [0x90, 0xE8, 0xFF, 0xFF, 0xFF, 0xFF] ++ replicate 10 0x90

theorem undo_apply_e8_forwardCall :
    (0 : Int) < 12000000 ∧ InI32 12000000 ∧ (0 : Int) + forwardCall.length < 2 ^ 31 ∧
      undoE8Preprocessing (applyE8Preprocessing forwardCall 12000000 0) 12000000 0 =
        forwardCall := by
  refine ⟨by decide, by decide, by decide, ?_⟩
  refine (undo_apply_e8_iff (by decide) (by decide) (by decide) (by decide)).mpr ?_
  have hcalls : e8CallsOf forwardCall 0 = [(1, 16)] := by decide +kernel
  rw [hcalls]
  simp [E8Restored]

/-- The operand `-1` at position 1 comes back as `11999998`. -/
theorem backwardCall_not_restored :
    undoE8Preprocessing (applyE8Preprocessing backwardCall 12000000 0) 12000000 0 =
        [0x90, 0xE8, 0xFE, 0x1A, 0xB7, 0x00] ++ replicate 10 0x90 ∧
      undoE8Preprocessing (applyE8Preprocessing backwardCall 12000000 0) 12000000 0 ≠
        backwardCall := by
  decide +kernel

end Fsmnt.NtCompression
