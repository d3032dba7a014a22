import Fsmnt.Spec.NtCompression.XpressEncode

/-!
# XPRESS round trip

The decoder follows the groups that the encoder has written. Its two paths read a literal and copy
a match in different ways, to the same effect.
-/

namespace Fsmnt.NtCompression.Xpress

open Except List Lz77 MatchFinder TokenEncoder

variable {buf x data output : Bytes} {pos : Nat} {m : Match} (level : SimdLevel) (input : Bytes)

/-! ### Match copies of the decoder -/

theorem fillLoop_spec (h : Repeats data pos m) (hone : m.offset = 1) (fuel filled : Nat)
    (buf : Bytes) (hpos : 1 ≤ filled) (hle : filled ≤ m.length) (hfuel : m.length ≤ fuel + filled)
    (hbuf : pos + m.length ≤ buf.length)
    (hagree : buf.take (pos + filled) = data.take (pos + filled)) :
    (fillLoop pos m.length fuel filled buf).take (pos + m.length) = data.take (pos + m.length) ∧
      (fillLoop pos m.length fuel filled buf).length = buf.length := by
  induction fuel generalizing filled buf with
  | zero =>
    obtain rfl : filled = m.length := by omega
    exact ⟨hagree, rfl⟩
  | succ fuel ih =>
    rw [fillLoop]
    split
    · rename_i hlt
      have hstep := take_copyWithin hagree
        (show pos + min filled (m.length - filled) ≤ pos + filled by omega)
        (show pos + filled + min filled (m.length - filled) ≤ buf.length by omega) (by
          intro k hk
          rw [h.eq_last hone k (by omega), Nat.add_assoc, h.eq_last hone (filled + k) (by omega)])
      have hlen := length_copyWithin
        (show pos + min filled (m.length - filled) ≤ buf.length by omega)
        (show pos + filled + min filled (m.length - filled) ≤ buf.length by omega)
      rw [Nat.add_assoc] at hstep
      obtain ⟨hdone, hkeep⟩ := ih _ _ (by omega) (by omega) (by omega) (by rw [hlen]; exact hbuf)
        hstep
      exact ⟨hdone, hkeep.trans hlen⟩
    · obtain rfl : filled = m.length := by omega
      exact ⟨hagree, rfl⟩

/-- A match of offset one, by doubling. -/
theorem take_fillLoop (h : Repeats data pos m) (hone : m.offset = 1) (hlen : 1 ≤ m.length)
    (hbuf : pos + m.length ≤ buf.length) (hagree : buf.take pos = data.take pos) :
    (fillLoop pos m.length m.length 1 (buf.set pos (buf.getD (pos - m.offset) 0))).take
        (pos + m.length) = data.take (pos + m.length) ∧
      (fillLoop pos m.length m.length 1 (buf.set pos (buf.getD (pos - m.offset) 0))).length =
        buf.length := by
  have hoff := h.offset_le
  have hlast : data[pos]? = some (buf.getD (pos - m.offset) 0) := by
    rw [hone, ← getElem?_last (by omega) (by omega) hagree]
    exact h.eq_last hone 0 hlen
  obtain ⟨hdone, hkeep⟩ := fillLoop_spec h hone m.length 1 _ (Nat.le_refl _) hlen (by omega)
    (by rw [length_set]; exact hbuf) (take_set hagree (by omega) hlast)
  exact ⟨hdone, hkeep.trans length_set⟩

/-- The checked copy. -/
theorem copyMatch_spec (h : Repeats data pos m) (hlen : 1 ≤ m.length)
    (hbuf : pos + m.length ≤ buf.length) (hagree : buf.take pos = data.take pos) :
    ∃ buf', copyMatch buf pos m.offset m.length = .ok buf' ∧
      buf'.take (pos + m.length) = data.take (pos + m.length) ∧ buf'.length = buf.length := by
  have hoff := h.offset_le
  unfold copyMatch
  rw [if_neg (by omega)]
  split
  · rename_i hle
    exact ⟨_, rfl, take_copyWithin hagree (by omega) hbuf h.eq, length_copyWithin (by omega) hbuf⟩
  split
  · rename_i hone
    obtain ⟨hdone, hkeep⟩ := take_fillLoop h hone hlen hbuf hagree
    exact ⟨_, rfl, hdone, hkeep⟩
  split
  · rename_i height
    have hfull : 8 * (m.length / 8) ≤ m.length := Nat.mul_div_le m.length 8
    obtain ⟨htake, hkeep⟩ := take_copyChunks h height (m.length / 8) 0 buf (by omega) hbuf hagree
    rw [Nat.zero_add] at htake
    obtain ⟨hdone, hkeep'⟩ := take_copyTail h (show ∀ t ∈ ([] : List Nat), t ≤ m.offset by simp) _ _
      hfull (by rw [hkeep]; exact hbuf) htake
    exact ⟨_, rfl, hdone, hkeep'.trans hkeep⟩
  · obtain ⟨hdone, hkeep⟩ := take_copyChunks h h.offset_pos m.length 0 buf (by omega) hbuf hagree
    rw [Nat.one_mul, Nat.zero_add] at hdone
    exact ⟨_, rfl, hdone, hkeep⟩

/-! ### The decoder -/

/-- The ways in which either path reads a literal and copies a match. -/
structure Path (input : Bytes) (literal : DecompressState → Except Error (UInt8 × DecompressState))
    (copy : Bytes → Nat → Nat → Nat → Except Error Bytes) : Prop where
  literal : ∀ st : DecompressState, st.inPos < input.length →
    literal st = .ok (input.getD st.inPos 0, { st with inPos := st.inPos + 1 })
  copy : ∀ {data buf : Bytes} {pos : Nat} {m : Match}, Repeats data pos m → 1 ≤ m.length →
    pos + m.length ≤ buf.length → buf.take pos = data.take pos →
    ∃ buf', copy buf pos m.offset m.length = .ok buf' ∧
      buf'.take (pos + m.length) = data.take (pos + m.length) ∧ buf'.length = buf.length

theorem fastPath :
    Path input (indexLiteral input) (copyMatchGuarded level) := by
  refine ⟨fun st hlt => if_neg (by omega), fun h _ hbuf hagree => ?_⟩
  obtain ⟨htake, hlen⟩ := take_copyMatchFast level h hbuf hagree
  exact ⟨_, if_neg (by omega), htake, hlen⟩

theorem slowPath : Path input (DecompressState.readByte input) copyMatch :=
  ⟨fun st hlt => if_neg (by omega), copyMatch_spec⟩

/-- A token that the decoder can follow. -/
def Follows (data : Bytes) (pos : Nat) (t : Token UInt8) : Prop := t.Describes data pos ∧ 1 ≤ t.span

section Decoder

variable {data fin : Bytes} {literal : DecompressState → Except Error (UInt8 × DecompressState)}
  {copy : Bytes → Nat → Nat → Nat → Except Error Bytes}

/-- The items of a group are decoded one after the other. A group that is not full is the last
    one: the decoder returns. -/
theorem groupItems_spec (hpath : Path fin literal copy) {flags : Nat} (ts : List (Token UInt8))
    (n bit pos next p p' : Nat) (nib nib' : Option Nat) (buf : Bytes)
    (hparse : Parses (Follows data) pos ts next) (hread : ReadsItems fin p nib ts p' nib')
    (hflags : ∀ j < ts.length, flags.testBit (31 - (bit + j)) = ts[j]?.any isCopy)
    (hn : ts.length = n ∨ ts.length < n ∧ next = data.length) (hlen : buf.length = data.length)
    (hagree : buf.take pos = data.take pos) :
    ∃ buf', groupItems literal copy fin flags (range' bit n) ⟨p, pos, nib⟩ buf =
        .ok (decide (ts.length < n), ⟨p', next, nib'⟩, buf') ∧ buf'.length = data.length ∧
      buf'.take next = data.take next := by
  induction ts generalizing n bit pos next p p' nib nib' buf with
  | nil =>
    obtain rfl : next = pos := hparse
    obtain ⟨rfl, rfl⟩ := hread
    refine ⟨buf, ?_, hlen, hagree⟩
    cases n with
    | zero => rfl
    | succ n =>
      -- flags are left over only at the end of the data
      obtain ⟨-, hend⟩ := hn.resolve_left (by simp)
      rw [range'_succ, groupItems, if_pos (by dsimp only; omega)]
      rfl
  | cons t ts ih =>
    obtain ⟨⟨ht, hspan⟩, hparse⟩ := hparse
    obtain ⟨q, o, htoken, hread⟩ := hread
    obtain ⟨n, rfl⟩ : ∃ k, n = k + 1 := ⟨n - 1, by rw [length_cons] at hn; omega⟩
    have hle := ht.span_le
    have hbit : flags.testBit (31 - bit) = isCopy t := by simpa using hflags 0 (by simp)
    have hnext : ∀ j < ts.length, flags.testBit (31 - (bit + 1 + j)) = ts[j]?.any isCopy := by
      intro j hj
      have h := hflags (j + 1) (by simpa using hj)
      rwa [← Nat.add_assoc, Nat.add_right_comm] at h
    have hn' : ts.length = n ∨ ts.length < n ∧ next = data.length := by
      rw [length_cons] at hn
      omega
    have hdec : decide ((t :: ts).length < n + 1) = decide (ts.length < n) := by simp
    rw [range'_succ, groupItems, if_neg (by dsimp only; omega), hdec]
    cases t with
    | literal a =>
      obtain ⟨hget, rfl, rfl⟩ := htoken
      obtain ⟨hin, -⟩ := List.getElem?_eq_some_iff.mp hget
      have hzero : (flags >>> (31 - bit)) % 2 = 0 := by simpa [Nat.testBit, isCopy] using hbit
      have hbyte : fin.getD p 0 = a := by
        rw [getD_eq_getElem?_getD, hget, Option.getD_some]
      obtain ⟨buf', hrun, hdone⟩ := ih n (bit + 1) (pos + 1) next (p + 1) p' _ nib'
        (buf.set pos a) hparse hread hnext hn' (by rw [length_set]; exact hlen)
        (take_set hagree (by omega) ht)
      refine ⟨buf', ?_, hdone⟩
      rw [if_pos hzero, hpath.literal _ hin]
      simp only [hbyte]
      exact hrun
    | copy m =>
      obtain ⟨hin, -, hmatch⟩ := htoken
      have hone : ¬(flags >>> (31 - bit)) % 2 = 0 := by simpa [Nat.testBit, isCopy] using hbit
      obtain ⟨buf₁, hcopy, htake, hkeep⟩ := hpath.copy ht hspan
        (show pos + m.length ≤ buf.length by rw [hlen]; exact hle) hagree
      obtain ⟨buf', hrun, hdone⟩ := ih n (bit + 1) (pos + m.length) next q p' o nib' buf₁ hparse
        hread hnext hn' (hkeep.trans hlen) htake
      refine ⟨buf', ?_, hdone⟩
      rw [if_neg hone, if_neg (by dsimp only; omega), hmatch pos ht.offset_le]
      simp only [bind, Except.bind, hcopy]
      exact hrun

/-- One group, from its flag word on. -/
theorem group_spec (hpath : Path fin literal copy) {ts : List (Token UInt8)} {p p' next : Nat}
    {nib nib' : Option Nat} (hgroup : ReadsGroup fin p nib ts p' nib')
    (hparse : Parses (Follows data) pos ts next)
    (hlen : ts.length = 32 ∨ ts ≠ [] ∧ ts.length < 32 ∧ next = data.length)
    (hbuf : buf.length = data.length) (hagree : buf.take pos = data.take pos) :
    ∃ buf', groupItems literal copy fin (fin.le32 p) (range FLAG_GROUP_SIZE)
        ⟨p + 4, pos, nib⟩ buf = .ok (decide (ts.length < 32), ⟨p', next, nib'⟩, buf') ∧
      buf'.length = data.length ∧ buf'.take next = data.take next := by
  refine groupItems_spec hpath ts 32 0 pos next (p + 4) p' nib nib' buf hparse hgroup.items ?_
    (hlen.imp id fun h => h.2) hbuf hagree
  intro j hj
  rw [Nat.zero_add]
  exact hgroup.flags j hj

/-- The decoder has written the data up to the position where groups are left to read. -/
structure Following (data fin : Bytes) (p pos : Nat) (nib : Option Nat) (buf : Bytes) : Prop where
  groups : Groups (Follows data) data.length fin p nib pos
  length : buf.length = data.length
  agree : buf.take pos = data.take pos

/-- At the end of the data the whole buffer is written. -/
theorem eq_of_agree (hlen : buf.length = data.length)
    (hagree : buf.take data.length = data.take data.length) : buf = data := by
  rwa [take_length, take_of_length_le (Nat.le_of_eq hlen)] at hagree

/-- The fast path stops at a group, or returns at the end of the data. -/
theorem fastLoop_spec (fuel p pos : Nat) (nib : Option Nat) (buf : Bytes)
    (h : Following data fin p pos nib buf) :
    ∃ returned p' pos' nib' buf', fastLoop level fin fuel ⟨p, pos, nib⟩ buf =
        .ok (returned, ⟨p', pos', nib'⟩, buf') ∧ Following data fin p' pos' nib' buf' ∧
      (returned = true → pos' = data.length) := by
  induction fuel generalizing p pos nib buf with
  | zero =>
    exact ⟨false, p, pos, nib, buf, rfl, h, by simp⟩
  | succ fuel ih =>
    rw [fastLoop]
    split
    · rename_i hguard
      obtain ⟨hgroups, hlen, hagree⟩ := h
      cases hgroups with
      | done =>
        have hout := hguard.1
        dsimp only at hout
        omega
      | group hgroup hparse hfull hrest =>
        rename_i p' next nib' ts
        obtain ⟨buf₁, hrun, hlen₁, hagree₁⟩ := group_spec (fastPath level fin) hgroup hparse hfull
          hlen hagree
        dsimp only
        rw [hrun]
        simp only [bind, Except.bind]
        by_cases hshort : ts.length < 32
        · rw [if_pos (decide_eq_true hshort)]
          obtain ⟨-, -, hend⟩ := hfull.resolve_left (by omega)
          exact ⟨true, p', next, nib', buf₁, rfl, ⟨hrest, hlen₁, hagree₁⟩, fun _ => hend⟩
        · rw [if_neg (by simpa using hshort)]
          exact ih _ _ _ _ ⟨hrest, hlen₁, hagree₁⟩
    · exact ⟨false, p, pos, nib, buf, rfl, h, by simp⟩

/-- The slow path decodes the rest. -/
theorem slowLoop_spec (fuel p pos : Nat) (nib : Option Nat) (buf : Bytes)
    (h : Following data fin p pos nib buf) (hfuel : fin.length < fuel + p) :
    ∃ st', slowLoop fin fuel ⟨p, pos, nib⟩ buf = .ok (st', data) ∧ st'.outPos = data.length := by
  induction fuel generalizing p pos nib buf with
  | zero =>
    obtain ⟨hgroups, hlen, hagree⟩ := h
    cases hgroups with
    | done =>
      obtain rfl := eq_of_agree hlen hagree
      exact ⟨_, rfl, rfl⟩
    | group hgroup hparse hfull hrest =>
      have hfits := hgroup.fits
      omega
  | succ fuel ih =>
    rw [slowLoop]
    obtain ⟨hgroups, hlen, hagree⟩ := h
    cases hgroups with
    | done =>
      obtain rfl := eq_of_agree hlen hagree
      exact ⟨⟨p, _, nib⟩, if_neg (Nat.lt_irrefl _), rfl⟩
    | group hgroup hparse hfull hrest =>
      rename_i p' next nib' ts
      have hfits := hgroup.fits
      have hin : pos < data.length := by
        cases ts with
        | nil => simp at hfull
        | cons t ts =>
          have hle := hparse.1.1.span_le
          have hspan := hparse.1.2
          omega
      obtain ⟨buf₁, hrun, hlen₁, hagree₁⟩ := group_spec (slowPath fin) hgroup hparse hfull hlen
        hagree
      have hmono := hgroup.items.le
      rw [if_pos (show pos < buf.length by omega), DecompressState.readFlagDword,
        if_neg (show ¬p + 4 > fin.length by omega)]
      simp only [bind, Except.bind]
      rw [hrun]
      dsimp only
      by_cases hshort : ts.length < 32
      · rw [if_pos (decide_eq_true hshort)]
        obtain ⟨-, -, rfl⟩ := hfull.resolve_left (by omega)
        refine ⟨⟨p', data.length, nib'⟩, ?_, rfl⟩
        rw [eq_of_agree hlen₁ hagree₁]
      · rw [if_neg (by simpa using hshort)]
        exact ih _ _ _ _ ⟨hrest, hlen₁, hagree₁⟩ (by omega)

/-- The decoder expands the groups of a parse. -/
theorem decompress_spec (h : Groups (Follows data) data.length fin 0 none 0)
    (hbuf : buf.length = data.length) : decompress level fin buf = .ok (data, data.length) := by
  obtain ⟨returned, p, pos, nib, buf₁, hfast, hfollow, hend⟩ := fastLoop_spec level fin.length
    0 0 none buf ⟨h, hbuf, rfl⟩
  unfold decompress
  dsimp only
  rw [hfast]
  simp only [bind, Except.bind]
  cases returned with
  | true =>
    obtain rfl := hend rfl
    rw [if_pos rfl, eq_of_agree hfollow.length hfollow.agree]
  | false =>
    obtain ⟨st', hslow, hpos⟩ := slowLoop_spec (fin.length + 1) p pos nib buf₁ hfollow (by omega)
    rw [if_neg (by decide), hslow]
    simp only [hpos]

end Decoder

/-! ### Round trip -/

theorem standard_configured : MatchFinder.Configured 8192 65535 (standard 8192 65535 32).reset :=
  ⟨rfl, rfl, rfl⟩

/-- The positions of the data fit the match finder that `compress` uses. -/
abbrev Indexed (x : Bytes) : Prop := (MatchFinder.standard 8192 65535 32).reset.Indexes x

theorem encodable_of_tokenOk (pos : Nat) (t : Token UInt8)
    (ht : MatchFinder.TokenOk 8192 65535 x pos t) : Encodable t ∧ 1 ≤ t.span := by
  cases t with
  | literal a => exact ⟨trivial, Nat.le_refl 1⟩
  | copy m =>
    obtain ⟨-, hrep, hoff, hmin, hmax⟩ := ht
    exact ⟨⟨hrep.offset_pos, hoff, hmin, Nat.le_trans hmax (by decide)⟩,
      Nat.le_trans (by decide) hmin⟩

theorem emitted_new (output : Bytes) : Emitted output.length 0 (new output) [] := by
  have hat : AtGroup output.length 0 (new output) [] :=
    ⟨⟨rfl, rfl, Nat.zero_le _, by rintro np ⟨⟩, by rintro g ⟨⟩⟩, rfl, Nat.le_refl _,
      Nat.le_refl _, fun fin _ => .nil⟩
  exact .atGroup hat

/-- With an output buffer of at least `compress_bound`, compression succeeds on data that the match
    finder can index, and the decoder gives the data back. -/
theorem decompress_compress (hx : Indexed x) (h : compressBound x.length ≤ output.length) :
    ∃ out n, compress x output = .ok (out, n) ∧ ∀ buf : Bytes, buf.length = x.length →
      decompress level (out.take n) buf = .ok (x, x.length) := by
  unfold compress compressWith
  by_cases hempty : x = []
  · subst hempty
    refine ⟨output, 0, rfl, fun buf hbuf => ?_⟩
    obtain rfl : buf = [] := length_eq_zero_iff.mp hbuf
    rfl
  rw [if_neg (by simpa using hempty)]
  obtain ⟨r, hrun⟩ := (indexes_iff (by decide) standard_configured push (new output)).mp hx
  obtain ⟨-, ts, hts, hparse⟩ := tokenizeStreaming_spec (by decide) standard_configured hrun
  have hsize : x.length + (x.length / 32 + 1) * 4 ≤ output.length :=
    Nat.le_trans (Nat.le_add_right _ 16) h
  have hdone := Emitted.foldl encodable_of_tokenOk hsize ts 0 _ [] hparse (emitted_new output)
  rw [← hts] at hdone
  obtain ⟨out, n, hfinish, hgroups⟩ := hdone.finish (D := Follows x) (hparse.mono fun pos t ht =>
      ⟨MatchFinder.TokenOk.describes pos t ht, (encodable_of_tokenOk pos t ht).2⟩)
  refine ⟨out, n, ?_, fun buf hbuf => decompress_spec level hgroups hbuf⟩
  rw [hrun]
  exact hfinish

/-- Compression succeeds only on data that the match finder can index. -/
theorem indexed_of_compress {r : Bytes × Nat} (h : compress x output = .ok r) : Indexed x := by
  by_cases hempty : x = []
  · exact indexes_of_length _ (by rw [hempty]; exact Nat.zero_le _)
  unfold compress compressWith at h
  rw [if_neg (by simpa using hempty)] at h
  obtain ⟨q, hrun, -⟩ := bind_eq_ok_iff.mp h
  exact (indexes_iff (by decide) standard_configured push (new output)).mpr ⟨q, hrun⟩

/-- A match is at most 65,535 bytes, so longer data have a token that starts past the last `u32`. -/
theorem compress_panics (h : 2 ^ 32 + 65536 ≤ x.length) : compress x output = .error .panicked := by
  have hempty : x ≠ [] := by
    rintro rfl
    exact absurd h (by decide)
  unfold compress compressWith
  rw [if_neg (by simpa using hempty),
    tokenizeStreaming_panics (by decide) (by decide) standard_configured (by omega)]
  rfl

end Fsmnt.NtCompression.Xpress
