import Mathlib.Data.List.Basic

/-!
# LZ77 parses

A parse of `data` is a list of tokens, each a literal or a copy of data that came before. A
decoder keeps its output in a buffer whose first `n` entries agree with the data, and copies a
match within that buffer.
-/

namespace Lz77

open List

variable {α : Type*}

variable {n pos src dst s : Nat} {m : Match} {data buf : List α}

/-- A backward reference. -/
structure Match where
  offset : Nat
  length : Nat
  deriving Repr, DecidableEq

/-- A token of a parse. -/
inductive Token (α : Type*) where
  | literal (a : α)
  | copy (m : Match)
  deriving Repr, DecidableEq

/-- What a token covers. -/
def Token.span : Token α → Nat
  | .literal _ => 1
  | .copy m => m.length

/-- The `length` entries of `data` at `pos` repeat those `offset` places before. -/
structure Repeats (data : List α) (pos : Nat) (m : Match) : Prop where
  offset_pos : 1 ≤ m.offset
  offset_le : m.offset ≤ pos
  fits : pos + m.length ≤ data.length
  eq : ∀ k < m.length, data[pos - m.offset + k]? = data[pos + k]?

/-- A match inside a part of the data is a match of the data. -/
theorem Repeats.shift {data part : List α} (h : Repeats part pos m)
    (hpart : (data.drop s).take part.length = part) : Repeats data (s + pos) m := by
  have hat : ∀ i < part.length, data[s + i]? = part[i]? := by
    intro i hi
    conv_rhs => rw [← hpart]
    rw [getElem?_take_of_lt hi, getElem?_drop]
  have hlen : part.length ≤ data.length - s := by
    have := congrArg length hpart
    rw [length_take, length_drop] at this
    omega
  have hoff := h.offset_le
  have hfits := h.fits
  refine ⟨h.offset_pos, by omega, ?_, ?_⟩
  · by_cases hlong : s ≤ data.length
    · omega
    · have : part.length = 0 := by omega
      have := h.offset_pos
      omega
  · intro k hk
    have heq := h.eq k hk
    rw [show s + pos - m.offset + k = s + (pos - m.offset + k) by omega,
      show s + pos + k = s + (pos + k) by omega, hat _ (by omega), hat _ (by omega), heq]

/-- A token describes `data` at a position. -/
def Token.Describes (data : List α) (pos : Nat) : Token α → Prop
  | .literal a => data[pos]? = some a
  | .copy m => Repeats data pos m

theorem Token.Describes.span_le {t : Token α} (h : t.Describes data pos) :
    pos + t.span ≤ data.length := by
  cases t with
  | literal a =>
    obtain ⟨hlt, -⟩ := List.getElem?_eq_some_iff.mp h
    exact hlt
  | copy m => exact Repeats.fits h

/-- The tokens, each of which meets `D` at its position, lead from `lo` to `hi`. -/
def Parses (D : Nat → Token α → Prop) (lo : Nat) : List (Token α) → Nat → Prop
  | [], hi => hi = lo
  | t :: ts, hi => D lo t ∧ Parses D (lo + t.span) ts hi

section Parses

variable {D : Nat → Token α → Prop} {ts us : List (Token α)} {t : Token α} {lo mid hi : Nat}

/-- Tokens are parsed one part after the other. -/
theorem parses_append :
    Parses D lo (ts ++ us) hi ↔ ∃ mid, Parses D lo ts mid ∧ Parses D mid us hi := by
  induction ts generalizing lo with
  | nil => simp [Parses]
  | cons t ts ih =>
    simp only [cons_append, Parses, ih]
    constructor
    · rintro ⟨ht, mid, hts, hus⟩
      exact ⟨mid, ⟨ht, hts⟩, hus⟩
    · rintro ⟨mid, ⟨ht, hts⟩, hus⟩
      exact ⟨ht, mid, hts, hus⟩

theorem Parses.append (hts : Parses D lo ts mid) (hus : Parses D mid us hi) :
    Parses D lo (ts ++ us) hi :=
  parses_append.mpr ⟨mid, hts, hus⟩

section

variable (h : Parses D lo ts hi) {E : Nat → Token α → Prop}

include h

theorem Parses.le : lo ≤ hi := by
  induction ts generalizing lo with
  | nil =>
    have heq : hi = lo := h
    exact Nat.le_of_eq heq.symm
  | cons t ts ih => exact Nat.le_trans (Nat.le_add_right lo _) (ih h.2)

theorem Parses.le_length (hD : ∀ pos t, D pos t → t.Describes data pos) (hlo : lo ≤ data.length) :
    hi ≤ data.length := by
  induction ts generalizing lo with
  | nil =>
    have heq : hi = lo := h
    exact heq ▸ hlo
  | cons t ts ih => exact ih h.2 (hD _ _ h.1).span_le

/-- Tokens that cover at most `n` positions cannot jump over `n` of them. -/
theorem Parses.exists_start {T : Nat} (hn : ∀ pos t, D pos t → t.span ≤ n) (hlo : lo < T + n)
    (hhi : T + n ≤ hi) : ∃ pos t, D pos t ∧ T ≤ pos ∧ pos < T + n := by
  induction ts generalizing lo with
  | nil =>
    have heq : hi = lo := h
    omega
  | cons t ts ih =>
    obtain ⟨ht, hts⟩ := h
    by_cases hle : T ≤ lo
    · exact ⟨lo, t, ht, hle, hlo⟩
    · have hspan := hn _ _ ht
      exact ih hts (by omega)

theorem Parses.mono (hE : ∀ pos t, D pos t → E pos t) : Parses E lo ts hi := by
  induction ts generalizing lo with
  | nil => exact h
  | cons t ts ih => exact ⟨hE _ _ h.1, ih h.2⟩

/-- A parse of a part is a parse of the whole, `s` places on. -/
theorem Parses.shift (hE : ∀ pos t, D pos t → E (s + pos) t) :
    Parses E (s + lo) ts (s + hi) := by
  induction ts generalizing lo with
  | nil => exact congrArg (s + ·) h
  | cons t ts ih =>
    refine ⟨hE _ _ h.1, ?_⟩
    rw [Nat.add_assoc]
    exact ih h.2

theorem Parses.exists_of_mem (ht : t ∈ ts) : ∃ pos, D pos t := by
  induction ts generalizing lo with
  | nil => cases ht
  | cons u ts ih =>
    cases ht with
    | head => exact ⟨lo, h.1⟩
    | tail _ ht => exact ih h.2 ht

theorem Parses.add_length_le (hD : ∀ pos t, D pos t → 1 ≤ t.span) : lo + ts.length ≤ hi := by
  induction ts generalizing lo with
  | nil =>
    have heq : hi = lo := h
    exact Nat.le_of_eq heq.symm
  | cons t ts ih =>
    have hspan := hD _ _ h.1
    have hrest := ih h.2
    rw [length_cons]
    omega

end

end Parses

/-! ### Copies within a buffer -/

/-- `buf.copy_within(src..src + n, dst)`. -/
def copyWithin (buf : List α) (src dst n : Nat) : List α :=
  buf.take dst ++ (buf.drop src).take n ++ buf.drop (dst + n)

theorem length_copyWithin {buf : List α} (hsrc : src + n ≤ buf.length)
    (hdst : dst + n ≤ buf.length) : (copyWithin buf src dst n).length = buf.length := by
  simp only [copyWithin, length_append, length_take, length_drop]
  omega

/-- A copy from the agreeing part of a buffer extends that part by what the data repeat. -/
theorem take_copyWithin (hagree : buf.take dst = data.take dst) (hsrc : src + n ≤ dst)
    (hdst : dst + n ≤ buf.length) (heq : ∀ k < n, data[src + k]? = data[dst + k]?) :
    (copyWithin buf src dst n).take (dst + n) = data.take (dst + n) := by
  have hseg : ∀ l : List α, (l.drop src).take n = ((l.take dst).drop src).take n := by
    intro l
    rw [drop_take, take_take]
    congr 1
    omega
  have hrepeat : (data.drop src).take n = (data.drop dst).take n := by
    apply ext_getElem?
    intro k
    simp only [getElem?_take, getElem?_drop]
    split
    · rename_i hk
      exact heq k hk
    · rfl
  have hlen : (buf.take dst ++ (buf.drop src).take n).length = dst + n := by
    simp only [length_append, length_take, length_drop]
    omega
  rw [copyWithin, take_left' hlen, hseg, hagree, ← hseg, hrepeat, ← take_add]

/-- `count` chunks of `w` entries, from `src + i` to `dst + i` on. -/
def copyChunks (w src dst : Nat) : Nat → Nat → List α → List α
  | 0, _, buf => buf
  | count + 1, i, buf =>
    copyChunks w src dst count (i + w) (copyWithin buf (src + i) (dst + i) w)

/-- Copying part of a match in chunks that are no longer than its offset is right. -/
theorem take_copyChunks (h : Repeats data pos m) {w : Nat} (hw : w ≤ m.offset) (count i : Nat)
    (buf : List α) (hi : i + w * count ≤ m.length) (hbuf : pos + m.length ≤ buf.length)
    (hagree : buf.take (pos + i) = data.take (pos + i)) :
    (copyChunks w (pos - m.offset) pos count i buf).take (pos + (i + w * count)) =
        data.take (pos + (i + w * count)) ∧
      (copyChunks w (pos - m.offset) pos count i buf).length = buf.length := by
  induction count generalizing i buf with
  | zero =>
    exact ⟨hagree, rfl⟩
  | succ count ih =>
    have hoff := h.offset_le
    rw [Nat.mul_add] at hi
    have hstep : (copyWithin buf (pos - m.offset + i) (pos + i) w).take (pos + i + w) =
        data.take (pos + i + w) := by
      apply take_copyWithin hagree (by omega) (by omega)
      intro k hk
      have heq := h.eq (i + k) (by omega)
      rwa [← Nat.add_assoc, ← Nat.add_assoc] at heq
    have hlen : (copyWithin buf (pos - m.offset + i) (pos + i) w).length = buf.length :=
      length_copyWithin (by omega) (by omega)
    obtain ⟨htake, hkeep⟩ := ih (i + w) _ (by omega) (by rw [hlen]; exact hbuf)
      (by rw [← Nat.add_assoc]; exact hstep)
    have hend : i + w * (count + 1) = i + w + w * count := by rw [Nat.mul_add]; omega
    rw [hend]
    exact ⟨htake, hkeep.trans hlen⟩

/-- A literal written at the end of the agreeing part extends it. -/
theorem take_set {a : α} (hagree : buf.take n = data.take n) (hlt : n < buf.length)
    (ha : data[n]? = some a) :
    (buf.set n a).take (n + 1) = data.take (n + 1) := by
  obtain ⟨hn, rfl⟩ := List.getElem?_eq_some_iff.mp ha
  rw [take_succ_eq_append_getElem (by simpa using hlt), take_succ_eq_append_getElem hn,
    take_set_of_le (Nat.le_refl n), hagree, getElem_set_self]

/-- A run written at the end of the agreeing part extends it. -/
theorem take_append_drop_of_agree (hagree : buf.take n = data.take n) (run : List α)
    (hlen : n + run.length ≤ buf.length) (hrun : (data.drop n).take run.length = run) :
    (buf.take n ++ run ++ buf.drop (n + run.length)).take (n + run.length) =
      data.take (n + run.length) := by
  have hhead : (buf.take n ++ run).length = n + run.length := by
    rw [length_append, length_take]
    omega
  rw [take_left' hhead, hagree, take_add, hrun]

/-- A match of offset one repeats a single entry. -/
theorem Repeats.eq_last (h : Repeats data pos m) (hone : m.offset = 1) :
    ∀ k < m.length, data[pos + k]? = data[pos - 1]? := by
  intro k
  induction k with
  | zero =>
    intro hk
    simpa [hone] using (h.eq 0 hk).symm
  | succ k ih =>
    intro hk
    have hpos := h.offset_le
    have heq := h.eq (k + 1) hk
    rw [hone, show pos - 1 + (k + 1) = pos + k by omega] at heq
    rw [← heq, ih (by omega)]

end Lz77
