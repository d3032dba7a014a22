import Fsmnt.Native.NtCompression.Lz77
import Fsmnt.Spec.NtCompression.Basic
import Fsmnt.ForStd.Except

/-!
# The match finder parses its input

Whatever the hash chains hold, a match is only reported after its bytes have been compared. The
tokens that `tokenize_streaming` emits are therefore a parse of the input. It fails only where a
position does not fit a `u32`.
-/

namespace Fsmnt.NtCompression.MatchFinder

open Except Lz77

variable {finder finder' : MatchFinder} {data : Bytes} {pos window maxLen : Nat}

/-- What the tables have for the position, if anything, fits a `u32`. -/
def FitsU32 (data : Bytes) (pos : Nat) : Prop := pos + 3 ≤ data.length → pos + 1 < 2 ^ 32

/-- A token that the finder may emit at `pos`; its position has been entered in the tables. -/
def TokenOk (window maxLen : Nat) (data : Bytes) (pos : Nat) (t : Token UInt8) : Prop :=
  FitsU32 data pos ∧ match t with
    | .literal a => data[pos]? = some a
    | .copy m => Repeats data pos m ∧ m.offset ≤ window ∧ 3 ≤ m.length ∧ m.length ≤ maxLen

theorem TokenOk.describes (pos : Nat) (t : Token UInt8) (h : TokenOk window maxLen data pos t) :
    t.Describes data pos := by
  cases t with
  | literal a => exact h.2
  | copy m => exact h.2.1

/-- The part of the finder that no operation changes. -/
structure Configured (window maxLen : Nat) (finder : MatchFinder) : Prop where
  window : finder.windowSize = window
  min : finder.minMatchLen = 3
  max : finder.maxMatchLen = maxLen

section

variable (hc : Configured window maxLen finder) {m : Match}

include hc

theorem update_configured (h : finder.update data pos = .ok finder') :
    Configured window maxLen finder' ∧ FitsU32 data pos := by
  unfold update at h
  split at h
  · rename_i hshort
    cases h
    exact ⟨hc, fun hle => by omega⟩
  split at h
  · cases h
  · rename_i hfit
    cases h
    exact ⟨{ hc with }, fun _ => by omega⟩

theorem updateMatch_configured (h : finder.updateMatch data pos m = .ok finder') :
    Configured window maxLen finder' ∧ FitsU32 data pos := by
  obtain ⟨mid, hmid, hrest⟩ := bind_eq_ok_iff.mp h
  obtain ⟨hcmid, hfit⟩ := update_configured hc hmid
  split at hrest
  · exact ⟨(update_configured hcmid hrest).1, hfit⟩
  · cases hrest
    exact ⟨hcmid, hfit⟩

theorem maxLenAt_le (hmax : maxLen < 2 ^ 32) (data : Bytes) (pos : Nat) :
    finder.maxLenAt data pos ≤ maxLen ∧ finder.maxLenAt data pos ≤ data.length - pos := by
  unfold maxLenAt
  rw [hc.max]
  dsimp only
  split <;> omega

/-- The best match so far is too short to count, or a match. -/
def Best (window maxLen : Nat) (data : Bytes) (pos bestLen bestOffset : Nat) : Prop :=
  bestLen < 3 ∨ Repeats data pos ⟨bestOffset, bestLen⟩ ∧ bestOffset ≤ window ∧ bestLen ≤ maxLen

theorem findMatchLoop_best (hmax : maxLen < 2 ^ 32) (hpos : pos ≤ data.length)
    (links chainPos bestLen bestOffset) (h : Best window maxLen data pos bestLen bestOffset) :
    Best window maxLen data pos (findMatchLoop finder data pos links chainPos bestLen bestOffset).1
      (findMatchLoop finder data pos links chainPos bestLen bestOffset).2 := by
  induction links generalizing chainPos bestLen bestOffset with
  | zero =>
    exact h
  | succ links ih =>
    rw [findMatchLoop]
    split
    · exact h
    dsimp only
    split
    · exact h
    rename_i hwindow
    rw [hc.window] at hwindow
    have hlen := matchLength_le data (chainPos - 1) pos (finder.maxLenAt data pos)
    obtain ⟨hmaxLen, hrest⟩ := maxLenAt_le hc hmax data pos
    have hbest : Best window maxLen data pos
        (matchLength data (chainPos - 1) pos (finder.maxLenAt data pos))
        (pos - (chainPos - 1)) :=
      .inr ⟨repeats_matchLength (by omega) hrest hpos, by omega, Nat.le_trans hlen hmaxLen⟩
    split
    · split
      · split
        · exact hbest
        · exact ih _ _ _ hbest
      · exact ih _ _ _ h
    · exact ih _ _ _ h

/-- A match that is found repeats the data, within the limits. -/
theorem findMatch_spec (hmax : maxLen < 2 ^ 32) (h : finder.findMatch data pos = some m) :
    Repeats data pos m ∧ m.offset ≤ window ∧ 3 ≤ m.length ∧ m.length ≤ maxLen := by
  unfold findMatch at h
  rw [hc.min] at h
  split at h
  · cases h
  split at h
  · cases h
  dsimp only at h
  split at h
  · rename_i hlong
    cases h
    have hbest := findMatchLoop_best hc hmax (show pos ≤ data.length by omega)
      finder.maxChainLen (finder.head.getD (hash3 data pos) 0) 2 0 (.inl (by decide))
    obtain ⟨hrep, hoff, hlen⟩ := hbest.resolve_left (Nat.not_lt_of_ge hlong)
    exact ⟨hrep, hoff, hlong, hlen⟩
  · cases h

end

/-! ### Tokens -/

section Tokenize

variable {σ : Type} {emit : σ → Token UInt8 → σ} {data : Bytes} {window maxLen : Nat}
  {pending : Option (Nat × Match)} {s' s : σ} (fuel : Nat)

/-- A match is deferred from the position before. -/
def Deferred (window maxLen : Nat) (data : Bytes) (pos : Nat) (pending : Option (Nat × Match)) :
    Prop :=
  ∀ p m, pending = some (p, m) → p + 1 = pos ∧
    Repeats data p m ∧ m.offset ≤ window ∧ 3 ≤ m.length ∧ m.length ≤ maxLen

/-- The first position that no emitted token covers. -/
def frontier (pos : Nat) (pending : Option (Nat × Match)) : Nat := (pending.map (·.1)).getD pos

/-- From one state of the loop to another: the tokens in between are a parse. -/
structure Emits (emit : σ → Token UInt8 → σ) (data : Bytes) (window maxLen lo : Nat) (s : σ)
    (finder : MatchFinder) (pos : Nat) (pending : Option (Nat × Match)) (s' : σ) : Prop where
  configured : Configured window maxLen finder
  deferred : Deferred window maxLen data pos pending
  tokens : ∃ ts, s' = ts.foldl emit s ∧ Parses (TokenOk window maxLen data) lo ts
    (frontier pos pending)

theorem Emits.trans {lo mid : Nat} {s₁ s₂ : σ}
    (h : Emits emit data window maxLen mid s₁ finder pos pending s₂) (ts : List (Token UInt8))
    (hs : s₁ = ts.foldl emit s) (hts : Parses (TokenOk window maxLen data) lo ts mid) :
    Emits emit data window maxLen lo s finder pos pending s₂ := by
  obtain ⟨us, hus, hparse⟩ := h.tokens
  refine ⟨h.configured, h.deferred, ts ++ us, ?_, hts.append hparse⟩
  rw [hus, hs, List.foldl_append]

theorem literalOk (hpos : pos < data.length) (hfit : FitsU32 data pos) :
    TokenOk window maxLen data pos (.literal (data.getD pos 0)) := by
  refine ⟨hfit, ?_⟩
  rw [List.getD_eq_getElem?_getD, List.getElem?_eq_getElem hpos, Option.getD_some]

/-- A match is emitted, or kept for the next position. -/
theorem deferOrEmit_spec {finder₀ : MatchFinder} (hc : Configured window maxLen finder)
    (hc₀ : Configured window maxLen finder₀) (hmax : maxLen < 2 ^ 32) (hpos : pos < data.length)
    (h : deferOrEmit emit data finder pos (finder₀.findMatch data pos) s = .ok (finder', pending,
      s')) : Emits emit data window maxLen pos s finder' (pos + 1) pending s' := by
  cases hfind : finder₀.findMatch data pos with
  | some m =>
    rw [hfind] at h
    cases h
    refine ⟨hc, ?_, [], rfl, rfl⟩
    rintro p m' ⟨⟩
    exact ⟨rfl, findMatch_spec hc₀ hmax hfind⟩
  | none =>
    rw [hfind] at h
    obtain ⟨mid, hmid, hrest⟩ := bind_eq_ok_iff.mp h
    cases hrest
    obtain ⟨hcmid, hfit⟩ := update_configured hc hmid
    refine ⟨hcmid, ?_, [_], rfl, literalOk hpos hfit, rfl⟩
    rintro p m' ⟨⟩

/-- Every iteration moves on, so that the loop ends at the end of the data, with nothing deferred:
    a match leaves room for another iteration. -/
theorem tokenizeLoop_spec (hmax : maxLen < 2 ^ 32) (fuel : Nat) (finder : MatchFinder) (pos : Nat)
    (pending : Option (Nat × Match)) (s : σ) {finder' : MatchFinder}
    {pending' : Option (Nat × Match)} (hfuel : data.length ≤ fuel + pos) (hpos : pos ≤ data.length)
    (hc : Configured window maxLen finder) (hdefer : Deferred window maxLen data pos pending)
    (h : tokenizeLoop emit data fuel finder pos pending s = .ok (finder', pending', s')) :
    Emits emit data window maxLen (frontier pos pending) s finder' data.length pending' s' ∧
      pending' = none := by
  induction fuel generalizing finder pos pending s finder' pending' s' with
  | zero =>
    cases h
    obtain rfl : pos = data.length := by omega
    refine ⟨⟨hc, hdefer, [], rfl, rfl⟩, ?_⟩
    cases pending with
    | none => rfl
    | some p =>
      obtain ⟨hp, hrep, -, hlen, -⟩ := hdefer p.1 p.2 rfl
      have hfits := hrep.fits
      omega
  | succ fuel ih =>
    rw [tokenizeLoop] at h
    split at h
    · rename_i hlt
      cases pending with
      | none =>
        obtain ⟨⟨mid, pending₁, s₁⟩, hstep, hrest⟩ := bind_eq_ok_iff.mp h
        have hemit := deferOrEmit_spec hc hc hmax hlt hstep
        obtain ⟨ts, hs₁, hts⟩ := hemit.tokens
        obtain ⟨hdone, hnone⟩ := ih mid (pos + 1) pending₁ s₁ (by omega) hlt hemit.configured
          hemit.deferred hrest
        exact ⟨hdone.trans ts hs₁ hts, hnone⟩
      | some p =>
        obtain ⟨pendingPos, m⟩ := p
        obtain ⟨hp, hm⟩ := hdefer pendingPos m rfl
        have hfits := hm.1.fits
        dsimp only at h
        split at h
        · -- The deferred match is emitted.
          obtain ⟨mid, hmid, hrest⟩ := bind_eq_ok_iff.mp h
          obtain ⟨hcmid, hfit⟩ := updateMatch_configured hc hmid
          obtain ⟨hdone, hnone⟩ := ih mid (pendingPos + m.length) none (emit s (.copy m))
            (by omega) hfits hcmid (by rintro p m' ⟨⟩) hrest
          exact ⟨hdone.trans [.copy m] rfl ⟨⟨hfit, hm⟩, rfl⟩, hnone⟩
        -- A longer match starts one position later.
        obtain ⟨mid, hmid, hrest⟩ := bind_eq_ok_iff.mp h
        obtain ⟨⟨mid₁, pending₁, s₁⟩, hstep, hrest⟩ := bind_eq_ok_iff.mp hrest
        obtain ⟨hcmid, hfit⟩ := update_configured hc hmid
        have hemit := deferOrEmit_spec hcmid hc hmax hlt hstep
        obtain ⟨ts, hs₁, hts⟩ := hemit.tokens
        obtain ⟨hdone, hnone⟩ := ih mid₁ (pos + 1) pending₁ s₁ (by omega) hlt hemit.configured
          hemit.deferred hrest
        refine ⟨hdone.trans (.literal (data.getD pendingPos 0) :: ts) ?_
          ⟨literalOk (show pendingPos < data.length by omega) hfit, ?_⟩, hnone⟩
        · rw [hs₁, List.foldl_cons]
        · change Parses _ (pendingPos + 1) ts _
          rw [hp]
          exact hts
    · cases h
      obtain rfl : pos = data.length := by omega
      refine ⟨⟨hc, hdefer, [], rfl, rfl⟩, ?_⟩
      cases pending with
      | none => rfl
      | some p =>
        obtain ⟨hp, hrep, -, hlen, -⟩ := hdefer p.1 p.2 rfl
        have hfits := hrep.fits
        omega

/-- The tokens that are emitted are a parse of the data. -/
theorem tokenizeStreaming_spec (hmax : maxLen < 2 ^ 32) (hc : Configured window maxLen finder)
    (h : tokenizeStreaming emit data finder s = .ok (finder', s')) :
    Configured window maxLen finder' ∧
      ∃ ts, s' = ts.foldl emit s ∧ Parses (TokenOk window maxLen data) 0 ts data.length := by
  obtain ⟨⟨mid, pending, s₁⟩, hloop, hrest⟩ := bind_eq_ok_iff.mp h
  obtain ⟨hemit, rfl⟩ := tokenizeLoop_spec hmax _ _ 0 none s (by omega) (Nat.zero_le _) hc
    (by rintro p m ⟨⟩) hloop
  cases hrest
  exact ⟨hemit.configured, hemit.tokens⟩

/-! ### Positions that are entered -/

/-- `update` without a limit. -/
def enter (data : Bytes) (finder : MatchFinder) (pos : Nat) : MatchFinder :=
  if pos + 3 > data.length then finder
  else { finder with
    prev := finder.prev.insert (pos % finder.windowSize) (finder.head.getD (hash3 data pos) 0)
    head := finder.head.insert (hash3 data pos) (pos + 1) }

/-- An iteration of the lazy parse: the positions that it enters, and where it goes on. -/
def lazyStep (data : Bytes) (finder : MatchFinder) (pos : Nat) (pending : Option (Nat × Match)) :
    List Nat × Nat × Option (Nat × Match) :=
  let current := finder.findMatch data pos
  let own := if current.isNone then [pos] else []
  match pending with
  | none => (own, pos + 1, current.map (pos, ·))
  | some (p, m) =>
    if current.all fun cur => decide (m.length ≥ cur.length) then
      (if m.length ≥ 2 then [p, p + 1] else [p], p + m.length, none)
    else (p :: own, pos + 1, current.map (pos, ·))

/-- The positions that the lazy parse enters in the tables. -/
def entered (data : Bytes) : Nat → MatchFinder → Nat → Option (Nat × Match) → List Nat
  | 0, _, _, _ => []
  | fuel + 1, finder, pos, pending =>
    if pos < data.length then
      let (ps, next, pending) := lazyStep data finder pos pending
      ps ++ entered data fuel (ps.foldl (enter data) finder) next pending
    else []

/-- Every position that the lazy parse of the data enters fits the tables. -/
def Indexes (finder : MatchFinder) (data : Bytes) : Prop :=
  ∀ pos ∈ entered data data.length finder 0 none, FitsU32 data pos

/-- A computation succeeds exactly if `b`, and can only panic. -/
def OkIff {α : Type} (b : Prop) : Except Error α → Prop
  | .ok _ => b
  | .error e => e = .panicked ∧ ¬b

/-- A position is entered, and then the others. -/
theorem OkIff.update_bind {α : Type} {ps : List Nat} {f : MatchFinder → Except Error α}
    (hf : OkIff (∀ q ∈ ps, FitsU32 data q) (f (enter data finder pos))) :
    OkIff (∀ q ∈ pos :: ps, FitsU32 data q) (finder.update data pos >>= f) := by
  rw [List.forall_mem_cons]
  unfold update
  split
  · rename_i hshort
    rw [enter, if_pos hshort] at hf
    have hfit : FitsU32 data pos := fun hle => by omega
    rw [and_iff_right hfit]
    exact hf
  rename_i hlong
  split
  · refine ⟨rfl, fun hfit => ?_⟩
    have := hfit.1 (by omega)
    omega
  · rw [enter, if_neg hlong] at hf
    have hfit : FitsU32 data pos := fun _ => by omega
    rw [and_iff_right hfit]
    exact hf

/-- The loop succeeds exactly if all positions that it enters fit. -/
theorem tokenizeLoop_okIff (finder : MatchFinder) (pos : Nat) (pending : Option (Nat × Match))
    (s : σ) : OkIff (∀ q ∈ entered data fuel finder pos pending, FitsU32 data q)
      (tokenizeLoop emit data fuel finder pos pending s) := by
  induction fuel generalizing finder pos pending s with
  | zero => exact fun q hq => absurd hq List.not_mem_nil
  | succ fuel ih =>
    rw [tokenizeLoop, entered]
    by_cases hlt : pos < data.length
    · rw [if_pos hlt, if_pos hlt]
      -- a position without a match is entered at once, and a match is deferred
      have hdefer : ∀ (finder : MatchFinder) (current : Option Match) (s : σ),
          OkIff (∀ q ∈ (if current.isNone then [pos] else []) ++ entered data fuel
              ((if current.isNone then [pos] else []).foldl (enter data) finder) (pos + 1)
              (current.map (pos, ·)), FitsU32 data q)
            (deferOrEmit emit data finder pos current s >>= fun r =>
              tokenizeLoop emit data fuel r.1 (pos + 1) r.2.1 r.2.2) := by
        intro finder current s
        cases current with
        | some m => exact ih _ _ _ _
        | none =>
          unfold deferOrEmit
          rw [bind_assoc]
          exact OkIff.update_bind (ih _ _ _ _)
      cases pending with
      | none => exact hdefer finder _ s
      | some p =>
        unfold lazyStep
        dsimp only
        split
        · unfold updateMatch
          rw [bind_assoc]
          split
          · exact OkIff.update_bind (OkIff.update_bind (ih _ _ _ _))
          · exact OkIff.update_bind (ih _ _ _ _)
        · exact OkIff.update_bind (hdefer _ _ _)
    · rw [if_neg hlt, if_neg hlt]
      exact fun q hq => absurd hq List.not_mem_nil

/-- The data are indexed exactly if the parse succeeds, whoever receives its tokens. -/
theorem tokenizeStreaming_okIff (hmax : maxLen < 2 ^ 32) (hc : Configured window maxLen finder)
    (s : σ) : OkIff (finder.Indexes data) (tokenizeStreaming emit data finder s) := by
  have hloop : OkIff (finder.Indexes data) (tokenizeLoop emit data data.length finder 0 none s) :=
    tokenizeLoop_okIff data.length finder 0 none s
  unfold tokenizeStreaming
  cases hrun : tokenizeLoop emit data data.length finder 0 none s with
  | error e => rwa [hrun] at hloop
  | ok r =>
    rw [hrun] at hloop
    obtain ⟨-, hnone⟩ := tokenizeLoop_spec hmax _ _ 0 none s (by omega) (Nat.zero_le _) hc
      (by rintro p m ⟨⟩) hrun
    obtain ⟨mid, pending, s₁⟩ := r
    cases hnone
    exact hloop

/-- Positions fit where the tokenizer succeeds. -/
theorem indexes_iff (hmax : maxLen < 2 ^ 32) (hc : Configured window maxLen finder)
    (emit : σ → Token UInt8 → σ) (s : σ) :
    finder.Indexes data ↔ ∃ r, tokenizeStreaming emit data finder s = .ok r := by
  have hok : OkIff (finder.Indexes data) (tokenizeStreaming emit data finder s) :=
    tokenizeStreaming_okIff hmax hc s
  cases hrun : tokenizeStreaming emit data finder s with
  | error e =>
    rw [hrun] at hok
    exact iff_of_false hok.2 (by simp)
  | ok r =>
    rw [hrun] at hok
    exact iff_of_true hok ⟨r, rfl⟩

theorem indexes_of_length (finder : MatchFinder) (h : data.length ≤ 2 ^ 32 + 1) :
    finder.Indexes data :=
  fun pos _ hle => by omega

/-- Data that reach past the last `u32` position by more than a match do not fit. -/
theorem tokenizeStreaming_panics (hmax : maxLen < 2 ^ 32) (hpos : 1 ≤ maxLen)
    (hc : Configured window maxLen finder) (hlen : 2 ^ 32 + maxLen + 1 ≤ data.length) :
    tokenizeStreaming emit data finder s = .error .panicked := by
  have hcases : OkIff (finder.Indexes data) (tokenizeStreaming emit data finder s) :=
    tokenizeStreaming_okIff hmax hc s
  cases hrun : tokenizeStreaming emit data finder s with
  | error e =>
    rw [hrun] at hcases
    rw [hcases.1]
  | ok r =>
    obtain ⟨-, ts, -, hts⟩ := tokenizeStreaming_spec hmax hc hrun
    have hspan : ∀ pos t, TokenOk window maxLen data pos t → t.span ≤ maxLen := by
      intro pos t ht
      cases t with
      | literal a => exact hpos
      | copy m => exact ht.2.2.2.2
    obtain ⟨pos, t, ht, hlo, hhi⟩ := hts.exists_start (T := 2 ^ 32 - 1) hspan (by omega) (by omega)
    have hfit := ht.1 (by omega)
    omega

end Tokenize

end Fsmnt.NtCompression.MatchFinder
