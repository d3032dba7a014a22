import Fsmnt.ForStd.Bytes

/-!
# Windows of a byte function

The content of a medium is the byte at every offset. What is read from it is a window: the bytes
from an offset on, as many as were asked for.
-/

namespace Bytes

open List

variable {f g : Nat → UInt8} {off m n len : Nat}

/-- The `len` bytes of `f` from `off` on. -/
def window (f : Nat → UInt8) (off len : Nat) : Bytes := (List.range len).map fun i => f (off + i)

@[simp] theorem length_window : (window f off n).length = n := by
  simp [window]

@[simp] theorem window_zero : window f off 0 = [] := rfl

theorem getElem?_window {i : Nat} : (window f off n)[i]? =
    if i < n then some (f (off + i)) else none := by
  by_cases hi : i < n
  · simp [window, hi]
  · simp [hi]

/-- Adjacent windows make one. -/
theorem window_append : window f off m ++ window f (off + m) n = window f off (m + n) := by
  apply ext_getElem?
  intro i
  by_cases hi : i < m
  · rw [getElem?_append_left (by simpa using hi), getElem?_window, getElem?_window,
      if_pos hi, if_pos (by omega)]
  rw [getElem?_append_right (by simpa using hi), getElem?_window, getElem?_window, length_window]
  by_cases hin : i < m + n
  · rw [if_pos (by omega), if_pos hin]
    congr 2
    omega
  · rw [if_neg (by omega), if_neg hin]

/-- A window inside a window. -/
theorem slice_window {o : Nat} (h : o + len ≤ n) :
    (window f off n).slice o len = window f (off + o) len := by
  apply ext_getElem?
  intro i
  rw [slice, getElem?_take, getElem?_drop, getElem?_window, getElem?_window]
  by_cases hi : i < len
  · rw [if_pos hi, if_pos hi, if_pos (by omega), Nat.add_assoc]
  · rw [if_neg hi, if_neg hi]

/-- Two functions that agree on a window. -/
theorem window_congr (h : ∀ i < n, f (off + i) = g (off + i)) :
    window f off n = window g off n := by
  apply map_congr_left
  intro i hi
  exact h i (mem_range.mp hi)

theorem window_const (b : UInt8) (off n : Nat) : window (fun _ => b) off n = replicate n b := by
  simp [window, map_const']

/-- Windows of one length are equal exactly when the functions agree on them. -/
theorem window_inj {off' : Nat} :
    window f off n = window g off' n ↔ ∀ i < n, f (off + i) = g (off' + i) := by
  constructor
  · intro h i hi
    have hget := congrArg (fun bs => bs[i]?) h
    simp only [getElem?_window, if_pos hi, Option.some.injEq] at hget
    exact hget
  · intro h
    apply map_congr_left
    intro i hi
    exact h i (mem_range.mp hi)

/-- A buffer as a function, zero behind its end. -/
def toContent (bs : Bytes) (i : Nat) : UInt8 := bs.getD i 0

/-- A slice of a list is a window of its content. -/
theorem slice_eq_window {bs : Bytes} (h : off + len ≤ bs.length) :
    bs.slice off len = window bs.toContent off len := by
  apply ext_getElem?
  intro i
  rw [slice, getElem?_take, getElem?_drop, getElem?_window]
  by_cases hi : i < len
  · have hlt : off + i < bs.length := by omega
    rw [if_pos hi, if_pos hi, toContent, getD_eq_getElem?_getD,
      getElem?_eq_getElem hlt, Option.getD_some]
  · rw [if_neg hi, if_neg hi]

end Bytes
