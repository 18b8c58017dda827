import Mathlib.Data.List.Basic

/-!
# Arrays of bytes

`strcpy`, `strcat`, `strncpy` and `memcpy` on an array: what is written beyond its end is
undefined. A C string is in an array up to its first NUL; an array without one holds no
string. `pad` is the array that a string leaves when it is copied into zeros, and `Holds`
says that an array holds a string, with anything behind it.
-/

namespace Wire

/-- The array with `bs` written into it from `off` on. -/
def store (array : List UInt8) (off : Nat) (bs : List UInt8) : Option (List UInt8) :=
  if off + bs.length ≤ array.length then
    some (array.take off ++ bs ++ array.drop (off + bs.length))
  else none

/-- `strcpy(array + off, s)`. -/
def strcpy (array : List UInt8) (off : Nat) (s : List UInt8) : Option (List UInt8) :=
  store array off (s ++ [0])

/-- `memcpy(array, src + off, n)`. -/
def memcpy (array src : List UInt8) (off n : Nat) : Option (List UInt8) :=
  if off + n ≤ src.length then store array 0 ((src.drop off).take n) else none

/-- `strncpy(array, s, n)`: no more than `n` bytes of the string, and zeros up to `n`. -/
def strncpy (array s : List UInt8) (n : Nat) : Option (List UInt8) :=
  store array 0 (s.take n ++ List.replicate (n - s.length) 0)

/-- The string in an array, if it is terminated there. -/
def cString (array : List UInt8) : Option (List UInt8) :=
  if 0 ∈ array then some (array.takeWhile (· ≠ 0)) else none

/-- `strcat(array, s)`. -/
def strcat (array s : List UInt8) : Option (List UInt8) := do
  let before ← cString array
  strcpy array before.length s

/-- A string and zeros behind it, `n` bytes in all. -/
def pad (n : Nat) (s : List UInt8) : List UInt8 := s ++ List.replicate (n - s.length) 0

theorem pad_length {n : Nat} {s : List UInt8} (h : s.length ≤ n) : (pad n s).length = n := by
  unfold pad
  rw [List.length_append, List.length_replicate]
  omega

/-- A string with its terminator, copied into zeros behind `before`. -/
theorem strcpy_zeros {before s : List UInt8} {n : Nat} (h : s.length < n) :
    strcpy (before ++ List.replicate n 0) before.length s = some (before ++ pad n s) := by
  have hlen : before.length + (s ++ [0]).length ≤ (before ++ List.replicate n (0 : UInt8)).length := by
    simp only [List.length_append, List.length_replicate, List.length_singleton]
    omega
  have hsplit : n - s.length = 1 + (n - (s ++ [0]).length) := by
    rw [List.length_append, List.length_singleton]
    omega
  unfold strcpy store
  rw [if_pos hlen, List.take_left, List.drop_length_add_append, List.drop_replicate]
  unfold pad
  rw [hsplit, List.replicate_add]
  simp

/-- All of an array is written. -/
theorem store_whole {array bs : List UInt8} (h : array.length = bs.length) :
    store array 0 bs = some bs := by
  unfold store
  rw [if_pos (by omega), List.take_zero, List.drop_of_length_le (by omega), List.append_nil,
    List.nil_append]

theorem memcpy_whole {array src : List UInt8} {n : Nat} (off : Nat) (harray : array.length = n)
    (hsrc : off + n ≤ src.length) : memcpy array src off n = some ((src.drop off).take n) := by
  have hlen : ((src.drop off).take n).length = n := by
    rw [List.length_take, List.length_drop]
    omega
  unfold memcpy
  rw [if_pos hsrc, store_whole (by omega)]

/-- The whole array is written when it has `n` bytes. -/
theorem strncpy_whole {array s : List UInt8} {n : Nat} (harray : array.length = n)
    (hs : s.length ≤ n) : strncpy array s n = some (pad n s) := by
  unfold strncpy
  rw [List.take_of_length_le hs]
  apply store_whole
  rw [harray]
  exact (pad_length hs).symm

theorem take_pad {n m : Nat} {s : List UInt8} (hs : s.length ≤ n) (hn : n ≤ m) :
    (pad m s).take n = pad n s := by
  unfold pad
  rw [List.take_append, List.take_of_length_le hs, List.take_replicate]
  congr 2
  omega

theorem ne_nul_of_clean {s : List UInt8} (h : 0 ∉ s) : ∀ c ∈ s, decide (c ≠ 0) = true := by
  intro c hc
  rw [decide_eq_true_eq]
  intro hzero
  rw [hzero] at hc
  exact h hc

/-- The string is there as long as there is room for its terminator. -/
theorem cString_pad {n : Nat} {s : List UInt8} (hnul : 0 ∉ s) :
    cString (pad n s) = if s.length < n then some s else none := by
  unfold cString pad
  by_cases h : s.length < n
  · have hzeros : List.replicate (n - s.length) (0 : UInt8) =
        0 :: List.replicate (n - s.length - 1) 0 := by
      rw [← List.replicate_succ]
      congr 1
      omega
    have hs := ne_nul_of_clean hnul
    rw [if_pos h, hzeros, if_pos (by simp), List.takeWhile_append_of_pos hs,
      List.takeWhile_cons_of_neg (by simp), List.append_nil]
  · have hzero : n - s.length = 0 := by omega
    rw [if_neg h, hzero, List.replicate_zero, List.append_nil, if_neg hnul]

/-! ## Strings in arrays -/

/-- An array of `n` bytes that holds the string `s`. -/
structure Holds (n : Nat) (array s : List UInt8) : Prop where
  length : array.length = n
  text : ∃ rest, array = s ++ 0 :: rest
  clean : 0 ∉ s

section Holds

variable {n : Nat} {array s u : List UInt8}

theorem Holds.cString (h : Holds n array s) : cString array = some s := by
  obtain ⟨rest, rfl⟩ := h.text
  have hs := ne_nul_of_clean h.clean
  unfold Wire.cString
  rw [if_pos (by simp), List.takeWhile_append_of_pos hs, List.takeWhile_cons_of_neg (by simp),
    List.append_nil]

theorem Holds.take (h : Holds n array s) : array.take s.length = s := by
  obtain ⟨rest, rfl⟩ := h.text
  exact List.take_left

/-- A string behind what the array begins with. -/
theorem holds_strcpy (hlen : array.length = n) (hbefore : array.take s.length = s)
    (hroom : s.length + u.length < n) (hs : 0 ∉ s) (hu : 0 ∉ u) :
    ∃ array', strcpy array s.length u = some array' ∧ Holds n array' (s ++ u) := by
  have hfits : s.length + (u ++ [0]).length ≤ array.length := by
    rw [List.length_append, List.length_singleton]
    omega
  unfold strcpy store
  rw [if_pos hfits, hbefore]
  refine ⟨_, rfl, ?_, ⟨array.drop (s.length + (u ++ [0]).length), by simp⟩, ?_⟩
  · rw [List.length_append, List.length_append, List.length_drop]
    omega
  · intro hmem
    rcases List.mem_append.mp hmem with h | h
    · exact hs h
    · exact hu h

theorem Holds.strcat (h : Holds n array s) (hroom : s.length + u.length < n) (hu : 0 ∉ u) :
    ∃ array', strcat array u = some array' ∧ Holds n array' (s ++ u) := by
  unfold Wire.strcat
  rw [h.cString]
  exact holds_strcpy h.length h.take hroom h.clean hu

end Holds

end Wire
