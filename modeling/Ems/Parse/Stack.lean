import Mathlib.Data.List.TakeWhile
import Ems.Parse.Commands

/-!
# The reader's buffer

`read_uint` and `parse_uint` once more, with the 16 bytes they have on the stack and nothing
behind them: undefined are a store at index 16, and `strtoul` when it looks for the end of
the number there. The loop has no bound but the input's, and at the end of the file the
digits get no terminator. `reads_exactly_iff` is when nothing of this matters.

`Parse.readUint` lets `strtoul` go on into the memory behind the buffer. Where the reader of
this file is defined they are the same (`readUint_of_stack`).

Mirroring notes:
- `read(fd, buf + i, 1)` stores nothing at the end of the file, so that it may be called
  with `buf + 16` there.
- The two functions differ in what they make of a `read` that fails; here it does not.
-/

namespace Ems.Parse

open Base

/-- What `strtoul` has before it behind white space and a sign. -/
def subject (s : List UInt8) : List UInt8 :=
  match s.dropWhile isSpace with
  | [] => []
  | c :: rest => if c = 45 ∨ c = 43 then rest else c :: rest

/-- `strtoul` on an array. It looks at the byte behind the number too. -/
def strtoulIn (array : List UInt8) : Option Nat :=
  if (subject array).dropWhile isDigit = [] then none else some (strtoul array)

/-! ## What `strtoul` looks at -/

/-- In front of a digit `strtoul` skips nothing. -/
theorem subject_digits {c : UInt8} (s : List UInt8) (hc : isDigit c = true) :
    subject (c :: s) = c :: s := by
  obtain ⟨hspace, hminus, hplus⟩ := digit_not_space hc
  unfold subject
  rw [List.dropWhile_cons_of_neg (by simp [hspace])]
  exact if_neg (not_or.mpr ⟨hminus, hplus⟩)

theorem subject_suffix (s : List UInt8) : subject s <:+ s := by
  have hspaces : s.dropWhile isSpace <:+ s := List.dropWhile_suffix _
  unfold subject
  split
  next => exact List.nil_suffix
  next c rest heq =>
    rw [heq] at hspaces
    split
    next => exact (List.suffix_cons c rest).trans hspaces
    next => exact hspaces

/-- The value without the sign. -/
theorem strtoul_subject (s : List UInt8) :
    strtoul s = min (decimal ((subject s).takeWhile isDigit)) ulongMax ∨
    strtoul s = if ulongMax < decimal ((subject s).takeWhile isDigit) then ulongMax
      else (2 ^ 64 - decimal ((subject s).takeWhile isDigit)) % 2 ^ 64 := by
  unfold strtoul
  cases hs : s.dropWhile isSpace with
  | nil =>
    left
    have hsub : subject s = [] := by
      unfold subject
      rw [hs]
    rw [hsub]
    rfl
  | cons c rest =>
    dsimp only
    by_cases hminus : c = 45
    · right
      have hsub : subject s = rest := by
        unfold subject
        rw [hs]
        exact if_pos (Or.inl hminus)
      rw [if_pos hminus, hsub]
    · left
      rw [if_neg hminus]
      have hsub : subject s = if c = 43 then rest else c :: rest := by
        unfold subject
        rw [hs]
        simp only [hminus, false_or]
      rw [hsub]
      split <;> rfl

/-- `strtoul` does not look behind the byte that ends its number. -/
theorem strtoul_append {a : List UInt8} (h : (subject a).dropWhile isDigit ≠ []) (b : List UInt8) :
    strtoul (a ++ b) = strtoul a := by
  have hdigits : ∀ {l : List UInt8}, l.dropWhile isDigit ≠ [] →
      (l ++ b).takeWhile isDigit = l.takeWhile isDigit := by
    intro l hl
    rw [List.takeWhile_append, if_neg]
    intro hlen
    exact hl (List.dropWhile_eq_nil_iff.mpr
      (List.takeWhile_eq_self_iff.mp ((List.takeWhile_prefix _).eq_of_length hlen)))
  unfold subject at h
  unfold strtoul
  rw [List.dropWhile_append]
  cases hspace : a.dropWhile isSpace with
  | nil =>
    rw [hspace] at h
    exact absurd rfl h
  | cons c rest =>
    rw [hspace] at h
    dsimp only at h
    simp only [List.isEmpty_cons, Bool.false_eq_true, if_false, List.cons_append]
    by_cases hminus : c = 45
    · rw [if_pos (Or.inl hminus)] at h
      rw [if_pos hminus, if_pos hminus, hdigits h]
    · rw [if_neg hminus, if_neg hminus]
      unfold strtoulDigits
      by_cases hplus : c = 43
      · rw [if_pos (Or.inr hplus)] at h
        rw [if_pos hplus, if_pos hplus, hdigits h]
      · rw [if_neg (not_or.mpr ⟨hminus, hplus⟩)] at h
        rw [if_neg hplus, if_neg hplus, ← List.cons_append, hdigits h]

/-- An array is filled from the front. -/
theorem set_behind {α : Type} {front array : List α} (h : front.length < array.length) (x : α) :
    (front ++ array.drop front.length).set front.length x =
      (front ++ [x]) ++ array.drop (front ++ [x]).length := by
  rw [List.set_append_right _ _ (Nat.le_refl _), Nat.sub_self, List.drop_eq_getElem_cons h,
    List.set_cons_zero, List.append_assoc, List.length_append]
  rfl

namespace Stack

/-! ## The readers and their buffer -/

/-- `char buf[16]`, with what the stack has left there. -/
abbrev Buffer := { buf : List UInt8 // buf.length = 16 }

/-- The loop of the reader; the first argument counts the bytes from `buf + i` on. -/
def fill : Nat → List UInt8 → Reading (List UInt8 × UInt8)
  | 0, buf => do
    match ← Reading.readBytes 1 with
    | [] => pure (buf, 0)
    | _ :: _ => .undefined
  | room + 1, buf => do
    match ← Reading.readBytes 1 with
    | [] => pure (buf, 0)
    | c :: _ =>
      if !isDigit c then pure (buf.set (16 - (room + 1)) 0, c)
      else fill room (buf.set (16 - (room + 1)) c)

/-- `read_uint`. -/
def readUint (buf : Buffer) : Reading (Option UInt32 × UInt8) := do
  let (buf, next) ← fill 16 buf.1
  match strtoulIn buf with
  | none => .undefined
  | some ul =>
    if uintMax < ul then pure (none, next)
    else pure (some (UInt32.ofNat ul), next)

/-- `parse_uint`. -/
def parseUint (buf : Buffer) : Reading (Option UInt32 × UInt8) := readUint buf

/-- A value as an `unsigned int`, if it is one. -/
def toUint (value : Nat) : Option UInt32 :=
  if uintMax < value then none else some (UInt32.ofNat value)

/-- The digits and the byte behind them are read, and the result is the value of the digits,
or that it exceeds `UINT_MAX`. -/
def ReadsExactly (reader : Reading (Option UInt32 × UInt8)) (s : List UInt8) : Prop :=
  reader.run s = some
    ((toUint (decimal (s.takeWhile isDigit)), (s.dropWhile isDigit).headD 0),
      (s.dropWhile isDigit).tail)

/-- What the buffer holds behind the digits does not count: their number ends in the buffer,
and it is the same number, unless the digits alone exceed `UINT_MAX`. -/
def Harmless (buf : Buffer) (ds : List UInt8) : Prop :=
  (subject (ds ++ buf.1.drop ds.length)).dropWhile isDigit ≠ [] ∧
    (uintMax < decimal ds ∨
      decimal ((subject (ds ++ buf.1.drop ds.length)).takeWhile isDigit) = decimal ds)

/-! ## The loop -/

/-- The loop stores what `readDigits` collects, in front of what the buffer held. -/
theorem run_fill {old s b r : List UInt8} {c : UInt8} (hold : old.length = 16) :
    ∀ {room : Nat} {front : List UInt8}, front.length + room = 16 →
      (readDigits room front).run s = some ((b, c), r) →
      (fill room (front ++ old.drop front.length)).run s = some ((b ++ old.drop b.length, c), r) := by
  induction s with
  | nil =>
    intro room front hroom h
    cases room with
    | zero => cases h
    | succ room =>
      cases h
      rfl
  | cons d s ih =>
    intro room front hroom h
    cases room with
    | zero => cases h
    | succ room =>
      have hi : 16 - (room + 1) = front.length := by omega
      have hlt : front.length < old.length := by omega
      simp only [readDigits, fill, hi, Reading.run_bind, Reading.run_readBytes, List.take_succ_cons,
        List.take_zero, List.drop_succ_cons, List.drop_zero, Option.bind_some] at h ⊢
      rw [set_behind hlt, set_behind hlt]
      -- a digit is kept; the first other byte is replaced by the terminator
      by_cases hd : isDigit d = true
      · simp only [hd, Bool.not_true, Bool.false_eq_true, if_false] at h ⊢
        exact ih (by rw [List.length_append, List.length_singleton]; omega) h
      · simp only [hd, Bool.not_false, if_true] at h ⊢
        cases h
        rfl

/-- A byte behind 16 digits has no place. -/
theorem run_fill_over {ds t : List UInt8} (hd : Numeral ds) (ht : t ≠ []) :
    ∀ buf, (fill ds.length buf).run (ds ++ t) = none := by
  induction ds with
  | nil =>
    intro buf
    obtain ⟨c, t, rfl⟩ := List.exists_cons_of_ne_nil ht
    rfl
  | cons d ds ih =>
    intro buf
    have hdigit : isDigit d = true := hd d (List.mem_cons_self ..)
    simp only [fill, List.length_cons, Reading.run_bind, Reading.run_readBytes, List.cons_append,
      List.take_succ_cons, List.take_zero, List.drop_succ_cons, List.drop_zero, Option.bind_some,
      hdigit, Bool.not_true, Bool.false_eq_true, if_false]
    exact ih (fun x hx => hd x (List.mem_cons_of_mem _ hx)) _

/-- 16 digits at the end of the file fill the buffer. -/
theorem run_fill_full {old : List UInt8} (hold : old.length = 16) {ds : List UInt8} (hd : Numeral ds) :
    ∀ {front : List UInt8}, front.length + ds.length = 16 →
      (fill ds.length (front ++ old.drop front.length)).run ds = some ((front ++ ds, 0), []) := by
  induction ds with
  | nil =>
    intro front hlen
    rw [List.length_nil, Nat.add_zero] at hlen
    -- the end of the file: no terminator, and nothing old is left
    rw [hlen, List.drop_of_length_le (by omega)]
    rfl
  | cons d ds ih =>
    intro front hlen
    rw [List.length_cons] at hlen
    have hi : 16 - (ds.length + 1) = front.length := by omega
    have hlt : front.length < old.length := by omega
    have hdigit : isDigit d = true := hd d (List.mem_cons_self ..)
    simp only [fill, List.length_cons, hi, Reading.run_bind, Reading.run_readBytes,
      List.take_succ_cons, List.take_zero, List.drop_succ_cons, List.drop_zero, Option.bind_some,
      hdigit, Bool.not_true, Bool.false_eq_true, if_false]
    rw [set_behind hlt, ih (fun x hx => hd x (List.mem_cons_of_mem _ hx))
      (by rw [List.length_append, List.length_singleton]; omega), List.append_assoc]
    rfl

/-! ## The number in the buffer -/

theorem toUint_eq_iff {a b : Nat} : toUint a = toUint b ↔ a = b ∨ uintMax < a ∧ uintMax < b := by
  unfold toUint
  by_cases ha : uintMax < a
  · by_cases hb : uintMax < b
    · rw [if_pos ha, if_pos hb]
      exact iff_of_true rfl (Or.inr ⟨ha, hb⟩)
    · rw [if_pos ha, if_neg hb]
      refine iff_of_false (by simp) ?_
      omega
  · by_cases hb : uintMax < b
    · rw [if_neg ha, if_pos hb]
      refine iff_of_false (by simp) ?_
      omega
    · rw [if_neg ha, if_neg hb, Option.some.injEq, ← UInt32.toNat_inj, UInt32.toNat_ofNat',
        UInt32.toNat_ofNat', Nat.mod_eq_of_lt, Nat.mod_eq_of_lt]
      -- both fit in an `unsigned int`
      · omega
      · exact Nat.lt_of_le_of_lt (Nat.le_of_not_lt hb) (by decide)
      · exact Nat.lt_of_le_of_lt (Nat.le_of_not_lt ha) (by decide)

/-- A number that ends in the buffer has no more than 15 digits. -/
theorem decimal_subject_lt {array : List UInt8} (hlen : array.length ≤ 16)
    (hend : (subject array).dropWhile isDigit ≠ []) :
    decimal ((subject array).takeWhile isDigit) < 10 ^ 15 := by
  have hpos := List.length_pos_iff.mpr hend
  have hsplit := congrArg List.length
    (List.takeWhile_append_dropWhile (p := isDigit) (l := subject array))
  rw [List.length_append] at hsplit
  have hsub := (subject_suffix array).length_le
  have hnum : Numeral ((subject array).takeWhile isDigit) := fun c hc => List.mem_takeWhile_imp hc
  calc decimal ((subject array).takeWhile isDigit)
      < 10 ^ ((subject array).takeWhile isDigit).length := decimal_lt hnum
    _ ≤ 10 ^ 15 := Nat.pow_le_pow_right (by decide) (by omega)

/-- What `strtoul` makes of the digits and what is behind them. -/
theorem toUint_strtoul_iff {ds stale : List UInt8} (hd : Numeral ds)
    (hlen : (ds ++ stale).length ≤ 16) (hend : (subject (ds ++ stale)).dropWhile isDigit ≠ []) :
    toUint (strtoul (ds ++ stale)) = toUint (decimal ds) ↔
      uintMax < decimal ds ∨
        decimal ((subject (ds ++ stale)).takeWhile isDigit) = decimal ds := by
  have hlt := decimal_subject_lt hlen hend
  have hmax : ulongMax = 18446744073709551615 := rfl
  have huint : uintMax = 4294967295 := rfl
  rw [toUint_eq_iff]
  cases ds with
  -- no digits: `strtoul` may skip blanks and a sign among the old bytes
  | nil =>
    have hzero : decimal [] = 0 := rfl
    rw [hzero]
    rcases strtoul_subject ([] ++ stale) with hval | hval
    · rw [hval]
      omega
    · rw [hval, if_neg (by omega)]
      omega
  | cons c ds =>
    have hsub := subject_digits (ds ++ stale) (hd c (List.mem_cons_self ..))
    rw [List.cons_append] at hlt hend ⊢
    rw [hsub] at hlt ⊢
    have hval := strtoul_digits stale hd
    have htake : (c :: (ds ++ stale)).takeWhile isDigit = c :: ds ++ stale.takeWhile isDigit :=
      @List.takeWhile_append_of_pos _ isDigit (c :: ds) stale hd
    -- more digits do not make the number smaller
    have hle : decimal (c :: ds) ≤ decimal (c :: ds ++ stale.takeWhile isDigit) := by
      rw [decimal_append]
      exact Nat.le_add_right_of_le (Nat.le_mul_of_pos_right _ (Nat.pow_pos (by decide)))
    rw [htake] at hlt ⊢
    rw [List.cons_append] at hval
    rw [hval]
    omega

/-- Behind a digit the buffer is harmless when a byte ends the number, and the digits up to
there are none or zeros like those before, or the value was too large without them. -/
theorem harmless_iff (buf : Buffer) {ds : List UInt8} (hne : ds ≠ []) (hd : Numeral ds) :
    Harmless buf ds ↔ (buf.1.drop ds.length).dropWhile isDigit ≠ [] ∧
      (uintMax < decimal ds ∨ (buf.1.drop ds.length).takeWhile isDigit = [] ∨
        decimal ds = 0 ∧ decimal ((buf.1.drop ds.length).takeWhile isDigit) = 0) := by
  have hsub : subject (ds ++ buf.1.drop ds.length) = ds ++ buf.1.drop ds.length := by
    obtain ⟨c, ds, rfl⟩ := List.exists_cons_of_ne_nil hne
    exact subject_digits _ (hd c (List.mem_cons_self ..))
  unfold Harmless
  rw [hsub, List.dropWhile_append_of_pos hd, List.takeWhile_append_of_pos hd,
    decimal_append_eq_iff]

/-! ## The readers -/

theorem run_of_fill {buf : Buffer} {s b r : List UInt8} {c : UInt8}
    (h : (fill 16 buf.1).run s = some ((b, c), r)) :
    (readUint buf).run s = (strtoulIn b).map fun ul => ((toUint ul, c), r) := by
  unfold readUint
  rw [Reading.run_bind, h, Option.bind_some]
  dsimp only
  cases strtoulIn b with
  | none => rfl
  | some ul =>
    rw [Option.map_some]
    unfold toUint
    by_cases hmax : uintMax < ul
    · simp only [if_pos hmax, Reading.run_pure]
    · simp only [if_neg hmax, Reading.run_pure]

theorem strtoulIn_numeral {ds : List UInt8} (t : List UInt8) (hd : Numeral ds)
    (hlen : ds.length ≤ 15) : strtoulIn (ds ++ 0 :: t) = some (decimal ds) := by
  have hsub : subject (ds ++ 0 :: t) = ds ++ 0 :: t := by
    cases ds with
    | nil => rfl
    | cons c ds => exact subject_digits _ (hd c (List.mem_cons_self ..))
  have hdrop : (ds ++ 0 :: t).dropWhile isDigit = 0 :: t := by
    rw [List.dropWhile_append_of_pos hd, List.dropWhile_cons_of_neg (by decide)]
  unfold strtoulIn
  rw [hsub, hdrop, if_neg (List.cons_ne_nil _ _), strtoul_numeral t hd hlen]

/-- Up to 15 digits that something follows. -/
theorem run_readUint_followed (buf : Buffer) {ds : List UInt8} {c : UInt8} (r : List UInt8)
    (hd : Numeral ds) (hlen : ds.length ≤ 15) (hc : isDigit c = false) :
    (readUint buf).run (ds ++ c :: r) = some ((toUint (decimal ds), c), r) := by
  have hread := @run_readDigits 16 ds [] c r hd hc (Nat.lt_succ_of_le hlen)
  rw [run_of_fill (run_fill buf.2 rfl hread), List.nil_append, List.append_assoc,
    List.singleton_append, strtoulIn_numeral _ hd hlen]
  rfl

/-- Up to 15 digits at the end of the file. -/
theorem run_readUint_last (buf : Buffer) {ds : List UInt8} (hd : Numeral ds)
    (hlen : ds.length ≤ 15) :
    (readUint buf).run ds =
      (strtoulIn (ds ++ buf.1.drop ds.length)).map fun ul => ((toUint ul, 0), []) := by
  have hread := @run_readDigits_last 16 ds [] hd (Nat.lt_succ_of_le hlen)
  rw [run_of_fill (run_fill buf.2 rfl hread), List.nil_append]

/-- 16 digits leave the buffer, in the loop or in `strtoul`. -/
theorem run_readUint_long (buf : Buffer) {ds : List UInt8} (t : List UInt8) (hd : Numeral ds)
    (hlen : ds.length = 16) : (readUint buf).run (ds ++ t) = none := by
  -- the loop leaves the buffer when a byte follows; at the end of the file `strtoul` does
  by_cases ht : t = []
  · subst ht
    have hfull := @run_fill_full buf.1 buf.2 ds hd [] (by rw [hlen]; rfl)
    rw [hlen] at hfull
    rw [List.append_nil, run_of_fill hfull]
    obtain ⟨c, ds, rfl⟩ := List.exists_cons_of_length_eq_add_one hlen
    have hnone : strtoulIn (c :: ds) = none := by
      unfold strtoulIn
      rw [subject_digits _ (hd c (List.mem_cons_self ..)), if_pos]
      exact List.dropWhile_eq_nil_iff.mpr hd
    rw [List.nil_append, hnone]
    rfl
  · have hover := run_fill_over hd ht buf.1
    rw [hlen] at hover
    unfold readUint
    rw [Reading.run_bind, hover]
    rfl

/-- Digits and what is behind them, digits alone, or too many of them. -/
theorem input_cases (s : List UInt8) :
    (∃ ds c r, Numeral ds ∧ ds.length ≤ 15 ∧ isDigit c = false ∧ s = ds ++ c :: r) ∨
    (Numeral s ∧ s.length ≤ 15) ∨ ∃ ds t, Numeral ds ∧ ds.length = 16 ∧ s = ds ++ t := by
  -- of too many digits the first 16 are enough
  have hlong : ∀ ds t, Numeral ds → ¬ ds.length ≤ 15 →
      ∃ ds' t', Numeral ds' ∧ ds'.length = 16 ∧ ds ++ t = ds' ++ t' := by
    intro ds t hd hlen
    refine ⟨ds.take 16, ds.drop 16 ++ t, fun c hc => hd c (List.mem_of_mem_take hc), ?_, ?_⟩
    · rw [List.length_take]
      omega
    · rw [← List.append_assoc, List.take_append_drop]
  rcases split_numeral s with hd | ⟨ds, c, r, hd, hc, rfl⟩
  · by_cases hlen : s.length ≤ 15
    · exact Or.inr (Or.inl ⟨hd, hlen⟩)
    · have hsplit := hlong s [] hd hlen
      rw [List.append_nil] at hsplit
      exact Or.inr (Or.inr hsplit)
  · by_cases hlen : ds.length ≤ 15
    · exact Or.inl ⟨ds, c, r, hd, hlen, hc, rfl⟩
    · exact Or.inr (Or.inr (hlong ds (c :: r) hd hlen))

theorem readsExactly_iff (buf : Buffer) (s : List UInt8) :
    ReadsExactly (readUint buf) s ↔ (s.takeWhile isDigit).length ≤ 15 ∧
      (s.dropWhile isDigit = [] → Harmless buf (s.takeWhile isDigit)) := by
  unfold ReadsExactly
  rcases input_cases s with ⟨ds, c, r, hd, hlen, hc, rfl⟩ | ⟨hd, hlen⟩ | ⟨ds, t, hd, hlen, rfl⟩
  · have hneg : ¬ isDigit c = true := by rw [hc]; exact Bool.false_ne_true
    rw [run_readUint_followed buf r hd hlen hc, List.takeWhile_append_of_pos hd,
      List.dropWhile_append_of_pos hd, List.takeWhile_cons_of_neg hneg,
      List.dropWhile_cons_of_neg hneg, List.append_nil]
    exact iff_of_true rfl ⟨hlen, fun h => absurd h (List.cons_ne_nil c r)⟩
  -- the file ends with the digits: what the buffer held before is read on
  · have htake : s.takeWhile isDigit = s := List.takeWhile_eq_self_iff.mpr hd
    have hdrop : s.dropWhile isDigit = [] := List.dropWhile_eq_nil_iff.mpr hd
    have hstale : (s ++ buf.1.drop s.length).length ≤ 16 := by
      rw [List.length_append, List.length_drop, buf.2]
      omega
    rw [htake, hdrop, run_readUint_last buf hd hlen]
    unfold Harmless strtoulIn
    by_cases hend : (subject (s ++ buf.1.drop s.length)).dropWhile isDigit = []
    · rw [if_pos hend]
      refine iff_of_false (by simp) fun h => ?_
      exact (h.2 rfl).1 hend
    · rw [if_neg hend, ← toUint_strtoul_iff hd hstale hend]
      simp [hlen, hend]
  · rw [run_readUint_long buf t hd hlen, List.takeWhile_append_of_pos hd, List.length_append]
    refine iff_of_false (by simp) fun h => ?_
    omega

/-- **The readers are exact** for every input with at most 15 digits at its front, unless it
ends there and what the buffer held before counts. -/
theorem reads_exactly_iff (buf : Buffer) (s : List UInt8) :
    (ReadsExactly (readUint buf) s ↔ (s.takeWhile isDigit).length ≤ 15 ∧
      (s.dropWhile isDigit = [] → Harmless buf (s.takeWhile isDigit))) ∧
    (ReadsExactly (parseUint buf) s ↔ (s.takeWhile isDigit).length ≤ 15 ∧
      (s.dropWhile isDigit = [] → Harmless buf (s.takeWhile isDigit))) :=
  ⟨readsExactly_iff buf s, readsExactly_iff buf s⟩

/-- A buffer that held 57 before. -/
def stale : Buffer := ⟨bytes "57" ++ List.replicate 14 0, rfl⟩

/-- The newline behind 16 digits is stored behind the buffer, and a 5 at the end of the file
is read as 57. -/
theorem reads_not_exactly : ¬ ReadsExactly (readUint stale) (bytes "0000000000000001\n") ∧
    ¬ ReadsExactly (parseUint stale) (bytes "5") := by
  have hlong : (readUint stale).run (bytes "0000000000000001\n") = none := by decide
  have hlast : (parseUint stale).run (bytes "5") = some ((some 57, 0), []) := by decide
  unfold ReadsExactly
  rw [hlong, hlast]
  exact ⟨by decide, by decide⟩

end Stack

/-- The reader with memory behind its buffer does the same. -/
theorem readUint_of_stack {buf : Stack.Buffer} {s r : List UInt8} {v : Option UInt32} {c : UInt8}
    (h : (Stack.readUint buf).run s = some ((v, c), r)) (more : List UInt8) :
    (readUint (buf.1 ++ more)).run s = some ((v, c), r) := by
  rcases Stack.input_cases s with ⟨ds, b, t, hd, hlen, hb, rfl⟩ | ⟨hd, hlen⟩ | ⟨ds, t, hd, hlen, rfl⟩
  · rw [Stack.run_readUint_followed buf t hd hlen hb] at h
    rw [run_readUint _ t hd hlen hb]
    exact h
  · rw [Stack.run_readUint_last buf hd hlen] at h
    unfold strtoulIn at h
    split at h
    next => cases h
    next hend =>
      have hdrop : (buf.1 ++ more).drop s.length = buf.1.drop s.length ++ more :=
        List.drop_append_of_le_length (by rw [buf.2]; omega)
      rw [run_readUint_last _ hd hlen, hdrop, ← List.append_assoc, strtoul_append hend]
      exact h
  · rw [Stack.run_readUint_long buf t hd hlen] at h
    cases h

end Ems.Parse
