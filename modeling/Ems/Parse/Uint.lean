import Mathlib.Data.List.Induction
import Mathlib.Tactic.Ring
import Ems.Base.Reading

/-!
# The integer reader

`read_uint` of the first part and `parse_uint` of the second are the same
function: digits go into a 16-byte stack buffer one `read` at a time, a non-digit
ends the number and is handed back, and `strtoul` converts what is in the buffer.

Mirroring notes:
- At the end of the file the buffer gets no terminating NUL, so `strtoul` reads
  on into whatever is behind the digits. `junk` is that memory, from `buf[0]`
  upwards, as it was before the call.
- A 17th byte would be stored behind the buffer: undefined.
- `strtoul` is modelled in full (white space, sign, saturation), since with
  `junk` it can see anything.
- `read` does not fail; a non-positive `char` compares as its byte does, on the
  non-digit side.
-/

namespace Ems.Parse

open Base

/-- `'0' <= c && c <= '9'`. -/
def isDigit (c : UInt8) : Bool := 48 ≤ c && c ≤ 57

/-- The value of decimal digits. -/
def decimal (ds : List UInt8) : Nat := ds.foldl (fun v c => 10 * v + (c.toNat - 48)) 0

/-- `isspace` of the C locale. -/
def isSpace (c : UInt8) : Bool := c = 32 || (9 ≤ c && c ≤ 13)

/-- `ULONG_MAX`. -/
def ulongMax : Nat := 2 ^ 64 - 1

/-- `UINT_MAX`. -/
def uintMax : Nat := 2 ^ 32 - 1

/-- The digits at the front, saturated at `ULONG_MAX`. -/
def strtoulDigits (s : List UInt8) : Nat := min (decimal (s.takeWhile isDigit)) ulongMax

/-- `strtoul(s, NULL, 10)` on the memory from `s` on. -/
def strtoul (s : List UInt8) : Nat :=
  match s.dropWhile isSpace with
  | [] => 0
  | c :: rest =>
    if c = 45 then
      if ulongMax < decimal (rest.takeWhile isDigit) then ulongMax
      else (2 ^ 64 - decimal (rest.takeWhile isDigit)) % 2 ^ 64
    else if c = 43 then strtoulDigits rest
    else strtoulDigits (c :: rest)

/-- The loop of the reader: the buffer up to the last byte stored, and the byte
that ended the number (NUL at the end of the file, where nothing is stored). The
first argument counts the bytes the buffer still has room for. -/
def readDigits : Nat → List UInt8 → Reading (List UInt8 × UInt8)
  | 0, _ => .undefined
  | room + 1, buf => do
    match ← Reading.readBytes 1 with
    | [] => pure (buf, 0)
    | c :: _ =>
      if !isDigit c then pure (buf ++ [0], c)
      else readDigits room (buf ++ [c])

/-- `read_uint` / `parse_uint`: the value, or nothing when it exceeds `UINT_MAX`,
and the byte behind it. -/
def readUint (junk : List UInt8) : Reading (Option UInt32 × UInt8) := do
  let (buf, next) ← readDigits 16 []
  let ul := strtoul (buf ++ junk.drop buf.length)
  if uintMax < ul then pure (none, next)
  else pure (some (UInt32.ofNat ul), next)

/-! ## Digits -/

/-- A run of digits. -/
def Numeral (ds : List UInt8) : Prop := ∀ c ∈ ds, isDigit c = true

/-- A run of digits whose value is an `unsigned int`. -/
def Fits (ds : List UInt8) : Prop := Numeral ds ∧ decimal ds ≤ uintMax

/-- Every numeral in the text has at most 15 digits. -/
def ShortNumerals (s : List UInt8) : Prop :=
  ∀ before ds after, s = before ++ ds ++ after → Numeral ds → ds.length ≤ 15

theorem ShortNumerals.of_infix {s t : List UInt8} (h : ShortNumerals t) (hst : s <:+: t) :
    ShortNumerals s := by
  intro before ds after hs hd
  obtain ⟨a, b, hab⟩ := hst
  exact h (a ++ before) ds (after ++ b) (by rw [← hab, hs]; simp) hd

theorem ShortNumerals.suffix {a s : List UInt8} (h : ShortNumerals (a ++ s)) :
    ShortNumerals s := h.of_infix (List.suffix_append a s).isInfix

theorem ShortNumerals.head {ds s : List UInt8} (h : ShortNumerals (ds ++ s)) (hd : Numeral ds) :
    ds.length ≤ 15 := h [] ds s (by simp) hd

theorem shortNumerals_of_length {s : List UInt8} (h : s.length ≤ 15) : ShortNumerals s := by
  intro before ds after hs _
  rw [hs] at h
  simp only [List.length_append] at h
  omega

/-- A text with few digits has short numerals only. -/
theorem shortNumerals_of_countP {s : List UInt8} (h : s.countP isDigit ≤ 15) :
    ShortNumerals s := by
  intro before ds after hs hd
  rw [hs, List.countP_append, List.countP_append, List.countP_eq_length.mpr hd] at h
  omega

theorem isDigit_zero : isDigit 0 = false := by decide

/-- A text is a numeral, or a numeral and a byte that ends it. -/
theorem split_numeral (a : List UInt8) :
    Numeral a ∨ ∃ ds c s, Numeral ds ∧ isDigit c = false ∧ a = ds ++ c :: s := by
  induction a with
  | nil => exact Or.inl (by simp [Numeral])
  | cons c a ih =>
    cases hc : isDigit c with
    | false => exact Or.inr ⟨[], c, a, by simp [Numeral], hc, rfl⟩
    | true =>
      have hcons : ∀ ds, Numeral ds → Numeral (c :: ds) := by
        intro ds hd b hb
        rcases List.mem_cons.mp hb with h | h
        · rw [h]; exact hc
        · exact hd b h
      rcases ih with h | h
      · exact Or.inl (hcons a h)
      · obtain ⟨ds, b, s, hd, hb, hs⟩ := h
        exact Or.inr ⟨c :: ds, b, s, hcons ds hd, hb, by rw [hs]; rfl⟩

/-- The numeral at the front of a text is determined by the text. -/
theorem split_unique {ds ds' : List UInt8} {c c' : UInt8} {s s' : List UInt8} (hd : Numeral ds)
    (hd' : Numeral ds') (hc : isDigit c = false) (hc' : isDigit c' = false)
    (h : ds ++ c :: s = ds' ++ c' :: s') : ds = ds' ∧ c = c' ∧ s = s' := by
  induction ds generalizing ds' with
  | nil =>
    cases ds' with
    | nil => cases h; exact ⟨rfl, rfl, rfl⟩
    | cons b bs =>
      cases h
      rw [hd' c (List.mem_cons_self ..)] at hc
      cases hc
  | cons b bs ih =>
    cases ds' with
    | nil =>
      cases h
      rw [hd c' (List.mem_cons_self ..)] at hc'
      cases hc'
    | cons b' bs' =>
      rw [List.cons_append, List.cons_append] at h
      obtain ⟨hb, h'⟩ := List.cons.inj h
      obtain ⟨h1, h2, h3⟩ := ih (fun x hx => hd x (List.mem_cons_of_mem _ hx))
        (fun x hx => hd' x (List.mem_cons_of_mem _ hx)) h'
      exact ⟨by rw [hb, h1], h2, h3⟩

/-- A numeral alone has no byte that ends it. -/
theorem numeral_no_end {ds a : List UInt8} {c : UInt8} {s : List UInt8} (ha : Numeral a)
    (hc : isDigit c = false) : a ≠ ds ++ c :: s := by
  intro h
  have := ha c (by rw [h]; simp)
  rw [hc] at this
  cases this

/-! ## What the reader does -/

theorem decimal_snoc (ds : List UInt8) (c : UInt8) :
    decimal (ds ++ [c]) = 10 * decimal ds + (c.toNat - 48) := by
  unfold decimal
  rw [List.foldl_append]
  rfl

theorem decimal_append (a b : List UInt8) :
    decimal (a ++ b) = decimal a * 10 ^ b.length + decimal b := by
  induction b using List.reverseRecOn with
  | nil => simp [decimal]
  | append_singleton b c ih =>
    rw [← List.append_assoc, decimal_snoc, decimal_snoc, ih, List.length_append,
      List.length_singleton, Nat.pow_succ]
    ring

theorem decimal_lt {ds : List UInt8} (h : Numeral ds) : decimal ds < 10 ^ ds.length := by
  induction ds using List.reverseRecOn with
  | nil => exact Nat.one_pos
  | append_singleton ds c ih =>
    have hc := h c (by simp)
    have hlt := ih fun b hb => h b (by simp [hb])
    unfold isDigit at hc
    simp only [Bool.and_eq_true, decide_eq_true_eq, UInt8.le_iff_toNat_le] at hc
    rw [decimal_snoc, List.length_append, List.length_singleton, Nat.pow_succ]
    have h1 : (48 : UInt8).toNat = 48 := rfl
    have h2 : (57 : UInt8).toNat = 57 := rfl
    omega

/-- More digits leave the value alone when there are none, or only zeros. -/
theorem decimal_append_eq_iff (a b : List UInt8) :
    decimal (a ++ b) = decimal a ↔ b = [] ∨ decimal a = 0 ∧ decimal b = 0 := by
  rw [decimal_append]
  constructor
  · intro h
    by_cases hnil : b = []
    · exact Or.inl hnil
    · right
      have hten : 10 ^ 1 ≤ 10 ^ b.length :=
        Nat.pow_le_pow_right (by decide) (List.length_pos_iff.mpr hnil)
      have hmul : decimal a * 10 ^ 1 ≤ decimal a * 10 ^ b.length := Nat.mul_le_mul_left _ hten
      omega
  · intro h
    rcases h with h | ⟨h1, h2⟩
    · simp [h, decimal]
    · rw [h1, h2, Nat.zero_mul]

theorem digit_not_space {c : UInt8} (h : isDigit c = true) : isSpace c = false ∧ c ≠ 45 ∧ c ≠ 43 := by
  unfold isDigit at h
  simp only [Bool.and_eq_true, decide_eq_true_eq, UInt8.le_iff_toNat_le] at h
  have h1 : (48 : UInt8).toNat = 48 := rfl
  refine ⟨?_, ?_, ?_⟩
  · unfold isSpace
    simp only [Bool.or_eq_false_iff, decide_eq_false_iff_not, Bool.and_eq_false_iff,
      UInt8.le_iff_toNat_le]
    refine ⟨fun hc => ?_, Or.inr ?_⟩
    · rw [hc] at h; exact absurd h.1 (by decide)
    · show ¬ c.toNat ≤ 13
      omega
  · intro hc; rw [hc] at h; exact absurd h.1 (by decide)
  · intro hc; rw [hc] at h; exact absurd h.1 (by decide)

/-- `strtoul` from a digit on takes all the digits there are. -/
theorem strtoul_digits {c : UInt8} {ds : List UInt8} (s : List UInt8) (hd : Numeral (c :: ds)) :
    strtoul (c :: ds ++ s) = min (decimal (c :: ds ++ s.takeWhile isDigit)) ulongMax := by
  obtain ⟨hsp, hminus, hplus⟩ := digit_not_space (hd c (List.mem_cons_self ..))
  have htake : (c :: ds ++ s).takeWhile isDigit = c :: ds ++ s.takeWhile isDigit :=
    List.takeWhile_append_of_pos hd
  unfold strtoul
  rw [← htake, List.cons_append, List.dropWhile_cons_of_neg (by simp [hsp])]
  simp only [if_neg hminus, if_neg hplus]
  rfl

/-- `strtoul` of a terminated numeral that an `unsigned long` can hold. -/
theorem strtoul_numeral {ds : List UInt8} (s : List UInt8) (hd : Numeral ds)
    (hlen : ds.length ≤ 15) : strtoul (ds ++ 0 :: s) = decimal ds := by
  have hsmall : decimal ds ≤ ulongMax := by
    have h1 := decimal_lt hd
    have h2 : 10 ^ ds.length ≤ 10 ^ 15 := Nat.pow_le_pow_right (by decide) hlen
    have h3 : 10 ^ 15 ≤ ulongMax := by decide
    omega
  have htake : ((0 : UInt8) :: s).takeWhile isDigit = [] :=
    List.takeWhile_cons_of_neg (by rw [isDigit_zero]; decide)
  cases ds with
  | nil =>
    have hdrop : ((0 : UInt8) :: s).dropWhile isSpace = 0 :: s :=
      List.dropWhile_cons_of_neg (by decide)
    unfold strtoul
    rw [List.nil_append, hdrop]
    show strtoulDigits (0 :: s) = _
    unfold strtoulDigits
    rw [htake]
    rfl
  | cons c ds => rw [strtoul_digits _ hd, htake, List.append_nil, Nat.min_eq_left hsmall]

theorem run_readDigits {room : Nat} {ds buf : List UInt8} {c : UInt8} (s : List UInt8)
    (hd : Numeral ds) (hc : isDigit c = false) (hlen : ds.length < room) :
    (readDigits room buf).run (ds ++ c :: s) = some ((buf ++ ds ++ [0], c), s) := by
  induction ds generalizing room buf with
  | nil =>
    obtain ⟨room, rfl⟩ : ∃ k, room = k + 1 := ⟨room - 1, by simp at hlen; omega⟩
    simp [readDigits, hc]
  | cons b ds ih =>
    obtain ⟨room, rfl⟩ : ∃ k, room = k + 1 := ⟨room - 1, by simp at hlen; omega⟩
    have hb : isDigit b = true := hd b (List.mem_cons_self ..)
    have hrest : (readDigits room (buf ++ [b])).run (ds ++ c :: s) =
        some ((buf ++ [b] ++ ds ++ [0], c), s) :=
      ih (fun x hx => hd x (List.mem_cons_of_mem _ hx))
        (by simp only [List.length_cons] at hlen; omega)
    simp only [readDigits, Reading.run_bind, Reading.run_readBytes, List.cons_append,
      List.take_succ_cons, List.take_zero, List.drop_succ_cons, List.drop_zero, Option.bind_some, hb,
      Bool.not_true, Bool.false_eq_true, if_false, hrest]
    simp

theorem run_readDigits_last {room : Nat} {ds buf : List UInt8} (hd : Numeral ds)
    (hlen : ds.length < room) :
    (readDigits room buf).run ds = some ((buf ++ ds, 0), []) := by
  induction ds generalizing room buf with
  | nil =>
    obtain ⟨room, rfl⟩ : ∃ k, room = k + 1 := ⟨room - 1, by simp at hlen; omega⟩
    simp [readDigits]
  | cons b ds ih =>
    obtain ⟨room, rfl⟩ : ∃ k, room = k + 1 := ⟨room - 1, by simp at hlen; omega⟩
    have hb : isDigit b = true := hd b (List.mem_cons_self ..)
    have hrest : (readDigits room (buf ++ [b])).run ds = some ((buf ++ [b] ++ ds, 0), []) :=
      ih (fun x hx => hd x (List.mem_cons_of_mem _ hx))
        (by simp only [List.length_cons] at hlen; omega)
    simp only [readDigits, Reading.run_bind, Reading.run_readBytes, List.take_succ_cons,
      List.take_zero, List.drop_succ_cons, List.drop_zero, Option.bind_some, hb, Bool.not_true,
      Bool.false_eq_true, if_false, hrest]
    simp

/-- A numeral that fills the buffer is stored beyond it. -/
theorem run_readDigits_long {room : Nat} {ds buf : List UInt8} (s : List UInt8) (hd : Numeral ds)
    (hlen : room ≤ ds.length) : (readDigits room buf).run (ds ++ s) = none := by
  induction room generalizing ds buf with
  | zero => rfl
  | succ room ih =>
    cases ds with
    | nil => exact absurd hlen (by simp)
    | cons c ds =>
      have hc : isDigit c = true := hd c (List.mem_cons_self ..)
      have hrest : (readDigits room (buf ++ [c])).run (ds ++ s) = none :=
        ih (fun x hx => hd x (List.mem_cons_of_mem _ hx)) (Nat.le_of_succ_le_succ hlen)
      simp only [readDigits, Reading.run_bind, Reading.run_readBytes, List.cons_append,
        List.take_succ_cons, List.take_zero, List.drop_succ_cons, List.drop_zero, Option.bind_some,
        hc, Bool.not_true, Bool.false_eq_true, if_false, hrest]

/-- The reader on a numeral that something follows. -/
theorem run_readUint {ds : List UInt8} {c : UInt8} (junk s : List UInt8) (hd : Numeral ds)
    (hlen : ds.length ≤ 15) (hc : isDigit c = false) :
    (readUint junk).run (ds ++ c :: s) =
      some ((if uintMax < decimal ds then none else some (UInt32.ofNat (decimal ds)), c), s) := by
  unfold readUint
  rw [Reading.run_bind, run_readDigits s hd hc (Nat.lt_succ_of_le hlen), Option.bind_some]
  dsimp only
  rw [List.nil_append, List.append_assoc, List.singleton_append, strtoul_numeral _ hd hlen]
  split <;> rfl

/-- The reader on a numeral at the end of the file: what is in the buffer behind the
digits counts too. -/
theorem run_readUint_last {ds : List UInt8} (junk : List UInt8) (hd : Numeral ds)
    (hlen : ds.length ≤ 15) :
    (readUint junk).run ds =
      some ((if uintMax < strtoul (ds ++ junk.drop ds.length) then none
        else some (UInt32.ofNat (strtoul (ds ++ junk.drop ds.length))), 0), []) := by
  unfold readUint
  rw [Reading.run_bind, run_readDigits_last hd (Nat.lt_succ_of_le hlen), Option.bind_some]
  dsimp only
  rw [List.nil_append]
  split <;> rfl

end Ems.Parse
