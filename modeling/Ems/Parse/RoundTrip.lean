import Ems.Parse.Grammar

/-!
# Printing and parsing a job file

`decodeAll_lines`: the commands of lines that are all ended by a newline are the commands
of the lines, one by one. Printed with `decimalText` any `unsigned int` comes back, and
so a printed job file is parsed into the commands it was printed from
(`decodeAll_printed`).
-/

namespace Ems.Parse

open Base

/-! ## Lines one after the other -/

/-- By induction on the lines. -/
theorem decodeAll_lines {barrier : Bool} (target : Bool) (junk : List UInt8) {lines : List (Line Number)}
    (hvalid : ∀ l ∈ lines, l.Valid barrier) (rest : List UInt8) :
    decodeAll (next barrier target junk) (joined (lines.map (Line.text Number.digits)) ++ rest) =
      (decodeAll (next barrier target junk) rest).map
        (lines.map (Line.decoded target Number.value) ++ ·) := by
  induction lines with
  | nil => simp [joined]
  | cons l lines ih =>
    have hrun := run_line_newline target junk (hvalid l (List.mem_cons_self ..))
      (joined (lines.map (Line.text Number.digits)) ++ rest)
    have hsplit : joined ((l :: lines).map (Line.text Number.digits)) ++ rest =
        l.text Number.digits ++ nl :: (joined (lines.map (Line.text Number.digits)) ++ rest) := by
      simp [joined]
    rw [hsplit, decodeAll_step (next_decoder barrier target junk) (by simp) hrun,
      ih fun x hx => hvalid x (List.mem_cons_of_mem _ hx), Option.map_map]
    rfl

/-! ## Decimal digits -/

/-- A number as it is printed: decimal, without padding. -/
def decimalText (v : UInt32) : List UInt8 := (Nat.toDigits 10 v.toNat).map Char.toUInt8

theorem digitChar_byte {d : Nat} (h : d < 10) :
    isDigit (Nat.digitChar d).toUInt8 = true ∧ (Nat.digitChar d).toUInt8.toNat - 48 = d := by
  have hall : ∀ i : Fin 10, isDigit (Nat.digitChar i).toUInt8 = true ∧
      (Nat.digitChar i).toUInt8.toNat - 48 = i := by decide
  exact hall ⟨d, h⟩

/-- By induction along the division by 10. -/
theorem toDigits_bytes (n : Nat) :
    Numeral ((Nat.toDigits 10 n).map Char.toUInt8) ∧
      decimal ((Nat.toDigits 10 n).map Char.toUInt8) = n := by
  induction n using Nat.strongRecOn with
  | ind n ih =>
    rw [Nat.toDigits_eq_if (by decide)]
    by_cases h : n < 10
    · obtain ⟨hdigit, hvalue⟩ := digitChar_byte h
      rw [if_pos h, List.map_singleton]
      refine ⟨fun c hc => ?_, ?_⟩
      · rw [List.mem_singleton.mp hc]
        exact hdigit
      · rw [← List.nil_append [(Nat.digitChar n).toUInt8], decimal_snoc, hvalue]
        exact Nat.zero_add n
    · obtain ⟨hdigit, hvalue⟩ := digitChar_byte (Nat.mod_lt n (by decide : 10 > 0))
      obtain ⟨hnum, hdec⟩ := ih (n / 10) (by omega)
      rw [if_neg h, List.map_append, List.map_singleton]
      refine ⟨fun c hc => ?_, ?_⟩
      · rcases List.mem_append.mp hc with hc | hc
        · exact hnum c hc
        · rw [List.mem_singleton.mp hc]
          exact hdigit
      · rw [decimal_snoc, hdec, hvalue]
        omega

/-- The printed number is one that the parsers can read. -/
def Number.print (v : UInt32) : Number where
  digits := decimalText v
  numeral := (toDigits_bytes v.toNat).1
  short := by
    have hlt : v.toNat < 10 ^ 15 := Nat.lt_of_lt_of_le v.toNat_lt (by decide)
    have hlen := (Nat.length_toDigits_le_iff (b := 10) (by decide) (by decide : 0 < 15)).mpr hlt
    unfold decimalText
    rwa [List.length_map]
  fits := by
    unfold decimalText
    rw [(toDigits_bytes v.toNat).2]
    exact Nat.le_of_lt_succ v.toNat_lt

theorem Number.print_value (v : UInt32) : (Number.print v).value = v := by
  unfold Number.value Number.print decimalText
  rw [(toDigits_bytes v.toNat).2]
  exact UInt32.ofNat_toNat

/-! ## Whole lines -/

namespace Line

variable {ν μ : Type}

/-- The same line with other numbers. -/
def map (f : ν → μ) : Line ν → Line μ
  | .create eventId numRows numCols => .create (f eventId) (f numRows) (f numCols)
  | .reserve eventId seats => .reserve (f eventId) (seats.map fun s => (f s.1, f s.2))
  | .showEvent eventId => .showEvent (f eventId)
  | .listEvents => .listEvents
  | .barrier => .barrier
  | .wait delay threadId => .wait (f delay) (threadId.map f)
  | .help => .help
  | .comment text => .comment text
  | .blank => .blank

theorem seatsText_map (f : ν → μ) (spell : μ → List UInt8) (seats : List (ν × ν)) :
    seatsText spell (seats.map fun s => (f s.1, f s.2)) = seatsText (spell ∘ f) seats := by
  induction seats with
  | nil => rfl
  | cons seat seats ih =>
    cases seats with
    | nil => rfl
    | cons seat' seats =>
      rw [List.map_cons] at ih ⊢
      rw [List.map_cons, seatsText_cons_cons, ih]
      rfl

theorem text_map (f : ν → μ) (spell : μ → List UInt8) (l : Line ν) :
    (l.map f).text spell = l.text (spell ∘ f) := by
  cases l with
  | reserve eventId seats => simp only [map, text, seatsText_map, Function.comp]
  | wait delay threadId => cases threadId <;> rfl
  | _ => rfl

theorem decoded_map (f : ν → μ) (target : Bool) (value : μ → UInt32) (l : Line ν) :
    (l.map f).decoded target value = l.decoded target (value ∘ f) := by
  cases l with
  | reserve eventId seats => simp [map, decoded, coords]
  | wait delay threadId => simp [map, decoded]
  | _ => rfl

theorem Valid.map {barrier : Bool} {l : Line ν} (h : l.Valid barrier) (f : ν → μ) :
    (l.map f).Valid barrier := by
  cases l with
  | reserve eventId seats =>
    obtain ⟨hne, hlen⟩ := h
    refine ⟨fun hmap => hne (List.map_eq_nil_iff.mp hmap), ?_⟩
    rwa [List.length_map]
  | _ => exact h

end Line

/-- The job file of some commands. -/
def printed (lines : List (Line UInt32)) : List UInt8 :=
  joined (lines.map (Line.text decimalText))

/-- **Round trip**: what both parsers make of a printed job file is the commands it was
printed from. -/
theorem decodeAll_printed {barrier : Bool} (junk : List UInt8) {lines : List (Line UInt32)}
    (hvalid : ∀ l ∈ lines, l.Valid barrier) :
    decodeAll (next barrier true junk) (printed lines) =
      some (lines.map (Line.decoded true id)) := by
  have hprint : ∀ l ∈ lines.map (Line.map Number.print), l.Valid barrier := by
    intro l hl
    obtain ⟨x, hx, rfl⟩ := List.mem_map.mp hl
    exact (hvalid x hx).map _
  have hlines := decodeAll_lines true junk hprint []
  have htext : Line.text Number.digits ∘ Line.map Number.print = Line.text decimalText :=
    funext fun l => l.text_map Number.print Number.digits
  have hvalue : Line.decoded true Number.value ∘ Line.map Number.print = Line.decoded true id := by
    funext l
    have hid : Number.value ∘ Number.print = id := funext Number.print_value
    rw [Function.comp, l.decoded_map, hid]
  rw [List.append_nil, List.map_map, htext, decodeAll_nil (next_decoder barrier true junk),
    List.map_map, hvalue] at hlines
  simpa [printed] using hlines

/-- A file of the first part. -/
theorem decodeAll_printed_round : decodeAll (next true true [])
    (printed [.reserve 1 [(1, 2), (3, 4)], .wait 0 (some 7), .barrier, .comment [35]]) =
      some [.reserve 1 [(1, 2), (3, 4)], .wait 0 (some 7), .barrier, .empty] :=
  decodeAll_printed [] (by simp [Line.Valid, maxReservationSize, nl])

/-- The text of such a file. -/
example : printed [.create 1 20 3, .reserve 1 [(1, 2), (3, 4)]] =
    bytes "CREATE 1 20 3\nRESERVE 1 [(1,2) (3,4)]\n" := by decide

end Ems.Parse
