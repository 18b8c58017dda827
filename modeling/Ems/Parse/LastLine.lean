import Ems.Parse.RoundTrip

/-!
# A last line without its newline

At the end of the file `get_next` is content, and the `parse_*` functions take the NUL
that the reader gives them for the end of the line. Two things are different there.
`parse_reserve` wants a byte behind its bracket. And nothing ends the digits of the last
number in the buffer, so that the digits it held before are read too: this changes
nothing only when there are none behind the number, or when the number and they are all
zeros (`Number.Quiet`). `last_line_iff` says that nothing else is.

A number is read at the end of the file at most once in a file, so one `junk` stands for
all buffers.
-/

namespace Ems.Parse

open Base

/-! ## The last number -/

/-- The digits in the buffer behind the number. -/
def Number.behind (junk : List UInt8) (n : Number) : List UInt8 :=
  (junk.drop n.digits.length).takeWhile isDigit

/-- They do not count. -/
def Number.Quiet (junk : List UInt8) (n : Number) : Prop :=
  n.behind junk = [] ∨ decimal n.digits = 0 ∧ decimal (n.behind junk) = 0

theorem Number.buffered_eq {n : Number} (hne : n.digits ≠ []) (junk : List UInt8) :
    n.buffered junk = min (decimal (n.digits ++ n.behind junk)) ulongMax := by
  obtain ⟨c, ds, hcons⟩ := List.exists_cons_of_ne_nil hne
  have hnum := n.numeral
  unfold Number.buffered Number.behind
  rw [hcons] at hnum ⊢
  exact strtoul_digits _ hnum

/-- The digits behind leave the value alone exactly when they do not count. -/
theorem Number.decimal_behind_iff (junk : List UInt8) (n : Number) :
    decimal (n.digits ++ n.behind junk) = decimal n.digits ↔ n.Quiet junk :=
  decimal_append_eq_iff _ _

theorem Number.last_eof_iff {junk : List UInt8} {n : Number} (hne : n.digits ≠ []) :
    n.last junk .eof = some n.value ↔ n.Quiet junk := by
  have hfits := n.fits
  have hmax : uintMax < ulongMax := by decide
  rw [← n.decimal_behind_iff]
  unfold Number.last
  rw [n.buffered_eq hne]
  constructor
  · intro h
    by_cases hlt : uintMax < min (decimal (n.digits ++ n.behind junk)) ulongMax
    · rw [if_pos hlt] at h
      cases h
    · rw [if_neg hlt] at h
      have hvalue := congrArg UInt32.toNat (Option.some.inj h)
      unfold Number.value at hvalue
      rw [UInt32.toNat_ofNat', UInt32.toNat_ofNat', Nat.mod_eq_of_lt, Nat.mod_eq_of_lt] at hvalue
      · omega
      · exact Nat.lt_of_le_of_lt hfits (by decide)
      · exact Nat.lt_of_le_of_lt (Nat.le_of_not_lt hlt) (by decide)
  · intro h
    rw [h, Nat.min_eq_left (by omega), if_neg (by omega)]
    rfl

/-! ## The last line -/

namespace Line

variable {ν : Type}

/-- The number that ends the line, if one does and it is read. -/
def lastNumber (target : Bool) : Line ν → Option ν
  | .create _ _ numCols => some numCols
  | .showEvent eventId => some eventId
  | .wait delay none => some delay
  | .wait _ (some threadId) => if target then some threadId else none
  | _ => none

def isReserve : Line ν → Bool
  | .reserve .. => true
  | _ => false

/-- The line is of the documented form: no number is missing. -/
structure WellFormed (barrier : Bool) (l : Line Number) : Prop where
  valid : l.Valid barrier
  complete : ∀ n ∈ l.numbers, n.digits ≠ []

theorem lastNumber_mem {target : Bool} {l : Line ν} {n : ν} (h : l.lastNumber target = some n) :
    n ∈ l.numbers := by
  cases l with
  | create a b c => cases h; simp [numbers]
  | showEvent a => cases h; simp [numbers]
  | wait d threadId =>
    cases threadId with
    | none => cases h; simp [numbers]
    | some t =>
      cases target with
      | true => cases h; simp [numbers]
      | false => cases h
  | _ => cases h

/-- What the parsers make of a line hangs on its last number, and on the byte behind a
bracket. -/
theorem read_eq_decoded_iff {target : Bool} {junk : List UInt8} {e : Ending} {l : Line Number} :
    l.read target junk e = some (l.decoded target Number.value) ↔
      (l.isReserve = true → e.seen = true) ∧
        ∀ n, l.lastNumber target = some n → n.last junk e = some n.value := by
  cases l with
  | create a b c =>
    have hinj : ∀ v : UInt32, Decoded.create a.value b.value.toUInt64 v.toUInt64 =
        .create a.value b.value.toUInt64 c.value.toUInt64 ↔ v = c.value := by
      intro v
      simp [← UInt64.toNat_inj, ← UInt32.toNat_inj]
    cases h : c.last junk e <;> simp [read, decoded, isReserve, lastNumber, h, hinj]
  | reserve a seats => cases h : e.seen <;> simp [read, decoded, isReserve, lastNumber, h]
  | showEvent a => cases h : a.last junk e <;> simp [read, decoded, isReserve, lastNumber, h]
  | wait d threadId =>
    cases threadId with
    | none => cases h : d.last junk e <;> simp [read, decoded, isReserve, lastNumber, h]
    | some t =>
      cases target with
      | true => cases h : t.last junk e <;> simp [read, decoded, isReserve, lastNumber, h]
      | false => simp [read, decoded, isReserve, lastNumber]
  | _ => simp [read, isReserve, lastNumber]

end Line

/-- The text of some lines that are all ended by a newline, and of one that is not. -/
def unfinished (lines : List (Line Number)) (l : Line Number) : List UInt8 :=
  joined (lines.map (Line.text Number.digits)) ++ l.text Number.digits

/-- The last line alone. -/
theorem decodeAll_last {barrier : Bool} (target : Bool) (junk : List UInt8) {l : Line Number} (tail : Tail)
    (hvalid : l.Valid barrier) (hne : l.text Number.digits ++ tail.bytes ≠ [])
    (hrest : tail.rest = []) :
    decodeAll (next barrier target junk) (l.text Number.digits ++ tail.bytes) =
      some [(l.read target junk (Ending.ofTail tail)).getD .invalid] := by
  have hdec := next_decoder barrier target junk
  have hrun := run_line target junk tail hvalid hne
  rw [decodeAll_step hdec hne hrun, hrest, decodeAll_nil hdec]
  rfl

theorem Line.decoded_ne_invalid {ν : Type} (target : Bool) (value : ν → UInt32) (l : Line ν) :
    l.decoded target value ≠ .invalid := by
  cases l <;> simp [Line.decoded]

/-- **Exactly then** both parsers make the same of a job file and of the file with the
missing newline. -/
theorem last_line_iff {barrier target : Bool} (junk junk' : List UInt8)
    {lines : List (Line Number)} {l : Line Number} (hlines : ∀ x ∈ lines, x.WellFormed barrier)
    (hl : l.WellFormed barrier) (hne : l.text Number.digits ≠ []) :
    decodeAll (next barrier target junk) (unfinished lines l) =
        decodeAll (next barrier target junk') (unfinished lines l ++ [nl]) ↔
      l.isReserve = false ∧ ∀ n, l.lastNumber target = some n → n.Quiet junk := by
  have hbefore : ∀ x ∈ lines, x.Valid barrier := fun x hx => (hlines x hx).valid
  -- up to the last line both files are the same
  have heof : decodeAll (next barrier target junk) (unfinished lines l) =
      some (lines.map (Line.decoded target Number.value) ++
        [(l.read target junk .eof).getD .invalid]) := by
    have hlast := decodeAll_last target junk none hl.valid (by simp [hne]) rfl
    rw [show Tail.bytes none = [] from rfl, List.append_nil] at hlast
    unfold unfinished
    rw [decodeAll_lines target junk hbefore, hlast]
    rfl
  have hnewline : decodeAll (next barrier target junk') (unfinished lines l ++ [nl]) =
      some (lines.map (Line.decoded target Number.value) ++ [l.decoded target Number.value]) := by
    have hlast := decodeAll_last target junk' (some []) hl.valid
      (by simp [Tail.bytes]) rfl
    rw [show Tail.bytes (some []) = [nl] from rfl,
      show Ending.ofTail (some []) = .newline [] from rfl, l.read_newline] at hlast
    unfold unfinished
    rw [List.append_assoc, decodeAll_lines target junk' hbefore, hlast]
    rfl
  have hread : (l.read target junk .eof).getD .invalid = l.decoded target Number.value ↔
      l.read target junk .eof = some (l.decoded target Number.value) := by
    cases l.read target junk .eof with
    | none => simpa using Ne.symm (l.decoded_ne_invalid target Number.value)
    | some d => simp
  -- the last number is all that the missing newline may change
  have hquiet : (∀ n, l.lastNumber target = some n → n.last junk .eof = some n.value) ↔
      ∀ n, l.lastNumber target = some n → n.Quiet junk := by
    refine forall_congr' fun n => forall_congr' fun hn => ?_
    exact Number.last_eof_iff (hl.complete n (Line.lastNumber_mem hn))
  rw [heof, hnewline, Option.some_inj, List.append_right_inj, List.singleton_inj, hread,
    Line.read_eq_decoded_iff, hquiet]
  simp [Ending.seen]

/-- A `SHOW` at the end of the file, and an empty buffer. -/
theorem last_line_iff_show :
    decodeAll (next true true []) (unfinished [.listEvents] (.showEvent (Number.print 17))) =
      decodeAll (next true true [])
        (unfinished [.listEvents] (.showEvent (Number.print 17)) ++ [nl]) := by
  have hlist : ∀ x ∈ [(.listEvents : Line Number)], x.WellFormed true := by
    intro x hx
    rw [List.mem_singleton.mp hx]
    exact ⟨trivial, nofun⟩
  have hshow : (Line.showEvent (Number.print 17)).WellFormed true := by
    refine ⟨trivial, fun n hn => ?_⟩
    rw [List.mem_singleton.mp hn]
    decide
  refine (last_line_iff [] [] hlist hshow (by decide)).mpr ⟨rfl, fun n hn => ?_⟩
  cases hn
  exact Or.inl (by decide)

/-- Without its newline a `RESERVE` is refused, and a `SHOW 1` shows the event 17 when
the buffer still holds the digits of one. -/
theorem last_line_lost :
    decodeAll (next true true []) (bytes "RESERVE 1 [(1,1)]") = some [.invalid] ∧
    decodeAll (next true true []) (bytes "RESERVE 1 [(1,1)]\n") = some [.reserve 1 [(1, 1)]] ∧
    decodeAll (next false false []) (bytes "RESERVE 1 [(1,1)]") = some [.invalid] ∧
    decodeAll (next false false []) (bytes "RESERVE 1 [(1,1)]\n") = some [.reserve 1 [(1, 1)]] ∧
    decodeAll (next true true (bytes "17")) (bytes "SHOW 1") = some [.showEvent 17] ∧
    decodeAll (next true true (bytes "17")) (bytes "SHOW 1\n") = some [.showEvent 1] ∧
    decodeAll (next false false (bytes "17")) (bytes "SHOW 1") = some [.showEvent 17] ∧
    decodeAll (next false false (bytes "17")) (bytes "SHOW 1\n") = some [.showEvent 1] := by
  decide

end Ems.Parse
