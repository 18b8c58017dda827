import Ems.Parse.Files

/-!
# Job files as they are written

The lines of a job file, and what the parsers make of each of them, without what the
callers do with the result (the job runner refuses a `WAIT` of 0). A `Line ν` has
numbers of the type `ν`: digits (`Number`) for a line as it is in the file, values for
a line to be printed.

A number may be empty and a line may end with a NUL: the parsers accept that too. So
there is one lemma for each parser on a text with any digits and any `Ending`
(`run_create_text` and so on), and `run_line_newline` puts them together for a line with
its newline. What `strtoul` does at the end of the file, where nothing ends the digits
in the buffer, is `Number.buffered`.
-/

namespace Ems.Parse

open Base

/-! ## Numbers -/

/-- Digits of an `unsigned int` that leave room in the reader's buffer. There may be
none. -/
@[ext] structure Number where
  digits : List UInt8
  numeral : Numeral digits
  short : digits.length ≤ 15
  fits : decimal digits ≤ uintMax

def Number.value (n : Number) : UInt32 := UInt32.ofNat (decimal n.digits)

/-- What `strtoul` sees when nothing ends the digits in the buffer. -/
def Number.buffered (junk : List UInt8) (n : Number) : Nat :=
  strtoul (n.digits ++ junk.drop n.digits.length)

/-- What the parsers take for the end of a line, and the file behind it. -/
inductive Ending where
  | newline (rest : List UInt8)
  | nul (rest : List UInt8)
  | eof

def Ending.bytes : Ending → List UInt8
  | .newline rest => nl :: rest
  | .nul rest => 0 :: rest
  | .eof => []

def Ending.rest : Ending → List UInt8
  | .newline rest => rest
  | .nul rest => rest
  | .eof => []

/-- What really ends a line. -/
def Ending.ofTail : Tail → Ending
  | none => .eof
  | some rest => .newline rest

/-- The ending of a line has the bytes of its tail. -/
@[simp] theorem Ending.ofTail_bytes (tail : Tail) : (Ending.ofTail tail).bytes = tail.bytes := by
  cases tail <;> rfl

/-- And what is behind it. -/
@[simp] theorem Ending.ofTail_rest (tail : Tail) : (Ending.ofTail tail).rest = tail.rest := by
  cases tail <;> rfl

/-- There is a byte at the end of the line. -/
def Ending.seen : Ending → Bool
  | .eof => false
  | _ => true

/-- The value that the reader makes of the last number of a line, if it does not refuse
it. -/
def Number.last (junk : List UInt8) (n : Number) : Ending → Option UInt32
  | .eof =>
    if uintMax < n.buffered junk then none else some (UInt32.ofNat (n.buffered junk))
  | _ => some n.value

/-! ## Lines -/

/-- A line of a job file. -/
inductive Line (ν : Type) where
  | create (eventId numRows numCols : ν)
  | reserve (eventId : ν) (seats : List (ν × ν))
  | showEvent (eventId : ν)
  | listEvents
  | barrier
  | wait (delay : ν) (threadId : Option ν)
  | help
  | comment (text : List UInt8)
  | blank

namespace Line

variable {ν : Type}

/-- The pairs behind the opening bracket. -/
def seatsText (spell : ν → List UInt8) : List (ν × ν) → List UInt8
  | [] => []
  | [(x, y)] => 40 :: (spell x ++ 44 :: (spell y ++ [41, 93]))
  | (x, y) :: seats => 40 :: (spell x ++ 44 :: (spell y ++ 41 :: 32 :: seatsText spell seats))

/-- A seat, and the blank before the next one. -/
theorem seatsText_cons_cons (spell : ν → List UInt8) (x y : ν) (seat : ν × ν)
    (seats : List (ν × ν)) : seatsText spell ((x, y) :: seat :: seats) =
      40 :: (spell x ++ 44 :: (spell y ++ 41 :: 32 :: seatsText spell (seat :: seats))) := rfl

/-- The last seat and the bracket. -/
theorem seatsText_last (spell : ν → List UInt8) (x y : ν) (s : List UInt8) :
    seatsText spell [(x, y)] ++ s = 40 :: (spell x ++ 44 :: (spell y ++ 41 :: 93 :: s)) := by
  simp [seatsText]

/-- A seat with more behind it. -/
theorem seatsText_more (spell : ν → List UInt8) (x y : ν) (seat : ν × ν) (seats : List (ν × ν))
    (s : List UInt8) : seatsText spell ((x, y) :: seat :: seats) ++ s =
      40 :: (spell x ++ 44 :: (spell y ++ 41 :: 32 :: (seatsText spell (seat :: seats) ++ s))) := by
  simp [seatsText_cons_cons]

/-- The line without what ends it. -/
def text (spell : ν → List UInt8) : Line ν → List UInt8
  | .create eventId numRows numCols =>
    bytes "CREATE " ++ (spell eventId ++ 32 :: (spell numRows ++ 32 :: spell numCols))
  | .reserve eventId seats =>
    bytes "RESERVE " ++ (spell eventId ++ 32 :: 91 :: seatsText spell seats)
  | .showEvent eventId => bytes "SHOW " ++ spell eventId
  | .listEvents => bytes "LIST"
  | .barrier => bytes "BARRIER"
  | .wait delay none => bytes "WAIT " ++ spell delay
  | .wait delay (some threadId) => bytes "WAIT " ++ (spell delay ++ 32 :: spell threadId)
  | .help => bytes "HELP"
  | .comment text => 35 :: text
  | .blank => []

/-- There is room for the seats, `BARRIER` is known, and a comment is on its line. -/
def Valid (barrier : Bool) : Line ν → Prop
  | .reserve _ seats => seats ≠ [] ∧ seats.length < maxReservationSize
  | .barrier => barrier = true
  | .comment text => nl ∉ text
  | _ => True

/-- All numbers of the line. -/
def numbers : Line ν → List ν
  | .create eventId numRows numCols => [eventId, numRows, numCols]
  | .reserve eventId seats => eventId :: seats.flatMap fun s => [s.1, s.2]
  | .showEvent eventId => [eventId]
  | .wait delay threadId => delay :: threadId.toList
  | _ => []

/-- Pairs as the parser stores them. -/
def coords (value : ν → UInt32) (seats : List (ν × ν)) : List (UInt64 × UInt64) :=
  seats.map fun s => ((value s.1).toUInt64, (value s.2).toUInt64)

/-- The line's command and arguments. Without a pointer for it a thread id is skipped. -/
def decoded (target : Bool) (value : ν → UInt32) : Line ν → Decoded
  | .create eventId numRows numCols =>
    .create (value eventId) (value numRows).toUInt64 (value numCols).toUInt64
  | .reserve eventId seats => .reserve (value eventId) (coords value seats)
  | .showEvent eventId => .showEvent (value eventId)
  | .listEvents => .listEvents
  | .barrier => .barrier
  | .wait delay threadId =>
    .wait (value delay) (if target then threadId.map value else none)
  | .help => .help
  | .comment _ => .empty
  | .blank => .empty

/-- What the parsers make of the line, if they accept it: the last number is not like the
others, and behind a bracket there has to be another byte. -/
def read (target : Bool) (junk : List UInt8) (e : Ending) : Line Number → Option Decoded
  | .create eventId numRows numCols =>
    (numCols.last junk e).map fun v => .create eventId.value numRows.value.toUInt64 v.toUInt64
  | .reserve eventId seats =>
    if e.seen then some (.reserve eventId.value (coords Number.value seats)) else none
  | .showEvent eventId => (eventId.last junk e).map .showEvent
  | .wait delay none => (delay.last junk e).map fun v => .wait v none
  | .wait delay (some threadId) =>
    if target then (threadId.last junk e).map fun v => .wait delay.value (some v)
    else some (.wait delay.value none)
  | l => some (l.decoded target Number.value)

end Line

/-! ## Reading numbers -/

/-- A number of the grammar is in the range of `unsigned int`. -/
theorem Number.fits_value (n : Number) :
    (if uintMax < decimal n.digits then none else some (UInt32.ofNat (decimal n.digits))) =
      some n.value := if_neg (Nat.not_lt.mpr n.fits)

/-- A byte ends the number. -/
theorem Number.run_readUint (n : Number) {c : UInt8} (hc : isDigit c = false)
    (junk s : List UInt8) :
    (readUint junk).run (n.digits ++ c :: s) = some ((some n.value, c), s) := by
  rw [Parse.run_readUint junk s n.numeral n.short hc, n.fits_value]

/-- The reader on the last number of a line. -/
theorem Number.run_readUint_end (n : Number) (e : Ending) (junk : List UInt8) :
    ∃ c, isEnd c = true ∧ c ≠ 32 ∧
      (readUint junk).run (n.digits ++ e.bytes) = some ((n.last junk e, c), e.rest) := by
  cases e with
  | newline rest => exact ⟨nl, by decide, by decide, n.run_readUint (by decide) junk rest⟩
  | nul rest => exact ⟨0, by decide, by decide, n.run_readUint (by decide) junk rest⟩
  | eof =>
    refine ⟨0, by decide, by decide, ?_⟩
    rw [show Ending.bytes .eof = [] from rfl, List.append_nil, run_readUint_last junk n.numeral n.short]
    rfl

/-! ## The parsers on their texts -/

section
variable {β : Type} {junk s : List UInt8} {accept : UInt8 → Bool}

/-- A number and its separator are read. -/
theorem run_field_sep {next : UInt32 → Reading (Option β)} {sep : UInt8}
    (hacc : accept sep = true) (hsep : isDigit sep = false) (n : Number) :
    (field junk accept next).run (n.digits ++ sep :: s) = (next n.value).run s := by
  unfold field
  rw [Reading.run_bind, n.run_readUint hsep, Option.bind_some]
  simp only [hacc, Bool.not_true, Bool.false_eq_true, if_false]

/-- The last number of a line, with what the buffer held before. -/
theorem run_field_end (value : UInt32 → β) (n : Number) (e : Ending) :
    (field junk isEnd fun v => pure (some (value v))).run (n.digits ++ e.bytes) =
      some ((n.last junk e).map value, e.rest) := by
  obtain ⟨c, hc, -, hrun⟩ := n.run_readUint_end e junk
  unfold field
  rw [Reading.run_bind, hrun, Option.bind_some]
  cases hlast : n.last junk e with
  | some v => simp only [hc, Bool.not_true, Bool.false_eq_true, if_false, Reading.run_pure,
      Option.map_some]
  | none =>
    -- only at the end of the file a number is refused
    cases e with
    | newline rest => cases hlast
    | nul rest => cases hlast
    | eof => rfl

/-- A byte that is accepted. -/
theorem run_byte {next : UInt8 → Reading (Option β)} {c : UInt8} (hacc : accept c = true) :
    (byte accept next).run (c :: s) = (next c).run s := by
  simp [byte, hacc]

end

section
variable (junk : List UInt8) (e : Ending)

/-- The arguments of CREATE are read. -/
theorem run_create_text (a b c : Number) :
    (parseCreate junk).run (a.digits ++ 32 :: (b.digits ++ 32 :: (c.digits ++ e.bytes))) =
      some ((c.last junk e).map fun v => (a.value, b.value.toUInt64, v.toUInt64), e.rest) := by
  unfold parseCreate
  rw [run_field_sep (by decide) (by decide), run_field_sep (by decide) (by decide)]
  exact run_field_end (fun v : UInt32 => (a.value, b.value.toUInt64, v.toUInt64)) c e

/-- The argument of SHOW is read. -/
theorem run_show_text (a : Number) :
    (parseShow junk).run (a.digits ++ e.bytes) = some (a.last junk e, e.rest) := by
  have h : (parseShow junk).run (a.digits ++ e.bytes) = some ((a.last junk e).map id, e.rest) :=
    run_field_end id a e
  rwa [Option.map_id] at h

/-- What is behind the last seat is read. -/
theorem run_finish_text {max : Nat} {eventId : UInt32} {coords : List (UInt64 × UInt64)}
    (h : coords.length ≠ max) :
    (finishReserve max eventId coords).run e.bytes =
      some (if e.seen then some (eventId, coords) else none, e.rest) := by
  unfold finishReserve
  rw [if_neg h]
  cases e <;> rfl

/-- A pair, and the byte behind it. -/
theorem run_pair_text {max left : Nat} {eventId : UInt32} {coords : List (UInt64 × UInt64)}
    (x y : Number) {c : UInt8} (hc : is ' ' c = true ∨ is ']' c = true) (s : List UInt8) :
    (parseCoords junk max eventId (left + 1) coords).run
        (40 :: (x.digits ++ 44 :: (y.digits ++ 41 :: c :: s))) =
      (if is ']' c then
        finishReserve max eventId (coords ++ [(x.value.toUInt64, y.value.toUInt64)])
      else parseCoords junk max eventId left
        (coords ++ [(x.value.toUInt64, y.value.toUInt64)])).run s := by
  conv_lhs => unfold parseCoords
  rw [run_byte (by decide), run_field_sep (by decide) (by decide),
    run_field_sep (by decide) (by decide), run_byte (by rw [Bool.or_eq_true]; exact hc)]

/-- By induction on the seats that are still to be read. -/
theorem run_coords_text {max left : Nat} {eventId : UInt32} {coords : List (UInt64 × UInt64)}
    {seats : List (Number × Number)} (hleft : coords.length + left = max)
    (hne : seats ≠ []) (hlen : seats.length < left) :
    (parseCoords junk max eventId left coords).run (Line.seatsText Number.digits seats ++ e.bytes) =
      some (if e.seen then some (eventId, coords ++ Line.coords Number.value seats) else none,
        e.rest) := by
  induction seats generalizing left coords with
  | nil => exact absurd rfl hne
  | cons seat seats ih =>
    obtain ⟨x, y⟩ := seat
    obtain ⟨left, rfl⟩ := Nat.exists_eq_add_of_lt (Nat.zero_lt_of_lt hlen)
    rw [Nat.zero_add] at hleft hlen ⊢
    rw [List.length_cons] at hlen
    have hlength : (coords ++ [(x.value.toUInt64, y.value.toUInt64)]).length = coords.length + 1 :=
      List.length_append
    cases seats with
    | nil =>
      rw [Line.seatsText_last, run_pair_text junk x y (Or.inr (by decide)), if_pos (by decide)]
      exact run_finish_text e (by rw [hlength]; simp at hlen; omega)
    | cons seat' seats =>
      rw [Line.seatsText_more, run_pair_text junk x y (Or.inl (by decide)), if_neg (by decide),
        ih (by rw [hlength]; omega) (List.cons_ne_nil _ _) (by omega)]
      simp [Line.coords]

/-- The arguments of RESERVE are read. -/
theorem run_reserve_text (a : Number) {seats : List (Number × Number)} (hne : seats ≠ [])
    (hlen : seats.length < maxReservationSize) :
    (parseReserve junk maxReservationSize).run
        (a.digits ++ 32 :: 91 :: (Line.seatsText Number.digits seats ++ e.bytes)) =
      some (if e.seen then some (a.value, Line.coords Number.value seats) else none, e.rest) := by
  unfold parseReserve
  rw [run_field_sep (by decide) (by decide), run_byte (by decide),
    run_coords_text junk e (Nat.zero_add _) hne hlen, List.nil_append]

/-- The delay of WAIT is read. -/
theorem run_wait_text (target : Bool) (d : Number) :
    (parseWait junk target).run (d.digits ++ e.bytes) =
      some ((d.last junk e).map fun v => (v, none), e.rest) := by
  obtain ⟨c, hc, hsp, hrun⟩ := d.run_readUint_end e junk
  have hsp' : ¬ c = ' '.toUInt8 := hsp
  unfold parseWait
  rw [Reading.run_bind, hrun, Option.bind_some]
  cases hlast : d.last junk e with
  | some v => simp only [if_neg hsp', hc, if_true, Reading.run_pure, Option.map_some]
  | none =>
    cases e with
    | newline rest => cases hlast
    | nul rest => cases hlast
    | eof => rfl

/-- The delay and the thread of WAIT are read. -/
theorem run_wait_thread_text (d t : Number) :
    (parseWait junk true).run (d.digits ++ 32 :: (t.digits ++ e.bytes)) =
      some ((t.last junk e).map fun v => (d.value, some v), e.rest) := by
  unfold parseWait
  rw [Reading.run_bind, d.run_readUint (by decide), Option.bind_some]
  exact run_field_end (fun v => (d.value, some v)) t e

/-- Without a pointer the rest of the line goes. -/
theorem run_wait_skip_text (d : Number) (s : List UInt8) :
    (parseWait junk false).run (d.digits ++ 32 :: s) =
      some (some (d.value, none), dropLine s) := by
  unfold parseWait
  rw [Reading.run_bind, d.run_readUint (by decide), Option.bind_some]
  rfl

end

/-! ## Whole lines -/

/-- The line has arguments, in the form that `target` asks for. -/
def Line.HasArguments {ν : Type} (target : Bool) : Line ν → Prop
  | .create .. => True
  | .reserve .. => True
  | .showEvent .. => True
  | .wait _ none => True
  | .wait _ (some _) => target = true
  | _ => False

/-- CREATE. -/
theorem run_getNext_create (barrier : Bool) (s : List UInt8) :
    (getNext barrier).run (bytes "CREATE " ++ s) = some (.create, s) := rfl

/-- RESERVE. -/
theorem run_getNext_reserve (barrier : Bool) (s : List UInt8) :
    (getNext barrier).run (bytes "RESERVE " ++ s) = some (.reserve, s) := rfl

/-- SHOW with its blank. -/
theorem run_getNext_show (barrier : Bool) (s : List UInt8) :
    (getNext barrier).run (bytes "SHOW " ++ s) = some (.showEvent, s) := rfl

/-- WAIT. -/
theorem run_getNext_wait (barrier : Bool) (s : List UInt8) :
    (getNext barrier).run (bytes "WAIT " ++ s) = some (.wait, s) := by
  cases barrier <;> rfl

/-- The command, and then its arguments. -/
theorem run_next {barrier target : Bool} {junk s s' : List UInt8} {command : Command}
    (h : (getNext barrier).run s = some (command, s')) :
    (next barrier target junk).run s = (arguments junk target command).run s' := by
  unfold next
  rw [Reading.run_bind, h, Option.bind_some]

/-- A line with arguments, whatever ends it. -/
theorem run_line_arguments {barrier target : Bool} (junk : List UInt8) {l : Line Number}
    (hvalid : l.Valid barrier) (hargs : l.HasArguments target) (e : Ending) :
    (next barrier target junk).run (l.text Number.digits ++ e.bytes) =
      some ((l.read target junk e).getD .invalid, e.rest) := by
  cases l with
  | create a b c =>
    rw [Line.text, List.append_assoc, run_next (run_getNext_create barrier _)]
    have h := run_create_text junk e a b c
    simp only [List.append_assoc, List.cons_append, arguments, Reading.run_bind, h, Option.bind_some,
      Line.read]
    cases c.last junk e <;> rfl
  | reserve a seats =>
    rw [Line.text, List.append_assoc, run_next (run_getNext_reserve barrier _)]
    have h := run_reserve_text junk e a hvalid.1 hvalid.2
    simp only [List.append_assoc, List.cons_append, arguments, Reading.run_bind, h, Option.bind_some,
      Line.read]
    cases e.seen <;> rfl
  | showEvent a =>
    rw [Line.text, List.append_assoc, run_next (run_getNext_show barrier _)]
    simp only [arguments, Reading.run_bind, run_show_text junk e a, Option.bind_some, Line.read]
    cases a.last junk e <;> rfl
  | wait d threadId =>
    cases threadId with
    | none =>
      rw [Line.text, List.append_assoc, run_next (run_getNext_wait barrier _)]
      simp only [arguments, Reading.run_bind, run_wait_text junk e target d, Option.bind_some,
        Line.read]
      cases d.last junk e <;> rfl
    | some t =>
      have htarget : target = true := hargs
      rw [Line.text, List.append_assoc, run_next (run_getNext_wait barrier _), htarget]
      simp only [List.append_assoc, List.cons_append, arguments, Reading.run_bind,
        run_wait_thread_text junk e d t, Option.bind_some, Line.read, if_true]
      cases t.last junk e <;> rfl
  | listEvents => exact hargs.elim
  | barrier => exact hargs.elim
  | help => exact hargs.elim
  | comment text => exact hargs.elim
  | blank => exact hargs.elim

/-- A number has no newline. -/
theorem Number.digit_ne_nl (n : Number) : nl ∉ n.digits :=
  fun h => absurd (n.numeral nl h) (by decide)

/-- A line that is not ended by a NUL. -/
theorem run_line {barrier : Bool} (target : Bool) (junk : List UInt8) {l : Line Number} (tail : Tail)
    (hvalid : l.Valid barrier) (hne : l.text Number.digits ++ tail.bytes ≠ []) :
    (next barrier target junk).run (l.text Number.digits ++ tail.bytes) =
      some ((l.read target junk (Ending.ofTail tail)).getD .invalid, tail.rest) := by
  by_cases hargs : l.HasArguments target
  · have h := run_line_arguments junk hvalid hargs (Ending.ofTail tail)
    rwa [Ending.ofTail_bytes, Ending.ofTail_rest] at h
  cases l with
  | create a b c => exact absurd trivial hargs
  | reserve a seats => exact absurd trivial hargs
  | showEvent a => exact absurd trivial hargs
  | wait d threadId =>
    cases threadId with
    | none => exact absurd trivial hargs
    | some t =>
      have htarget : target = false := (Bool.not_eq_true target).mp hargs
      rw [Line.text, List.append_assoc, run_next (run_getNext_wait barrier _), htarget]
      simp only [List.append_assoc, List.cons_append, arguments, Reading.run_bind,
        run_wait_skip_text junk d, Option.bind_some, dropLine_line t.digit_ne_nl tail]
      rfl
  | listEvents =>
    have h : (getNext barrier).run (bytes "LIST" ++ tail.bytes) = some (.listEvents, tail.rest) := by
      cases tail <;> rfl
    exact run_next h
  | barrier =>
    have hbarrier : barrier = true := hvalid
    have h : (getNext true).run (bytes "BARRIER" ++ tail.bytes) = some (.barrier, tail.rest) := by
      cases tail <;> rfl
    rw [hbarrier]
    exact run_next h
  | help =>
    have h : (getNext barrier).run (bytes "HELP" ++ tail.bytes) = some (.help, tail.rest) := by
      cases barrier <;> cases tail <;> rfl
    exact run_next h
  | comment text =>
    have h : (getNext barrier).run (35 :: (text ++ tail.bytes)) =
        some (.empty, dropLine (text ++ tail.bytes)) := by
      cases barrier <;> rfl
    rw [dropLine_line hvalid tail] at h
    exact run_next h
  | blank =>
    cases tail with
    | none => exact absurd rfl hne
    | some rest =>
      have h : (getNext barrier).run (nl :: rest) = some (.empty, rest) := by
        cases barrier <;> rfl
      exact run_next h

/-- With a newline behind it nothing of the line depends on the stack. -/
theorem Line.read_newline {target : Bool} {junk : List UInt8} (l : Line Number)
    (rest : List UInt8) :
    l.read target junk (.newline rest) = some (l.decoded target Number.value) := by
  cases l with
  | wait d threadId =>
    cases threadId with
    | none => cases target <;> rfl
    | some t => cases target <;> rfl
  | _ => rfl

/-- A line with its newline. -/
theorem run_line_newline {barrier : Bool} (target : Bool) (junk : List UInt8) {l : Line Number}
    (hvalid : l.Valid barrier) (rest : List UInt8) :
    (next barrier target junk).run (l.text Number.digits ++ nl :: rest) =
      some (l.decoded target Number.value, rest) := by
  have h := run_line target junk (some rest) hvalid (by simp [Tail.bytes])
  rwa [show Ending.ofTail (some rest) = .newline rest from rfl, l.read_newline rest] at h

end Ems.Parse
