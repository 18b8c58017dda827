import Ems.Parse.RoundTrip
import Ems.Parse.Stack

/-!
# The limit of a reservation

`parse_reserve` gets two arrays of `max` entries and stores the coordinates there while it
reads them. One counter says where the next pair goes and, behind the loop, whether there
were too many of them: when it has come to `max` the line is refused. A line with exactly
`max` seats comes to `max` too, and is refused although there was room for it
(`reserves_up_to_iff`).

`parseReserveInto` is `parse_reserve` with its arrays; a store behind their end is
undefined. What is in them when it returns are the pairs of `parseReserve`
(`parseReserveInto_run`).
-/

namespace Ems.Parse

open Base

/-- What `parse_reserve` returns, and what its pointers point to then. -/
structure Reserved where
  numCoords : Nat
  eventId : UInt32
  xs : List UInt64
  ys : List UInt64
deriving DecidableEq, Repr

/-- `array[i] = (size_t)value` -/
def store (array : List UInt64) (i : Nat) (value : UInt32) : Reading (List UInt64) :=
  if i < array.length then pure (array.set i value.toUInt64) else .undefined

/-- `parse_reserve` after its loop. -/
def finishInto (max : Nat) (eventId : UInt32) (numCoords : Nat) (xs ys : List UInt64) :
    Reading (Option Reserved) :=
  if numCoords = max then fail
  else byte isEnd fun _ => pure (some ⟨numCoords, eventId, xs, ys⟩)

/-- The loop of `parse_reserve`; `max - num_coords` iterations are left. -/
def coordsInto (junk : List UInt8) (max : Nat) (eventId : UInt32) :
    Nat → Nat → List UInt64 → List UInt64 → Reading (Option Reserved)
  | 0, numCoords, xs, ys => finishInto max eventId numCoords xs ys
  | left + 1, numCoords, xs, ys =>
    byte (is '(') fun _ =>
    field junk (is ',') fun x => do
    let xs ← store xs numCoords x
    field junk (is ')') fun y => do
    let ys ← store ys numCoords y
    byte (fun ch => is ' ' ch || is ']' ch) fun ch =>
    if is ']' ch then finishInto max eventId (numCoords + 1) xs ys
    else coordsInto junk max eventId left (numCoords + 1) xs ys

/-- `parse_reserve` on the arrays `xs` and `ys`; `none` is a returned 0, and what is in the
arrays then is not used by the callers. -/
def parseReserveInto (junk : List UInt8) (max : Nat) (xs ys : List UInt64) :
    Reading (Option Reserved) :=
  field junk (is ' ') fun eventId =>
  byte (is '[') fun _ =>
  coordsInto junk max eventId max 0 xs ys

/-! ## The arrays -/

/-- An array that begins with these values. -/
def into (values array : List UInt64) : List UInt64 := values ++ array.drop values.length

/-- The arrays that hold the pairs. -/
def Reserved.of (xs ys : List UInt64) (r : UInt32 × List (UInt64 × UInt64)) : Reserved :=
  ⟨r.2.length, r.1, into (r.2.map Prod.fst) xs, into (r.2.map Prod.snd) ys⟩

section

variable {β γ : Type} {junk : List UInt8} {accept : UInt8 → Bool}

theorem into_take (values array : List UInt64) : (into values array).take values.length = values :=
  List.take_left' rfl

/-- The next value is stored behind the others. -/
theorem run_store {values array : List UInt64} (h : values.length < array.length) (value : UInt32)
    (s : List UInt8) : (store (into values array) values.length value).run s =
      some (into (values ++ [value.toUInt64]) array, s) := by
  have hlen : values.length < (into values array).length := by
    unfold into
    rw [List.length_append, List.length_drop]
    omega
  unfold store
  rw [if_pos hlen, Reading.run_pure]
  unfold into
  rw [set_behind h]

/-- The same fields, with other results. -/
theorem run_field_map {g : β → γ} {next : UInt32 → Reading (Option β)}
    {next' : UInt32 → Reading (Option γ)}
    (h : ∀ v s, (next' v).run s = ((next v).run s).map fun r => (r.1.map g, r.2)) (s : List UInt8) :
    (field junk accept next').run s =
      ((field junk accept next).run s).map fun r => (r.1.map g, r.2) := by
  unfold field
  apply Reading.run_bind_map
  intro r s
  obtain ⟨value, ch⟩ := r
  cases value with
  | none => rfl
  | some value =>
    dsimp only
    split
    next => rfl
    next => exact h value s

theorem run_byte_map {g : β → γ} {next : UInt8 → Reading (Option β)}
    {next' : UInt8 → Reading (Option γ)}
    (h : ∀ ch s, (next' ch).run s = ((next ch).run s).map fun r => (r.1.map g, r.2))
    (s : List UInt8) :
    (byte accept next').run s = ((byte accept next).run s).map fun r => (r.1.map g, r.2) := by
  unfold byte
  apply Reading.run_bind_map
  intro bs s
  cases bs with
  | nil => rfl
  | cons ch _ =>
    dsimp only
    split
    next => rfl
    next => exact h ch s

end

section

variable {junk : List UInt8} {max : Nat} {xs ys : List UInt64} {eventId : UInt32}

theorem finishInto_run (coords : List (UInt64 × UInt64)) (s : List UInt8) :
    (finishInto max eventId coords.length (into (coords.map Prod.fst) xs)
        (into (coords.map Prod.snd) ys)).run s =
      ((finishReserve max eventId coords).run s).map fun r => (r.1.map (Reserved.of xs ys), r.2) := by
  unfold finishInto finishReserve
  split
  next => rfl
  next => exact run_byte_map (fun _ _ => rfl) s

/-- By induction on the iterations that are left: as many entries of the arrays are. -/
theorem coordsInto_run (hxs : xs.length = max) (hys : ys.length = max) (left : Nat) :
    ∀ {coords : List (UInt64 × UInt64)}, coords.length + left = max → ∀ s,
      (coordsInto junk max eventId left coords.length (into (coords.map Prod.fst) xs)
          (into (coords.map Prod.snd) ys)).run s =
        ((parseCoords junk max eventId left coords).run s).map
          fun r => (r.1.map (Reserved.of xs ys), r.2) := by
  induction left with
  | zero => exact fun _ s => finishInto_run _ s
  | succ left ih =>
    intro coords hleft s
    unfold coordsInto parseCoords
    refine run_byte_map (fun _ s => run_field_map (fun x s => ?_) s) s
    have hx : (coords.map Prod.fst).length < xs.length := by
      rw [List.length_map]
      omega
    have hy : (coords.map Prod.snd).length < ys.length := by
      rw [List.length_map]
      omega
    have hstore := run_store hx x s
    rw [List.length_map] at hstore
    rw [Reading.run_bind, hstore, Option.bind_some]
    refine run_field_map (fun y s => ?_) s
    have hstore := run_store hy y s
    rw [List.length_map] at hstore
    rw [Reading.run_bind, hstore, Option.bind_some]
    refine run_byte_map (fun ch s => ?_) s
    -- the arrays have one more entry
    have hnext : coords.length + 1 = (coords ++ [(x.toUInt64, y.toUInt64)]).length := by
      rw [List.length_append, List.length_singleton]
    have hfst : coords.map Prod.fst ++ [x.toUInt64] =
        (coords ++ [(x.toUInt64, y.toUInt64)]).map Prod.fst := by
      rw [List.map_append, List.map_singleton]
    have hsnd : coords.map Prod.snd ++ [y.toUInt64] =
        (coords ++ [(x.toUInt64, y.toUInt64)]).map Prod.snd := by
      rw [List.map_append, List.map_singleton]
    rw [hnext, hfst, hsnd]
    split
    next => exact finishInto_run _ s
    next => exact ih (by rw [← hnext]; omega) s

/-- With arrays of `max` entries nothing is stored behind their end, and they hold the
pairs that were read. -/
theorem parseReserveInto_run (hxs : xs.length = max) (hys : ys.length = max) (s : List UInt8) :
    (parseReserveInto junk max xs ys).run s =
      ((parseReserve junk max).run s).map fun r => (r.1.map (Reserved.of xs ys), r.2) := by
  unfold parseReserveInto parseReserve
  apply run_field_map
  intro eventId s
  apply run_byte_map
  intro _ s
  exact @coordsInto_run junk max xs ys eventId hxs hys max [] (Nat.zero_add _) s

end

/-! ## Too many seats -/

/-- There is no newline between the brackets. -/
theorem nl_notMem_seatsText (seats : List (Number × Number)) :
    nl ∉ Line.seatsText Number.digits seats := by
  induction seats with
  | nil => exact List.not_mem_nil
  | cons seat seats ih =>
    obtain ⟨x, y⟩ := seat
    have hx := x.digit_ne_nl
    have hy := y.digit_ne_nl
    cases seats with
    | nil =>
      simp [Line.seatsText, hx, hy]
      decide
    | cons seat' seats =>
      simp [Line.seatsText_cons_cons, hx, hy, ih]
      decide

/-- Where the loop ends with `max` pairs the line is refused, and skipped. -/
theorem run_finish_full {max : Nat} {eventId : UInt32} {coords : List (UInt64 × UInt64)}
    (hfull : coords.length = max) {line : List UInt8} (hline : nl ∉ line) (rest : List UInt8) :
    (finishReserve max eventId coords).run (line ++ nl :: rest) = some (none, rest) := by
  unfold finishReserve
  rw [if_pos hfull]
  exact congrArg (fun s => some (none, s)) (dropLine_line hline (some rest))

/-- As many seats as there is room for, or more. By induction on the room. -/
theorem run_coords_full (junk : List UInt8) {max : Nat} {eventId : UInt32} (left : Nat)
    (rest : List UInt8) :
    ∀ {coords : List (UInt64 × UInt64)} {seats : List (Number × Number)},
      coords.length + (left + 1) = max → left + 1 ≤ seats.length →
      (parseCoords junk max eventId (left + 1) coords).run
        (Line.seatsText Number.digits seats ++ nl :: rest) = some (none, rest) := by
  induction left with
  | zero =>
    intro coords seats hleft hlen
    match seats with
    | [(x, y)] =>
      rw [Line.seatsText_last, run_pair_text junk x y (Or.inr (by decide)), if_pos (by decide)]
      exact run_finish_full (by simpa using hleft) List.not_mem_nil rest
    -- more seats than room: the loop ends behind a blank, and the rest of the line is dropped
    | (x, y) :: seat :: seats =>
      rw [Line.seatsText_more, run_pair_text junk x y (Or.inl (by decide)), if_neg (by decide)]
      exact run_finish_full (by simpa using hleft) (nl_notMem_seatsText _) rest
  | succ left ih =>
    intro coords seats hleft hlen
    match seats with
    | [seat] =>
      rw [List.length_singleton] at hlen
      omega
    | (x, y) :: seat :: seats =>
      rw [Line.seatsText_more, run_pair_text junk x y (Or.inl (by decide)), if_neg (by decide)]
      apply ih
      · rw [List.length_append, List.length_singleton]
        omega
      · rw [List.length_cons] at hlen ⊢
        exact Nat.le_of_succ_le_succ hlen

/-! ## The limit -/

/-- What follows `RESERVE ` in a line, and the newline. -/
def reserveText (eventId : UInt32) (seats : List (UInt32 × UInt32)) : List UInt8 :=
  decimalText eventId ++ 32 :: 91 :: (Line.seatsText decimalText seats ++ [nl])

/-- The line is read as far as its newline. With room for its seats in the arrays the call
returns their number, and the arrays begin with them; otherwise it returns 0, and has
stored nothing behind the arrays. -/
def ReservesUpTo (junk : List UInt8) (max : Nat) (eventId : UInt32) (seats : List (UInt32 × UInt32))
    (xs ys : List UInt64) (rest : List UInt8) : Prop :=
  if seats.length ≤ max then
    ∃ xs' ys', (parseReserveInto junk max xs ys).run (reserveText eventId seats ++ rest) =
        some (some ⟨seats.length, eventId, xs', ys'⟩, rest) ∧
      xs'.take seats.length = seats.map (fun s => s.1.toUInt64) ∧
      ys'.take seats.length = seats.map fun s => s.2.toUInt64
  else (parseReserveInto junk max xs ys).run (reserveText eventId seats ++ rest) = some (none, rest)

section

variable {max : Nat} {seats : List (UInt32 × UInt32)}

/-- The seats as they are read. -/
def numbers (seats : List (UInt32 × UInt32)) : List (Number × Number) :=
  seats.map fun s => (Number.print s.1, Number.print s.2)

theorem reserveText_append (eventId : UInt32) (seats : List (UInt32 × UInt32)) (rest : List UInt8) :
    reserveText eventId seats ++ rest = (Number.print eventId).digits ++ 32 :: 91 ::
      (Line.seatsText Number.digits (numbers seats) ++ nl :: rest) := by
  have htext : Line.seatsText Number.digits (numbers seats) = Line.seatsText decimalText seats :=
    Line.seatsText_map Number.print Number.digits seats
  rw [htext]
  unfold reserveText Number.print
  simp only [List.append_assoc, List.cons_append, List.nil_append]

theorem run_reserve_coords (junk : List UInt8) (max : Nat) (eventId : UInt32)
    (seats : List (UInt32 × UInt32)) (rest : List UInt8) :
    (parseReserve junk max).run (reserveText eventId seats ++ rest) =
      (parseCoords junk max eventId max []).run
        (Line.seatsText Number.digits (numbers seats) ++ nl :: rest) := by
  rw [reserveText_append]
  unfold parseReserve
  rw [run_field_sep (by decide) (by decide), run_byte (by decide), Number.print_value]

/-- Fewer seats than entries. -/
theorem run_reserve_below (junk : List UInt8) (eventId : UInt32) (hne : seats ≠ [])
    (hlt : seats.length < max) (rest : List UInt8) :
    (parseReserve junk max).run (reserveText eventId seats ++ rest) =
      some (some (eventId, Line.coords id seats), rest) := by
  have hnumbers : numbers seats ≠ [] := fun hnil => hne (List.map_eq_nil_iff.mp hnil)
  have hcoords : Line.coords Number.value (numbers seats) = Line.coords id seats := by
    unfold Line.coords numbers
    rw [List.map_map]
    apply List.map_congr_left
    intro s _
    simp only [Function.comp, Number.print_value, id]
  have hrun := @run_coords_text junk (.newline rest) max max eventId [] (numbers seats)
    (Nat.zero_add max) hnumbers (by unfold numbers; rwa [List.length_map])
  rw [hcoords] at hrun
  rw [run_reserve_coords]
  exact hrun

/-- As many seats as entries, or more. -/
theorem run_reserve_full (junk : List UInt8) (eventId : UInt32) (hmax : 1 ≤ max)
    (hle : max ≤ seats.length) (rest : List UInt8) :
    (parseReserve junk max).run (reserveText eventId seats ++ rest) = some (none, rest) := by
  obtain ⟨left, rfl⟩ := Nat.exists_eq_add_of_le' hmax
  rw [run_reserve_coords]
  apply run_coords_full junk left rest (Nat.zero_add _)
  unfold numbers
  rwa [List.length_map]

end

/-- **Every reservation up to the limit** is read as it is written, and every longer one
refused, exactly when it is not of that length. -/
theorem reserves_up_to_iff {max : Nat} (hmax : 1 ≤ max) {seats : List (UInt32 × UInt32)}
    (hne : seats ≠ []) {xs ys : List UInt64} (hxs : xs.length = max) (hys : ys.length = max)
    (junk : List UInt8) (eventId : UInt32) (rest : List UInt8) :
    ReservesUpTo junk max eventId seats xs ys rest ↔ seats.length ≠ max := by
  unfold ReservesUpTo
  rw [parseReserveInto_run hxs hys]
  rcases Nat.lt_trichotomy seats.length max with hlt | heq | hgt
  · rw [if_pos (Nat.le_of_lt hlt), run_reserve_below junk eventId hne hlt rest]
    apply iff_of_true ?_ (Nat.ne_of_lt hlt)
    have hfst : (Line.coords id seats).map Prod.fst = seats.map fun s => s.1.toUInt64 := by
      simp [Line.coords]
    have hsnd : (Line.coords id seats).map Prod.snd = seats.map fun s => s.2.toUInt64 := by
      simp [Line.coords]
    refine ⟨into (seats.map fun s => s.1.toUInt64) xs, into (seats.map fun s => s.2.toUInt64) ys,
      ?_, ?_, ?_⟩
    · rw [Option.map_some, Option.map_some, Reserved.of, hfst, hsnd, Line.coords, List.length_map]
    · have htake := into_take (seats.map fun s => s.1.toUInt64) xs
      rwa [List.length_map] at htake
    · have htake := into_take (seats.map fun s => s.2.toUInt64) ys
      rwa [List.length_map] at htake
  · rw [if_pos (Nat.le_of_eq heq), run_reserve_full junk eventId hmax (Nat.le_of_eq heq.symm) rest]
    apply iff_of_false
    · rintro ⟨xs', ys', hrun, _⟩
      cases hrun
    · exact fun hno => hno heq
  · rw [if_neg (Nat.not_le.mpr hgt), run_reserve_full junk eventId hmax (Nat.le_of_lt hgt) rest]
    exact iff_of_true rfl (Nat.ne_of_gt hgt)

/-- Two seats, and room for three. -/
theorem reserves_up_to_two :
    ReservesUpTo [] 3 1 [(1, 2), (3, 4)] [0, 0, 0] [0, 0, 0] [] :=
  (@reserves_up_to_iff 3 (by decide) [(1, 2), (3, 4)] (by decide) [0, 0, 0] [0, 0, 0] rfl rfl
    [] 1 []).mpr (by decide)

/-- As many seats as the arrays of both callers have entries: the line is refused. -/
theorem reserves_no_full_line : ¬ ReservesUpTo [] maxReservationSize 1
    (List.replicate maxReservationSize (1, 1)) (List.replicate maxReservationSize 0)
    (List.replicate maxReservationSize 0) [] := by
  have hlength : (List.replicate maxReservationSize ((1 : UInt32), (1 : UInt32))).length =
      maxReservationSize := List.length_replicate
  unfold ReservesUpTo
  rw [if_pos (Nat.le_of_eq hlength), parseReserveInto_run List.length_replicate
    List.length_replicate, run_reserve_full [] 1 (by decide) (Nat.le_of_eq hlength.symm) []]
  rintro ⟨xs, ys, hrun, _⟩
  cases hrun

/-- The text of such a line. -/
example : reserveText 1 [(1, 2), (3, 4)] = bytes "1 [(1,2) (3,4)]\n" := by decide

end Ems.Parse
