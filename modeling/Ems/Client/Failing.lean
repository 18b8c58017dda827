import Ems.Client.Reply
import Ems.Wire.Attempts

/-!
# A client that fails on its own

The operations of `client/api.c` once more, with what `Api.lean` leaves out: a `malloc`
or a `print_str` may fail, and the operation then returns 1 at once. Of the reply to a
`SHOW` or a `LIST` there is still something in the pipe at that time, at least the status
behind the matrix or the ids, and the client's main loop goes on with the next command.
`in_sync_iff` says which attempts there are: one that fails leaves a part of the reply to
the next operation, and if none does the reply has been read to its end.

Mirroring notes:
- A loop is bounded by `fuel`, and a program that runs out of it does not return (`none`).
  Nor does one that reads outside of its array, of which C says nothing.
- `print_str` fails or it prints all; the pieces of its `write()`s are not told apart.
-/

namespace Ems.Client.Failing

open Wire Server Proto

/-- What an operation does besides reading and writing its pipes. -/
inductive Local where
  | malloc (size : UInt64)
  | printStr (str : List Char)
deriving DecidableEq, Repr

/-- An operation; `none` if it does not return. -/
abbrev Program := Talk Local Bool (Option UInt32)

/-- `malloc`, and `return 1` if there is no memory. -/
def malloc (size : UInt64) (next : Program) : Program := Talk.attempt (some 1) (.malloc size) next

/-- `print_str`, and `return 1` if it fails. -/
def printStr (str : List Char) (next : Program) : Program :=
  Talk.attempt (some 1) (.printStr str) next

/-- `int return_value = 1;` read at the end of every operation. -/
def readReturnValue : Program := do
  let bs ← Talk.readBytes 4
  pure (some (if bs = [] then 1 else uint (overlay 4 bs fun i => (le4 1).getD i 0)))

/-- `for (size_t i = ...; i <= n; i++)`, and what comes after it. -/
def forLoop (n : UInt64) (body : UInt64 → Program → Program) (after : Program) :
    Nat → UInt64 → Program
  | 0, _ => pure none
  | fuel + 1, i => if i ≤ n then body i (forLoop n body after fuel (i + 1)) else after

/-- `array[i]`. -/
def element (array : List UInt8) (i : UInt64) (next : UInt32 → Program) : Program :=
  if 4 * i.toNat + 4 ≤ array.length then next (word array i) else pure none

/-- The inner loop's body in `ems_show`. -/
def printSeat (numCols : UInt64) (seats : List UInt8) (i j : UInt64) (next : Program) : Program :=
  element seats ((i - 1) * numCols + (j - 1)) fun seat =>
    printStr (decimal seat) (if j < numCols then printStr [' '] next else next)

/-- The outer loop's body. -/
def printRow (fuel : Nat) (numCols : UInt64) (seats : List UInt8) (i : UInt64) (next : Program) :
    Program :=
  forLoop numCols (printSeat numCols seats i) (printStr ['\n'] next) fuel 1

/-- `ems_show` behind its reads. -/
def printRows (fuel : Nat) (numRows numCols : UInt64) (seats : List UInt8) : Program :=
  forLoop numRows (printRow fuel numCols seats) readReturnValue fuel 1

/-- `ems_show` behind the header. -/
def readSeats (junk : Nat → UInt8) (fuel : Nat) (numRows numCols : UInt64) : Program :=
  let numSeats := numRows * numCols
  malloc (4 * numSeats) do
    let seats ← Talk.readBytes (4 * numSeats).toNat
    printRows fuel numRows numCols (overlay (4 * numSeats).toNat seats junk)

/-- `ems_show`. -/
def emsShow (junk : Nat → UInt8) (fuel : Nat) (eventId : UInt32) : Program := do
  Talk.write [opShow]
  Talk.write (le4 eventId)
  let header ← Talk.readBytes 16
  if header = [] then pure (some 1)
  else
    let numMatrix := overlay 16 header junk
    readSeats junk fuel (size (numMatrix.take 8)) (size (numMatrix.drop 8))

/-- The loop's body in `ems_list_events`. -/
def printId (ids : List UInt8) (i : Nat) (next : Program) : Program :=
  printStr "Event: ".toList (element ids (UInt64.ofNat i) fun id =>
    printStr (decimal id ++ ['\n']) next)

/-- `ems_list_events` behind its reads. -/
def printIds (numSeats : UInt64) (ids : List UInt8) : Program :=
  if numSeats = 0 then printStr "No events\n".toList readReturnValue
  else (List.range numSeats.toNat).foldr (printId ids) readReturnValue

/-- `ems_list_events` behind the number. -/
def readIds (junk : Nat → UInt8) (numSeats : UInt64) : Program :=
  malloc (4 * numSeats) do
    let ids ← Talk.readBytes (4 * numSeats).toNat
    printIds numSeats (overlay (4 * numSeats).toNat ids junk)

/-- `ems_list_events`; an end of the file is only noticed at the last read. -/
def emsListEvents (junk : Nat → UInt8) : Program := do
  Talk.write [opList]
  let header ← Talk.readBytes 8
  readIds junk (size (overlay 8 header fun _ => 0))

/-- `ems_create`. -/
def emsCreate (eventId : UInt32) (numRows numCols : UInt64) : Program := do
  Talk.write [opCreate]
  Talk.write (le4 eventId)
  Talk.write (le8 numRows ++ le8 numCols)
  readReturnValue

/-- `ems_reserve`. -/
def emsReserve (eventId : UInt32) (numSeats : UInt64) (xs ys : SeatArray) : Program := do
  Talk.write [opReserve]
  Talk.write (le4 eventId)
  Talk.write (le8 numSeats)
  Talk.write (arrayBytes xs)
  Talk.write (arrayBytes ys)
  readReturnValue

/-- A call of an operation. -/
def call (junk : Nat → UInt8) (fuel : Nat) : Call → Program
  | .create eventId numRows numCols => emsCreate eventId numRows numCols
  | .reserve eventId numSeats xs ys => emsReserve eventId numSeats xs ys
  | .showEvent eventId => emsShow junk fuel eventId
  | .listEvents => emsListEvents junk

/-- What a call returns and what it leaves in the pipe. The `i`-th `malloc` or `print_str`
succeeds when `ok i`, and the `i`-th `read()` gives no more than `chunk i + 1` bytes. -/
def run (junk : Nat → UInt8) (chunk : Nat → Nat) (ok : Nat → Bool) (fuel : Nat) (c : Call)
    (inbox : List UInt8) : Option UInt32 × List UInt8 :=
  let r := Talk.hear chunk (Talk.inTurn ok) (call junk fuel c) inbox 0 0
  (r.1, r.2.1)

/-- If the call returns then it has read the reply, which `rest` follows, and no more. -/
def InSync (junk : Nat → UInt8) (chunk : Nat → Nat) (ok : Nat → Bool) (c : Call) (r : Reply)
    (rest : List UInt8) : Prop :=
  ∀ fuel ret left, run junk chunk ok fuel c ((replyWrites r).flatten ++ rest) = (some ret, left) →
    left = rest

/-- The replies to a call. The matrix of a `SHOW` and the ids of a `LIST` have the size the
header says, and it can be asked for with `malloc`. -/
inductive Answers : Call → Reply → Prop
  | create {eventId numRows numCols ret} :
    Answers (.create eventId numRows numCols) (.status ret)
  | reserve {eventId numSeats xs ys ret} :
    Answers (.reserve eventId numSeats xs ys) (.status ret)
  | matrix {eventId rows cols cells ret} (hlen : cells.length = 4 * (rows * cols).toNat)
    (hfit : cells.length < 2 ^ 64) : Answers (.showEvent eventId) (.matrix rows cols cells ret)
  | listing {num ids ret} (hlen : ids.length = num.toNat) (hfit : 4 * ids.length < 2 ^ 64) :
    Answers .listEvents (.listing num ids ret)

/-- How many times `print_str` is called for a reply: a number and what separates it from
the next one for a seat, two pieces for an id, and the ends of the lines of a matrix without
columns. -/
def prints : Reply → Nat
  | .status _ => 0
  | .matrix rows cols _ _ => if cols = 0 then rows.toNat else 2 * (rows * cols).toNat
  | .listing num _ _ => if num = 0 then 1 else 2 * num.toNat

/-- A matrix without columns whose number of rows a counter cannot pass. -/
def Endless : Reply → Prop
  | .matrix rows cols _ _ => rows.toNat + 1 = 2 ^ 64 ∧ cols = 0
  | _ => False

/-- The `k`-th `malloc` or `print_str` is called for. -/
def Attempts (r : Reply) (k : Nat) : Prop :=
  match r with
  | .status _ => False
  | r => k ≤ prints r ∨ Endless r

/-! ## The attempts of the loops -/

/-- The end of an operation: it does not return or it reads the status, and that it does
if it goes through. -/
def End (through : Prop) (p : Program) : Prop :=
  (p = pure none ∨ p = readReturnValue) ∧ (through → p = readReturnValue)

/-- The counter of a loop that is at its `i`-th iteration. -/
theorem ofNat_succ_le {n : UInt64} {i : Nat} (hi : i + 1 < 2 ^ 64) :
    UInt64.ofNat (i + 1) ≤ n ↔ i < n.toNat := by
  rw [UInt64.le_iff_toNat_le, UInt64.toNat_ofNat', Nat.mod_eq_of_lt hi]
  exact Nat.succ_le_iff

/-- One iteration. -/
theorem forLoop_next {n : UInt64} {i : Nat} (hi : i < n.toNat)
    (body : UInt64 → Program → Program) (after : Program) (fuel : Nat) :
    forLoop n body after (fuel + 1) (UInt64.ofNat (i + 1)) =
      body (UInt64.ofNat (i + 1)) (forLoop n body after fuel (UInt64.ofNat (i + 1 + 1))) := by
  have hwrap := n.toNat_lt
  have hsucc : UInt64.ofNat (i + 1) + 1 = UInt64.ofNat (i + 1 + 1) := by
    rw [UInt64.ofNat_add (i + 1) 1]
    rfl
  rw [← hsucc]
  exact if_pos ((ofNat_succ_le (by omega)).mpr hi)

/-- The end of the loop, when the counter can pass `n`. -/
theorem forLoop_end {n : UInt64} (hn : n.toNat + 1 < 2 ^ 64) (body : UInt64 → Program → Program)
    (after : Program) (fuel : Nat) :
    forLoop n body after (fuel + 1) (UInt64.ofNat (n.toNat + 1)) = after :=
  if_neg fun h => Nat.lt_irrefl _ ((ofNat_succ_le hn).mp h)

/-- The seat in row `a` and column `b`, both from 0. -/
theorem printSeat_eq {cols : UInt64} {a b : Nat} (hb : b < cols.toNat)
    (hfit : a * cols.toNat + b < 2 ^ 64) (seats : List UInt8) : ∃ text, ∀ next,
      printSeat cols seats (UInt64.ofNat (a + 1)) (UInt64.ofNat (b + 1)) next =
        if 4 * (a * cols.toNat + b) + 4 ≤ seats.length then
          printStr text (if b + 1 < cols.toNat then printStr [' '] next else next)
        else pure none := by
  have hcols := cols.toNat_lt
  have hsep : UInt64.ofNat (b + 1) < cols ↔ b + 1 < cols.toNat := by
    rw [UInt64.lt_iff_toNat_lt, UInt64.toNat_ofNat', Nat.mod_eq_of_lt (by omega)]
  refine ⟨decimal (word seats ((UInt64.ofNat (a + 1) - 1) * cols + (UInt64.ofNat (b + 1) - 1))),
    fun next => ?_⟩
  unfold printSeat element
  rw [seat_toNat hfit hb]
  simp only [hsep]

variable {enough : Prop} {last : Program → Prop} {next : Program} {n : Nat}

/-- A row from its `b`-th seat on: the seats are read one after the other, `n` of them, and
each comes with two pieces. -/
theorem makes_row {cols : UInt64} {seats : List UInt8} {a : Nat} (hlen : seats.length = 4 * n)
    (hn : 4 * n < 2 ^ 64) (hout : ∀ b < cols.toNat, a * cols.toNat + b = n → last (pure none))
    (hstop : ¬ enough → last (pure none))
    (hnext : (a + 1) * cols.toNat ≤ n →
      Talk.Makes (some 1) (2 * (n - (a + 1) * cols.toNat)) enough last next) :
    ∀ (fuel b : Nat), b ≤ cols.toNat → a * cols.toNat + b ≤ n →
      (enough → n - (a * cols.toNat + b) < fuel) →
      Talk.Makes (some 1) (2 * (n - (a * cols.toNat + b)) + if b = cols.toNat then 1 else 0) enough
        last (forLoop cols (printSeat cols seats (UInt64.ofNat (a + 1))) (printStr ['\n'] next) fuel
          (UInt64.ofNat (b + 1))) := by
  have hrow : (a + 1) * cols.toNat = a * cols.toNat + cols.toNat := Nat.succ_mul ..
  intro fuel
  induction fuel with
  | zero =>
    intro b hb hle hfuel
    exact Talk.Makes.stop (hstop fun h => absurd (hfuel h) (Nat.not_lt_zero _))
      fun h => absurd (hfuel h) (Nat.not_lt_zero _)
  | succ fuel ih =>
    intro b hb hle hfuel
    rcases Nat.lt_or_eq_of_le hb with hlt | rfl
    · obtain ⟨text, hseat⟩ := @printSeat_eq cols a b hlt (by omega) seats
      rw [forLoop_next hlt, hseat, if_neg (Nat.ne_of_lt hlt)]
      split
      next hin =>
        have hstep := ih (b + 1) hlt (by omega) fun h => by have := hfuel h; omega
        split
        next hmore =>
          -- the seat and a blank
          rw [if_neg (Nat.ne_of_lt hmore)] at hstep
          have htwo : 2 * (n - (a * cols.toNat + b)) + 0 =
              2 * (n - (a * cols.toNat + (b + 1))) + 0 + 1 + 1 := by omega
          rw [htwo]
          exact (hstep.attempt _).attempt _
        next hmore =>
          -- the last seat: the end of the line is counted in `hstep`
          rw [if_pos (by omega)] at hstep
          have hone : 2 * (n - (a * cols.toNat + b)) + 0 =
              2 * (n - (a * cols.toNat + (b + 1))) + 1 + 1 := by omega
          rw [hone]
          exact hstep.attempt _
      next hin => exact Talk.Makes.stop (hout b hlt (by omega)) fun _ => by omega
    · rw [forLoop_end (by omega), if_pos rfl, ← hrow]
      exact (hnext (by omega)).attempt _

/-- The rows from the `a`-th on. -/
theorem makes_rows {rows cols : UInt64} {seats : List UInt8} (hlen : seats.length = 4 * n)
    (hn : 4 * n < 2 ^ 64) (hcols : cols ≠ 0) (hsize : n = (rows * cols).toNat) {bound : Nat} :
    ∀ (fuel a : Nat), a ≤ rows.toNat → a * cols.toNat ≤ n → (n < bound → n - a * cols.toNat < fuel) →
      Talk.Makes (some 1) (2 * (n - a * cols.toNat)) (n < bound)
        (End (n < bound ∧ n = rows.toNat * cols.toNat))
        (forLoop rows (printRow bound cols seats) readReturnValue fuel (UInt64.ofNat (a + 1))) := by
  have hpos : 0 < cols.toNat :=
    Nat.pos_of_ne_zero fun h => hcols (UInt64.toNat_inj.mp h)
  have hprod : n ≤ rows.toNat * cols.toNat := by
    rw [hsize, UInt64.toNat_mul]
    exact Nat.mod_le _ _
  have hstop : ¬ n < bound → End (n < bound ∧ n = rows.toNat * cols.toNat) (pure none) :=
    fun h => ⟨Or.inl rfl, fun h' => absurd h'.1 h⟩
  intro fuel
  induction fuel with
  | zero =>
    intro a ha hle hfuel
    exact Talk.Makes.stop (hstop fun h => absurd (hfuel h) (Nat.not_lt_zero _))
      fun h => absurd (hfuel h) (Nat.not_lt_zero _)
  | succ fuel ih =>
    intro a ha hle hfuel
    have hge : a ≤ a * cols.toNat := Nat.le_mul_of_pos_right a hpos
    -- one more row, or none is left
    rcases Nat.lt_or_eq_of_le ha with hlt | rfl
    · have hrow : (a + 1) * cols.toNat = a * cols.toNat + cols.toNat := Nat.succ_mul ..
      have hbelow : (a + 1) * cols.toNat ≤ rows.toNat * cols.toNat := Nat.mul_le_mul_right _ hlt
      have hmakes := @makes_row _ _ (forLoop rows (printRow bound cols seats) readReturnValue fuel
        (UInt64.ofNat (a + 1 + 1))) n cols seats a hlen hn
        (fun b hb hout => ⟨Or.inl rfl, fun h => by omega⟩) hstop
        (fun hle' => ih (a + 1) hlt hle' fun h => by have := hfuel h; omega)
        bound 0 (Nat.zero_le _) hle (fun h => by omega)
      rw [if_neg (Nat.ne_of_lt hpos)] at hmakes
      rw [forLoop_next hlt]
      exact hmakes
    · rw [forLoop_end (by omega)]
      exact Talk.Makes.stop ⟨Or.inr rfl, fun _ => rfl⟩ fun _ => by omega

/-- There is nothing in a row without columns. -/
theorem printRow_zero (bound : Nat) (seats : List UInt8) (i : UInt64) (next : Program) :
    printRow (bound + 1) 0 seats i next = printStr ['\n'] next :=
  forLoop_end (n := 0) (by decide) _ _ _

/-- The ends of the lines of a matrix without columns. -/
theorem makes_lines {rows : UInt64} (hrows : rows.toNat + 1 < 2 ^ 64) {bound : Nat}
    (seats : List UInt8) : ∀ (fuel a : Nat), a ≤ rows.toNat →
      (rows.toNat < bound → rows.toNat - a < fuel) →
      Talk.Makes (some 1) (rows.toNat - a) (rows.toNat < bound) (End (rows.toNat < bound))
        (forLoop rows (printRow bound 0 seats) readReturnValue fuel (UInt64.ofNat (a + 1))) := by
  have hstop : ¬ rows.toNat < bound → End (rows.toNat < bound) (pure none) :=
    fun h => ⟨Or.inl rfl, fun h' => absurd h' h⟩
  intro fuel
  induction fuel with
  | zero =>
    intro a ha hfuel
    exact Talk.Makes.stop (hstop fun h => absurd (hfuel h) (Nat.not_lt_zero _))
      fun h => absurd (hfuel h) (Nat.not_lt_zero _)
  | succ fuel ih =>
    intro a ha hfuel
    rcases Nat.lt_or_eq_of_le ha with hlt | rfl
    · rw [forLoop_next hlt]
      cases bound with
      | zero => exact Talk.Makes.stop (hstop (Nat.not_lt_zero _)) fun h => absurd h (Nat.not_lt_zero _)
      | succ bound =>
        have hstep := ih (a + 1) hlt fun h => by have := hfuel h; omega
        have hone : rows.toNat - a = rows.toNat - (a + 1) + 1 := by omega
        rw [printRow_zero, hone]
        exact hstep.attempt _
    · rw [forLoop_end hrows]
      exact Talk.Makes.stop ⟨Or.inr rfl, fun _ => rfl⟩ fun _ => Nat.sub_self _

/-- There may be no end of them. -/
theorem makes_endless {rows : UInt64} (hrows : rows.toNat + 1 = 2 ^ 64) (bound : Nat)
    (seats : List UInt8) : ∀ (fuel : Nat) (i : UInt64),
      Talk.Makes (some 1) fuel (0 < bound) (End False)
        (forLoop rows (printRow bound 0 seats) readReturnValue fuel i) := by
  intro fuel
  induction fuel with
  | zero => intro i; exact Talk.Makes.stop ⟨Or.inl rfl, False.elim⟩ fun _ => rfl
  | succ fuel ih =>
    intro i
    have hle : i ≤ rows := by
      rw [UInt64.le_iff_toNat_le]
      have := i.toNat_lt
      omega
    unfold forLoop
    rw [if_pos hle]
    cases bound with
    | zero => exact ⟨[], pure none, rfl, Nat.zero_le _, fun h => absurd h (Nat.lt_irrefl 0), Or.inl rfl, False.elim⟩
    | succ bound =>
      rw [printRow_zero]
      exact (ih (i + 1)).attempt _

/-- The ids, two pieces for each. -/
theorem makes_ids {num : UInt64} {ids : List UInt8} (hlen : ids.length = 4 * num.toNat) :
    Talk.Makes (some 1) (if num = 0 then 1 else 2 * num.toNat) True (End True)
      (printIds num ids) := by
  have hend : Talk.Makes (some 1) 0 True (End True) readReturnValue :=
    Talk.Makes.stop ⟨Or.inr rfl, fun _ => rfl⟩ fun _ => rfl
  have hloop : ∀ is : List Nat, (∀ i ∈ is, i < num.toNat) →
      Talk.Makes (some 1) (2 * is.length) True (End True)
        (is.foldr (printId ids) readReturnValue) := by
    intro is
    induction is with
    | nil => intro _; exact hend
    | cons i is ih =>
      intro his
      have hi := his i (List.mem_cons_self ..)
      have hidx : (UInt64.ofNat i).toNat = i := by
        have := num.toNat_lt
        rw [UInt64.toNat_ofNat', Nat.mod_eq_of_lt (by omega)]
      show Talk.Makes (some 1) (2 * (is.length + 1)) True (End True)
        (printId ids i (is.foldr (printId ids) readReturnValue))
      -- an id and what follows it
      unfold printId element
      rw [hidx, if_pos (by omega)]
      exact ((ih fun j hj => his j (List.mem_cons_of_mem _ hj)).attempt _).attempt _
  unfold printIds
  split
  next => exact hend.attempt _
  next =>
    have hrange := hloop (List.range num.toNat) fun i hi => List.mem_range.mp hi
    rw [List.length_range] at hrange
    exact hrange

/-! ## The reads -/

variable {junk : Nat → UInt8} {chunk : Nat → Nat} {ok : Nat → Bool} {w : List UInt8}

theorem hearAll_readReturnValue (ret : UInt32) (i : Nat) :
    Talk.hearAll (Talk.inTurn ok) readReturnValue (le4 ret ++ w) i = (some ret, w, i) := by
  have hne : le4 ret ≠ [] := List.length_pos_iff.mp (by simp)
  have hfull := @overlay_full (le4 ret) fun i => (le4 1).getD i 0
  rw [le4_length] at hfull
  unfold readReturnValue
  rw [Talk.hearAll_readBytes _ (le4_length ret), if_neg hne, hfull, uint_le4]
  rfl

/-- The size of an array of `unsigned int`. -/
theorem size_toNat {n : UInt64} (h : 4 * n.toNat < 2 ^ 64) : (4 * n).toNat = 4 * n.toNat := by
  rw [UInt64.toNat_mul]
  exact Nat.mod_eq_of_lt h

/-- `ems_show` reads the header, and the matrix if it has memory for it. -/
theorem hearAll_show {rows cols : UInt64} {cells : List UInt8}
    (hlen : cells.length = 4 * (rows * cols).toNat) (hfit : cells.length < 2 ^ 64) (fuel : Nat)
    (eventId : UInt32) :
    Talk.hearAll (Talk.inTurn ok) (emsShow junk fuel eventId)
        ((le8 rows ++ le8 cols) ++ (cells ++ w)) 0 =
      if ok 0 then Talk.hearAll (Talk.inTurn ok) (printRows fuel rows cols cells) w 1
      else (some 1, cells ++ w, 1) := by
  have hheader : (le8 rows ++ le8 cols).length = 16 := by simp
  have hne : le8 rows ++ le8 cols ≠ [] := List.length_pos_iff.mp (by omega)
  have hfull := @overlay_full (le8 rows ++ le8 cols) junk
  rw [hheader] at hfull
  have hsize : cells.length = (4 * (rows * cols)).toNat := by rw [size_toNat (by omega), hlen]
  have hcells := @overlay_full cells junk
  rw [hsize] at hcells
  show Talk.hearAll (Talk.inTurn ok) (Talk.readBytes 16 >>= fun header =>
    if header = [] then (pure (some 1) : Program)
    else readSeats junk fuel (size ((overlay 16 header junk).take 8))
      (size ((overlay 16 header junk).drop 8))) ((le8 rows ++ le8 cols) ++ (cells ++ w)) 0 = _
  rw [Talk.hearAll_readBytes _ hheader, if_neg hne, hfull]
  rw [List.take_left' (le8_length rows), List.drop_left' (le8_length rows), size_le8, size_le8]
  unfold readSeats malloc
  rw [Talk.hearAll_attempt, Talk.hearAll_readBytes _ hsize, hcells]

/-- `ems_list_events` reads the number, and the ids if it has memory for them. -/
theorem hearAll_list {num : UInt64} {ids : List UInt8} (hlen : ids.length = 4 * num.toNat)
    (hfit : ids.length < 2 ^ 64) :
    Talk.hearAll (Talk.inTurn ok) (emsListEvents junk) (le8 num ++ (ids ++ w)) 0 =
      if ok 0 then Talk.hearAll (Talk.inTurn ok) (printIds num ids) w 1
      else (some 1, ids ++ w, 1) := by
  have hnum := @overlay_full (le8 num) fun _ => 0
  rw [le8_length] at hnum
  have hsize : ids.length = (4 * num).toNat := by rw [size_toNat (by omega), hlen]
  have hids := @overlay_full ids junk
  rw [hsize] at hids
  show Talk.hearAll (Talk.inTurn ok) (Talk.readBytes 8 >>= fun header =>
    readIds junk (size (overlay 8 header fun _ => 0))) (le8 num ++ (ids ++ w)) 0 = _
  rw [Talk.hearAll_readBytes _ (le8_length num), hnum, size_le8]
  unfold readIds malloc
  rw [Talk.hearAll_attempt, Talk.hearAll_readBytes _ hsize, hids]

/-! ## In sync -/

variable {c : Call} {r : Reply} {rest : List UInt8}

theorem run_eq (fuel : Nat) (c : Call) (inbox : List UInt8) :
    run junk chunk ok fuel c inbox =
      ((Talk.hearAll (Talk.inTurn ok) (call junk fuel c) inbox 0).1,
        (Talk.hearAll (Talk.inTurn ok) (call junk fuel c) inbox 0).2.1) := by
  obtain ⟨hret, hleft, -⟩ := Talk.hear_eq chunk (Talk.inTurn ok) (call junk fuel c) inbox 0 0
  exact Prod.ext hret hleft

/-- A call whose reply has a body that is printed: `p fuel` runs behind the body, and
nothing of it is read if there is no memory. -/
def ReadsBody (junk : Nat → UInt8) (c : Call) (r : Reply) (p : Nat → Program) : Prop :=
  ∃ body, ∀ ok fuel rest, Talk.hearAll (Talk.inTurn ok) (call junk fuel c)
    ((replyWrites r).flatten ++ rest) 0 =
      if ok 0 then Talk.hearAll (Talk.inTurn ok) (p fuel) (le4 (replyRet r) ++ rest) 1
      else (some 1, body ++ (le4 (replyRet r) ++ rest), 1)

/-- Behind the body the whole reply is read if nothing fails. -/
theorem in_sync_of_ok {p : Nat → Program} (hp : ReadsBody junk c r p)
    (hok : ∀ fuel, ∃ m enough through, Talk.Makes (some 1) m enough (End through) (p fuel) ∧
      ∀ k ≤ m, ok k = true) : InSync junk chunk ok c r rest := by
  intro fuel ret left hrun
  obtain ⟨body, hbody⟩ := hp
  obtain ⟨m, enough, through, hmakes, hm⟩ := hok fuel
  obtain ⟨q, i, ⟨hq, -⟩, hend⟩ := hmakes.hearAll_of_ok (i := 1) (le4 (replyRet r) ++ rest)
    fun k hk hlt => hm k (by omega)
  rw [run_eq, hbody, if_pos (hm 0 (Nat.zero_le m)), hend] at hrun
  rcases hq with rfl | rfl
  · cases hrun
  · rw [hearAll_readReturnValue] at hrun
    cases hrun
    rfl

/-- And what the operation returns is the status, if it goes through. -/
theorem run_of_ok {p : Nat → Program} (hp : ReadsBody junk c r p) {fuel m : Nat} {enough through : Prop}
    (hmakes : Talk.Makes (some 1) m enough (End through) (p fuel)) (hthrough : through)
    (hok : ∀ k ≤ m, ok k = true) (rest : List UInt8) :
    run junk chunk ok fuel c ((replyWrites r).flatten ++ rest) = (some (replyRet r), rest) := by
  obtain ⟨body, hbody⟩ := hp
  obtain ⟨q, i, ⟨-, hq⟩, hend⟩ := hmakes.hearAll_of_ok (i := 1) (le4 (replyRet r) ++ rest)
    fun k hk hlt => hok k (by omega)
  rw [run_eq, hbody, if_pos (hok 0 (Nat.zero_le m)), hend, hq hthrough, hearAll_readReturnValue]

/-- What is not empty makes a list longer. -/
theorem ne_of_rest {x : List UInt8} (ret : UInt32) : x ++ (le4 ret ++ rest) ≠ rest := by
  intro h
  have hlen := congrArg List.length h
  simp only [List.length_append, le4_length] at hlen
  omega

/-- If something fails then the status, at least, is left. -/
theorem not_in_sync_of_fail {p : Nat → Program} (hp : ReadsBody junk c r p) {fuel m k : Nat}
    {enough : Prop} {last : Program → Prop} (hmakes : Talk.Makes (some 1) m enough last (p fuel))
    (henough : enough) (hk : k ≤ m) (hfail : ok k = false) : ¬ InSync junk chunk ok c r rest := by
  intro hsync
  obtain ⟨body, hbody⟩ := hp
  have hrun := hbody ok fuel rest
  by_cases h0 : ok 0 = true
  · have hne : k ≠ 0 := fun heq => by rw [heq, h0] at hfail; cases hfail
    obtain ⟨j, hend⟩ := hmakes.hearAll_of_fail henough (le4 (replyRet r) ++ rest)
      (show 1 ≤ k by omega) (show k < 1 + m by omega) hfail
    rw [if_pos h0, hend] at hrun
    refine @ne_of_rest rest [] (replyRet r) (hsync fuel 1 _ ?_)
    rw [run_eq, hrun]
    rfl
  · rw [if_neg h0] at hrun
    refine @ne_of_rest rest body (replyRet r) (hsync fuel 1 _ ?_)
    rw [run_eq, hrun]

theorem prints_show {eventId : UInt32} {rows cols : UInt64} {cells : List UInt8} {ret : UInt32}
    (hlen : cells.length = 4 * (rows * cols).toNat) (hfit : cells.length < 2 ^ 64) :
    ReadsBody junk (.showEvent eventId) (.matrix rows cols cells ret)
      fun fuel => printRows fuel rows cols cells := by
  refine ⟨cells, fun ok fuel rest => ?_⟩
  have hbytes : (replyWrites (.matrix rows cols cells ret)).flatten ++ rest =
      (le8 rows ++ le8 cols) ++ (cells ++ (le4 ret ++ rest)) := by simp [replyWrites]
  rw [hbytes]
  exact hearAll_show hlen hfit fuel eventId

theorem prints_list {num : UInt64} {ids : List UInt32} {ret : UInt32}
    (hlen : ids.length = num.toNat) (hfit : 4 * ids.length < 2 ^ 64) :
    ReadsBody junk .listEvents (.listing num ids ret) fun _ => printIds num (ids.flatMap le4) := by
  have hsize : (ids.flatMap le4).length = 4 * ids.length := by
    rw [flatMap_le4, toWords_length, List.length_map]
  refine ⟨ids.flatMap le4, fun ok fuel rest => ?_⟩
  have hbytes : (replyWrites (.listing num ids ret)).flatten ++ rest =
      le8 num ++ (ids.flatMap le4 ++ (le4 ret ++ rest)) := by simp [replyWrites, List.flatMap]
  rw [hbytes]
  exact hearAll_list (by rw [hsize, hlen]) (by rw [hsize]; exact hfit)

/-- The attempts behind the matrix, unless there is no end of them. -/
theorem makes_matrix {rows cols : UInt64} {cells : List UInt8} {ret : UInt32}
    (hlen : cells.length = 4 * (rows * cols).toNat) (hfit : cells.length < 2 ^ 64)
    (hend : ¬ Endless (.matrix rows cols cells ret)) (fuel : Nat) :
    Talk.Makes (some 1) (prints (.matrix rows cols cells ret)) (2 ^ 64 ≤ fuel)
      (End (2 ^ 64 ≤ fuel ∧ (rows * cols).toNat = rows.toNat * cols.toNat))
      (printRows fuel rows cols cells) := by
  have hrows := rows.toNat_lt
  simp only [prints]
  split
  next h0 =>
    subst h0
    have hpass : rows.toNat + 1 < 2 ^ 64 := by
      have hne : rows.toNat + 1 ≠ 2 ^ 64 := fun h => hend ⟨h, rfl⟩
      omega
    have hlines := @makes_lines rows hpass fuel cells fuel 0 (Nat.zero_le _) id
    exact hlines.weaken (by omega) fun q hq => ⟨hq.1, fun h => hq.2 (by omega)⟩
  next h0 =>
    have hseats := @makes_rows _ rows cols cells hlen (by omega) h0 rfl fuel fuel 0
      (Nat.zero_le _) (by omega) (by omega)
    rw [Nat.zero_mul, Nat.sub_zero] at hseats
    exact hseats.weaken (by omega) fun q hq => ⟨hq.1, fun h => hq.2 ⟨by omega, h.2⟩⟩

/-- The attempts behind the ids. -/
theorem makes_listing {num : UInt64} {ids : List UInt32} (hlen : ids.length = num.toNat)
    (ret : UInt32) : Talk.Makes (some 1) (prints (.listing num ids ret)) True (End True)
      (printIds num (ids.flatMap le4)) :=
  makes_ids (by rw [flatMap_le4, toWords_length, List.length_map, hlen])

/-- Attempts whose number is known beforehand: any of them matters, and nothing else. -/
theorem in_sync_iff_of_makes {p : Nat → Program} {m : Nat} {through : Nat → Prop}
    (hp : ReadsBody junk c r p)
    (h : ∀ fuel, Talk.Makes (some 1) m (2 ^ 64 ≤ fuel) (End (through fuel)) (p fuel)) :
    InSync junk chunk ok c r rest ↔ ∀ k ≤ m, ok k = true := by
  constructor
  · intro hsync k hk
    by_contra hfail
    exact not_in_sync_of_fail hp (h (2 ^ 64)) (Nat.le_refl _) hk (Bool.eq_false_iff.mpr hfail) hsync
  · intro hok
    exact in_sync_of_ok hp fun fuel => ⟨m, _, _, h fuel, hok⟩

/-- The status is all there is to read. -/
theorem run_status {ret : UInt32} {fuel : Nat} (h : ∀ w, Talk.hearAll (Talk.inTurn ok)
    (call junk fuel c) w 0 = Talk.hearAll (Talk.inTurn ok) readReturnValue w 0) :
    run junk chunk ok fuel c ((replyWrites (.status ret)).flatten ++ rest) = (some ret, rest) := by
  have hbytes : (replyWrites (.status ret)).flatten ++ rest = le4 ret ++ rest := by
    simp [replyWrites]
  rw [run_eq, h, hbytes, hearAll_readReturnValue]

theorem in_sync_status {ret : UInt32} (h : ∀ fuel w, Talk.hearAll (Talk.inTurn ok)
    (call junk fuel c) w 0 = Talk.hearAll (Talk.inTurn ok) readReturnValue w 0) :
    InSync junk chunk ok c (.status ret) rest := by
  intro fuel ret' left hrun
  rw [run_status (h fuel)] at hrun
  cases hrun
  rfl

/-- The ends of the lines that never stop. -/
theorem in_sync_endless {eventId : UInt32} {rows : UInt64} {cells : List UInt8} {ret : UInt32}
    (hrows : rows.toNat + 1 = 2 ^ 64)
    (hp : ReadsBody junk (.showEvent eventId) (.matrix rows 0 cells ret)
      fun fuel => printRows fuel rows 0 cells) :
    InSync junk chunk ok (.showEvent eventId) (.matrix rows 0 cells ret) rest ↔
      ∀ k, ok k = true := by
  constructor
  · intro hsync k
    by_contra hfail
    -- with enough fuel the line that fails is reached
    have hmakes := @makes_endless rows hrows (k + 1) cells (k + 1) 1
    exact @not_in_sync_of_fail _ chunk ok _ _ rest _ hp (k + 1) (k + 1) k _ _ hmakes
      (Nat.succ_pos k) (Nat.le_succ k) (Bool.eq_false_iff.mpr hfail) hsync
  · intro hok
    exact in_sync_of_ok hp fun fuel =>
      ⟨fuel, _, _, makes_endless hrows fuel cells fuel 1, fun k _ => hok k⟩

/-- **A call stays in sync just when nothing it attempts fails.** -/
theorem in_sync_iff {c : Call} {r : Reply} (hr : Answers c r) (junk : Nat → UInt8)
    (chunk : Nat → Nat) (ok : Nat → Bool) (rest : List UInt8) :
    InSync junk chunk ok c r rest ↔ ∀ k, Attempts r k → ok k = true := by
  cases hr with
  | create => exact ⟨fun _ k hk => hk.elim, fun _ => in_sync_status fun fuel w => rfl⟩
  | reserve => exact ⟨fun _ k hk => hk.elim, fun _ => in_sync_status fun fuel w => rfl⟩
  | @matrix eventId rows cols cells ret hlen hfit =>
    have hp := @prints_show junk eventId rows cols cells ret hlen hfit
    by_cases hend : Endless (.matrix rows cols cells ret)
    · obtain ⟨hrows, rfl⟩ := hend
      rw [in_sync_endless hrows hp]
      exact ⟨fun h k _ => h k, fun h k => h k (Or.inr ⟨hrows, rfl⟩)⟩
    · rw [in_sync_iff_of_makes hp fun fuel => makes_matrix hlen hfit hend fuel]
      exact ⟨fun h k hk => h k (hk.resolve_right hend), fun h k hk => h k (Or.inl hk)⟩
  | @listing num ids ret hlen hfit =>
    rw [in_sync_iff_of_makes (prints_list hlen hfit) fun _ =>
      (makes_listing hlen ret).weaken (fun _ => trivial) fun _ => id]
    exact ⟨fun h k hk => h k (hk.resolve_right id), fun h k hk => h k (Or.inl hk)⟩

theorem in_sync_iff_row : InSync (fun _ => 0) (fun _ => 0) (fun _ => true) (.showEvent 1)
      (.matrix 1 2 [0, 0, 0, 0, 7, 0, 0, 0] 0) [1] ∧
    ¬ InSync (fun _ => 0) (fun _ => 0) (fun k => k != 4) (.showEvent 1)
      (.matrix 1 2 [0, 0, 0, 0, 7, 0, 0, 0] 0) [1] :=
  ⟨(in_sync_iff (.matrix rfl (by decide)) _ _ _ _).mpr fun _ _ => rfl,
    fun h => absurd ((in_sync_iff (.matrix rfl (by decide)) _ _ _ _).mp h 4 (Or.inl (by decide)))
      (by decide)⟩

/-- The list is empty and cannot be printed. Its status stays in the pipe, and the next
`CREATE`, which fails, returns it. -/
theorem unprinted_list_shifts :
    ¬ InSync (fun _ => 0) (fun _ => 0) (fun k => k == 0) .listEvents
      (Call.exec .listEvents createList).1 [] ∧
    run (fun _ => 0) (fun _ => 0) (fun k => k == 0) 1 .listEvents
      (replyWrites (Call.exec .listEvents createList).1).flatten = (some 1, le4 0) ∧
    run (fun _ => 0) (fun _ => 0) (fun _ => true) 1 (.create 1 0 0)
      (le4 0 ++ (replyWrites (.status 1)).flatten) = (some 0, le4 1) := by
  have hrun : run (fun _ => 0) (fun _ => 0) (fun k => k == 0) 1 .listEvents
    (replyWrites (Call.exec .listEvents createList).1).flatten = (some 1, le4 0) := by decide
  refine ⟨fun hsync => ?_, hrun, by decide⟩
  have hleft := hsync 1 1 (le4 0) (by rw [List.append_nil]; exact hrun)
  cases hleft

/-! ## The server's replies -/

/-- A matrix with as many cells as rows and columns make, and an end to its rows. -/
def Through : Reply → Prop
  | .matrix rows cols _ _ => rows.toNat * cols.toNat < 2 ^ 64 ∧ rows.toNat + 1 < 2 ^ 64
  | _ => True

/-- When nothing fails the operation returns what the server's operation returned. -/
theorem returns_of_ok (hr : Answers c r) (hthrough : Through r)
    (hok : ∀ k, Attempts r k → ok k = true) {fuel : Nat} (hfuel : 2 ^ 64 ≤ fuel) :
    run junk chunk ok fuel c ((replyWrites r).flatten ++ rest) = (some (replyRet r), rest) := by
  cases hr with
  | create => exact run_status fun w => rfl
  | reserve => exact run_status fun w => rfl
  | @matrix eventId rows cols cells ret hlen hfit =>
    obtain ⟨hfits, hends⟩ := hthrough
    have hend : ¬ Endless (.matrix rows cols cells ret) := fun h => absurd h.1 (Nat.ne_of_lt hends)
    have hsize : (rows * cols).toNat = rows.toNat * cols.toNat := by
      rw [UInt64.toNat_mul]
      exact Nat.mod_eq_of_lt hfits
    exact run_of_ok (prints_show hlen hfit) (makes_matrix hlen hfit hend fuel) ⟨hfuel, hsize⟩
      (fun k hk => hok k (Or.inl hk)) rest
  | listing hlen hfit =>
    exact run_of_ok (prints_list hlen hfit) (makes_listing hlen _) trivial
      (fun k hk => hok k (Or.inl hk)) rest

/-- What the server sends is a reply to the call. -/
theorem answers_exec {list : EventList} (hlist : StoreInv list) (c : Call) :
    Answers c (c.exec list).1 := by
  cases c with
  | create => exact .create
  | reserve => exact .reserve
  | showEvent eventId =>
    cases hfound : (getEvent list eventId).bind fun e => list.nodes[e]? with
    | none =>
      rw [exec_show_none hfound]
      exact .matrix rfl (by decide)
    | some event =>
      obtain ⟨hexec, hsized, hlen⟩ := exec_show hlist hfound
      have hfit : 4 * (event.rows * event.cols).toNat < 2 ^ 64 := by
        have := hsized.fits
        rw [hsized.cells] at this
        omega
      rw [size_toNat hfit] at hlen
      rw [hexec]
      exact .matrix hlen (by omega)
  | listEvents =>
    have hnum := hlist.eventNum_toNat
    have hle := length_le_of_ids hlist.nodup
    rw [exec_list hlist]
    exact .listing (by rw [List.length_map, hnum]) (by rw [List.length_map]; omega)

end Ems.Client.Failing
