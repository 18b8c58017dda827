import Ems.Proto.Calls
import Ems.Wire.Talk

/-!
# The client's end of a session

The operations of `client/api.c`, as programs that talk to the server, and a session:
any calls of them and `ems_quit`.

Mirroring notes:
- Writes and allocations do not fail and a read of no bytes is the end of the file, so
  of the error branches those after `safe_read(...) <= 0` are left.
- Memory that was not written holds `junk`.
- An operation hands what it prints to `out_fd` in one piece, once it has all of it. A
  `for` loop over a `size_t` that counts to `n` inclusive does not end for the largest
  `n`: after 2^64 iterations its counter is where it began. There is no text then, and
  the program asks `spin`, which nobody answers.
-/

namespace Ems.Client

open Wire Server Proto

/-- What a client does besides reading and writing its pipes. -/
inductive Action where
  /-- an operation is called -/
  | enter (c : Call)
  | print (text : List Char)
  /-- the operation returns -/
  | leave (ret : UInt32)
  /-- a loop that does not end -/
  | spin
  /-- `ems_quit` is called -/
  | quit
deriving DecidableEq, Repr

/-- A program of the client. -/
abbrev Program := Talk Action Unit

/-- `"%u"`. -/
def decimal (n : UInt32) : List Char := Nat.toDigits 10 n.toNat

/-- `for (size_t i = ...; i <= n; i++)`: what its iterations print, one after the
other. The fuel bounds their number. -/
def forText (n : UInt64) (body : UInt64 → Option (List Char)) : Nat → UInt64 → Option (List Char)
  | 0, _ => none
  | fuel + 1, i =>
    if i ≤ n then do
      let text ← body i
      let rest ← forText n body fuel (i + 1)
      pure (text ++ rest)
    else some []

/-- The loop from 1: every value of the counter once, or for ever. -/
def loopText (n : UInt64) (body : UInt64 → Option (List Char)) : Option (List Char) :=
  forText n body (2 ^ 64) 1

/-- The `i`-th `unsigned int` in memory. -/
def word (memory : List UInt8) (i : UInt64) : UInt32 := uint ((memory.drop (4 * i.toNat)).take 4)

/-- The loops of `ems_show`. -/
def showText (numRows numCols : UInt64) (seats : List UInt8) : Option (List Char) :=
  loopText numRows fun i => do
    let row ← loopText numCols fun j =>
      pure (decimal (word seats ((i - 1) * numCols + (j - 1))) ++ if j < numCols then [' '] else [])
    pure (row ++ ['\n'])

/-- What `ems_list_events` prints. -/
def listText (numSeats : UInt64) (ids : List UInt8) : List Char :=
  if numSeats = 0 then "No events\n".toList
  else (List.range numSeats.toNat).flatMap fun i =>
    "Event: ".toList ++ decimal (word ids (UInt64.ofNat i)) ++ ['\n']

/-- `int return_value = 1;` read at the end of every operation. -/
def readReturnValue : Program UInt32 := do
  let bs ← Talk.readBytes 4
  if bs = [] then pure 1
  else pure (uint (overlay 4 bs fun i => (le4 1).getD i 0))

/-- `ems_create`. -/
def emsCreate (eventId : UInt32) (numRows numCols : UInt64) : Program UInt32 := do
  Talk.write [opCreate]
  Talk.write (le4 eventId)
  Talk.write (le8 numRows ++ le8 numCols)
  readReturnValue

/-- `ems_reserve`. -/
def emsReserve (eventId : UInt32) (numSeats : UInt64) (xs ys : SeatArray) : Program UInt32 := do
  Talk.write [opReserve]
  Talk.write (le4 eventId)
  Talk.write (le8 numSeats)
  Talk.write (arrayBytes xs)
  Talk.write (arrayBytes ys)
  readReturnValue

/-- `ems_show` behind its loops. -/
def showSeats : Option (List Char) → Program UInt32
  | none => do
    Talk.act .spin
    pure 1
  | some text => do
    Talk.act (.print text)
    readReturnValue

/-- `ems_show` behind the header. -/
def readSeats (junk : Nat → UInt8) (numRows numCols : UInt64) : Program UInt32 := do
  let numSeats := numRows * numCols
  let seats ← Talk.readBytes (4 * numSeats).toNat
  showSeats (showText numRows numCols (overlay (4 * numSeats).toNat seats junk))

/-- `ems_show` behind its request. -/
def readMatrix (junk : Nat → UInt8) : Program UInt32 := do
  let header ← Talk.readBytes 16
  if header = [] then pure 1
  else
    let numMatrix := overlay 16 header junk
    readSeats junk (size (numMatrix.take 8)) (size (numMatrix.drop 8))

/-- `ems_show`. -/
def emsShow (junk : Nat → UInt8) (eventId : UInt32) : Program UInt32 := do
  Talk.write [opShow]
  Talk.write (le4 eventId)
  readMatrix junk

/-- `ems_list_events` behind its request; an end of the file is only noticed at the last
read. -/
def readIds (junk : Nat → UInt8) : Program UInt32 := do
  let header ← Talk.readBytes 8
  let numSeats := size (overlay 8 header fun _ => 0)
  let ids ← Talk.readBytes (4 * numSeats).toNat
  Talk.act (.print (listText numSeats (overlay (4 * numSeats).toNat ids junk)))
  readReturnValue

/-- `ems_list_events`. -/
def emsListEvents (junk : Nat → UInt8) : Program UInt32 := do
  Talk.write [opList]
  readIds junk

/-- `ems_quit`. -/
def emsQuit : Program UInt32 := do
  Talk.write [opQuit]
  pure 0

/-- A call of an operation. -/
def call (junk : Nat → UInt8) : Call → Program UInt32
  | .create eventId numRows numCols => emsCreate eventId numRows numCols
  | .reserve eventId numSeats xs ys => emsReserve eventId numSeats xs ys
  | .showEvent eventId => emsShow junk eventId
  | .listEvents => emsListEvents junk

/-- The calls, one after the other, and `ems_quit`. -/
def session (junk : Nat → UInt8) : List Call → Program UInt32
  | [] => do
    Talk.act .quit
    emsQuit
  | c :: rest => do
    Talk.act (.enter c)
    let ret ← call junk c
    Talk.act (.leave ret)
    session junk rest

end Ems.Client
