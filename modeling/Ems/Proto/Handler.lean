import Ems.Proto.Calls
import Ems.Wire.Talk

/-!
# The server's end of a session

The loop of `handle_requests` in `server/sessions.c`, field by field as it reads
them.

Mirroring notes:
- Reads and writes do not fail, so there is no `CLIENT_FAILED`; a read of no bytes is
  the end of the file.
- A short read leaves the rest of the variable as it was. `stale` is what was there:
  after a short read the next one gets nothing, so one such memory is enough.
- The operations are the question `act`: what they do to the store and reply is
  `Call.exec`.
-/

namespace Ems.Proto

open Wire Server

/-- `CLIENT_SUCCESS`, `CLIENT_FAILED` and `CLIENT_UNRESPONSIVE`. -/
inductive Status where
  | success
  | failed
  | unresponsive
deriving DecidableEq, Repr

/-- The server's program: its questions are the calls, its result is the returned
status, or nothing when the loop goes on. -/
abbrev Server := Talk Call Reply (Option Status)

/-- `if ((io_status = safe_read(req_fd, &x, n)) <= 0) ... return CLIENT_UNRESPONSIVE;` -/
def field (stale : Nat → UInt8) (n : Nat) (next : List UInt8 → Server) : Server := do
  let bs ← Talk.readBytes n
  if bs = [] then pure (some .unresponsive)
  else next (overlay n bs stale)

/-- The writes, one after the other. -/
def writeAll {E R : Type} : List (List UInt8) → Talk E R Unit
  | [] => pure ()
  | bytes :: rest => do
    Talk.write bytes
    writeAll rest

/-- The operation and the reply to it. -/
def respond (c : Call) : Server := do
  let reply ← Talk.act c
  writeAll (replyWrites reply)
  pure none

/-- One iteration of the loop of `handle_requests`. -/
def handleRequest (stale : Nat → UInt8) : Server :=
  field stale 1 fun op =>
    if op = [opQuit] then pure (some .success)
    else if op = [opCreate] then
      field stale 4 fun eventId =>
      field stale 16 fun numMatrix =>
      respond (.create (uint eventId) (size (numMatrix.take 8)) (size (numMatrix.drop 8)))
    else if op = [opReserve] then
      field stale 4 fun eventId =>
      field stale 8 fun numSeats =>
      field stale 2048 fun xs =>
      field stale 2048 fun ys =>
      respond (.reserve (uint eventId) (size numSeats) (seatArray xs) (seatArray ys))
    else if op = [opShow] then
      field stale 4 fun eventId =>
      respond (.showEvent (uint eventId))
    else if op = [opList] then respond .listEvents
    else pure none

/-! ## Reading a request -/

variable {stale : Nat → UInt8}

/-- A field that is there whole. -/
theorem feed_field (pass : Call → Option Reply) {n : Nat} {x : List UInt8} (hlen : x.length = n)
    (hpos : 0 < n) (next : List UInt8 → Server) (w : List UInt8) :
    (field stale n next).feed pass (x ++ w) = (next x).feed pass w := by
  unfold field
  rw [Talk.feed_readBytes pass hlen]
  subst hlen
  rw [if_neg (List.length_pos_iff.mp hpos), overlay_full]

/-- The server reads a `QUIT`. -/
theorem feed_quit (pass : Call → Option Reply) (w : List UInt8) :
    (handleRequest stale).feed pass (opQuit :: w) = ([], pure (some .success), w) := by
  have happ : opQuit :: w = [opQuit] ++ w := rfl
  unfold handleRequest
  rw [happ, feed_field pass List.length_singleton Nat.one_pos, if_pos rfl]
  rfl

/-- The server reads a request as the call it is. -/
theorem feed_encode (pass : Call → Option Reply) (c : Call) (w : List UInt8) :
    (handleRequest stale).feed pass (c.encode ++ w) = (respond c).feed pass w := by
  unfold handleRequest
  cases c with
  | create eventId numRows numCols =>
    have happ : (Call.create eventId numRows numCols).encode ++ w =
        [opCreate] ++ (le4 eventId ++ ((le8 numRows ++ le8 numCols) ++ w)) := by
      simp [Call.encode, Call.fields]
    rw [happ, feed_field pass List.length_singleton Nat.one_pos]
    rw [if_neg (by decide), if_pos rfl]
    rw [feed_field pass (le4_length _) (by decide), feed_field pass (by simp) (by decide)]
    simp
  | reserve eventId numSeats xs ys =>
    have happ : (Call.reserve eventId numSeats xs ys).encode ++ w =
        [opReserve] ++ (le4 eventId ++ (le8 numSeats ++ (arrayBytes xs ++ (arrayBytes ys ++ w)))) := by
      simp [Call.encode, Call.fields]
    rw [happ, feed_field pass List.length_singleton Nat.one_pos]
    rw [if_neg (by decide), if_neg (by decide), if_pos rfl]
    rw [feed_field pass (le4_length _) (by decide), feed_field pass (le8_length _) (by decide),
      feed_field pass (arrayBytes_length _) (by decide),
      feed_field pass (arrayBytes_length _) (by decide)]
    simp
  | showEvent eventId =>
    have happ : (Call.showEvent eventId).encode ++ w = [opShow] ++ (le4 eventId ++ w) := by
      simp [Call.encode, Call.fields]
    rw [happ, feed_field pass List.length_singleton Nat.one_pos]
    rw [if_neg (by decide), if_neg (by decide), if_neg (by decide), if_pos rfl]
    rw [feed_field pass (le4_length _) (by decide)]
    simp
  | listEvents =>
    have happ : Call.listEvents.encode ++ w = [opList] ++ w := by
      simp [Call.encode, Call.fields]
    rw [happ, feed_field pass List.length_singleton Nat.one_pos]
    rw [if_neg (by decide), if_neg (by decide), if_neg (by decide), if_neg (by decide), if_pos rfl]

end Ems.Proto
