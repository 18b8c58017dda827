import Ems.Parse.Commands

/-!
# The client's parser

`parser.c` and `parse_uint` of the second part, and what the client's `main` does
with them.
-/

namespace Ems.Client

open Base Parse

/-- `parse_uint`. -/
def parseUint (junk : List UInt8) : Reading (Option UInt32 × UInt8) := Parse.readUint junk

/-- `get_next`, without `BARRIER`. -/
def getNext : Reading Command := Parse.getNext false

/-- `parse_create`. -/
def parseCreate (junk : List UInt8) : Reading (Option (UInt32 × UInt64 × UInt64)) :=
  Parse.parseCreate junk

/-- `parse_reserve(in_fd, MAX_RESERVATION_SIZE, ...)`. -/
def parseReserve (junk : List UInt8) : Reading (Option (UInt32 × List (UInt64 × UInt64))) :=
  Parse.parseReserve junk maxReservationSize

/-- `parse_show`. -/
def parseShow (junk : List UInt8) : Reading (Option UInt32) := Parse.parseShow junk

/-- `parse_wait(in_fd, &delay, NULL)`. -/
def parseWait (junk : List UInt8) : Reading (Option (UInt32 × Option UInt32)) :=
  Parse.parseWait junk false

/-- What the client's `main` makes of a command. -/
def arguments (junk : List UInt8) : Command → Reading Decoded
  | .create => do
    match ← parseCreate junk with
    | none => pure .invalid
    | some (eventId, numRows, numCols) => pure (.create eventId numRows numCols)
  | .reserve => do
    match ← parseReserve junk with
    | none => pure .invalid
    | some (eventId, coords) => pure (.reserve eventId coords)
  | .showEvent => do
    match ← parseShow junk with
    | none => pure .invalid
    | some eventId => pure (.showEvent eventId)
  | .wait => do
    match ← parseWait junk with
    | none => pure .invalid
    | some (delay, threadId) => pure (.wait delay threadId)
  | .listEvents => pure .listEvents
  | .barrier => pure .barrier
  | .help => pure .help
  | .empty => pure .empty
  | .invalid => pure .invalid
  | .eoc => pure .eoc

/-- One turn of the client's loop at the job file. -/
def decode (junk : List UInt8) : Reading Decoded := do
  let command ← getNext
  arguments junk command

end Ems.Client
