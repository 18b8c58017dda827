import Ems.Parse.Commands

/-!
# The job runner's parser

`parser.c` of the first part, and what `process_commands` does with it while it
holds `parseMutex`.
-/

namespace Ems.Jobs

open Base Parse

/-- `read_uint`. -/
def readUint (junk : List UInt8) : Reading (Option UInt32 × UInt8) := Parse.readUint junk

/-- `get_next`, with `BARRIER`. -/
def getNext : Reading Command := Parse.getNext true

/-- `parse_create`. -/
def parseCreate (junk : List UInt8) : Reading (Option (UInt32 × UInt64 × UInt64)) :=
  Parse.parseCreate junk

/-- `parse_reserve(job_fd, MAX_RESERVATION_SIZE, ...)`. -/
def parseReserve (junk : List UInt8) : Reading (Option (UInt32 × List (UInt64 × UInt64))) :=
  Parse.parseReserve junk maxReservationSize

/-- `parse_show`. -/
def parseShow (junk : List UInt8) : Reading (Option UInt32) := Parse.parseShow junk

/-- `parse_wait`, with a thread id. -/
def parseWait (junk : List UInt8) : Reading (Option (UInt32 × Option UInt32)) :=
  Parse.parseWait junk true

/-- What `process_commands` makes of a command: its arguments, and
`CMD_INVALID`'s message when they are missing. A `WAIT` of 0 is invalid too. -/
def arguments (junk : List UInt8) : Command → Reading Decoded
  | .create => do
    match ← parseCreate junk with
    | none => pure .invalid
    | some (eventId, numRows, numCols) => pure (.create eventId numRows numCols)
  | .reserve => do
    match ← parseReserve junk with
    | none => pure .invalid
    | some (eventId, coords) => pure (.reserve eventId coords)
  | .showEvent => do
    match ← parseShow junk with
    | none => pure .invalid
    | some eventId => pure (.showEvent eventId)
  | .wait => do
    match ← parseWait junk with
    | none => pure .invalid
    | some (delay, threadId) => if delay = 0 then pure .invalid else pure (.wait delay threadId)
  | .listEvents => pure .listEvents
  | .barrier => pure .barrier
  | .help => pure .help
  | .empty => pure .empty
  | .invalid => pure .invalid
  | .eoc => pure .eoc

/-- One turn of `process_commands` at the file. -/
def decode (junk : List UInt8) : Reading Decoded := do
  let command ← getNext
  arguments junk command

end Ems.Jobs
