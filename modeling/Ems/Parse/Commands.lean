import Ems.Parse.Uint

/-!
# The command parsers

`parser.c` of both parts. The two files are one text: the first part's
`get_next` also knows `BARRIER`, and the second part's `main` calls `parse_wait`
without a pointer for the thread id. These are the two parameters here;
`Jobs/Parser.lean` and `Client/Parser.lean` fix them.

Mirroring notes:
- `cleanup` is `Reading.skipLine`.
- `read(fd, buf + 1, n) != n || strncmp(buf, text, n + 1) != 0` is one
  comparison: the first byte is known, and too few bytes are not the right ones.
- A parser that fails (1, 0, -1) returns nothing; what it has stored through its
  pointers by then is not used by its callers.
- The recurring `if (read_uint(fd, &x, &ch) != 0 || ch != sep) { cleanup(fd);
  return failure; }` is `field`, the same with one `read` is `byte`.
-/

namespace Ems.Parse

open Base

/-- The characters of a string literal. -/
def bytes (s : String) : List UInt8 := s.toList.map Char.toUInt8

/-- `enum Command`. -/
inductive Command where
  | create
  | reserve
  | showEvent
  | listEvents
  | barrier
  | wait
  | help
  | empty
  | invalid
  | eoc
deriving DecidableEq, Repr

/-- `MAX_RESERVATION_SIZE`. -/
def maxReservationSize : Nat := 256

/-- `cleanup(fd); return CMD_INVALID;` -/
def invalidLine : Reading Command := do
  Reading.skipLine
  pure .invalid

/-- A case of `get_next` for a keyword that arguments follow, its first byte
already read. -/
def keyword (text : List UInt8) (command : Command) : Reading Command := do
  let rest ← Reading.readBytes (text.length - 1)
  if rest ≠ text.tail then invalidLine
  else pure command

/-- A case of `get_next` for a keyword that ends the line. -/
def bareKeyword (text : List UInt8) (command : Command) : Reading Command := do
  let rest ← Reading.readBytes (text.length - 1)
  if rest ≠ text.tail then invalidLine
  else
    match ← Reading.readBytes 1 with
    | [] => pure command
    | c :: _ => if c ≠ nl then invalidLine else pure command

/-- `get_next`; `barrier` says whether there is a case for `BARRIER`. -/
def getNext (barrier : Bool) : Reading Command := do
  match ← Reading.readBytes 1 with
  | [] => pure .eoc
  | c :: _ =>
    if c = 'C'.toUInt8 then keyword (bytes "CREATE ") .create
    else if c = 'R'.toUInt8 then keyword (bytes "RESERVE ") .reserve
    else if c = 'S'.toUInt8 then keyword (bytes "SHOW ") .showEvent
    else if c = 'L'.toUInt8 then bareKeyword (bytes "LIST") .listEvents
    else if barrier ∧ c = 'B'.toUInt8 then bareKeyword (bytes "BARRIER") .barrier
    else if c = 'W'.toUInt8 then keyword (bytes "WAIT ") .wait
    else if c = 'H'.toUInt8 then bareKeyword (bytes "HELP") .help
    else if c = '#'.toUInt8 then do
      Reading.skipLine
      pure .empty
    else if c = nl then pure .empty
    else invalidLine

/-- `cleanup(fd); return` with a failure. -/
def fail {β : Type} : Reading (Option β) := do
  Reading.skipLine
  pure none

/-- An integer and the byte that has to follow it. -/
def field {β : Type} (junk : List UInt8) (accept : UInt8 → Bool)
    (next : UInt32 → Reading (Option β)) : Reading (Option β) := do
  match ← readUint junk with
  | (none, _) => fail
  | (some value, ch) => if !accept ch then fail else next value

/-- A byte that has to be there. -/
def byte {β : Type} (accept : UInt8 → Bool) (next : UInt8 → Reading (Option β)) :
    Reading (Option β) := do
  match ← Reading.readBytes 1 with
  | [] => fail
  | ch :: _ => if !accept ch then fail else next ch

/-- `ch == c`. -/
def is (c : Char) (ch : UInt8) : Bool := ch = c.toUInt8

/-- `ch == '\n' || ch == '\0'`. -/
def isEnd (ch : UInt8) : Bool := ch = nl || ch = 0

/-- `parse_create`. -/
def parseCreate (junk : List UInt8) : Reading (Option (UInt32 × UInt64 × UInt64)) :=
  field junk (is ' ') fun eventId =>
  field junk (is ' ') fun numRows =>
  field junk isEnd fun numCols =>
  pure (some (eventId, numRows.toUInt64, numCols.toUInt64))

/-- `parse_reserve` after its loop. -/
def finishReserve (max : Nat) (eventId : UInt32) (coords : List (UInt64 × UInt64)) :
    Reading (Option (UInt32 × List (UInt64 × UInt64))) :=
  if coords.length = max then fail
  else byte isEnd fun _ => pure (some (eventId, coords))

/-- The loop of `parse_reserve`; the first argument is `max - num_coords`. -/
def parseCoords (junk : List UInt8) (max : Nat) (eventId : UInt32) :
    Nat → List (UInt64 × UInt64) → Reading (Option (UInt32 × List (UInt64 × UInt64)))
  | 0, coords => finishReserve max eventId coords
  | left + 1, coords =>
    byte (is '(') fun _ =>
    field junk (is ',') fun x =>
    field junk (is ')') fun y =>
    byte (fun ch => is ' ' ch || is ']' ch) fun ch =>
    let coords := coords ++ [(x.toUInt64, y.toUInt64)]
    if is ']' ch then finishReserve max eventId coords
    else parseCoords junk max eventId left coords

/-- `parse_reserve`. -/
def parseReserve (junk : List UInt8) (max : Nat) :
    Reading (Option (UInt32 × List (UInt64 × UInt64))) :=
  field junk (is ' ') fun eventId =>
  byte (is '[') fun _ =>
  parseCoords junk max eventId max []

/-- `parse_show`. -/
def parseShow (junk : List UInt8) : Reading (Option UInt32) :=
  field junk isEnd fun eventId => pure (some eventId)

/-- `parse_wait`; `target` says whether `thread_id` is given. The result is the
delay and, when it returns 1, the thread id. -/
def parseWait (junk : List UInt8) (target : Bool) :
    Reading (Option (UInt32 × Option UInt32)) := do
  match ← readUint junk with
  | (none, _) => fail
  | (some delay, ch) =>
    if ch = ' '.toUInt8 then
      if !target then do
        Reading.skipLine
        pure (some (delay, none))
      else field junk isEnd fun threadId => pure (some (delay, some threadId))
    else if isEnd ch then pure (some (delay, none))
    else fail

/-- What a line of a job file asks for. -/
inductive Decoded where
  | create (eventId : UInt32) (numRows numCols : UInt64)
  | reserve (eventId : UInt32) (coords : List (UInt64 × UInt64))
  | showEvent (eventId : UInt32)
  | listEvents
  | barrier
  | wait (delay : UInt32) (threadId : Option UInt32)
  | help
  | empty
  | invalid
  | eoc
deriving DecidableEq, Repr

/-- The `parse_*` function of a command. -/
def arguments (junk : List UInt8) (target : Bool) : Command → Reading Decoded
  | .create => do
    match ← parseCreate junk with
    | none => pure .invalid
    | some (eventId, numRows, numCols) => pure (.create eventId numRows numCols)
  | .reserve => do
    match ← parseReserve junk maxReservationSize with
    | none => pure .invalid
    | some (eventId, coords) => pure (.reserve eventId coords)
  | .showEvent => do
    match ← parseShow junk with
    | none => pure .invalid
    | some eventId => pure (.showEvent eventId)
  | .wait => do
    match ← parseWait junk target with
    | none => pure .invalid
    | some (delay, threadId) => pure (.wait delay threadId)
  | .listEvents => pure .listEvents
  | .barrier => pure .barrier
  | .help => pure .help
  | .empty => pure .empty
  | .invalid => pure .invalid
  | .eoc => pure .eoc

/-- `get_next` and the matching `parse_*`: with `BARRIER` in the first part, without in
the second, whose `main` has no use for a thread id. -/
def next (barrier target : Bool) (junk : List UInt8) : Reading Decoded := do
  let command ← getNext barrier
  arguments junk target command

/-- The command in a list; the end of the file is none. -/
def Decoded.listed : Decoded → List Decoded
  | .eoc => []
  | command => [command]

end Ems.Parse
