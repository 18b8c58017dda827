import Ems.Client.Output
import Ems.Conc.Crew
import Ems.Jobs.Operations

/-!
# The operations of the job runner as programs

`ems_create`, `ems_reserve`, `ems_show` and `ems_list_events` of the first part from top
to bottom, with every lock call, every unlock and every early return where the source has
it. `system` is the store they work on and the `.out` file.

Mirroring notes:
- The mutex `file_Lock` is a lock that is only taken for writing. The lock calls of this
  part are not tested: they wait until the lock is granted.
- `load` is a look at the fields of `struct Event` that nobody writes once the event is in
  the list: the id and the dimensions.
- `buffer` is kept as its first `n_bytes` bytes. A store behind its end is undefined, and
  so is what `snprintf` would leave there of a text that does not fit.
- `write` is asked for some bytes and writes at least one of them; the bytes already
  written are no longer asked for. Only -1 is an error.
- The list is as long as it is when it is begun to be read, which the lock of the list
  makes sure of; its events are visited one at a time.
- An event with 2^64 - 1 rows has no room for its seats, so that the loop over them leaves
  the block long before its counter wraps. That step is never made.
- The delays and the messages are left out. `EXIT_SUCCESS` is 0 and `EXIT_FAILURE` is 1.
-/

namespace Ems.Jobs.Programs

open Conc Conc.Program
open Server (Request)
open Client (decimal idLine)

/-- The locks, in the order in which they are declared but for `file_Lock`. -/
inductive Lock where
  | list
  | event
  | seat
  | file
deriving DecidableEq, Repr

/-- What an operation does besides taking and giving back locks. -/
inductive Action where
  /-- `ems->event_list != NULL` -/
  | initialized
  /-- `get_event` -/
  | lookup (eventId : UInt32)
  | load (e : Nat)
  | malloc
  /-- `append_to_list` with its `malloc` -/
  | append (event : Event)
  /-- `++event->reservations` -/
  | bump (e : Nat)
  /-- `event->reservations--` -/
  | undo (e : Nat)
  | readSeat (e i : Nat)
  | writeSeat (e i : Nat) (value : UInt32)
  /-- how many nodes there are from `head` on -/
  | nodes
  /-- `(current->event)->id` at the `i`-th node -/
  | nodeId (i : Nat)
  | snprintf
  | write (text : List Char)

/-- What an action is answered; `write` with how many bytes behind the first one it has
written, or with -1. -/
abbrev Answer : Action → Type
  | .initialized => Bool
  | .lookup _ => Option Nat
  | .load _ => Event
  | .malloc => Bool
  | .append _ => Bool
  | .bump _ => UInt32
  | .undo _ => Unit
  | .readSeat _ _ => UInt32
  | .writeSeat _ _ _ => Unit
  | .nodes => Nat
  | .nodeId _ => UInt32
  | .snprintf => Bool
  | .write text => Option (Fin text.length)

/-- Code of an operation. -/
abbrev Code := Program Lock Action Answer

/-- An action. -/
abbrev ask (e : Action) : Code (Answer e) := perform e

/-- `BUFSIZ`. -/
def bufsiz : Nat := 8192

/-- `BUFFER_FLUSH_THOLD`. -/
def bufferFlushThold : Nat := 20

/-! ## ems_create -/

def emsCreate (eventId : UInt32) (numRows numCols : UInt64) : Code Nat := do
  acquire .list .read
  let ready : Bool ← ask .initialized
  if !ready then
    release .list
    return 1
  acquire .event .read
  let found : Option Nat ← ask (.lookup eventId)
  if found.isSome then
    release .list
    release .event
    return 1
  release .event
  release .list
  -- both locks are free here
  let event : Bool ← ask .malloc
  if !event then return 1
  let data : Bool ← ask .malloc
  if !data then return 1
  acquire .list .write
  let node : Bool ← ask (.append {
    id := eventId, reservations := 0, cols := numCols, rows := numRows
    data := zeroedCells numRows numCols })
  if !node then
    release .list
    return 1
  release .list
  return 0

/-! ## ems_reserve -/

/-- The first loop from its `i`-th iteration on, of `n` that are left: the `i` it ends
with. -/
def markSeats (e : Nat) (q : Request) (reservationId : UInt32) : Nat → Nat → Code Nat
  | i, 0 => pure i
  | i, n + 1 => do
    let event : Event ← ask (.load e)
    if outOfBounds event (q.xs i) (q.ys i) then return i
    let seat : UInt32 ← ask (.readSeat e (index event q i))
    if seat != 0 then return i
    let _ : Unit ← ask (.writeSeat e (index event q i) reservationId)
    markSeats e q reservationId (i + 1) n

/-- The second loop from the `j`-th seat on, `n` of them. -/
def clearSeats (e : Nat) (q : Request) : Nat → Nat → Code Unit
  | _, 0 => pure ()
  | j, n + 1 => do
    let event : Event ← ask (.load e)
    let _ : Unit ← ask (.writeSeat e (index event q j) 0)
    clearSeats e q (j + 1) n

/-- `ems_reserve` from `event_Lock` on. -/
def reserveEvent (e : Nat) (q : Request) : Code Nat := do
  acquire .event .write
  let reservationId : UInt32 ← ask (.bump e)
  acquire .seat .write
  let i ← markSeats e q reservationId 0 q.numSeats.toNat
  if i < q.numSeats.toNat then
    let _ : Unit ← ask (.undo e)
    clearSeats e q 0 i
    release .seat
    release .event
    return 1
  release .event
  release .seat
  return 0

def emsReserve (q : Request) : Code Nat := do
  acquire .list .read
  let ready : Bool ← ask .initialized
  if !ready then
    release .list
    return 1
  acquire .event .read
  let found : Option Nat ← ask (.lookup q.eventId)
  release .event
  release .list
  match found with
  | none => return 1
  | some e => reserveEvent e q

/-! ## Output -/

/-- `safe_write`, at most `n` calls of `write`: whether it succeeds. As every `write`
takes a byte, as many calls as there are bytes are enough. -/
def safeWriteIn : Nat → List Char → Code Bool
  | 0, _ => pure true
  | _ + 1, [] => pure true
  | n + 1, c :: text => do
    let wbytes : Option (Fin (text.length + 1)) ← ask (.write (c :: text))
    match wbytes with
    | none => return false
    | some i => safeWriteIn n ((c :: text).drop (i + 1))

/-- `safe_write`. -/
def safeWrite (text : List Char) : Code Bool := safeWriteIn text.length text

/-- `buffer`, up to `n_bytes`, and whether `flushes` is not 0. -/
structure Output where
  buffer : List Char
  flushed : Bool

/-- `n_bytes += snprintf(buffer + n_bytes, BUFSIZ - n_bytes, ...)`, when it succeeds: the
text and its NUL. -/
def printText (out : Output) (text : List Char) : Code Output :=
  if out.buffer.length + text.length < bufsiz then
    pure { out with buffer := out.buffer ++ text }
  else .undefined

/-- `buffer[n_bytes++] = c` -/
def putChar (out : Output) (c : Char) : Code Output :=
  if out.buffer.length < bufsiz then pure { out with buffer := out.buffer ++ [c] }
  else .undefined

/-- `if (!flushes) pthread_mutex_lock(&file_Lock);` -/
def lockFile (out : Output) : Code Unit :=
  if out.flushed then pure () else acquire .file .write

/-- The test for a flush. -/
def Output.full (out : Output) : Bool := bufsiz - out.buffer.length ≤ bufferFlushThold

/-- A flush inside the loops, if there is to be one; `none` when it fails, with the
unlocks of `fail`. -/
def flush (out : Output) (fail : Code Unit) : Code (Option Output) := do
  if out.full then
    lockFile out
    let written ← safeWrite out.buffer
    if !written then
      fail
      return none
    return some ⟨[], true⟩
  return some out

/-- Behind the loops: what is left in the buffer goes out. The two operations give back
the lock of what they have read at different times. -/
def finish (out : Output) (unlock : Code Unit) : Code Nat := do
  lockFile out
  let written ← safeWrite out.buffer
  if !written then
    unlock
    release .file
    return 1
  release .file
  unlock
  return 0

/-! ## ems_show -/

/-- The text of a seat in column `j`. -/
def seatText (event : Event) (j : Nat) (seat : UInt32) : List Char :=
  decimal seat ++ if j < event.cols.toNat then [' '] else []

/-- A seat in column `j`, and the blank behind it. -/
def printSeat (event : Event) (j : Nat) (seat : UInt32) (out : Output) : Code Output := do
  let out ← printText out (decimal seat)
  if j < event.cols.toNat then putChar out ' ' else pure out

/-- The loop over the columns of row `i`, from column `j` on, `n` of them; `none` when the
operation has failed and given back its locks. -/
def showRow (e : Nat) (event : Event) (i : Nat) : Nat → Nat → Output → Code (Option Output)
  | _, 0, out => pure (some out)
  | j, n + 1, out => do
    let seat : UInt32 ← ask
      (.readSeat e (seatIndex event (UInt64.ofNat i) (UInt64.ofNat j)).toNat)
    let added : Bool ← ask .snprintf
    if !added then
      release .seat
      return none
    let out ← printSeat event j seat out
    let written ← flush out do
      release .file
      release .seat
    match written with
    | none => return none
    | some out => showRow e event i (j + 1) n out

/-- The loop over the rows, from row `i` on, `n` of them. -/
def showRows (e : Nat) (event : Event) : Nat → Nat → Output → Code (Option Output)
  | _, 0, out => pure (some out)
  | i, n + 1, out => do
    let row ← showRow e event i 1 event.cols.toNat out
    match row with
    | none => return none
    | some out => do
      let out ← putChar out '\n'
      showRows e event (i + 1) n out

/-- `ems_show` from `seat_Lock` on. -/
def showEvent (e : Nat) : Code Nat := do
  acquire .seat .read
  let event : Event ← ask (.load e)
  let rows ← showRows e event 1 event.rows.toNat ⟨[], false⟩
  match rows with
  | none => return 1
  | some out => do
    release .seat
    finish out (pure ())

def emsShow (eventId : UInt32) : Code Nat := do
  acquire .list .read
  let ready : Bool ← ask .initialized
  if !ready then
    release .list
    return 1
  acquire .event .read
  let found : Option Nat ← ask (.lookup eventId)
  release .event
  release .list
  match found with
  | none => return 1
  | some e => showEvent e

/-! ## ems_list_events -/

/-- The loop over the list, from the `i`-th node on, `n` of them. -/
def listNodes : Nat → Nat → Output → Code (Option Output)
  | _, 0, out => pure (some out)
  | i, n + 1, out => do
    let id : UInt32 ← ask (.nodeId i)
    let added : Bool ← ask .snprintf
    if !added then
      release .list
      return none
    let out ← printText out (idLine id)
    let written ← flush out do
      release .list
      release .file
    match written with
    | none => return none
    | some out => listNodes (i + 1) n out

def emsListEvents : Code Nat := do
  acquire .list .read
  let ready : Bool ← ask .initialized
  if !ready then
    release .list
    return 1
  let n : Nat ← ask .nodes
  let text ← if n = 0 then pure (some ⟨"No events\n".toList, false⟩)
    else listNodes 0 n ⟨[], false⟩
  match text with
  | none => return 1
  | some out => finish out (release .list)

/-! ## The steps of the buffer -/

section Buffer

variable {μ β : Type} {S : Spec Lock Action Answer μ} {post : β → μ → Prop} {m : μ} {out : Output}

/-- A text goes into the buffer as long as there is room for it and its NUL. -/
@[simp] theorem wp_printText (text : List Char) (f : Output → Code β) :
    (printText out text >>= f).wp S post m ↔
      (out.buffer.length + text.length < bufsiz →
        (f { out with buffer := out.buffer ++ text }).wp S post m) ∧
      (bufsiz ≤ out.buffer.length + text.length → S.undefined m) := by
  unfold printText
  split
  next h => exact ⟨fun hf => ⟨fun _ => hf, fun hge => absurd h (Nat.not_lt.mpr hge)⟩, fun hf => hf.1 h⟩
  next h => exact ⟨fun hu => ⟨fun hlt => absurd hlt h, fun _ => hu⟩, fun hf => hf.2 (Nat.not_lt.mp h)⟩

/-- A character goes into the buffer as long as there is room for it. -/
@[simp] theorem wp_putChar (c : Char) (f : Output → Code β) :
    (putChar out c >>= f).wp S post m ↔
      (out.buffer.length < bufsiz →
        (f { out with buffer := out.buffer ++ [c] }).wp S post m) ∧
      (bufsiz ≤ out.buffer.length → S.undefined m) := by
  unfold putChar
  split
  next h => exact ⟨fun hf => ⟨fun _ => hf, fun hge => absurd h (Nat.not_lt.mpr hge)⟩, fun hf => hf.1 h⟩
  next h => exact ⟨fun hu => ⟨fun hlt => absurd hlt h, fun _ => hu⟩, fun hf => hf.2 (Nat.not_lt.mp h)⟩

/-- A seat, and the blank behind it unless it is the last one of its row. -/
@[simp] theorem wp_printSeat (event : Event) (j : Nat) (seat : UInt32) (f : Output → Code β) :
    (printSeat event j seat out >>= f).wp S post m ↔
      (out.buffer.length + (decimal seat).length < bufsiz →
        (f { out with buffer := out.buffer ++ seatText event j seat }).wp S post m) ∧
      (bufsiz ≤ out.buffer.length + (decimal seat).length → S.undefined m) := by
  unfold printSeat seatText printText
  split
  next h =>
    rw [pure_bind]
    split
    next => simp [putChar, h, Nat.not_le.mpr h]
    next => simp [h, Nat.not_le.mpr h]
  next h =>
    exact ⟨fun hu => ⟨fun hlt => absurd hlt h, fun _ => hu⟩, fun hf => hf.2 (Nat.not_lt.mp h)⟩

/-- The lock of the file is taken before the first flush and kept. -/
@[simp] theorem wp_lockFile (f : Unit → Code β) :
    (lockFile out >>= f).wp S post m ↔
      (out.flushed = true → (f ()).wp S post m) ∧
      (out.flushed = false → S.lock .file .write ((f ()).wp S post) m) := by
  unfold lockFile
  cases out.flushed <;> simp

end Buffer

/-! ## The system -/

/-- A call. -/
inductive Op where
  | create (eventId : UInt32) (numRows numCols : UInt64)
  | reserve (q : Request)
  | showEvent (eventId : UInt32)
  | listEvents

def Op.code : Op → Code Nat
  | .create eventId numRows numCols => emsCreate eventId numRows numCols
  | .reserve q => emsReserve q
  | .showEvent eventId => emsShow eventId
  | .listEvents => emsListEvents

/-- `ems->event_list` and the `.out` file. -/
structure Store where
  list : EventList
  file : List Char

/-- What is left to chance: whether a library call succeeds, and how many bytes a `write`
takes. -/
structure Choice where
  ok : Bool
  count : Nat

/-- An action on the event at position `e`. -/
def Store.onEvent {α : Type} (s : Store) (e : Nat) (f : Event → α × Event) : Option (α × Store) :=
  (s.list[e]?).map fun event => ((f event).1, { s with list := s.list.set e (f event).2 })

/-- The answers, after `ems_init`. A seat outside the block has none. -/
def answer (x : Choice) : (e : Action) → Store → Option (Answer e × Store)
  | .initialized, s => some (true, s)
  | .lookup eventId, s => some (getEvent s.list eventId, s)
  | .load e, s => (s.list[e]?).map fun event => (event, s)
  | .malloc, s => some (x.ok, s)
  | .append event, s =>
    if x.ok then some (true, { s with list := appendToList s.list event }) else some (false, s)
  | .bump e, s =>
    s.onEvent e fun event => ((bumpReservations event).reservations, bumpReservations event)
  | .undo e, s => s.onEvent e fun event => ((), undoReservations event)
  | .readSeat e i, s =>
    (s.list[e]?).bind fun event => (event.data[i]?).map fun seat => (seat, s)
  | .writeSeat e i value, s =>
    (s.list[e]?).bind fun event =>
      if i < event.data.length then s.onEvent e fun event => ((), setSeat event i value) else none
  | .nodes, s => some (s.list.length, s)
  | .nodeId i, s => (s.list[i]?).map fun event => (event.id, s)
  | .snprintf, s => some (x.ok, s)
  | .write text, s =>
    if x.ok then
      if h : 0 < text.length then
        some (some ⟨min x.count (text.length - 1), by omega⟩,
          { s with file := s.file ++ text.take (min x.count (text.length - 1) + 1) })
      else none
    else some (none, s)

/-! ## What an answer can be -/

/-- Every answer. -/
inductive Answers (x : Choice) : (e : Action) → Store → Answer e → Store → Prop where
  | initialized {s} : Answers x .initialized s true s
  | lookup {s id} : Answers x (.lookup id) s (getEvent s.list id) s
  | load {s e event} (he : s.list[e]? = some event) : Answers x (.load e) s event s
  | malloc {s} : Answers x .malloc s x.ok s
  | append {s event} (hok : x.ok = true) :
      Answers x (.append event) s true { s with list := appendToList s.list event }
  | appendFails {s event} (hok : x.ok = false) : Answers x (.append event) s false s
  | bump {s e event} (he : s.list[e]? = some event) :
      Answers x (.bump e) s (event.reservations + 1)
        { s with list := s.list.set e (bumpReservations event) }
  | undo {s e event} (he : s.list[e]? = some event) :
      Answers x (.undo e) s () { s with list := s.list.set e (undoReservations event) }
  | readSeat {s e i event seat} (he : s.list[e]? = some event) (hi : event.data[i]? = some seat) :
      Answers x (.readSeat e i) s seat s
  | writeSeat {s e i value event} (he : s.list[e]? = some event) (hi : i < event.data.length) :
      Answers x (.writeSeat e i value) s () { s with list := s.list.set e (setSeat event i value) }
  | nodes {s} : Answers x .nodes s s.list.length s
  | nodeId {s i event} (he : s.list[i]? = some event) : Answers x (.nodeId i) s event.id s
  | snprintf {s} : Answers x .snprintf s x.ok s
  | write {s text i} (hok : x.ok = true) :
      Answers x (.write text) s (some i) { s with file := s.file ++ text.take (i + 1) }
  | writeFails {s text} (hok : x.ok = false) : Answers x (.write text) s none s

section Answers

variable {x : Choice} {e : Action} {s s' : Store} {r : Answer e}

/-- What `onEvent` does to the event it is about, and to the list. -/
theorem onEvent_some {α : Type} {k : Nat} {f : Event → α × Event} {a : α}
    (h : s.onEvent k f = some (a, s')) : ∃ event, s.list[k]? = some event ∧ a = (f event).1 ∧
      s' = { s with list := s.list.set k (f event).2 } := by
  obtain ⟨event, he, heq⟩ := Option.map_eq_some_iff.mp h
  cases heq
  exact ⟨event, he, rfl, rfl⟩

/-- What an action is answered is one of the cases of `Answers`. -/
theorem answer_cases (h : answer x e s = some (r, s')) : Answers x e s r s' := by
  cases e with
  | initialized => cases h; exact .initialized
  | lookup => cases h; exact .lookup
  | load =>
    obtain ⟨event, he, heq⟩ := Option.map_eq_some_iff.mp h
    cases heq
    exact .load he
  | malloc => cases h; exact .malloc
  | append =>
    simp only [answer] at h
    split at h
    next hok => cases h; exact .append hok
    next hok => cases h; exact .appendFails (Bool.eq_false_of_not_eq_true hok)
  | bump =>
    obtain ⟨event, he, rfl, rfl⟩ := onEvent_some h
    exact .bump he
  | undo =>
    obtain ⟨event, he, -, rfl⟩ := onEvent_some h
    exact .undo he
  | readSeat =>
    obtain ⟨event, he, h⟩ := Option.bind_eq_some_iff.mp h
    obtain ⟨seat, hi, heq⟩ := Option.map_eq_some_iff.mp h
    cases heq
    exact .readSeat he hi
  | writeSeat =>
    obtain ⟨event, he, h⟩ := Option.bind_eq_some_iff.mp h
    split at h
    next hi =>
      obtain ⟨event', he', -, rfl⟩ := onEvent_some h
      rw [he] at he'
      cases he'
      exact .writeSeat he hi
    next => cases h
  | nodes => cases h; exact .nodes
  | nodeId =>
    obtain ⟨event, he, heq⟩ := Option.map_eq_some_iff.mp h
    cases heq
    exact .nodeId he
  | snprintf => cases h; exact .snprintf
  | write =>
    simp only [answer] at h
    split at h
    next hok =>
      split at h
      next => cases h; exact .write hok
      next => cases h
    next hok => cases h; exact .writeFails (Bool.eq_false_of_not_eq_true hok)

end Answers

/-- The operations on the store. -/
def system : System Lock Action Answer Nat Op Store Choice := ⟨Op.code, answer⟩

/-- Any number of threads, any calls. -/
abbrev State (T : Type) := Crew T Lock Action Answer Nat Op Store

/-- The calls of the threads `T`, from an empty list and an empty file on. -/
def machine (T : Type) [DecidableEq T] : Machine (State T) (Crew.Act T Op Choice) :=
  Crew.machine system ⟨createList, []⟩

/-- `n` steps of a thread; library calls succeed, and a `write` takes one byte. -/
def steps {T : Type} (t : T) (n : Nat) : List (Crew.Act T Op Choice) :=
  List.replicate n (.step t ⟨true, 0⟩)

/-! ## The locks of a thread -/

/-- How a thread holds each of the locks. -/
def locks (list event seat file : Option Mode) : Held Lock
  | .list => list
  | .event => event
  | .seat => seat
  | .file => file

section Locks

variable {list event seat file mode : Option Mode}

/-- Nothing is held in the beginning. -/
theorem locks_none : (fun _ => none) = locks none none none none := by
  funext l
  cases l <;> rfl

/-- How each of the four is held. -/
@[simp] theorem locks_list : locks list event seat file .list = list := rfl
@[simp] theorem locks_event : locks list event seat file .event = event := rfl
@[simp] theorem locks_seat : locks list event seat file .seat = seat := rfl
@[simp] theorem locks_file : locks list event seat file .file = file := rfl

/-- Taking or giving back the lock of the list leaves the other three. -/
@[simp] theorem update_list :
    Function.update (locks list event seat file) .list mode = locks mode event seat file := by
  funext l
  cases l <;> rfl

/-- Taking or giving back the lock of the events leaves the other three. -/
@[simp] theorem update_event :
    Function.update (locks list event seat file) .event mode = locks list mode seat file := by
  funext l
  cases l <;> rfl

/-- Taking or giving back the lock of the seats leaves the other three. -/
@[simp] theorem update_seat :
    Function.update (locks list event seat file) .seat mode = locks list event mode file := by
  funext l
  cases l <;> rfl

/-- Taking or giving back the lock of the file leaves the other three. -/
@[simp] theorem update_file :
    Function.update (locks list event seat file) .file mode = locks list event seat mode := by
  funext l
  cases l <;> rfl

/-- There are four locks. -/
theorem forall_lock {P : Lock → Prop} :
    (∀ l, P l) ↔ P .list ∧ P .event ∧ P .seat ∧ P .file :=
  ⟨fun h => ⟨h _, h _, h _, h _⟩, fun h l => by cases l <;> simp [h]⟩

/-- Nothing is locked when none of the four is. -/
@[simp] theorem free_locks : Free (locks list event seat file) ↔
    list = none ∧ event = none ∧ seat = none ∧ file = none := forall_lock

end Locks

end Ems.Jobs.Programs
