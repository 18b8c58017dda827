import Ems.Base.Chain
import Ems.Client.Output
import Ems.Server.Sessions

/-!
# The event list in memory

`Store.lean` takes the list of events for what it is meant to be, a sequence. Here
it is what the code has: a counter, two pointers and a `next` field in every node,
written one after the other. `append_to_list` is four steps of its session, so that
between them the three disagree; `get_event` and the two listing loops stop at the
node `tail` points to and nowhere else.

Mirroring notes:
- A node is the number of nodes that `malloc` had given out before it; `struct
  Event *` is the node that holds it. `next` and `event` are the memory of the nodes.
- `none` of a memory access is the access through a null pointer.
- `get_event` is one step, as in `Sessions.lean`: it only reads, under the lock.
  Its fuel is the number of nodes, more of which only a loop that goes in circles
  comes by. Where a session can be interrupted is taken over from there, and the places
  that do not touch the list are `Server.advance` itself (`lockStep`).
- `ems_sigusr1_action` has the list's lock and each event's mutex in turn; what it
  prints is a function of the list it finds. `none` is also the read of a seat outside
  the block, and a session has no step that would store one there.
-/

namespace Ems.Server.Nodes

open Conc Base

/-- `struct EventList`, and the memory of the nodes given out so far. -/
structure EventList where
  eventNum : UInt64
  head : Option Nat
  tail : Option Nat
  next : Nat → Option Nat
  event : Nat → Event
  fresh : Nat

/-- `create_list`. -/
def createList : EventList := ⟨0, none, none, fun _ => none, fun _ => ⟨0, 0, 0, 0, []⟩, 0⟩

/-! ## `append_to_list`, statement by statement -/

/-- The new node: its event, and no `next`. -/
def newNode (list : EventList) (event : Event) : EventList :=
  { list with
    event := Function.update list.event list.fresh event,
    next := Function.update list.next list.fresh none,
    fresh := list.fresh + 1 }

/-- `list->head = new_node` in an empty list, `list->tail->next = new_node` in any other. -/
def link (list : EventList) (new : Nat) : Option EventList :=
  match list.head with
  | none => some { list with head := some new }
  | some _ => list.tail.map fun last =>
    { list with next := Function.update list.next last (some new) }

/-- `list->tail = new_node`. -/
def setTail (list : EventList) (new : Nat) : EventList := { list with tail := some new }

/-- `list->event_num++`. -/
def count (list : EventList) : EventList := { list with eventNum := list.eventNum + 1 }

/-! ## The loops over the list -/

/-- `get_event(list, event_id, from, to)`: the node, if there is one. -/
def getEvent (list : EventList) (eventId : UInt32) (first last : Option Nat) (fuel : Nat) :
    Option (Option Nat) :=
  match first, last with
  | some a, some b => search list.next (fun node => (list.event node).id == eventId) b fuel a
  | _, _ => some none

/-- What `ems_list_events` sends, run alone: the counter and the ids. -/
def emsListEvents (list : EventList) (fuel : Nat) : Option (UInt64 × List UInt32) :=
  if list.eventNum = 0 then some (0, [])
  else
    match list.head, list.tail with
    | some current, some last =>
      (visit list.next last fuel current).map fun nodes =>
        (list.eventNum, nodes.map fun node => (list.event node).id)
    | _, _ => none

/-- What `ems_sigusr1_action` prints of one row, unless its loop does not end or reads a
seat outside the block. -/
def rowText (event : Event) (i : UInt64) : Option (List Char) := do
  let seats ← Client.loopText event.cols fun j =>
    event.data[(seatIndex event i j).toNat]?.map fun seat =>
      Client.decimal seat ++ if j < event.cols then [' '] else []
  pure (seats ++ ['\n'])

/-- What it prints of one event. -/
def eventText (event : Event) : Option (List Char) := do
  let rows ← Client.loopText event.rows (rowText event)
  pure ("Event: ".toList ++ Client.decimal event.id ++ ['\n'] ++ rows)

/-- What `ems_sigusr1_action` prints, if it ends. -/
def emsSigusr1Action (list : EventList) (fuel : Nat) : Option (List Char) :=
  match list.head, list.tail with
  | none, _ => some "No events\n".toList
  | some _, none => none
  | some current, some last => do
    let nodes ← visit list.next last fuel current
    let texts ← nodes.mapM fun node => eventText (list.event node)
    pure texts.flatten

/-! ## The sessions -/

/-- The local variables of the function a session is in. -/
inductive Vars where
  | nothing
  /-- in `append_to_list`: the new node is not in the list yet -/
  | allocated (newNode : Nat)
  /-- the new node is linked, and `tail` still points to the one before it -/
  | linked (newNode : Nat)
  /-- all but `event_num` is done -/
  | appended
  /-- in the loop of `ems_list_events` -/
  | listing (current : Nat)
deriving DecidableEq, Repr

/-- The list in memory, its locks and the sessions. -/
structure State where
  list : EventList
  rwl : RwLock Tid
  mutex : Nat → Option Tid
  pc : Tid → Pc
  vars : Tid → Vars

/-- No events, all locks free, every session idle. -/
def State.init : State :=
  ⟨createList, RwLock.free, fun _ => none, fun _ => .idle, fun _ => .nothing⟩

/-- Session `t` moves to `pc` with the local variables `vars`. -/
def State.enter (s : State) (t : Tid) (pc : Pc) (vars : Vars) : State :=
  { s with pc := Function.update s.pc t pc, vars := Function.update s.vars t vars }

/-- Session `t` moves to a place without local variables. -/
abbrev State.goto (s : State) (t : Tid) (pc : Pc) : State := s.enter t pc .nothing

/-- The event of the node `e` becomes `event`. -/
def State.setEvent (s : State) (e : Nat) (event : Event) : State :=
  { s with list := { s.list with event := Function.update s.list.event e event } }

/-- The locks and the places, as the sequence model has them. -/
def State.locks (s : State) : Server.State := ⟨Server.createList, s.rwl, s.mutex, s.pc⟩

/-- An action that does not touch the list. -/
def lockStep (s : State) (a : Act) : Option State :=
  (Server.step s.locks a).map fun v => { s with rwl := v.rwl, mutex := v.mutex, pc := v.pc }

/-- The allocations of `ems_create` and `append_to_list`, in their order: the new event. -/
def allocEvent (alloc : Alloc) (eventId : UInt32) (numRows numCols : UInt64) : Option Event :=
  if !alloc.event then none
  else if !alloc.mutexInit then none
  else
    match calloc alloc.data (numRows * numCols) with
    | none => none
    | some data =>
      if !alloc.node then none
      else some { id := eventId, reservations := 0, cols := numCols, rows := numRows, data := data }

/-- One step of session `t`. -/
def advance (s : State) (t : Tid) (c : Choice) : Option State :=
  match s.pc t with
  | .createLookup id rows cols =>
    (getEvent s.list id s.list.head s.list.tail s.list.fresh).map fun event =>
      if event.isSome then s.goto t (.createUnlock 1) else s.goto t (.createAppend id rows cols)
  | .createAppend id rows cols =>
    match s.vars t with
    -- `append_to_list`: the node is linked, `tail` moves, the event is counted
    | .allocated new =>
      (link s.list new).map fun list =>
        { s with list := list }.enter t (.createAppend id rows cols) (.linked new)
    | .linked new =>
      some ({ s with list := setTail s.list new }.enter t (.createAppend id rows cols) .appended)
    | .appended => some ({ s with list := count s.list }.goto t (.createUnlock 0))
    | _ =>
      match allocEvent c.alloc id rows cols with
      | none => some (s.goto t (.createUnlock 1))
      | some event =>
        some ({ s with list := newNode s.list event }.enter t (.createAppend id rows cols)
          (.allocated s.list.fresh))
  | .reserveLookup q =>
    (getEvent s.list q.eventId s.list.head s.list.tail s.list.fresh).map fun event =>
      s.goto t (.reserveUnlist q event)
  | .reserveCheck q e =>
    let event := s.list.event e
    if q.admitted event then
      some ((s.setEvent e (bumpReservations event)).goto t
        (.reserveStore q e (event.reservations + 1) 0))
    else some (s.goto t (.reserveRelease q e 1))
  | .reserveStore q e r i =>
    let event := s.list.event e
    if i < q.numSeats.toNat then
      -- a store outside the block is undefined, and the session has no step
      if q.index event i < event.data.length then
        some ((s.setEvent e (storeSeat event q r i)).goto t (.reserveStore q e r (i + 1)))
      else none
    else some (s.goto t (.reserveRelease q e 0))
  | .showLookup id =>
    (getEvent s.list id s.list.head s.list.tail s.list.fresh).map fun event =>
      s.goto t (.showUnlist event)
  | .showData e sent =>
    let event := s.list.event e
    if sent.length < event.byteSize then
      -- a `write` takes at least one byte
      if 0 < c.chunk then
        some (s.goto t (.showData e (sent ++
          ((event.bytes.take event.byteSize).drop sent.length).take c.chunk)))
      else none
    else some (s.goto t (.done (.matrix event.rows event.cols sent 0)))
  | .listCount =>
    if s.list.eventNum = 0 then some (s.goto t (.listUnlock 0 []))
    else
      match s.list.head, s.list.tail with
      | some current, some last =>
        some (s.enter t (.listIds s.list.eventNum last []) (.listing current))
      | _, _ => none
  | .listIds num last ids =>
    match s.vars t with
    | .listing current =>
      let ids := ids ++ [(s.list.event current).id]
      -- the last node is the one that `tail` was when the loop began
      if current = last then some (s.goto t (.listUnlock num ids))
      else (s.list.next current).map fun node => s.enter t (.listIds num last ids) (.listing node)
    | _ => none
  | _ => lockStep s (.step t c)

/-- One action of the whole server. -/
def step (s : State) : Act → Option State
  | .step t c => advance s t c
  | a => lockStep s a

/-- The server, with its list in memory. -/
def machine : Machine State Act := ⟨State.init, step⟩

end Ems.Server.Nodes
