import Mathlib.Logic.Function.Basic
import Ems.Conc.Machine
import Ems.Conc.RwLock
import Ems.Server.Store
import Ems.Wire.Bytes

/-!
# Sessions: the server's requests, interleaved

Any number of sessions, each serving one request at a time, share the store.
A request is a path through the places (`Pc`) where it can be interrupted: every
lock call, every unlock, every single seat store of `ems_reserve` and every
`write()` of `ems_show` is a step of its own. What happens between two lock
calls and touches only data under the lock is one step.

`advance` is one step of one session; its cases follow `operations.c` from top
to bottom. Everything the environment decides (which session moves, what the
allocator answers, how much a `write()` takes) is in the action, so `machine`
is an executable `Conc.Machine`. `Step` restates `advance` as one rule for each
place, and `step_cases` is what every invariant proof takes apart.

A store outside the block `calloc` gave is undefined behaviour: the session that is
about to make it has no step. It takes an event whose `num_rows * num_cols` wraps.
-/

namespace Ems.Server

open Conc

/-- A session. -/
abbrev Tid := Nat

/-- A request, decoded. -/
inductive Op where
  | create (eventId : UInt32) (numRows numCols : UInt64)
  | reserve (q : Request)
  | showEvent (eventId : UInt32)
  | listEvents

/-- What a request sends back. -/
inductive Reply where
  | status (ret : UInt32)
  | matrix (rows cols : UInt64) (cells : List UInt8) (ret : UInt32)
  | listing (num : UInt64) (ids : List UInt32) (ret : UInt32)
deriving DecidableEq, Repr

/-- Where a session is. -/
inductive Pc where
  /-- between two requests -/
  | idle
  /-- `ems_create`, before `pthread_rwlock_wrlock` -/
  | createLock (eventId : UInt32) (numRows numCols : UInt64)
  | createLookup (eventId : UInt32) (numRows numCols : UInt64)
  | createAppend (eventId : UInt32) (numRows numCols : UInt64)
  | createUnlock (ret : UInt32)
  /-- `ems_reserve`, before `pthread_rwlock_rdlock` -/
  | reserveLock (q : Request)
  | reserveLookup (q : Request)
  | reserveUnlist (q : Request) (event : Option Nat)
  /-- the list lock is released, the event's mutex not yet taken -/
  | reserveMutex (q : Request) (event : Nat)
  | reserveCheck (q : Request) (event : Nat)
  /-- the last loop, `i` seats stored -/
  | reserveStore (q : Request) (event : Nat) (reservationId : UInt32) (i : Nat)
  | reserveRelease (q : Request) (event : Nat) (ret : UInt32)
  /-- `ems_show`, before `pthread_rwlock_rdlock` -/
  | showLock (eventId : UInt32)
  | showLookup (eventId : UInt32)
  | showUnlist (event : Option Nat)
  | showHeader (event : Option Nat)
  /-- the `safe_write` of the matrix, `sent` already written -/
  | showData (event : Nat) (sent : List UInt8)
  /-- `ems_list_events`, before `pthread_rwlock_rdlock` -/
  | listLock
  | listCount
  /-- the loop from `head` to the node `to` (here `last`), `ids` already written -/
  | listIds (num : UInt64) (last : Nat) (ids : List UInt32)
  | listUnlock (num : UInt64) (ids : List UInt32)
  /-- the operation returned -/
  | done (reply : Reply)

/-- The store, its locks and the sessions. -/
structure State where
  list : EventList
  rwl : RwLock Tid
  mutex : Nat → Option Tid
  pc : Tid → Pc

/-- What the environment decides in one step of a session: the allocator's
answers and the number of bytes a `write()` takes. -/
structure Choice where
  alloc : Alloc
  chunk : Nat
deriving DecidableEq, Repr

/-- A request arrives, its session moves, its reply is delivered. -/
inductive Act where
  | call (t : Tid) (op : Op)
  | step (t : Tid) (c : Choice)
  | ret (t : Tid)

/-- No events, all locks free, every session idle. -/
def State.init : State := ⟨createList, RwLock.free, fun _ => none, fun _ => .idle⟩

/-- Session `t` moves to `pc`. -/
def State.goto (s : State) (t : Tid) (pc : Pc) : State :=
  { s with pc := Function.update s.pc t pc }

/-- The event at position `e` becomes `event`. -/
def State.setEvent (s : State) (e : Nat) (event : Event) : State :=
  { s with list := { s.list with nodes := s.list.nodes.set e event } }

/-- The place where an operation starts. -/
def Op.entry : Op → Pc
  | .create eventId numRows numCols => .createLock eventId numRows numCols
  | .reserve q => .reserveLock q
  | .showEvent eventId => .showLock eventId
  | .listEvents => .listLock

/-- The bytes of an event's matrix in memory. -/
def Event.bytes (event : Event) : List UInt8 :=
  Wire.toWords 4 (event.data.map UInt32.toNat)

/-- `event->rows * event->cols * sizeof(int)`, the size `ems_show` passes to
`safe_write`. -/
def Event.byteSize (event : Event) : Nat := (event.rows * event.cols * 4).toNat

/-- `ems_show`, run alone: the dimensions and the matrix it sends. -/
def emsShow (list : EventList) (eventId : UInt32) : Reply :=
  match (getEvent list eventId).bind fun e => list.nodes[e]? with
  | none => .matrix 0 0 [] 1
  | some event => .matrix event.rows event.cols (event.bytes.take event.byteSize) 0

/-- A request served alone, every allocation granted: the reply and the store
it leaves. -/
def Op.exec : Op → EventList → Reply × EventList
  | .create eventId numRows numCols, list =>
    let r := emsCreate Alloc.allOk list eventId numRows numCols
    (.status r.2, r.1)
  | .reserve q, list => (.status (emsReserve list q).2, (emsReserve list q).1)
  | .showEvent eventId, list => (emsShow list eventId, list)
  | .listEvents, list => (.listing (emsListEvents list).1 (emsListEvents list).2 0, list)

/-- One step of session `t`, `none` while it waits for a lock. -/
def advance (s : State) (t : Tid) (c : Choice) : Option State :=
  match s.pc t with
  | .idle => none
  | .createLock id rows cols =>
    (s.rwl.wrlock t).map fun l => { s with rwl := l }.goto t (.createLookup id rows cols)
  | .createLookup id rows cols =>
    if (getEvent s.list id).isSome then some (s.goto t (.createUnlock 1))
    else some (s.goto t (.createAppend id rows cols))
  | .createAppend id rows cols =>
    let r := createEvent c.alloc s.list id rows cols
    some ({ s with list := r.1 }.goto t (.createUnlock r.2))
  | .createUnlock ret =>
    some ({ s with rwl := s.rwl.unlock t }.goto t (.done (.status ret)))
  | .reserveLock q =>
    (s.rwl.rdlock t).map fun l => { s with rwl := l }.goto t (.reserveLookup q)
  | .reserveLookup q =>
    some (s.goto t (.reserveUnlist q (getEvent s.list q.eventId)))
  | .reserveUnlist q event =>
    some ({ s with rwl := s.rwl.unlock t }.goto t
      (match event with
        | none => .done (.status 1)
        | some e => .reserveMutex q e))
  | .reserveMutex q e =>
    if s.mutex e = none then
      some ({ s with mutex := Function.update s.mutex e (some t) }.goto t (.reserveCheck q e))
    else none
  | .reserveCheck q e =>
    match s.list.nodes[e]? with
    | none => none
    | some event =>
      if q.admitted event then
        some ((s.setEvent e (bumpReservations event)).goto t
          (.reserveStore q e (event.reservations + 1) 0))
      else some (s.goto t (.reserveRelease q e 1))
  | .reserveStore q e r i =>
    match s.list.nodes[e]? with
    | none => none
    | some event =>
      if i < q.numSeats.toNat then
        -- a store outside the block is undefined, and the session has no step
        if q.index event i < event.data.length then
          some ((s.setEvent e (storeSeat event q r i)).goto t (.reserveStore q e r (i + 1)))
        else none
      else some (s.goto t (.reserveRelease q e 0))
  | .reserveRelease _ e ret =>
    some ({ s with mutex := Function.update s.mutex e none }.goto t (.done (.status ret)))
  | .showLock id =>
    (s.rwl.rdlock t).map fun l => { s with rwl := l }.goto t (.showLookup id)
  | .showLookup id => some (s.goto t (.showUnlist (getEvent s.list id)))
  | .showUnlist event =>
    some ({ s with rwl := s.rwl.unlock t }.goto t (.showHeader event))
  | .showHeader none => some (s.goto t (.done (.matrix 0 0 [] 1)))
  | .showHeader (some e) => some (s.goto t (.showData e []))
  | .showData e sent =>
    match s.list.nodes[e]? with
    | none => none
    | some event =>
      if sent.length < event.byteSize then
        -- one write(): a positive number of bytes, read from the matrix as it is now
        if 0 < c.chunk then
          some (s.goto t (.showData e (sent ++
            ((event.bytes.take event.byteSize).drop sent.length).take c.chunk)))
        else none
      else some (s.goto t (.done (.matrix event.rows event.cols sent 0)))
  | .listLock =>
    (s.rwl.rdlock t).map fun l => { s with rwl := l }.goto t .listCount
  | .listCount =>
    if s.list.eventNum = 0 then some (s.goto t (.listUnlock 0 []))
    else some (s.goto t (.listIds s.list.eventNum (s.list.nodes.length - 1) []))
  | .listIds num last ids =>
    match s.list.nodes[ids.length]? with
    | none => none
    | some event =>
      if ids.length = last then some (s.goto t (.listUnlock num (ids ++ [event.id])))
      else some (s.goto t (.listIds num last (ids ++ [event.id])))
  | .listUnlock num ids =>
    some ({ s with rwl := s.rwl.unlock t }.goto t (.done (.listing num ids 0)))
  | .done _ => none

/-- One action of the whole server. -/
def step (s : State) : Act → Option State
  | .call t op =>
    match s.pc t with
    | .idle => some (s.goto t op.entry)
    | _ => none
  | .step t c => advance s t c
  | .ret t =>
    match s.pc t with
    | .done _ => some (s.goto t .idle)
    | _ => none

/-- The server as a machine. -/
def machine : Machine State Act := ⟨State.init, step⟩

@[simp] theorem goto_self (s : State) (t : Tid) (pc : Pc) : (s.goto t pc).pc t = pc :=
  Function.update_self ..

@[simp] theorem goto_other {s : State} {t u : Tid} {pc : Pc} (h : u ≠ t) :
    (s.goto t pc).pc u = s.pc u :=
  Function.update_of_ne h ..

@[simp] theorem goto_list (s : State) (t : Tid) (pc : Pc) : (s.goto t pc).list = s.list := rfl

@[simp] theorem goto_rwl (s : State) (t : Tid) (pc : Pc) : (s.goto t pc).rwl = s.rwl := rfl

@[simp] theorem goto_mutex (s : State) (t : Tid) (pc : Pc) : (s.goto t pc).mutex = s.mutex := rfl

/-! ## What one step can do -/

/-- The steps of the server, one rule for each place a session can be in. -/
inductive Step : State → Act → State → Prop where
  | call {s t op} (h : s.pc t = .idle) : Step s (.call t op) (s.goto t op.entry)
  | ret {s t r} (h : s.pc t = .done r) : Step s (.ret t) (s.goto t .idle)
  | createLock {s t c id rows cols l} (h : s.pc t = .createLock id rows cols)
      (hl : s.rwl.wrlock t = some l) :
      Step s (.step t c) (State.goto { s with rwl := l } t (.createLookup id rows cols))
  | createExists {s t c id rows cols} (h : s.pc t = .createLookup id rows cols)
      (he : (getEvent s.list id).isSome) : Step s (.step t c) (s.goto t (.createUnlock 1))
  | createAbsent {s t c id rows cols} (h : s.pc t = .createLookup id rows cols)
      (he : getEvent s.list id = none) :
      Step s (.step t c) (s.goto t (.createAppend id rows cols))
  | createAppend {s t c id rows cols} (h : s.pc t = .createAppend id rows cols) :
      Step s (.step t c)
        (State.goto { s with list := (createEvent c.alloc s.list id rows cols).1 } t
          (.createUnlock (createEvent c.alloc s.list id rows cols).2))
  | createUnlock {s t c ret} (h : s.pc t = .createUnlock ret) :
      Step s (.step t c) (State.goto { s with rwl := s.rwl.unlock t } t (.done (.status ret)))
  | reserveLock {s t c q l} (h : s.pc t = .reserveLock q) (hl : s.rwl.rdlock t = some l) :
      Step s (.step t c) (State.goto { s with rwl := l } t (.reserveLookup q))
  | reserveLookup {s t c q} (h : s.pc t = .reserveLookup q) :
      Step s (.step t c) (s.goto t (.reserveUnlist q (getEvent s.list q.eventId)))
  | reserveMissing {s t c q} (h : s.pc t = .reserveUnlist q none) :
      Step s (.step t c) (State.goto { s with rwl := s.rwl.unlock t } t (.done (.status 1)))
  | reserveFound {s t c q e} (h : s.pc t = .reserveUnlist q (some e)) :
      Step s (.step t c) (State.goto { s with rwl := s.rwl.unlock t } t (.reserveMutex q e))
  | reserveMutex {s t c q e} (h : s.pc t = .reserveMutex q e) (hm : s.mutex e = none) :
      Step s (.step t c)
        (State.goto { s with mutex := Function.update s.mutex e (some t) } t (.reserveCheck q e))
  | reserveAdmit {s t c q e event} (h : s.pc t = .reserveCheck q e)
      (he : s.list.nodes[e]? = some event) (hq : q.admitted event = true) :
      Step s (.step t c) ((s.setEvent e (bumpReservations event)).goto t
        (.reserveStore q e (event.reservations + 1) 0))
  | reserveRefuse {s t c q e event} (h : s.pc t = .reserveCheck q e)
      (he : s.list.nodes[e]? = some event) (hq : q.admitted event = false) :
      Step s (.step t c) (s.goto t (.reserveRelease q e 1))
  | reserveStore {s t c q e r i event} (h : s.pc t = .reserveStore q e r i)
      (he : s.list.nodes[e]? = some event) (hi : i < q.numSeats.toNat)
      (hin : q.index event i < event.data.length) :
      Step s (.step t c)
        ((s.setEvent e (storeSeat event q r i)).goto t (.reserveStore q e r (i + 1)))
  | reserveStored {s t c q e r i event} (h : s.pc t = .reserveStore q e r i)
      (he : s.list.nodes[e]? = some event) (hi : q.numSeats.toNat ≤ i) :
      Step s (.step t c) (s.goto t (.reserveRelease q e 0))
  | reserveRelease {s t c q e ret} (h : s.pc t = .reserveRelease q e ret) :
      Step s (.step t c)
        (State.goto { s with mutex := Function.update s.mutex e none } t (.done (.status ret)))
  | showLock {s t c id l} (h : s.pc t = .showLock id) (hl : s.rwl.rdlock t = some l) :
      Step s (.step t c) (State.goto { s with rwl := l } t (.showLookup id))
  | showLookup {s t c id} (h : s.pc t = .showLookup id) :
      Step s (.step t c) (s.goto t (.showUnlist (getEvent s.list id)))
  | showUnlist {s t c event} (h : s.pc t = .showUnlist event) :
      Step s (.step t c) (State.goto { s with rwl := s.rwl.unlock t } t (.showHeader event))
  | showMissing {s t c} (h : s.pc t = .showHeader none) :
      Step s (.step t c) (s.goto t (.done (.matrix 0 0 [] 1)))
  | showHeader {s t c e} (h : s.pc t = .showHeader (some e)) :
      Step s (.step t c) (s.goto t (.showData e []))
  | showWrite {s t c e sent event} (h : s.pc t = .showData e sent)
      (he : s.list.nodes[e]? = some event) (hn : sent.length < event.byteSize)
      (hc : 0 < c.chunk) :
      Step s (.step t c) (s.goto t (.showData e (sent ++
        ((event.bytes.take event.byteSize).drop sent.length).take c.chunk)))
  | showSent {s t c e sent event} (h : s.pc t = .showData e sent)
      (he : s.list.nodes[e]? = some event) (hn : event.byteSize ≤ sent.length) :
      Step s (.step t c) (s.goto t (.done (.matrix event.rows event.cols sent 0)))
  | listLock {s t c l} (h : s.pc t = .listLock) (hl : s.rwl.rdlock t = some l) :
      Step s (.step t c) (State.goto { s with rwl := l } t .listCount)
  | listEmpty {s t c} (h : s.pc t = .listCount) (hn : s.list.eventNum = 0) :
      Step s (.step t c) (s.goto t (.listUnlock 0 []))
  | listCount {s t c} (h : s.pc t = .listCount) (hn : s.list.eventNum ≠ 0) :
      Step s (.step t c)
        (s.goto t (.listIds s.list.eventNum (s.list.nodes.length - 1) []))
  | listLast {s t c num ids event} (h : s.pc t = .listIds num ids.length ids)
      (he : s.list.nodes[ids.length]? = some event) :
      Step s (.step t c) (s.goto t (.listUnlock num (ids ++ [event.id])))
  | listNext {s t c num last ids event} (h : s.pc t = .listIds num last ids)
      (he : s.list.nodes[ids.length]? = some event) (hto : ids.length ≠ last) :
      Step s (.step t c) (s.goto t (.listIds num last (ids ++ [event.id])))
  | listUnlock {s t c num ids} (h : s.pc t = .listUnlock num ids) :
      Step s (.step t c)
        (State.goto { s with rwl := s.rwl.unlock t } t (.done (.listing num ids 0)))

/-- Every step of a session is one of the rules. -/
theorem advance_cases {s s' : State} {t : Tid} {c : Choice} (h : advance s t c = some s') :
    Step s (.step t c) s' := by
  unfold advance at h
  split at h
  next => cases h
  next hp =>
    obtain ⟨l, hl, rfl⟩ := Option.map_eq_some_iff.mp h
    exact .createLock hp hl
  next hp =>
    split at h
    next he => cases h; exact .createExists hp he
    next he => cases h; exact .createAbsent hp (Option.not_isSome_iff_eq_none.mp he)
  next hp => cases h; exact .createAppend hp
  next hp => cases h; exact .createUnlock hp
  next hp =>
    obtain ⟨l, hl, rfl⟩ := Option.map_eq_some_iff.mp h
    exact .reserveLock hp hl
  next hp => cases h; exact .reserveLookup hp
  next q event hp =>
    cases event with
    | none => cases h; exact .reserveMissing hp
    | some e => cases h; exact .reserveFound hp
  next hp =>
    split at h
    next hm => cases h; exact .reserveMutex hp hm
    next => cases h
  next hp =>
    split at h
    next => cases h
    next he =>
      split at h
      next hq => cases h; exact .reserveAdmit hp he hq
      next hq => cases h; exact .reserveRefuse hp he (Bool.eq_false_of_not_eq_true hq)
  next hp =>
    split at h
    next => cases h
    next he =>
      split at h
      next hi =>
        split at h
        next hin => cases h; exact .reserveStore hp he hi hin
        next => cases h
      next hi => cases h; exact .reserveStored hp he (Nat.le_of_not_lt hi)
  next hp => cases h; exact .reserveRelease hp
  next hp =>
    obtain ⟨l, hl, rfl⟩ := Option.map_eq_some_iff.mp h
    exact .showLock hp hl
  next hp => cases h; exact .showLookup hp
  next hp => cases h; exact .showUnlist hp
  next hp => cases h; exact .showMissing hp
  next hp => cases h; exact .showHeader hp
  next hp =>
    split at h
    next => cases h
    next he =>
      split at h
      next hn =>
        split at h
        next hc => cases h; exact .showWrite hp he hn hc
        next => cases h
      next hn => cases h; exact .showSent hp he (Nat.le_of_not_lt hn)
  next hp =>
    obtain ⟨l, hl, rfl⟩ := Option.map_eq_some_iff.mp h
    exact .listLock hp hl
  next hp =>
    split at h
    next hn => cases h; exact .listEmpty hp hn
    next hn => cases h; exact .listCount hp hn
  next hp =>
    split at h
    next => cases h
    next he =>
      split at h
      next hto => subst hto; cases h; exact .listLast hp he
      next hto => cases h; exact .listNext hp he hto
  next hp => cases h; exact .listUnlock hp
  next => cases h

/-- Every action of the server is one of the rules. -/
theorem step_cases {s s' : State} {a : Act} (h : step s a = some s') : Step s a s' := by
  cases a with
  | call t op =>
    simp only [step] at h
    split at h
    next hp => cases h; exact .call hp
    next => cases h
  | step t c => exact advance_cases h
  | ret t =>
    simp only [step] at h
    split at h
    next hp => cases h; exact .ret hp
    next => cases h

end Ems.Server
