import Ems.Jobs.Create
import Ems.Jobs.Operations

/-!
# Concurrent CREATEs and RESERVEs of the job runner

`ems_create` and `ems_reserve` of the first part, by any number of threads at once. A
place (`Pc`) stands before every lock call, every unlock and every single access to a
seat; `advance` follows `ems_reserve` from top to bottom and hands the places of
`ems_create` to the machine of `Create.lean` (`createStep`).

Mirroring notes:
- A failed reservation gives back `seat_Lock` and then `event_Lock`, a successful one
  the other way round, as in the source. In between another thread may already hold
  `event_Lock` and count up the same event.
- `seatCheck` is one iteration's test and the read of the seat, `seatMark` the store.
-/

namespace Ems.Jobs.Calls

open Conc Server

/-- What a thread calls. -/
inductive Op where
  | create (eventId : UInt32) (numRows numCols : UInt64)
  | reserve (q : Request)

/-- Where a thread is. -/
inductive Pc where
  | idle
  /-- inside `ems_create` -/
  | create (pc : Jobs.Pc)
  /-- before `pthread_rwlock_rdlock(&eventList_Lock)` -/
  | readList (q : Request)
  /-- before `pthread_rwlock_rdlock(&event_Lock)` -/
  | readEvent (q : Request)
  | lookup (q : Request)
  | unevent (q : Request) (event : Option Nat)
  | unlist (q : Request) (event : Option Nat)
  /-- before `pthread_rwlock_wrlock(&event_Lock)` -/
  | writeEvent (q : Request) (event : Nat)
  | bump (q : Request) (event : Nat)
  /-- before `pthread_rwlock_wrlock(&seat_Lock)` -/
  | writeSeats (q : Request) (event : Nat) (reservationId : UInt32)
  /-- the first loop, `i` seats marked -/
  | seatCheck (q : Request) (event : Nat) (reservationId : UInt32) (i : Nat)
  | seatMark (q : Request) (event : Nat) (reservationId : UInt32) (i : Nat)
  /-- the loop broke at the `i`-th seat -/
  | undo (q : Request) (event : Nat) (i : Nat)
  /-- the second loop, `j` of the `i` marks taken back -/
  | seatClear (q : Request) (event : Nat) (i j : Nat)
  | failUnseat (event : Nat)
  | failUnevent (event : Nat)
  | commitUnevent (event : Nat)
  | commitUnseat
  | done (ret : Nat)

/-- The store, its locks and the threads. -/
structure State where
  list : EventList
  listLock : RwLock Tid
  eventLock : RwLock Tid
  seatLock : RwLock Tid
  pc : Tid → Pc

/-- A thread calls an operation, moves, returns. -/
inductive Act where
  | call (t : Tid) (op : Op)
  | step (t : Tid) (alloc : Jobs.Alloc)
  | ret (t : Tid)

/-- No events, no locks held, nobody in a call. -/
def State.init : State :=
  ⟨Jobs.createList, RwLock.free, RwLock.free, RwLock.free, fun _ => .idle⟩

/-- Thread `t` moves to `pc`. -/
def State.goto (s : State) (t : Tid) (pc : Pc) : State :=
  { s with pc := Function.update s.pc t pc }

/-- The event at position `e` becomes `event`. -/
def State.setEvent (s : State) (e : Nat) (event : Jobs.Event) : State :=
  { s with list := s.list.set e event }

/-- The place where an operation starts. -/
def Op.entry : Op → Pc
  | .create eventId numRows numCols => .create (.readList eventId numRows numCols)
  | .reserve q => .readList q

/-- The place in `ems_create`, if the thread is there. -/
def Pc.creating : Pc → Jobs.Pc
  | .create pc => pc
  | _ => .idle

/-- What `ems_create` works on. -/
def State.creates (s : State) : Jobs.State :=
  ⟨s.list, s.listLock, s.eventLock, fun u => (s.pc u).creating⟩

/-- A step inside `ems_create`. -/
def createStep (s : State) (t : Tid) (alloc : Jobs.Alloc) : Option State :=
  (Jobs.advance s.creates t alloc).map fun v =>
    { s with list := v.list, listLock := v.listLock, eventLock := v.eventLock }.goto t
      (.create (v.pc t))

/-- One step of thread `t`, `none` while it waits for a lock. -/
def advance (s : State) (t : Tid) (alloc : Jobs.Alloc) : Option State :=
  match s.pc t with
  | .idle => none
  | .create _ => createStep s t alloc
  | .readList q => (s.listLock.rdlock t).map fun l => { s with listLock := l }.goto t (.readEvent q)
  | .readEvent q => (s.eventLock.rdlock t).map fun l => { s with eventLock := l }.goto t (.lookup q)
  | .lookup q => some (s.goto t (.unevent q (Jobs.getEvent s.list q.eventId)))
  | .unevent q event =>
    some ({ s with eventLock := s.eventLock.unlock t }.goto t (.unlist q event))
  | .unlist q event =>
    some ({ s with listLock := s.listLock.unlock t }.goto t
      (match event with
        -- no such event
        | none => .done 1
        | some e => .writeEvent q e))
  | .writeEvent q e =>
    (s.eventLock.wrlock t).map fun l => { s with eventLock := l }.goto t (.bump q e)
  | .bump q e =>
    match s.list[e]? with
    | none => none
    | some event =>
      some ((s.setEvent e (Jobs.bumpReservations event)).goto t
        (.writeSeats q e (event.reservations + 1)))
  | .writeSeats q e r =>
    (s.seatLock.wrlock t).map fun l => { s with seatLock := l }.goto t (.seatCheck q e r 0)
  | .seatCheck q e r i =>
    match s.list[e]? with
    | none => none
    | some event =>
      -- a seat that is refused ends the loop with `break`
      if i < q.numSeats.toNat then
        if refused event q i then some (s.goto t (.undo q e i))
        else some (s.goto t (.seatMark q e r i))
      else some (s.goto t (.commitUnevent e))
  | .seatMark q e r i =>
    match s.list[e]? with
    | none => none
    | some event =>
      some ((s.setEvent e (setSeat event (index event q i) r)).goto t (.seatCheck q e r (i + 1)))
  -- `event->reservations--`, and then the seats that were marked
  | .undo q e i =>
    match s.list[e]? with
    | none => none
    | some event => some ((s.setEvent e (undoReservations event)).goto t (.seatClear q e i 0))
  | .seatClear q e i j =>
    match s.list[e]? with
    | none => none
    | some event =>
      if j < i then
        some ((s.setEvent e (setSeat event (index event q j) 0)).goto t (.seatClear q e i (j + 1)))
      else some (s.goto t (.failUnseat e))
  | .failUnseat e => some ({ s with seatLock := s.seatLock.unlock t }.goto t (.failUnevent e))
  | .failUnevent _ => some ({ s with eventLock := s.eventLock.unlock t }.goto t (.done 1))
  -- success gives back `event_Lock` before `seat_Lock`
  | .commitUnevent _ => some ({ s with eventLock := s.eventLock.unlock t }.goto t .commitUnseat)
  | .commitUnseat => some ({ s with seatLock := s.seatLock.unlock t }.goto t (.done 0))
  | .done _ => none

/-- One action of the whole program. -/
def step (s : State) : Act → Option State
  | .call t op =>
    match s.pc t with
    | .idle => some (s.goto t op.entry)
    | _ => none
  | .step t alloc => advance s t alloc
  | .ret t =>
    match s.pc t with
    | .create (.done _ _) => some (s.goto t .idle)
    | .done _ => some (s.goto t .idle)
    | _ => none

/-- The calls of both operations as a machine. -/
def machine : Machine State Act := ⟨State.init, step⟩

/-- What `ems_create` sees of a thread inside it. -/
theorem creates_pc {s : State} {t : Tid} {pc : Jobs.Pc} (h : s.pc t = .create pc) :
    s.creates.pc t = pc := by
  show (s.pc t).creating = pc
  rw [h]
  rfl

/-! ## What one step can do -/

/-- The steps of both operations, one rule for each place of `ems_reserve`. -/
inductive Step : State → Act → State → Prop where
  | call {s t op} (h : s.pc t = .idle) : Step s (.call t op) (s.goto t op.entry)
  | retCreate {s t id ret} (h : s.pc t = .create (.done id ret)) :
      Step s (.ret t) (s.goto t .idle)
  | ret {s t ret} (h : s.pc t = .done ret) : Step s (.ret t) (s.goto t .idle)
  | create {s t a pc v} (h : s.pc t = .create pc) (hv : Jobs.Step s.creates (.step t a) v) :
      Step s (.step t a) (State.goto
        { s with list := v.list, listLock := v.listLock, eventLock := v.eventLock } t
          (.create (v.pc t)))
  | readList {s t a q l} (h : s.pc t = .readList q) (hl : s.listLock.rdlock t = some l) :
      Step s (.step t a) (State.goto { s with listLock := l } t (.readEvent q))
  | readEvent {s t a q l} (h : s.pc t = .readEvent q) (hl : s.eventLock.rdlock t = some l) :
      Step s (.step t a) (State.goto { s with eventLock := l } t (.lookup q))
  | lookup {s t a q} (h : s.pc t = .lookup q) :
      Step s (.step t a) (s.goto t (.unevent q (Jobs.getEvent s.list q.eventId)))
  | unevent {s t a q event} (h : s.pc t = .unevent q event) :
      Step s (.step t a)
        (State.goto { s with eventLock := s.eventLock.unlock t } t (.unlist q event))
  | missing {s t a q} (h : s.pc t = .unlist q none) :
      Step s (.step t a) (State.goto { s with listLock := s.listLock.unlock t } t (.done 1))
  | found {s t a q e} (h : s.pc t = .unlist q (some e)) :
      Step s (.step t a)
        (State.goto { s with listLock := s.listLock.unlock t } t (.writeEvent q e))
  | writeEvent {s t a q e l} (h : s.pc t = .writeEvent q e) (hl : s.eventLock.wrlock t = some l) :
      Step s (.step t a) (State.goto { s with eventLock := l } t (.bump q e))
  | bump {s t a q e event} (h : s.pc t = .bump q e) (he : s.list[e]? = some event) :
      Step s (.step t a) ((s.setEvent e (Jobs.bumpReservations event)).goto t
        (.writeSeats q e (event.reservations + 1)))
  | writeSeats {s t a q e r l} (h : s.pc t = .writeSeats q e r)
      (hl : s.seatLock.wrlock t = some l) :
      Step s (.step t a) (State.goto { s with seatLock := l } t (.seatCheck q e r 0))
  | refuse {s t a q e r i event} (h : s.pc t = .seatCheck q e r i) (he : s.list[e]? = some event)
      (hi : i < q.numSeats.toNat) (hr : refused event q i = true) :
      Step s (.step t a) (s.goto t (.undo q e i))
  | pass {s t a q e r i event} (h : s.pc t = .seatCheck q e r i) (he : s.list[e]? = some event)
      (hi : i < q.numSeats.toNat) (hr : refused event q i = false) :
      Step s (.step t a) (s.goto t (.seatMark q e r i))
  | commit {s t a q e r i event} (h : s.pc t = .seatCheck q e r i) (he : s.list[e]? = some event)
      (hi : q.numSeats.toNat ≤ i) : Step s (.step t a) (s.goto t (.commitUnevent e))
  | seatMark {s t a q e r i event} (h : s.pc t = .seatMark q e r i) (he : s.list[e]? = some event) :
      Step s (.step t a) ((s.setEvent e (setSeat event (index event q i) r)).goto t
        (.seatCheck q e r (i + 1)))
  | undo {s t a q e i event} (h : s.pc t = .undo q e i) (he : s.list[e]? = some event) :
      Step s (.step t a)
        ((s.setEvent e (undoReservations event)).goto t (.seatClear q e i 0))
  | seatClear {s t a q e i j event} (h : s.pc t = .seatClear q e i j)
      (he : s.list[e]? = some event) (hj : j < i) :
      Step s (.step t a) ((s.setEvent e (setSeat event (index event q j) 0)).goto t
        (.seatClear q e i (j + 1)))
  | cleared {s t a q e i j event} (h : s.pc t = .seatClear q e i j) (he : s.list[e]? = some event)
      (hj : i ≤ j) : Step s (.step t a) (s.goto t (.failUnseat e))
  | failUnseat {s t a e} (h : s.pc t = .failUnseat e) :
      Step s (.step t a)
        (State.goto { s with seatLock := s.seatLock.unlock t } t (.failUnevent e))
  | failUnevent {s t a e} (h : s.pc t = .failUnevent e) :
      Step s (.step t a) (State.goto { s with eventLock := s.eventLock.unlock t } t (.done 1))
  | commitUnevent {s t a e} (h : s.pc t = .commitUnevent e) :
      Step s (.step t a)
        (State.goto { s with eventLock := s.eventLock.unlock t } t .commitUnseat)
  | commitUnseat {s t a} (h : s.pc t = .commitUnseat) :
      Step s (.step t a) (State.goto { s with seatLock := s.seatLock.unlock t } t (.done 0))

/-- Every step of a thread is one of the rules. -/
theorem advance_cases {s s' : State} {t : Tid} {a : Jobs.Alloc} (h : advance s t a = some s') :
    Step s (.step t a) s' := by
  unfold advance at h
  split at h
  next => cases h
  next hp =>
    obtain ⟨v, hv, rfl⟩ := Option.map_eq_some_iff.mp h
    exact .create hp (Jobs.advance_cases hv)
  next hp =>
    obtain ⟨l, hl, rfl⟩ := Option.map_eq_some_iff.mp h
    exact .readList hp hl
  next hp =>
    obtain ⟨l, hl, rfl⟩ := Option.map_eq_some_iff.mp h
    exact .readEvent hp hl
  next hp => cases h; exact .lookup hp
  next hp => cases h; exact .unevent hp
  next q event hp =>
    cases event with
    | none => cases h; exact .missing hp
    | some e => cases h; exact .found hp
  next hp =>
    obtain ⟨l, hl, rfl⟩ := Option.map_eq_some_iff.mp h
    exact .writeEvent hp hl
  next hp =>
    split at h
    next => cases h
    next he => cases h; exact .bump hp he
  next hp =>
    obtain ⟨l, hl, rfl⟩ := Option.map_eq_some_iff.mp h
    exact .writeSeats hp hl
  next hp =>
    split at h
    next => cases h
    next he =>
      split at h
      next hi =>
        split at h
        next hr => cases h; exact .refuse hp he hi hr
        next hr => cases h; exact .pass hp he hi (by simpa using hr)
      next hi => cases h; exact .commit hp he (Nat.le_of_not_lt hi)
  next hp =>
    split at h
    next => cases h
    next he => cases h; exact .seatMark hp he
  next hp =>
    split at h
    next => cases h
    next he => cases h; exact .undo hp he
  next hp =>
    split at h
    next => cases h
    next he =>
      split at h
      next hj => cases h; exact .seatClear hp he hj
      next hj => cases h; exact .cleared hp he (Nat.le_of_not_lt hj)
  next hp => cases h; exact .failUnseat hp
  next hp => cases h; exact .failUnevent hp
  next hp => cases h; exact .commitUnevent hp
  next hp => cases h; exact .commitUnseat hp
  next => cases h

/-- Every action of the program is one of the rules. -/
theorem step_cases {s s' : State} {a : Act} (h : step s a = some s') : Step s a s' := by
  cases a with
  | call t op =>
    simp only [step] at h
    split at h
    next hp => cases h; exact .call hp
    next => cases h
  | step t alloc => exact advance_cases h
  | ret t =>
    simp only [step] at h
    split at h
    next hp => cases h; exact .retCreate hp
    next hp => cases h; exact .ret hp
    next => cases h

/-- And every rule is a step. -/
theorem step_of_rule {s s' : State} {a : Act} (h : Step s a s') : step s a = some s' := by
  cases h
  case create t a pc v h hv =>
    have hstep : Jobs.advance s.creates t a = some v := Jobs.step_of_rule hv
    simp only [step, advance, h, createStep, hstep, Option.map_some]
  case commit he hi => simp [step, advance, *, Nat.not_lt.mpr hi]
  case cleared he hj => simp [step, advance, *, Nat.not_lt.mpr hj]
  all_goals simp [step, advance, *]

end Ems.Jobs.Calls
