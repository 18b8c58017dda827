import Ems.Client.Output
import Ems.Server.Created

/-!
# The report that SIGUSR1 asks for

`ems_sigusr1_action`, made by the main thread while the sessions go on. The main thread
keeps the list's read lock for the whole report and takes the mutex of one event at a time,
so it is one more party at the locks of `Sessions`: a session that is about to take a lock
the report holds has to wait, and every other step of a session is what it was. A run of
the sessions with reports is therefore a run of the sessions (`run_sessions`), and all that
is known of those runs holds here.

A report is no snapshot of the whole server. It is one of every event: what is printed of
an event is its matrix at a moment at which no reservation of it is half applied
(`report_committed`).

Mirroring notes:
- `printf` appends to what is printed of the event; every seat is a step of its own.
- The counters of the two loops are `size_t` and count to the bound inclusive.
- A seat outside of the block that `data` points to is not read: there is no such step.
- A signal that comes while a report is made asks for none: `usr1_sig` is 0 afterwards.
- `pthread_rwlock_rdlock` and `pthread_mutex_lock` succeed.
- The text of an event is the one of the other two models of the action (`Action.lean`).
-/

namespace Ems.Server.Report

open Conc

/-- Where the main thread is in `ems_sigusr1_action`; `out` is what it has printed, one text
for an event. -/
inductive Place where
  /-- in the loop of `main` -/
  | idle
  /-- before `pthread_rwlock_rdlock` -/
  | lock
  /-- before the test of `head` -/
  | head
  /-- before `pthread_mutex_lock` of the `k`-th event -/
  | mutex (k last : Nat) (out : List (List Char))
  /-- before the first `printf` of the event -/
  | title (k last : Nat) (out : List (List Char))
  /-- before the test of the outer loop -/
  | row (k last : Nat) (out : List (List Char)) (i : UInt64) (text : List Char)
  /-- before the test of the inner loop -/
  | seat (k last : Nat) (out : List (List Char)) (i j : UInt64) (text : List Char)
  /-- behind `pthread_mutex_unlock` -/
  | next (k last : Nat) (out : List (List Char))
  /-- before `pthread_rwlock_unlock` -/
  | unlock (out : List (List Char))
  /-- the action returned 0 -/
  | done (out : List (List Char))
deriving DecidableEq

/-- The sessions and the main thread. -/
structure State where
  sessions : Server.State
  report : Place

/-- A step of a session, a SIGUSR1 that interrupts the main thread, a step of the main
thread. -/
inductive Act where
  | session (a : Server.Act)
  | signal
  | main

/-- Nobody has asked for a report. -/
def State.init : State := ⟨Server.State.init, .idle⟩

/-- The main thread has the list's lock. -/
def Place.reading : Place → Bool
  | .idle => false
  | .lock => false
  | .done _ => false
  | _ => true

/-- The event whose mutex the main thread has. -/
def Place.holding : Place → Option Nat
  | .title k _ _ => some k
  | .row k _ _ _ _ => some k
  | .seat k _ _ _ _ _ => some k
  | _ => none

/-- The session is about to take a lock that the main thread has. -/
def blocked (x : State) : Server.Act → Bool
  | .step t _ =>
    match x.sessions.pc t with
    | .createLock _ _ _ => x.report.reading
    | .reserveMutex _ e => x.report.holding == some e
    | _ => false
  | _ => false

/-- One step of the main thread. -/
def advanceMain (x : State) : Option Place :=
  match x.report with
  | .idle => none
  | .lock => if x.sessions.rwl.writer = none then some .head else none
  | .head =>
    if x.sessions.list.nodes = [] then some (.unlock ["No events\n".toList])
    else some (.mutex 0 (x.sessions.list.nodes.length - 1) [])
  | .mutex k last out => if x.sessions.mutex k = none then some (.title k last out) else none
  | .title k last out =>
    (x.sessions.list.nodes[k]?).map fun event =>
      .row k last out 1 ("Event: ".toList ++ Client.decimal event.id ++ ['\n'])
  | .row k last out i text =>
    (x.sessions.list.nodes[k]?).map fun event =>
      if i ≤ event.rows then .seat k last out i 1 text
      else .next k last (out ++ [text])
  | .seat k last out i j text =>
    (x.sessions.list.nodes[k]?).bind fun event =>
      if j ≤ event.cols then
        (event.data[(seatIndex event i j).toNat]?).map fun seat =>
          .seat k last out i (j + 1)
            (text ++ (Client.decimal seat ++ if j < event.cols then [' '] else []))
      else some (.row k last out (i + 1) (text ++ ['\n']))
  | .next k last out => if k = last then some (.unlock out) else some (.mutex (k + 1) last out)
  | .unlock out => some (.done out)
  -- `usr1_sig = 0`, and the main thread reads again
  | .done _ => some .idle

def step (x : State) : Act → Option State
  | .session a =>
    if blocked x a then none
    else (Server.step x.sessions a).map fun s => { x with sessions := s }
  | .signal =>
    match x.report with
    | .idle => some { x with report := .lock }
    | _ => none
  | .main => (advanceMain x).map fun r => { x with report := r }

/-- The server with its main thread. -/
def machine : Machine State Act := ⟨State.init, step⟩

/-! ## What one step can do -/

/-- The steps of the main thread. -/
inductive Prints (s : Server.State) : Place → Place → Prop where
  | lock (hw : s.rwl.writer = none) : Prints s .lock .head
  | empty (hn : s.list.nodes = []) : Prints s .head (.unlock ["No events\n".toList])
  | first (hn : s.list.nodes ≠ []) : Prints s .head (.mutex 0 (s.list.nodes.length - 1) [])
  | mutex {k last out} (hm : s.mutex k = none) :
      Prints s (.mutex k last out) (.title k last out)
  | title {k last out event} (he : s.list.nodes[k]? = some event) :
      Prints s (.title k last out)
        (.row k last out 1 ("Event: ".toList ++ Client.decimal event.id ++ ['\n']))
  | row {k last out i text event} (he : s.list.nodes[k]? = some event) (hi : i ≤ event.rows) :
      Prints s (.row k last out i text) (.seat k last out i 1 text)
  | printed {k last out i text event} (he : s.list.nodes[k]? = some event)
      (hi : ¬ i ≤ event.rows) :
      Prints s (.row k last out i text) (.next k last (out ++ [text]))
  | seat {k last out i j text event seat} (he : s.list.nodes[k]? = some event)
      (hj : j ≤ event.cols) (hs : event.data[(seatIndex event i j).toNat]? = some seat) :
      Prints s (.seat k last out i j text)
        (.seat k last out i (j + 1)
          (text ++ (Client.decimal seat ++ if j < event.cols then [' '] else [])))
  | newline {k last out i j text event} (he : s.list.nodes[k]? = some event)
      (hj : ¬ j ≤ event.cols) :
      Prints s (.seat k last out i j text) (.row k last out (i + 1) (text ++ ['\n']))
  | last {k out} : Prints s (.next k k out) (.unlock out)
  | next {k last out} (hk : k ≠ last) : Prints s (.next k last out) (.mutex (k + 1) last out)
  | unlock {out} : Prints s (.unlock out) (.done out)
  | done {out} : Prints s (.done out) .idle

/-- The steps of the whole server. -/
inductive Step : State → Act → State → Prop where
  | session {x a s} (hb : blocked x a = false) (h : Server.step x.sessions a = some s) :
      Step x (.session a) { x with sessions := s }
  | signal {x} (h : x.report = .idle) : Step x .signal { x with report := .lock }
  | main {x r} (h : Prints x.sessions x.report r) : Step x .main { x with report := r }

/-- The steps of the main thread. -/
theorem advanceMain_cases {x : State} {r : Place} (h : advanceMain x = some r) :
    Prints x.sessions x.report r := by
  unfold advanceMain at h
  split at h
  next => cases h
  next hr =>
    rw [hr]
    split at h
    next hw => cases h; exact .lock hw
    next => cases h
  next hr =>
    rw [hr]
    split at h
    next hn => cases h; exact .empty hn
    next hn => cases h; exact .first hn
  next hr =>
    rw [hr]
    split at h
    next hm => cases h; exact .mutex hm
    next => cases h
  next hr =>
    obtain ⟨event, he, rfl⟩ := Option.map_eq_some_iff.mp h
    rw [hr]
    exact .title he
  next hr =>
    obtain ⟨event, he, rfl⟩ := Option.map_eq_some_iff.mp h
    rw [hr]
    split
    next hi => exact .row he hi
    next hi => exact .printed he hi
  next hr =>
    obtain ⟨event, he, h⟩ := Option.bind_eq_some_iff.mp h
    rw [hr]
    split at h
    next hj =>
      obtain ⟨seat, hs, rfl⟩ := Option.map_eq_some_iff.mp h
      exact .seat he hj hs
    next hj => cases h; exact .newline he hj
  next hr =>
    rw [hr]
    split at h
    next hk => subst hk; cases h; exact .last
    next hk => cases h; exact .next hk
  next hr => cases h; rw [hr]; exact .unlock
  next hr => cases h; rw [hr]; exact .done

/-- The steps of the server with its main thread. -/
theorem step_cases {x x' : State} {a : Act} (h : step x a = some x') : Step x a x' := by
  cases a with
  | session a =>
    simp only [step] at h
    split at h
    next => cases h
    next hb =>
      obtain ⟨s, hs, rfl⟩ := Option.map_eq_some_iff.mp h
      exact .session (Bool.eq_false_of_not_eq_true hb) hs
  | signal =>
    simp only [step] at h
    split at h
    next hr => cases h; exact .signal hr
    next => cases h
  | main =>
    obtain ⟨r, hr, rfl⟩ := Option.map_eq_some_iff.mp h
    exact .main (advanceMain_cases hr)

/-! ## A run of the sessions -/

/-- What the sessions did. -/
def sessions (tr : List Act) : List Server.Act :=
  tr.filterMap fun a => match a with
    | .session b => some b
    | _ => none

/-- The steps of the sessions in two runs, one behind the other. -/
@[simp] theorem sessions_append (tr tr' : List Act) :
    sessions (tr ++ tr') = sessions tr ++ sessions tr' := List.filterMap_append

/-- A step of a session is one. -/
@[simp] theorem sessions_session (a : Server.Act) : sessions [.session a] = [a] := rfl

/-- A signal is none. -/
@[simp] theorem sessions_signal : sessions [.signal] = [] := rfl

/-- A step of the main thread is none. -/
@[simp] theorem sessions_main : sessions [.main] = [] := rfl

/-- The reports take nothing from the sessions and add nothing to what they do. -/
theorem run_sessions {tr : List Act} {x : State} (h : machine.run tr = some x) :
    Server.machine.run (sessions tr) = some x.sessions := by
  refine machine.run_invariant (I := fun tr x => Server.machine.run (sessions tr) =
    some x.sessions) rfl ?_ tr x h
  intro tr x a x' _ ih hstep
  rw [sessions_append]
  cases step_cases hstep with
  | session _ hs => exact Server.machine.run_snoc.mpr ⟨_, ih, hs⟩
  | signal => rw [sessions_signal, List.append_nil]; exact ih
  | main => rw [sessions_main, List.append_nil]; exact ih

/-! ## The locks of the main thread -/

/-- What the main thread has locked, no session has. -/
structure LockInv (x : State) : Prop where
  list : x.report.reading = true → x.sessions.rwl.writer = none
  event : ∀ k, x.report.holding = some k → x.sessions.mutex k = none

/-- Giving back a lock makes nobody its writer. -/
theorem writer_unlock {l : RwLock Tid} (h : l.writer = none) (t : Tid) :
    (l.unlock t).writer = none := by
  unfold RwLock.unlock
  split
  next => rfl
  next => exact h

/-- Who has to wait writes nothing. -/
theorem writer_session {x : State} {a : Server.Act} {s : Server.State} (hb : blocked x a = false)
    (hs : Server.Step x.sessions a s) (hr : x.report.reading = true)
    (hw : x.sessions.rwl.writer = none) : s.rwl.writer = none := by
  cases hs
  case createLock t c id rows cols l h hl =>
    simp only [blocked, h] at hb
    rw [hr] at hb
    cases hb
  case reserveLock hl => exact (RwLock.rdlock_some hl).2.1
  case showLock hl => exact (RwLock.rdlock_some hl).2.1
  case listLock hl => exact (RwLock.rdlock_some hl).2.1
  case createUnlock => exact writer_unlock hw _
  case reserveMissing => exact writer_unlock hw _
  case reserveFound => exact writer_unlock hw _
  case showUnlist => exact writer_unlock hw _
  case listUnlock => exact writer_unlock hw _
  all_goals exact hw

/-- No session takes the mutex that the report has. -/
theorem mutex_session {x : State} {a : Server.Act} {s : Server.State} {k : Nat}
    (hb : blocked x a = false) (hs : Server.Step x.sessions a s) (hk : x.report.holding = some k)
    (hm : x.sessions.mutex k = none) : s.mutex k = none := by
  cases hs
  case reserveMutex t c q e h he =>
    simp only [blocked, h, hk, beq_eq_false_iff_ne, ne_eq, Option.some.injEq] at hb
    exact (Function.update_of_ne hb ..).trans hm
  case reserveRelease t c q e ret h =>
    show Function.update x.sessions.mutex e none k = none
    by_cases hek : k = e
    · rw [hek, Function.update_self]
    · rw [Function.update_of_ne hek]
      exact hm
  all_goals exact hm

/-- What the report has locked stays locked against the sessions. -/
theorem step_lockInv {x x' : State} {a : Act} (hs : Step x a x') (hi : LockInv x) :
    LockInv x' := by
  cases hs with
  | session hb h =>
    exact ⟨fun hr => writer_session hb (Server.step_cases h) hr (hi.list hr),
      fun k hk => mutex_session hb (Server.step_cases h) hk (hi.event k hk)⟩
  | signal h => exact ⟨by simp [Place.reading], by simp [Place.holding]⟩
  | @main r h =>
    have hlist : r.reading = true → x.sessions.rwl.writer = none := by
      intro hr
      -- the lock is free when it is taken, and kept from then on
      cases hrep : x.report <;> rw [hrep] at h
      case lock => cases h with
        | lock hw => exact hw
      case idle => cases h
      case done => cases h; cases hr
      all_goals exact hi.list (by rw [hrep]; rfl)
    refine ⟨hlist, fun k hk => ?_⟩
    cases hrep : x.report <;> rw [hrep] at h
    case mutex => cases h with
      | mutex hm => cases hk; exact hm
    case title => cases h; cases hk; exact hi.event k (by rw [hrep]; rfl)
    case row => cases h <;> cases hk; exact hi.event k (by rw [hrep]; rfl)
    case seat => cases h <;> cases hk <;> exact hi.event k (by rw [hrep]; rfl)
    all_goals cases h <;> cases hk

/-- In every run the report and the sessions exclude each other at the locks. -/
theorem run_lockInv {tr : List Act} {x : State} (h : machine.run tr = some x) : LockInv x :=
  machine.run_invariant (I := fun _ x => LockInv x)
    ⟨by simp [machine, State.init, Place.reading], by simp [machine, State.init, Place.holding]⟩
    (fun _ _ _ _ _ hi hstep => step_lockInv (step_cases hstep) hi) tr x h

/-- An event whose mutex nobody has stays as it is, whatever a session does. -/
theorem event_session {s s' : Server.State} {a : Server.Act} {k : Nat} {event : Event}
    (hs : Server.Step s a s') (hi : MutexInv s) (hm : s.mutex k = none)
    (he : s.list.nodes[k]? = some event) : s'.list.nodes[k]? = some event := by
  have hout : ∀ {t : Tid} {e : Nat}, (s.pc t).holding = some e → e ≠ k := by
    rintro t e ht rfl
    rw [(hi e t).mpr ht] at hm
    cases hm
  cases hs
  case createAppend t c id rows cols h =>
    show (createEvent c.alloc s.list id rows cols).1.nodes[k]? = some event
    rcases createEvent_cases c.alloc s.list id rows cols with hc | hc
    · rw [hc]; exact he
    · obtain ⟨hlt, -⟩ := List.getElem?_eq_some_iff.mp he
      rw [hc]
      exact (List.getElem?_append_left hlt).trans he
  case reserveAdmit t c q e event' h he' hq =>
    exact (getElem?_setEvent_of_ne (hout (t := t) (by rw [h]; rfl)).symm).trans he
  case reserveStore t c q e r i event' h he' hlt hin =>
    exact (getElem?_setEvent_of_ne (hout (t := t) (by rw [h]; rfl)).symm).trans he
  all_goals exact he

/-- While nobody writes the list, nothing is created. -/
theorem created_session {s : Server.State} (hi : RwlInv s) (hw : s.rwl.writer = none)
    (a : Server.Act) : created s a = [] := by
  unfold created
  split
  next t c =>
    split
    next id rows cols hp =>
      have hwriter := (hi.writer t).mpr (by rw [hp]; rfl)
      rw [hw] at hwriter
      cases hwriter
    next => rfl
  next => rfl

/-! ## What is printed of an event -/

/-- The seats of a row, from 0. -/
def rowOf (event : Event) (i : Nat) : List UInt32 :=
  (List.range event.cols.toNat).map fun j => event.data.getD (i * event.cols.toNat + j) 0

/-- The first `n` rows. -/
def rowsText (event : Event) (n : Nat) : List Char :=
  (List.range n).flatMap fun i => Client.line (rowOf event i)

/-- The first `m` seats of a row, each but the last of the row with a blank behind it. -/
def seatsText (event : Event) (i m : Nat) : List Char :=
  (List.range m).flatMap fun j =>
    Client.decimal (event.data.getD (i * event.cols.toNat + j) 0) ++
      if j + 1 < event.cols.toNat then [' '] else []

/-- An event in the report: its line in the list, and the matrix that `SHOW` prints. -/
def sectionText (event : Event) : List Char := Client.idLine event.id ++ Client.render event

/-- All rows are the matrix. -/
theorem rowsText_all (event : Event) : rowsText event event.rows.toNat = Client.render event := by
  unfold rowsText Client.render Client.matrix
  rw [List.flatMap_map]
  rfl

/-- One row more. -/
theorem rowsText_succ (event : Event) (n : Nat) :
    rowsText event (n + 1) = rowsText event n ++ Client.line (rowOf event n) := by
  unfold rowsText
  rw [List.range_succ, List.flatMap_append, List.flatMap_singleton]

/-- One seat more, and a blank unless it is the last one. -/
theorem seatsText_succ (event : Event) (i m : Nat) :
    seatsText event i (m + 1) = seatsText event i m ++
      (Client.decimal (event.data.getD (i * event.cols.toNat + m) 0) ++
        if m + 1 < event.cols.toNat then [' '] else []) := by
  unfold seatsText
  rw [List.range_succ, List.flatMap_append, List.flatMap_singleton]

/-- All seats and the newline are a line. -/
theorem seatsText_all (event : Event) (i : Nat) :
    seatsText event i event.cols.toNat ++ ['\n'] = Client.line (rowOf event i) := by
  unfold seatsText Client.line rowOf
  rw [List.range_eq_range', Client.flatMap_separated _ 0 (Nat.zero_add _), List.map_map]
  rfl

/-- How far the loops over an event have come. -/
def Printing (event : Event) : Place → Prop
  | .row _ _ _ i text => ∃ n ≤ event.rows.toNat, i = UInt64.ofNat (n + 1) ∧
      text = Client.idLine event.id ++ rowsText event n
  | .seat _ _ _ i j text => ∃ n < event.rows.toNat, ∃ m ≤ event.cols.toNat,
      i = UInt64.ofNat (n + 1) ∧ j = UInt64.ofNat (m + 1) ∧
      text = Client.idLine event.id ++ rowsText event n ++ seatsText event n m
  | _ => True

/-- The test of the loops, with the counter as a number. -/
theorem ofNat_succ_le {n : Nat} {b : UInt64} (h : n + 1 < 2 ^ 64) :
    UInt64.ofNat (n + 1) ≤ b ↔ n + 1 ≤ b.toNat := by
  rw [UInt64.le_iff_toNat_le, UInt64.toNat_ofNat', Nat.mod_eq_of_lt h]

/-- The test for the last seat of a row, with the counter as a number. -/
theorem ofNat_succ_lt {n : Nat} {b : UInt64} (h : n + 1 < 2 ^ 64) :
    UInt64.ofNat (n + 1) < b ↔ n + 1 < b.toNat := by
  rw [UInt64.lt_iff_toNat_lt, UInt64.toNat_ofNat', Nat.mod_eq_of_lt h]

/-- The counter moves on. -/
theorem ofNat_succ_succ (n : Nat) : UInt64.ofNat (n + 1) + 1 = UInt64.ofNat (n + 1 + 1) := by
  rw [UInt64.ofNat_add (n + 1) 1]
  rfl

/-- An event with a row has fewer columns than a `size_t` can count. -/
theorem cols_lt {event : Event} (h : Client.Printable event) {n : Nat} (hn : n < event.rows.toNat) :
    event.cols.toNat + 1 < 2 ^ 64 := by
  have hle : event.cols.toNat ≤ event.rows.toNat * event.cols.toNat :=
    Nat.le_mul_of_pos_left _ (by omega)
  have := h.fits
  omega

/-- A seat inside the two loops. -/
theorem seat_index {event : Event} (h : Client.Printable event) {n m : Nat}
    (hn : n < event.rows.toNat) (hm : m < event.cols.toNat) :
    (seatIndex event (UInt64.ofNat (n + 1)) (UInt64.ofNat (m + 1))).toNat =
      n * event.cols.toNat + m := by
  have hle : n * event.cols.toNat + (m + 1) ≤ event.rows.toNat * event.cols.toNat :=
    inside_mul_le (Nat.succ_pos n) hn hm
  have hfits := h.fits
  have heq : seatIndex event (UInt64.ofNat (n + 1)) (UInt64.ofNat (m + 1)) =
      (UInt64.ofNat (n + 1) - 1) * event.cols + (UInt64.ofNat (m + 1) - 1) := by
    unfold seatIndex
    simp only [UInt64.sub_eq_add_neg, UInt64.add_assoc]
  rw [heq]
  exact Client.seat_toNat (by omega) hm

/-- A step inside an event, which stays as it is. -/
theorem printing_main {s : Server.State} {r r' : Place} {k : Nat} {event : Event}
    (hs : Prints s r r') (he : s.list.nodes[k]? = some event) (hp : Client.Printable event)
    (hk : r'.holding = some k) (hi : r.holding = some k → Printing event r) :
    Printing event r' := by
  cases hs
  case mutex => trivial
  case title k' last out event' he' =>
    cases hk
    rw [he] at he'
    cases he'
    exact ⟨0, Nat.zero_le _, rfl, (List.append_nil _).symm⟩
  case row k' last out i text event' he' hle =>
    cases hk
    rw [he] at he'
    cases he'
    obtain ⟨n, hn, rfl, htext⟩ := hi rfl
    have hlt := (ofNat_succ_le (Nat.lt_of_le_of_lt (Nat.succ_le_succ hn) hp.ends)).mp hle
    exact ⟨n, hlt, 0, Nat.zero_le _, rfl, rfl, by rw [htext]; exact (List.append_nil _).symm⟩
  case seat k' last out i j text event' seat he' hle hcell =>
    cases hk
    rw [he] at he'
    cases he'
    obtain ⟨n, hn, m, hm, rfl, rfl, htext⟩ := hi rfl
    have hcols := cols_lt hp hn
    have hlt := (ofNat_succ_le (Nat.lt_of_le_of_lt (Nat.succ_le_succ hm) hcols)).mp hle
    refine ⟨n, hn, m + 1, hlt, rfl, ofNat_succ_succ m, ?_⟩
    -- what is read is the cell of the seat
    rw [seat_index hp hn hlt] at hcell
    rw [htext, seatsText_succ, List.append_assoc, List.getD_eq_getElem?_getD, hcell]
    simp only [ofNat_succ_lt (show m + 1 < 2 ^ 64 by omega)]
    rfl
  case newline k' last out i j text event' he' hgt =>
    cases hk
    rw [he] at he'
    cases he'
    obtain ⟨n, hn, m, hm, rfl, rfl, htext⟩ := hi rfl
    have hcols := cols_lt hp hn
    have hend : m = event.cols.toNat := by
      rw [ofNat_succ_le (show m + 1 < 2 ^ 64 by omega)] at hgt
      omega
    refine ⟨n + 1, hn, ofNat_succ_succ n, ?_⟩
    rw [htext, hend, rowsText_succ, ← seatsText_all]
    simp only [List.append_assoc]
  all_goals cases hk

/-- The loops have ended: the whole event is printed. -/
theorem printed_all {k last : Nat} {out : List (List Char)} {i : UInt64} {text : List Char}
    {event : Event} (hp : Client.Printable event) (hi : Printing event (.row k last out i text))
    (hgt : ¬ i ≤ event.rows) : text = sectionText event := by
  obtain ⟨n, hn, rfl, rfl⟩ := hi
  have hend : n = event.rows.toNat := by
    rw [ofNat_succ_le (Nat.lt_of_le_of_lt (Nat.succ_le_succ hn) hp.ends)] at hgt
    omega
  rw [hend, rowsText_all]
  rfl

/-- Every event under print. -/
def PrintInv (x : State) : Prop := ∀ k event, x.report.holding = some k →
  x.sessions.list.nodes[k]? = some event → Client.Printable event → Printing event x.report

/-- The text is what has been printed of the event, after every step. -/
theorem step_printInv {x x' : State} {a : Act} (hs : Step x a x') (hl : LockInv x)
    (hm : MutexInv x.sessions) (hlen : ∀ k, x.report.holding = some k →
      k < x.sessions.list.nodes.length) (hi : PrintInv x) : PrintInv x' := by
  intro k event hk he hp
  cases hs with
  | session hb h =>
    -- the session leaves the event alone, whose mutex the main thread has
    have hlt : k < x.sessions.list.nodes.length := hlen k hk
    have hsame := event_session (Server.step_cases h) hm (hl.event k hk)
      (List.getElem?_eq_getElem hlt)
    rw [he] at hsame
    cases hsame
    exact hi k _ hk (List.getElem?_eq_getElem hlt) hp
  | signal => cases hk
  | main h => exact printing_main h he hp hk fun hold => hi k event hold he hp

/-! ## A whole report -/

/-- The event the main thread is at, and the last one. -/
def Place.position : Place → Option (Nat × Nat)
  | .mutex k last _ => some (k, last)
  | .title k last _ => some (k, last)
  | .row k last _ _ _ => some (k, last)
  | .seat k last _ _ _ _ => some (k, last)
  | .next k last _ => some (k, last)
  | _ => none

/-- What is printed so far, and of how many events. -/
def Place.printed : Place → Option (List (List Char) × Nat)
  | .mutex k _ out => some (out, k)
  | .title k _ out => some (out, k)
  | .row k _ out _ _ => some (out, k)
  | .seat k _ out _ _ _ => some (out, k)
  | .next k _ out => some (out, k + 1)
  | _ => none

/-- What is printed in the end. -/
def Place.all : Place → Option (List (List Char))
  | .unlock out => some out
  | .done out => some out
  | _ => none

/-- The text is the event at `k` at a moment of the report at which its mutex was free:
the report begins after `start` and goes on with `rest`. -/
def Shows (start rest : List Act) (k : Nat) (text : List Char) : Prop :=
  ∃ mid after x event, rest = mid ++ after ∧ machine.run (start ++ mid) = some x ∧
    x.sessions.list.nodes[k]? = some event ∧ x.sessions.mutex k = none ∧
    creations (sessions (start ++ mid)) = creations (sessions start) ∧
    (Client.Printable event → text = sectionText event)

/-- One text for every event there was at the beginning. -/
def Complete (start rest : List Act) (out : List (List Char)) : Prop :=
  if creations (sessions start) = [] then out = ["No events\n".toList]
  else out.length = (creations (sessions start)).length ∧
    ∀ k text, out[k]? = some text → Shows start rest k text

/-- A report on its way, from the moment on at which it has the lock of the list. -/
structure Reports (start rest : List Act) (x : State) : Prop where
  same : x.report.reading = true → creations (sessions (start ++ rest)) = creations (sessions start)
  position : ∀ k last, x.report.position = some (k, last) →
    k ≤ last ∧ last + 1 = (creations (sessions start)).length
  printed : ∀ out n, x.report.printed = some (out, n) → out.length = n ∧
    ∀ k text, out[k]? = some text → Shows start rest k text
  all : ∀ out, x.report.all = some out → Complete start rest out

/-- The report that is made, or was made last, if the main thread has not left it. -/
def Began (tr : List Act) (x : State) : Prop :=
  ∃ start rest x₀, tr = start ++ rest ∧ machine.run start = some x₀ ∧ x₀.report = .head ∧
    .signal ∉ rest ∧ Reports start rest x

/-- The moment at which an event was printed stays one. -/
theorem Shows.snoc {start rest : List Act} {k : Nat} {text : List Char}
    (h : Shows start rest k text) (a : Act) : Shows start (rest ++ [a]) k text := by
  obtain ⟨mid, after, x, event, rfl, hx⟩ := h
  exact ⟨mid, after ++ [a], x, event, List.append_assoc .., hx⟩

/-- A report that is complete stays so. -/
theorem Complete.snoc {start rest : List Act} {out : List (List Char)}
    (h : Complete start rest out) (a : Act) : Complete start (rest ++ [a]) out := by
  unfold Complete at *
  split at h
  next hnil => rw [if_pos hnil]; exact h
  next hne => rw [if_neg hne]; exact ⟨h.1, fun k text ht => (h.2 k text ht).snoc a⟩

section Steps

variable {start rest : List Act} {x x' : State} {r : Place}

/-- The list is as long as the record of the creations. -/
theorem length_creations {tr : List Act} (hrun : machine.run tr = some x) :
    x.sessions.list.nodes.length = (creations (sessions tr)).length := by
  rw [← (run_createdInv (run_sessions hrun)).order, List.length_map]

/-- A session moves. -/
theorem reports_session {a : Server.Act} {s : Server.State}
    (hrun : machine.run (start ++ rest) = some x) (h : Server.step x.sessions a = some s)
    (hi : Reports start rest x) :
    Reports start (rest ++ [.session a]) { x with sessions := s } where
  same := by
    intro hr
    have hnone := created_session (run_rwlInv (run_sessions hrun))
      ((run_lockInv hrun).list hr) a
    rw [← List.append_assoc, sessions_append, sessions_session, ← hi.same hr]
    unfold creations
    rw [Server.machine.log_snoc created (run_sessions hrun) h, hnone, List.append_nil]
  position := hi.position
  printed out n hp := ⟨(hi.printed out n hp).1,
    fun k text ht => ((hi.printed out n hp).2 k text ht).snoc _⟩
  all out hall := (hi.all out hall).snoc _

/-- The main thread moves, and prints nothing of an event to its end. -/
theorem reports_goto (hi : Reports start rest x)
    (hread : r.reading = true → x.report.reading = true)
    (hpos : ∀ k last, r.position = some (k, last) →
      k ≤ last ∧ last + 1 = (creations (sessions start)).length)
    (hprinted : r.printed = x.report.printed ∨ r.printed = none)
    (hall : ∀ out, r.all = some out → Complete start rest out) :
    Reports start (rest ++ [.main]) { x with report := r } where
  same hr := by
    rw [← List.append_assoc, sessions_append, sessions_main, List.append_nil]
    exact hi.same (hread hr)
  position := hpos
  printed out n hp := by
    rcases hprinted with hsame | hnone
    · have hold := hi.printed out n (hsame.symm.trans hp)
      exact ⟨hold.1, fun k text ht => (hold.2 k text ht).snoc _⟩
    · rw [show Place.printed r = some (out, n) from hp] at hnone
      cases hnone
  all out h := (hall out h).snoc _

/-- The main thread moves within the report. -/
theorem reports_main (hrun : machine.run (start ++ rest) = some x)
    (hs : Prints x.sessions x.report r) (hp : PrintInv x) (hi : Reports start rest x)
    (hlock : x.report ≠ .lock) :
    Reports start (rest ++ [.main]) { x with report := r } := by
  have hlen := length_creations hrun
  generalize hx : x.report = r₀ at hs hlock
  -- at the same event, with the same texts
  have hwithin : r₀.reading = true → r.position = r₀.position → r.printed = r₀.printed →
      r.all = none → Reports start (rest ++ [.main]) { x with report := r } :=
    fun hread hpos hprinted hall => reports_goto hi (fun _ => by rw [hx]; exact hread)
      (fun k last hkl => hi.position k last (by rw [hx, ← hpos]; exact hkl))
      (.inl (by rw [hx]; exact hprinted)) (fun out hout => by rw [hall] at hout; cases hout)
  cases hs with
  | lock => exact absurd rfl hlock
  | empty hn =>
    refine reports_goto hi (fun _ => by rw [hx]; rfl) (by simp [Place.position]) (.inr rfl) ?_
    intro out hout
    cases hout
    unfold Complete
    rw [hi.same (by rw [hx]; rfl), hn] at hlen
    rw [if_pos (List.length_eq_zero_iff.mp hlen.symm)]
  | first hn =>
    have hpos := List.length_pos_iff.mpr hn
    rw [hi.same (by rw [hx]; rfl)] at hlen
    constructor
    · intro _
      rw [← List.append_assoc, sessions_append, sessions_main, List.append_nil]
      exact hi.same (by rw [hx]; rfl)
    · intro k last hkl
      cases hkl
      exact ⟨Nat.zero_le _, by omega⟩
    · intro out n hout
      cases hout
      exact ⟨rfl, fun k text ht => by simp at ht⟩
    · simp [Place.all]
  | mutex => exact hwithin rfl rfl rfl rfl
  | title => exact hwithin rfl rfl rfl rfl
  | row => exact hwithin rfl rfl rfl rfl
  | seat => exact hwithin rfl rfl rfl rfl
  | newline => exact hwithin rfl rfl rfl rfl
  | @printed k last out i text event he hgt =>
    obtain ⟨hout, hshows⟩ := hi.printed out k (by rw [hx]; rfl)
    constructor
    · intro _
      rw [← List.append_assoc, sessions_append, sessions_main, List.append_nil]
      exact hi.same (by rw [hx]; rfl)
    · intro k' last' hkl
      exact hi.position k' last' (by rw [hx]; exact hkl)
    · intro out' n hprinted
      cases hprinted
      refine ⟨by rw [List.length_append, hout]; rfl, fun k' text' ht => ?_⟩
      by_cases hk : k' < k
      · rw [List.getElem?_append_left (by omega)] at ht
        exact (hshows k' text' ht).snoc _
      · -- the one that has just been printed, as it is now
        have hkk : k' = k := by
          have hlt := (List.getElem?_eq_some_iff.mp ht).1
          simp only [List.length_append, hout, List.length_singleton] at hlt
          omega
        subst hkk
        rw [← hout, List.getElem?_concat_length] at ht
        cases ht
        refine ⟨rest, [.main], x, event, rfl, hrun, he,
          (run_lockInv hrun).event k' (by rw [hx]; rfl), hi.same (by rw [hx]; rfl), fun hprt => ?_⟩
        have hprinting := hp k' event (by rw [hx]; rfl) he hprt
        rw [hx] at hprinting
        exact printed_all hprt hprinting hgt
    · simp [Place.all]
  | @last k out =>
    obtain ⟨hout, hshows⟩ := hi.printed out (k + 1) (by rw [hx]; rfl)
    have hpos := (hi.position k k (by rw [hx]; rfl)).2
    refine reports_goto hi (fun _ => by rw [hx]; rfl) (by simp [Place.position]) (.inr rfl) ?_
    intro out' hout'
    cases hout'
    unfold Complete
    rw [if_neg fun hnil => by rw [hnil] at hpos; cases hpos]
    exact ⟨hout.trans hpos, hshows⟩
  | @next k last out hne =>
    have hpos := hi.position k last (by rw [hx]; rfl)
    refine reports_goto hi (fun _ => by rw [hx]; rfl) (fun k' last' hkl => ?_)
      (.inl (by rw [hx]; rfl)) (by simp [Place.all])
    cases hkl
    omega
  | unlock =>
    refine reports_goto hi (fun hr => by cases hr) (by simp [Place.position]) (.inr rfl) ?_
    intro out hout
    exact hi.all out (by rw [hx]; exact hout)
  | done =>
    exact reports_goto hi (fun hr => by cases hr) (by simp [Place.position]) (.inr rfl)
      (by simp [Place.all])

/-- A report is on its way, or there is none. -/
def ReportInv (tr : List Act) (x : State) : Prop :=
  x.report = .idle ∨ x.report = .lock ∨ Began tr x

/-- A report begins. -/
theorem began_head {tr : List Act} (hrun : machine.run tr = some x) (hx : x.report = .head) :
    Began tr x := by
  refine ⟨tr, [], x, (List.append_nil _).symm, hrun, hx, List.not_mem_nil, fun _ => ?_, ?_, ?_, ?_⟩
  · rw [List.append_nil]
  · simp [hx, Place.position]
  · simp [hx, Place.printed]
  · simp [hx, Place.all]

/-- A report that began goes on, whatever moves. -/
theorem step_reportInv {tr : List Act} {a : Act} (hrun : machine.run tr = some x)
    (hstep : machine.step x a = some x') (hp : PrintInv x) (hi : ReportInv tr x) :
    ReportInv (tr ++ [a]) x' := by
  cases step_cases hstep with
  | session hb h =>
    rcases hi with hidle | hlock | ⟨start, rest, x₀, rfl, hrun₀, hhead, hsig, hrep⟩
    · exact .inl hidle
    · exact .inr (.inl hlock)
    · exact .inr (.inr ⟨start, rest ++ [.session _], x₀, List.append_assoc .., hrun₀, hhead,
        by simpa using hsig, reports_session hrun h hrep⟩)
  | signal => exact .inr (.inl rfl)
  | @main r h =>
    by_cases hlock : x.report = .lock
    · have hhead : r = .head := by
        rw [hlock] at h
        cases h
        rfl
      exact .inr (.inr (began_head (machine.run_snoc.mpr ⟨x, hrun, hstep⟩) hhead))
    · rcases hi with hidle | hlock' | ⟨start, rest, x₀, rfl, hrun₀, hhead, hsig, hrep⟩
      · rw [hidle] at h
        cases h
      · exact absurd hlock' hlock
      · exact .inr (.inr ⟨start, rest ++ [.main], x₀, List.append_assoc .., hrun₀, hhead,
          by simpa using hsig, reports_main hrun h hp hrep hlock⟩)

/-- The event under print is in the list. -/
theorem ReportInv.lt {tr : List Act} (hrun : machine.run tr = some x) (hi : ReportInv tr x)
    {k : Nat} (hk : x.report.holding = some k) : k < x.sessions.list.nodes.length := by
  rcases hi with hidle | hlock | ⟨start, rest, x₀, rfl, -, -, -, hrep⟩
  · rw [hidle] at hk
    cases hk
  · rw [hlock] at hk
    cases hk
  · have hread : x.report.reading = true := by
      cases hx : x.report <;> rw [hx] at hk <;> first | rfl | cases hk
    have hpos : ∃ last, x.report.position = some (k, last) := by
      cases hx : x.report <;> rw [hx] at hk <;> cases hk <;> exact ⟨_, rfl⟩
    obtain ⟨last, hlast⟩ := hpos
    have hbound := hrep.position k last hlast
    rw [length_creations hrun, hrep.same hread]
    omega

end Steps

/-- In every run the report is idle, about to begin, or consists of committed events. -/
theorem run_reportInv {tr : List Act} {x : State} (h : machine.run tr = some x) :
    ReportInv tr x ∧ PrintInv x := by
  refine machine.run_invariant (I := fun tr x => ReportInv tr x ∧ PrintInv x) ⟨.inl rfl, ?_⟩ ?_
    tr x h
  · intro k event hk
    cases hk
  · intro tr x a x' hrun ih hstep
    exact ⟨step_reportInv hrun hstep ih.2 ih.1, step_printInv (step_cases hstep) (run_lockInv hrun)
      (run_mutexInv (run_sessions hrun)) (fun _ hk => ih.1.lt hrun hk) ih.2⟩

/-- Whenever nobody has the mutex of an event, the seats that carry `r` are those of the
`r`-th reservation. -/
theorem booked_seats {tr : List Server.Act} {s : Server.State} (hsane : ∀ a ∈ tr, a.Sane)
    (hrun : Server.machine.run tr = some s) {e : Nat} {event : Event}
    (he : s.list.nodes[e]? = some event) (hcap : capacity event < 2 ^ 32)
    (hfree : s.mutex e = none) {r : Nat} (hr : 1 ≤ r) :
    {p : Seat | Inside event p ∧ event.seat p = r} = {p | p ∈ (bookings e tr).getD (r - 1) []} := by
  have hold := (run_books (backed_of_sane hsane e) hrun).after event he hcap
  have hin : s.inside e = none := by unfold State.inside; rw [hfree]; rfl
  rw [hin] at hold
  obtain ⟨l, hl, hkeep, hins, -⟩ := hold
  simp only [Pc.granting, List.append_nil] at hl hkeep hins
  exact keeps_seats (Nat.lt_trans hcap (by decide)) hl hkeep hins hr

/-- **A report is made of committed events.** It prints every event that existed when it
got the lock of the list, in the order of their creation and each of them once. What it
prints of one is its whole matrix at one moment of the report: at that moment nobody was
inside the event, and a seat carries the number of the reservation that has it. The
requests are those `handle_requests` lets through, of 1 to 256 seats. -/
theorem report_committed {tr : List Act} {x : State} {out : List (List Char)}
    (hsane : ∀ a ∈ sessions tr, a.Sane) (hrun : machine.run tr = some x)
    (hdone : x.report = .done out) :
    ∃ start rest x₀, tr = start ++ rest ∧ machine.run start = some x₀ ∧ x₀.report = .head ∧
      .signal ∉ rest ∧
      (creations (sessions start) = [] → out = ["No events\n".toList]) ∧
      (creations (sessions start) ≠ [] → out.length = (creations (sessions start)).length ∧
        ∀ k text, out[k]? = some text → ∃ mid after x₁ event, rest = mid ++ after ∧
          machine.run (start ++ mid) = some x₁ ∧ x₁.sessions.list.nodes[k]? = some event ∧
          (creations (sessions start))[k]? = some event.shape ∧
          x₁.sessions.mutex k = none ∧ (∀ t, (x₁.sessions.pc t).holding ≠ some k) ∧
          (Client.Printable event → text = Client.idLine event.id ++ Client.render event) ∧
          (event.rows.toNat * event.cols.toNat < 2 ^ 32 → ∀ r, 1 ≤ r →
            {p : Seat | Inside event p ∧ event.seat p = r} =
              {p | p ∈ (bookings k (sessions (start ++ mid))).getD (r - 1) []})) := by
  rcases (run_reportInv hrun).1 with hidle | hlock | ⟨start, rest, x₀, rfl, hrun₀, hhead, hsig, hrep⟩
  · rw [hdone] at hidle
    cases hidle
  · rw [hdone] at hlock
    cases hlock
  refine ⟨start, rest, x₀, rfl, hrun₀, hhead, hsig, fun hnil => ?_, fun hne => ?_⟩
  · have hall := hrep.all out (by rw [hdone]; rfl)
    unfold Complete at hall
    rwa [if_pos hnil] at hall
  · have hall := hrep.all out (by rw [hdone]; rfl)
    unfold Complete at hall
    rw [if_neg hne] at hall
    refine ⟨hall.1, fun k text ht => ?_⟩
    obtain ⟨mid, after, x₁, event, rfl, hrun₁, he, hfree, hsame, htext⟩ := hall.2 k text ht
    refine ⟨mid, after, x₁, event, rfl, hrun₁, he, ?_, hfree, fun t hin => ?_, htext,
      fun hcap r hr => ?_⟩
    · rw [← hsame, ← (run_createdInv (run_sessions hrun₁)).order, List.getElem?_map, he]
      rfl
    · -- who is inside an event has its mutex
      have hown := (run_mutexInv (run_sessions hrun₁) k t).mpr hin
      rw [hfree] at hown
      cases hown
    · refine booked_seats (fun a ha => hsane a ?_) (run_sessions hrun₁) he hcap hfree hr
      rw [← List.append_assoc, sessions_append]
      exact List.mem_append_left _ ha

/-- SIGUSR1 comes while session 1 is storing its seat; the main thread waits for it. -/
def duringReservation : List Act :=
  let turn (t : Tid) : Act := .session (.step t ⟨Alloc.allOk, 1⟩)
  [.session (.call 0 (.create 7 1 2)), turn 0, turn 0, turn 0, turn 0,
    .session (.call 1 (.reserve ⟨7, 1, fun _ => 1, fun _ => 2⟩)),
    turn 1, turn 1, turn 1, turn 1, turn 1, .signal, .main, .main,
    turn 1, turn 1, turn 1] ++ List.replicate 9 .main

theorem report_committed_duringReservation : ∃ before x event,
    before <+: duringReservation ∧ machine.run before = some x ∧
      x.sessions.list.nodes[0]? = some event ∧
      x.sessions.mutex 0 = none ∧ (∀ t, (x.sessions.pc t).holding ≠ some 0) ∧
      (Client.Printable event →
        "Event: 7\n0 1\n".toList = Client.idLine event.id ++ Client.render event) ∧
      (event.rows.toNat * event.cols.toNat < 2 ^ 32 → ∀ r, 1 ≤ r →
        {p : Seat | Inside event p ∧ event.seat p = r} =
          {p | p ∈ (bookings 0 (sessions before)).getD (r - 1) []}) := by
  have hend : (machine.run duringReservation).map (·.report) =
      some (.done ["Event: 7\n0 1\n".toList]) := by decide
  obtain ⟨x, hx, hdone⟩ := Option.map_eq_some_iff.mp hend
  obtain ⟨start, rest, x₀, hsplit, hrun₀, hhead, hsig, hnone, hall⟩ :=
    report_committed (by simp [duringReservation, sessions, Act.Sane]) hx hdone
  by_cases hnil : creations (sessions start) = []
  · exact absurd (hnone hnil) (by decide)
  obtain ⟨mid, after, x₁, event, hrest, hrun₁, he, -, hfree, hout, htext, hseats⟩ :=
    (hall hnil).2 0 _ rfl
  refine ⟨start ++ mid, x₁, event, ⟨after, ?_⟩, hrun₁, he, hfree, hout, htext, hseats⟩
  rw [hsplit, hrest, List.append_assoc]

end Ems.Server.Report
