import Mathlib.Data.Fintype.Basic
import Mathlib.Data.Finset.Card
import Ems.Conc.Machine
import Ems.Conc.Mutex
import Ems.Conc.RwLock
import Ems.Server.Queue

/-!
# The worker pool and its shutdown

The main thread hands connections to `n` workers through the queue and, on the
way out, sets `terminate` and broadcasts once. Each worker looks at the flag,
takes the queue's lock, and sleeps on the condition variable while the queue is
empty; after every wakeup it looks at the flag again.

The flag has a lock of its own, so the broadcast can come between a worker's look
at it and that worker's `pthread_cond_wait` (`sleepsThrough`): nobody signals
again and the `pthread_join` waits for ever. What decides is how many workers are
past a look that saw 0 when main broadcasts. Each of them wants a connection and
sleeps when it finds none, so nobody is lost exactly as long as the queue has one
for each (`Covered`, `no_lost_wakeup`).

Mirroring notes:
- `pthread_cond_wait` releases the lock and sleeps in one step, and returns with
  the lock; it may also return without a signal (`Act.spurious`).
- `handle_requests` and the opening of the pipes are the place `serving`.
- Lock calls and `malloc` succeed.
-/

namespace Ems.Server.Pool

open Conc Base

/-- A thread of the server. -/
inductive Who (n : Nat) where
  | main
  | worker (w : Fin n)
deriving DecidableEq

/-- Where a worker is in `connect_clients`. -/
inductive WorkerPc where
  /-- `check_termination` at the head of the loop -/
  | checkLock
  | checkRead
  | checkUnlock (terminate : Bool)
  /-- before `pthread_mutex_lock(&queue->queue_lock)` -/
  | acquire
  /-- the test of `while (isEmpty(queue))` -/
  | test
  | wait
  /-- inside `pthread_cond_wait`, not signalled -/
  | asleep
  /-- signalled, `pthread_cond_wait` has still to get the lock back -/
  | woken
  /-- `check_termination` after the wait, with the queue's lock -/
  | recheckLock
  | recheckRead
  | recheckUnlock (terminate : Bool)
  | leave
  | take
  | unlockTaken (connection : Option Nat)
  /-- the two `memcpy`s -/
  | copy (connection : Nat)
  | serving (connection : Connection)
  | exited
deriving DecidableEq

/-- Where the main thread is, from its loop on. -/
inductive MainPc where
  | listen
  | enqueueLock (connection : Connection)
  | enqueuePush (connection : Connection)
  | enqueueBroadcast
  | enqueueUnlock
  | setLock
  | setFlag
  | setUnlock
  | broadcast
  /-- the `pthread_join` loop -/
  | joining (i : Nat)
  | joined
deriving DecidableEq

structure State (n : Nat) where
  queue : ConnectionQueue
  terminate : Bool
  queueLock : Option (Who n)
  terminationLock : RwLock (Who n)
  main : MainPc
  worker : Fin n → WorkerPc

/-- The main thread gets a connection or leaves its loop, or a thread moves, or
a wait ends without a signal. -/
inductive Act (n : Nat) where
  | connect (connection : Connection)
  | shutdown
  | main
  | worker (w : Fin n)
  | spurious (w : Fin n)

variable {n : Nat}

def State.init : State n :=
  ⟨initQueue, false, none, RwLock.free, .listen, fun _ => .checkLock⟩

/-- Worker `w` moves to `pc`. -/
def State.goto (s : State n) (w : Fin n) (pc : WorkerPc) : State n :=
  { s with worker := Function.update s.worker w pc }

/-- `pthread_cond_broadcast`. -/
def State.wakeAll (s : State n) : State n :=
  { s with worker := fun w => if s.worker w = .asleep then .woken else s.worker w }

/-- One step of worker `w`. -/
def advance (s : State n) (w : Fin n) : Option (State n) :=
  match s.worker w with
  | .checkLock =>
    (s.terminationLock.rdlock (.worker w)).map fun l =>
      { s with terminationLock := l }.goto w .checkRead
  | .checkRead => some (s.goto w (.checkUnlock s.terminate))
  | .checkUnlock terminate =>
    some ({ s with terminationLock := s.terminationLock.unlock (.worker w) }.goto w
      (if terminate then .exited else .acquire))
  | .acquire =>
    if s.queueLock = none then some ({ s with queueLock := some (.worker w) }.goto w .test)
    else none
  | .test => some (s.goto w (if isEmpty s.queue then .wait else .take))
  -- `pthread_cond_wait` gives the lock back and sleeps in one step
  | .wait => some ({ s with queueLock := none }.goto w .asleep)
  | .asleep => none
  | .woken =>
    if s.queueLock = none then some ({ s with queueLock := some (.worker w) }.goto w .recheckLock)
    else none
  | .recheckLock =>
    (s.terminationLock.rdlock (.worker w)).map fun l =>
      { s with terminationLock := l }.goto w .recheckRead
  | .recheckRead => some (s.goto w (.recheckUnlock s.terminate))
  | .recheckUnlock terminate =>
    some ({ s with terminationLock := s.terminationLock.unlock (.worker w) }.goto w
      (if terminate then .leave else .test))
  | .leave => some ({ s with queueLock := none }.goto w .exited)
  | .take =>
    some ({ s with queue := (dequeueConnection s.queue).2 }.goto w
      (.unlockTaken (dequeueConnection s.queue).1))
  | .unlockTaken connection =>
    some ({ s with queueLock := none }.goto w
      (match connection with
        | none => .checkLock
        | some a => .copy a))
  -- behind the lock: the node is still read
  | .copy a => some (s.goto w (.serving (s.queue.conn a)))
  | .serving _ => some (s.goto w .checkLock)
  | .exited => none

/-- One step of the main thread. -/
def advanceMain (s : State n) : Option (State n) :=
  match s.main with
  | .listen => none
  | .enqueueLock connection =>
    if s.queueLock = none then
      some { s with queueLock := some .main, main := .enqueuePush connection }
    else none
  | .enqueuePush connection =>
    some { s with queue := enqueueConnection s.queue connection, main := .enqueueBroadcast }
  | .enqueueBroadcast => some { s.wakeAll with main := .enqueueUnlock }
  | .enqueueUnlock => some { s with queueLock := none, main := .listen }
  | .setLock =>
    (s.terminationLock.wrlock .main).map fun l => { s with terminationLock := l, main := .setFlag }
  | .setFlag => some { s with terminate := true, main := .setUnlock }
  | .setUnlock =>
    some { s with terminationLock := s.terminationLock.unlock .main, main := .broadcast }
  | .broadcast => some { s.wakeAll with main := .joining 0 }
  | .joining i =>
    if h : i < n then
      if s.worker ⟨i, h⟩ = .exited then some { s with main := .joining (i + 1) } else none
    else some { s with main := .joined }
  | .joined => none

def step (s : State n) : Act n → Option (State n)
  | .connect connection =>
    if s.main = .listen then some { s with main := .enqueueLock connection } else none
  | .shutdown => if s.main = .listen then some { s with main := .setLock } else none
  | .main => advanceMain s
  | .worker w => advance s w
  | .spurious w => if s.worker w = .asleep then some (s.goto w .woken) else none

/-- The server's threads as a machine, with `n` workers. -/
def machine (n : Nat) : Machine (State n) (Act n) := ⟨State.init, step⟩

/-! ## What one step can do -/

/-- The steps of the server's threads. -/
inductive Step : State n → Act n → State n → Prop where
  | connect {s c} (h : s.main = .listen) :
      Step s (.connect c) { s with main := .enqueueLock c }
  | shutdown {s} (h : s.main = .listen) : Step s .shutdown { s with main := .setLock }
  | enqueueLock {s c} (h : s.main = .enqueueLock c) (hl : s.queueLock = none) :
      Step s .main { s with queueLock := some .main, main := .enqueuePush c }
  | enqueuePush {s c} (h : s.main = .enqueuePush c) :
      Step s .main { s with queue := enqueueConnection s.queue c, main := .enqueueBroadcast }
  | enqueueBroadcast {s} (h : s.main = .enqueueBroadcast) :
      Step s .main { s.wakeAll with main := .enqueueUnlock }
  | enqueueUnlock {s} (h : s.main = .enqueueUnlock) :
      Step s .main { s with queueLock := none, main := .listen }
  | setLock {s l} (h : s.main = .setLock) (hl : s.terminationLock.wrlock .main = some l) :
      Step s .main { s with terminationLock := l, main := .setFlag }
  | setFlag {s} (h : s.main = .setFlag) :
      Step s .main { s with terminate := true, main := .setUnlock }
  | setUnlock {s} (h : s.main = .setUnlock) :
      Step s .main
        { s with terminationLock := s.terminationLock.unlock .main, main := .broadcast }
  | broadcast {s} (h : s.main = .broadcast) : Step s .main { s.wakeAll with main := .joining 0 }
  | join {s i} {w : Fin n} (h : s.main = .joining i) (hw : w.val = i)
      (he : s.worker w = .exited) : Step s .main { s with main := .joining (i + 1) }
  | joined {s i} (h : s.main = .joining i) (hi : n ≤ i) : Step s .main { s with main := .joined }
  | spurious {s w} (h : s.worker w = .asleep) : Step s (.spurious w) (s.goto w .woken)
  | checkLock {s w l} (h : s.worker w = .checkLock)
      (hl : s.terminationLock.rdlock (.worker w) = some l) :
      Step s (.worker w) (State.goto { s with terminationLock := l } w .checkRead)
  | checkRead {s w} (h : s.worker w = .checkRead) :
      Step s (.worker w) (s.goto w (.checkUnlock s.terminate))
  | checkUnlock {s w b} (h : s.worker w = .checkUnlock b) :
      Step s (.worker w)
        (State.goto { s with terminationLock := s.terminationLock.unlock (.worker w) } w
          (if b then .exited else .acquire))
  | acquire {s w} (h : s.worker w = .acquire) (hl : s.queueLock = none) :
      Step s (.worker w) (State.goto { s with queueLock := some (.worker w) } w .test)
  | testEmpty {s w} (h : s.worker w = .test) (he : isEmpty s.queue = true) :
      Step s (.worker w) (s.goto w .wait)
  | testFull {s w} (h : s.worker w = .test) (he : isEmpty s.queue = false) :
      Step s (.worker w) (s.goto w .take)
  | wait {s w} (h : s.worker w = .wait) :
      Step s (.worker w) (State.goto { s with queueLock := none } w .asleep)
  | woken {s w} (h : s.worker w = .woken) (hl : s.queueLock = none) :
      Step s (.worker w) (State.goto { s with queueLock := some (.worker w) } w .recheckLock)
  | recheckLock {s w l} (h : s.worker w = .recheckLock)
      (hl : s.terminationLock.rdlock (.worker w) = some l) :
      Step s (.worker w) (State.goto { s with terminationLock := l } w .recheckRead)
  | recheckRead {s w} (h : s.worker w = .recheckRead) :
      Step s (.worker w) (s.goto w (.recheckUnlock s.terminate))
  | recheckUnlock {s w b} (h : s.worker w = .recheckUnlock b) :
      Step s (.worker w)
        (State.goto { s with terminationLock := s.terminationLock.unlock (.worker w) } w
          (if b then .leave else .test))
  | leave {s w} (h : s.worker w = .leave) :
      Step s (.worker w) (State.goto { s with queueLock := none } w .exited)
  | take {s w} (h : s.worker w = .take) :
      Step s (.worker w)
        (State.goto { s with queue := (dequeueConnection s.queue).2 } w
          (.unlockTaken (dequeueConnection s.queue).1))
  | unlockNone {s w} (h : s.worker w = .unlockTaken none) :
      Step s (.worker w) (State.goto { s with queueLock := none } w .checkLock)
  | unlockTaken {s w a} (h : s.worker w = .unlockTaken (some a)) :
      Step s (.worker w) (State.goto { s with queueLock := none } w (.copy a))
  | copy {s w a} (h : s.worker w = .copy a) :
      Step s (.worker w) (s.goto w (.serving (s.queue.conn a)))
  | served {s w c} (h : s.worker w = .serving c) : Step s (.worker w) (s.goto w .checkLock)

/-- The steps of a worker. -/
theorem advance_cases {s s' : State n} {w : Fin n} (h : advance s w = some s') :
    Step s (.worker w) s' := by
  unfold advance at h
  split at h
  next hp =>
    obtain ⟨l, hl, rfl⟩ := Option.map_eq_some_iff.mp h
    exact .checkLock hp hl
  next hp => cases h; exact .checkRead hp
  next hp => cases h; exact .checkUnlock hp
  next hp =>
    split at h
    next hl => cases h; exact .acquire hp hl
    next => cases h
  next hp =>
    cases he : isEmpty s.queue with
    | true => rw [he] at h; cases h; exact .testEmpty hp he
    | false => rw [he] at h; cases h; exact .testFull hp he
  next hp => cases h; exact .wait hp
  next => cases h
  next hp =>
    split at h
    next hl => cases h; exact .woken hp hl
    next => cases h
  next hp =>
    obtain ⟨l, hl, rfl⟩ := Option.map_eq_some_iff.mp h
    exact .recheckLock hp hl
  next hp => cases h; exact .recheckRead hp
  next hp => cases h; exact .recheckUnlock hp
  next hp => cases h; exact .leave hp
  next hp => cases h; exact .take hp
  next connection hp =>
    cases connection with
    | none => cases h; exact .unlockNone hp
    | some a => cases h; exact .unlockTaken hp
  next hp => cases h; exact .copy hp
  next hp => cases h; exact .served hp
  next => cases h

/-- The steps of the main thread. -/
theorem advanceMain_cases {s s' : State n} (h : advanceMain s = some s') : Step s .main s' := by
  unfold advanceMain at h
  split at h
  next => cases h
  next hp =>
    split at h
    next hl => cases h; exact .enqueueLock hp hl
    next => cases h
  next hp => cases h; exact .enqueuePush hp
  next hp => cases h; exact .enqueueBroadcast hp
  next hp => cases h; exact .enqueueUnlock hp
  next hp =>
    obtain ⟨l, hl, rfl⟩ := Option.map_eq_some_iff.mp h
    exact .setLock hp hl
  next hp => cases h; exact .setFlag hp
  next hp => cases h; exact .setUnlock hp
  next hp => cases h; exact .broadcast hp
  next i hp =>
    split at h
    next hi =>
      split at h
      next he => cases h; exact .join (w := ⟨i, hi⟩) hp rfl he
      next => cases h
    next hi => cases h; exact .joined hp (Nat.le_of_not_lt hi)
  next => cases h

/-- The steps of the pool. -/
theorem step_cases {s s' : State n} {a : Act n} (h : step s a = some s') : Step s a s' := by
  cases a with
  | connect c =>
    simp only [step] at h
    split at h
    next hm => cases h; exact .connect hm
    next => cases h
  | shutdown =>
    simp only [step] at h
    split at h
    next hm => cases h; exact .shutdown hm
    next => cases h
  | main => exact advanceMain_cases h
  | worker w => exact advance_cases h
  | spurious w =>
    simp only [step] at h
    split at h
    next hw => cases h; exact .spurious hw
    next => cases h

/-! ## The queue's lock -/

/-- A worker in this place has the queue's lock. -/
def WorkerPc.holding : WorkerPc → Bool
  | .test => true
  | .wait => true
  | .recheckLock => true
  | .recheckRead => true
  | .recheckUnlock _ => true
  | .leave => true
  | .take => true
  | .unlockTaken _ => true
  | _ => false

/-- The main thread in this place has the queue's lock. -/
def MainPc.holding : MainPc → Bool
  | .enqueuePush _ => true
  | .enqueueBroadcast => true
  | .enqueueUnlock => true
  | _ => false

/-- The thread is inside a critical section of `queue_lock`. -/
def State.inside (s : State n) : Who n → Prop
  | .main => s.main.holding = true
  | .worker w => (s.worker w).holding = true

/-- `queue_lock` is held by the thread inside its section, and a worker about to
wait has seen an empty queue. -/
structure QueueInv (s : State n) : Prop where
  owned : Owned s.queueLock s.inside
  empty : ∀ w, s.worker w = .wait → isEmpty s.queue = true

/-- The others are inside as before. -/
theorem inside_goto {s s' : State n} {w : Fin n} {pc : WorkerPc} (hm : s'.main = s.main)
    (hw : s'.worker = Function.update s.worker w pc) (u : Who n) (hu : u ≠ .worker w) :
    s'.inside u ↔ s.inside u := by
  cases u with
  | main => unfold State.inside; rw [hm]
  | worker u =>
    have huw : u ≠ w := fun h => hu (by rw [h])
    unfold State.inside
    simp only [hw, Function.update_of_ne huw]

/-- A worker moves within its section, or outside. -/
theorem queueInv_goto {s s' : State n} {w : Fin n} {pc : WorkerPc} (hi : QueueInv s)
    (hq : isEmpty s.queue = true → isEmpty s'.queue = true) (hl : s'.queueLock = s.queueLock)
    (hm : s'.main = s.main) (hw : s'.worker = Function.update s.worker w pc)
    (hh : pc.holding = (s.worker w).holding) (hwait : pc ≠ .wait ∨ isEmpty s'.queue = true) :
    QueueInv s' := by
  constructor
  · rw [hl]
    refine hi.owned.move fun u => ?_
    by_cases hu : u = .worker w
    · subst hu
      unfold State.inside
      simp only [hw, Function.update_self, hh]
    · exact inside_goto hm hw u hu
  · intro u hu
    by_cases huw : u = w
    · subst huw
      rw [hw, Function.update_self] at hu
      exact hwait.resolve_left fun h => h hu
    · rw [hw, Function.update_of_ne huw] at hu
      exact hq (hi.empty u hu)

/-- A worker takes the lock. -/
theorem queueInv_lock {s : State n} {w : Fin n} {pc : WorkerPc} (hi : QueueInv s)
    (hl : s.queueLock = none) (hh : pc.holding = true) (hwait : pc ≠ .wait) :
    QueueInv (State.goto { s with queueLock := some (.worker w) } w pc) := by
  have hother : ∀ u, u ≠ .worker w →
      ((State.goto { s with queueLock := some (.worker w) } w pc).inside u ↔ s.inside u) :=
    inside_goto rfl rfl
  refine ⟨hi.owned.lock hl ?_ hother, ?_⟩
  · simp [State.inside, State.goto, hh]
  · intro u hu
    by_cases huw : u = w
    · subst huw; simp [State.goto] at hu; exact absurd hu hwait
    · simp only [State.goto, Function.update_of_ne huw] at hu; exact hi.empty u hu

/-- A worker gives the lock back. -/
theorem queueInv_unlock {s : State n} {w : Fin n} {pc : WorkerPc} (hi : QueueInv s)
    (hin : (s.worker w).holding = true) (hh : pc.holding = false) :
    QueueInv (State.goto { s with queueLock := none } w pc) := by
  have hother : ∀ u, u ≠ .worker w →
      ((State.goto { s with queueLock := none } w pc).inside u ↔ s.inside u) :=
    inside_goto rfl rfl
  refine ⟨hi.owned.unlock (t := .worker w) hin ?_ hother, ?_⟩
  · simp [State.inside, State.goto, hh]
  · intro u hu
    by_cases huw : u = w
    · subst huw
      simp only [State.goto, Function.update_self] at hu
      rw [hu] at hh
      cases hh
    · simp only [State.goto, Function.update_of_ne huw] at hu; exact hi.empty u hu

/-- Main moves within its section, or outside, or wakes everybody. -/
theorem queueInv_main {s s' : State n} (hi : QueueInv s) (hq : s'.queue = s.queue)
    (hl : s'.queueLock = s.queueLock) (hh : s'.main.holding = s.main.holding)
    (hw : ∀ w, (s'.worker w).holding = (s.worker w).holding ∧
      (s'.worker w = .wait → s.worker w = .wait)) : QueueInv s' := by
  refine ⟨?_, fun w hw' => by rw [hq]; exact hi.empty w ((hw w).2 hw')⟩
  rw [hl]
  refine hi.owned.move fun u => ?_
  cases u with
  | main => unfold State.inside; rw [hh]
  | worker w => unfold State.inside; simp only [(hw w).1]

/-- Waking changes nothing but who sleeps. -/
theorem wakeAll_holding (s : State n) (w : Fin n) :
    (s.wakeAll.worker w).holding = (s.worker w).holding ∧
      (s.wakeAll.worker w = .wait → s.worker w = .wait) := by
  unfold State.wakeAll
  dsimp only
  split
  next h => rw [h]; exact ⟨rfl, nofun⟩
  next => exact ⟨rfl, id⟩

/-- Taking from an empty queue leaves it empty. -/
theorem isEmpty_dequeue {queue : ConnectionQueue} (h : isEmpty queue = true) :
    isEmpty (dequeueConnection queue).2 = true := by
  unfold isEmpty dequeueConnection at *
  have hfront := Option.isNone_iff_eq_none.mp h
  rw [hfront]
  dsimp only
  split <;> rfl

/-- The mutex of the queue has one owner, one step. -/
theorem step_queueInv {s s' : State n} {a : Act n} (hs : Step s a s') (hi : QueueInv s) :
    QueueInv s' := by
  have hsame : ∀ w, (s.worker w).holding = (s.worker w).holding ∧
      (s.worker w = .wait → s.worker w = .wait) := fun w => ⟨rfl, id⟩
  cases hs
  case enqueueLock c h hl =>
    refine ⟨hi.owned.lock hl rfl fun u hu => ?_, hi.empty⟩
    cases u with
    | main => exact absurd rfl hu
    | worker w => exact Iff.rfl
  case enqueueUnlock h =>
    refine ⟨hi.owned.unlock (t := .main) (by unfold State.inside; rw [h]; rfl)
      (by simp [State.inside, MainPc.holding])
      fun u hu => ?_, hi.empty⟩
    cases u with
    | main => exact absurd rfl hu
    | worker w => exact Iff.rfl
  case enqueuePush c h =>
    -- main has the lock, so no worker is about to wait
    refine ⟨hi.owned.move fun u => ?_, fun w hw => ?_⟩
    · cases u with
      | main => unfold State.inside; rw [h]; exact Iff.rfl
      | worker w => exact Iff.rfl
    · have hmain : s.inside .main := by unfold State.inside; rw [h]; rfl
      have hwork : s.inside (.worker w) := by
        have hw' : s.worker w = .wait := hw
        unfold State.inside
        simp only [hw']
        rfl
      cases hi.owned.unique hmain hwork
  case connect c h => exact queueInv_main hi rfl rfl (by rw [h]; rfl) hsame
  case shutdown h => exact queueInv_main hi rfl rfl (by rw [h]; rfl) hsame
  case setLock l h hl => exact queueInv_main hi rfl rfl (by rw [h]; rfl) hsame
  case setFlag h => exact queueInv_main hi rfl rfl (by rw [h]; rfl) hsame
  case setUnlock h => exact queueInv_main hi rfl rfl (by rw [h]; rfl) hsame
  case join i w h hw he => exact queueInv_main hi rfl rfl (by rw [h]; rfl) hsame
  case joined i h hn => exact queueInv_main hi rfl rfl (by rw [h]; rfl) hsame
  case enqueueBroadcast h =>
    exact queueInv_main hi rfl rfl (by rw [h]; rfl) (wakeAll_holding s)
  case broadcast h => exact queueInv_main hi rfl rfl (by rw [h]; rfl) (wakeAll_holding s)
  case acquire w h hl => exact queueInv_lock hi hl rfl nofun
  case woken w h hl => exact queueInv_lock hi hl rfl nofun
  case wait w h => exact queueInv_unlock hi (by rw [h]; rfl) rfl
  case leave w h => exact queueInv_unlock hi (by rw [h]; rfl) rfl
  case unlockNone w h => exact queueInv_unlock hi (by rw [h]; rfl) rfl
  case unlockTaken w a h => exact queueInv_unlock hi (by rw [h]; rfl) rfl
  case testEmpty w h he => exact queueInv_goto hi id rfl rfl rfl (by rw [h]; rfl) (Or.inr he)
  case take w h => exact queueInv_goto hi isEmpty_dequeue rfl rfl rfl (by rw [h]; rfl) (Or.inl nofun)
  case checkUnlock w b h =>
    exact queueInv_goto hi id rfl rfl rfl (by rw [h]; cases b <;> rfl) (Or.inl (by cases b <;> simp))
  case recheckUnlock w b h =>
    exact queueInv_goto hi id rfl rfl rfl (by rw [h]; cases b <;> rfl) (Or.inl (by cases b <;> simp))
  all_goals
    exact queueInv_goto hi id rfl rfl rfl (by simp [*, WorkerPc.holding]) (Or.inl nofun)

/-- In every run. -/
theorem run_queueInv {tr : List (Act n)} {s : State n} (h : (machine n).run tr = some s) :
    QueueInv s := by
  refine (machine n).run_invariant (I := fun _ s => QueueInv s) ?_
    (fun _ _ _ _ _ hi hstep => step_queueInv (step_cases hstep) hi) tr s h
  refine ⟨fun u => ?_, nofun⟩
  cases u <;> simp [machine, State.init, State.inside, MainPc.holding, WorkerPc.holding]

/-! ## After the broadcast -/

/-- The worker has seen `terminate = 0` and has neither slept nor taken a
connection since. -/
def WorkerPc.passed : WorkerPc → Bool
  | .checkUnlock terminate => !terminate
  | .acquire => true
  | .test => true
  | .wait => true
  | .recheckUnlock terminate => !terminate
  | .take => true
  | _ => false

/-- The main thread is past its final broadcast. -/
def MainPc.past : MainPc → Bool
  | .joining _ => true
  | .joined => true
  | _ => false

/-- The main thread has set the flag. -/
def MainPc.flagged : MainPc → Bool
  | .setUnlock => true
  | .broadcast => true
  | .joining _ => true
  | .joined => true
  | _ => false

/-- The workers that will want a connection without looking at the flag again. -/
def State.passed (s : State n) : Finset (Fin n) :=
  Finset.univ.filter fun w => (s.worker w).passed = true

/-- At the final broadcast the queue has a connection for every worker that will
want one. -/
def Covered (s : State n) : Act n → Prop
  | .main => s.main = .broadcast → ∀ nodes, s.queue.Holds nodes → s.passed.card ≤ nodes.length
  | _ => True

/-- The main thread waits for a worker that nobody will wake. -/
def State.LostWakeup (s : State n) : Prop := s.main.past = true ∧ ∃ w, s.worker w = .asleep

/-- The flag is set when main is past setting it; after the broadcast nobody
sleeps and there is a connection for every worker that will want one. -/
structure ShutdownInv (s : State n) (nodes : List Nat) : Prop where
  holds : s.queue.Holds nodes
  flag : s.main.flagged = true → s.terminate = true
  awake : s.main.past = true → ∀ w, s.worker w ≠ .asleep
  covered : s.main.past = true → s.passed.card ≤ nodes.length

/-- Behind the broadcast the flag has been set. -/
theorem MainPc.flagged_of_past {m : MainPc} (h : m.past = true) : m.flagged = true := by
  cases m <;> first | rfl | cases h

/-- A worker that has passed its test. -/
theorem mem_passed {s : State n} {w : Fin n} : w ∈ s.passed ↔ (s.worker w).passed = true := by
  simp [State.passed]

/-- A worker whose move does not make it want a connection. -/
theorem passed_goto {s s' : State n} {w : Fin n} {pc : WorkerPc}
    (hw : s'.worker = Function.update s.worker w pc)
    (hp : pc.passed = true → (s.worker w).passed = true) : s'.passed ⊆ s.passed := by
  intro u hu
  rw [mem_passed, hw] at hu
  rw [mem_passed]
  by_cases huw : u = w
  · subst huw
    rw [Function.update_self] at hu
    exact hp hu
  · rwa [Function.update_of_ne huw] at hu

/-- A worker's move that leaves the queue alone. -/
theorem shutdownInv_goto {s s' : State n} {nodes : List Nat} {w : Fin n} {pc : WorkerPc}
    (hi : ShutdownInv s nodes) (hq : s'.queue = s.queue) (ht : s'.terminate = s.terminate)
    (hm : s'.main = s.main) (hw : s'.worker = Function.update s.worker w pc)
    (hp : s.main.past = true → pc.passed = true → (s.worker w).passed = true)
    (ha : s.main.past = true → pc ≠ .asleep) : ShutdownInv s' nodes := by
  constructor
  · rw [hq]; exact hi.holds
  · rw [hm, ht]; exact hi.flag
  · intro hpast u
    rw [hm] at hpast
    rw [hw]
    by_cases huw : u = w
    · subst huw; rw [Function.update_self]; exact ha hpast
    · rw [Function.update_of_ne huw]; exact hi.awake hpast u
  · intro hpast
    rw [hm] at hpast
    exact (Finset.card_le_card (passed_goto hw (hp hpast))).trans (hi.covered hpast)

/-- A move of main that leaves the queue and the workers alone. -/
theorem shutdownInv_main {s s' : State n} {nodes : List Nat} (hi : ShutdownInv s nodes)
    (hq : s'.queue = s.queue) (hw : s'.worker = s.worker)
    (hf : s'.main.flagged = true → s'.terminate = true)
    (hp : s'.main.past = true → s.main.past = true) : ShutdownInv s' nodes := by
  have hpassed : s'.passed = s.passed := by unfold State.passed; rw [hw]
  constructor
  · rw [hq]; exact hi.holds
  · exact hf
  · intro hpast; rw [hw]; exact hi.awake (hp hpast)
  · intro hpast; rw [hpassed]; exact hi.covered (hp hpast)

/-- Nobody sleeps behind a broadcast. -/
theorem wakeAll_awake (s : State n) (w : Fin n) : s.wakeAll.worker w ≠ .asleep := by
  unfold State.wakeAll
  dsimp only
  split
  · simp
  · assumption

/-- Waking makes nobody want a connection. -/
theorem wakeAll_passed (s : State n) : s.wakeAll.passed = s.passed := by
  unfold State.passed State.wakeAll
  congr 1
  funext w
  dsimp only
  split
  next h => rw [h]; rfl
  next => rfl

/-- The worker that takes a connection uses it up. -/
theorem shutdownInv_take {s : State n} {nodes : List Nat} {w : Fin n} (hi : ShutdownInv s nodes)
    (h : s.worker w = .take) : ∃ nodes', ShutdownInv (State.goto
      { s with queue := (dequeueConnection s.queue).2 } w
      (.unlockTaken (dequeueConnection s.queue).1)) nodes' := by
  have hmem : w ∈ s.passed := mem_passed.mpr (by rw [h]; rfl)
  -- this worker no longer needs a connection
  have hsub : (State.goto { s with queue := (dequeueConnection s.queue).2 } w
      (.unlockTaken (dequeueConnection s.queue).1)).passed ⊆ s.passed.erase w := by
    intro u hu
    have huw : u ≠ w := by
      rintro rfl
      rw [mem_passed] at hu
      simp [State.goto, WorkerPc.passed] at hu
    exact Finset.mem_erase.mpr ⟨huw, passed_goto (w := w) rfl (by simp [WorkerPc.passed]) hu⟩
  have hcard := Finset.card_le_card hsub
  rw [Finset.card_erase_of_mem hmem] at hcard
  have hawake : s.main.past = true → ∀ u, (State.goto
      { s with queue := (dequeueConnection s.queue).2 } w
      (.unlockTaken (dequeueConnection s.queue).1)).worker u ≠ .asleep := by
    intro hpast u
    by_cases huw : u = w
    · subst huw; simp [State.goto]
    · simp only [State.goto, Function.update_of_ne huw]; exact hi.awake hpast u
  cases nodes with
  | nil =>
    refine ⟨[], hi.holds.dequeue_nil.2, hi.flag, hawake, fun hpast => ?_⟩
    have hle := hi.covered hpast
    simp only [List.length_nil] at hle ⊢
    omega
  | cons a nodes =>
    refine ⟨nodes, hi.holds.dequeue.2, hi.flag, hawake, fun hpast => ?_⟩
    have hle := hi.covered hpast
    simp only [List.length_cons] at hle
    omega

/-- The invariant of the shutdown, one step. -/
theorem step_shutdownInv {s s' : State n} {a : Act n} {nodes : List Nat} (hs : Step s a s')
    (hC : Covered s a) (hq : QueueInv s) (hi : ShutdownInv s nodes) :
    ∃ nodes', ShutdownInv s' nodes' := by
  cases hs
  case connect c h => exact ⟨nodes, shutdownInv_main hi rfl rfl nofun nofun⟩
  case shutdown h => exact ⟨nodes, shutdownInv_main hi rfl rfl nofun nofun⟩
  case enqueueLock c h hl => exact ⟨nodes, shutdownInv_main hi rfl rfl nofun nofun⟩
  case enqueuePush c h => exact ⟨_, hi.holds.enqueue c, nofun, nofun, nofun⟩
  case enqueueBroadcast h => exact ⟨nodes, hi.holds, nofun, nofun, nofun⟩
  case enqueueUnlock h => exact ⟨nodes, shutdownInv_main hi rfl rfl nofun nofun⟩
  case setLock l h hl => exact ⟨nodes, shutdownInv_main hi rfl rfl nofun nofun⟩
  case setFlag h => exact ⟨nodes, shutdownInv_main hi rfl rfl (fun _ => rfl) nofun⟩
  case setUnlock h =>
    exact ⟨nodes, shutdownInv_main hi rfl rfl (fun _ => hi.flag (by rw [h]; rfl)) nofun⟩
  case broadcast h =>
    refine ⟨nodes, hi.holds, fun _ => hi.flag (by rw [h]; rfl), fun _ => wakeAll_awake s, ?_⟩
    intro _
    -- waking adds nobody to those that want a connection
    exact (congrArg Finset.card (wakeAll_passed s)).le.trans (hC h nodes hi.holds)
  case join i w h hw he =>
    exact ⟨nodes, shutdownInv_main hi rfl rfl (fun _ => hi.flag (by rw [h]; rfl))
      fun _ => by rw [h]; rfl⟩
  case joined i h hn =>
    exact ⟨nodes, shutdownInv_main hi rfl rfl (fun _ => hi.flag (by rw [h]; rfl))
      fun _ => by rw [h]; rfl⟩
  case checkRead w h =>
    refine ⟨nodes, shutdownInv_goto hi rfl rfl rfl rfl (fun hpast => ?_) nofun⟩
    -- after the broadcast the flag is 1, whoever reads it
    rw [hi.flag (MainPc.flagged_of_past hpast)]
    nofun
  case recheckRead w h =>
    refine ⟨nodes, shutdownInv_goto hi rfl rfl rfl rfl (fun hpast => ?_) nofun⟩
    rw [hi.flag (MainPc.flagged_of_past hpast)]
    nofun
  case checkUnlock w b h =>
    refine ⟨nodes, shutdownInv_goto hi rfl rfl rfl rfl (fun _ => ?_) (fun _ => ?_)⟩
    · rw [h]; cases b <;> simp [WorkerPc.passed]
    · cases b <;> simp
  case recheckUnlock w b h =>
    refine ⟨nodes, shutdownInv_goto hi rfl rfl rfl rfl (fun _ => ?_) (fun _ => ?_)⟩
    · rw [h]; cases b <;> simp [WorkerPc.passed]
    · cases b <;> simp
  case wait w h =>
    refine ⟨nodes, shutdownInv_goto hi rfl rfl rfl rfl (fun _ => nofun) fun hpast => ?_⟩
    -- the queue is empty, so after the broadcast nobody is left to come here
    have hnil := hi.holds.isEmpty_iff.mp (hq.empty w h)
    have hcard := hi.covered hpast
    rw [hnil, List.length_nil, Nat.le_zero, Finset.card_eq_zero] at hcard
    have hmem : w ∈ s.passed := mem_passed.mpr (by rw [h]; rfl)
    rw [hcard] at hmem
    exact absurd hmem (Finset.notMem_empty w)
  case take w h => exact shutdownInv_take hi h
  all_goals
    exact ⟨nodes, shutdownInv_goto hi rfl rfl rfl rfl (fun _ => by simp [*, WorkerPc.passed]) nofun⟩

/-- **No lost wakeup at shutdown** in every run in which the queue has, at the
final broadcast, a connection for every worker that has seen `terminate = 0` and
has not slept or taken one since. -/
theorem no_lost_wakeup {tr : List (Act n)} {s : State n} (hC : (machine n).Meets Covered tr)
    (hrun : (machine n).run tr = some s) : ¬ s.LostWakeup := by
  have hinv : ∃ nodes, ShutdownInv s nodes := by
    refine (machine n).run_invariant_of_meets (C := Covered)
      (I := fun _ s => ∃ nodes, ShutdownInv s nodes) ⟨[], initQueue_holds, nofun, nofun, nofun⟩
      ?_ tr s hC hrun
    rintro tr s a s' hr ha ⟨nodes, hi⟩ hstep
    exact step_shutdownInv (step_cases hstep) ha (run_queueInv hr) hi
  obtain ⟨nodes, hi⟩ := hinv
  rintro ⟨hpast, w, hw⟩
  exact hi.awake hpast w hw

/-- One worker, asleep when main shuts down, and woken by the broadcast. -/
def wakesUp : List (Act 1) :=
  [.worker 0, .worker 0, .worker 0, .worker 0, .worker 0, .worker 0, .shutdown, .main, .main,
    .main, .main]

/-- A worker that sleeps is woken up at the end. -/
theorem no_lost_wakeup_wakesUp :
    ∃ s, (machine 1).run wakesUp = some s ∧ s.main = .joining 0 ∧ ¬ s.LostWakeup := by
  have hend : ((machine 1).run wakesUp).map (·.main) = some (.joining 0) := by decide
  obtain ⟨s, hs, hmain⟩ := Option.map_eq_some_iff.mp hend
  refine ⟨s, hs, hmain, no_lost_wakeup ((machine 1).meets_of_take fun k hk s' hk' => ?_) hs⟩
  have hpassed : ∀ k < wakesUp.length, ((machine 1).run (wakesUp.take k)).all
      fun s => s.main ≠ .broadcast ∨ s.passed.card = 0 := by decide
  have hhere := hpassed k hk
  rw [hk', Option.all_some, decide_eq_true_iff] at hhere
  cases hact : wakesUp[k] with
  | main =>
    intro hb nodes _
    rw [hhere.resolve_left fun hne => hne hb]
    exact Nat.zero_le _
  | _ => trivial

/-- One worker looks at the flag, main sets it and broadcasts, the worker goes to
sleep. -/
def sleepsThrough : List (Act 1) :=
  [.worker 0, .worker 0, .worker 0, .shutdown, .main, .main, .main, .main, .worker 0, .worker 0,
    .worker 0]

/-- After `sleepsThrough` main joins a worker that nobody will wake. -/
theorem lost_wakeup : ¬ ∀ (n : Nat) (tr : List (Act n)) (s : State n),
    (machine n).run tr = some s → ¬ s.LostWakeup := by
  intro hall
  have hend : ((machine 1).run sleepsThrough).map (fun s => (s.main, s.worker 0)) =
      some (.joining 0, .asleep) := by decide
  obtain ⟨s, hs, hpc⟩ := Option.map_eq_some_iff.mp hend
  obtain ⟨hmain, hworker⟩ := Prod.mk.inj hpc
  exact hall 1 sleepsThrough s hs ⟨by rw [hmain]; rfl, 0, hworker⟩

end Ems.Server.Pool
