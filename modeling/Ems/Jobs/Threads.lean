import Ems.Conc.Machine
import Ems.Conc.Mutex
import Ems.Jobs.Parser

/-!
# The threads of a job

`process_job`, `dispatch_threads` and `process_commands`: rounds of `max_threads`
threads that share one open job file. A thread takes `parseMutex`, decodes one
command with many small reads, gives the mutex back and executes the command. A
`BARRIER` sets a flag that sends every thread home; `dispatch_threads` joins them,
and `process_job` starts the next round.

Mirroring notes:
- One step of a thread is one thing another thread could see: a lock, a test of the
  shared flags, a single `read`. What a command does to the store is another
  matter: a thread enters it and at some later moment leaves it.
- The buffers of `read_uint` hold whatever they hold (`junk`), chosen when a command
  is begun. Of the integers of one command only one can meet the end of the file.
- `barrier` is a local variable of `dispatch_threads`, 0 again in every round;
  `thread_waits` and `thread_delays` are cleared by `process_job`.
- `pthread_create` and `pthread_join` succeed. A thread whose `malloc` fails returns
  NULL; `dispatch_threads` then gives up, with the other threads left in freed
  memory: nothing is said about what they do.
-/

namespace Ems.Jobs.Threads

open Base Conc Parse

/-- The index of a thread in `th_mgr`. -/
abbrev Tid := Nat

/-- `THREAD_SUCCESS`. -/
def threadSuccess : Nat := 0

/-- `THREAD_FOUND_BARRIER`. -/
def threadFoundBarrier : Nat := 1

/-- Where a thread is in `process_commands`. -/
inductive Pc where
  /-- not created, or joined -/
  | absent
  /-- before the `malloc` of `return_value` -/
  | start
  /-- before `pthread_mutex_lock`, at the top of the loop -/
  | lock
  /-- before the test of `thread_waits` -/
  | waitTest
  | waitUnlock (delay : UInt32)
  /-- in `thread_wait` -/
  | sleep (delay : UInt32)
  | relock
  /-- before the test of `barrier` -/
  | barrierTest
  | barrierUnlock
  /-- in `get_next` or a parser -/
  | decode (rest : Reading Decoded)
  /-- the command's effect on the shared flags is done -/
  | unlock (command : Decoded)
  /-- behind `pthread_mutex_unlock` -/
  | execute (command : Decoded)
  /-- in `ems_create`, `ems_reserve`, `ems_show` or `ems_list_events` -/
  | inside (command : Decoded)
  /-- after `pthread_exit`, with `*return_value`, `none` for NULL -/
  | exited (value : Option Nat)

/-- Where the main thread is in `process_job`. -/
inductive Main where
  /-- in the first loop of `dispatch_threads` -/
  | create (i : Nat)
  /-- in the second one -/
  | join (i : Nat)
  /-- `EXIT_SUCCESS` -/
  | finished
  /-- `EXIT_FAILURE` -/
  | failed
deriving DecidableEq

structure State where
  /-- the job file from the offset of `job_fd` on -/
  file : List UInt8
  parseMutex : Option Tid
  barrier : Bool
  threadWaits : Tid → Bool
  threadDelays : Tid → UInt32
  main : Main
  pc : Tid → Pc

/-- The main thread or thread `t` moves. -/
inductive Act where
  | main
  | thread (t : Tid) (alloc : Bool) (junk : List UInt8)

/-- What a run shows. -/
inductive Event where
  | decoded (t : Tid) (command : Decoded)
  /-- one of the `ems_` functions is called -/
  | executes (t : Tid) (command : Decoded)
  /-- nothing of the command is left to do -/
  | finished (t : Tid) (command : Decoded)

/-- The commands that call the event system. -/
def isOp : Decoded → Bool
  | .create .. => true
  | .reserve .. => true
  | .showEvent _ => true
  | .listEvents => true
  | _ => false

/-- The first round of `process_job`. -/
def State.init (file : List UInt8) : State :=
  ⟨file, none, false, fun _ => false, fun _ => 0, .create 0, fun _ => .absent⟩

/-- Thread `t` moves to `pc`. -/
def State.goto (s : State) (t : Tid) (pc : Pc) : State :=
  { s with pc := Function.update s.pc t pc }

/-- `inject_wait`: 1 for a target that is no thread. -/
def injectWait (maxThreads : Nat) (target : Option UInt32) (delay : UInt32) (s : State) :
    Nat × State :=
  match target with
  | some targetTid =>
    if maxThreads ≤ targetTid.toNat then (1, s)
    else
      (0, { s with
        threadWaits := Function.update s.threadWaits targetTid.toNat true
        threadDelays := Function.update s.threadDelays targetTid.toNat delay })
  | none =>
    (0, { s with
      threadWaits := fun i => if i < maxThreads then true else s.threadWaits i
      threadDelays := fun i => if i < maxThreads then s.threadDelays i + delay
        else s.threadDelays i })

/-- What a command does while `parseMutex` is still held. -/
def effect (maxThreads : Nat) (s : State) : Decoded → State
  | .wait delay target => (injectWait maxThreads target delay s).2
  | .barrier => { s with barrier := true }
  | _ => s

/-- Where a thread goes when it is done with a command. -/
def next : Decoded → Pc
  | .barrier => .exited (some threadFoundBarrier)
  | .eoc => .exited (some threadSuccess)
  | _ => .lock

/-- One step of thread `t`. -/
def advance (maxThreads : Nat) (s : State) (t : Tid) (alloc : Bool) (junk : List UInt8) :
    Option State :=
  match s.pc t with
  | .absent => none
  | .start => some (s.goto t (if alloc then .lock else .exited none))
  | .lock =>
    if s.parseMutex = none then some ({ s with parseMutex := some t }.goto t .waitTest) else none
  | .waitTest =>
    -- the delay is collected only while no barrier has been found
    if s.threadWaits t && !s.barrier then
      some ({ s with
        threadWaits := Function.update s.threadWaits t false
        threadDelays := Function.update s.threadDelays t 0 }.goto t (.waitUnlock (s.threadDelays t)))
    else some (s.goto t .barrierTest)
  | .waitUnlock delay => some ({ s with parseMutex := none }.goto t (.sleep delay))
  | .sleep _ => some (s.goto t .relock)
  | .relock =>
    if s.parseMutex = none then some ({ s with parseMutex := some t }.goto t .barrierTest) else none
  | .barrierTest =>
    if s.barrier then some (s.goto t .barrierUnlock)
    else some (s.goto t (.decode (Jobs.decode junk)))
  | .barrierUnlock =>
    some ({ s with parseMutex := none }.goto t (.exited (some threadFoundBarrier)))
  | .decode (.done command) => some ((effect maxThreads s command).goto t (.unlock command))
  | .decode rest =>
    (rest.step s.file).map fun r => { s with file := r.2 }.goto t (.decode r.1)
  | .unlock command => some ({ s with parseMutex := none }.goto t (.execute command))
  | .execute command =>
    some (s.goto t (if isOp command then .inside command else next command))
  | .inside command => some (s.goto t (next command))
  | .exited _ => none

/-- One step of the main thread. -/
def advanceMain (maxThreads : Nat) (s : State) : Option State :=
  match s.main with
  | .create i =>
    if i < maxThreads then some { s.goto i .start with main := .create (i + 1) }
    else some { s with main := .join 0 }
  | .join i =>
    if i < maxThreads then
      match s.pc i with
      -- a thread without a return value fails the job
      | .exited none => some { s with main := .failed }
      | .exited (some _) => some { s.goto i .absent with main := .join (i + 1) }
      | _ => none
    else if s.barrier then
      -- `THREAD_FOUND_BARRIER`: the next round
      some { s with
        barrier := false, threadWaits := fun _ => false, threadDelays := fun _ => 0
        main := .create 0 }
    else some { s with main := .finished }
  | .finished => none
  | .failed => none

def step (maxThreads : Nat) (s : State) : Act → Option State
  | .main => advanceMain maxThreads s
  | .thread t alloc junk => if s.main = .failed then none else advance maxThreads s t alloc junk

/-- A job with `maxThreads` threads and this file. -/
def machine (maxThreads : Nat) (file : List UInt8) : Machine State Act :=
  ⟨State.init file, step maxThreads⟩

/-- What a step shows; the end of the file is not a command. -/
def out (s : State) : Act → List Event
  | .main => []
  | .thread t _ _ =>
    match s.pc t with
    | .decode (.done command) => command.listed.map (.decoded t)
    | .execute command =>
      if isOp command then [.executes t command] else command.listed.map (.finished t)
    | .inside command => command.listed.map (.finished t)
    | _ => []

/-- A thread that moves is where it has moved to. -/
@[simp] theorem goto_self (s : State) (t : Tid) (pc : Pc) : (s.goto t pc).pc t = pc :=
  Function.update_self ..

/-- The others stay where they are. -/
@[simp] theorem goto_other {s : State} {t u : Tid} {pc : Pc} (h : u ≠ t) :
    (s.goto t pc).pc u = s.pc u :=
  Function.update_of_ne h ..

/-- `inject_wait` changes nothing but the delays. -/
theorem injectWait_frame (n : Nat) (target : Option UInt32) (delay : UInt32) (s : State) :
    (injectWait n target delay s).2.file = s.file ∧
    (injectWait n target delay s).2.parseMutex = s.parseMutex ∧
    (injectWait n target delay s).2.barrier = s.barrier ∧
    (injectWait n target delay s).2.main = s.main ∧ (injectWait n target delay s).2.pc = s.pc := by
  unfold injectWait
  split
  · split <;> exact ⟨rfl, rfl, rfl, rfl, rfl⟩
  · exact ⟨rfl, rfl, rfl, rfl, rfl⟩

/-- A command's effect is on the barrier and the waits only. -/
theorem effect_frame (n : Nat) (s : State) (d : Decoded) :
    (effect n s d).file = s.file ∧ (effect n s d).parseMutex = s.parseMutex ∧
    (effect n s d).main = s.main ∧ (effect n s d).pc = s.pc := by
  cases d with
  | wait delay target =>
    obtain ⟨h1, h2, -, h3, h4⟩ := injectWait_frame n target delay s
    exact ⟨h1, h2, h3, h4⟩
  | _ => exact ⟨rfl, rfl, rfl, rfl⟩

/-- A command does not read from the file. -/
@[simp] theorem effect_file (n : Nat) (s : State) (d : Decoded) :
    (effect n s d).file = s.file := (effect_frame n s d).1

/-- A command does not touch the mutex of the parser. -/
@[simp] theorem effect_parseMutex (n : Nat) (s : State) (d : Decoded) :
    (effect n s d).parseMutex = s.parseMutex := (effect_frame n s d).2.1

/-- A command leaves the main thread where it is. -/
@[simp] theorem effect_main (n : Nat) (s : State) (d : Decoded) :
    (effect n s d).main = s.main := (effect_frame n s d).2.2.1

/-- A command leaves the threads where they are. -/
@[simp] theorem effect_pc (n : Nat) (s : State) (d : Decoded) :
    (effect n s d).pc = s.pc := (effect_frame n s d).2.2.2

/-- A thread that executes its command and moves on only moves. -/
@[simp] theorem effect_goto_pc (n : Nat) (s : State) (d : Decoded) (t : Tid) (pc : Pc) :
    ((effect n s d).goto t pc).pc = (s.goto t pc).pc := by
  simp [State.goto]

/-- Only BARRIER sets the flag, and no command takes it back. -/
theorem effect_barrier (n : Nat) (s : State) (d : Decoded) :
    (effect n s d).barrier = (s.barrier || d = .barrier) := by
  cases d with
  | wait delay target =>
    have hframe := (injectWait_frame n target delay s).2.2.1
    exact hframe.trans (Bool.or_false _).symm
  | barrier => exact (Bool.or_true _).symm
  | _ => exact (Bool.or_false _).symm

/-! ## What one step can do -/

/-- The steps, with the events they show. -/
inductive Step (n : Nat) : State → Act → List Event → State → Prop where
  | create {s i} (h : s.main = .create i) (hi : i < n) :
      Step n s .main [] { s.goto i .start with main := .create (i + 1) }
  | created {s i} (h : s.main = .create i) (hi : n ≤ i) :
      Step n s .main [] { s with main := .join 0 }
  | joinNull {s i} (h : s.main = .join i) (hi : i < n) (hp : s.pc i = .exited none) :
      Step n s .main [] { s with main := .failed }
  | join {s i v} (h : s.main = .join i) (hi : i < n) (hp : s.pc i = .exited (some v)) :
      Step n s .main [] { s.goto i .absent with main := .join (i + 1) }
  | restart {s i} (h : s.main = .join i) (hi : n ≤ i) (hb : s.barrier = true) :
      Step n s .main [] { s with
        barrier := false, threadWaits := fun _ => false, threadDelays := fun _ => 0
        main := .create 0 }
  | finish {s i} (h : s.main = .join i) (hi : n ≤ i) (hb : s.barrier = false) :
      Step n s .main [] { s with main := .finished }
  | start {s t a j} (h : s.pc t = .start) :
      Step n s (.thread t a j) [] (s.goto t (if a then .lock else .exited none))
  | lock {s t a j} (h : s.pc t = .lock) (hm : s.parseMutex = none) :
      Step n s (.thread t a j) [] (State.goto { s with parseMutex := some t } t .waitTest)
  | wait {s t a j} (h : s.pc t = .waitTest) (hw : s.threadWaits t = true) (hb : s.barrier = false) :
      Step n s (.thread t a j) []
        (State.goto { s with
          threadWaits := Function.update s.threadWaits t false
          threadDelays := Function.update s.threadDelays t 0 } t (.waitUnlock (s.threadDelays t)))
  | noWait {s t a j} (h : s.pc t = .waitTest) (hw : s.threadWaits t = false ∨ s.barrier = true) :
      Step n s (.thread t a j) [] (s.goto t .barrierTest)
  | waitUnlock {s t a j delay} (h : s.pc t = .waitUnlock delay) :
      Step n s (.thread t a j) [] (State.goto { s with parseMutex := none } t (.sleep delay))
  | sleep {s t a j delay} (h : s.pc t = .sleep delay) :
      Step n s (.thread t a j) [] (s.goto t .relock)
  | relock {s t a j} (h : s.pc t = .relock) (hm : s.parseMutex = none) :
      Step n s (.thread t a j) [] (State.goto { s with parseMutex := some t } t .barrierTest)
  | closed {s t a j} (h : s.pc t = .barrierTest) (hb : s.barrier = true) :
      Step n s (.thread t a j) [] (s.goto t .barrierUnlock)
  | opened {s t a j} (h : s.pc t = .barrierTest) (hb : s.barrier = false) :
      Step n s (.thread t a j) [] (s.goto t (.decode (Jobs.decode j)))
  | barrierUnlock {s t a j} (h : s.pc t = .barrierUnlock) :
      Step n s (.thread t a j) []
        (State.goto { s with parseMutex := none } t (.exited (some threadFoundBarrier)))
  | read {s t a j p p' file'} (h : s.pc t = .decode p) (hp : p.step s.file = some (p', file')) :
      Step n s (.thread t a j) [] (State.goto { s with file := file' } t (.decode p'))
  | decoded {s t a j d} (h : s.pc t = .decode (.done d)) :
      Step n s (.thread t a j) (d.listed.map (.decoded t)) ((effect n s d).goto t (.unlock d))
  | unlock {s t a j d} (h : s.pc t = .unlock d) :
      Step n s (.thread t a j) [] (State.goto { s with parseMutex := none } t (.execute d))
  | execute {s t a j d} (h : s.pc t = .execute d) (ho : isOp d = true) :
      Step n s (.thread t a j) [.executes t d] (s.goto t (.inside d))
  | nothing {s t a j d} (h : s.pc t = .execute d) (ho : isOp d = false) :
      Step n s (.thread t a j) (d.listed.map (.finished t)) (s.goto t (next d))
  | inside {s t a j d} (h : s.pc t = .inside d) :
      Step n s (.thread t a j) (d.listed.map (.finished t)) (s.goto t (next d))

/-- The steps of a worker. -/
theorem advance_cases {n : Nat} {s s' : State} {t : Tid} {a : Bool} {j : List UInt8}
    (h : advance n s t a j = some s') : Step n s (.thread t a j) (out s (.thread t a j)) s' := by
  unfold advance at h
  unfold out
  dsimp only
  split at h
  next => cases h
  next hp => cases h; rw [hp]; exact .start hp
  next hp =>
    split at h
    next hm => cases h; rw [hp]; exact .lock hp hm
    next => cases h
  next hp =>
    rw [hp]
    split at h
    next hw =>
      simp only [Bool.and_eq_true, Bool.not_eq_true'] at hw
      cases h; exact .wait hp hw.1 hw.2
    next hw =>
      simp only [Bool.and_eq_true, Bool.not_eq_true', not_and_or, Bool.not_eq_true,
        Bool.not_eq_false] at hw
      cases h; exact .noWait hp hw
  next hp => cases h; rw [hp]; exact .waitUnlock hp
  next hp => cases h; rw [hp]; exact .sleep hp
  next hp =>
    split at h
    next hm => cases h; rw [hp]; exact .relock hp hm
    next => cases h
  next hp =>
    rw [hp]
    split at h
    next hb => cases h; exact .closed hp hb
    next hb => cases h; exact .opened hp (Bool.not_eq_true _ ▸ hb)
  next hp => cases h; rw [hp]; exact .barrierUnlock hp
  next command hp => cases h; rw [hp]; exact .decoded hp
  next rest hdone hp =>
    obtain ⟨⟨p', file'⟩, hs, rfl⟩ := Option.map_eq_some_iff.mp h
    rw [hp]
    cases rest with
    | done d => exact absurd rfl (hdone d)
    | _ => exact .read hp hs
  next command hp => cases h; rw [hp]; exact .unlock hp
  next command hp =>
    rw [hp]
    cases ho : isOp command with
    | true => simp only [ho, if_true] at h ⊢; cases h; exact .execute hp ho
    | false =>
      simp only [ho, Bool.false_eq_true, if_false] at h ⊢
      cases h
      exact .nothing hp ho
  next command hp => cases h; rw [hp]; exact .inside hp
  next => cases h

/-- The steps of the main thread. -/
theorem advanceMain_cases {n : Nat} {s s' : State} (h : advanceMain n s = some s') :
    Step n s .main [] s' := by
  unfold advanceMain at h
  split at h
  next i hm =>
    split at h
    next hi => cases h; exact .create hm hi
    next hi => cases h; exact .created hm (Nat.le_of_not_lt hi)
  next i hm =>
    split at h
    next hi =>
      split at h
      next hp => cases h; exact .joinNull hm hi hp
      next v hp => cases h; exact .join hm hi hp
      next => cases h
    next hi =>
      split at h
      next hb => cases h; exact .restart hm (Nat.le_of_not_lt hi) hb
      next hb => cases h; exact .finish hm (Nat.le_of_not_lt hi) (Bool.not_eq_true _ ▸ hb)
  next => cases h
  next => cases h

/-- The steps of a job. -/
theorem step_cases {n : Nat} {s s' : State} {a : Act} (h : step n s a = some s') :
    Step n s a (out s a) s' := by
  cases a with
  | main => exact advanceMain_cases h
  | thread t alloc junk =>
    simp only [step] at h
    split at h
    next => cases h
    next => exact advance_cases h

end Ems.Jobs.Threads
