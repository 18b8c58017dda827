import Mathlib.Data.Fintype.EquivFin
import Mathlib.Order.Fin.Basic
import Ems.Jobs.Barrier
import Ems.Jobs.Locking

/-!
# A job never gets stuck

The threads of a job together with what they execute: `process_commands` as in
`Jobs.Threads`, and, while a thread is inside one of the operations, its program. So a
thread can be about to take any of the five locks.

`parseMutex` is given back before an operation is begun, and an operation gives back all
of its locks before it returns, as long as `snprintf` does not fail. So the holder of
`parseMutex` waits for nothing, and among the threads that are inside an operation the
order of the locks does the rest (`no_deadlock`).
-/

namespace Ems.Jobs.Job

open Base Conc Parse Programs
open Server (Request)

/-- The threads, and the operations they are in. -/
structure State where
  job : Threads.State
  ems : Programs.State Threads.Tid

/-- A step of `process_commands` or of the main thread, or one inside an operation. -/
inductive Act where
  | job (a : Threads.Act)
  | op (t : Threads.Tid) (x : Choice)

/-- The arguments of `ems_reserve`. -/
def request (eventId : UInt32) (coords : List (UInt64 × UInt64)) : Request where
  eventId := eventId
  numSeats := UInt64.ofNat coords.length
  xs i := (coords.getD i (0, 0)).1
  ys i := (coords.getD i (0, 0)).2

/-- The operation that a command calls. -/
def opOf : Decoded → Option Op
  | .create eventId numRows numCols => some (.create eventId numRows numCols)
  | .reserve eventId coords => some (.reserve (request eventId coords))
  | .showEvent eventId => some (.showEvent eventId)
  | .listEvents => some .listEvents
  | _ => none

/-- What a step of a thread does to the operations: it calls one, or one returns. -/
def crosses (s : State) : Threads.Act → Option (Crew.Act Threads.Tid Op Choice)
  | .main => none
  | .thread t _ _ =>
    match s.job.pc t with
    | .execute command => (opOf command).map (.call t)
    | .inside _ => some (.ret t)
    | _ => none

def step (maxThreads : Nat) (s : State) : Act → Option State
  | .job a =>
    (Threads.step maxThreads s.job a).bind fun job =>
      match crosses s a with
      | none => some { s with job := job }
      | some b => (Crew.step system s.ems b).map fun ems => ⟨job, ems⟩
  | .op t x => (Crew.step system s.ems (.step t x)).map fun ems => { s with ems := ems }

/-- A job with `maxThreads` threads and this file. -/
def machine (maxThreads : Nat) (file : List UInt8) : Machine State Act :=
  ⟨⟨.init file, Crew.start ⟨createList, []⟩⟩, step maxThreads⟩

/-- The five locks. -/
inductive AnyLock where
  | parseMutex
  | ems (l : Lock)

/-- The thread is about to take the lock. -/
def State.Waits (s : State) (t : Threads.Tid) : AnyLock → Prop
  | .parseMutex => s.job.pc t = .lock ∨ s.job.pc t = .relock
  | .ems l => s.ems.Waits t l

/-- The thread holds the lock. -/
def State.Holds (s : State) (t : Threads.Tid) : AnyLock → Prop
  | .parseMutex => s.job.parseMutex = some t
  | .ems l => s.ems.held t l ≠ none

/-- The library calls inside the operations succeed. -/
def Succeeds : Act → Prop
  | .op _ x => x.ok = true
  | .job _ => True

/-- No `snprintf` that has failed. -/
def granted (x : (e : Action) × Answer e) : Prop := x ≠ ⟨.snprintf, false⟩

/-- Both sides keep their own invariant, and they agree on who is inside an operation. -/
structure Together (n : Nat) (s : State) : Prop where
  job : Threads.Inv n s.job
  order : s.ems.InOrder rank Op.Undefined (fun _ => Tidy) granted
  inside : ∀ t r, s.ems.thread t = some r → ∃ command, s.job.pc t = .inside command

section Steps

variable {n : Nat} {s s' : State} {a : Act}

/-- A thread stays inside an operation while others move. -/
theorem stays_inside {j j' : Threads.State} {b : Threads.Act} {events : List Threads.Event}
    (hi : Threads.Inv n j) (h : Threads.Step n j b events j') {t : Threads.Tid} {command : Decoded}
    (ht : j.pc t = .inside command) (hb : ∀ alloc junk, b ≠ .thread t alloc junk) :
    j'.pc t = .inside command := by
  have hother : ∀ {u : Threads.Tid} {pc : Threads.Pc}, u ≠ t →
      (j.goto u pc).pc t = .inside command := by
    intro u pc hu
    rw [Threads.goto_other (Ne.symm hu), ht]
  have hthread : ∀ {u alloc junk}, b = .thread u alloc junk → u ≠ t := by
    rintro u alloc junk rfl rfl
    exact hb _ _ rfl
  cases h
  case create i hm hi' =>
    refine hother fun hit => ?_
    have habs := hi.fresh hm
    rw [hit, ht] at habs
    cases habs
  case join i v hm hi' hp =>
    refine hother fun hit => ?_
    rw [hit, ht] at hp
    cases hp
  case created => exact ht
  case joinNull => exact ht
  case restart => exact ht
  case finish => exact ht
  case decoded u alloc junk d hp =>
    rw [Threads.effect_goto_pc]
    exact hother (hthread rfl)
  all_goals exact hother (hthread rfl)

/-- A thread begins an operation. -/
theorem enters {j j' : Threads.State} {t : Threads.Tid} {alloc : Bool} {junk : List UInt8}
    {command : Decoded}
    (h : Threads.step n j (.thread t alloc junk) = some j') (hp : j.pc t = .execute command)
    (hop : Threads.isOp command = true) : j'.pc t = .inside command := by
  simp only [Threads.step] at h
  split at h
  next => cases h
  next =>
    simp only [Threads.advance, hp, hop, if_true, Option.some.injEq] at h
    rw [← h, Threads.goto_self]

/-- The commands that call an operation. -/
theorem isOp_of_opOf {command : Decoded} {c : Op} (h : opOf command = some c) :
    Threads.isOp command = true := by
  cases command <;> first | rfl | cases h

theorem crosses_cases {a : Threads.Act} {b : Crew.Act Threads.Tid Op Choice}
    (h : crosses s a = some b) :
    (∃ t alloc junk command c, a = .thread t alloc junk ∧ s.job.pc t = .execute command ∧
      opOf command = some c ∧ b = .call t c) ∨
    (∃ t alloc junk command, a = .thread t alloc junk ∧ s.job.pc t = .inside command ∧
      b = .ret t) := by
  cases a with
  | main => cases h
  | thread t alloc junk =>
    simp only [crosses] at h
    split at h
    next command hp =>
      obtain ⟨c, hc, rfl⟩ := Option.map_eq_some_iff.mp h
      exact .inl ⟨t, alloc, junk, command, c, rfl, hp, hc, rfl⟩
    next command hp =>
      cases h
      exact .inr ⟨t, alloc, junk, command, rfl, hp, rfl⟩
    next => cases h

/-- A step of an operation. -/
theorem together_ems (hi : Together n s) {b : Crew.Act Threads.Tid Op Choice} {job : Threads.State}
    {ems : Programs.State Threads.Tid} (hjob : Threads.Inv n job)
    (h : Crew.step system s.ems b = some ems)
    (hok : Crew.Allowed granted system s.ems b)
    (hinside : ∀ t r, ems.thread t = some r → ∃ command, job.pc t = .inside command) :
    Together n ⟨job, ems⟩ where
  job := hjob
  order := Crew.step_inOrder code_ordered (fun _ _ hpast => Quiet.tidy hpast) (Crew.step_cases h)
    hok hi.order
  inside := hinside

/-- One step. -/
theorem step_together (h : step n s a = some s') (hok : Succeeds a) (hi : Together n s) :
    Together n s' := by
  cases a with
  | op t x =>
    obtain ⟨ems, hems, rfl⟩ := Option.map_eq_some_iff.mp h
    refine together_ems hi hi.job hems ?_ fun u r hu => ?_
    · intro k c e next v store ht hr heq
      cases heq
      have hfail : x.ok = false := by
        simp only [system, answer, Option.some.injEq, Prod.mk.injEq] at hr
        exact hr.1
      exact Bool.false_ne_true (hfail.symm.trans hok)
    · by_cases hut : u = t
      · subst hut
        obtain ⟨r', hr', -⟩ := Option.bind_eq_some_iff.mp hems
        exact hi.inside u r' hr'
      · rw [(Crew.step_cases hems).thread_other hut] at hu
        exact hi.inside u r hu
  | job b =>
    obtain ⟨job, hjob, h⟩ := Option.bind_eq_some_iff.mp h
    have hstep := Threads.step_cases hjob
    have hinv := Threads.step_inv hi.job hstep
    cases hb : crosses s b with
    | none =>
      rw [hb] at h
      cases h
      refine ⟨hinv, hi.order, fun t r hr => ?_⟩
      obtain ⟨command, hp⟩ := hi.inside t r hr
      refine ⟨command, stays_inside hi.job hstep hp fun alloc junk heq => ?_⟩
      rw [heq, crosses, hp] at hb
      cases hb
    | some b' =>
      rw [hb] at h
      obtain ⟨ems, hems, rfl⟩ := Option.map_eq_some_iff.mp h
      have hstep' := Crew.step_cases hems
      -- whoever is in an operation and does not cross stays there
      have hstays : ∀ t, b'.who ≠ t → (∀ u alloc junk, b = .thread u alloc junk → b'.who = u) →
          ∀ r, ems.thread t = some r → ∃ command, job.pc t = .inside command := by
        intro t hne hwho r hr
        rw [hstep'.thread_other (Ne.symm hne)] at hr
        obtain ⟨command, hp⟩ := hi.inside t r hr
        exact ⟨command, stays_inside hi.job hstep hp fun alloc junk heq => hne (hwho t alloc junk heq)⟩
      rcases crosses_cases hb with ⟨t, alloc, junk, command, c, rfl, hp, hc, rfl⟩ |
        ⟨t, alloc, junk, command, rfl, hp, rfl⟩
      · refine together_ems hi hinv hems trivial fun u r hr => ?_
        by_cases hut : t = u
        · subst hut
          exact ⟨command, enters hjob hp (isOp_of_opOf hc)⟩
        · exact hstays u hut (fun _ _ _ heq => by cases heq; rfl) r hr
      · refine together_ems hi hinv hems trivial fun u r hr => ?_
        by_cases hut : t = u
        · subst hut
          cases hstep'
          rw [Crew.goto_self] at hr
          cases hr
        · exact hstays u hut (fun _ _ _ heq => by cases heq; rfl) r hr

/-- **Every run.** -/
theorem run_together {file : List UInt8} {tr : List Act} (hrun : (machine n file).run tr = some s)
    (hok : ∀ a ∈ tr, Succeeds a) : Together n s :=
  (machine n file).run_invariant_of_meets (C := fun _ a => Succeeds a) (I := fun _ s => Together n s)
    ⟨Threads.init_inv file, fun _ _ => RwLock.held_free, nofun⟩
    (fun _ _ _ _ _ ha hi h => step_together h ha hi) tr s ((machine n file).meets_of_forall hok) hrun

/-- Who holds `parseMutex` is not about to take a lock. -/
theorem Together.holder (hi : Together n s) {t : Threads.Tid} (ht : s.job.parseMutex = some t)
    (l : AnyLock) :
    ¬ s.Waits t l := by
  have hholds : (s.job.pc t).Holds := (hi.job.owned t).mp ht
  cases l with
  | parseMutex =>
    rintro (hp | hp)
    all_goals
      rw [hp] at hholds
      exact hholds
  | ems l =>
    rintro ⟨k, c, mode, next, hthread⟩
    obtain ⟨command, hp⟩ := hi.inside t _ hthread
    rw [hp] at hholds
    exact hholds

end Steps

/-- **A job never gets stuck.** In no state that is reached does a non-empty set of threads
wait for locks that are held inside the set. -/
theorem no_deadlock {n : Nat} {file : List UInt8} {tr : List Act} {s : State}
    (hrun : (machine n file).run tr = some s) (hok : ∀ a ∈ tr, Succeeds a) :
    ¬ ∃ D : Set Threads.Tid, D.Nonempty ∧ ∀ t ∈ D, ∃ l, s.Waits t l ∧ ∃ u ∈ D, s.Holds u l := by
  rintro ⟨D, hne, hD⟩
  have hi := run_together hrun hok
  -- nobody waits for `parseMutex`
  have hems : ∀ t ∈ D, ∃ l, s.ems.Waits t l ∧ ∃ u ∈ D, s.ems.held u l ≠ none := by
    intro t ht
    obtain ⟨l, hw, u, hu, hholds⟩ := hD t ht
    cases l with
    | parseMutex =>
      obtain ⟨l', hw', -⟩ := hD u hu
      exact absurd hw' (hi.holder hholds l')
    | ems l => exact ⟨l, hw, u, hu, hholds⟩
  exact hne.ne_empty (Crew.InOrder.none_stuck (ρ := Fin 4) hi.order hems)

/-- One thread is in `ems_list_events`, the other is about to take `parseMutex`. -/
def listing : List Act :=
  [.job .main, .job .main] ++ List.replicate 10 (.job (.thread 0 true [])) ++
    List.replicate 2 (.op 0 ⟨true, 0⟩) ++ [.job (.thread 1 true [])]

theorem no_deadlock_listing : ∃ s, (machine 2 (bytes "LIST\n")).run listing = some s ∧
    ¬ ∃ D : Set Threads.Tid, D.Nonempty ∧ ∀ t ∈ D, ∃ l, s.Waits t l ∧ ∃ u ∈ D, s.Holds u l := by
  obtain ⟨s, hs⟩ := Option.isSome_iff_exists.mp
    (show ((machine 2 (bytes "LIST\n")).run listing).isSome = true by decide)
  exact ⟨s, hs, no_deadlock hs (by simp [listing, Succeeds])⟩

end Ems.Jobs.Job
