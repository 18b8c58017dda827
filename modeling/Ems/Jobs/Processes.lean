import Ems.Conc.Machine
import Ems.Parse.Commands

/-!
# The processes of the job runner

The loop of `main` over the jobs directory: a child for every job file, and a
`wait` before the fork while `max_proc` children are running. The counter of that
test is declared inside the loop, so it is 0 in every iteration and the test never
holds: nothing is reaped before the directory is at its end, and there are as many
children as job files (`processes_bounded` is the exact statement).

Mirroring notes:
- `readdir` gives the entries in some order, without those added meanwhile.
- A child is forked, at some moment exits, and is reaped by `wait`, which picks any
  child that has exited, waits when there is none, and fails when there is no child
  at all. `fork` may fail. What a child does is `Threads.lean`.
- The assignment `current_processes++` at the end of an iteration is lost with the
  variable.
-/

namespace Ems.Jobs.Processes

open Conc Parse

/-- A process id. -/
abbrev Pid := Nat

/-- `JOBS_FILE_EXTENSION`. -/
def jobsFileExtension : List UInt8 := bytes ".jobs"

/-- `strchr(name, '.')`: the name from its first dot on. -/
def firstDot (name : List UInt8) : Option (List UInt8) :=
  match name.dropWhile (· != 46) with
  | [] => none
  | ext => some ext

/-- The entries `main` does not skip. -/
def isJob (name : List UInt8) : Bool :=
  if name = bytes "." ∨ name = bytes ".." then false
  else
    match firstDot name with
    | none => false
    | some ext => jobsFileExtension.isPrefixOf ext

/-- Where `main` is. -/
inductive Pc where
  /-- before `readdir` -/
  | readdir
  /-- the test of the inner loop -/
  | test (currentProcesses : UInt64)
  | wait (currentProcesses : UInt64)
  | fork (currentProcesses : UInt64)
  /-- behind `closedir`, in the last loop -/
  | reap
  | finished
deriving DecidableEq, Repr

structure State where
  /-- what `readdir` has still to return -/
  entries : List (List UInt8)
  running : List Pid
  /-- the children that have exited and were not waited for -/
  exited : List Pid
  fresh : Pid
  pc : Pc

/-- `main` moves: `forks` says whether a `fork` succeeds, `child` which child a
`wait` returns. Or a child exits. -/
inductive Act where
  | main (forks : Bool) (child : Pid)
  | exit (child : Pid)

def State.init (entries : List (List UInt8)) : State := ⟨entries, [], [], 0, .readdir⟩

/-- The children forked and not yet reaped. -/
def State.live (s : State) : Nat := s.running.length + s.exited.length

/-- `wait`: the state after it and what it returns, `none` for a failure. -/
def waitChild (s : State) (child : Pid) : Option (State × Option Pid) :=
  if child ∈ s.exited then some ({ s with exited := s.exited.erase child }, some child)
  else if s.running = [] ∧ s.exited = [] then some (s, none)
  else none

/-- One step of `main`. -/
def advance (maxProc : UInt64) (s : State) (forks : Bool) (child : Pid) : Option State :=
  match s.pc with
  | .readdir =>
    match s.entries with
    | [] => some { s with pc := .reap }
    | name :: rest => some { s with entries := rest, pc := if isJob name then .test 0 else .readdir }
  | .test currentProcesses =>
    some { s with pc := if maxProc ≤ currentProcesses then .wait currentProcesses
                        else .fork currentProcesses }
  | .wait currentProcesses =>
    (waitChild s child).map fun r =>
      { r.1 with pc := .test (if r.2.isSome then currentProcesses - 1 else currentProcesses) }
  | .fork _ =>
    if forks then some { s with running := s.fresh :: s.running, fresh := s.fresh + 1, pc := .readdir }
    else some { s with pc := .readdir }
  | .reap =>
    (waitChild s child).map fun r => { r.1 with pc := if r.2.isSome then .reap else .finished }
  | .finished => none

def step (maxProc : UInt64) (s : State) : Act → Option State
  | .main forks child => advance maxProc s forks child
  | .exit child =>
    if child ∈ s.running then
      some { s with running := s.running.erase child, exited := s.exited ++ [child] }
    else none

/-- `main` with this limit, on this directory. -/
def machine (maxProc : UInt64) (entries : List (List UInt8)) : Machine State Act :=
  ⟨State.init entries, step maxProc⟩

/-- `main` is in its loop over the directory. -/
def Pc.Looping : Pc → Prop
  | .reap => False
  | .finished => False
  | _ => True

/-! ## No more children than job files -/

/-- The children there may still be. -/
def State.ahead (s : State) : Nat :=
  (s.entries.filter isJob).length +
    match s.pc with
    | .test _ => 1
    | .wait _ => 1
    | .fork _ => 1
    | _ => 0

theorem waitChild_live {s s' : State} {child : Pid} {r : Option Pid}
    (h : waitChild s child = some (s', r)) :
    s'.live ≤ s.live ∧ s'.entries = s.entries ∧ s'.pc = s.pc := by
  unfold waitChild at h
  split at h
  next =>
    cases h
    refine ⟨?_, rfl, rfl⟩
    have hle := List.length_erase_le (a := child) (l := s.exited)
    unfold State.live
    dsimp only
    omega
  next =>
    split at h
    next => cases h; exact ⟨Nat.le_refl _, rfl, rfl⟩
    next => cases h

/-- A fork uses up a job file; nothing else makes a child. -/
theorem step_live {maxProc : UInt64} {s s' : State} {a : Act} (h : step maxProc s a = some s') :
    s'.live + s'.ahead ≤ s.live + s.ahead := by
  cases a with
  | exit child =>
    simp only [step] at h
    split at h
    next hrun =>
      cases h
      have hlen := List.length_erase_of_mem hrun
      have hpos := List.length_pos_of_mem hrun
      simp only [State.live, State.ahead, List.length_append, List.length_singleton]
      omega
    next => cases h
  | main forks child =>
    simp only [step, advance] at h
    split at h
    next hpc =>
      split at h
      next hnil => cases h; simp [State.live, State.ahead, hpc]
      -- the next entry: the test of the counter follows, for a job file
      next name rest hcons =>
        cases h
        cases hjob : isJob name <;> simp [State.live, State.ahead, hpc, hcons, hjob]
    next c hpc =>
      cases h
      by_cases hle : maxProc ≤ c <;> simp [State.live, State.ahead, hpc, hle]
    next c hpc =>
      obtain ⟨⟨s1, r⟩, hw, rfl⟩ := Option.map_eq_some_iff.mp h
      obtain ⟨hlive, hentries, -⟩ := waitChild_live hw
      simp only [State.live, State.ahead, hpc, hentries] at hlive ⊢
      omega
    next c hpc =>
      split at h
      next =>
        cases h
        -- the child runs from now on, and its job file is no longer ahead
        simp only [State.live, State.ahead, hpc, List.length_cons]
        omega
      next => cases h; simp [State.live, State.ahead, hpc]
    next hpc =>
      obtain ⟨⟨s1, r⟩, hw, rfl⟩ := Option.map_eq_some_iff.mp h
      obtain ⟨hlive, hentries, -⟩ := waitChild_live hw
      have hahead : ∀ pc : Pc, pc = .reap ∨ pc = .finished →
          ({ s1 with pc := pc } : State).ahead = s.ahead := by
        rintro pc (rfl | rfl) <;> simp only [State.ahead, hpc, hentries]
      show s1.live + _ ≤ _
      rw [hahead _ (by cases r <;> simp)]
      omega
    next => cases h

theorem run_live {maxProc : UInt64} {entries : List (List UInt8)} {tr : List Act} {s : State}
    (h : (machine maxProc entries).run tr = some s) :
    s.live + s.ahead ≤ (entries.filter isJob).length :=
  (machine maxProc entries).run_invariant
    (I := fun _ s => s.live + s.ahead ≤ (entries.filter isJob).length)
    (by simp [machine, State.init, State.live, State.ahead])
    (fun _ _ _ _ _ hi hstep => Nat.le_trans (step_live hstep) hi) tr s h

/-! ## As many, when no child exits -/

/-- A job file becomes a child: the counter is 0 at the test. -/
theorem runFrom_job {maxProc : UInt64} (hmax : 1 ≤ maxProc.toNat) (entries : List (List UInt8))
    {s : State} {name : List UInt8} {rest : List (List UInt8)} (hpc : s.pc = .readdir)
    (hcons : s.entries = name :: rest) (hjob : isJob name = true) :
    (machine maxProc entries).runFrom s (List.replicate 3 (.main true 0)) =
      some { entries := rest, running := s.fresh :: s.running, exited := s.exited,
             fresh := s.fresh + 1, pc := .readdir } := by
  have htest : ¬ maxProc ≤ 0 := by
    rw [UInt64.le_iff_toNat_le]
    exact Nat.not_le.mpr hmax
  simp [List.replicate, Machine.runFrom_cons, machine, step, advance, hpc, hcons, hjob, htest]

/-- Anything else is skipped. -/
theorem runFrom_skip {maxProc : UInt64} (entries : List (List UInt8)) {s : State}
    {name : List UInt8} {rest : List (List UInt8)} (hpc : s.pc = .readdir)
    (hcons : s.entries = name :: rest) (hjob : isJob name = false) :
    (machine maxProc entries).runFrom s [.main true 0] = some { s with entries := rest } := by
  simp [Machine.runFrom_cons, machine, step, advance, hpc, hcons, hjob]

/-- With every fork granted and no exits `main` comes to the end of the directory
with a child for every job file. -/
theorem exists_runFrom {maxProc : UInt64} (hmax : 1 ≤ maxProc.toNat) (entries : List (List UInt8))
    {s : State} (hpc : s.pc = .readdir) :
    ∃ tr s', (machine maxProc entries).runFrom s tr = some s' ∧ s'.pc = .readdir ∧
      s'.live = s.live + (s.entries.filter isJob).length := by
  generalize hnames : s.entries = names
  induction names generalizing s with
  | nil => exact ⟨[], s, rfl, hpc, rfl⟩
  | cons name rest ih =>
    cases hjob : isJob name with
    | true =>
      obtain ⟨tr, s', hrun, hpc', hlive⟩ :=
        @ih ⟨rest, s.fresh :: s.running, s.exited, s.fresh + 1, .readdir⟩ rfl rfl
      refine ⟨List.replicate 3 (.main true 0) ++ tr, s', ?_, hpc', ?_⟩
      · rw [Machine.runFrom_append, runFrom_job hmax entries hpc hnames hjob]
        exact hrun
      · rw [hlive, List.filter_cons_of_pos hjob, List.length_cons]
        simp only [State.live, List.length_cons]
        omega
    | false =>
      obtain ⟨tr, s', hrun, hpc', hlive⟩ := @ih { s with entries := rest } hpc rfl
      refine ⟨[.main true 0] ++ tr, s', ?_, hpc', ?_⟩
      · rw [Machine.runFrom_append, runFrom_skip entries hpc hnames hjob]
        exact hrun
      · rw [hlive, List.filter_cons_of_neg (by simp [hjob])]
        rfl

/-- **The number of processes is bounded** by `max_proc`, at every moment of the loop
and whatever the children do, exactly when the directory has at most that many job
files. -/
theorem processes_bounded {maxProc : UInt64} (hmax : 1 ≤ maxProc.toNat)
    (entries : List (List UInt8)) :
    (∀ tr s, (machine maxProc entries).run tr = some s → s.pc.Looping → s.live ≤ maxProc.toNat) ↔
      (entries.filter isJob).length ≤ maxProc.toNat := by
  constructor
  · intro hall
    obtain ⟨tr, s, hrun, hpc, hlive⟩ := exists_runFrom hmax entries (s := State.init entries) rfl
    have hle := hall tr s hrun (by rw [hpc]; trivial)
    rw [hlive] at hle
    simp only [State.init, State.live, List.length_nil, Nat.zero_add] at hle
    exact hle
  · intro hle tr s hrun _
    have hlive := run_live hrun
    omega

/-- Two job files, room for two processes, and both are running. -/
theorem processes_bounded_two : ∃ s,
    (machine 2 [bytes ".", bytes "a.jobs", bytes "notes.txt", bytes "b.jobs"]).run
      (List.replicate 8 (.main true 0)) = some s ∧ s.pc = .readdir ∧ s.live ≤ 2 := by
  have hend : ((machine 2 [bytes ".", bytes "a.jobs", bytes "notes.txt", bytes "b.jobs"]).run
      (List.replicate 8 (.main true 0))).map (·.pc) = some .readdir := by decide
  obtain ⟨s, hs, hpc⟩ := Option.map_eq_some_iff.mp hend
  have hbound := processes_bounded (show 1 ≤ (2 : UInt64).toNat by decide)
    [bytes ".", bytes "a.jobs", bytes "notes.txt", bytes "b.jobs"]
  exact ⟨s, hs, hpc, hbound.mpr (by decide) _ s hs (by rw [hpc]; trivial)⟩

/-- Two job files and `max_proc` 1: the second child is forked beside the first. -/
theorem second_process : ¬ ∀ (maxProc : UInt64) (entries : List (List UInt8)) (tr : List Act)
    (s : State), 1 ≤ maxProc.toNat → (machine maxProc entries).run tr = some s → s.pc.Looping →
      s.live ≤ maxProc.toNat := by
  intro hall
  have hend : ((machine 1 [bytes "a.jobs", bytes "b.jobs"]).run
      (List.replicate 6 (.main true 0))).map (fun s => (s.pc, s.live)) = some (.readdir, 2) := by
    decide
  obtain ⟨s, hs, hstate⟩ := Option.map_eq_some_iff.mp hend
  obtain ⟨hpc, hlive⟩ := Prod.mk.inj hstate
  have hle := hall 1 _ _ s (by decide) hs (by rw [hpc]; trivial)
  rw [hlive] at hle
  exact absurd hle (by decide)

end Ems.Jobs.Processes
