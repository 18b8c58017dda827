import Ems.Jobs.Threads

/-!
# A barrier separates the run

Once a `BARRIER` has been decoded, nothing more is decoded until every command
decoded before it is finished. The flag is set inside the critical section that
decodes and tested inside it before anything is decoded, on the path through
`thread_wait` too (`Inv.opened`); it is cleared when all threads have been joined
(`Inv.alive`), and a thread that is gone has finished what it has decoded
(`Progress`). `Separated` puts the three together.
-/

namespace Ems.Jobs.Threads

open Base Conc Parse

/-! ## What the threads keep -/

/-- The places where a thread holds `parseMutex`. -/
def Pc.Holds : Pc → Prop
  | .waitTest => True
  | .waitUnlock _ => True
  | .barrierTest => True
  | .barrierUnlock => True
  | .decode _ => True
  | .unlock _ => True
  | _ => False

/-- The threads there are while the main thread is at a place. -/
def Main.Runs (n : Nat) (t : Tid) : Main → Prop
  | .create i => t < i ∧ t < n
  | .join i => i ≤ t ∧ t < n
  | .finished => False
  | .failed => True

/-- In every reachable state: `parseMutex` is with the thread between its lock and
its unlock, nothing is decoded while `barrier` is set, and a thread that has been
joined is gone. -/
structure Inv (n : Nat) (s : State) : Prop where
  owned : Owned s.parseMutex fun t => (s.pc t).Holds
  opened : ∀ t p, s.pc t = .decode p → s.barrier = false
  alive : ∀ t, s.pc t ≠ .absent → s.main.Runs n t

variable {n : Nat} {s s' : State} {a : Act} {events : List Event}

/-- A thread that neither takes nor gives back the mutex. -/
theorem owned_goto {m : Option Tid} {t : Tid} {pc : Pc}
    (h : Owned m fun u => (s.pc u).Holds) (hsame : pc.Holds ↔ (s.pc t).Holds) :
    Owned m fun u => ((s.goto t pc).pc u).Holds := by
  refine h.move fun u => ?_
  by_cases hu : u = t
  · subst hu; rw [goto_self]; exact hsame
  · rw [goto_other hu]

/-- The thread that takes the free mutex is the only one at such a place. -/
theorem owned_lock {m : Option Tid} {t : Tid} {pc : Pc} (h : Owned m fun u => (s.pc u).Holds)
    (hm : m = none) (hpc : pc.Holds) : Owned (some t) fun u => ((s.goto t pc).pc u).Holds :=
  h.lock hm (by simp only [goto_self]; exact hpc) fun u hu => by simp only [goto_other hu]

/-- The thread that gives it back leaves nobody at such a place. -/
theorem owned_unlock {m : Option Tid} {t : Tid} {pc : Pc} (h : Owned m fun u => (s.pc u).Holds)
    (hin : (s.pc t).Holds) (hpc : ¬ pc.Holds) :
    Owned (none : Option Tid) fun u => ((s.goto t pc).pc u).Holds :=
  h.unlock hin (by simp only [goto_self]; exact hpc) fun u hu => by simp only [goto_other hu]

/-- Behind a command the mutex is free. -/
theorem next_not_holds (d : Decoded) : ¬ (next d).Holds := by
  cases d <;> simp [next, Pc.Holds]

/-- Behind a command nobody is in the parser. -/
theorem next_ne_decode (d : Decoded) (p : Reading Decoded) : next d ≠ .decode p := by
  cases d <;> simp [next]

/-- A thread that is being created has not been there. -/
theorem Inv.fresh (hi : Inv n s) {i : Nat} (h : s.main = .create i) : s.pc i = .absent := by
  by_cases hp : s.pc i = .absent
  · exact hp
  · have hr := hi.alive i hp
    rw [h] at hr
    exact absurd hr.1 (Nat.lt_irrefl i)

/-- Two threads that hold the mutex are one. -/
theorem Inv.holds_unique (hi : Inv n s) {t u : Tid} (ht : (s.pc t).Holds) (hu : (s.pc u).Holds) :
    t = u := hi.owned.unique ht hu

/-- One thread at a time decodes. -/
theorem Inv.decoder_unique (hi : Inv n s) {t u : Tid} {p q : Reading Decoded}
    (ht : s.pc t = .decode p) (hu : s.pc u = .decode q) : u = t :=
  hi.holds_unique (by rw [hu]; trivial) (by rw [ht]; trivial)

/-- The mutex of the parser has one owner. -/
theorem step_owned (hi : Inv n s) (h : Step n s a events s') :
    Owned s'.parseMutex fun t => (s'.pc t).Holds := by
  have ho := hi.owned
  cases h with
  | create h =>
    have hp := hi.fresh h
    exact owned_goto ho (by rw [hp]; simp [Pc.Holds])
  | created => exact ho
  | joinNull => exact ho
  | join h hi' hp => exact owned_goto ho (by rw [hp]; simp [Pc.Holds])
  | restart => exact ho
  | finish => exact ho
  | start h =>
    refine owned_goto ho ?_
    rw [h]
    split <;> simp [Pc.Holds]
  | lock h hm => exact owned_lock ho hm trivial
  | wait h => exact owned_goto ho (by rw [h]; simp [Pc.Holds])
  | noWait h => exact owned_goto ho (by rw [h]; simp [Pc.Holds])
  | waitUnlock h => exact owned_unlock ho (by rw [h]; trivial) (by simp [Pc.Holds])
  | sleep h => exact owned_goto ho (by rw [h]; simp [Pc.Holds])
  | relock h hm => exact owned_lock ho hm trivial
  | closed h => exact owned_goto ho (by rw [h]; simp [Pc.Holds])
  | opened h => exact owned_goto ho (by rw [h]; simp [Pc.Holds])
  | barrierUnlock h => exact owned_unlock ho (by rw [h]; trivial) (by simp [Pc.Holds])
  | read h => exact owned_goto ho (by rw [h]; simp [Pc.Holds])
  | decoded h =>
    rw [effect_goto_pc]
    show Owned (effect n s _).parseMutex _
    rw [effect_parseMutex]
    exact owned_goto ho (by rw [h]; simp [Pc.Holds])
  | unlock h => exact owned_unlock ho (by rw [h]; trivial) (by simp [Pc.Holds])
  | execute h => exact owned_goto ho (by rw [h]; simp [Pc.Holds])
  | nothing h => exact owned_goto ho (iff_of_false (next_not_holds _) (by rw [h]; simp [Pc.Holds]))
  | inside h => exact owned_goto ho (iff_of_false (next_not_holds _) (by rw [h]; simp [Pc.Holds]))

/-- A thread that does not begin to decode, in a step that leaves the flag alone. -/
theorem opened_goto (hi : Inv n s) {t : Tid} {pc : Pc} {b : Bool} (hb : s.barrier = false → b = false)
    (hpc : ∀ p, pc = .decode p → b = false) :
    ∀ u p, (s.goto t pc).pc u = .decode p → b = false := by
  intro u p hu
  by_cases ht : u = t
  · subst ht
    rw [goto_self] at hu
    exact hpc p hu
  · rw [goto_other ht] at hu
    exact hb (hi.opened u p hu)

/-- Who is in the parser has found no barrier. -/
theorem step_opened (hi : Inv n s) (h : Step n s a events s') :
    ∀ t p, s'.pc t = .decode p → s'.barrier = false := by
  cases h with
  | create => exact opened_goto hi id (by simp)
  | created => exact hi.opened
  | joinNull => exact hi.opened
  | join => exact opened_goto hi id (by simp)
  | restart => exact fun _ _ _ => rfl
  | finish => exact hi.opened
  | @start t a =>
    refine opened_goto hi id fun p hp => ?_
    cases a <;> cases hp
  | opened h hb => exact opened_goto hi id fun _ _ => hb
  | read h => exact opened_goto hi id fun _ _ => hi.opened _ _ h
  | @decoded t _ _ d h =>
    -- the flag may go up, and then nobody else is decoding
    intro u p hu
    by_cases ht : u = t
    · subst ht; rw [goto_self] at hu; cases hu
    · rw [goto_other ht, effect_pc] at hu
      exact absurd (hi.decoder_unique h hu) ht
  | nothing => exact opened_goto hi id fun p hp => absurd hp (next_ne_decode _ p)
  | inside => exact opened_goto hi id fun p hp => absurd hp (next_ne_decode _ p)
  | _ => exact opened_goto hi id (by simp)

/-- A thread that was there is still there. -/
theorem alive_goto (hi : Inv n s) {t : Tid} {pc : Pc} (ht : s.pc t ≠ .absent) :
    ∀ u, (s.goto t pc).pc u ≠ .absent → s.main.Runs n u := by
  intro u hu
  by_cases h : u = t
  · subst h; exact hi.alive u ht
  · rw [goto_other h] at hu
    exact hi.alive u hu

/-- The workers that are there belong to the round. -/
theorem step_alive (hi : Inv n s) (h : Step n s a events s') :
    ∀ t, s'.pc t ≠ .absent → s'.main.Runs n t := by
  cases h with
  | @create i h hin =>
    intro u hu
    by_cases ht : u = i
    · subst ht; exact ⟨Nat.lt_succ_self u, hin⟩
    · have hu' : s.pc u ≠ .absent := by rw [← goto_other ht]; exact hu
      have hr := hi.alive u hu'
      rw [h] at hr
      exact ⟨Nat.lt_succ_of_lt hr.1, hr.2⟩
  | created h =>
    intro u hu
    have hr := hi.alive u hu
    rw [h] at hr
    exact ⟨Nat.zero_le u, hr.2⟩
  | joinNull => exact fun _ _ => trivial
  | @join i v h hin hp =>
    intro u hu
    -- the one joined is gone; the others are still waited for
    have ht : u ≠ i := by
      intro ht
      subst ht
      exact hu (goto_self s u .absent)
    have hu' : s.pc u ≠ .absent := by rw [← goto_other ht]; exact hu
    have hr := hi.alive u hu'
    rw [h] at hr
    exact ⟨Nat.lt_of_le_of_ne hr.1 (Ne.symm ht), hr.2⟩
  | @restart i h hin =>
    intro u hu
    have hr := hi.alive u hu
    rw [h] at hr
    exact absurd (Nat.lt_of_le_of_lt hr.1 hr.2) (Nat.not_lt.mpr hin)
  | @finish i h hin =>
    intro u hu
    have hr := hi.alive u hu
    rw [h] at hr
    exact absurd (Nat.lt_of_le_of_lt hr.1 hr.2) (Nat.not_lt.mpr hin)
  | decoded h =>
    rw [effect_goto_pc]
    show ∀ u, _ → (effect n s _).main.Runs n u
    rw [effect_main]
    exact alive_goto hi (by rw [h]; simp)
  | start h => exact alive_goto hi (by rw [h]; simp)
  | _ h => exact alive_goto hi (by rw [h]; simp)

/-- In the beginning nobody is anywhere. -/
theorem init_inv (file : List UInt8) : Inv n (State.init file) where
  owned := fun t => by simp [State.init, Pc.Holds]
  opened := fun t p h => by cases h
  alive := fun t h => absurd rfl h

/-- The three together. -/
theorem step_inv (hi : Inv n s) (h : Step n s a events s') : Inv n s' :=
  ⟨step_owned hi h, step_opened hi h, step_alive hi h⟩

/-- All threads are gone when the main thread has joined them. -/
theorem Inv.all_absent (hi : Inv n s) {i : Nat} (h : s.main = .join i) (hin : n ≤ i) (t : Tid) :
    s.pc t = .absent := by
  by_cases hp : s.pc t = .absent
  · exact hp
  · have hr := hi.alive t hp
    rw [h] at hr
    exact absurd (Nat.lt_of_le_of_lt hr.1 hr.2) (Nat.not_lt.mpr hin)

/-! ## What a thread has decoded, executed and finished -/

/-- The commands in the order in which they were decoded. -/
def decodes (events : List Event) : List Decoded :=
  events.filterMap fun e => match e with
    | .decoded _ d => some d
    | _ => none

/-- Those of thread `t`. -/
def decodedBy (t : Tid) (events : List Event) : List Decoded :=
  events.filterMap fun e => match e with
    | .decoded u d => if u = t then some d else none
    | _ => none

def executedBy (t : Tid) (events : List Event) : List Decoded :=
  events.filterMap fun e => match e with
    | .executes u d => if u = t then some d else none
    | _ => none

def finishedBy (t : Tid) (events : List Event) : List Decoded :=
  events.filterMap fun e => match e with
    | .finished u d => if u = t then some d else none
    | _ => none

/-- What has been decoded in two logs. -/
@[simp] theorem decodes_append (as bs : List Event) :
    decodes (as ++ bs) = decodes as ++ decodes bs := List.filterMap_append

/-- What one thread has decoded in two logs. -/
@[simp] theorem decodedBy_append (t : Tid) (as bs : List Event) :
    decodedBy t (as ++ bs) = decodedBy t as ++ decodedBy t bs := List.filterMap_append

/-- What one thread has executed in two logs. -/
@[simp] theorem executedBy_append (t : Tid) (as bs : List Event) :
    executedBy t (as ++ bs) = executedBy t as ++ executedBy t bs := List.filterMap_append

/-- What one thread has finished in two logs. -/
@[simp] theorem finishedBy_append (t : Tid) (as bs : List Event) :
    finishedBy t (as ++ bs) = finishedBy t as ++ finishedBy t bs := List.filterMap_append

/-- What a thread has decoded and not finished. -/
def Pc.pending : Pc → List Decoded
  | .unlock d => d.listed
  | .execute d => d.listed
  | .inside d => d.listed
  | _ => []

/-- What a thread has decoded and not passed on to the event system. -/
def Pc.due : Pc → List Decoded
  | .unlock d => d.listed.filter isOp
  | .execute d => d.listed.filter isOp
  | _ => []

/-- The events of a run, as far as the threads have got. -/
def Progress (events : List Event) (s : State) : Prop :=
  ∀ t, decodedBy t events = finishedBy t events ++ (s.pc t).pending ∧
    (decodedBy t events).filter isOp = executedBy t events ++ (s.pc t).due

/-- A decoded command is one of the thread that decoded it. -/
@[simp] theorem decodedBy_decoded (t u : Tid) (d : Decoded) :
    decodedBy t (d.listed.map (.decoded u)) = if u = t then d.listed else [] := by
  unfold decodedBy
  rw [List.filterMap_map]
  by_cases h : u = t
  · subst h; simp
  · simp [h]

/-- It is not finished yet. -/
@[simp] theorem finishedBy_decoded (t u : Tid) (d : Decoded) :
    finishedBy t (d.listed.map (.decoded u)) = [] := by
  cases d <;> rfl

/-- It is not executed yet. -/
@[simp] theorem executedBy_decoded (t u : Tid) (d : Decoded) :
    executedBy t (d.listed.map (.decoded u)) = [] := by
  cases d <;> rfl

/-- A finished command is not decoded again. -/
@[simp] theorem decodedBy_finished (t u : Tid) (d : Decoded) :
    decodedBy t (d.listed.map (.finished u)) = [] := by
  cases d <;> rfl

/-- A finished command is one of the thread that finished it. -/
@[simp] theorem finishedBy_finished (t u : Tid) (d : Decoded) :
    finishedBy t (d.listed.map (.finished u)) = if u = t then d.listed else [] := by
  unfold finishedBy
  rw [List.filterMap_map]
  by_cases h : u = t
  · subst h; simp
  · simp [h]

/-- It is not executed again. -/
@[simp] theorem executedBy_finished (t u : Tid) (d : Decoded) :
    executedBy t (d.listed.map (.finished u)) = [] := by
  cases d <;> rfl

/-- An operation is one of the commands that count. -/
theorem listed_of_isOp {d : Decoded} (h : isOp d = true) : d.listed = [d] := by
  cases d <;> first | rfl | cases h

/-- Any other command is no operation. -/
theorem filter_listed_of_not_isOp {d : Decoded} (h : isOp d = false) :
    d.listed.filter isOp = [] := by
  cases d <;> first | rfl | cases h

/-- Before it gives back the mutex, the thread has its command before it. -/
@[simp] theorem pending_unlock (d : Decoded) : (Pc.unlock d).pending = d.listed := rfl

/-- Before it executes the command as well. -/
@[simp] theorem pending_execute (d : Decoded) : (Pc.execute d).pending = d.listed := rfl

/-- And until the operation has returned. -/
@[simp] theorem pending_inside (d : Decoded) : (Pc.inside d).pending = d.listed := rfl

/-- An operation is due as soon as it is decoded. -/
@[simp] theorem due_unlock (d : Decoded) : (Pc.unlock d).due = d.listed.filter isOp := rfl

/-- And before it is executed. -/
@[simp] theorem due_execute (d : Decoded) : (Pc.execute d).due = d.listed.filter isOp := rfl

/-- Inside it has been passed on. -/
@[simp] theorem due_inside (d : Decoded) : (Pc.inside d).due = [] := rfl

/-- Behind a command there is none before it. -/
@[simp] theorem next_pending (d : Decoded) : (next d).pending = [] := by cases d <;> rfl

/-- None is due behind a command. -/
@[simp] theorem next_due (d : Decoded) : (next d).due = [] := by cases d <;> rfl

/-- What thread `t` shows in a step has to agree with how it moves; about the other
threads the step shows nothing. -/
theorem progress_goto {log events : List Event} {t : Tid} {pc : Pc} (h : Progress log s)
    (hpending : (s.pc t).pending ++ decodedBy t events = finishedBy t events ++ pc.pending)
    (hdue : (s.pc t).due ++ (decodedBy t events).filter isOp = executedBy t events ++ pc.due)
    (hother : ∀ u, u ≠ t →
      decodedBy u events = [] ∧ finishedBy u events = [] ∧ executedBy u events = []) :
    Progress (log ++ events) (s.goto t pc) := by
  intro u
  obtain ⟨h1, h2⟩ := h u
  rw [decodedBy_append, finishedBy_append, executedBy_append]
  by_cases hu : u = t
  -- what `t` shows is what it no longer owes
  · subst hu
    rw [goto_self, List.filter_append]
    constructor
    · rw [h1, List.append_assoc, hpending, List.append_assoc]
    · rw [h2, List.append_assoc, hdue, List.append_assoc]
  · obtain ⟨hd, hf, he⟩ := hother u hu
    rw [goto_other hu, hd, hf, he, List.append_nil, List.append_nil, List.append_nil]
    exact ⟨h1, h2⟩

/-- A step that shows nothing. -/
theorem progress_quiet {log : List Event} {t : Tid} {pc : Pc} (h : Progress log s)
    (hpending : (s.pc t).pending = pc.pending) (hdue : (s.pc t).due = pc.due) :
    Progress (log ++ []) (s.goto t pc) :=
  progress_goto h (by simpa [decodedBy, finishedBy] using hpending)
    (by simpa [decodedBy, executedBy] using hdue)
    fun _ _ => ⟨rfl, rfl, rfl⟩

/-- A step keeps the account of what is decoded, executed and finished. -/
theorem step_progress {log : List Event} (hi : Inv n s) (hp : Progress log s)
    (h : Step n s a events s') : Progress (log ++ events) s' := by
  cases h with
  | create h => exact progress_quiet hp (by rw [hi.fresh h]; rfl) (by rw [hi.fresh h]; rfl)
  | created => rw [List.append_nil]; exact hp
  | joinNull => rw [List.append_nil]; exact hp
  | join _ _ h => exact progress_quiet hp (by rw [h]; rfl) (by rw [h]; rfl)
  | restart => rw [List.append_nil]; exact hp
  | finish => rw [List.append_nil]; exact hp
  | @start t a _ h => cases a <;> exact progress_quiet hp (by rw [h]; rfl) (by rw [h]; rfl)
  -- the command is decoded, and due if it calls the event system
  | @decoded t _ _ d h =>
    have hgoal : Progress (log ++ d.listed.map (.decoded t)) (s.goto t (.unlock d)) :=
      progress_goto hp (by simp [h, Pc.pending]) (by simp [h, Pc.due])
        fun u hu => by simp [Ne.symm hu]
    intro u
    rw [effect_goto_pc]
    exact hgoal u
  | @execute t _ _ d h ho =>
    refine progress_goto hp ?_ ?_ fun u hu => ?_
    · simp [h, decodedBy, finishedBy]
    · simp [h, decodedBy, executedBy, listed_of_isOp ho, ho]
    · simp [decodedBy, finishedBy, executedBy, Ne.symm hu]
  -- a command without a call is finished at once
  | @nothing t _ _ d h ho =>
    refine progress_goto hp ?_ ?_ fun u hu => ?_
    · simp [h]
    · simp [h, filter_listed_of_not_isOp ho]
    · simp [Ne.symm hu]
  | @inside t _ _ d h =>
    refine progress_goto hp ?_ ?_ fun u hu => ?_
    · simp [h]
    · simp [h]
    · simp [Ne.symm hu]
  | _ h => exact progress_quiet hp (by rw [h]; rfl) (by rw [h]; rfl)

/-! ## Separation -/

/-- Every command decoded in `before` is finished in `log`: thread by thread the
first ones finished are the ones decoded. -/
def AllFinished (before log : List Event) : Prop :=
  ∀ t, decodedBy t before <+: finishedBy t log

/-- Between a barrier and the next command decoded, all earlier commands finish. -/
def Separated (log : List Event) : Prop :=
  ∀ before t mid u d after, log = before ++ .decoded t .barrier :: (mid ++ .decoded u d :: after) →
    AllFinished before (before ++ .decoded t .barrier :: mid)

/-- The commands before a barrier are finished, or it still keeps the threads from
decoding. -/
def Guarded (log : List Event) (s : State) : Prop :=
  ∀ before t mid, log = before ++ .decoded t .barrier :: mid →
    AllFinished before log ∨ (s.barrier = true ∧ decodes mid = [])

/-- What is finished stays so. -/
theorem AllFinished.append {before log : List Event} (h : AllFinished before log)
    (events : List Event) : AllFinished before (log ++ events) := by
  intro t
  rw [finishedBy_append]
  exact (h t).trans (List.prefix_append _ _)

/-- Where a decoded command stands in a log that got longer without one. -/
theorem split_decoded {log before mid : List Event} {t : Tid} {d : Decoded}
    (hev : decodes events = []) (h : log ++ events = before ++ .decoded t d :: mid) :
    ∃ mid', log = before ++ .decoded t d :: mid' ∧ mid = mid' ++ events := by
  have hnot : ∀ xs ys, events ≠ xs ++ .decoded t d :: ys := by
    intro xs ys hxs
    rw [hxs, decodes_append] at hev
    simp [decodes] at hev
  rcases List.append_eq_append_iff.mp h with ⟨as, -, h2⟩ | ⟨cs, h1, h2⟩
  · exact absurd h2 (hnot _ _)
  · cases cs with
    | nil => exact absurd h2.symm (hnot [] mid)
    | cons c cs =>
      obtain ⟨rfl, rfl⟩ := List.cons.inj h2
      exact ⟨cs, h1, rfl⟩

/-- And in one that got longer by one event. -/
theorem split_snoc {log before mid : List Event} {e e' : Event}
    (h : log ++ [e] = before ++ e' :: mid) :
    (log = before ∧ e = e' ∧ mid = []) ∨
      ∃ mid', log = before ++ e' :: mid' ∧ mid = mid' ++ [e] := by
  rcases List.eq_nil_or_concat mid with rfl | ⟨mid', x, rfl⟩
  · obtain ⟨h1, h2⟩ := List.append_inj' h rfl
    cases h2
    exact Or.inl ⟨h1, rfl, rfl⟩
  · refine Or.inr ⟨mid', ?_⟩
    rw [List.concat_eq_append, ← List.cons_append, ← List.append_assoc] at h
    obtain ⟨h1, h2⟩ := List.append_inj' h rfl
    cases h2
    exact ⟨h1, by simp⟩

/-- A step that decodes nothing keeps the guard. -/
theorem keep_guarded {log : List Event} (hg : Guarded log s) (hev : decodes events = [])
    (hb : s.barrier = true → s'.barrier = true) : Guarded (log ++ events) s' := by
  intro before t mid h
  obtain ⟨mid', hlog, rfl⟩ := split_decoded hev h
  rcases hg before t mid' hlog with hf | ⟨hset, hmid⟩
  · exact Or.inl (hf.append events)
  · exact Or.inr ⟨hb hset, by rw [decodes_append, hmid, hev]; rfl⟩

/-- A step that decodes nothing separates as before. -/
theorem keep_separated {log : List Event} (hs : Separated log) (hev : decodes events = []) :
    Separated (log ++ events) := by
  intro before t mid u d after h
  rw [← List.cons_append, ← List.append_assoc] at h
  obtain ⟨after', hlog, -⟩ := split_decoded hev h
  rw [List.append_assoc, List.cons_append] at hlog
  exact hs before t mid u d after' hlog

/-- While something is being decoded there is no barrier to wait for. -/
theorem Guarded.all_finished {log : List Event} (hg : Guarded log s) (hb : s.barrier = false)
    {before mid : List Event} {t : Tid} (h : log = before ++ .decoded t .barrier :: mid) :
    AllFinished before log := by
  rcases hg before t mid h with hf | ⟨hset, -⟩
  · exact hf
  · rw [hb] at hset; cases hset

/-- When all threads are gone, all they have decoded is finished. -/
theorem Progress.all_finished {log : List Event} (hp : Progress log s)
    (hgone : ∀ t, s.pc t = .absent) {before mid : List Event} (h : log = before ++ mid) :
    AllFinished before log := by
  intro t
  have hall := (hp t).1
  rw [hgone t] at hall
  have heq : decodedBy t log = finishedBy t log := by rw [hall]; exact List.append_nil _
  rw [← heq, h, decodedBy_append]
  exact List.prefix_append _ _

/-- Finishing a command decodes none. -/
theorem decodes_finished (t : Tid) (d : Decoded) : decodes (d.listed.map (.finished t)) = [] := by
  cases d <;> rfl

/-- The barrier that a thread has read guards the file until all have finished. -/
theorem step_guarded {log : List Event} (hi : Inv n s) (hp : Progress log s) (hg : Guarded log s)
    (h : Step n s a events s') : Guarded (log ++ events) s' := by
  cases h with
  | restart h hin hb =>
    rw [List.append_nil]
    intro before t mid hlog
    -- every thread has been joined, so nothing of what they decoded is left to do
    exact Or.inl (hp.all_finished (hi.all_absent h hin) hlog)
  | @decoded t _ _ d h =>
    have hb := hi.opened _ _ h
    by_cases heoc : d = .eoc
    · subst heoc
      exact keep_guarded hg rfl fun hset => by rw [hb] at hset; cases hset
    · have hev : d.listed.map (Event.decoded t) = [.decoded t d] := by
        cases d <;> first | rfl | exact absurd rfl heoc
      rw [hev]
      intro before u mid hlog
      rcases split_snoc hlog with ⟨rfl, heq, rfl⟩ | ⟨mid', hlog', rfl⟩
      · -- the barrier itself
        cases heq
        exact Or.inr ⟨by show (effect n s .barrier).barrier = true; rfl, rfl⟩
      · exact Or.inl ((hg.all_finished hb hlog').append _)
  | nothing => exact keep_guarded hg (decodes_finished _ _) id
  | inside => exact keep_guarded hg (decodes_finished _ _) id
  | _ => exact keep_guarded hg rfl id

/-- Nobody decodes behind a barrier before all have finished. -/
theorem step_separated {log : List Event} (hi : Inv n s) (hg : Guarded log s) (hs : Separated log)
    (h : Step n s a events s') : Separated (log ++ events) := by
  cases h with
  | @decoded t _ _ d h =>
    have hb := hi.opened _ _ h
    by_cases heoc : d = .eoc
    · subst heoc
      exact keep_separated hs rfl
    · have hev : d.listed.map (Event.decoded t) = [.decoded t d] := by
        cases d <;> first | rfl | exact absurd rfl heoc
      rw [hev]
      intro before u mid v d' after hlog
      rw [← List.cons_append, ← List.append_assoc] at hlog
      rcases split_snoc hlog with ⟨hlog', -, -⟩ | ⟨after', hlog', -⟩
      -- the command decoded just now comes after an open barrier only
      · rw [← hlog']
        exact hg.all_finished hb hlog'
      · rw [List.append_assoc, List.cons_append] at hlog'
        exact hs before u mid v d' after' hlog'
  | nothing => exact keep_separated hs (decodes_finished _ _)
  | inside => exact keep_separated hs (decodes_finished _ _)
  | _ => exact keep_separated hs rfl

/-! ## Whole runs -/

variable {file : List UInt8} {tr : List Act}

/-- What every run keeps. -/
theorem run_inv (h : (machine n file).run tr = some s) :
    Inv n s ∧ Progress ((machine n file).log out tr) s ∧
      Guarded ((machine n file).log out tr) s ∧ Separated ((machine n file).log out tr) := by
  refine (machine n file).run_invariant (I := fun tr s => Inv n s ∧
    Progress ((machine n file).log out tr) s ∧ Guarded ((machine n file).log out tr) s ∧
    Separated ((machine n file).log out tr)) ⟨init_inv file, ?_, ?_, ?_⟩ ?_ tr s h
  · exact fun t => ⟨rfl, rfl⟩
  · intro before t mid h
    exact absurd h (by simp [Machine.log, Machine.logFrom])
  · intro before t mid u d after h
    exact absurd h (by simp [Machine.log, Machine.logFrom])
  · intro tr s a s' hrun ih hstep
    obtain ⟨hi, hp, hg, hs⟩ := ih
    have h := step_cases hstep
    rw [(machine n file).log_snoc out hrun hstep]
    exact ⟨step_inv hi h, step_progress hi hp h, step_guarded hi hp hg h, step_separated hi hg hs h⟩

/-- Between the decoding of a `BARRIER` and that of any later command, every command
decoded before the `BARRIER` finishes, in every run of the job. -/
theorem barrier_separates (hrun : (machine n file).run tr = some s) {before mid after : List Event}
    {t u : Tid} {d : Decoded} (hlog : (machine n file).log out tr =
      before ++ .decoded t .barrier :: (mid ++ .decoded u d :: after)) :
    AllFinished before (before ++ .decoded t .barrier :: mid) :=
  (run_inv hrun).2.2.2 before t mid u d after hlog

/-- Two threads: one decodes `LIST`, the other one `BARRIER` before the first is done
with it, and in the next round `HELP`. -/
def listBarrierHelp : List Act :=
  List.replicate 3 .main ++ List.replicate 9 (.thread 0 true []) ++
    List.replicate 10 (.thread 1 true []) ++ List.replicate 6 (.thread 0 true []) ++
    List.replicate 6 .main ++ List.replicate 8 (.thread 1 true [])

theorem barrier_separates_listBarrierHelp :
    AllFinished [.decoded 0 .listEvents]
      [.decoded 0 .listEvents, .decoded 1 .barrier, .finished 1 .barrier, .executes 0 .listEvents,
        .finished 0 .listEvents] := by
  have hsome : ((machine 2 (bytes "LIST\nBARRIER\nHELP\n")).run listBarrierHelp).isSome = true := by
    decide
  obtain ⟨s, hs⟩ := Option.isSome_iff_exists.mp hsome
  have hlog : (machine 2 (bytes "LIST\nBARRIER\nHELP\n")).log out listBarrierHelp =
      [.decoded 0 .listEvents] ++ .decoded 1 .barrier ::
        ([.finished 1 .barrier, .executes 0 .listEvents, .finished 0 .listEvents] ++
          .decoded 1 .help :: []) := rfl
  exact barrier_separates hs hlog

end Ems.Jobs.Threads
