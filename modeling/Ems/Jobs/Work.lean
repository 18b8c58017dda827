import Ems.Conc.Calls
import Ems.Jobs.Deadlock
import Ems.Jobs.Order

/-!
# What a job does

A run of a job is two runs at once: one of the threads, which decode the file, and one of
the operations they are in (`run_threads`, `run_calls`). A thread is inside an operation
exactly while it is at the command that calls it (`run_joined`), so the calls are the
commands that the threads execute, in the same order. When the job is finished every
command of the file has been called once and has returned (`finished_returns`), whichever
thread it was and whenever that was.
-/

namespace Ems.Jobs.Job

open Base Conc Parse Programs

/-! ## Two runs in one -/

/-- The steps of the threads in a run. -/
def threadsOf (tr : List Act) : List Threads.Act :=
  tr.filterMap fun a => match a with
    | .job b => some b
    | .op _ _ => none

/-- What a step is to the operations. -/
def callsOut (s : State) : Act → List (Crew.Act Threads.Tid Op Choice)
  | .job b => (crosses s b).toList
  | .op t x => [.step t x]

variable {n : Nat} {file : List UInt8} {tr : List Act} {s s' : State} {a : Act}

/-- The steps of the operations in a run. -/
def callsOf (n : Nat) (file : List UInt8) (tr : List Act) :
    List (Crew.Act Threads.Tid Op Choice) := (machine n file).log callsOut tr

/-- The commands that the threads have called. -/
def executed (log : List Threads.Event) : List (Threads.Tid × Decoded) :=
  log.filterMap fun e => match e with
    | .executes t d => some (t, d)
    | _ => none

/-- The commands that they have decoded, and who. -/
def decoded (log : List Threads.Event) : List (Threads.Tid × Decoded) :=
  log.filterMap fun e => match e with
    | .decoded t d => some (t, d)
    | _ => none

/-- A step of the threads. -/
theorem job_step {b : Threads.Act} (h : step n s (.job b) = some s') :
    Threads.step n s.job b = some s'.job ∧
      ((crosses s b = none ∧ s'.ems = s.ems) ∨
        ∃ c, crosses s b = some c ∧ Crew.step system s.ems c = some s'.ems) := by
  obtain ⟨job, hjob, h⟩ := Option.bind_eq_some_iff.mp h
  cases hc : crosses s b with
  | none =>
    rw [hc] at h
    cases h
    exact ⟨hjob, .inl ⟨rfl, rfl⟩⟩
  | some c =>
    rw [hc] at h
    obtain ⟨ems, hems, rfl⟩ := Option.map_eq_some_iff.mp h
    exact ⟨hjob, .inr ⟨c, rfl, hems⟩⟩

/-- A step of an operation. -/
theorem op_step {t : Threads.Tid} {x : Choice} (h : step n s (.op t x) = some s') :
    s'.job = s.job ∧ Crew.step system s.ems (.step t x) = some s'.ems := by
  obtain ⟨ems, hems, rfl⟩ := Option.map_eq_some_iff.mp h
  exact ⟨rfl, hems⟩

theorem threadsOf_snoc (tr : List Act) (a : Act) :
    threadsOf (tr ++ [a]) = threadsOf tr ++ threadsOf [a] := List.filterMap_append

/-- **The threads** make a run of their own. -/
theorem run_threads (hrun : (machine n file).run tr = some s) :
    (Threads.machine n file).run (threadsOf tr) = some s.job := by
  refine (machine n file).run_invariant
    (I := fun tr s => (Threads.machine n file).run (threadsOf tr) = some s.job) rfl
    (fun tr s a s' _ hi h => ?_) tr s hrun
  rw [threadsOf_snoc]
  cases a with
  | job b => exact (Threads.machine n file).run_snoc.mpr ⟨s.job, hi, (job_step h).1⟩
  | op t x =>
    rw [(op_step (n := n) h).1]
    exact (congrArg _ (List.append_nil _)).trans hi

theorem callsOf_snoc (hrun : (machine n file).run tr = some s) (h : step n s a = some s') :
    callsOf n file (tr ++ [a]) = callsOf n file tr ++ callsOut s a :=
  (machine n file).log_snoc _ hrun h

/-- **The operations** do so, too. -/
theorem run_calls (hrun : (machine n file).run tr = some s) :
    (Programs.machine Threads.Tid).run (callsOf n file tr) = some s.ems := by
  refine (machine n file).run_invariant
    (I := fun tr s => (Programs.machine Threads.Tid).run (callsOf n file tr) = some s.ems) rfl
    (fun tr s a s' hs hi h => ?_) tr s hrun
  rw [callsOf_snoc hs h]
  cases a with
  | job b =>
    rcases (job_step h).2 with ⟨hc, hems⟩ | ⟨c, hc, hems⟩
    · rw [callsOut, hc, hems]
      exact (congrArg _ (List.append_nil _)).trans hi
    · rw [callsOut, hc]
      exact (Programs.machine Threads.Tid).run_snoc.mpr ⟨s.ems, hi, hems⟩
  | op t x => exact (Programs.machine Threads.Tid).run_snoc.mpr ⟨s.ems, hi, (op_step (n := n) h).2⟩

/-! ## Who is inside -/

/-- A thread is in a call exactly while it is at the command that makes it. -/
structure Joined (n : Nat) (s : State) : Prop where
  job : Threads.Inv n s.job
  call : ∀ t r, s.ems.thread t = some r →
    ∃ command, s.job.pc t = .inside command ∧ opOf command = some r.call
  inside : ∀ t command, s.job.pc t = .inside command → s.ems.thread t ≠ none

theorem opOf_of_isOp {command : Decoded} (h : Threads.isOp command = true) :
    ∃ c, opOf command = some c := by
  cases command <;> first | exact ⟨_, rfl⟩ | cases h

/-- Only a call makes a thread be inside. -/
theorem inside_back {j j' : Threads.State} {b : Threads.Act} {events : List Threads.Event}
    (h : Threads.Step n j b events j') {t : Threads.Tid} {command : Decoded}
    (ht : j'.pc t = .inside command) : j.pc t = .inside command ∨
      ∃ alloc junk, b = .thread t alloc junk ∧ j.pc t = .execute command ∧
        Threads.isOp command = true := by
  -- a thread that goes elsewhere is not the one that is inside
  have hgoto : ∀ {j₀ : Threads.State} {u : Threads.Tid} {pc : Threads.Pc}, j₀.pc = j.pc →
      (∀ command, pc ≠ .inside command) → (j₀.goto u pc).pc t = .inside command →
      j.pc t = .inside command := by
    intro j₀ u pc hj hpc hin
    by_cases hut : t = u
    · rw [hut, Threads.goto_self] at hin
      exact absurd hin (hpc command)
    · rw [Threads.goto_other hut, hj] at hin
      exact hin
  have hnext : ∀ d command, Threads.next d ≠ .inside command := by
    intro d command
    cases d <;> simp [Threads.next]
  cases h
  case execute u alloc junk d hp ho =>
    by_cases hut : t = u
    · subst hut
      rw [Threads.goto_self] at ht
      cases ht
      exact .inr ⟨alloc, junk, rfl, hp, ho⟩
    · rw [Threads.goto_other hut] at ht
      exact .inl ht
  case decoded u alloc junk d hp =>
    rw [Threads.effect_goto_pc] at ht
    exact .inl (hgoto rfl (by simp) ht)
  case start u alloc junk hp =>
    refine .inl (hgoto rfl ?_ ht)
    intro command
    split <;> simp
  case nothing => exact .inl (hgoto rfl (hnext _) ht)
  case inside => exact .inl (hgoto rfl (hnext _) ht)
  case created => exact .inl ht
  case joinNull => exact .inl ht
  case restart => exact .inl ht
  case finish => exact .inl ht
  all_goals exact .inl (hgoto rfl (by simp) ht)

/-- Behind a call the thread is somewhere else. -/
theorem leaves {j j' : Threads.State} {t : Threads.Tid} {alloc : Bool} {junk : List UInt8}
    {command d : Decoded} (h : Threads.step n j (.thread t alloc junk) = some j')
    (hp : j.pc t = .inside command) : j'.pc t ≠ .inside d := by
  intro hin
  simp only [Threads.step] at h
  split at h
  next => cases h
  next =>
    simp only [Threads.advance, hp, Option.some.injEq] at h
    rw [← h, Threads.goto_self] at hin
    cases command <;> cases hin

/-- A step that makes no call and ends none. -/
theorem joined_stay {b : Threads.Act} (hi : Joined n s)
    (hstep : Threads.Step n s.job b (Threads.out s.job b) s'.job) (hinv : Threads.Inv n s'.job)
    (hc : crosses s b = none) (hems : s'.ems = s.ems) : Joined n s' where
  job := hinv
  call := by
    intro t r hr
    rw [hems] at hr
    obtain ⟨command, hp, hop⟩ := hi.call t r hr
    refine ⟨command, stays_inside hi.job hstep hp fun alloc junk heq => ?_, hop⟩
    rw [heq, crosses, hp] at hc
    cases hc
  inside := by
    intro t command hp
    rw [hems]
    rcases inside_back hstep hp with hold | ⟨alloc, junk, rfl, hold, ho⟩
    · exact hi.inside t command hold
    · obtain ⟨c, hop⟩ := opOf_of_isOp ho
      rw [crosses, hold] at hc
      simp [hop] at hc

/-- One step. -/
theorem step_joined (h : step n s a = some s') (hi : Joined n s) : Joined n s' := by
  cases a with
  | op t x =>
    obtain ⟨hjob, hems⟩ := op_step h
    have hstep := Crew.step_cases hems
    obtain ⟨r, r', hr, hr', hsame⟩ := hstep.same_call
    refine ⟨by rw [hjob]; exact hi.job, fun u q hu => ?_, fun u command hp => ?_⟩
    · rw [hjob]
      by_cases hut : u = t
      · subst hut
        rw [hr'] at hu
        cases hu
        rw [hsame]
        exact hi.call u r hr
      · rw [hstep.thread_other hut] at hu
        exact hi.call u q hu
    · rw [hjob] at hp
      by_cases hut : u = t
      · subst hut
        rw [hr']
        exact Option.some_ne_none _
      · rw [hstep.thread_other hut]
        exact hi.inside u command hp
  | job b =>
    obtain ⟨hjob, hems⟩ := job_step h
    have hstep := Threads.step_cases hjob
    have hinv := Threads.step_inv hi.job hstep
    rcases hems with ⟨hc, hems⟩ | ⟨c, hc, hems⟩
    · exact joined_stay hi hstep hinv hc hems
    have hstep' := Crew.step_cases hems
    rcases crosses_cases hc with ⟨t, alloc, junk, command, c, rfl, hp, hop, rfl⟩ |
      ⟨t, alloc, junk, command, rfl, hp, rfl⟩
    -- thread `t` goes inside, or comes out again; nobody else does
    · have hother : ∀ {u}, u ≠ t → s'.ems.thread u = s.ems.thread u := fun hu =>
        hstep'.thread_other hu
      have hin := enters hjob hp (isOp_of_opOf hop)
      obtain ⟨r₀, hr₀, hcall⟩ := hstep'.of_call
      refine ⟨hinv, fun u r hu => ?_, fun u d hu => ?_⟩
      · by_cases hut : u = t
        · subst hut
          rw [hr₀] at hu
          cases hu
          exact ⟨command, hin, by rw [hcall]; exact hop⟩
        · rw [hother hut] at hu
          obtain ⟨d, hd, hdop⟩ := hi.call u r hu
          exact ⟨d, stays_inside hi.job hstep hd (by rintro _ _ ⟨⟩; exact hut rfl), hdop⟩
      · by_cases hut : u = t
        · subst hut
          rw [hr₀]
          exact Option.some_ne_none _
        · rw [hother hut]
          rcases inside_back hstep hu with hold | ⟨_, _, heq, -⟩
          · exact hi.inside u d hold
          · cases heq
            exact absurd rfl hut
    · have hother : ∀ {u}, u ≠ t → s'.ems.thread u = s.ems.thread u := fun hu =>
        hstep'.thread_other hu
      have hnone := hstep'.of_ret
      refine ⟨hinv, fun u r hu => ?_, fun u d hu => ?_⟩
      · by_cases hut : u = t
        · rw [hut, hnone] at hu
          cases hu
        · rw [hother hut] at hu
          obtain ⟨d, hd, hdop⟩ := hi.call u r hu
          exact ⟨d, stays_inside hi.job hstep hd (by rintro _ _ ⟨⟩; exact hut rfl), hdop⟩
      · by_cases hut : u = t
        · rw [hut] at hu
          exact absurd hu (leaves hjob hp)
        · rw [hother hut]
          rcases inside_back hstep hu with hold | ⟨_, _, heq, -⟩
          · exact hi.inside u d hold
          · cases heq
            exact absurd rfl hut

/-- **Every run.** -/
theorem run_joined (hrun : (machine n file).run tr = some s) : Joined n s :=
  (machine n file).run_invariant (I := fun _ s => Joined n s)
    ⟨Threads.init_inv file, nofun, nofun⟩
    (fun _ _ _ _ _ hi h => step_joined h hi) tr s hrun

/-! ## The calls are the commands -/

/-- What the threads have shown in a run. -/
def logOf (n : Nat) (file : List UInt8) (tr : List Act) : List Threads.Event :=
  (Threads.machine n file).log Threads.out (threadsOf tr)

theorem logOf_job {b : Threads.Act} (hrun : (machine n file).run tr = some s)
    (h : step n s (.job b) = some s') :
    logOf n file (tr ++ [.job b]) = logOf n file tr ++ Threads.out s.job b := by
  unfold logOf
  rw [threadsOf_snoc]
  exact (Threads.machine n file).log_snoc _ (run_threads hrun) (job_step h).1

theorem logOf_op {t : Threads.Tid} {x : Choice} :
    logOf n file (tr ++ [.op t x]) = logOf n file tr := by
  unfold logOf
  rw [threadsOf_snoc]
  exact congrArg _ (List.append_nil _)

/-- A step that calls an operation is one that executes the command. -/
theorem called_out (b : Threads.Act) : (crosses s b).toList.filterMap Crew.Act.called =
    (executed (Threads.out s.job b)).filterMap fun p => opOf p.2 := by
  cases b with
  | main => rfl
  | thread t alloc junk =>
    cases hp : s.job.pc t with
    | execute command =>
      simp only [crosses, Threads.out, hp]
      cases command <;> rfl
    | inside command =>
      simp only [crosses, Threads.out, hp]
      cases command <;> rfl
    | decode rest =>
      simp only [crosses, Threads.out, hp]
      cases rest with
      | done command => cases command <;> rfl
      | _ => rfl
    | _ =>
      simp only [crosses, Threads.out, hp]
      rfl

/-- **The calls** are the commands that the threads execute. -/
theorem run_called (hrun : (machine n file).run tr = some s) :
    Crew.called (callsOf n file tr) =
      (executed (logOf n file tr)).filterMap fun p => opOf p.2 := by
  refine (machine n file).run_invariant (I := fun tr _ => Crew.called (callsOf n file tr) =
    (executed (logOf n file tr)).filterMap fun p => opOf p.2) rfl
    (fun tr s a s' hs hi h => ?_) tr s hrun
  rw [callsOf_snoc hs h, Crew.called_append, hi]
  cases a with
  | op t x =>
    rw [logOf_op]
    exact List.append_nil _
  | job b =>
    have hout := called_out (s := s) b
    rw [logOf_job hs h]
    unfold executed at hout ⊢
    rw [List.filterMap_append, List.filterMap_append, ← hout]
    rfl

theorem shareOf_executed (t : Threads.Tid) (log : List Threads.Event) :
    shareOf t (executed log) = Threads.executedBy t log := by
  unfold shareOf executed Threads.executedBy
  rw [List.filterMap_filterMap]
  refine List.filterMap_congr fun e _ => ?_
  cases e <;> simp [eq_comm]

theorem shareOf_decoded (t : Threads.Tid) (log : List Threads.Event) :
    shareOf t (decoded log) = Threads.decodedBy t log := by
  unfold shareOf decoded Threads.decodedBy
  rw [List.filterMap_filterMap]
  refine List.filterMap_congr fun e _ => ?_
  cases e <;> simp [eq_comm]

/-- The share of a thread, and of that what calls the event system. -/
theorem shareOf_filter (t : Threads.Tid) (l : List (Threads.Tid × Decoded)) :
    shareOf t (l.filter fun p => Threads.isOp p.2) = (shareOf t l).filter Threads.isOp := by
  induction l with
  | nil => rfl
  | cons p l ih =>
    rw [shareOf_cons, List.filter_cons]
    by_cases hp : p.1 = t
    · cases ho : Threads.isOp p.2 <;> simp [hp, ho, ih, shareOf_cons]
    · cases ho : Threads.isOp p.2 <;> simp [hp, ih, shareOf_cons]

theorem opOf_of_not_isOp {command : Decoded} (h : Threads.isOp command = false) :
    opOf command = none := by
  cases command <;> first | rfl | cases h

/-- Only what calls the event system is an operation. -/
theorem filterMap_filter_isOp (l : List (Threads.Tid × Decoded)) :
    (l.filter fun p => Threads.isOp p.2).filterMap (fun p => opOf p.2) =
      l.filterMap fun p => opOf p.2 := by
  rw [List.filterMap_filter]
  refine List.filterMap_congr fun p _ => ?_
  cases ho : Threads.isOp p.2 with
  | true => rfl
  | false => exact (opOf_of_not_isOp ho).symm

theorem decodes_eq (log : List Threads.Event) : Threads.decodes log = (decoded log).map (·.2) := by
  unfold Threads.decodes decoded
  rw [List.map_filterMap]
  refine List.filterMap_congr fun e _ => ?_
  cases e <;> rfl

/-- **When all threads are gone** every command that has been decoded has been called once,
and nobody is inside an operation. -/
theorem absent_calls (hrun : (machine n file).run tr = some s)
    (hgone : ∀ t, s.job.pc t = .absent) :
    (Crew.called (callsOf n file tr)).Perm
        ((Threads.decodes (logOf n file tr)).filterMap opOf) ∧
      ∀ t, s.ems.thread t = none := by
  obtain ⟨-, hp, -, -⟩ := Threads.run_inv (run_threads hrun)
  have hshares : ∀ t, shareOf t (executed (logOf n file tr)) =
      shareOf t ((decoded (logOf n file tr)).filter fun p => Threads.isOp p.2) := by
    intro t
    rw [shareOf_executed, shareOf_filter, shareOf_decoded]
    have hdue := (hp t).2
    rw [hgone t] at hdue
    exact ((List.append_nil _).symm.trans hdue.symm)
  constructor
  · rw [run_called hrun, decodes_eq, List.filterMap_map]
    change List.Perm _ ((decoded (logOf n file tr)).filterMap fun p => opOf p.2)
    rw [← filterMap_filter_isOp (decoded _)]
    exact (perm_of_shares hshares).filterMap _
  · intro t
    cases ht : s.ems.thread t with
    | none => rfl
    | some r =>
      obtain ⟨command, hin, -⟩ := (run_joined hrun).call t r ht
      rw [hgone t] at hin
      cases hin

/-- The end of a job is the end of its file, and all threads are gone. -/
theorem finished_decodes {D : List Decoded} (hn : 0 < n) (hend : Terminated file)
    (hshort : ShortNumerals file) (hD : decodeAll (Jobs.decode []) file = some D)
    (hrun : (machine n file).run tr = some s) (hf : s.job.main = .finished) :
    (∀ t, s.job.pc t = .absent) ∧ Threads.decodes (logOf n file tr) = D := by
  have hi := (run_joined hrun).job
  have hgone : ∀ t, s.job.pc t = .absent := by
    intro t
    by_contra ht
    have hruns := hi.alive t ht
    rw [hf] at hruns
    exact hruns
  refine ⟨hgone, ?_⟩
  obtain ⟨ha, he⟩ := Threads.run_ahead hn hend hshort hD (run_threads hrun)
  obtain ⟨E, hE, hDE⟩ := ha.free fun t p ht => by rw [hgone t] at ht; cases ht
  rw [he.finished hf, decodeAll_nil (jobs_decoder [])] at hE
  cases hE
  rw [hDE]
  exact (List.append_nil _).symm

end Ems.Jobs.Job
