import Ems.Conc.Ending
import Ems.Jobs.Safe
import Ems.Jobs.Work

/-!
# A job comes to its end

With at least one thread, a file whose events fit and library calls that succeed, a job is
not only free of deadlock: it ends, whoever is scheduled when (`job_finishes`). No schedule
goes on for ever, since every step uses up something: a command of the file, the barrier
that stops a round, a thread of the round, a byte of the file, or a step of the thread that
moves (`toDo`). And wherever a step is still missing, somebody can make one (`exists_step`):
who has `parseMutex` is never waiting, the threads that are inside an operation cannot all
wait for each other, an operation that is not waiting finds what it needs, and when all
threads have left the main thread joins them.
-/

namespace Ems.Jobs.Threads

open Base Conc Parse

variable {n : Nat} {s s' : State} {a : Act} {events : List Event}

/-! ## Which threads there are -/

/-- The threads of the round that have not been joined are there, and no others. -/
structure There (n : Nat) (s : State) : Prop where
  present : ∀ t, s.main ≠ .failed → s.main.Runs n t → s.pc t ≠ .absent
  below : ∀ t, n ≤ t → s.pc t = .absent

/-- A thread that is there moves, and is still there. -/
theorem there_goto (hi : There n s) {t : Tid} {pc : Pc} (ht : s.pc t ≠ .absent)
    (hpc : pc ≠ .absent) (hmain : s'.main = s.main) (hs' : s'.pc = (s.goto t pc).pc) :
    There n s' := by
  refine ⟨fun u hm hr => ?_, fun u hu => ?_⟩
  · rw [hmain] at hm hr
    rw [hs']
    by_cases hut : u = t
    · rw [hut, goto_self]
      exact hpc
    · rw [goto_other hut]
      exact hi.present u hm hr
  · rw [hs']
    by_cases hut : u = t
    · rw [hut] at hu
      exact absurd (hi.below t hu) ht
    · rw [goto_other hut]
      exact hi.below u hu

theorem next_ne_absent (d : Decoded) : next d ≠ .absent := by
  cases d <;> simp [next]

theorem step_there (hi : There n s) (h : Step n s a events s') : There n s' := by
  cases h with
  | @create i hm hin =>
    refine ⟨fun u _ hr => ?_, fun u hu => ?_⟩
    · by_cases hui : u = i
      · rw [hui]
        show (s.goto i .start).pc i ≠ .absent
        rw [goto_self]
        simp
      · show (s.goto i .start).pc u ≠ .absent
        rw [goto_other hui]
        refine hi.present u (by rw [hm]; simp) ?_
        rw [hm]
        exact ⟨Nat.lt_of_le_of_ne (Nat.le_of_lt_succ hr.1) hui, hr.2⟩
    · show (s.goto i .start).pc u = .absent
      rw [goto_other fun hui => by rw [hui] at hu; exact Nat.not_le.mpr hin hu]
      exact hi.below u hu
  | @created i hm hin =>
    refine ⟨fun u _ hr => hi.present u (by rw [hm]; simp) ?_, hi.below⟩
    rw [hm]
    exact ⟨Nat.lt_of_lt_of_le hr.2 hin, hr.2⟩
  | joinNull => exact ⟨fun u hm => absurd rfl hm, hi.below⟩
  | @join i v hm hin hp =>
    refine ⟨fun u _ hr => ?_, fun u hu => ?_⟩
    · show (s.goto i .absent).pc u ≠ .absent
      rw [goto_other (Nat.ne_of_gt hr.1)]
      refine hi.present u (by rw [hm]; simp) ?_
      rw [hm]
      exact ⟨Nat.le_of_succ_le hr.1, hr.2⟩
    · show (s.goto i .absent).pc u = .absent
      by_cases hui : u = i
      · rw [hui, goto_self]
      · rw [goto_other hui]
        exact hi.below u hu
  | restart => exact ⟨fun u _ hr => absurd hr.1 (Nat.not_lt_zero u), hi.below⟩
  | finish => exact ⟨fun u _ hr => hr.elim, hi.below⟩
  | @start t alloc _ hp =>
    exact there_goto hi (by rw [hp]; simp) (by split <;> simp) rfl rfl
  | decoded hp =>
    exact there_goto hi (by rw [hp]; simp) (by simp) (by simp [State.goto]) (effect_goto_pc ..)
  | nothing hp => exact there_goto hi (by rw [hp]; simp) (next_ne_absent _) rfl rfl
  | inside hp => exact there_goto hi (by rw [hp]; simp) (next_ne_absent _) rfl rfl
  | _ hp => exact there_goto hi (by rw [hp]; simp) (by simp) rfl rfl

theorem run_there {file : List UInt8} {tr : List Act} (hrun : (machine n file).run tr = some s) :
    There n s :=
  (machine n file).run_invariant (I := fun _ s => There n s)
    ⟨fun t _ hr => absurd hr.1 (Nat.not_lt_zero t), fun _ _ => rfl⟩
    (fun _ _ _ _ _ hi h => step_there hi (step_cases h)) tr s hrun

/-! ## Who can move -/

/-- A thread waits for `parseMutex`. -/
def Pc.Locks : Pc → Prop
  | .lock => True
  | .relock => True
  | _ => False

/-- A thread that has been created and has not left can move, unless it waits for the
mutex or its parser has gone wrong. -/
theorem advance_isSome {t : Tid} (hthere : s.pc t ≠ .absent) (hexit : ∀ v, s.pc t ≠ .exited v)
    (hlock : (s.pc t).Locks → s.parseMutex = none) (hdef : s.pc t ≠ .decode .undefined) :
    (advance n s t true []).isSome = true := by
  unfold advance
  cases hp : s.pc t with
  | absent => exact absurd hp hthere
  | exited v => exact absurd hp (hexit v)
  | lock =>
    rw [hp] at hlock
    simp [hlock trivial]
  | relock =>
    rw [hp] at hlock
    simp [hlock trivial]
  | waitTest =>
    dsimp only
    split <;> rfl
  | barrierTest =>
    dsimp only
    split <;> rfl
  | decode rest =>
    cases rest with
    | done d => rfl
    | read k rest => rfl
    | skip rest =>
      cases s.file with
      | nil => rfl
      | cons c file =>
        simp only [Reading.step]
        split <;> rfl
    | undefined => exact absurd hp hdef
  | _ => rfl

/-- The main thread can move, unless it waits for a thread or is done. -/
theorem advanceMain_isSome (hfin : s.main ≠ .finished) (hfail : s.main ≠ .failed)
    (hgone : ∀ i, s.main = .join i → i < n → ∃ v, s.pc i = .exited v) :
    (advanceMain n s).isSome = true := by
  unfold advanceMain
  cases hm : s.main with
  | finished => exact absurd hm hfin
  | failed => exact absurd hm hfail
  | create i =>
    dsimp only
    split <;> rfl
  | join i =>
    dsimp only
    split
    next hi =>
      obtain ⟨v, hv⟩ := hgone i hm hi
      rw [hv]
      cases v <;> rfl
    next =>
      split <;> rfl

/-! ## Without failures -/

/-- `malloc` succeeds. -/
def Act.Granted : Act → Prop
  | .main => True
  | .thread _ alloc _ => alloc = true

/-- No thread has left for want of memory. -/
def Unfailed (s : State) : Prop := s.main ≠ .failed ∧ ∀ t, s.pc t ≠ .exited none

theorem unfailed_goto (hi : Unfailed s) {t : Tid} {pc : Pc} (hpc : pc ≠ .exited none)
    (hmain : s'.main ≠ .failed) (hs' : s'.pc = (s.goto t pc).pc) : Unfailed s' := by
  refine ⟨hmain, fun u => ?_⟩
  rw [hs']
  by_cases hut : u = t
  · rw [hut, goto_self]
    exact hpc
  · rw [goto_other hut]
    exact hi.2 u

theorem next_ne_exited (d : Decoded) : next d ≠ .exited none := by
  cases d <;> simp [next]

theorem step_unfailed (ha : a.Granted) (hi : Unfailed s) (h : Step n s a events s') :
    Unfailed s' := by
  cases h with
  | create => exact unfailed_goto hi (by simp) (by simp) rfl
  | created => exact ⟨by simp, hi.2⟩
  | joinNull _ _ hp => exact absurd hp (hi.2 _)
  | join => exact unfailed_goto hi (by simp) (by simp) rfl
  | restart => exact ⟨by simp, hi.2⟩
  | finish => exact ⟨by simp, hi.2⟩
  | start =>
    rw [show _ = true from ha]
    exact unfailed_goto hi (by simp) hi.1 rfl
  | decoded => exact unfailed_goto hi (by simp) (by simpa [State.goto] using hi.1) (effect_goto_pc ..)
  | nothing => exact unfailed_goto hi (next_ne_exited _) hi.1 rfl
  | inside => exact unfailed_goto hi (next_ne_exited _) hi.1 rfl
  | _ => exact unfailed_goto hi (by simp) hi.1 rfl

theorem run_unfailed {file : List UInt8} {tr : List Act} (hok : ∀ a ∈ tr, a.Granted)
    (hrun : (machine n file).run tr = some s) : Unfailed s :=
  (machine n file).run_invariant_of_meets (C := fun _ a => a.Granted) (I := fun _ s => Unfailed s)
    ⟨nofun, nofun⟩ (fun _ _ _ _ _ ha hi h => step_unfailed ha hi (step_cases h)) tr s
    ((machine n file).meets_of_forall hok) hrun

/-- A thread moves alone. -/
theorem Step.pc_other {t u : Tid} {alloc : Bool} {junk : List UInt8}
    (h : Step n s (.thread t alloc junk) events s') (hu : u ≠ t) : s'.pc u = s.pc u := by
  cases h
  case decoded => exact (congrFun (effect_goto_pc ..) u).trans (goto_other hu)
  all_goals exact goto_other hu

/-! ## How far it is to the end -/

/-- How many more steps there are behind the decoding of a command, other than the end of
the file: its thread comes back to the mutex. -/
def again : Decoded → Nat
  | .eoc => 0
  | _ => 20

/-- The place of a thread in the loop, counted down. -/
def Pc.rank : Pc → Nat
  | .absent => 0
  | .start => 11
  | .lock => 10
  | .waitTest => 9
  | .waitUnlock _ => 8
  | .sleep _ => 7
  | .relock => 6
  | .barrierTest => 5
  | .barrierUnlock => 1
  | .decode _ => 4
  | .unlock d => again d + 3
  | .execute d => again d + 2
  | .inside d => again d + 1
  | .exited _ => 0

/-- What is left to read of a command. -/
def Pc.reading : Pc → Reading Decoded
  | .decode p => p
  | _ => .undefined

/-- The steps of the main thread in a round, counted down. -/
def Main.rank (n : Nat) : Main → Nat
  | .create i => n - i + n + 3
  | .join i => n - i + 1
  | .finished => 0
  | .failed => 0

theorem next_lt (d : Decoded) : (next d).rank < again d + 1 := by
  cases d <;> simp [next, Pc.rank, again]

/-- The steps of a thread that bring it closer to the end of its round. -/
theorem Step.rank_lt {t : Tid} {alloc : Bool} {junk : List UInt8}
    (h : Step n s (.thread t alloc junk) events s') :
    (s'.pc t).rank < (s.pc t).rank ∧ s'.barrier = s.barrier ∧ s'.main = s.main ∧
        s'.file = s.file ∧ decodes events = [] ∨
      (∃ p p', s.pc t = .decode p ∧ s'.pc t = .decode p' ∧
        p.step s.file = some (p', s'.file) ∧ s'.barrier = s.barrier ∧ s'.main = s.main ∧
        decodes events = []) ∨
      ∃ d, decodes events = [d] := by
  cases h
  case decoded d hp =>
    by_cases heoc : d = .eoc
    · subst heoc
      exact .inl ⟨by rw [hp, goto_self]; decide, rfl, rfl, rfl, rfl⟩
    · refine .inr (.inr ⟨d, ?_⟩)
      cases d <;> first | rfl | exact absurd rfl heoc
  case read p p' file' hstep hp =>
    exact .inr (.inl ⟨p, p', hp, goto_self .., hstep, rfl, rfl, rfl⟩)
  case start hp =>
    refine .inl ⟨?_, rfl, rfl, rfl, rfl⟩
    rw [hp, goto_self]
    split <;> decide
  case nothing d _ hp =>
    refine .inl ⟨?_, rfl, rfl, rfl, decodes_finished _ _⟩
    rw [hp, goto_self]
    exact Nat.lt_succ_of_lt (next_lt d)
  case inside d hp =>
    refine .inl ⟨?_, rfl, rfl, rfl, decodes_finished _ _⟩
    rw [hp, goto_self]
    exact next_lt d
  all_goals
    rename_i hp
    refine .inl ⟨?_, rfl, rfl, rfl, rfl⟩
    simp only [goto_self, *, Pc.rank]
    omega

/-- The steps of the main thread. -/
theorem Step.main_lt (h : Step n s .main events s') : events = [] ∧
    (s'.barrier = false ∧ s.barrier = true ∨
      s'.barrier = s.barrier ∧ s'.main.rank n < s.main.rank n) := by
  cases h
  case restart hb => exact ⟨rfl, .inl ⟨rfl, hb⟩⟩
  all_goals
    refine ⟨rfl, .inr ⟨rfl, ?_⟩⟩
    simp only [*, Main.rank]
    omega

end Ems.Jobs.Threads

namespace Ems.Jobs.Job

open Base Conc Parse Programs

variable {n : Nat} {file : List UInt8} {tr : List Act} {s s' : State} {a : Act}
  {D : List Decoded}

/-- Library calls succeed. -/
def Granted : Act → Prop
  | .job b => b.Granted
  | .op _ x => x.ok = true

/-- Every event that is created fits. -/
def Fitting (D : List Decoded) : Prop := ∀ d ∈ D, ∀ c, opOf d = some c → c.Fits

/-! ## What the operations need -/

/-- What is called has been decoded. -/
theorem executed_subset (hrun : (machine n file).run tr = some s) {t : Threads.Tid} {d : Decoded}
    (h : (t, d) ∈ executed (logOf n file tr)) : d ∈ Threads.decodes (logOf n file tr) := by
  obtain ⟨-, hp, -, -⟩ := Threads.run_inv (run_threads hrun)
  have hmem : d ∈ Threads.executedBy t (logOf n file tr) := by
    rw [← shareOf_executed]
    exact List.mem_filterMap.mpr ⟨(t, d), h, by simp⟩
  have hdec : d ∈ (Threads.decodedBy t (logOf n file tr)).filter Threads.isOp := by
    unfold logOf at hmem ⊢
    rw [(hp t).2]
    exact List.mem_append_left _ hmem
  rw [← shareOf_decoded] at hdec
  obtain ⟨⟨u, d'⟩, hp', heq⟩ := List.mem_filterMap.mp (List.mem_of_mem_filter hdec)
  rw [decodes_eq]
  refine List.mem_map.mpr ⟨(u, d'), hp', ?_⟩
  split at heq
  next => exact Option.some.inj heq
  next => cases heq

/-- All calls fit. -/
theorem calls_fit (hn : 0 < n) (hend : Terminated file) (hshort : ShortNumerals file)
    (hD : decodeAll (Jobs.decode []) file = some D) (hfits : Fitting D)
    (hrun : (machine n file).run tr = some s) (t : Threads.Tid) (c : Op)
    (hc : Crew.Act.call t c ∈ callsOf n file tr) : c.Fits := by
  have hcalled : c ∈ Crew.called (callsOf n file tr) := List.mem_filterMap.mpr ⟨_, hc, rfl⟩
  rw [run_called hrun] at hcalled
  obtain ⟨⟨u, d⟩, hd, hop⟩ := List.mem_filterMap.mp hcalled
  obtain ⟨hahead, -⟩ := Threads.run_ahead hn hend hshort hD (run_threads hrun)
  have hpre := hahead.decodes_prefix
  exact hfits d (hpre.subset (executed_subset hrun hd)) c hop

/-! ## Somebody can move -/

theorem thread_isSome {t : Threads.Tid} (hmain : s.job.main ≠ .failed)
    (hadv : (Threads.advance n s.job t true []).isSome = true)
    (hcross : ∀ c, crosses s (.thread t true []) = some c →
      (Crew.step system s.ems c).isSome = true) :
    (step n s (.job (.thread t true []))).isSome = true := by
  obtain ⟨job, hjob⟩ := Option.isSome_iff_exists.mp hadv
  have hstep : Threads.step n s.job (.thread t true []) = some job := by
    simp only [Threads.step, if_neg hmain]
    exact hjob
  simp only [step, hstep, Option.bind_some]
  cases hc : crosses s (.thread t true []) with
  | none => rfl
  | some c =>
    obtain ⟨ems, hems⟩ := Option.isSome_iff_exists.mp (hcross c hc)
    simp [hems]

/-- A thread that is outside of all operations can move, unless it waits for the mutex. -/
theorem outside_moves (hj : Joined n s) (hfail : s.job.main ≠ .failed) {t : Threads.Tid}
    (hthere : s.job.pc t ≠ .absent) (hexit : ∀ v, s.job.pc t ≠ .exited v)
    (hlock : (s.job.pc t).Locks → s.job.parseMutex = none)
    (hdef : s.job.pc t ≠ .decode .undefined) (hin : ∀ d, s.job.pc t ≠ .inside d) :
    (step n s (.job (.thread t true []))).isSome = true := by
  refine thread_isSome hfail (Threads.advance_isSome hthere hexit hlock hdef) fun c hc => ?_
  -- it may be about to call an operation, and is in none
  rcases crosses_cases hc with ⟨_, _, _, d, c, heq, hp, -, rfl⟩ | ⟨_, _, _, d, heq, hp, -⟩
  · cases heq
    have hnone : s.ems.thread t = none := by
      cases hr : s.ems.thread t with
      | none => rfl
      | some r =>
        obtain ⟨d', hp', -⟩ := hj.call t r hr
        rw [hp] at hp'
        cases hp'
    simp [Crew.step, hnone]
  · cases heq
    exact absurd hp (hin d)

/-- A thread that is inside an operation can move, unless it waits for a lock that is
held. -/
theorem inside_moves (hj : Joined n s) (hfail : s.job.main ≠ .failed)
    (hsafe : Crew.Within safe Allocated Sees (fun _ _ _ => True) s.ems) {t : Threads.Tid}
    {d : Decoded} (hin : s.job.pc t = .inside d) :
    (∃ a, Granted a ∧ (step n s a).isSome = true) ∨
      ∃ l, s.ems.Waits t l ∧ ∃ u, s.ems.held u l ≠ none := by
  obtain ⟨r, hr⟩ := Option.ne_none_iff_exists'.mp (hj.inside t d hin)
  obtain ⟨m, hm, hwp⟩ := hsafe.rest t r hr
  have hdef : r.rest ≠ .undefined := by
    intro hundef
    rw [hundef] at hwp
    exact hwp
  have hanswer : ∀ e next, r.rest = .act e next →
      (system.answer ⟨true, 0⟩ e s.ems.store).isSome = true := by
    intro e next hact
    rw [hact] at hwp
    exact answer_isSome hsafe.store hm hwp _
  rcases Crew.moves_or_waits hr hdef hanswer with ⟨v, hdone⟩ | hmove | hwait
  · -- the operation returns
    refine .inl ⟨.job (.thread t true []), rfl, thread_isSome hfail ?_ fun c hc => ?_⟩
    · exact Threads.advance_isSome (by rw [hin]; simp) (by rw [hin]; simp) (by rw [hin]; exact False.elim)
        (by rw [hin]; simp)
    · rw [crosses, hin] at hc
      cases hc
      obtain ⟨k, c, p⟩ := r
      dsimp only at hdone
      subst hdone
      simp [Crew.step, hr]
  · refine .inl ⟨.op t ⟨true, 0⟩, rfl, ?_⟩
    obtain ⟨ems, hems⟩ := Option.isSome_iff_exists.mp hmove
    simp [step, hems]
  · exact .inr hwait

/-- **Somebody can move** as long as the job is not finished. -/
theorem exists_step (hn : 0 < n) (hend : Terminated file) (hshort : ShortNumerals file)
    (hD : decodeAll (Jobs.decode []) file = some D) (hfits : Fitting D)
    (hrun : (machine n file).run tr = some s) (hok : ∀ a ∈ tr, Granted a)
    (hbusy : s.job.main ≠ .finished) : ∃ a, Granted a ∧ (step n s a).isSome = true := by
  have hj := run_joined hrun
  have hthere := Threads.run_there (run_threads hrun)
  obtain ⟨hfail, hnull⟩ := Threads.run_unfailed (fun b hb => by
    obtain ⟨a, ha, heq⟩ := List.mem_filterMap.mp hb
    cases a with
    | job c =>
      cases heq
      exact hok _ ha
    | op => cases heq) (run_threads hrun)
  have hahead := (Threads.run_ahead hn hend hshort hD (run_threads hrun)).1
  have hdef : ∀ t, s.job.pc t ≠ .decode .undefined := by
    intro t ht
    obtain ⟨d, file', E, hr, -⟩ := hahead.busy t _ ht
    cases hr
  have hsafe := run_safe (run_calls hrun) (calls_fit hn hend hshort hD hfits hrun)
  have horder := (run_together hrun fun a ha => by
    have := hok a ha
    cases a with
    | job => trivial
    | op => exact this).order
  by_contra hstuck
  have hstop : ∀ a, Granted a → ¬ (step n s a).isSome = true := fun a ha hs => hstuck ⟨a, ha, hs⟩
  -- whoever has the mutex could go on
  have hmutex : s.job.parseMutex = none := by
    cases hm : s.job.parseMutex with
    | none => rfl
    | some t =>
      have hholds : (s.job.pc t).Holds := (hj.job.owned t).mp hm
      refine absurd (outside_moves hj hfail (t := t) ?_ ?_ ?_ (hdef t) ?_) (hstop _ rfl)
      · intro hp; rw [hp] at hholds; exact hholds
      · intro v hp; rw [hp] at hholds; exact hholds
      · intro hl
        cases hp : s.job.pc t <;> rw [hp] at hl hholds <;> first | exact hl.elim | exact hholds.elim
      · intro d hp; rw [hp] at hholds; exact hholds
  -- so all threads that are left are inside, and wait for each other
  have hleft : ∀ t, s.job.pc t ≠ .absent → (∀ v, s.job.pc t ≠ .exited v) →
      ∃ d, s.job.pc t = .inside d := by
    intro t ht hv
    by_contra hno
    exact hstop (.job (.thread t true [])) rfl (outside_moves hj hfail ht hv (fun _ => hmutex) (hdef t)
      fun d hd => hno ⟨d, hd⟩)
  have hwait : ∀ t ∈ {t | ∃ d, s.job.pc t = .inside d}, ∃ l, s.ems.Waits t l ∧
      ∃ u ∈ {t | ∃ d, s.job.pc t = .inside d}, s.ems.held u l ≠ none := by
    rintro t ⟨d, hd⟩
    rcases inside_moves hj hfail hsafe hd with ⟨a, ha, hs⟩ | ⟨l, hw, u, hu⟩
    · exact absurd hs (hstop a ha)
    · refine ⟨l, hw, u, ?_, hu⟩
      cases hr : s.ems.thread u with
      | none =>
        have hself := horder u
        rw [hr] at hself
        exact absurd (hself l) hu
      | some r =>
        obtain ⟨d', hd', -⟩ := hj.call u r hr
        exact ⟨d', hd'⟩
  have hnobody := Crew.InOrder.none_stuck (ρ := Fin 4) horder hwait
  -- and the main thread can join those that have left
  refine hstop (.job .main) trivial ?_
  obtain ⟨job, hjob⟩ := Option.isSome_iff_exists.mp
    (Threads.advanceMain_isSome (n := n) hbusy hfail fun i hm hi => by
      have hp : s.job.pc i ≠ .absent :=
        hthere.present i hfail (by rw [hm]; exact ⟨Nat.le_refl i, hi⟩)
      by_contra hno
      obtain ⟨d, hd⟩ := hleft i hp fun v hv => hno ⟨v, hv⟩
      exact Set.notMem_empty i (hnobody ▸ show i ∈ {t | ∃ d, s.job.pc t = .inside d} from ⟨d, hd⟩))
  simp [step, Threads.step, hjob, crosses]

/-! ## No schedule goes on for ever -/

/-- The rest of the operation that a thread is in. -/
def codeOf (s : State) (t : Threads.Tid) : Code Nat :=
  (s.ems.thread t).elim .undefined (·.rest)

/-- Where a thread is: its place in the loop, what is left to read of its command and what is
left of its operation. -/
def placeOf (s : State) (t : Threads.Tid) : Nat × Reading Decoded × Code Nat :=
  ((s.job.pc t).rank, (s.job.pc t).reading, codeOf s t)

/-- A thread has got on. -/
def Nearer : Nat × Reading Decoded × Code Nat → Nat × Reading Decoded × Code Nat → Prop :=
  Prod.Lex (· < ·) (Prod.Lex Reading.Behind Program.Behind)

/-- How many commands are left in the file, whether there is a barrier to wait for, how far
the main thread is from the end of the round, how long the rest of the file is, and where
the threads are. -/
abbrev Rest (n : Nat) : Type :=
  Nat × Nat × Nat × Nat × (Fin n → Nat × Reading Decoded × Code Nat)

def toDo (n : Nat) (file : List UInt8) (D : List Decoded) (tr : List Act) (s : State) : Rest n :=
  (D.length - (Threads.decodes (logOf n file tr)).length, s.job.barrier.toNat,
    s.job.main.rank n, s.job.file.length, fun t => placeOf s t)

def Less (n : Nat) : Rest n → Rest n → Prop :=
  Prod.Lex (· < ·) (Prod.Lex (· < ·) (Prod.Lex (· < ·) (Prod.Lex (· < ·) (Descends Nearer))))

theorem less_wellFounded (n : Nat) : WellFounded (Less n) :=
  WellFounded.prod_lex wellFounded_lt <| WellFounded.prod_lex wellFounded_lt <|
    WellFounded.prod_lex wellFounded_lt <| WellFounded.prod_lex wellFounded_lt <|
      descends_wellFounded <| WellFounded.prod_lex wellFounded_lt <|
        WellFounded.prod_lex Reading.behind_wellFounded Program.behind_wellFounded

/-- A thread gets on, and nothing else gets longer. -/
theorem less_of_thread {x y : Rest n} {t : Threads.Tid} (ht : t < n) (hD : x.1 = y.1)
    (hb : x.2.1 = y.2.1) (hm : x.2.2.1 = y.2.2.1) (hfile : x.2.2.2.1 = y.2.2.2.1)
    (hself : Nearer (x.2.2.2.2 ⟨t, ht⟩) (y.2.2.2.2 ⟨t, ht⟩))
    (hother : ∀ u : Fin n, u.val ≠ t → x.2.2.2.2 u = y.2.2.2.2 u) : Less n x y := by
  obtain ⟨x1, x2, x3, x4, x5⟩ := x
  obtain ⟨y1, y2, y3, y4, y5⟩ := y
  dsimp only at hD hb hm hfile hself hother
  subst hD hb hm hfile
  refine .right _ (.right _ (.right _ (.right _ ⟨⟨t, ht⟩, hself, fun u hu => hother u ?_⟩)))
  exact fun h => hu (Fin.ext h)

/-- The commands that are left do not get more, and fewer when one is decoded. -/
theorem left_le (hn : 0 < n) (hend : Terminated file) (hshort : ShortNumerals file)
    (hD : decodeAll (Jobs.decode []) file = some D) (hrun : (machine n file).run tr = some s)
    {b : Threads.Act} (h : step n s (.job b) = some s') :
    (Threads.decodes (logOf n file tr)).length +
        (Threads.decodes (Threads.out s.job b)).length ≤ D.length ∧
      Threads.decodes (logOf n file (tr ++ [.job b])) =
        Threads.decodes (logOf n file tr) ++ Threads.decodes (Threads.out s.job b) := by
  have hlog : Threads.decodes (logOf n file (tr ++ [.job b])) = _ :=
    (congrArg Threads.decodes (logOf_job hrun h)).trans (Threads.decodes_append ..)
  have hrun' : (machine n file).run (tr ++ [.job b]) = some s' :=
    (machine n file).run_snoc.mpr ⟨s, hrun, h⟩
  obtain ⟨hahead, -⟩ := Threads.run_ahead hn hend hshort hD (run_threads hrun')
  have hpre := List.IsPrefix.length_le hahead.decodes_prefix
  rw [show (Threads.machine n file).log Threads.out (threadsOf (tr ++ [.job b])) =
    logOf n file (tr ++ [.job b]) from rfl, hlog, List.length_append] at hpre
  exact ⟨hpre, hlog⟩

/-- The other threads are where they were. -/
theorem place_other {t : Threads.Tid} {alloc : Bool} {junk : List UInt8}
    (h : step n s (.job (.thread t alloc junk)) = some s')
    (hpc : ∀ u, u ≠ t → s'.job.pc u = s.job.pc u) {u : Threads.Tid} (hu : u ≠ t) :
    placeOf s' u = placeOf s u := by
  have hcode : s'.ems.thread u = s.ems.thread u := by
    rcases (job_step h).2 with ⟨-, hems⟩ | ⟨c, hc, hems⟩
    · rw [hems]
    · refine (Crew.step_cases hems).thread_other fun hwho => hu ?_
      rcases crosses_cases hc with ⟨_, _, _, _, _, heq, -, -, rfl⟩ | ⟨_, _, _, _, heq, -, rfl⟩
      · cases heq
        exact hwho
      · cases heq
        exact hwho
  unfold placeOf codeOf
  rw [hpc u hu, hcode]

/-- **Every step** leaves less to do. -/
theorem step_less (hn : 0 < n) (hend : Terminated file) (hshort : ShortNumerals file)
    (hD : decodeAll (Jobs.decode []) file = some D) (hrun : (machine n file).run tr = some s)
    (h : step n s a = some s') : Less n (toDo n file D (tr ++ [a]) s') (toDo n file D tr s) := by
  have hj := run_joined hrun
  have hthere := Threads.run_there (run_threads hrun)
  have hlt : ∀ t, s.job.pc t ≠ .absent → t < n := fun t ht => by
    by_contra hge
    exact ht (hthere.below t (Nat.le_of_not_lt hge))
  cases a with
  | op t x =>
    obtain ⟨hjob, hems⟩ := op_step h
    have hstep := Crew.step_cases hems
    obtain ⟨r, r', hr, hr', hbehind⟩ := hstep.behind
    obtain ⟨d, hin, -⟩ := hj.call t r hr
    have hother : ∀ u : Fin n, u.val ≠ t → placeOf s' u = placeOf s u := by
      intro u hu
      unfold placeOf codeOf
      rw [hjob, hstep.thread_other hu]
    refine less_of_thread (hlt t (by rw [hin]; simp)) ?_ ?_ ?_ ?_ ?_ hother
    · unfold toDo
      rw [logOf_op]
    · rw [toDo, hjob]; rfl
    · rw [toDo, hjob]; rfl
    · rw [toDo, hjob]; rfl
    · -- the thread stays inside, with less of its operation left
      show Nearer (placeOf s' t) (placeOf s t)
      unfold placeOf codeOf
      rw [hjob, hr, hr']
      exact .right _ (.right _ hbehind)
  | job b =>
    obtain ⟨hle, hlog⟩ := left_le hn hend hshort hD hrun h
    have hjob := (job_step h).1
    have hstep := Threads.step_cases hjob
    have hsame : Threads.decodes (Threads.out s.job b) = [] →
        Threads.decodes (logOf n file (tr ++ [.job b])) = Threads.decodes (logOf n file tr) := by
      intro hnone
      rw [hlog, hnone, List.append_nil]
    cases b with
    | main =>
      obtain ⟨-, hmain⟩ := hstep.main_lt
      unfold toDo
      rw [hsame rfl]
      refine .right _ ?_
      rcases hmain with ⟨hb', hb⟩ | ⟨hb, hm⟩
      · rw [hb, hb']
        exact .left _ _ Nat.zero_lt_one
      · rw [hb]
        exact .right _ (.left _ _ hm)
    | thread t alloc junk =>
      have hthread : s.job.pc t ≠ .absent := by
        intro hp
        simp only [Threads.step] at hjob
        split at hjob
        next => cases hjob
        next => simp [Threads.advance, hp] at hjob
      have hother : ∀ u : Fin n, u.val ≠ t → placeOf s' u = placeOf s u := fun u hu =>
        place_other h (fun v hv => hstep.pc_other hv) hu
      rcases hstep.rank_lt with ⟨hrank, hb, hm, hfile, hev⟩ |
        ⟨p, p', hp, hp', hread, hb, hm, hev⟩ | ⟨d, hev⟩
      · refine less_of_thread (hlt t hthread) ?_ ?_ ?_ ?_ (.left _ _ hrank) hother
        · rw [toDo, hsame hev]; rfl
        · rw [toDo, hb]; rfl
        · rw [toDo, hm]; rfl
        · rw [toDo, hfile]; rfl
      -- a read shortens the file, or what is left to read
      · by_cases hshorter : s'.job.file.length < s.job.file.length
        · unfold toDo
          rw [hsame hev, hb, hm]
          exact .right _ (.right _ (.right _ (.left _ _ hshorter)))
        · obtain ⟨hle', hbehind⟩ := (Reading.step_behind hread).resolve_left hshorter
          have hlen : s'.job.file.length = s.job.file.length := by omega
          refine less_of_thread (hlt t hthread) ?_ ?_ ?_ ?_ ?_ hother
          · rw [toDo, hsame hev]; rfl
          · rw [toDo, hb]; rfl
          · rw [toDo, hm]; rfl
          · rw [toDo, hlen]; rfl
          · show Nearer (placeOf s' t) (placeOf s t)
            unfold placeOf
            rw [hp, hp']
            exact .right _ (.left _ _ hbehind)
      · rw [hev, List.length_singleton] at hle
        unfold toDo
        rw [hlog, hev, List.length_append, List.length_singleton]
        exact .left _ _ (by omega)

/-! ## The end -/

theorem Granted.succeeds (h : Granted a) : Succeeds a := by
  cases a with
  | job => trivial
  | op => exact h

/-- A thread outside the operations holds no lock. -/
theorem free_of_back (hrun : (machine n file).run tr = some s) (hok : ∀ a ∈ tr, Succeeds a)
    {t : Threads.Tid} (hback : s.ems.thread t = none) : ∀ l, s.ems.held t l = none := by
  have hself := (run_together hrun hok).order t
  rw [hback] at hself
  exact hself

/-- In a job that is finished all threads are gone, no lock is held and every command of the
file has been called once and has returned. -/
theorem finished_settled (hn : 0 < n) (hend : Terminated file) (hshort : ShortNumerals file)
    (hD : decodeAll (Jobs.decode []) file = some D) (hrun : (machine n file).run tr = some s)
    (hok : ∀ a ∈ tr, Succeeds a) (hf : s.job.main = .finished) :
    (∀ t, s.job.pc t = .absent ∧ s.ems.thread t = none ∧ ∀ l, s.ems.held t l = none) ∧
      ((returns (callsOf n file tr)).map (·.2.1)).Perm (D.filterMap opOf) := by
  obtain ⟨hgone, hdec⟩ := finished_decodes hn hend hshort hD hrun hf
  obtain ⟨hcalls, hback⟩ := absent_calls hrun hgone
  refine ⟨fun t => ⟨hgone t, hback t, free_of_back hrun hok (hback t)⟩, ?_⟩
  rw [hdec] at hcalls
  exact (Crew.returns_perm (run_calls hrun) hback).trans hcalls

/-- Some schedule leads to the end. -/
theorem exists_finish (hn : 0 < n) (hend : Terminated file) (hshort : ShortNumerals file)
    (hD : decodeAll (Jobs.decode []) file = some D) (hfits : Fitting D) :
    ∃ tr s, (machine n file).run tr = some s ∧ (∀ a ∈ tr, Granted a) ∧ s.job.main = .finished := by
  refine Machine.reaches (less_wellFounded n) (toDo n file D)
    (fun tr s hrun hok hbusy => ?_) (show (machine n file).run [] = some _ from rfl) (by simp)
  obtain ⟨a, ha, hs⟩ := exists_step hn hend hshort hD hfits hrun hok hbusy
  obtain ⟨s', h⟩ := Option.isSome_iff_exists.mp hs
  exact ⟨a, s', h, List.forall_mem_append.mpr ⟨hok, List.forall_mem_singleton.mpr ha⟩,
    step_less hn hend hshort hD hrun h⟩

/-- **A job comes to its end.** No schedule of the threads goes on for ever, whatever the
library calls answer. When they succeed and the events of the file fit, a run can only stop
where the job is finished: all threads have been joined, no lock is held, and every command
of the file has been called once, by one of the threads, and has returned. -/
theorem job_finishes (hn : 0 < n) (hend : Terminated file) (hshort : ShortNumerals file) :
    ∃ D, (∀ junk, decodeAll (Jobs.decode junk) file = some D) ∧
      (machine n file).Ends (fun _ => True) (machine n file).init ∧
      (Fitting D → ∀ tr s, (machine n file).run tr = some s → (∀ a ∈ tr, Granted a) →
        (∀ a, Granted a → step n s a = none) →
        s.job.main = .finished ∧
        (∀ t, s.job.pc t = .absent ∧ s.ems.thread t = none ∧ ∀ l, s.ems.held t l = none) ∧
        ((returns (callsOf n file tr)).map (·.2.1)).Perm (D.filterMap opOf)) := by
  obtain ⟨D, hD⟩ := decodeAll_total (jobs_handles []) (jobs_decoder []) hshort
  refine ⟨D, fun junk => (hend.decodeAll_junk hshort junk []).trans hD, ?_, ?_⟩
  · refine Machine.ends (M := machine n file) (W := Rest n) (r := Less n) (less_wellFounded n)
      (P := fun _ => True) (I := fun tr s => (machine n file).run tr = some s)
      (fun tr s => toDo n file D tr s) (fun tr s a s' _ hrun h => ?_)
      (show (machine n file).run [] = some _ from rfl)
    exact ⟨(machine n file).run_snoc.mpr ⟨s, hrun, h⟩, step_less hn hend hshort hD hrun h⟩
  · intro hfits tr s hrun hok hstop
    have hf : s.job.main = .finished := by
      by_contra hbusy
      obtain ⟨a, ha, hs⟩ := exists_step hn hend hshort hD hfits hrun hok hbusy
      rw [hstop a ha] at hs
      cases hs
    exact ⟨hf, finished_settled hn hend hshort hD hrun (fun a ha => (hok a ha).succeeds) hf⟩

theorem fitting_create : Fitting [.create 1 2 2] := by
  intro d hd c hc
  cases List.mem_singleton.mp hd
  cases hc
  exact ⟨by decide, .inl (by decide)⟩

theorem job_finishes_create :
    (machine 3 (bytes "CREATE 1 2 2\n")).Ends (fun _ => True)
        (machine 3 (bytes "CREATE 1 2 2\n")).init ∧
      ∀ tr s, (machine 3 (bytes "CREATE 1 2 2\n")).run tr = some s → (∀ a ∈ tr, Granted a) →
        (∀ a, Granted a → step 3 s a = none) → s.job.main = .finished := by
  obtain ⟨D, hD, hends, hrest⟩ := @job_finishes 3 (bytes "CREATE 1 2 2\n")
    (by decide) (.inr (by decide)) (shortNumerals_of_length (by decide))
  have hfile : decodeAll (Jobs.decode []) (bytes "CREATE 1 2 2\n") = some [.create 1 2 2] := by
    decide
  cases (hD []).symm.trans hfile
  exact ⟨hends, fun tr s hrun hok hstop => (hrest fitting_create tr s hrun hok hstop).1⟩

end Ems.Jobs.Job
