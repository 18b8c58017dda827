import Ems.Jobs.Outcome

/-!
# What a finished job leaves

The list and the `.out` file of a job that is finished, in terms of the commands of its
file alone. Every command for the event system has one result. The creations and
reservations that succeed make the list, one after the other, and the texts of the `SHOW`s
and `LIST`s that succeed make the file, one behind the other: each text is that of the list
which a beginning of the changes makes (`job_outcome`). In which order the commands come is
up to the threads.

A `BARRIER` takes the choice away. At some moment all commands before it have returned and
none behind it has been called (`barrier_cuts`), so that those behind it find in the list
everything that was done before it, and print behind everything that was printed before it.
-/

namespace Ems.Jobs

namespace Programs

/-- The order of the commands does not matter. -/
theorem Explained.of_perm {commands commands' : List Op} {store : Store}
    {results : List (Op × Nat)} {changes : List Op} {shots : List (Op × List Op)}
    (h : Explained commands store results changes shots) (hp : commands.Perm commands') :
    Explained commands' store results changes shots :=
  ⟨h.each.trans hp, h.right, h.kept, h.granted, h.list, h.printed, h.seen, h.file⟩

end Programs

namespace Job

open Base Conc Parse Programs

variable {n : Nat} {file : List UInt8} {tr : List Act} {s : State}

/-- The library calls inside the operations succeed. -/
theorem calls_ok (hrun : (machine n file).run tr = some s) (hok : ∀ a ∈ tr, Succeeds a) :
    ∀ t x, Crew.Act.step t x ∈ callsOf n file tr → x.ok = true := by
  refine (machine n file).run_invariant (I := fun tr _ => (∀ a ∈ tr, Succeeds a) →
    ∀ t x, Crew.Act.step t x ∈ callsOf n file tr → x.ok = true)
    (fun _ t x hx => absurd hx List.not_mem_nil) (fun tr s a s' hs hi h hall t x hx => ?_) tr s hrun
    hok
  obtain ⟨hold, ha⟩ := List.forall_mem_append.mp hall
  rw [callsOf_snoc hs h] at hx
  rcases List.mem_append.mp hx with hx | hx
  · exact hi hold t x hx
  · cases a with
    | op u y =>
      cases List.mem_singleton.mp hx
      exact ha _ (List.mem_singleton_self _)
    | job b =>
      -- what crosses over is a call or a return
      rcases crosses_cases (Option.mem_toList.mp hx) with
        ⟨_, _, _, _, _, -, -, -, heq⟩ | ⟨_, _, _, _, -, -, heq⟩
      · cases heq
      · cases heq

/-- When all threads are gone, what has been decoded explains the store, now and at an
earlier moment when they all were. -/
theorem gone_explained {before after : List Act} {s₀ : State}
    (hbefore : (machine n file).run before = some s₀) (hgone₀ : ∀ t, s₀.job.pc t = .absent)
    (hrun : (machine n file).run (before ++ after) = some s)
    (hok : ∀ a ∈ before ++ after, Succeeds a) (hgone : ∀ t, s.job.pc t = .absent) :
    ∃ results results' changes changes' shots shots',
      Explained ((Threads.decodes (logOf n file before)).filterMap opOf) s₀.ems.store
        results changes shots ∧
      Explained ((Threads.decodes (logOf n file (before ++ after))).filterMap opOf) s.ems.store
        (results ++ results') (changes ++ changes') (shots ++ shots') ∧
      (∀ x ∈ results', ∃ past, changes <+: past ∧ past <+: changes ++ changes' ∧
        x.1.result (made past) = x.2) ∧
      ∀ x ∈ shots', changes <+: x.2 := by
  have hok₀ : ∀ a ∈ before, Succeeds a := fun a ha => hok a (List.mem_append_left _ ha)
  obtain ⟨hcalls₀, hback₀⟩ := absent_calls hbefore hgone₀
  obtain ⟨hcalls, hback⟩ := absent_calls hrun hgone
  have hsplit : callsOf n file (before ++ after) = callsOf n file before ++ _ :=
    (machine n file).log_append callsOut after hbefore
  have hems := run_calls hrun
  have hlib := calls_ok hrun hok
  rw [hsplit] at hems hlib hcalls
  obtain ⟨results', changes, changes', shots, shots', -, h₀, h, hresults, hshots⟩ :=
    run_explained (run_calls hbefore) hback₀
      (fun t => free_of_back hbefore hok₀ (hback₀ t) .event) hems hlib hback
      fun t => free_of_back hrun hok (hback t) .event
  exact ⟨_, results', changes, changes', shots, shots', h₀.of_perm hcalls₀,
    h.of_perm hcalls, hresults, hshots⟩

/-- **What a finished job leaves** is explained by the commands of its file. -/
theorem job_outcome (hn : 0 < n) (hend : Terminated file) (hshort : ShortNumerals file)
    (hrun : (machine n file).run tr = some s) (hok : ∀ a ∈ tr, Succeeds a)
    (hf : s.job.main = .finished) :
    ∃ D, (∀ junk, decodeAll (Jobs.decode junk) file = some D) ∧
      ∃ results changes shots, Explained (D.filterMap opOf) s.ems.store results changes shots := by
  obtain ⟨D, hD⟩ := decodeAll_total (jobs_handles []) (jobs_decoder []) hshort
  obtain ⟨hgone, hdec⟩ := finished_decodes hn hend hshort hD hrun hf
  obtain ⟨_, _, _, _, _, _, -, h, -⟩ := gone_explained
    (show (machine n file).run [] = some _ from rfl) (fun _ => rfl) hrun hok hgone
  rw [List.nil_append, hdec] at h
  exact ⟨D, fun junk => (hend.decodeAll_junk hshort junk []).trans hD, _, _, _, h⟩

theorem job_outcome_create : ∃ tr s results changes shots,
    (machine 3 (bytes "CREATE 1 2 2\n")).run tr = some s ∧
      Explained [.create 1 2 2] s.ems.store results changes shots := by
  have hD : decodeAll (Jobs.decode []) (bytes "CREATE 1 2 2\n") = some [.create 1 2 2] := by decide
  have hend : Terminated (bytes "CREATE 1 2 2\n") := .inr (by decide)
  have hshort := shortNumerals_of_length (s := bytes "CREATE 1 2 2\n") (by decide)
  obtain ⟨tr, s, hrun, hok, hf⟩ := exists_finish (n := 3) (by decide) hend hshort hD fitting_create
  obtain ⟨D, hall, results, changes, shots, h⟩ := job_outcome (by decide) hend hshort hrun
    (fun a ha => (hok a ha).succeeds) hf
  cases (hall []).symm.trans hD
  exact ⟨tr, s, results, changes, shots, hrun, h⟩

/-! ## Barriers -/

/-- All threads were gone when exactly these commands had been decoded. -/
def Gone (n : Nat) (file : List UInt8) (tr : List Act) (front : List Decoded) : Prop :=
  ∃ before after s₀, tr = before ++ after ∧ (machine n file).run before = some s₀ ∧
    (∀ t, s₀.job.pc t = .absent) ∧ Threads.decodes (logOf n file before) = front

theorem Gone.snoc {front : List Decoded} (h : Gone n file tr front) (a : Act) :
    Gone n file (tr ++ [a]) front := by
  obtain ⟨before, after, s₀, rfl, hrest⟩ := h
  exact ⟨before, after ++ [a], s₀, List.append_assoc .., hrest⟩

/-- A step that decodes nothing: only the next round puts the flag down, and all threads are
gone by then. -/
theorem flag_down {j j' : Threads.State} {b : Threads.Act} {events : List Threads.Event}
    (hi : Threads.Inv n j) (h : Threads.Step n j b events j') (hb : j.barrier = true) :
    j'.barrier = true ∨ ∀ t, j.pc t = .absent := by
  cases h
  case restart h hin _ => exact .inr (hi.all_absent h hin)
  case decoded => exact .inl (by simp [Threads.State.goto, Threads.effect_barrier, hb])
  all_goals exact .inl hb

/-- A command is decoded only while the flag is down, and a barrier puts it up. -/
theorem decodes_out {j j' : Threads.State} {b : Threads.Act} {events : List Threads.Event}
    (hi : Threads.Inv n j) (h : Threads.Step n j b events j') :
    Threads.decodes events = [] ∨ j.barrier = false ∧ ∃ d, Threads.decodes events = [d] ∧
      (d = .barrier → j'.barrier = true) := by
  cases h
  case decoded u alloc junk d hp =>
    have hb := hi.opened _ _ hp
    have hflag : d = .barrier → ((Threads.effect n j d).goto u (.unlock d)).barrier = true := by
      rintro rfl
      rfl
    cases d <;> first | exact .inl rfl | exact .inr ⟨hb, _, rfl, hflag⟩
  case nothing => exact .inl (Threads.decodes_finished _ _)
  case inside => exact .inl (Threads.decodes_finished _ _)
  all_goals exact .inl rfl

/-- Once a barrier has been decoded, no more is decoded until all threads are gone. -/
theorem run_cut (hrun : (machine n file).run tr = some s) (front : List Decoded) :
    front ++ [.barrier] <+: Threads.decodes (logOf n file tr) →
      s.job.barrier = true ∧ Threads.decodes (logOf n file tr) = front ++ [.barrier] ∨
        Gone n file tr (front ++ [.barrier]) := by
  refine (machine n file).run_invariant
    (I := fun tr s => front ++ [.barrier] <+: Threads.decodes (logOf n file tr) →
      s.job.barrier = true ∧ Threads.decodes (logOf n file tr) = front ++ [.barrier] ∨
        Gone n file tr (front ++ [.barrier]))
    (fun h => ?_) (fun tr s a s' hs hi h hpre => ?_) tr s hrun
  · exact absurd (List.prefix_nil.mp h) (by simp)
  cases a with
  | op t x =>
    rw [logOf_op] at hpre ⊢
    rw [(op_step (n := n) h).1]
    exact (hi hpre).imp id fun hgone => hgone.snoc _
  | job b =>
    have hinv := (run_joined hs).job
    have hstep := Threads.step_cases (job_step h).1
    have hlog : Threads.decodes (logOf n file (tr ++ [.job b])) = _ :=
      (congrArg Threads.decodes (logOf_job hs h)).trans (Threads.decodes_append ..)
    rw [hlog] at hpre ⊢
    rcases decodes_out hinv hstep with hnone | ⟨hdown, d, hd, hflag⟩
    · rw [hnone, List.append_nil] at hpre ⊢
      rcases hi hpre with ⟨hb, hsame⟩ | hgone
      · rcases flag_down hinv hstep hb with hb' | habsent
        · exact .inl ⟨hb', hsame⟩
        · exact .inr ⟨tr, _, s, rfl, hs, habsent, hsame⟩
      · exact .inr (hgone.snoc _)
    · rw [hd] at hpre ⊢
      rcases List.prefix_concat_iff.mp hpre with heq | hold
      · -- it is this barrier
        obtain ⟨rfl, hbar⟩ := List.append_inj' heq rfl
        cases hbar
        exact .inl ⟨hflag rfl, rfl⟩
      · rcases hi hold with ⟨hb, -⟩ | hgone
        · rw [hdown] at hb
          cases hb
        · exact .inr (hgone.snoc _)

/-- **A barrier cuts a job in two.** At some moment all threads are gone, with everything
done that is before the barrier and nothing of what is behind it. What is done then is done
with all of that there, and printed behind all of that. -/
theorem barrier_cuts {D₁ D₂ : List Decoded} {junk : List UInt8} (hn : 0 < n)
    (hend : Terminated file) (hshort : ShortNumerals file)
    (hD : decodeAll (Jobs.decode junk) file = some (D₁ ++ .barrier :: D₂))
    (hrun : (machine n file).run tr = some s) (hok : ∀ a ∈ tr, Succeeds a)
    (hf : s.job.main = .finished) :
    ∃ before after s₀, tr = before ++ after ∧ (machine n file).run before = some s₀ ∧
      (∀ t, s₀.job.pc t = .absent) ∧
      ∃ results results' changes changes' shots shots',
        Explained (D₁.filterMap opOf) s₀.ems.store results changes shots ∧
        Explained (D₁.filterMap opOf ++ D₂.filterMap opOf) s.ems.store (results ++ results')
          (changes ++ changes') (shots ++ shots') ∧
        (results'.map (·.1)).Perm (D₂.filterMap opOf) ∧
        (∀ x ∈ results', ∃ past, changes <+: past ∧ past <+: changes ++ changes' ∧
          x.1.result (made past) = x.2) ∧
        ∀ x ∈ shots', changes <+: x.2 := by
  have hD' : decodeAll (Jobs.decode []) file = some (D₁ ++ .barrier :: D₂) :=
    (hend.decodeAll_junk hshort [] junk).trans hD
  obtain ⟨hgone, hdec⟩ := finished_decodes hn hend hshort hD' hrun hf
  have hcut : Gone n file tr (D₁ ++ [.barrier]) := by
    have hpre : D₁ ++ [.barrier] <+: Threads.decodes (logOf n file tr) := by
      rw [hdec]
      exact ⟨D₂, by rw [List.append_assoc]; rfl⟩
    rcases run_cut hrun D₁ hpre with ⟨-, hsame⟩ | hcut
    · exact ⟨tr, [], s, (List.append_nil _).symm, hrun, hgone, hsame⟩
    · exact hcut
  obtain ⟨before, after, s₀, rfl, hbefore, hgone₀, hdec₀⟩ := hcut
  obtain ⟨results, results', changes, changes', shots, shots', h₀, h, hresults, hshots⟩ :=
    gone_explained hbefore hgone₀ hrun hok hgone
  have hfront : (D₁ ++ [Decoded.barrier]).filterMap opOf = D₁.filterMap opOf := by
    rw [List.filterMap_append]
    exact List.append_nil _
  have hwhole : (D₁ ++ Decoded.barrier :: D₂).filterMap opOf =
      D₁.filterMap opOf ++ D₂.filterMap opOf := List.filterMap_append
  rw [hdec₀, hfront] at h₀
  rw [hdec, hwhole] at h
  refine ⟨before, after, s₀, rfl, hbefore, hgone₀, results, results', changes, changes', shots,
    shots', h₀, h, ?_, hresults, hshots⟩
  -- the results of the first half are those of the first commands
  have heach := h.each
  rw [List.map_append] at heach
  exact (List.perm_append_left_iff _).mp ((h₀.each.append_right _).symm.trans heach)

/-- A file with a barrier between a `CREATE` and a `SHOW`. -/
def createThenShow : List UInt8 := bytes "CREATE 1 1 1\nBARRIER\nSHOW 1\n"

theorem fitting_createThenShow : Fitting [.create 1 1 1, .barrier, .showEvent 1] := by
  intro d hd c hc
  simp only [List.mem_cons, List.not_mem_nil, or_false] at hd
  rcases hd with rfl | rfl | rfl
  · cases hc
    exact ⟨by decide, .inl (by decide)⟩
  · cases hc
  · cases hc
    trivial

theorem barrier_cuts_createThenShow : ∃ tr s, ∃ changes changes' : List Op,
    ∃ shots shots' : List (Op × List Op),
    (machine 2 createThenShow).run tr = some s ∧ s.job.main = .finished ∧
      s.ems.store.list = made (changes ++ changes') ∧
      s.ems.store.file = (shots ++ shots').flatMap (fun x => x.1.text (made x.2)) ∧
      ∀ x ∈ shots', changes <+: x.2 := by
  have hD : decodeAll (Jobs.decode []) createThenShow =
      some ([.create 1 1 1] ++ .barrier :: [.showEvent 1]) := by decide
  have hend : Terminated createThenShow := .inr (by decide)
  have hshort : ShortNumerals createThenShow := shortNumerals_of_countP (by decide)
  obtain ⟨tr, s, hrun, hok, hf⟩ := exists_finish (n := 2) (by decide) hend hshort hD
    fitting_createThenShow
  obtain ⟨before, after, s₀, -, -, -, results, results', changes, changes', shots, shots', -, h, -,
    -, hshots⟩ := barrier_cuts (by decide) hend hshort hD hrun (fun a ha => (hok a ha).succeeds) hf
  exact ⟨tr, s, changes, changes', shots, shots', hrun, hf, h.list, h.file, hshots⟩

end Job

end Ems.Jobs
