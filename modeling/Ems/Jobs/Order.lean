import Ems.Jobs.Barrier
import Ems.Parse.Junk

/-!
# Parallel decoding is sequential decoding

However many threads share the job file, the commands they decode, in the order in
which they hold `parseMutex`, are those of `decodeAll`: a command is decoded by many
reads, but nobody else reads before it is complete. `Ahead` says it for a run that
is under way: what has been decoded, what the thread in the parser will make of the
bytes it still has to read, and what the rest of the file holds are together the
commands of the file. `Ending` is the end of the run: a round without a barrier is
over when the file is.
-/

namespace Ems.Jobs.Threads

open Base Conc Parse

variable {n : Nat} {s s' : State} {a : Act} {events : List Event}

/-! ## The commands still to come -/

/-- The decoded commands `D` of the file, as far as a run has got. -/
structure Ahead (D : List Decoded) (log : List Event) (s : State) : Prop where
  terminated : Terminated s.file
  short : ShortNumerals s.file
  free : (∀ t p, s.pc t ≠ .decode p) →
    ∃ E, decodeAll (Jobs.decode []) s.file = some E ∧ D = decodes log ++ E
  busy : ∀ t p, s.pc t = .decode p → ∃ d file' E, p.run s.file = some (d, file') ∧
    decodeAll (Jobs.decode []) file' = some E ∧ D = decodes log ++ (d.listed ++ E) ∧
    (d = .eoc → file' = [])

variable {D : List Decoded} {log : List Event}

/-- A thread outside the parser that stays outside. -/
theorem ahead_goto {t : Tid} {pc : Pc} (h : Ahead D log s) (hfrom : ∀ p, s.pc t ≠ .decode p)
    (hto : ∀ p, pc ≠ .decode p) (hev : decodes events = []) :
    Ahead D (log ++ events) (s.goto t pc) where
  terminated := h.terminated
  short := h.short
  free := by
    intro hnone
    obtain ⟨E, hE, hD⟩ := h.free fun u p hu => by
      by_cases ht : u = t
      · subst ht; exact hfrom p hu
      · exact hnone u p (by rw [goto_other ht]; exact hu)
    exact ⟨E, hE, by rw [decodes_append, hev, List.append_nil]; exact hD⟩
  busy := by
    intro u p hu
    by_cases ht : u = t
    · subst ht
      rw [goto_self] at hu
      exact absurd hu (hto p)
    · rw [goto_other ht] at hu
      rw [decodes_append, hev, List.append_nil]
      exact h.busy u p hu

/-- Only what the threads and the file do counts. -/
theorem Ahead.congr (h : Ahead D log s) (hfile : s'.file = s.file) (hpc : s'.pc = s.pc) :
    Ahead D log s' := by
  refine ⟨by rw [hfile]; exact h.terminated, by rw [hfile]; exact h.short, ?_, ?_⟩
  · rw [hfile, hpc]; exact h.free
  · rw [hfile, hpc]; exact h.busy

/-- A thread begins to decode: what it will decode is the next command of the file. -/
theorem ahead_opened {t : Tid} (hi : Inv n s) (h : Ahead D log s) (ht : s.pc t = .barrierTest)
    (j : List UInt8) : Ahead D log (s.goto t (.decode (Jobs.decode j))) where
  terminated := h.terminated
  short := h.short
  free := fun hnone => absurd (goto_self s t _) (hnone t _)
  busy := by
    intro u p hu
    -- `t` has the mutex, so nobody else is in the middle of a command
    have hnone : ∀ u p, s.pc u ≠ .decode p := by
      intro u p hp
      have := hi.holds_unique (t := u) (u := t) (by rw [hp]; trivial) (by rw [ht]; trivial)
      rw [this, ht] at hp
      cases hp
    by_cases hut : u = t
    · subst hut
      rw [goto_self] at hu
      cases hu
      obtain ⟨E, hE, hD⟩ := h.free hnone
      obtain ⟨d, file', hrun, hsuf⟩ := decode_total (jobs_handles []) h.short
      have hstep := decodeAll_listed (jobs_decoder []) hrun
      rw [hE] at hstep
      obtain ⟨E', hE', hEE'⟩ := Option.map_eq_some_iff.mp hstep.symm
      refine ⟨d, file', E', ?_, hE', by rw [hEE']; exact hD, fun heoc => ?_⟩
      · rw [← hrun]
        exact h.terminated.decode_junk h.short j []
      · by_cases hs : s.file = []
        · rw [hs] at hsuf
          exact List.suffix_nil.mp hsuf
        · exact absurd heoc ((jobs_decoder []).progress hs hrun).1
    · rw [goto_other hut] at hu
      exact absurd hu (hnone u p)

/-- A single read changes nothing of what will come out. -/
theorem ahead_read {t : Tid} {p p' : Reading Decoded} {file' : List UInt8} (hi : Inv n s)
    (h : Ahead D log s) (ht : s.pc t = .decode p) (hp : p.step s.file = some (p', file')) :
    Ahead D log (State.goto { s with file := file' } t (.decode p')) where
  terminated := h.terminated.suffix (Reading.step_suffix hp)
  short := h.short.of_infix (Reading.step_suffix hp).isInfix
  free := fun hnone => absurd (goto_self { s with file := file' } t _) (hnone t _)
  busy := by
    intro u q hu
    by_cases hut : u = t
    · subst hut
      rw [goto_self] at hu
      cases hu
      obtain ⟨d, file'', E, hrun, hrest⟩ := h.busy u p ht
      -- one read less to do, with the same outcome
      exact ⟨d, file'', E, (Reading.step_run hp).trans hrun, hrest⟩
    · rw [goto_other hut] at hu
      exact absurd (hi.decoder_unique ht (show s.pc u = .decode q from hu)) hut

/-- The command is there: it is the next one of the file. -/
theorem ahead_decoded {t : Tid} {d : Decoded} (hi : Inv n s) (h : Ahead D log s)
    (ht : s.pc t = .decode (.done d)) :
    Ahead D (log ++ d.listed.map (.decoded t)) (s.goto t (.unlock d)) where
  terminated := h.terminated
  short := h.short
  free := by
    intro _
    obtain ⟨d', file', E, hrun, hE, hD, -⟩ := h.busy t _ ht
    cases hrun
    refine ⟨E, hE, ?_⟩
    have hev : decodes (d.listed.map (.decoded t)) = d.listed := by cases d <;> rfl
    rw [decodes_append, hev, List.append_assoc]
    exact hD
  busy := by
    intro u p hu
    by_cases hut : u = t
    · subst hut
      rw [goto_self] at hu
      cases hu
    · rw [goto_other hut] at hu
      exact absurd (hi.decoder_unique ht hu) hut

theorem step_ahead (hi : Inv n s) (hh : Ahead D log s) (h : Step n s a events s') :
    Ahead D (log ++ events) s' := by
  cases h with
  | create h =>
    exact (ahead_goto hh (fun p hp => by rw [hi.fresh h] at hp; cases hp) (by simp) rfl).congr rfl rfl
  | created => rw [List.append_nil]; exact hh.congr rfl rfl
  | joinNull => rw [List.append_nil]; exact hh.congr rfl rfl
  | join _ _ h => exact (ahead_goto hh (by rw [h]; simp) (by simp) rfl).congr rfl rfl
  | restart => rw [List.append_nil]; exact hh.congr rfl rfl
  | finish => rw [List.append_nil]; exact hh.congr rfl rfl
  | @start t a _ h => exact ahead_goto hh (by rw [h]; simp) (by cases a <;> simp) rfl
  | opened h => rw [List.append_nil]; exact ahead_opened hi hh h _
  | read h hp => rw [List.append_nil]; exact ahead_read hi hh h hp
  | decoded h => exact (ahead_decoded hi hh h).congr (by simp [State.goto]) (by simp)
  | nothing h =>
    exact ahead_goto hh (by rw [h]; simp) (next_ne_decode _) (decodes_finished _ _)
  | inside h =>
    exact ahead_goto hh (by rw [h]; simp) (next_ne_decode _) (decodes_finished _ _)
  | _ h => exact (ahead_goto hh (by rw [h]; simp) (by simp) rfl).congr rfl rfl

/-! ## The end of the file -/

/-- A thread that has met the end of the file. -/
def Pc.AtEnd : Pc → Prop
  | .unlock d => d = .eoc
  | .execute d => d = .eoc
  | .inside d => d = .eoc
  | .exited (some v) => v ≠ threadFoundBarrier
  | _ => False

/-- A thread that has met a barrier. -/
def Pc.AtBarrier : Pc → Prop
  | .barrierUnlock => True
  | .unlock d => d = .barrier
  | .execute d => d = .barrier
  | .inside d => d = .barrier
  | .exited (some v) => v = threadFoundBarrier
  | _ => False

/-- A thread leaves without a barrier only at the end of the file, and so does the
main thread. -/
structure Ending (s : State) : Prop where
  atEnd : ∀ t, (s.pc t).AtEnd → s.file = []
  atBarrier : ∀ t, (s.pc t).AtBarrier → s.barrier = true
  joined : ∀ i, s.main = .join (i + 1) → s.barrier = false → s.file = []
  finished : s.main = .finished → s.file = []

theorem next_atEnd {d : Decoded} (h : (next d).AtEnd) : d = .eoc := by
  cases d <;> first | rfl | exact absurd rfl h | exact absurd h id

theorem next_atBarrier {d : Decoded} (h : (next d).AtBarrier) : d = .barrier := by
  cases d <;> first | rfl | cases h

/-- A thread moves. -/
theorem ending_goto {t : Tid} {pc : Pc} (h : Ending s) (hpc : s'.pc = (s.goto t pc).pc)
    (hmain : s'.main = s.main) (hfile : s.file = [] → s'.file = [])
    (hbarrier : s.barrier = true → s'.barrier = true) (hend : pc.AtEnd → s'.file = [])
    (hbar : pc.AtBarrier → s'.barrier = true) : Ending s' := by
  have hfalse : s'.barrier = false → s.barrier = false := by
    intro hb
    cases hs : s.barrier with
    | false => rfl
    | true => rw [hbarrier hs] at hb; cases hb
  refine ⟨fun u hu => ?_, fun u hu => ?_, fun i hi hb => ?_, fun hf => ?_⟩
  · rw [hpc] at hu
    by_cases ht : u = t
    · subst ht; rw [goto_self] at hu; exact hend hu
    · rw [goto_other ht] at hu; exact hfile (h.atEnd u hu)
  · rw [hpc] at hu
    by_cases ht : u = t
    · subst ht; rw [goto_self] at hu; exact hbar hu
    · rw [goto_other ht] at hu; exact hbarrier (h.atBarrier u hu)
  · rw [hmain] at hi
    exact hfile (h.joined i hi (hfalse hb))
  · rw [hmain] at hf
    exact hfile (h.finished hf)

/-- The main thread moves a thread that has met neither. -/
theorem ending_main {t : Tid} {pc : Pc} {m : Main} (h : Ending s)
    (hend : ¬ pc.AtEnd) (hbar : ¬ pc.AtBarrier)
    (hjoined : ∀ i, m = .join (i + 1) → s.barrier = false → s.file = []) (hm : m ≠ .finished) :
    Ending { s.goto t pc with main := m } := by
  refine ⟨fun u hu => ?_, fun u hu => ?_, hjoined, fun hf => absurd hf hm⟩
  · by_cases ht : u = t
    · subst ht
      have hu' : ((s.goto u pc).pc u).AtEnd := hu
      rw [goto_self] at hu'
      exact absurd hu' hend
    · have hu' : ((s.goto t pc).pc u).AtEnd := hu
      rw [goto_other ht] at hu'
      exact h.atEnd u hu'
  · by_cases ht : u = t
    · subst ht
      have hu' : ((s.goto u pc).pc u).AtBarrier := hu
      rw [goto_self] at hu'
      exact absurd hu' hbar
    · have hu' : ((s.goto t pc).pc u).AtBarrier := hu
      rw [goto_other ht] at hu'
      exact h.atBarrier u hu'

theorem step_ending (hn : 0 < n) (hi : Inv n s) (hh : Ahead D log s) (he : Ending s)
    (h : Step n s a events s') : Ending s' := by
  cases h with
  | create => exact ending_main he id id (by simp) (by simp)
  | created h => exact ⟨he.atEnd, he.atBarrier, by simp, by simp⟩
  | joinNull => exact ⟨he.atEnd, he.atBarrier, by simp, by simp⟩
  | @join i v h hin hp =>
    refine ending_main he id id (fun _ _ hb => ?_) (by simp)
    -- a thread leaves at the end of the file or because of a barrier
    by_cases hv : v = threadFoundBarrier
    · -- it has set the flag
      have hset := he.atBarrier i (by rw [hp]; exact hv)
      rw [hb] at hset
      cases hset
    · exact he.atEnd i (by rw [hp]; exact hv)
  | restart h hin =>
    have hgone := hi.all_absent h hin
    refine ⟨fun t ht => ?_, fun t ht => ?_, by simp, by simp⟩
    · have ht' : (s.pc t).AtEnd := ht
      rw [hgone t] at ht'
      exact absurd ht' id
    · have ht' : (s.pc t).AtBarrier := ht
      rw [hgone t] at ht'
      exact absurd ht' id
  | @finish i h hin hb =>
    refine ⟨he.atEnd, he.atBarrier, by simp, fun _ => ?_⟩
    obtain ⟨k, rfl⟩ : ∃ k, i = k + 1 := ⟨i - 1, by omega⟩
    exact he.joined k h hb
  | @start t a =>
    cases a with
    | true =>
      show Ending (s.goto t .lock)
      exact ending_goto he rfl rfl id id False.elim False.elim
    | false =>
      show Ending (s.goto t (.exited none))
      exact ending_goto he rfl rfl id id False.elim False.elim
  | closed _ hb => exact ending_goto he rfl rfl id id False.elim fun _ => hb
  | barrierUnlock h =>
    exact ending_goto he rfl rfl id id (fun hv => absurd rfl hv)
      fun _ => he.atBarrier _ (by rw [h]; trivial)
  | read h hp =>
    refine ending_goto he rfl rfl (fun hf => ?_) id False.elim False.elim
    have hsuf := Reading.step_suffix hp
    rw [hf] at hsuf
    exact List.suffix_nil.mp hsuf
  | @decoded t _ _ d h =>
    have hpc : ((effect n s d).goto t (.unlock d)).pc = (s.goto t (.unlock d)).pc := by simp
    refine ending_goto he hpc (by simp [State.goto]) (by simp [State.goto]) (fun hb => ?_)
      (fun hd => ?_) (fun hd => ?_)
    · show (effect n s d).barrier = true
      rw [effect_barrier, hb]
      rfl
    · obtain ⟨d', file', E, hrun, -, -, hfile⟩ := hh.busy t _ h
      cases hrun
      show (effect n s d).file = []
      rw [effect_file]
      exact hfile hd
    · show (effect n s d).barrier = true
      have hd' : d = .barrier := hd
      rw [hd']
      rfl
  | unlock h =>
    exact ending_goto he rfl rfl id id (fun hd => he.atEnd _ (by rw [h]; exact hd))
      fun hd => he.atBarrier _ (by rw [h]; exact hd)
  | execute h =>
    exact ending_goto he rfl rfl id id (fun hd => he.atEnd _ (by rw [h]; exact hd))
      fun hd => he.atBarrier _ (by rw [h]; exact hd)
  | nothing h =>
    exact ending_goto he rfl rfl id id (fun hd => he.atEnd _ (by rw [h]; exact next_atEnd hd))
      fun hd => he.atBarrier _ (by rw [h]; exact next_atBarrier hd)
  | inside h =>
    exact ending_goto he rfl rfl id id (fun hd => he.atEnd _ (by rw [h]; exact next_atEnd hd))
      fun hd => he.atBarrier _ (by rw [h]; exact next_atBarrier hd)
  | _ => exact ending_goto he rfl rfl id id False.elim False.elim

/-! ## Whole runs -/

variable {file : List UInt8} {tr : List Act}

theorem init_ahead (hend : Terminated file) (hshort : ShortNumerals file)
    (hD : decodeAll (Jobs.decode []) file = some D) : Ahead D [] (State.init file) where
  terminated := hend
  short := hshort
  free := fun _ => ⟨D, hD, rfl⟩
  busy := fun t p h => by cases h

theorem init_ending : Ending (State.init file) where
  atEnd := fun t h => False.elim h
  atBarrier := fun t h => False.elim h
  joined := by simp [State.init]
  finished := by simp [State.init]

theorem run_ahead (hn : 0 < n) (hend : Terminated file) (hshort : ShortNumerals file)
    (hD : decodeAll (Jobs.decode []) file = some D) (h : (machine n file).run tr = some s) :
    Ahead D ((machine n file).log out tr) s ∧ Ending s := by
  refine (machine n file).run_invariant (I := fun tr s =>
    Ahead D ((machine n file).log out tr) s ∧ Ending s)
    ⟨init_ahead hend hshort hD, init_ending⟩ ?_ tr s h
  intro tr s a s' hrun ih hstep
  have hi := (run_inv hrun).1
  have h := step_cases hstep
  rw [(machine n file).log_snoc out hrun hstep]
  exact ⟨step_ahead hi ih.1 h, step_ending hn hi ih.1 ih.2 h⟩

/-- What is decoded is always a beginning of the commands of the file. -/
theorem Ahead.decodes_prefix (h : Ahead D log s) : decodes log <+: D := by
  by_cases hb : ∃ t p, s.pc t = .decode p
  · obtain ⟨t, p, ht⟩ := hb
    obtain ⟨d, file', E, -, -, hD, -⟩ := h.busy t p ht
    rw [hD]
    exact List.prefix_append _ _
  · obtain ⟨E, -, hD⟩ := h.free fun t p ht => hb ⟨t, p, ht⟩
    rw [hD]
    exact List.prefix_append _ _

/-- Any number of threads decodes from the file the commands that one decodes, in
that order; with the mutex held it is a beginning of them, and all of them when the
job is finished. The thread that decoded a command is the one that executes it, once
and with the same arguments: it has executed all of its commands for the event
system but the one it is about to call. And no parser runs into undefined
behaviour. -/
theorem decoding_sequential (hn : 0 < n) (hend : Terminated file) (hshort : ShortNumerals file)
    (hrun : (machine n file).run tr = some s) :
    ∃ D, (∀ junk, decodeAll (Jobs.decode junk) file = some D) ∧
      decodes ((machine n file).log out tr) <+: D ∧
      (s.main = .finished → decodes ((machine n file).log out tr) = D) ∧
      (∀ t, (decodedBy t ((machine n file).log out tr)).filter isOp =
        executedBy t ((machine n file).log out tr) ++ (s.pc t).due) ∧
      (s.main = .finished → ∀ t, executedBy t ((machine n file).log out tr) =
        (decodedBy t ((machine n file).log out tr)).filter isOp) ∧
      ∀ t, s.pc t ≠ .decode .undefined := by
  obtain ⟨D, hD⟩ := decodeAll_total (jobs_handles []) (jobs_decoder []) hshort
  obtain ⟨hi, hp, -, -⟩ := run_inv hrun
  obtain ⟨ha, he⟩ := run_ahead hn hend hshort hD hrun
  -- all threads have been joined
  have hgone : s.main = .finished → ∀ t, s.pc t = .absent := by
    intro hf t
    by_cases ht : s.pc t = .absent
    · exact ht
    · have hr := hi.alive t ht
      rw [hf] at hr
      exact absurd hr id
  refine ⟨D, fun junk => (hend.decodeAll_junk hshort junk []).trans hD, ha.decodes_prefix, ?_,
    fun t => (hp t).2, ?_, ?_⟩
  · intro hf
    obtain ⟨E, hE, hDE⟩ := ha.free fun t p ht => by rw [hgone hf t] at ht; cases ht
    rw [he.finished hf, decodeAll_nil (jobs_decoder [])] at hE
    cases hE
    rw [hDE, List.append_nil]
  · intro hf t
    have hdue := (hp t).2
    rw [hgone hf t] at hdue
    rw [hdue]
    exact (List.append_nil _).symm
  · intro t ht
    obtain ⟨d, file', E, hr, -⟩ := ha.busy t _ ht
    cases hr

/-- Two threads: one decodes `LIST`, the other one `HELP` before the first is done
with it, and both meet the end of the file. -/
def listHelp : List Act :=
  List.replicate 3 .main ++ List.replicate 9 (.thread 0 true []) ++
    List.replicate 10 (.thread 1 true []) ++ List.replicate 9 (.thread 0 true []) ++
    List.replicate 7 (.thread 1 true []) ++ List.replicate 3 .main

theorem decoding_sequential_listHelp :
    ∃ s, (machine 2 (bytes "LIST\nHELP\n")).run listHelp = some s ∧ s.main = .finished ∧
      decodes ((machine 2 (bytes "LIST\nHELP\n")).log out listHelp) = [.listEvents, .help] ∧
      decodeAll (Jobs.decode (bytes "12")) (bytes "LIST\nHELP\n") = some [.listEvents, .help] := by
  have hmain : ((machine 2 (bytes "LIST\nHELP\n")).run listHelp).map (·.main) =
      some .finished := by decide
  obtain ⟨s, hs, hf⟩ := Option.map_eq_some_iff.mp hmain
  obtain ⟨D, hD, -, hall, -⟩ := decoding_sequential (by decide) (Or.inr (by decide))
    (shortNumerals_of_length (by decide)) hs
  have hlog : decodes ((machine 2 (bytes "LIST\nHELP\n")).log out listHelp) =
      [.listEvents, .help] := rfl
  exact ⟨s, hs, hf, hlog, by rw [hD, ← hall hf, hlog]⟩

end Ems.Jobs.Threads
