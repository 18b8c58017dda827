import Ems.Jobs.Barrier

/-!
# Pending waits

`WAIT` sets a flag of its target; a thread looks at its own flag at the top of its
loop and sleeps when it is set. It looks once. `parseMutex` is free while it
sleeps, so another thread can decode a second `WAIT` for it; the sleeper then
takes the mutex back and goes on to the next command with the flag set
(`second_wait_ignored`). `BARRIER` has a test of its own behind the sleep and is
not overlooked.

`Awake` is the condition: no `WAIT` is decoded for a thread that is inside
`thread_wait`. A thread anywhere else either still has its look ahead of it or
has the mutex, and then nobody decodes (`waits_honoured`).
-/

namespace Ems.Jobs.Threads

open Base Conc Parse

variable {n : Nat} {s s' : State} {a : Act} {events : List Event}

/-- `inject_wait` sets the flag of thread `t`. -/
def Targets (n : Nat) (target : Option UInt32) (t : Tid) : Prop :=
  match target with
  | some targetTid => targetTid.toNat = t ∧ t < n
  | none => t < n

/-- The thread is in `thread_wait`, or behind it without the mutex. -/
def Pc.Asleep : Pc → Prop
  | .sleep _ => True
  | .relock => True
  | _ => False

/-- The thread has looked at its flag and has not yet decoded its next command. -/
def Pc.Looked : Pc → Prop
  | .waitUnlock _ => True
  | .sleep _ => True
  | .relock => True
  | .barrierTest => True
  | .decode _ => True
  | _ => False

/-- A `WAIT` is decoded only while none of its targets is asleep. -/
def Awake (n : Nat) (s : State) : Act → Prop
  | .main => True
  | .thread u _ _ =>
    match s.pc u with
    | .decode (.done (.wait _ target)) => ∀ t, Targets n target t → ¬ (s.pc t).Asleep
    | _ => True

/-- A thread that has looked has no wait pending, unless the round is over. -/
def WaitInv (s : State) : Prop :=
  ∀ t, (s.pc t).Looked → s.threadWaits t = false ∨ s.barrier = true

/-- Only a `WAIT` sets a flag, and only those of its targets. -/
theorem injectWait_flag {target : Option UInt32} {delay : UInt32} {t : Tid}
    (h : (injectWait n target delay s).2.threadWaits t = true) :
    s.threadWaits t = true ∨ Targets n target t := by
  unfold injectWait at h
  split at h
  next targetTid =>
    split at h
    next => exact Or.inl h
    next hlt =>
      by_cases ht : t = targetTid.toNat
      · exact Or.inr ⟨ht.symm, by rw [ht]; exact Nat.lt_of_not_le hlt⟩
      · have hset : Function.update s.threadWaits targetTid.toNat true t = true := h
        rw [Function.update_of_ne ht] at hset
        exact Or.inl hset
  next =>
    by_cases ht : t < n
    · exact Or.inr ht
    · exact Or.inl (by simpa only [if_neg ht] using h)

/-- A thread's move that leaves the flags and the barrier alone. -/
theorem waitInv_goto {t : Tid} {pc : Pc} (hi : WaitInv s)
    (hpc : pc.Looked → s.threadWaits t = false ∨ s.barrier = true) :
    ∀ u, ((s.goto t pc).pc u).Looked → s.threadWaits u = false ∨ s.barrier = true := by
  intro u hu
  by_cases ht : u = t
  · subst ht
    rw [goto_self] at hu
    exact hpc hu
  · rw [goto_other ht] at hu
    exact hi u hu

theorem next_not_looked (d : Decoded) : ¬ (next d).Looked := by
  cases d <;> simp [next, Pc.Looked]

/-- A thread decodes its command; the others may be told to wait. -/
theorem waitInv_decoded {u : Tid} {alloc : Bool} {junk : List UInt8} {d : Decoded} (hi : Inv n s)
    (hw : WaitInv s) (hC : Awake n s (.thread u alloc junk)) (h : s.pc u = .decode (.done d)) :
    WaitInv ((effect n s d).goto u (.unlock d)) := by
  intro t ht
  by_cases hut : t = u
  · subst hut
    rw [goto_self] at ht
    exact absurd ht id
  · rw [goto_other hut, effect_pc] at ht
    -- the decoder has `parseMutex`, so `t` does not
    have hout : ¬ (s.pc t).Holds := fun hin =>
      hut (hi.holds_unique hin (by rw [h]; trivial))
    show (effect n s d).threadWaits t = false ∨ (effect n s d).barrier = true
    rw [effect_barrier]
    rcases hw t ht with hflag | hbar
    · cases d with
      | wait delay target =>
        left
        rw [← Bool.not_eq_true]
        intro hset
        rcases injectWait_flag hset with hold | htarget
        · rw [hflag] at hold
          cases hold
        · -- a target that has looked and is not asleep would have the mutex
          simp only [Awake, h] at hC
          have hawake := hC t htarget
          cases hp : s.pc t <;> rw [hp] at ht hout hawake <;>
            simp only [Pc.Looked, Pc.Holds, Pc.Asleep, not_true_eq_false] at ht hout hawake
      | _ => exact Or.inl hflag
    · right
      rw [hbar, Bool.true_or]

theorem step_waitInv (hi : Inv n s) (hw : WaitInv s) (hC : Awake n s a)
    (h : Step n s a events s') : WaitInv s' := by
  cases h with
  | create => exact waitInv_goto hw (by simp [Pc.Looked])
  | created => exact hw
  | joinNull => exact hw
  | join => exact waitInv_goto hw (by simp [Pc.Looked])
  -- `main` clears all flags before it starts the threads again
  | restart => exact fun _ _ => Or.inl rfl
  | finish => exact hw
  | @start t alloc =>
    refine waitInv_goto hw fun hp => ?_
    cases alloc <;> exact absurd hp id
  | @wait t _ _ h =>
    intro u hu
    by_cases ht : u = t
    · subst ht
      exact Or.inl (Function.update_self ..)
    · rw [goto_other ht] at hu
      show Function.update s.threadWaits t false u = false ∨ _
      rw [Function.update_of_ne ht]
      exact hw u hu
  | noWait h hflag => exact waitInv_goto hw fun _ => hflag
  | @waitUnlock t _ _ _ h => exact waitInv_goto hw fun _ => hw t (by rw [h]; trivial)
  | @sleep t _ _ _ h => exact waitInv_goto hw fun _ => hw t (by rw [h]; trivial)
  | @relock t _ _ h => exact waitInv_goto hw fun _ => hw t (by rw [h]; trivial)
  | @opened t _ _ h => exact waitInv_goto hw fun _ => hw t (by rw [h]; trivial)
  | @read t _ _ _ _ _ h => exact waitInv_goto hw fun _ => hw t (by rw [h]; trivial)
  | decoded h => exact waitInv_decoded hi hw hC h
  | nothing => exact waitInv_goto hw fun hp => absurd hp (next_not_looked _)
  | inside => exact waitInv_goto hw fun hp => absurd hp (next_not_looked _)
  | _ => exact waitInv_goto hw (by simp [Pc.Looked])

variable {file : List UInt8} {tr : List Act}

theorem run_waitInv (hC : (machine n file).Meets (Awake n) tr)
    (h : (machine n file).run tr = some s) : WaitInv s :=
  (machine n file).run_invariant_of_meets (C := Awake n) (I := fun _ s => WaitInv s)
    (fun _ ht => absurd ht id)
    (fun _ _ _ _ hr ha hi hstep => step_waitInv (run_inv hr).1 hi ha (step_cases hstep)) tr s hC h

/-- **A pending wait is honoured before the next command** in every run that decodes
no `WAIT` for a sleeping thread: a thread in `get_next` or behind it has no wait
pending. -/
theorem waits_honoured (hC : (machine n file).Meets (Awake n) tr)
    (hrun : (machine n file).run tr = some s) {t : Tid} {p : Reading Decoded}
    (ht : s.pc t = .decode p) : s.threadWaits t = false := by
  rcases run_waitInv hC hrun t (by rw [ht]; trivial) with hflag | hbar
  · exact hflag
  · rw [(run_inv hrun).1.opened t p ht] at hbar
    cases hbar

/-- No thread has just decoded a `WAIT` while one is asleep. -/
def awakeAmong (n : Nat) (s : State) : Bool :=
  (List.range n).all fun u => (List.range n).all fun t =>
    match s.pc u, s.pc t with
    | .decode (.done (.wait _ _)), .sleep _ => false
    | .decode (.done (.wait _ _)), .relock => false
    | _, _ => true

/-- The side condition, tested along a run. -/
theorem meets_awake (h : ∀ k < tr.length, ((machine n file).run (tr.take k)).all (awakeAmong n))
    (hall : ∀ u alloc junk, Act.thread u alloc junk ∈ tr → u < n) :
    (machine n file).Meets (Awake n) tr := by
  refine Machine.meets_of_take _ fun k hk s hs => ?_
  have htest := h k hk
  rw [hs, Option.all_some] at htest
  cases hact : tr[k] with
  | main => trivial
  | thread u alloc junk =>
    have hu := hall u alloc junk (hact ▸ List.getElem_mem hk)
    simp only [Awake]
    split
    next delay target hp =>
      intro t ht
      have htn : t < n := by
        cases target with
        | none => exact ht
        | some tid => exact ht.2
      have hpair := List.all_eq_true.mp (List.all_eq_true.mp htest u (List.mem_range.mpr hu)) t
        (List.mem_range.mpr htn)
      rw [hp] at hpair
      cases hpt : s.pc t with
      | sleep d => rw [hpt] at hpair; cases hpair
      | relock => rw [hpt] at hpair; cases hpair
      | _ => exact id
    next => trivial

/-- Thread 1 tells thread 0 to wait and works `LIST` off while that one sleeps. -/
def waitList : List Act :=
  List.replicate 3 .main ++ List.replicate 13 (.thread 1 true []) ++
    List.replicate 4 (.thread 0 true []) ++ List.replicate 10 (.thread 1 true []) ++
    List.replicate 3 (.thread 0 true [])

theorem waits_honoured_waitList :
    ∃ s p, (machine 2 (bytes "WAIT 5 0\nLIST\n")).run waitList = some s ∧ s.pc 0 = .decode p ∧
      s.threadWaits 0 = false := by
  have hend : ((machine 2 (bytes "WAIT 5 0\nLIST\n")).run waitList).map (·.pc 0) =
      some (.decode (Jobs.decode [])) := rfl
  obtain ⟨s, hs, hpc⟩ := Option.map_eq_some_iff.mp hend
  have hawake : (machine 2 (bytes "WAIT 5 0\nLIST\n")).Meets (Awake 2) waitList :=
    meets_awake (by decide) fun u alloc junk h => by
      simp [waitList] at h
      rcases h with ⟨rfl, -⟩ | ⟨rfl, -⟩ | ⟨rfl, -⟩ | ⟨rfl, -⟩ <;> decide
  exact ⟨s, _, hs, hpc, waits_honoured hawake hs hpc⟩

/-- Thread 1 decodes a `WAIT` for thread 0, which goes to sleep, and then another
one. -/
def secondWait : List Act :=
  List.replicate 3 .main ++ List.replicate 13 (.thread 1 true []) ++
    List.replicate 4 (.thread 0 true []) ++ List.replicate 12 (.thread 1 true []) ++
    List.replicate 3 (.thread 0 true [])

/-- After `secondWait` thread 0 decodes its next command with the second wait
pending. -/
theorem second_wait_ignored : ¬ ∀ (n : Nat) (file : List UInt8) (tr : List Act) (s : State),
    (machine n file).run tr = some s → ∀ t p, s.pc t = .decode p → s.threadWaits t = false := by
  intro hall
  have hend : ((machine 2 (bytes "WAIT 5 0\nWAIT 7 0\nLIST\n")).run secondWait).map
      (fun s => (s.pc 0, s.threadWaits 0)) = some (.decode (Jobs.decode []), true) := rfl
  obtain ⟨s, hs, hstate⟩ := Option.map_eq_some_iff.mp hend
  obtain ⟨hpc, hflag⟩ := Prod.mk.inj hstate
  rw [hall 2 _ secondWait s hs 0 _ hpc] at hflag
  cases hflag

end Ems.Jobs.Threads
