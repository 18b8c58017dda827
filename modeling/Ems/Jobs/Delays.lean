import Ems.Jobs.Waits

/-!
# The delay a thread collects

`inject_wait` adds a delay for all threads to what they have, and overwrites with a delay
for one thread what that thread has. A thread collects its delay at the top of its loop
and leaves 0 behind; `process_job` leaves 0 at the beginning of a round. What a thread
collects is what the `WAIT`s decoded since then have left (`run_delay`).

That is the sum of their delays when none but the first of those that apply to the thread
was meant for it alone, and it is the sum in whatever order they come when such a `WAIT`
is the only one (`delays_add_up_iff`).
-/

namespace Ems.Jobs.Threads

open Base Conc Parse

/-- The arguments of a `WAIT`. -/
structure Wait where
  delay : UInt32
  target : Option UInt32
deriving DecidableEq, Repr

/-! ## The waits of a thread -/

section

variable (n : Nat)

instance (target : Option UInt32) (t : Tid) : Decidable (Targets n target t) :=
  match target with
  | some targetTid => inferInstanceAs (Decidable (targetTid.toNat = t ∧ t < n))
  | none => inferInstanceAs (Decidable (t < n))

/-- The waits that apply to thread `t`. -/
def applying (t : Tid) (waits : List Wait) : List Wait :=
  waits.filter fun w => decide (Targets n w.target t)

/-- The sum of their delays. -/
def total (t : Tid) (waits : List Wait) : Nat :=
  ((applying n t waits).map fun w => w.delay.toNat).sum

/-- `inject_wait` for one wait after the other. -/
def injectAll (waits : List Wait) (s : State) : State :=
  waits.foldl (fun s w => (injectWait n w.target w.delay s).2) s

/-- The delay of thread `t` when they have come in this order, and it was 0 before. -/
def injected (waits : List Wait) (t : Tid) : UInt32 :=
  (injectAll n waits (State.init [])).threadDelays t

/-- What a step means for the delay of thread `t`: a `WAIT` is decoded, or the thread
collects its delay, or a round begins. -/
def marks (t : Tid) (s : State) : Act → List (Option Wait)
  | .main =>
    match s.main with
    -- the last thread has ended and `BARRIER` has been seen: `process_job` starts the next round
    | .join i => if n ≤ i ∧ s.barrier = true then [none] else []
    | _ => []
  | .thread u _ _ =>
    match s.pc u with
    | .waitTest => if u = t ∧ s.threadWaits u = true ∧ s.barrier = false then [none] else []
    | .decode (.done (.wait delay target)) => [some ⟨delay, target⟩]
    | _ => []

/-- The waits behind the last `none`. -/
def since (marks : List (Option Wait)) : List Wait :=
  marks.foldl (fun waits mark => mark.elim [] fun w => waits ++ [w]) []

/-- The `WAIT`s decoded since thread `t` has collected its delay, in this round. -/
def waitsSince (file : List UInt8) (t : Tid) (tr : List Act) : List Wait :=
  since ((machine n file).log (marks n t) tr)

end

variable {n : Nat} {s s' : State} {a : Act} {events : List Event} {t : Tid}

/-- The delay behind a wait that applies. -/
def Wait.put (delay : UInt32) (w : Wait) : UInt32 :=
  match w.target with
  | some _ => w.delay
  | none => delay + w.delay

theorem injectWait_delay (w : Wait) (s : State) :
    (injectWait n w.target w.delay s).2.threadDelays t =
      if Targets n w.target t then Wait.put (s.threadDelays t) w else s.threadDelays t := by
  obtain ⟨delay, target⟩ := w
  unfold injectWait Wait.put
  cases target with
  | none => rfl
  | some targetTid =>
    dsimp only
    split
    next hle =>
      rw [if_neg]
      intro h
      have hlt : targetTid.toNat < n := by rw [h.1]; exact h.2
      omega
    next hlt =>
      by_cases ht : t = targetTid.toNat
      · subst ht
        rw [if_pos ⟨rfl, Nat.lt_of_not_le hlt⟩]
        exact Function.update_self ..
      · rw [if_neg fun h => ht h.1.symm]
        exact Function.update_of_ne ht ..

theorem injectAll_delay (waits : List Wait) :
    ∀ s, (injectAll n waits s).threadDelays t =
      (applying n t waits).foldl Wait.put (s.threadDelays t) := by
  induction waits with
  | nil => exact fun _ => rfl
  | cons w waits ih =>
    intro s
    show (injectAll n waits (injectWait n w.target w.delay s).2).threadDelays t = _
    rw [ih, injectWait_delay]
    unfold applying
    by_cases h : Targets n w.target t
    · rw [if_pos h, List.filter_cons, if_pos (decide_eq_true h), List.foldl_cons]
    · rw [if_neg h, List.filter_cons, if_neg (by simpa using h)]

/-- Only the waits that apply count. -/
theorem injected_eq (waits : List Wait) :
    injected n waits t = (applying n t waits).foldl Wait.put 0 := injectAll_delay waits _

/-! ## Sums -/

/-- Every delay but the last ones is lost when one for the thread alone comes in between.
By induction on the waits, the last one split off. -/
theorem foldl_put {delay : UInt32} (hdelay : delay ≠ 0) (waits : List Wait)
    (hsum : delay.toNat + (waits.map fun w => w.delay.toNat).sum < 2 ^ 32) :
    (waits.foldl Wait.put delay).toNat ≤ delay.toNat + (waits.map fun w => w.delay.toNat).sum ∧
    ((waits.foldl Wait.put delay).toNat = delay.toNat + (waits.map fun w => w.delay.toNat).sum ↔
      ∀ w ∈ waits, w.target = none) := by
  have hpos : delay.toNat ≠ 0 := fun h => hdelay (UInt32.toNat_inj.mp h)
  induction waits using List.reverseRecOn with
  | nil => exact ⟨Nat.le_refl _, iff_of_true rfl fun w hw => absurd hw List.not_mem_nil⟩
  | append_singleton waits w ih =>
    rw [List.map_append, List.sum_append] at hsum ⊢
    simp only [List.map_cons, List.map_nil, List.sum_cons, List.sum_nil, Nat.add_zero] at hsum ⊢
    obtain ⟨hle, hiff⟩ := ih (by omega)
    have hall : (∀ x ∈ waits ++ [w], x.target = none) ↔
        (∀ x ∈ waits, x.target = none) ∧ w.target = none := by
      rw [List.forall_mem_append, List.forall_mem_singleton]
    rw [hall, List.foldl_append, List.foldl_cons, List.foldl_nil, Wait.put]
    cases htarget : w.target with
    -- a positive delay was there before: overwriting it loses that much
    | some targetTid =>
      dsimp only
      refine ⟨by omega, iff_of_false (by omega) fun h => ?_⟩
      cases h.2
    | none =>
      dsimp only
      rw [UInt32.toNat_add, Nat.mod_eq_of_lt (by omega), ← hiff, and_iff_left rfl]
      omega

/-- Every order of the waits leaves their sum. -/
def AddsUp (n : Nat) (t : Tid) (waits : List Wait) (delay : UInt32) : Prop :=
  delay.toNat = total n t waits ∧ ∀ waits' : List Wait, waits'.Perm waits → injected n waits' t = delay

section

variable {waits : List Wait}

/-- The sum is left when only the first wait that applies is for the thread alone. -/
theorem injected_eq_total_iff (hpos : ∀ w ∈ waits, w.delay ≠ 0) (hsum : total n t waits < 2 ^ 32) :
    (injected n waits t).toNat = total n t waits ↔
      ∀ w ∈ (applying n t waits).tail, w.target = none := by
  have hpos' : ∀ w ∈ applying n t waits, w.delay ≠ 0 := fun w hw => hpos w (List.mem_filter.mp hw).1
  rw [injected_eq]
  unfold total at hsum ⊢
  cases happ : applying n t waits with
  | nil => exact iff_of_true rfl fun w hw => absurd hw List.not_mem_nil
  | cons w rest =>
    rw [happ] at hsum hpos'
    rw [List.map_cons, List.sum_cons] at hsum ⊢
    -- on a delay of 0 adding and overwriting are the same
    have hfirst : Wait.put 0 w = w.delay := by
      unfold Wait.put
      split
      next => rfl
      next => exact UInt32.zero_add _
    rw [List.foldl_cons, hfirst]
    exact (foldl_put (hpos' w (List.mem_cons_self ..)) rest hsum).2

theorem total_perm {waits' : List Wait} (h : waits'.Perm waits) :
    total n t waits' = total n t waits :=
  ((h.filter _).map _).sum_nat

/-- In every order the sum is left when a wait for the thread alone is the only one. -/
theorem addsUp_iff (hpos : ∀ w ∈ waits, w.delay ≠ 0) (hsum : total n t waits < 2 ^ 32) :
    AddsUp n t waits (injected n waits t) ↔
      ∀ w ∈ applying n t waits, w.target ≠ none → applying n t waits = [w] := by
  constructor
  · -- with such a wait in the last place nothing else is left
    rintro ⟨hall, horder⟩ w hw htarget
    obtain ⟨hmem, happlies⟩ := List.mem_filter.mp hw
    obtain ⟨before, after, rfl⟩ := List.append_of_mem hmem
    have hperm : (before ++ after ++ [w]).Perm (before ++ w :: after) := by
      rw [List.append_assoc]
      exact (List.perm_append_singleton w after).append_left before
    have hlast := (injected_eq_total_iff (t := t) (fun x hx => hpos x (hperm.mem_iff.mp hx))
      (by rw [total_perm hperm]; exact hsum)).mp
      (by rw [horder _ hperm, total_perm hperm]; exact hall)
    have happ : applying n t (before ++ after ++ [w]) = applying n t (before ++ after) ++ [w] := by
      unfold applying
      rw [List.filter_append, List.filter_cons, if_pos happlies]
      rfl
    rw [happ] at hlast
    have hnil : applying n t (before ++ after) = [] := by
      cases hrest : applying n t (before ++ after) with
      | nil => rfl
      | cons x rest =>
        rw [hrest] at hlast
        exact absurd (hlast w (by simp)) htarget
    have hfilter : (applying n t (before ++ after ++ [w])).Perm
        (applying n t (before ++ w :: after)) := hperm.filter _
    rw [happ, hnil, List.nil_append] at hfilter
    exact (List.singleton_perm.mp hfilter).symm
  · intro hone
    -- every order has the same sum, and no wait for the thread alone behind another one
    have hsame : ∀ waits' : List Wait, waits'.Perm waits →
        (injected n waits' t).toNat = total n t waits := by
      intro waits' hperm
      rw [← total_perm hperm]
      refine (injected_eq_total_iff (fun x hx => hpos x (hperm.mem_iff.mp hx))
        (by rw [total_perm hperm]; exact hsum)).mpr fun w hw => ?_
      by_contra htarget
      have happ := hone w ((hperm.filter _).mem_iff.mp (List.mem_of_mem_tail hw)) htarget
      have hsingle : applying n t waits' = [w] :=
        List.perm_singleton.mp (by rw [← happ]; exact hperm.filter _)
      rw [hsingle] at hw
      cases hw
    refine ⟨hsame waits (List.Perm.refl _), fun waits' hperm => ?_⟩
    exact UInt32.toNat_inj.mp ((hsame waits' hperm).trans (hsame waits (List.Perm.refl _)).symm)

end

/-! ## What a run collects -/

/-- A `WAIT` that asks for no delay is invalid. -/
def Positive : Decoded → Prop
  | .wait delay _ => delay ≠ 0
  | _ => True

theorem decode_positive (junk : List UInt8) : (Jobs.decode junk).All Positive := by
  refine .bind (fun command => ?_) getNext
  cases command with
  | create =>
    refine .bind (fun r => ?_) (parseCreate junk)
    cases r <;> trivial
  | reserve =>
    refine .bind (fun r => ?_) (parseReserve junk)
    cases r <;> trivial
  | showEvent =>
    refine .bind (fun r => ?_) (parseShow junk)
    cases r <;> trivial
  | wait =>
    refine .bind (fun r => ?_) (parseWait junk)
    cases r with
    | none => trivial
    | some r =>
      show Reading.All Positive (if r.1 = 0 then pure .invalid else pure (.wait r.1 r.2))
      split
      next => trivial
      next h => exact h
  | _ => trivial

/-- No thread is about to decode a wait of 0. -/
def PositiveInv (s : State) : Prop := ∀ u p, s.pc u = .decode p → p.All Positive

theorem positive_goto {u : Tid} {pc : Pc} (hi : PositiveInv s)
    (hpc : ∀ p, pc = .decode p → p.All Positive) :
    ∀ v p, (s.goto u pc).pc v = .decode p → p.All Positive := by
  intro v p hv
  by_cases huv : v = u
  · subst huv
    rw [goto_self] at hv
    exact hpc p hv
  · rw [goto_other huv] at hv
    exact hi v p hv

theorem step_positive (hi : PositiveInv s) (h : Step n s a events s') : PositiveInv s' := by
  cases h with
  | created => exact hi
  | joinNull => exact hi
  | restart => exact hi
  | finish => exact hi
  | @start _ alloc =>
    refine positive_goto hi fun p hp => ?_
    cases alloc <;> cases hp
  | opened =>
    refine positive_goto hi fun p hp => ?_
    cases hp
    exact decode_positive _
  | @read u _ _ _ _ _ h hp =>
    refine positive_goto hi fun q hq => ?_
    cases hq
    exact (hi u _ h).step hp
  | decoded =>
    show PositiveInv (State.goto _ _ _)
    unfold PositiveInv
    rw [effect_goto_pc]
    exact positive_goto hi fun p hp => by cases hp
  | nothing => exact positive_goto hi fun p hp => absurd hp (next_ne_decode _ p)
  | inside => exact positive_goto hi fun p hp => absurd hp (next_ne_decode _ p)
  | _ => exact positive_goto hi fun p hp => by cases hp

/-- What a step does to the delay of a thread is what it means for it. -/
theorem step_delay (hi : PositiveInv s) (h : Step n s a events s') :
    (marks n t s a = [] ∧ s'.threadDelays t = s.threadDelays t) ∨
    (marks n t s a = [none] ∧ s'.threadDelays t = 0) ∨
    ∃ w : Wait, w.delay ≠ 0 ∧ marks n t s a = [some w] ∧
      s'.threadDelays t = (injectWait n w.target w.delay s).2.threadDelays t := by
  cases h with
  | joinNull h hlt => exact Or.inl ⟨by simp [marks, h, Nat.not_le.mpr hlt], rfl⟩
  | join h hlt => exact Or.inl ⟨by simp [marks, h, Nat.not_le.mpr hlt], rfl⟩
  | restart h hle hb => exact Or.inr (Or.inl ⟨by simp [marks, h, hle, hb], rfl⟩)
  | finish h hle hb => exact Or.inl ⟨by simp [marks, h, hb], rfl⟩
  | @wait u _ _ h hw hb =>
    -- only the thread itself collects its delay
    by_cases hu : t = u
    · subst hu
      exact Or.inr (Or.inl ⟨by simp [marks, h, hw, hb], Function.update_self ..⟩)
    · exact Or.inl ⟨by simp [marks, h, Ne.symm hu], Function.update_of_ne hu ..⟩
  | noWait h hw =>
    refine Or.inl ⟨?_, rfl⟩
    simp only [marks, h]
    rcases hw with hw | hw <;> simp [hw]
  | @read u _ _ p _ _ h hp =>
    refine Or.inl ⟨?_, rfl⟩
    simp only [marks, h]
    cases p with
    | done d => cases hp
    | _ => rfl
  | @decoded u _ _ d h =>
    cases d with
    | wait delay target =>
      exact Or.inr (Or.inr ⟨⟨delay, target⟩, hi u _ h, by simp only [marks, h], rfl⟩)
    | _ => exact Or.inl ⟨by simp only [marks, h], rfl⟩
  | _ => exact Or.inl ⟨by simp [marks, *], rfl⟩

theorem since_wait (marks : List (Option Wait)) (w : Wait) :
    since (marks ++ [some w]) = since marks ++ [w] := by
  unfold since
  rw [List.foldl_append]
  rfl

theorem since_none (marks : List (Option Wait)) : since (marks ++ [none]) = [] := by
  unfold since
  rw [List.foldl_append]
  rfl

theorem injected_snoc (waits : List Wait) (w : Wait) :
    injected n (waits ++ [w]) t =
      if Targets n w.target t then Wait.put (injected n waits t) w else injected n waits t := by
  unfold injected injectAll
  rw [List.foldl_append]
  exact injectWait_delay w _

variable {file : List UInt8} {tr : List Act}

theorem run_positive (h : (machine n file).run tr = some s) : PositiveInv s :=
  (machine n file).run_invariant (I := fun _ s => PositiveInv s)
    (fun _ _ hp => by cases hp)
    (fun _ _ _ _ _ hi hstep => step_positive hi (step_cases hstep)) tr s h

/-- The delay of a thread is what the waits since its last one have left. -/
theorem run_delay (h : (machine n file).run tr = some s) :
    s.threadDelays t = injected n (waitsSince n file t tr) t ∧
      ∀ w ∈ waitsSince n file t tr, w.delay ≠ 0 := by
  refine (machine n file).run_invariant (I := fun tr s =>
    s.threadDelays t = injected n (waitsSince n file t tr) t ∧
      ∀ w ∈ waitsSince n file t tr, w.delay ≠ 0) ⟨rfl, fun w hw => absurd hw List.not_mem_nil⟩
    (fun tr s a s' hrun hi hstep => ?_) tr s h
  have hlog : waitsSince n file t (tr ++ [a]) =
      since ((machine n file).log (marks n t) tr ++ marks n t s a) := by
    unfold waitsSince
    rw [(machine n file).log_snoc (marks n t) hrun hstep]
  obtain ⟨hdelay, hpos⟩ := hi
  rw [hlog]
  rcases step_delay (t := t) (run_positive hrun) (step_cases hstep) with
    ⟨hmarks, hsame⟩ | ⟨hmarks, hzero⟩ | ⟨w, hw, hmarks, hput⟩
  · rw [hmarks, List.append_nil, hsame]
    exact ⟨hdelay, hpos⟩
  · rw [hmarks, since_none, hzero]
    exact ⟨rfl, fun w hw => absurd hw List.not_mem_nil⟩
  · rw [hmarks, since_wait, hput, injectWait_delay, hdelay]
    refine ⟨(injected_snoc _ w).symm, fun x hx => ?_⟩
    rcases List.mem_append.mp hx with hx | hx
    · exact hpos x hx
    · rw [List.mem_singleton.mp hx]
      exact hw

/-- What a thread takes to `thread_wait` is its delay. -/
theorem collects {alloc : Bool} {junk : List UInt8} {delay : UInt32}
    (h : Step n s (.thread t alloc junk) events s') (hp : s'.pc t = .waitUnlock delay) :
    delay = s.threadDelays t := by
  cases h with
  | wait =>
    rw [goto_self] at hp
    cases hp
    rfl
  | start =>
    rw [goto_self] at hp
    cases alloc <;> cases hp
  | nothing =>
    rw [goto_self] at hp
    rename_i d _ _
    cases d <;> cases hp
  | inside =>
    rw [goto_self] at hp
    rename_i d _
    cases d <;> cases hp
  | _ =>
    rw [goto_self] at hp
    cases hp

/-- **The delays add up** when only the first of the waits that apply to the thread may be
for it alone; **whatever their order** when such a wait is the only one. -/
theorem delays_add_up_iff {alloc : Bool} {junk : List UInt8} {delay : UInt32}
    (hrun : (machine n file).run tr = some s) (hstep : step n s (.thread t alloc junk) = some s')
    (hcollects : s'.pc t = .waitUnlock delay) (hsum : total n t (waitsSince n file t tr) < 2 ^ 32) :
    (delay.toNat = total n t (waitsSince n file t tr) ↔
      ∀ w ∈ (applying n t (waitsSince n file t tr)).tail, w.target = none) ∧
    (AddsUp n t (waitsSince n file t tr) delay ↔
      ∀ w ∈ applying n t (waitsSince n file t tr), w.target ≠ none →
        applying n t (waitsSince n file t tr) = [w]) := by
  obtain ⟨hdelay, hpos⟩ := run_delay (t := t) hrun
  rw [collects (step_cases hstep) hcollects, hdelay]
  exact ⟨injected_eq_total_iff hpos hsum, addsUp_iff hpos hsum⟩


/-- Thread 1 decodes two `WAIT`s for all threads, the second one after it has slept; thread
0 gets as far as the test of its flag. -/
def twoWaits : List Act :=
  List.replicate 3 .main ++ List.replicate 24 (.thread 1 true []) ++
    List.replicate 2 (.thread 0 true [])

/-- Thread 0 collects both of them. -/
theorem delays_add_up_iff_two : ∃ s s', (machine 2 (bytes "WAIT 5\nWAIT 7\n")).run twoWaits = some s ∧
    step 2 s (.thread 0 true []) = some s' ∧ s'.pc 0 = .waitUnlock 12 ∧
    AddsUp 2 0 (waitsSince 2 (bytes "WAIT 5\nWAIT 7\n") 0 twoWaits) 12 := by
  have hend : ((machine 2 (bytes "WAIT 5\nWAIT 7\n")).run (twoWaits ++ [.thread 0 true []])).map
      (·.pc 0) = some (.waitUnlock 12) := rfl
  obtain ⟨s', hs', hcollects⟩ := Option.map_eq_some_iff.mp hend
  obtain ⟨s, hs, hstep⟩ := (machine 2 (bytes "WAIT 5\nWAIT 7\n")).run_snoc.mp hs'
  refine ⟨s, s', hs, hstep, hcollects, ?_⟩
  exact (delays_add_up_iff hs hstep hcollects (by decide)).2.mpr (by decide)

/-- The same with a second wait that is for thread 0 alone. -/
def lostWait : List Act :=
  List.replicate 3 .main ++ List.replicate 26 (.thread 1 true []) ++
    List.replicate 2 (.thread 0 true [])

/-- Thread 0 has been told to wait for 5 and for 3, and waits for 3. -/
theorem delays_do_not_add_up : ¬ ∀ (n : Nat) (file : List UInt8) (tr : List Act) (s s' : State)
    (t : Tid) (alloc : Bool) (junk : List UInt8) (delay : UInt32),
    (machine n file).run tr = some s → step n s (.thread t alloc junk) = some s' →
      s'.pc t = .waitUnlock delay → total n t (waitsSince n file t tr) < 2 ^ 32 →
      delay.toNat = total n t (waitsSince n file t tr) := by
  intro hall
  have hend : ((machine 2 (bytes "WAIT 5\nWAIT 3 0\n")).run (lostWait ++ [.thread 0 true []])).map
      (·.pc 0) = some (.waitUnlock 3) := rfl
  obtain ⟨s', hs', hcollects⟩ := Option.map_eq_some_iff.mp hend
  obtain ⟨s, hs, hstep⟩ := (machine 2 (bytes "WAIT 5\nWAIT 3 0\n")).run_snoc.mp hs'
  have htotal : total 2 0 (waitsSince 2 (bytes "WAIT 5\nWAIT 3 0\n") 0 lostWait) = 8 := by decide
  have hsum := hall 2 _ lostWait s s' 0 true [] 3 hs hstep hcollects (by rw [htotal]; decide)
  rw [htotal] at hsum
  exact absurd hsum (by decide)


end Ems.Jobs.Threads
