import Ems.Jobs.Rounds

/-!
# One call after the other

When no two calls overlap, the operations do what the functions of `Operations.lean` do one
after the other (`run_solo`): with every call the list, the `.out` file and the result are
those of `Op.exec`. So it is with a job that has one thread. It leaves what a single pass over
the commands of its file leaves (`solo_job`), barriers and all.
-/

namespace Ems.Jobs

open Server (Request)

/-! ## A reservation that is refused -/

section Refused

variable {event now : Event} {q : Request} {r : UInt32}

/-- A store changes its own seat. -/
theorem getSeat_set (event : Event) (k c : Nat) (value : UInt32) :
    getSeat (setSeat event k value) c =
      if c = k ∧ k < event.data.length then value else getSeat event c := by
  unfold getSeat setSeat
  rw [List.getD_eq_getElem?_getD, List.getD_eq_getElem?_getD, List.getElem?_set]
  by_cases hc : k = c
  · subst hc
    by_cases hlt : k < event.data.length
    · simp [hlt]
    · simp [hlt]
  · simp [hc, Ne.symm hc]

/-- The loop counts upwards. -/
theorem markFrom_le (q : Request) (r : UInt32) (n : Nat) :
    ∀ (event : Event) (i : Nat), i ≤ (markFrom event q r i n).2 := by
  induction n with
  | zero => exact fun _ => Nat.le_refl
  | succ n ih =>
    intro event i
    unfold markFrom
    split
    · exact Nat.le_refl i
    · exact Nat.le_trans (Nat.le_succ i) (ih _ _)

/-- The first loop changes the seats that it has passed, which were free, and no others. -/
theorem markFrom_free (q : Request) (r : UInt32) (n : Nat) :
    ∀ (event : Event) (i : Nat),
      (∀ j, i ≤ j → j < (markFrom event q r i n).2 → getSeat event (index event q j) = 0) ∧
      ∀ c, (∀ j, i ≤ j → j < (markFrom event q r i n).2 → index event q j ≠ c) →
        getSeat (markFrom event q r i n).1 c = getSeat event c := by
  induction n with
  | zero => exact fun _ _ => ⟨fun j hle hlt => absurd hlt (Nat.not_lt.mpr hle), fun c _ => rfl⟩
  | succ n ih =>
    intro event i
    unfold markFrom
    split
    next => exact ⟨fun j hle hlt => absurd hlt (Nat.not_lt.mpr hle), fun c _ => rfl⟩
    next hpass =>
      obtain ⟨-, hfree⟩ := refused_eq_false.mp (Bool.eq_false_of_not_eq_true hpass)
      obtain ⟨hfirst, hothers⟩ := ih (setSeat event (index event q i) r) (i + 1)
      have hle : i + 1 ≤ _ := markFrom_le q r n (setSeat event (index event q i) r) (i + 1)
      have hold : ∀ c, c ≠ index event q i →
          getSeat (setSeat event (index event q i) r) c = getSeat event c := fun c hc => by
        rw [getSeat_set, if_neg fun h => hc h.1]
      refine ⟨fun j hij hlt => ?_, fun c hc => ?_⟩
      · by_cases hsame : index event q j = index event q i
        · rw [hsame]
          exact hfree
        · have hne : i ≠ j := fun h => hsame (by rw [h])
          rw [← hold _ hsame]
          exact hfirst j (by omega) hlt
      · rw [hothers c fun j hij hlt => hc j (by omega) hlt]
        exact hold c fun h => hc i (Nat.le_refl i) hle h.symm

/-- A seat that is cleared is free. -/
theorem getSeat_freed (event : Event) (k : Nat) : getSeat (setSeat event k 0) k = 0 := by
  rw [getSeat_set]
  split
  next => rfl
  next h =>
    unfold getSeat
    rw [List.getD_eq_getElem?_getD, List.getElem?_eq_none (Nat.le_of_not_lt fun hlt => h ⟨rfl, hlt⟩)]
    rfl

/-- The second loop frees its seats and leaves the others as they are. -/
theorem clearFrom_free (q : Request) (n : Nat) : ∀ (event : Event) (j : Nat),
    (∀ k, j ≤ k → k < j + n → getSeat (clearFrom event q j n) (index event q k) = 0) ∧
    ∀ c, (∀ k, j ≤ k → k < j + n → index event q k ≠ c) →
      getSeat (clearFrom event q j n) c = getSeat event c := by
  induction n with
  | zero => exact fun _ _ => ⟨fun k hle hlt => absurd hlt (Nat.not_lt.mpr hle), fun c _ => rfl⟩
  | succ n ih =>
    intro event j
    unfold clearFrom
    obtain ⟨hfreed, hothers⟩ := ih (setSeat event (index event q j) 0) (j + 1)
    constructor
    · intro k hle hlt
      rcases Nat.eq_or_lt_of_le hle with rfl | hgt
      · by_cases hagain : ∃ k, j + 1 ≤ k ∧ k < j + 1 + n ∧ index event q k = index event q j
        · -- the same seat again
          obtain ⟨k, hle', hlt', heq⟩ := hagain
          have hzero := hfreed k hle' hlt'
          rwa [show index (setSeat event _ 0) q k = index event q j from heq] at hzero
        · rw [hothers _ fun k hle' hlt' heq => hagain ⟨k, hle', hlt', heq⟩]
          exact getSeat_freed _ _
      · exact hfreed k hgt (by omega)
    · intro c hc
      rw [hothers c fun k hle hlt => hc k (by omega) (by omega), getSeat_set,
        if_neg fun h => hc j (Nat.le_refl j) (by omega) h.1.symm]

/-- Clearing leaves the dimensions and the size of the block. -/
theorem clearFrom_same (q : Request) (n : Nat) : ∀ (event : Event) (j : Nat),
    (clearFrom event q j n).shape = event.shape ∧
    (clearFrom event q j n).data.length = event.data.length := by
  induction n with
  | zero => exact fun _ _ => ⟨rfl, rfl⟩
  | succ n ih =>
    intro event j
    obtain ⟨hshape, hlength⟩ := ih (setSeat event (index event q j) 0) (j + 1)
    exact ⟨hshape, hlength.trans List.length_set⟩

/-- So does marking. -/
theorem markFrom_same (q : Request) (r : UInt32) (n : Nat) : ∀ (event : Event) (i : Nat),
    (markFrom event q r i n).1.shape = event.shape ∧
    (markFrom event q r i n).1.data.length = event.data.length := by
  induction n with
  | zero => exact fun _ _ => ⟨rfl, rfl⟩
  | succ n ih =>
    intro event i
    unfold markFrom
    split
    · exact ⟨rfl, rfl⟩
    · obtain ⟨hshape, hlength⟩ := ih (setSeat event (index event q i) r) (i + 1)
      exact ⟨hshape, hlength.trans List.length_set⟩

/-- What the first loop has marked the second one frees again. -/
theorem clearFrom_marked {marked : Event} {i : Nat} (hshape : marked.shape = event.shape)
    (hlength : marked.data.length = event.data.length)
    (hres : marked.reservations = event.reservations + 1)
    (hfree : ∀ j < i, getSeat event (index event q j) = 0)
    (hothers : ∀ c, (∀ j < i, index event q j ≠ c) → getSeat marked c = getSeat event c) :
    clearFrom (undoReservations marked) q 0 i = event := by
  obtain ⟨hfreed, hkept⟩ := clearFrom_free q i (undoReservations marked) 0
  obtain ⟨hshape', hlength'⟩ := clearFrom_same q i (undoReservations marked) 0
  have hindex : ∀ j, index (undoReservations marked) q j = index event q j :=
    Programs.index_shape hshape
  have hseat : ∀ c, getSeat (clearFrom (undoReservations marked) q 0 i) c = getSeat event c := by
    intro c
    by_cases hmarked : ∃ j, j < i ∧ index event q j = c
    · obtain ⟨j, hj, rfl⟩ := hmarked
      have hzero := hfreed j (Nat.zero_le j) (by omega)
      rw [hindex] at hzero
      rw [hzero, hfree j hj]
    · rw [hkept c fun k _ hk heq => hmarked ⟨k, by omega, by rw [← hindex]; exact heq⟩]
      exact hothers c fun j hj heq => hmarked ⟨j, hj, heq⟩
  have hback : Programs.Touched event (clearFrom (undoReservations marked) q 0 i) q 0 0 :=
    ⟨hshape'.trans hshape, hlength'.trans hlength, fun j hj => absurd hj (Nat.not_lt_zero j),
      fun j hj => absurd hj (Nat.not_lt_zero j), fun c _ => hseat c⟩
  refine hback.eq_base ?_
  rw [clearFrom_reservations]
  show marked.reservations - 1 = event.reservations
  rw [hres]
  exact UInt32.add_sub_cancel _ _

/-- **A reservation that is refused** leaves the event as it was, whatever it is. -/
theorem reserveSeats_refused (h : (reserveSeats event q).2 ≠ 0) :
    (reserveSeats event q).1 = event := by
  obtain ⟨hfree, hothers⟩ := markFrom_free q (event.reservations + 1) q.numSeats.toNat
    (bumpReservations event) 0
  obtain ⟨hshape, hlength⟩ := markFrom_same q (event.reservations + 1) q.numSeats.toNat
    (bumpReservations event) 0
  unfold reserveSeats at h ⊢
  dsimp only at h ⊢
  by_cases hlt : (markFrom (bumpReservations event) q (event.reservations + 1) 0
      q.numSeats.toNat).2 < q.numSeats.toNat
  · rw [if_pos hlt]
    exact clearFrom_marked hshape hlength (markFrom_reservations ..)
      (fun j hj => hfree j (Nat.zero_le j) hj) fun c hc => hothers c fun j _ hj => hc j hj
  · rw [if_neg hlt] at h
    exact absurd rfl h

end Refused

/-- A refused reservation leaves the list. -/
theorem emsReserve_refused {list : EventList} {q : Request} (h : (emsReserve list q).2 ≠ 0) :
    (emsReserve list q).1 = list := by
  revert h
  unfold emsReserve
  split
  next => exact fun _ => rfl
  next e _ =>
    split
    next => exact fun _ => rfl
    next event he =>
      intro h
      show list.set e (reserveSeats event q).1 = list
      rw [reserveSeats_refused h]
      exact Server.set_same he

namespace Programs

open Conc Conc.Program

/-! ## One call -/

/-- A whole call, run alone. -/
def Op.exec (s : Store) : Op → Store × Nat
  | .create id rows cols =>
    ({ s with list := (Jobs.emsCreate ⟨true, true, true⟩ s.list id rows cols).1 },
      (Jobs.emsCreate ⟨true, true, true⟩ s.list id rows cols).2)
  | .reserve q => ({ s with list := (Jobs.emsReserve s.list q).1 }, (Jobs.emsReserve s.list q).2)
  | .showEvent id =>
    if (getEvent s.list id).isSome then
      ({ s with file := s.file ++ (Op.showEvent id).text s.list }, 0)
    else (s, 1)
  | .listEvents => ({ s with file := s.file ++ listText s.list }, 0)

/-- These calls, one after the other: the store they leave, and what each of them returns. -/
def execAll (s : Store) : List Op → Store × List (Op × Nat)
  | [] => (s, [])
  | c :: cs => ((execAll (c.exec s).1 cs).1, (c, (c.exec s).2) :: (execAll (c.exec s).1 cs).2)

/-- One call more. -/
theorem execAll_snoc (cs : List Op) (c : Op) : ∀ s, execAll s (cs ++ [c]) =
    ((c.exec (execAll s cs).1).1, (execAll s cs).2 ++ [(c, (c.exec (execAll s cs).1).2)]) := by
  induction cs with
  | nil => exact fun _ => rfl
  | cons d cs ih =>
    intro s
    rw [List.cons_append, execAll, ih]
    rfl

/-- A call that succeeds has its effect and prints its text, and one that fails does
neither. -/
theorem exec_eq (c : Op) (s : Store) : c.exec s =
    (⟨if c.changes && c.result s.list == 0 then c.effect s.list else s.list,
      if c.prints && c.result s.list == 0 then s.file ++ c.text s.list else s.file⟩,
      c.result s.list) := by
  cases c with
  | create id rows cols =>
    unfold Op.exec Jobs.emsCreate Op.result Op.changes Op.prints
    by_cases hfound : (getEvent s.list id).isSome = true
    · simp [hfound]
    · simp [hfound, buildEvent, Op.effect, newEvent]
  | reserve q =>
    unfold Op.exec Op.result Op.changes Op.prints Op.effect
    by_cases hres : (Jobs.emsReserve s.list q).2 = 0
    · simp [hres]
    · simp [hres, emsReserve_refused hres]
  | showEvent id =>
    unfold Op.exec Op.result Op.changes Op.prints
    by_cases hfound : (getEvent s.list id).isSome = true
    · simp [hfound]
    · simp [hfound]
  | listEvents => rfl

/-- The new event can be found. -/
theorem getEvent_append_self (list : EventList) (event : Event) :
    (getEvent (appendToList list event) event.id).isSome = true := by
  rw [Option.isSome_iff_ne_none, Ne, getEvent_eq_none]
  simp [appendToList]

section Explained

variable {cs : List Op} {c : Op} {s₀ s : Store} {results results' : List (Op × Nat)}
  {changes changes' : List Op} {shots shots' : List (Op × List Op)}

/-- One result, if it counts. -/
theorem filter_one (p : Op × Nat → Bool) (c : Op) (r : Nat) :
    ([(c, r)].filter p).map (·.1) = if p (c, r) then [c] else [] := by
  rw [List.filter_singleton]
  cases p (c, r) <;> rfl

/-- The calls that one more result adds to those of a kind. -/
theorem perm_added {p : Op × Nat → Bool} {before after : List Op} {r : Nat}
    (h₀ : before.Perm ((results.filter p).map (·.1)))
    (h : (before ++ after).Perm (((results ++ [(c, r)]).filter p).map (·.1))) :
    after = if p (c, r) then [c] else [] := by
  rw [List.filter_append, List.map_append, filter_one] at h
  have hnew := (List.perm_append_left_iff _).mp ((h₀.append_right _).symm.trans h)
  split at hnew
  next hc => rw [if_pos hc, List.perm_singleton.mp hnew]
  next hc => rw [if_neg hc, hnew.eq_nil]

/-- What one more command has added. -/
theorem Explained.added (h₀ : Explained cs s₀ results changes shots)
    (h : Explained (cs ++ [c]) s (results ++ results') (changes ++ changes') (shots ++ shots')) :
    ∃ r, results' = [(c, r)] ∧ changes' = (if c.changes && r == 0 then [c] else []) ∧
      shots'.map (·.1) = if c.prints && r == 0 then [c] else [] := by
  have heach := h.each
  rw [List.map_append] at heach
  have hone := (List.perm_append_left_iff _).mp ((h₀.each.append_right _).symm.trans heach)
  obtain ⟨⟨c', r⟩, rfl, hc⟩ := List.map_eq_singleton_iff.mp (List.perm_singleton.mp hone)
  have hprinted := h.printed
  rw [List.map_append] at hprinted
  have hsame : c' = c := hc
  subst hsame
  exact ⟨r, rfl, perm_added h₀.kept h.kept, perm_added h₀.printed hprinted⟩

/-- **One more command** does what it does when it is run alone. -/
theorem Explained.exec (h₀ : Explained cs s₀ results changes shots)
    (h : Explained (cs ++ [c]) s (results ++ results') (changes ++ changes') (shots ++ shots'))
    (hresults : ∀ x ∈ results', ∃ past, changes <+: past ∧ past <+: changes ++ changes' ∧
      x.1.result (made past) = x.2)
    (hshots : ∀ x ∈ shots', changes <+: x.2) : ∃ r, results' = [(c, r)] ∧ c.exec s₀ = (s, r) := by
  obtain ⟨r, rfl, hchanges, hprinted⟩ := h₀.added h
  obtain ⟨past, hpast, hall, hres⟩ := hresults _ (List.mem_singleton_self _)
  have hr : c.result s₀.list = r := by
    rw [h₀.list]
    by_cases hc : (c.changes && r == 0) = true
    · rw [hchanges, if_pos hc, List.prefix_concat_iff] at hall
      rcases hall with rfl | hback
      · -- the call sees its own change: so does no `CREATE`, and every reservation is granted
        simp only [Bool.and_eq_true, beq_iff_eq] at hc
        rw [hc.2]
        cases c with
        | create id rows cols =>
          exfalso
          have hfound : (Op.create id rows cols).result
              (made (changes ++ [Op.create id rows cols])) = 1 := by
            rw [made_snoc]
            exact if_pos (getEvent_append_self (made changes) (newEvent id rows cols))
          have hzero := hfound.symm.trans hres
          rw [hc.2] at hzero
          cases hzero
        | reserve q =>
          refine h.granted changes q ?_
          rw [hchanges, hc.2]
          exact List.prefix_refl _
        | showEvent => cases hc.1
        | listEvents => cases hc.1
      · rwa [hpast.eq_of_length_le hback.length_le]
    · rw [hchanges, if_neg hc, List.append_nil] at hall
      rwa [hpast.eq_of_length_le hall.length_le]
  refine ⟨r, rfl, ?_⟩
  rw [exec_eq, hr]
  refine Prod.ext ?_ rfl
  have hlist : s.list = if c.changes && r == 0 then c.effect s₀.list else s₀.list := by
    rw [h.list, h₀.list, hchanges]
    split
    next => exact made_snoc _ _
    next => rw [List.append_nil]
  have hfile : s.file = if c.prints && r == 0 then s₀.file ++ c.text s₀.list else s₀.file := by
    rw [h.file, List.flatMap_append, ← h₀.file]
    by_cases hc : (c.prints && r == 0) = true
    · rw [if_pos hc] at hprinted ⊢
      obtain ⟨x, rfl, hx⟩ := List.map_eq_singleton_iff.mp hprinted
      have hnone : changes' = [] := by
        rw [hchanges]
        refine if_neg ?_
        cases c <;> simp_all [Op.changes, Op.prints]
      have hseen := h.seen x (List.mem_append_right _ (List.mem_singleton_self _))
      rw [hnone, List.append_nil] at hseen
      have hmem := hshots x (List.mem_singleton_self _)
      rw [List.flatMap_singleton, hx, ← hmem.eq_of_length_le hseen.length_le, h₀.list]
    · rw [if_neg hc] at hprinted ⊢
      rw [List.map_eq_nil_iff.mp hprinted]
      exact List.append_nil _
  cases s
  rw [← hlist, ← hfile]

end Explained

/-! ## Calls that do not overlap -/

section Runs

variable {T : Type} [DecidableEq T] {tr before after : List (Crew.Act T Op Choice)}
  {s s₀ s' : State T} {a : Crew.Act T Op Choice} {c : Op}

/-- Nobody is in a call when one is made. -/
def Solo (s : State T) (a : Crew.Act T Op Choice) : Prop :=
  a.called ≠ none → ∀ t, s.thread t = none

/-- Nobody is in a call, and the store and the results are those of the calls one after the
other. -/
def Serial (tr : List (Crew.Act T Op Choice)) (s : State T) : Prop :=
  (∀ t, s.thread t = none) ∧
    execAll ⟨createList, []⟩ (Crew.called tr) = (s.store, (returns tr).map (·.2))

/-- When all have returned nobody has the lock of the events. -/
theorem event_free (hrun : (machine T).run tr = some s) (hback : ∀ t, s.thread t = none) :
    ∀ t, s.held t .event = none := by
  intro t
  have hw : Watched True tr s := run_watched hrun fun hno => absurd trivial hno
  obtain ⟨f, hf, -⟩ := hw.idle t (hback t)
  rw [hf]
  rfl

/-- One more call, from its first step to its last. -/
theorem Serial.next (hi : Serial before s₀) (hbefore : (machine T).run before = some s₀)
    (hrun : (machine T).run (before ++ after) = some s)
    (hok : ∀ t x, Crew.Act.step t x ∈ before ++ after → x.ok = true)
    (hback : ∀ t, s.thread t = none) (hcall : Crew.called after = [c]) :
    Serial (before ++ after) s := by
  obtain ⟨results', changes, changes', shots, shots', hreturns, h₀, h, hresults, hshots⟩ :=
    run_explained hbefore hi.1 (event_free hbefore hi.1) hrun hok hback (event_free hrun hback)
  rw [Crew.called_append, hcall] at h
  obtain ⟨r, rfl, hexec⟩ := h₀.exec h hresults hshots
  refine ⟨hback, ?_⟩
  rw [Crew.called_append, hcall, execAll_snoc, hi.2, hexec, hreturns]

/-- In the middle of a call that nobody disturbs. -/
def Midway (tr : List (Crew.Act T Op Choice)) (s : State T) : Prop :=
  ∃ t c before after s₀, s.thread t ≠ none ∧ (∀ u, u ≠ t → s.thread u = none) ∧
    tr = before ++ after ∧ (machine T).run before = some s₀ ∧ Serial before s₀ ∧
    Crew.called after = [c]

/-- One step. -/
theorem step_serial (hrun : (machine T).run tr = some s) (h : Crew.step system s a = some s')
    (hok : ∀ t x, Crew.Act.step t x ∈ tr ++ [a] → x.ok = true) (hsolo : Solo s a)
    (hi : Serial tr s ∨ Midway tr s) : Serial (tr ++ [a]) s' ∨ Midway (tr ++ [a]) s' := by
  have hstep := Crew.step_cases h
  have hafter : (machine T).run (tr ++ [a]) = some s' := (machine T).run_snoc.mpr ⟨s, hrun, h⟩
  rcases hi with hi | ⟨t, c, before, after, s₀, ht, hothers, rfl, hbefore, hi, hcall⟩
  · -- only a call can begin
    have hnone := hi.1 a.who
    cases a with
    | call t c =>
      refine .inr ⟨t, c, tr, [.call t c], s, ?_, fun u hu => ?_, rfl, hrun, hi, rfl⟩
      · obtain ⟨r, hr, -⟩ := hstep.of_call
        rw [hr]
        exact Option.some_ne_none r
      · rw [hstep.thread_other hu]
        exact hi.1 u
    | step t x =>
      obtain ⟨r, -, hr, -⟩ := hstep.same_call
      rw [show s.thread t = none from hnone] at hr
      cases hr
    | ret t =>
      cases hstep
      case ret hr =>
        rw [show s.thread t = none from hnone] at hr
        cases hr
  · have hwho : a.who = t := by
      by_contra hne
      have hnone := hothers _ hne
      cases a with
      | call u d => exact ht (hsolo (by simp [Crew.Act.called]) t)
      | step u x =>
        obtain ⟨r, -, hr, -⟩ := hstep.same_call
        rw [show s.thread u = none from hnone] at hr
        cases hr
      | ret u =>
        cases hstep
        case ret hr =>
          rw [show s.thread u = none from hnone] at hr
          cases hr
    have hothers' : ∀ u, u ≠ t → s'.thread u = none := fun u hu => by
      rw [hstep.thread_other (by rw [hwho]; exact hu)]
      exact hothers u hu
    rw [List.append_assoc] at hafter hok ⊢
    cases a with
    | call u d => exact absurd (hsolo (by simp [Crew.Act.called]) t) ht
    | step u x =>
      cases hwho
      obtain ⟨-, r', -, hr', -⟩ := hstep.same_call
      refine .inr ⟨u, c, before, after ++ [.step u x], s₀, ?_, hothers', rfl, hbefore, hi, ?_⟩
      · rw [hr']
        exact Option.some_ne_none r'
      · rw [Crew.called_append, hcall]
        rfl
    | ret u =>
      cases hwho
      refine .inl (hi.next (c := c) hbefore hafter hok (fun v => ?_) ?_)
      · by_cases hv : v = u
        · rw [hv]
          exact hstep.of_ret
        · exact hothers' v hv
      · rw [Crew.called_append, hcall]
        rfl

/-- **Every run** whose calls do not overlap: between them, everything is as if each call had
been made in one step. -/
theorem run_solo (hrun : (machine T).run tr = some s)
    (hok : ∀ t x, Crew.Act.step t x ∈ tr → x.ok = true) (hsolo : (machine T).Meets Solo tr)
    (hback : ∀ t, s.thread t = none) : Serial tr s := by
  have hi : Serial tr s ∨ Midway tr s := by
    refine (machine T).run_invariant_of_meets
      (I := fun tr s => (∀ t x, Crew.Act.step t x ∈ tr → x.ok = true) → Serial tr s ∨ Midway tr s)
      (fun _ => .inl ⟨fun _ => rfl, rfl⟩) (fun tr s a s' hs hsolo hi h hall => ?_) tr s hsolo hrun hok
    exact step_serial hs h hall hsolo (hi fun t x hx => hall t x (List.mem_append_left _ hx))
  rcases hi with hi | ⟨t, c, before, after, s₀, ht, -⟩
  · exact hi
  · exact absurd (hback t) ht

end Runs

end Programs

namespace Job

open Base Conc Parse Programs

variable {n : Nat} {file : List UInt8} {tr : List Act} {s : State}

/-! ## A job with one thread -/

/-- Who shows it. -/
def who : Threads.Event → Threads.Tid
  | .decoded t _ => t
  | .executes t _ => t
  | .finished t _ => t

/-- Only a thread that is there shows something. -/
theorem out_who {j : Threads.State} {b : Threads.Act} {e : Threads.Event}
    (he : e ∈ Threads.out j b) : j.pc (who e) ≠ .absent := by
  cases b with
  | main => exact absurd he List.not_mem_nil
  | thread t alloc junk =>
    have hfrom : ∀ {command : Decoded} {f : Decoded → Threads.Event}, (∀ d, who (f d) = t) →
        e ∈ command.listed.map f → who e = t := by
      intro command f hf hmem
      obtain ⟨d, -, rfl⟩ := List.mem_map.mp hmem
      exact hf d
    simp only [Threads.out] at he
    split at he
    next hp => rw [hfrom (fun _ => rfl) he, hp]; simp
    next command hp =>
      split at he
      next =>
        rw [List.mem_singleton.mp he]
        show j.pc t ≠ .absent
        rw [hp]
        simp
      next => rw [hfrom (fun _ => rfl) he, hp]; simp
    next hp => rw [hfrom (fun _ => rfl) he, hp]; simp
    next => exact absurd he List.not_mem_nil

/-- Everything is shown by one of the threads. -/
theorem run_who (hrun : (machine n file).run tr = some s) :
    ∀ e ∈ logOf n file tr, who e < n := by
  refine (machine n file).run_invariant (I := fun tr _ => ∀ e ∈ logOf n file tr, who e < n)
    (fun _ he => absurd he List.not_mem_nil) (fun tr s a s' hs hi h e he => ?_) tr s hrun
  cases a with
  | op t x =>
    rw [logOf_op] at he
    exact hi e he
  | job b =>
    rw [logOf_job hs h] at he
    rcases List.mem_append.mp he with hold | hnew
    · exact hi e hold
    · by_contra hge
      exact out_who hnew ((Threads.run_there (run_threads hs)).below _ (Nat.le_of_not_lt hge))

/-- A single thread has all of it. -/
theorem shareOf_all {α : Type} {t : Threads.Tid} {l : List (Threads.Tid × α)}
    (h : ∀ p ∈ l, p.1 = t) : shareOf t l = l.map (·.2) := by
  unfold shareOf
  rw [← List.filterMap_eq_map]
  exact List.filterMap_congr fun p hp => if_pos (h p hp)

/-- One thread calls the operations in the order of the file. -/
theorem solo_called (hrun : (machine 1 file).run tr = some s)
    (hgone : ∀ t, s.job.pc t = .absent) : Crew.called (callsOf 1 file tr) =
      (Threads.decodes (logOf 1 file tr)).filterMap opOf := by
  obtain ⟨-, hp, -, -⟩ := Threads.run_inv (run_threads hrun)
  have hwho : ∀ e ∈ logOf 1 file tr, who e = 0 := fun e he => Nat.lt_one_iff.mp (run_who hrun e he)
  have hexecuted : ∀ p ∈ executed (logOf 1 file tr), p.1 = 0 := by
    intro p hmem
    obtain ⟨e, he, heq⟩ := List.mem_filterMap.mp hmem
    have hzero := hwho e he
    cases e <;> cases heq
    exact hzero
  have hdecoded : ∀ p ∈ decoded (logOf 1 file tr), p.1 = 0 := by
    intro p hmem
    obtain ⟨e, he, heq⟩ := List.mem_filterMap.mp hmem
    have hzero := hwho e he
    cases e <;> cases heq
    exact hzero
  -- what the one thread has decoded it has executed
  have hdue := (hp 0).2
  rw [hgone 0] at hdue
  have hsame : (executed (logOf 1 file tr)).map (·.2) =
      ((decoded (logOf 1 file tr)).map (·.2)).filter Threads.isOp := by
    rw [← shareOf_all hexecuted, ← shareOf_all hdecoded, shareOf_executed, shareOf_decoded]
    exact ((List.append_nil _).symm.trans hdue.symm)
  have hops : ∀ l : List Decoded, (l.filter Threads.isOp).filterMap opOf = l.filterMap opOf := by
    intro l
    rw [List.filterMap_filter]
    refine List.filterMap_congr fun d _ => ?_
    cases ho : Threads.isOp d with
    | true => rfl
    | false => exact (opOf_of_not_isOp ho).symm
  rw [run_called hrun, decodes_eq, ← hops, ← hsame, List.filterMap_map]
  rfl

/-- Its calls do not overlap. -/
theorem solo_meets (hrun : (machine 1 file).run tr = some s) :
    (Programs.machine Threads.Tid).Meets Solo (callsOf 1 file tr) := by
  refine (machine 1 file).run_invariant
    (I := fun tr _ => (Programs.machine Threads.Tid).Meets Solo (callsOf 1 file tr))
    (fun before b after s₀ h => ?_) (fun tr s a s' hs hi h => ?_) tr s hrun
  · exact absurd h (by simp [callsOf, Machine.log, Machine.logFrom])
  rw [callsOf_snoc hs h]
  cases a with
  | op t x => exact hi.snoc (run_calls hs) fun hno => absurd rfl hno
  | job b =>
    cases hc : crosses s b with
    | none =>
      rw [callsOut, hc]
      exact (List.append_nil _).symm ▸ hi
    | some c =>
      rw [callsOut, hc]
      refine hi.snoc (run_calls hs) fun hno u => ?_
      rcases crosses_cases hc with ⟨t, _, _, command, _, -, hp, -, rfl⟩ | ⟨_, _, _, _, -, -, rfl⟩
      · -- the thread that makes the call is the only one there is
        have hthere := Threads.run_there (run_threads hs)
        have hzero : ∀ v, s.job.pc v ≠ .absent → v = 0 := fun v hv => by
          by_contra hne
          exact hv (hthere.below v (Nat.one_le_iff_ne_zero.mpr hne))
        cases hu : s.ems.thread u with
        | none => rfl
        | some r =>
          obtain ⟨d, hd, -⟩ := (run_joined hs).call u r hu
          rw [hzero t (by rw [hp]; simp)] at hp
          rw [hzero u (by rw [hd]; simp), hp] at hd
          cases hd
      · exact absurd rfl hno

/-- The calls of the one thread are those of the file, in order. -/
theorem solo_exec {D : List Decoded} (hD : decodeAll (Jobs.decode []) file = some D)
    (hend : Terminated file) (hshort : ShortNumerals file)
    (hrun : (machine 1 file).run tr = some s) (hok : ∀ a ∈ tr, Succeeds a)
    (hf : s.job.main = .finished) :
    execAll ⟨createList, []⟩ (D.filterMap opOf) =
      (s.ems.store, (returns (callsOf 1 file tr)).map (·.2)) := by
  obtain ⟨hgone, hdec⟩ := finished_decodes Nat.one_pos hend hshort hD hrun hf
  obtain ⟨-, hback⟩ := absent_calls hrun hgone
  obtain ⟨-, hexec⟩ := run_solo (run_calls hrun) (calls_ok hrun hok) (solo_meets hrun) hback
  rw [← hdec, ← solo_called hrun hgone]
  exact hexec

/-- **A job with one thread** leaves what its commands leave one after the other, and each
of them returns what it returns then. -/
theorem solo_job (hend : Terminated file) (hshort : ShortNumerals file)
    (hrun : (machine 1 file).run tr = some s) (hok : ∀ a ∈ tr, Succeeds a)
    (hf : s.job.main = .finished) :
    ∃ D, (∀ junk, decodeAll (Jobs.decode junk) file = some D) ∧
      execAll ⟨createList, []⟩ (D.filterMap opOf) =
        (s.ems.store, (returns (callsOf 1 file tr)).map (·.2)) := by
  obtain ⟨D, hD⟩ := decodeAll_total (jobs_handles []) (jobs_decoder []) hshort
  exact ⟨D, fun junk => (hend.decodeAll_junk hshort junk []).trans hD,
    solo_exec hD hend hshort hrun hok hf⟩

/-- A whole run of a job. -/
theorem solo_job_create : ∃ tr s, (machine 1 createThenShow).run tr = some s ∧
    (s.ems.store, (returns (callsOf 1 createThenShow tr)).map (·.2)) =
      (⟨[⟨1, 0, 1, 1, [0]⟩], "0\n".toList⟩, [(.create 1 1 1, 0), (.showEvent 1, 0)]) := by
  have hD : decodeAll (Jobs.decode []) createThenShow =
      some [.create 1 1 1, .barrier, .showEvent 1] := by decide
  have hend : Terminated createThenShow := .inr (by decide)
  have hshort : ShortNumerals createThenShow := shortNumerals_of_countP (by decide)
  obtain ⟨tr, s, hrun, hok, hf⟩ := exists_finish (n := 1) Nat.one_pos hend hshort hD
    fitting_createThenShow
  obtain ⟨D, hall, hexec⟩ := solo_job hend hshort hrun (fun a ha => (hok a ha).succeeds) hf
  cases (hall []).symm.trans hD
  exact ⟨tr, s, hrun, hexec.symm.trans rfl⟩

end Job

end Ems.Jobs
