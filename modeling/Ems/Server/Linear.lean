import Ems.Conc.Linearize
import Ems.Server.Booking

/-!
# CREATE, RESERVE and LIST are linearizable

The store as a sequential object (`serial`) and the server as an implementation
of it. A `RESERVE` takes effect where its outcome is decided: at the lookup when
there is no such event, otherwise at the check under the event's mutex. The
seats it then stores one by one are already part of the abstract store:
`settled` is the list with every storing loop run to its end.

The one gap in the code is that `ems_reserve` gives the list lock back before it
takes the mutex. `AimInv` closes it: events are never removed and a create only
appends, so the position found at the lookup is what a lookup at the check
would find.

`SHOW` is not part of the object. It takes no mutex and is no snapshot, so its
calls and returns are not in the history (`view`); its steps are in the run.
-/

namespace Ems.Server

open Conc

/-- The store, one request after the other. -/
def serial : Obj EventList Op Reply := ⟨createList, Op.exec⟩

/-- The calls and returns of CREATE, RESERVE and LIST. -/
def view (s : State) : Act → Option (Visible Tid Op Reply)
  | .call _ (.showEvent _) => none
  | .call t op => some (.call t op)
  | .step _ _ => none
  | .ret t =>
    match s.pc t with
    | .done (.matrix _ _ _ _) => none
    | .done reply => some (.ret t reply)
    | _ => none

/-- Whether the request of a session has taken effect. -/
def Pc.status : Pc → Status Op Reply
  | .createLock id rows cols => .before (.create id rows cols)
  | .createLookup id rows cols => .before (.create id rows cols)
  | .createAppend id rows cols => .before (.create id rows cols)
  | .createUnlock ret => .after (.status ret)
  | .reserveLock q => .before (.reserve q)
  | .reserveLookup q => .before (.reserve q)
  | .reserveUnlist _ none => .after (.status 1)
  | .reserveUnlist q (some _) => .before (.reserve q)
  | .reserveMutex q _ => .before (.reserve q)
  | .reserveCheck q _ => .before (.reserve q)
  | .reserveStore _ _ _ _ => .after (.status 0)
  | .reserveRelease _ _ ret => .after (.status ret)
  | .listLock => .before .listEvents
  | .listCount => .before .listEvents
  | .listIds _ _ _ => .before .listEvents
  | .listUnlock num ids => .after (.listing num ids 0)
  | .done (.matrix _ _ _ _) => .idle
  | .done reply => .after reply
  | _ => .idle

/-- The rest of a storing loop. -/
def Pc.finish : Pc → Event → Event
  | .reserveStore q _ r i, event => storeFrom event q r i (q.numSeats.toNat - i)
  | _, event => event

/-- What the event at `e` becomes once the session in its critical section is
through. -/
def State.finish (s : State) (e : Nat) (event : Event) : Event :=
  match s.inside e with
  | none => event
  | some pc => pc.finish event

/-- The store with every storing loop run to its end. -/
def State.settled (s : State) : EventList :=
  { eventNum := s.list.eventNum, nodes := s.list.nodes.mapIdx s.finish }

/-! ## What a session saw under the list lock -/

/-- What a session has read from the list and still relies on. -/
def Pc.Seen (list : EventList) : Pc → Prop
  | .createAppend id _ _ => getEvent list id = none
  | .listIds num last ids => num = list.eventNum ∧ num ≠ 0 ∧
      last = (list.nodes.map (·.id)).length - 1 ∧ ids = (list.nodes.map (·.id)).take ids.length
  | _ => True

/-- What the sessions saw is still so. -/
def SeenInv (s : State) : Prop := ∀ t, (s.pc t).Seen s.list

theorem Op.entry_seen (op : Op) (list : EventList) : op.entry.Seen list := by
  cases op <;> trivial

/-- Only the counter and the ids are relied on. -/
theorem Pc.Seen.congr {pc : Pc} {list list' : EventList} (h : pc.Seen list)
    (hnum : list'.eventNum = list.eventNum)
    (hids : list'.nodes.map (·.id) = list.nodes.map (·.id)) : pc.Seen list' := by
  cases pc
  case createAppend id rows cols =>
    exact (by rw [getEvent_eq, hids, ← getEvent_eq]; exact h : getEvent list' id = none)
  case listIds num last ids =>
    unfold Pc.Seen at h ⊢
    rw [hnum, hids]
    exact h
  all_goals trivial

/-- Nothing is relied on outside the sections of the list lock. -/
theorem Pc.seen_outside {pc : Pc} (list : EventList) (hr : pc.reading = false)
    (hw : pc.writing = false) : pc.Seen list := by
  cases pc <;> trivial

theorem seenInv_goto {s s' : State} {t : Tid} {pc : Pc} (hi : SeenInv s)
    (hnum : s'.list.eventNum = s.list.eventNum)
    (hids : s'.list.nodes.map (·.id) = s.list.nodes.map (·.id))
    (hp : s'.pc = Function.update s.pc t pc) (hpc : pc.Seen s.list) : SeenInv s' := by
  intro u
  rw [hp]
  by_cases hu : u = t
  · subst hu
    rw [Function.update_self]
    exact hpc.congr hnum hids
  · rw [Function.update_of_ne hu]
    exact (hi u).congr hnum hids

theorem step_seenInv {s s' : State} {a : Act} (hs : Step s a s') (hl : RwlInv s)
    (hi : SeenInv s) : SeenInv s' := by
  cases hs
  case call t op h => exact seenInv_goto hi rfl rfl rfl (op.entry_seen _)
  case createAbsent t c id rows cols h he => exact seenInv_goto hi rfl rfl rfl he
  case createAppend t c id rows cols h =>
    -- a writer is alone: nobody else has read the list
    have hwr : (s.pc t).writing = true := by rw [h]; rfl
    intro u
    by_cases hu : u = t
    · subst hu
      rw [goto_self]
      trivial
    · rw [goto_other hu]
      obtain ⟨hnr, hnw⟩ := hl.alone hwr hu
      exact Pc.seen_outside _ hnr hnw
  case reserveAdmit t c q e event h he hq =>
    exact seenInv_goto hi rfl (ids_setEvent (bumpReservations event) he rfl) rfl trivial
  case reserveStore t c q e r i event h he hlt hin =>
    exact seenInv_goto hi rfl (ids_setEvent (storeSeat event q r i) he rfl) rfl trivial
  case listCount t c h hn => exact seenInv_goto hi rfl rfl rfl ⟨rfl, hn, by simp, rfl⟩
  case listNext t c num last ids event h he hto =>
    have hseen := hi t
    rw [h] at hseen
    obtain ⟨hnum, hne, hlast, hids⟩ := hseen
    refine seenInv_goto hi rfl rfl rfl ⟨hnum, hne, hlast, ?_⟩
    rw [List.length_append, List.length_singleton, List.take_add_one, List.getElem?_map, he, ← hids]
    rfl
  all_goals exact seenInv_goto hi rfl rfl rfl trivial

theorem run_seenInv {tr : List Act} {s : State} (h : machine.run tr = some s) : SeenInv s :=
  machine.run_invariant (I := fun _ s => SeenInv s) (fun _ => trivial)
    (fun _ _ _ _ hr hi hstep => step_seenInv (step_cases hstep) (run_rwlInv hr) hi) tr s h

/-! ## The settled store -/

/-- The settled list depends on the list only through the settled events. -/
theorem settled_eq {s s' : State} (hnum : s'.list.eventNum = s.list.eventNum)
    (hnode : ∀ e, (s'.list.nodes[e]?).map (s'.finish e) = (s.list.nodes[e]?).map (s.finish e)) :
    s'.settled = s.settled := by
  unfold State.settled
  rw [hnum]
  congr 1
  apply List.ext_getElem?
  intro e
  rw [List.getElem?_mapIdx, List.getElem?_mapIdx]
  exact hnode e

/-- A session that does the same to every event before and after its move. -/
theorem finish_goto {s s' : State} {t : Tid} {pc : Pc} (hm : s'.mutex = s.mutex)
    (hp : s'.pc = Function.update s.pc t pc)
    (hf : ∀ event, pc.finish event = (s.pc t).finish event) : s'.finish = s.finish := by
  funext e event
  unfold State.finish State.inside
  rw [hm, hp]
  cases s.mutex e with
  | none => rfl
  | some u =>
    show (Function.update s.pc t pc u).finish event = (s.pc u).finish event
    by_cases hu : u = t
    · subst hu; rw [Function.update_self]; exact hf event
    · rw [Function.update_of_ne hu]

theorem settled_goto {s s' : State} {t : Tid} {pc : Pc} (hl : s'.list = s.list)
    (hm : s'.mutex = s.mutex) (hp : s'.pc = Function.update s.pc t pc)
    (hf : ∀ event, pc.finish event = (s.pc t).finish event) : s'.settled = s.settled := by
  refine settled_eq (by rw [hl]) fun e => ?_
  rw [hl, finish_goto hm hp hf]

/-- Taking or giving back a mutex with nothing left to store. -/
theorem settled_mutex {s : State} {t : Tid} {e : Nat} {owner : Option Tid} {pc : Pc}
    (hfin : ∀ event, s.finish e event = event) (hpc : ∀ event, pc.finish event = event)
    (hown : ∀ u, owner = some u → u = t) (hother : ∀ e', e' ≠ e → s.mutex e' ≠ some t) :
    (State.goto { s with mutex := Function.update s.mutex e owner } t pc).settled =
      s.settled := by
  refine settled_eq rfl fun e' => ?_
  congr 1
  funext event
  by_cases he : e' = e
  · subst he
    rw [hfin event]
    -- this mutex changes hands with nothing left to store; the others stay where they are
    simp only [State.finish, State.inside, goto_mutex, Function.update_self]
    cases owner with
    | none => rfl
    | some u =>
      rw [hown u rfl, Option.map_some, goto_self]
      exact hpc event
  · simp only [State.finish, State.inside, goto_mutex, Function.update_of_ne he]
    cases hmut : s.mutex e' with
    | none => rfl
    | some u =>
      have hu : u ≠ t := by rintro rfl; exact hother e' he hmut
      rw [Option.map_some, Option.map_some, goto_other hu]

/-- The ids of the settled list are the ids of the list. -/
theorem settled_ids (s : State) :
    s.settled.nodes.map (·.id) = s.list.nodes.map (·.id) := by
  have hfin : ∀ e event, (s.finish e event).id = event.id := by
    intro e event
    unfold State.finish
    split
    next => rfl
    next pc _ => cases pc <;> first | rfl | exact storeFrom_id ..
  apply List.ext_getElem?
  intro e
  rw [List.getElem?_map, List.getElem?_map]
  unfold State.settled
  rw [List.getElem?_mapIdx, Option.map_map]
  congr 1
  funext event
  exact hfin e event

theorem settled_getEvent (s : State) (id : UInt32) :
    getEvent s.settled id = getEvent s.list id := by
  rw [getEvent_eq, getEvent_eq, settled_ids]

theorem settled_getElem? (s : State) (e : Nat) :
    s.settled.nodes[e]? = (s.list.nodes[e]?).map (s.finish e) := by
  unfold State.settled
  rw [List.getElem?_mapIdx]

/-- A session that holds the mutex of an event has looked the event up. -/
theorem Pc.aim_of_holding {pc : Pc} {e : Nat} (h : pc.holding = some e) :
    ∃ id, pc.aim = some (id, e) := by
  cases pc <;> cases h <;> exact ⟨_, rfl⟩

/-- Only mutexes of existing events are held. -/
theorem mutex_lt {s : State} (hm : MutexInv s) (haim : AimInv s) {e : Nat} {t : Tid}
    (h : s.mutex e = some t) : e < s.list.nodes.length := by
  obtain ⟨id, hid⟩ := Pc.aim_of_holding ((hm e t).mp h)
  exact getEvent_lt (haim t id e hid)

/-- An append to the list is an append to the settled list. -/
theorem settled_append {s : State} {t : Tid} {pc : Pc} (event : Event) (hm : MutexInv s)
    (haim : AimInv s) (hf : ∀ event, pc.finish event = (s.pc t).finish event) :
    (State.goto { s with list := appendToList s.list event } t pc).settled =
      appendToList s.settled event := by
  have hpc : (State.goto { s with list := appendToList s.list event } t pc).pc =
      Function.update s.pc t pc := rfl
  have hfin : (State.goto { s with list := appendToList s.list event } t pc).finish = s.finish :=
    finish_goto rfl hpc hf
  -- nobody can have the mutex of an event that is not there yet
  have hnew : s.finish s.list.nodes.length event = event := by
    unfold State.finish State.inside
    cases hmut : s.mutex s.list.nodes.length with
    | none => rfl
    | some u => exact absurd (mutex_lt hm haim hmut) (Nat.lt_irrefl _)
  unfold State.settled appendToList at *
  rw [hfin]
  simp only [goto_list, List.mapIdx_concat, hnew]

/-- The session inside the critical section of `e` changes its event. -/
theorem settled_setEvent {s : State} {t : Tid} {pc : Pc} {e : Nat} {event : Event}
    (event' : Event) (hown : s.mutex e = some t) (he : s.list.nodes[e]? = some event)
    (hm : MutexInv s) :
    ((s.setEvent e event').goto t pc).settled =
      { s.settled with nodes := s.settled.nodes.set e (pc.finish event') } := by
  have hlt : e < s.settled.nodes.length := by
    unfold State.settled
    rw [List.length_mapIdx]
    exact (List.getElem?_eq_some_iff.mp he).1
  have hnodes : ((s.setEvent e event').goto t pc).settled.nodes =
      s.settled.nodes.set e (pc.finish event') := by
    apply List.ext_getElem?
    intro e'
    rw [settled_getElem?, goto_list]
    by_cases hee : e' = e
    · subst hee
      rw [getElem?_setEvent_self he, List.getElem?_set_self hlt]
      simp [State.finish, State.inside, State.setEvent, hown]
    · rw [getElem?_setEvent_of_ne hee, List.getElem?_set_ne (Ne.symm hee), settled_getElem?]
      congr 1
      funext event''
      have hin : ((s.setEvent e event').goto t pc).inside e' = s.inside e' := by
        refine inside_of_other hm rfl rfl ?_
        rw [(hm e t).mp hown]
        exact fun hc => hee (Option.some.inj hc).symm
      unfold State.finish
      rw [hin]
  rw [← hnodes]
  rfl

/-! ## The points -/

theorem emsReserve_missing {list : EventList} {q : Request} (h : getEvent list q.eventId = none) :
    emsReserve list q = (list, 1) := by
  unfold emsReserve
  rw [h]

theorem emsReserve_found {list : EventList} {q : Request} {e : Nat} {event : Event}
    (h : getEvent list q.eventId = some e) (he : list.nodes[e]? = some event) :
    emsReserve list q =
      ({ list with nodes := list.nodes.set e (reserveSeats event q).1 },
        (reserveSeats event q).2) := by
  unfold emsReserve
  rw [h]
  simp only [he]

/-- The event a session is about to check, in the settled list. -/
theorem settled_checked {s : State} {t : Tid} {q : Request} {e : Nat} {event : Event}
    (h : s.pc t = .reserveCheck q e) (hown : s.mutex e = some t)
    (he : s.list.nodes[e]? = some event) : s.settled.nodes[e]? = some event := by
  rw [settled_getElem?, he]
  simp [State.finish, State.inside, hown, h, Pc.finish]

/-- Under the mutex the operation is decided by the event itself. -/
theorem exec_reserve {s : State} {t : Tid} {q : Request} {e : Nat} {event : Event}
    (h : s.pc t = .reserveCheck q e) (hm : MutexInv s) (haim : AimInv s)
    (he : s.list.nodes[e]? = some event) :
    (Op.reserve q).exec s.settled = (.status (reserveSeats event q).2,
      { s.settled with nodes := s.settled.nodes.set e (reserveSeats event q).1 }) := by
  have hown : s.mutex e = some t := (hm e t).mpr (by rw [h]; rfl)
  have hget : getEvent s.settled q.eventId = some e := by
    rw [settled_getEvent]
    exact haim t q.eventId e (by rw [h]; rfl)
  simp only [Op.exec, emsReserve_found hget (settled_checked h hown he)]

/-- A list that was walked to its end was read as a whole. -/
theorem exec_listEvents {s : State} {num : UInt64} {ids : List UInt32} {event : Event}
    (hseen : (Pc.listIds num ids.length ids).Seen s.list)
    (he : s.list.nodes[ids.length]? = some event) :
    Op.listEvents.exec s.settled = (.listing num (ids ++ [event.id]) 0, s.settled) := by
  obtain ⟨hnum, hne, hlast, hids⟩ := hseen
  obtain ⟨hlt, hget⟩ := List.getElem?_eq_some_iff.mp he
  have hall : ids ++ [event.id] = s.list.nodes.map (·.id) := by
    rw [List.length_map] at hlast
    have htake : (s.list.nodes.map (·.id)).take (ids.length + 1) = s.list.nodes.map (·.id) :=
      List.take_of_length_le (by rw [List.length_map]; omega)
    rw [← htake, List.take_add_one, ← hids, List.getElem?_map, he]
    rfl
  have hnum' : s.settled.eventNum = num := hnum.symm
  simp only [Op.exec, emsListEvents, settled_ids, hnum', if_neg hne, hall]

/-! ## The run -/

/-- The allocator grants what this step asks for. -/
def Act.Granted : Act → Prop
  | .step _ c => c.alloc = Alloc.allOk
  | _ => True

/-- How far the sessions are with their requests. -/
def State.status (s : State) (t : Tid) : Status Op Reply := (s.pc t).status

theorem status_goto (s : State) (t : Tid) (pc : Pc) :
    (s.goto t pc).status = Function.update s.status t pc.status := by
  funext u
  unfold State.status
  by_cases hu : u = t
  · subst hu; rw [goto_self, Function.update_self]
  · rw [goto_other hu, Function.update_of_ne hu]

theorem status_same {s : State} {t : Tid} {pc : Pc} (h : pc.status = (s.pc t).status) :
    (s.goto t pc).status = s.status := by
  rw [status_goto, h]
  exact Function.update_eq_self ..

/-- What a step that is neither a call nor a return does to the object:
nothing, or the operation of one request. -/
theorem step_point {s s' : State} {a : Act} (hs : Step s a s') (hg : a.Granted)
    (hv : view s a = none) (hm : MutexInv s) (haim : AimInv s) (hseen : SeenInv s) :
    (s'.status = s.status ∧ s'.settled = s.settled) ∨
    ∃ t op, s.status t = .before op ∧
      s'.status = Function.update s.status t (.after (op.exec s.settled).1) ∧
      s'.settled = (op.exec s.settled).2 := by
  cases hs
  case call t op h =>
    cases op
    case showEvent id =>
      exact Or.inl ⟨status_same (by rw [h]; rfl),
        settled_goto rfl rfl rfl (by simp [h, Pc.finish, Op.entry])⟩
    all_goals cases hv
  case ret t r h =>
    simp only [view, h] at hv
    cases r
    case matrix rows cols sent ret =>
      exact Or.inl ⟨status_same (by rw [h]; rfl), settled_goto rfl rfl rfl (by simp [h, Pc.finish])⟩
    all_goals cases hv
  case createExists t c id rows cols h he =>
    refine Or.inr ⟨t, .create id rows cols, by unfold State.status; rw [h]; rfl, ?_⟩
    have hexec : (Op.create id rows cols).exec s.settled = (.status 1, s.settled) := by
      simp only [Op.exec, emsCreate, settled_getEvent, he, if_true]
    rw [hexec]
    exact ⟨status_goto _ _ _, settled_goto rfl rfl rfl (by simp [h, Pc.finish])⟩
  case createAppend t c id rows cols h =>
    have hnone : getEvent s.list id = none := by
      have := hseen t
      rw [h] at this
      exact this
    refine Or.inr ⟨t, .create id rows cols, by unfold State.status; rw [h]; rfl, ?_⟩
    simp only [Op.exec, emsCreate, settled_getEvent, hnone, Option.isSome_none,
      Bool.false_eq_true, if_false, show c.alloc = Alloc.allOk from hg, createEvent_allOk]
    split
    · exact ⟨status_goto _ _ _, settled_append _ hm haim (by simp [h, Pc.finish])⟩
    · exact ⟨status_goto _ _ _, settled_goto rfl rfl rfl (by simp [h, Pc.finish])⟩
  case reserveLookup t c q h =>
    cases hg : getEvent s.list q.eventId with
    | some e =>
      refine Or.inl ⟨status_same ?_, settled_goto rfl rfl rfl (by simp [h, Pc.finish])⟩
      rw [h]
      rfl
    | none =>
      refine Or.inr ⟨t, .reserve q, by unfold State.status; rw [h]; rfl, ?_⟩
      have hexec : (Op.reserve q).exec s.settled = (.status 1, s.settled) := by
        simp only [Op.exec, emsReserve_missing ((settled_getEvent s q.eventId).trans hg)]
      rw [hexec]
      exact ⟨status_goto _ _ _, settled_goto rfl rfl rfl (by simp [h, Pc.finish])⟩
  case reserveMutex t c q e h hfree =>
    refine Or.inl ⟨status_same (by rw [h]; rfl), ?_⟩
    refine settled_mutex ?_ (fun _ => rfl) (fun u hu => (Option.some.inj hu).symm) ?_
    · intro event
      simp [State.finish, State.inside, hfree]
    · intro e' _ hown
      have := (hm e' t).mp hown
      rw [h] at this
      cases this
  case reserveAdmit t c q e event h he hq =>
    have hown : s.mutex e = some t := (hm e t).mpr (by rw [h]; rfl)
    refine Or.inr ⟨t, .reserve q, by unfold State.status; rw [h]; rfl, ?_⟩
    have hdone : reserveSeats event q = (storeFrom (bumpReservations event) q
        (event.reservations + 1) 0 q.numSeats.toNat, 0) := if_pos hq
    rw [exec_reserve h hm haim he, hdone]
    refine ⟨status_goto _ _ _, ?_⟩
    rw [settled_setEvent _ hown he hm]
    rfl
  case reserveRefuse t c q e event h he hq =>
    have hown : s.mutex e = some t := (hm e t).mpr (by rw [h]; rfl)
    refine Or.inr ⟨t, .reserve q, by unfold State.status; rw [h]; rfl, ?_⟩
    have hdone : reserveSeats event q = (event, 1) := if_neg (by simp [hq])
    rw [exec_reserve h hm haim he, hdone, set_same (settled_checked h hown he)]
    exact ⟨status_goto _ _ _, settled_goto rfl rfl rfl (by simp [h, Pc.finish])⟩
  case reserveStore t c q e r i event h he hi hin =>
    -- the store is one the settled list already has
    have hown : s.mutex e = some t := (hm e t).mpr (by rw [h]; rfl)
    refine Or.inl ⟨status_same (s := s.setEvent e _) ?_, ?_⟩
    · show _ = (s.pc t).status
      rw [h]
      rfl
    rw [settled_setEvent _ hown he hm, set_same]
    rw [settled_getElem?, he]
    have hn : q.numSeats.toNat - i = (q.numSeats.toNat - (i + 1)) + 1 := by omega
    simp only [State.finish, State.inside, hown, h, Option.map_some, Pc.finish, hn, storeFrom_succ]
  case reserveStored t c q e r i event h he hi =>
    refine Or.inl ⟨status_same (by rw [h]; rfl), settled_goto rfl rfl rfl fun event => ?_⟩
    rw [h]
    simp only [Pc.finish, show q.numSeats.toNat - i = 0 by omega]
    rfl
  case reserveRelease t c q e ret h =>
    have hown : s.mutex e = some t := (hm e t).mpr (by rw [h]; rfl)
    refine Or.inl ⟨status_same (by rw [h]; rfl), ?_⟩
    refine settled_mutex ?_ (fun _ => rfl) (fun u hu => by cases hu) ?_
    · intro event
      simp [State.finish, State.inside, hown, h, Pc.finish]
    · intro e' he' hown'
      have := (hm e' t).mp hown'
      rw [h] at this
      exact he' (Option.some.inj this).symm
  case listEmpty t c h hn =>
    refine Or.inr ⟨t, .listEvents, by unfold State.status; rw [h]; rfl, ?_⟩
    have hn' : s.settled.eventNum = 0 := hn
    simp only [Op.exec, emsListEvents, hn', if_true]
    exact ⟨status_goto _ _ _, settled_goto rfl rfl rfl (by simp [h, Pc.finish])⟩
  case listLast t c num ids event h he =>
    have hread := hseen t
    rw [h] at hread
    refine Or.inr ⟨t, .listEvents, by unfold State.status; rw [h]; rfl, ?_⟩
    rw [exec_listEvents hread he]
    exact ⟨status_goto _ _ _, settled_goto rfl rfl rfl (by simp [h, Pc.finish])⟩
  all_goals
    exact Or.inl ⟨status_same (by simp [*, Pc.status]),
      settled_goto rfl rfl rfl (by simp [*, Pc.finish])⟩

theorem Pc.holding_of_idle {pc : Pc} (h : pc.status = .idle) : pc.holding = none := by
  cases pc <;> first | rfl | cases h

/-- Between requests nothing is left to store. -/
theorem settled_quiet {s : State} (hm : MutexInv s) (hq : ∀ t, s.status t = .idle) :
    s.settled = s.list := by
  have hfree : ∀ e, s.mutex e = none := by
    intro e
    cases hmut : s.mutex e with
    | none => rfl
    | some t =>
      have hh := (hm e t).mp hmut
      rw [Pc.holding_of_idle (hq t)] at hh
      cases hh
  have hfin : s.finish = fun _ event => event := by
    funext e event
    unfold State.finish State.inside
    rw [hfree e]
    rfl
  unfold State.settled
  rw [hfin, List.mapIdx_eq_zipIdx_map]
  simp

theorem entry_status {op : Op} (h : ∀ id, op ≠ .showEvent id) : op.entry.status = .before op := by
  cases op with
  | showEvent id => exact absurd rfl (h id)
  | create id rows cols => rfl
  | reserve q => rfl
  | listEvents => rfl

/-- Every run is explained by the order of its points. -/
theorem run_explained {tr : List Act} {s : State} (hok : ∀ a ∈ tr, a.Granted)
    (hrun : machine.run tr = some s) :
    ∃ lin, Explained serial (machine.history view tr) s.settled s.status lin := by
  refine linearizable_of_points machine serial view State.settled State.status
    (fun _ a => a.Granted) rfl rfl ?_ ?_ ?_ (machine.meets_of_forall hok) hrun
  · intro tr s a s' t op _ hg hstep hv
    have hs := step_cases hstep
    clear hg hstep
    cases hs
    case call u op' h =>
      have hseen : op' = op ∧ u = t ∧ ∀ id, op' ≠ .showEvent id := by
        cases op' <;> cases hv <;> exact ⟨rfl, rfl, fun id => by simp⟩
      obtain ⟨rfl, rfl, hne⟩ := hseen
      refine ⟨by unfold State.status; rw [h]; rfl, ?_, ?_⟩
      · rw [status_goto, entry_status hne]
      · refine settled_goto rfl rfl rfl fun event => ?_
        rw [h]
        cases op' <;> rfl
    case ret u r h =>
      simp only [view, h] at hv
      cases r <;> cases hv
    all_goals cases hv
  · intro tr s a s' t rep _ hg hstep hv
    have hs := step_cases hstep
    clear hg hstep
    cases hs
    case call u op' h => cases op' <;> cases hv
    case ret u r h =>
      have hstat : s.status u = .after r ∧ r = rep ∧ u = t := by
        simp only [view, h] at hv
        unfold State.status
        rw [h]
        cases r <;> cases hv <;> exact ⟨rfl, rfl, rfl⟩
      obtain ⟨hst, rfl, rfl⟩ := hstat
      refine ⟨hst, status_goto _ _ _, settled_goto rfl rfl rfl fun event => ?_⟩
      rw [h]
      rfl
    all_goals cases hv
  · intro tr s a s' hr hg hstep hv
    exact step_point (step_cases hstep) hg hv (run_mutexInv hr) (run_aimInv hr) (run_seenInv hr)

/-- **CREATE, RESERVE and LIST are linearizable.** In every run in which
allocation succeeds there is an order of the requests, consistent with real
time, in which the sequential store gives every request its reply and ends in
the server's store. Requests still under way may be in the order or not; when
there are none it has exactly the completed ones, and the final store is the
list itself. -/
theorem requests_linearizable {tr : List Act} {s : State} (hok : ∀ a ∈ tr, a.Granted)
    (hrun : machine.run tr = some s) :
    ∃ lin, IsLinearization serial (machine.history view tr) s.settled lin ∧
      ((∀ t, (track (machine.history view tr)).pending t = none) →
        lin.Perm ((track (machine.history view tr)).done.map Done.placed) ∧
        s.settled = s.list) := by
  obtain ⟨lin, he⟩ := run_explained hok hrun
  refine ⟨lin, he.isLin, fun hq => ⟨he.isLin.perm hq, settled_quiet (run_mutexInv hrun) ?_⟩⟩
  intro t
  cases hst : s.status t with
  | idle => rfl
  | before op =>
    obtain ⟨i, hi, -⟩ := he.before t op hst
    rw [hq t] at hi
    cases hi
  | after rep =>
    obtain ⟨i, op, hi, -⟩ := he.after t rep hst
    rw [hq t] at hi
    cases hi

/-- The two sessions of `twoBookings` and their requests, all returned. -/
theorem requests_linearizable_twoBookings :
    ∃ s, machine.run (twoBookings ++ [.ret 1, .ret 2]) = some s ∧ ∃ lin,
      IsLinearization serial (machine.history view (twoBookings ++ [.ret 1, .ret 2])) s.list lin ∧
      lin.length = 3 := by
  obtain ⟨s, hs⟩ := Option.isSome_iff_exists.mp
    (show (machine.run (twoBookings ++ [.ret 1, .ret 2])).isSome = true by decide)
  obtain ⟨lin, hlin, hend⟩ := requests_linearizable (by simp [twoBookings, Act.Granted]) hs
  have hquiet : ∀ t, (track (machine.history view
      (twoBookings ++ [.ret 1, .ret 2]))).pending t = none := by
    intro t
    rcases t with _ | _ | _ | t <;> rfl
  obtain ⟨hperm, hsettled⟩ := hend hquiet
  rw [hsettled] at hlin
  have hdone : (track (machine.history view (twoBookings ++ [.ret 1, .ret 2]))).done.length = 3 := by
    rfl
  exact ⟨s, hs, lin, hlin, by rw [hperm.length_eq, List.length_map, hdone]⟩

end Ems.Server
