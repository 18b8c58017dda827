import Ems.Conc.Mutex
import Ems.Server.Sessions

/-!
# Who holds which lock

The lock words agree with the places of the sessions, in every state of every
run: `MutexInv` for the mutexes of the events, `RwlInv` for the lock of the
list. Both come from the rules of `Step` alone. What the later files use is the
consequence: while a session is between its lock call and its unlock, nobody
else is.
-/

namespace Ems.Server

open Conc

/-- The event whose mutex a session in this place holds. -/
def Pc.holding : Pc → Option Nat
  | .reserveCheck _ e => some e
  | .reserveStore _ e _ _ => some e
  | .reserveRelease _ e _ => some e
  | _ => none

/-- The place is inside a read section of the list lock. -/
def Pc.reading : Pc → Bool
  | .reserveLookup _ => true
  | .reserveUnlist _ _ => true
  | .showLookup _ => true
  | .showUnlist _ => true
  | .listCount => true
  | .listIds _ _ _ => true
  | .listUnlock _ _ => true
  | _ => false

/-- The place is inside a write section of the list lock. -/
def Pc.writing : Pc → Bool
  | .createLookup _ _ _ => true
  | .createAppend _ _ _ => true
  | .createUnlock _ => true
  | _ => false

/-- The mutex of an event names the session that is in its critical section. -/
def MutexInv (s : State) : Prop := ∀ e t, s.mutex e = some t ↔ (s.pc t).holding = some e

/-- The list lock is held by the sessions inside its sections. -/
def RwlInv (s : State) : Prop := s.rwl.Follows Pc.reading Pc.writing s.pc

/-! ## The event mutexes -/

theorem Op.entry_holding (op : Op) : op.entry.holding = none := by
  cases op <;> rfl

theorem mutexInv_init : MutexInv State.init := by
  intro e t
  simp [State.init, Pc.holding]

/-- A step that takes or releases no mutex. -/
theorem mutexInv_goto {s s' : State} {t : Tid} {pc : Pc} (hi : MutexInv s)
    (hm : s'.mutex = s.mutex) (hp : s'.pc = Function.update s.pc t pc)
    (hh : pc.holding = (s.pc t).holding) : MutexInv s' := by
  intro e
  rw [hm]
  refine Owned.move (hi e) fun u => ?_
  rw [hp]
  by_cases hu : u = t
  · subst hu; rw [Function.update_self, hh]
  · rw [Function.update_of_ne hu]

/-- A step that takes or releases the mutex of `e`. -/
theorem mutexInv_update {s : State} {t : Tid} {pc : Pc} {e : Nat} {owner : Option Tid}
    (hi : MutexInv s) (hout : ∀ e', e' ≠ e → (pc.holding = some e' ↔ (s.pc t).holding = some e'))
    (he : Owned owner fun u => ((s.goto t pc).pc u).holding = some e) :
    MutexInv (State.goto { s with mutex := Function.update s.mutex e owner } t pc) := by
  intro e'
  show Owned (Function.update s.mutex e owner e') fun u => ((s.goto t pc).pc u).holding = some e'
  by_cases hee : e' = e
  · subst hee
    rw [Function.update_self]
    exact he
  · rw [Function.update_of_ne hee]
    refine Owned.move (hi e') fun u => ?_
    by_cases hu : u = t
    · subst hu; rw [goto_self]; exact hout e' hee
    · rw [goto_other hu]

theorem step_mutexInv {s s' : State} {a : Act} (hs : Step s a s') (hi : MutexInv s) :
    MutexInv s' := by
  have hother : ∀ {t u : Tid} {pc : Pc} {e : Nat}, u ≠ t →
      (((s.goto t pc).pc u).holding = some e ↔ (s.pc u).holding = some e) :=
    fun hu => by rw [goto_other hu]
  cases hs
  case call t op h =>
    exact mutexInv_goto hi rfl rfl (by rw [op.entry_holding, h]; rfl)
  case reserveMutex t c q e h hm =>
    refine mutexInv_update hi (fun e' hee => ?_) ?_
    · rw [h]; simp [Pc.holding, Ne.symm hee]
    · exact Owned.lock (hi e) hm (by simp [Pc.holding]) fun u hu => hother hu
  case reserveRelease t c q e ret h =>
    refine mutexInv_update hi (fun e' hee => ?_) ?_
    · rw [h]; simp [Pc.holding, Ne.symm hee]
    · exact Owned.unlock (t := t) (hi e) (by rw [h]; rfl) (by simp [Pc.holding]) fun u hu => hother hu
  all_goals exact mutexInv_goto hi rfl rfl (by simp [*, Pc.holding])

theorem run_mutexInv {tr : List Act} {s : State} (h : machine.run tr = some s) : MutexInv s :=
  machine.run_invariant (I := fun _ s => MutexInv s) mutexInv_init
    (fun _ _ _ _ _ hi hstep => step_mutexInv (step_cases hstep) hi) tr s h

/-! ## The list lock -/

theorem Op.entry_reading (op : Op) : op.entry.reading = false := by
  cases op <;> rfl

theorem Op.entry_writing (op : Op) : op.entry.writing = false := by
  cases op <;> rfl

theorem step_rwlInv {s s' : State} {a : Act} (hs : Step s a s') (hi : RwlInv s) : RwlInv s' := by
  cases hs
  case call t op h =>
    exact hi.goto (by rw [op.entry_reading, h]; rfl) (by rw [op.entry_writing, h]; rfl)
  case createLock t c id rows cols l h hl => exact hi.wrlock hl rfl rfl
  case reserveLock t c q l h hl => exact hi.rdlock hl rfl rfl
  case showLock t c id l h hl => exact hi.rdlock hl rfl rfl
  case listLock t c l h hl => exact hi.rdlock hl rfl rfl
  case createUnlock t c ret h => exact hi.unlock (Or.inr (by rw [h]; rfl)) rfl rfl
  case reserveMissing t c q h => exact hi.unlock (Or.inl (by rw [h]; rfl)) rfl rfl
  case reserveFound t c q e h => exact hi.unlock (Or.inl (by rw [h]; rfl)) rfl rfl
  case showUnlist t c event h => exact hi.unlock (Or.inl (by rw [h]; rfl)) rfl rfl
  case listUnlock t c num ids h => exact hi.unlock (Or.inl (by rw [h]; rfl)) rfl rfl
  all_goals exact hi.goto (by simp [*, Pc.reading]) (by simp [*, Pc.writing])

theorem run_rwlInv {tr : List Act} {s : State} (h : machine.run tr = some s) : RwlInv s :=
  machine.run_invariant (I := fun _ s => RwlInv s) (RwLock.follows_free rfl rfl)
    (fun _ _ _ _ _ hi hstep => step_rwlInv (step_cases hstep) hi) tr s h

/-! ## Found events stay found -/

/-- The id a session looked up and the position it got. -/
def Pc.aim : Pc → Option (UInt32 × Nat)
  | .reserveUnlist q (some e) => some (q.eventId, e)
  | .reserveMutex q e => some (q.eventId, e)
  | .reserveCheck q e => some (q.eventId, e)
  | .reserveStore q e _ _ => some (q.eventId, e)
  | .reserveRelease q e _ => some (q.eventId, e)
  | _ => none

/-- A lookup done earlier would give the same answer now. -/
def AimInv (s : State) : Prop :=
  ∀ t id e, (s.pc t).aim = some (id, e) → getEvent s.list id = some e

theorem Op.entry_aim (op : Op) : op.entry.aim = none := by
  cases op <;> rfl

/-- Changing an event without its id leaves the list of ids as it is. -/
theorem ids_setEvent {s : State} {e : Nat} {event : Event} (event' : Event)
    (he : s.list.nodes[e]? = some event) (hid : event'.id = event.id) :
    (s.setEvent e event').list.nodes.map (·.id) = s.list.nodes.map (·.id) := by
  show (s.list.nodes.set e event').map (·.id) = s.list.nodes.map (·.id)
  obtain ⟨hlt, hget⟩ := List.getElem?_eq_some_iff.mp he
  rw [List.map_set, hid, ← hget]
  apply List.ext_getElem
  · simp
  · intro i h1 h2
    by_cases hi : e = i
    · subst hi; simp
    · simp [hi]

/-- Nor does it change a lookup. -/
theorem getEvent_setEvent {s : State} {e : Nat} {event : Event} (event' : Event)
    (he : s.list.nodes[e]? = some event) (hid : event'.id = event.id) (id : UInt32) :
    getEvent (s.setEvent e event').list id = getEvent s.list id := by
  rw [getEvent_eq, getEvent_eq, ids_setEvent event' he hid]

/-- A step of `t` that keeps every lookup and aims at nothing new. -/
theorem aimInv_goto {s s' : State} {t : Tid} {pc : Pc} (hi : AimInv s)
    (hl : ∀ id e, getEvent s.list id = some e → getEvent s'.list id = some e)
    (hp : s'.pc = Function.update s.pc t pc)
    (haim : ∀ id e, pc.aim = some (id, e) → getEvent s.list id = some e) : AimInv s' := by
  intro u id e hu
  rw [hp] at hu
  by_cases hut : u = t
  · subst hut
    rw [Function.update_self] at hu
    exact hl id e (haim id e hu)
  · rw [Function.update_of_ne hut] at hu
    exact hl id e (hi u id e hu)

theorem step_aimInv {s s' : State} {a : Act} (hs : Step s a s') (hi : AimInv s) : AimInv s' := by
  cases hs
  case call t op h =>
    exact aimInv_goto hi (fun _ _ hg => hg) rfl (by rw [op.entry_aim]; simp)
  case reserveLookup t c q h =>
    refine aimInv_goto hi (fun _ _ hg => hg) rfl fun id e haim => ?_
    cases hg : getEvent s.list q.eventId with
    | none => rw [hg] at haim; cases haim
    | some e' => rw [hg] at haim; cases haim; exact hg
  case createAppend t c id rows cols h =>
    refine aimInv_goto hi (fun id' e hg => ?_) rfl (by simp [Pc.aim])
    show getEvent (createEvent c.alloc s.list id rows cols).1 id' = some e
    rcases createEvent_cases c.alloc s.list id rows cols with hc | hc
    · rw [hc]; exact hg
    · rw [hc]; exact getEvent_append hg
  case reserveAdmit t c q e event h he hq =>
    refine aimInv_goto hi (fun id' e' hg => ?_) rfl fun id' e' haim => ?_
    · exact (getEvent_setEvent (bumpReservations event) he rfl id').trans hg
    · exact hi t id' e' (by rw [h]; exact haim)
  case reserveStore t c q e r i event h he hlt hin =>
    refine aimInv_goto hi (fun id' e' hg => ?_) rfl fun id' e' haim => ?_
    · exact (getEvent_setEvent (storeSeat event q r i) he rfl id').trans hg
    · exact hi t id' e' (by rw [h]; exact haim)
  case reserveFound t c q e h =>
    exact aimInv_goto hi (fun _ _ hg => hg) rfl fun id' e' haim => hi t id' e' (by rw [h]; exact haim)
  case reserveMutex t c q e h hm =>
    exact aimInv_goto hi (fun _ _ hg => hg) rfl fun id' e' haim => hi t id' e' (by rw [h]; exact haim)
  case reserveRefuse t c q e event h he hq =>
    exact aimInv_goto hi (fun _ _ hg => hg) rfl fun id' e' haim => hi t id' e' (by rw [h]; exact haim)
  case reserveStored t c q e r i event h he hle =>
    exact aimInv_goto hi (fun _ _ hg => hg) rfl fun id' e' haim => hi t id' e' (by rw [h]; exact haim)
  all_goals exact aimInv_goto hi (fun _ _ hg => hg) rfl (by simp [Pc.aim])

theorem run_aimInv {tr : List Act} {s : State} (h : machine.run tr = some s) : AimInv s :=
  machine.run_invariant (I := fun _ s => AimInv s) (by simp [AimInv, machine, State.init, Pc.aim])
    (fun _ _ _ _ _ hi hstep => step_aimInv (step_cases hstep) hi) tr s h

end Ems.Server
