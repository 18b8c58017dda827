import Mathlib.Logic.Function.Basic
import Ems.Conc.Machine
import Ems.Conc.RwLock
import Ems.Jobs.Store

/-!
# Concurrent CREATEs of the job runner

`ems_create` of the first part, by any number of threads at once. The call looks
for the id under the read locks, gives both locks back, builds the event, and
appends it under the write lock of the list. It does not look again. Two threads
that are both between the lookup and the append of the same id therefore both
append (`twins`), and the test behind "Event already exists" has been in vain.

`Vacant` is what keeps this from happening: a lookup that finds nothing happens
only while no other thread is in the gap with the same id. In the runs that meet
it the ids are unique (`unique_ids`). The second part of the repository has no
gap to speak of: there the write lock is held from the lookup to the append.

Mirroring notes:
- The lookup fails or succeeds under both read locks; a failed call gives back
  `eventList_Lock` first, a successful one `event_Lock` first, as in the source.
- `get_event` and `append_to_list` are one step each. `append_alone` is why: no
  thread is inside the list while another one appends.
-/

namespace Ems.Jobs

open Conc

/-- A thread of the job runner. -/
abbrev Tid := Nat

/-- Where a thread is in `ems_create`. -/
inductive Pc where
  | idle
  /-- before `pthread_rwlock_rdlock(&eventList_Lock)` -/
  | readList (id : UInt32) (numRows numCols : UInt64)
  /-- before `pthread_rwlock_rdlock(&event_Lock)` -/
  | readEvent (id : UInt32) (numRows numCols : UInt64)
  | lookup (id : UInt32) (numRows numCols : UInt64)
  /-- the event exists: `eventList_Lock` is released before `event_Lock` -/
  | existsUnlist (id : UInt32)
  | existsUnevent (id : UInt32)
  /-- no such event: `event_Lock` is released before `eventList_Lock` -/
  | absentUnevent (id : UInt32) (numRows numCols : UInt64)
  | absentUnlist (id : UInt32) (numRows numCols : UInt64)
  | build (id : UInt32) (numRows numCols : UInt64)
  /-- before `pthread_rwlock_wrlock(&eventList_Lock)` -/
  | writeList (event : Event)
  | append (event : Event)
  | unlist (id : UInt32) (ret : Nat)
  | done (id : UInt32) (ret : Nat)

/-- The store, its two locks and the threads. -/
structure State where
  list : EventList
  listLock : RwLock Tid
  eventLock : RwLock Tid
  pc : Tid → Pc

/-- A thread calls `ems_create`, moves, returns. -/
inductive Act where
  | call (t : Tid) (id : UInt32) (numRows numCols : UInt64)
  | step (t : Tid) (alloc : Alloc)
  | ret (t : Tid)

/-- No events, no locks held, nobody in a call. -/
def State.init : State := ⟨createList, RwLock.free, RwLock.free, fun _ => .idle⟩

/-- Thread `t` moves to `pc`. -/
def State.goto (s : State) (t : Tid) (pc : Pc) : State :=
  { s with pc := Function.update s.pc t pc }

/-- One step of thread `t` inside `ems_create`, `none` while it waits. -/
def advance (s : State) (t : Tid) (alloc : Alloc) : Option State :=
  match s.pc t with
  | .idle => none
  | .readList id rows cols =>
    (s.listLock.rdlock t).map fun l => { s with listLock := l }.goto t (.readEvent id rows cols)
  | .readEvent id rows cols =>
    (s.eventLock.rdlock t).map fun l => { s with eventLock := l }.goto t (.lookup id rows cols)
  | .lookup id rows cols =>
    if (getEvent s.list id).isSome then some (s.goto t (.existsUnlist id))
    else some (s.goto t (.absentUnevent id rows cols))
  -- the event exists: the list lock goes first
  | .existsUnlist id =>
    some ({ s with listLock := s.listLock.unlock t }.goto t (.existsUnevent id))
  | .existsUnevent id =>
    some ({ s with eventLock := s.eventLock.unlock t }.goto t (.done id 1))
  -- it does not: the list lock goes last, and nothing is held during the allocations
  | .absentUnevent id rows cols =>
    some ({ s with eventLock := s.eventLock.unlock t }.goto t (.absentUnlist id rows cols))
  | .absentUnlist id rows cols =>
    some ({ s with listLock := s.listLock.unlock t }.goto t (.build id rows cols))
  | .build id rows cols =>
    match buildEvent alloc id rows cols with
    | none => some (s.goto t (.done id 1))
    | some event => some (s.goto t (.writeList event))
  -- nobody looks the id up again
  | .writeList event =>
    (s.listLock.wrlock t).map fun l => { s with listLock := l }.goto t (.append event)
  | .append event =>
    if alloc.node then
      some ({ s with list := appendToList s.list event }.goto t (.unlist event.id 0))
    else some (s.goto t (.unlist event.id 1))
  | .unlist id ret =>
    some ({ s with listLock := s.listLock.unlock t }.goto t (.done id ret))
  | .done _ _ => none

/-- One action of the whole program. -/
def step (s : State) : Act → Option State
  | .call t id rows cols =>
    match s.pc t with
    | .idle => some (s.goto t (.readList id rows cols))
    | _ => none
  | .step t alloc => advance s t alloc
  | .ret t =>
    match s.pc t with
    | .done _ _ => some (s.goto t .idle)
    | _ => none

/-- The calls of `ems_create` as a machine. -/
def machine : Machine State Act := ⟨State.init, step⟩

@[simp] theorem goto_self (s : State) (t : Tid) (pc : Pc) : (s.goto t pc).pc t = pc :=
  Function.update_self ..

@[simp] theorem goto_other {s : State} {t u : Tid} {pc : Pc} (h : u ≠ t) :
    (s.goto t pc).pc u = s.pc u :=
  Function.update_of_ne h ..

/-! ## What one step can do -/

/-- The steps of `ems_create`, one rule for each place. -/
inductive Step : State → Act → State → Prop where
  | call {s t id rows cols} (h : s.pc t = .idle) :
      Step s (.call t id rows cols) (s.goto t (.readList id rows cols))
  | ret {s t id ret} (h : s.pc t = .done id ret) : Step s (.ret t) (s.goto t .idle)
  | readList {s t a id rows cols l} (h : s.pc t = .readList id rows cols)
      (hl : s.listLock.rdlock t = some l) :
      Step s (.step t a) (State.goto { s with listLock := l } t (.readEvent id rows cols))
  | readEvent {s t a id rows cols l} (h : s.pc t = .readEvent id rows cols)
      (hl : s.eventLock.rdlock t = some l) :
      Step s (.step t a) (State.goto { s with eventLock := l } t (.lookup id rows cols))
  | found {s t a id rows cols} (h : s.pc t = .lookup id rows cols)
      (he : (getEvent s.list id).isSome) : Step s (.step t a) (s.goto t (.existsUnlist id))
  | absent {s t a id rows cols} (h : s.pc t = .lookup id rows cols)
      (he : getEvent s.list id = none) :
      Step s (.step t a) (s.goto t (.absentUnevent id rows cols))
  | existsUnlist {s t a id} (h : s.pc t = .existsUnlist id) :
      Step s (.step t a)
        (State.goto { s with listLock := s.listLock.unlock t } t (.existsUnevent id))
  | existsUnevent {s t a id} (h : s.pc t = .existsUnevent id) :
      Step s (.step t a)
        (State.goto { s with eventLock := s.eventLock.unlock t } t (.done id 1))
  | absentUnevent {s t a id rows cols} (h : s.pc t = .absentUnevent id rows cols) :
      Step s (.step t a)
        (State.goto { s with eventLock := s.eventLock.unlock t } t (.absentUnlist id rows cols))
  | absentUnlist {s t a id rows cols} (h : s.pc t = .absentUnlist id rows cols) :
      Step s (.step t a)
        (State.goto { s with listLock := s.listLock.unlock t } t (.build id rows cols))
  | buildFails {s t a id rows cols} (h : s.pc t = .build id rows cols)
      (hb : buildEvent a id rows cols = none) : Step s (.step t a) (s.goto t (.done id 1))
  | build {s t a id rows cols event} (h : s.pc t = .build id rows cols)
      (hb : buildEvent a id rows cols = some event) :
      Step s (.step t a) (s.goto t (.writeList event))
  | writeList {s t a event l} (h : s.pc t = .writeList event)
      (hl : s.listLock.wrlock t = some l) :
      Step s (.step t a) (State.goto { s with listLock := l } t (.append event))
  | append {s t a event} (h : s.pc t = .append event) (hn : a.node = true) :
      Step s (.step t a)
        (State.goto { s with list := appendToList s.list event } t (.unlist event.id 0))
  | appendFails {s t a event} (h : s.pc t = .append event) (hn : a.node = false) :
      Step s (.step t a) (s.goto t (.unlist event.id 1))
  | unlist {s t a id ret} (h : s.pc t = .unlist id ret) :
      Step s (.step t a)
        (State.goto { s with listLock := s.listLock.unlock t } t (.done id ret))

/-- Every step of a thread is one of the rules. -/
theorem advance_cases {s s' : State} {t : Tid} {a : Alloc} (h : advance s t a = some s') :
    Step s (.step t a) s' := by
  unfold advance at h
  split at h
  next => cases h
  next hp =>
    obtain ⟨l, hl, rfl⟩ := Option.map_eq_some_iff.mp h
    exact .readList hp hl
  next hp =>
    obtain ⟨l, hl, rfl⟩ := Option.map_eq_some_iff.mp h
    exact .readEvent hp hl
  next hp =>
    split at h
    next he => cases h; exact .found hp he
    next he => cases h; exact .absent hp (Option.not_isSome_iff_eq_none.mp he)
  next hp => cases h; exact .existsUnlist hp
  next hp => cases h; exact .existsUnevent hp
  next hp => cases h; exact .absentUnevent hp
  next hp => cases h; exact .absentUnlist hp
  next hp =>
    split at h
    next hb => cases h; exact .buildFails hp hb
    next hb => cases h; exact .build hp hb
  next hp =>
    obtain ⟨l, hl, rfl⟩ := Option.map_eq_some_iff.mp h
    exact .writeList hp hl
  next hp =>
    split at h
    next hn => cases h; exact .append hp hn
    next hn => cases h; exact .appendFails hp (Bool.eq_false_of_not_eq_true hn)
  next hp => cases h; exact .unlist hp
  next => cases h

theorem step_cases {s s' : State} {a : Act} (h : step s a = some s') : Step s a s' := by
  cases a with
  | call t id rows cols =>
    simp only [step] at h
    split at h
    next hp => cases h; exact .call hp
    next => cases h
  | step t alloc => exact advance_cases h
  | ret t =>
    simp only [step] at h
    split at h
    next hp => cases h; exact .ret hp
    next => cases h

/-- And every rule is a step. -/
theorem step_of_rule {s s' : State} {a : Act} (h : Step s a s') : step s a = some s' := by
  cases h <;> simp [step, advance, *]

/-! ## The list lock -/

/-- The place is inside a read section of `eventList_Lock`. -/
def Pc.reading : Pc → Bool
  | .readEvent _ _ _ => true
  | .lookup _ _ _ => true
  | .existsUnlist _ => true
  | .absentUnevent _ _ _ => true
  | .absentUnlist _ _ _ => true
  | _ => false

/-- The place is inside the write section of `eventList_Lock`. -/
def Pc.writing : Pc → Bool
  | .append _ => true
  | .unlist _ _ => true
  | _ => false

/-- While a thread appends, nobody else is inside the list. -/
theorem append_alone {tr : List Act} {s : State} (h : machine.run tr = some s) {t u : Tid}
    (ht : (s.pc t).writing = true) (hu : u ≠ t) :
    (s.pc u).reading = false ∧ (s.pc u).writing = false := by
  have hinv : s.listLock.Follows Pc.reading Pc.writing s.pc := by
    refine machine.run_invariant (I := fun _ s => s.listLock.Follows Pc.reading Pc.writing s.pc)
      (RwLock.follows_free rfl rfl) (fun _ s a s' _ hi hstep => ?_) tr s h
    have hs := step_cases hstep
    clear hstep
    cases hs
    case readList t a id rows cols l h hl => exact hi.rdlock hl rfl rfl
    case writeList t a event l h hl => exact hi.wrlock hl rfl rfl
    case existsUnlist t a id h => exact hi.unlock (Or.inl (by rw [h]; rfl)) rfl rfl
    case absentUnlist t a id rows cols h => exact hi.unlock (Or.inl (by rw [h]; rfl)) rfl rfl
    case unlist t a id ret h => exact hi.unlock (Or.inr (by rw [h]; rfl)) rfl rfl
    all_goals exact hi.goto (by simp [*, Pc.reading]) (by simp [*, Pc.writing])
  exact hinv.alone ht hu

/-! ## Unique ids -/

/-- The id a thread has looked up in vain and may still append. -/
def Pc.creating : Pc → Option UInt32
  | .absentUnevent id _ _ => some id
  | .absentUnlist id _ _ => some id
  | .build id _ _ => some id
  | .writeList event => some event.id
  | .append event => some event.id
  | _ => none

/-- The id a thread has appended and is about to return `EXIT_SUCCESS` for. -/
def Pc.created : Pc → Option UInt32
  | .unlist id 0 => some id
  | .done id 0 => some id
  | _ => none

/-- What a step shows: the id of a call that returns `EXIT_SUCCESS`. -/
def success (s : State) : Act → List UInt32
  | .ret t => (s.pc t).created.toList
  | _ => []

/-- The ids of the successful calls of a run. -/
def successes (tr : List Act) : List UInt32 := machine.log success tr

/-- A lookup finds nothing only while nobody else is between such a lookup of
the same id and its append. -/
def Vacant (s : State) : Act → Prop
  | .step t _ =>
    match s.pc t with
    | .lookup id _ _ => getEvent s.list id = none → ∀ u, (s.pc u).creating ≠ some id
    | _ => True
  | _ => True

/-- One thread at a time creates an id, and an id that was created once is in
the list. -/
structure UniqueInv (log : List UInt32) (s : State) : Prop where
  nodup : (s.list.map (·.id)).Nodup
  gap : ∀ t id, (s.pc t).creating = some id → id ∉ s.list.map (·.id)
  alone : ∀ t u id, (s.pc t).creating = some id → (s.pc u).creating = some id → t = u
  log_nodup : log.Nodup
  log_mem : ∀ id ∈ log, id ∈ s.list.map (·.id)
  fresh : ∀ t id, (s.pc t).created = some id → id ∈ s.list.map (·.id) ∧ id ∉ log
  once : ∀ t u id, (s.pc t).created = some id → (s.pc u).created = some id → t = u

theorem uniqueInv_init : UniqueInv [] State.init := by
  constructor <;> simp [State.init, createList, Pc.creating, Pc.created]

/-- A place function after a move of `t` that keeps or drops its value. -/
theorem update_some {f : Pc → Option UInt32} {s : State} {t u : Tid} {pc : Pc} {id : UInt32}
    (hpc : pc = s.pc t ∨ f pc = f (s.pc t) ∨ f pc = none)
    (h : f (Function.update s.pc t pc u) = some id) : f (s.pc u) = some id := by
  by_cases hu : u = t
  · subst hu
    rw [Function.update_self] at h
    rcases hpc with rfl | hsame | hnone
    · exact h
    · exact hsame.symm.trans h
    · rw [hnone] at h; cases h
  · rwa [Function.update_of_ne hu] at h

/-- A step that leaves the list alone and creates nothing. -/
theorem uniqueInv_goto {log : List UInt32} {s s' : State} {t : Tid} {pc : Pc}
    (hi : UniqueInv log s) (hl : s'.list = s.list) (hp : s'.pc = Function.update s.pc t pc)
    (hc : pc.creating = (s.pc t).creating ∨ pc.creating = none)
    (hd : pc.created = (s.pc t).created ∨ pc.created = none) : UniqueInv log s' := by
  have hc' : ∀ u id, (s'.pc u).creating = some id → (s.pc u).creating = some id := by
    intro u id hu
    rw [hp] at hu
    exact update_some (f := Pc.creating) (Or.inr hc) hu
  have hd' : ∀ u id, (s'.pc u).created = some id → (s.pc u).created = some id := by
    intro u id hu
    rw [hp] at hu
    exact update_some (f := Pc.created) (Or.inr hd) hu
  constructor
  · rw [hl]; exact hi.nodup
  · intro u id hu; rw [hl]; exact hi.gap u id (hc' u id hu)
  · exact fun u w id hu hw => hi.alone u w id (hc' u id hu) (hc' w id hw)
  · exact hi.log_nodup
  · rw [hl]; exact hi.log_mem
  · intro u id hu; rw [hl]; exact hi.fresh u id (hd' u id hu)
  · exact fun u w id hu hw => hi.once u w id (hd' u id hu) (hd' w id hw)

/-- A lookup in vain, with nobody else in the gap. -/
theorem uniqueInv_absent {log : List UInt32} {s : State} {t : Tid} {id : UInt32}
    {rows cols : UInt64} (hi : UniqueInv log s) (he : getEvent s.list id = none)
    (hC : ∀ u, (s.pc u).creating ≠ some id) :
    UniqueInv log (s.goto t (.absentUnevent id rows cols)) := by
  have hold : ∀ u id', ((s.goto t (.absentUnevent id rows cols)).pc u).creating = some id' →
      (u = t ∧ id' = id) ∨ (u ≠ t ∧ (s.pc u).creating = some id') := by
    intro u id' hu
    by_cases hut : u = t
    · subst hut
      rw [goto_self] at hu
      exact Or.inl ⟨rfl, (Option.some.inj hu).symm⟩
    · rw [goto_other hut] at hu
      exact Or.inr ⟨hut, hu⟩
  have hd : ∀ u id', ((s.goto t (.absentUnevent id rows cols)).pc u).created = some id' →
      (s.pc u).created = some id' :=
    fun u id' hu => update_some (f := Pc.created) (Or.inr (Or.inr rfl)) hu
  constructor
  · exact hi.nodup
  · intro u id' hu
    rcases hold u id' hu with ⟨-, rfl⟩ | ⟨-, hu'⟩
    · exact getEvent_eq_none.mp he
    · exact hi.gap u id' hu'
  · intro u w id' hu hw
    rcases hold u id' hu with ⟨rfl, rfl⟩ | ⟨-, hu'⟩ <;>
      rcases hold w id' hw with ⟨rfl, hid⟩ | ⟨-, hw'⟩
    · rfl
    · exact absurd hw' (hC w)
    · subst hid; exact absurd hu' (hC u)
    · exact hi.alone u w id' hu' hw'
  · exact hi.log_nodup
  · exact hi.log_mem
  · exact fun u id' hu => hi.fresh u id' (hd u id' hu)
  · exact fun u w id' hu hw => hi.once u w id' (hd u id' hu) (hd w id' hw)

/-- The append of an id that only this thread is creating. -/
theorem uniqueInv_append {log : List UInt32} {s : State} {t : Tid} {event : Event}
    (hi : UniqueInv log s) (h : s.pc t = .append event) :
    UniqueInv log (State.goto { s with list := appendToList s.list event } t
      (.unlist event.id 0)) := by
  have hnew : event.id ∉ s.list.map (·.id) := hi.gap t event.id (by rw [h]; rfl)
  have hids : (appendToList s.list event).map (·.id) = s.list.map (·.id) ++ [event.id] :=
    List.map_append
  have hc : ∀ u id, ((State.goto { s with list := appendToList s.list event } t
      (.unlist event.id 0)).pc u).creating = some id → u ≠ t ∧ (s.pc u).creating = some id := by
    intro u id hu
    by_cases hut : u = t
    · subst hut; rw [goto_self] at hu; cases hu
    · rw [goto_other hut] at hu; exact ⟨hut, hu⟩
  have hd : ∀ u id, ((State.goto { s with list := appendToList s.list event } t
      (.unlist event.id 0)).pc u).created = some id →
      (u = t ∧ id = event.id) ∨ (u ≠ t ∧ (s.pc u).created = some id) := by
    intro u id hu
    by_cases hut : u = t
    · subst hut; rw [goto_self] at hu; exact Or.inl ⟨rfl, (Option.some.inj hu).symm⟩
    · rw [goto_other hut] at hu; exact Or.inr ⟨hut, hu⟩
  constructor
  · show ((appendToList s.list event).map (·.id)).Nodup
    rw [hids, List.nodup_append]
    refine ⟨hi.nodup, List.nodup_singleton _, ?_⟩
    rintro a ha b hb rfl
    exact hnew (List.mem_singleton.mp hb ▸ ha)
  · intro u id hu
    obtain ⟨hut, hu'⟩ := hc u id hu
    show id ∉ (appendToList s.list event).map (·.id)
    rw [hids, List.mem_append, List.mem_singleton]
    rintro (hold | rfl)
    · exact hi.gap u id hu' hold
    -- another thread that is creating this id would not have been alone
    · exact hut (hi.alone u t event.id hu' (by rw [h]; rfl))
  · exact fun u w id hu hw => hi.alone u w id (hc u id hu).2 (hc w id hw).2
  · exact hi.log_nodup
  · intro id hid
    show id ∈ (appendToList s.list event).map (·.id)
    rw [hids]
    exact List.mem_append_left _ (hi.log_mem id hid)
  · intro u id hu
    show id ∈ (appendToList s.list event).map (·.id) ∧ _
    rw [hids]
    rcases hd u id hu with ⟨-, rfl⟩ | ⟨-, hu'⟩
    · exact ⟨by simp, fun hlog => hnew (hi.log_mem _ hlog)⟩
    · exact ⟨List.mem_append_left _ (hi.fresh u id hu').1, (hi.fresh u id hu').2⟩
  · intro u w id hu hw
    rcases hd u id hu with ⟨rfl, rfl⟩ | ⟨-, hu'⟩ <;>
      rcases hd w _ hw with ⟨rfl, hid⟩ | ⟨-, hw'⟩
    · rfl
    · exact absurd (hi.fresh w _ hw').1 hnew
    · subst hid; exact absurd (hi.fresh u _ hu').1 hnew
    · exact hi.once u w id hu' hw'

/-- A call returns. -/
theorem uniqueInv_ret {log : List UInt32} {s : State} {t : Tid} (hi : UniqueInv log s) :
    UniqueInv (log ++ (s.pc t).created.toList) (s.goto t .idle) := by
  have hc : ∀ u id, ((s.goto t .idle).pc u).creating = some id → (s.pc u).creating = some id :=
    fun u id hu => update_some (f := Pc.creating) (Or.inr (Or.inr rfl)) hu
  have hd : ∀ u id, ((s.goto t .idle).pc u).created = some id →
      u ≠ t ∧ (s.pc u).created = some id := by
    intro u id hu
    by_cases hut : u = t
    · subst hut; rw [goto_self] at hu; cases hu
    · rw [goto_other hut] at hu; exact ⟨hut, hu⟩
  have hret : ∀ id ∈ (s.pc t).created.toList, (s.pc t).created = some id :=
    fun id hid => Option.mem_toList.mp hid
  constructor
  · exact hi.nodup
  · exact fun u id hu => hi.gap u id (hc u id hu)
  · exact fun u w id hu hw => hi.alone u w id (hc u id hu) (hc w id hw)
  · refine List.nodup_append.mpr ⟨hi.log_nodup, ?_, ?_⟩
    · cases (s.pc t).created <;> simp
    · rintro a ha b hb rfl
      exact (hi.fresh t a (hret a hb)).2 ha
  · intro id hid
    rcases List.mem_append.mp hid with hold | hnew
    · exact hi.log_mem id hold
    · exact (hi.fresh t id (hret id hnew)).1
  · intro u id hu
    obtain ⟨hut, hu'⟩ := hd u id hu
    refine ⟨(hi.fresh u id hu').1, fun hmem => ?_⟩
    rcases List.mem_append.mp hmem with hold | hnew
    · exact (hi.fresh u id hu').2 hold
    -- two creations of one id cannot both have succeeded
    · exact hut (hi.once u t id hu' (hret id hnew))
  · exact fun u w id hu hw => hi.once u w id (hd u id hu).2 (hd w id hw).2

theorem step_uniqueInv {log : List UInt32} {s s' : State} {a : Act} (hs : Step s a s')
    (hC : Vacant s a) (hi : UniqueInv log s) : UniqueInv (log ++ success s a) s' := by
  cases hs
  case ret t id ret h => exact uniqueInv_ret hi
  case absent t a id rows cols h he =>
    rw [show success s (.step t a) = [] from rfl, List.append_nil]
    simp only [Vacant, h] at hC
    exact uniqueInv_absent hi he (hC he)
  case append t a event h hn =>
    rw [show success s (.step t a) = [] from rfl, List.append_nil]
    exact uniqueInv_append hi h
  case build t a id rows cols event h hb =>
    rw [show success s (.step t a) = [] from rfl, List.append_nil]
    refine uniqueInv_goto hi rfl rfl (Or.inl ?_) (Or.inr rfl)
    rw [h, ← buildEvent_id hb]
    rfl
  case unlist t a id ret h =>
    rw [show success s (.step t a) = [] from rfl, List.append_nil]
    refine uniqueInv_goto hi rfl rfl (Or.inr rfl) (Or.inl ?_)
    rw [h]
    cases ret <;> rfl
  all_goals
    simp only [success, List.append_nil]
    exact uniqueInv_goto hi rfl rfl (by simp [*, Pc.creating]) (by simp [*, Pc.created])

/-- **Event ids are unique** in every run in which no lookup in vain overlaps
another creation of the same id: no two events share an id, and at most one call
for an id has returned `EXIT_SUCCESS`. -/
theorem unique_ids {tr : List Act} {s : State} (hC : machine.Meets Vacant tr)
    (hrun : machine.run tr = some s) :
    (s.list.map (·.id)).Nodup ∧ (successes tr).Nodup := by
  have hinv : UniqueInv (successes tr) s := by
    refine machine.run_invariant_of_meets (C := Vacant)
      (I := fun tr s => UniqueInv (successes tr) s) uniqueInv_init ?_ tr s hC hrun
    intro tr s a s' hr ha hi hstep
    unfold successes
    rw [machine.log_snoc _ hr hstep]
    exact step_uniqueInv (step_cases hstep) ha hi
  exact ⟨hinv.nodup, hinv.log_nodup⟩

/-- The thread an action belongs to. -/
def Act.thread : Act → Tid
  | .call t _ _ _ => t
  | .step t _ => t
  | .ret t => t

theorem step_pc_other {s s' : State} {a : Act} {u : Tid} (hs : Step s a s') (h : a.thread ≠ u) :
    s'.pc u = s.pc u := by
  cases hs <;> exact Function.update_of_ne (Ne.symm h) ..

/-- Who of these threads is about to look an id up, and that none of them is in the gap of
the same id. -/
def vacantAmong (threads : List Tid) (s : State) : Bool :=
  threads.all fun t =>
    match s.pc t with
    | .lookup id _ _ => threads.all fun u => (s.pc u).creating != some id
    | _ => true

/-- The side condition, tested along a run of a few threads. -/
theorem meets_vacant (threads : List Tid) {tr : List Act}
    (hall : ∀ a ∈ tr, a.thread ∈ threads)
    (h : ∀ k < tr.length, (machine.run (tr.take k)).all (vacantAmong threads)) :
    machine.Meets Vacant tr := by
  refine machine.meets_of_take fun k hk s hs => ?_
  have htest := h k hk
  rw [hs, Option.all_some] at htest
  have hmem := hall tr[k] (List.getElem_mem hk)
  cases hact : tr[k] with
  | call t id rows cols => trivial
  | ret t => trivial
  | step t alloc =>
    rw [hact] at hmem
    simp only [Vacant]
    split
    next id rows cols hpc =>
      intro _ u
      by_cases hu : u ∈ threads
      · have hown := List.all_eq_true.mp htest t hmem
        rw [hpc] at hown
        simpa using List.all_eq_true.mp hown u hu
      · -- the other threads have not begun
        have hidle : s.pc u = .idle := machine.run_absent Act.thread State.pc
          (fun _ _ _ _ hstep => step_pc_other (step_cases hstep))
          (fun b hb hbu => hu (hbu ▸ hall b (List.mem_of_mem_take hb))) hs
        rw [hidle]
        simp [Pc.creating]
    next => trivial

/-- Threads 0 and 1 create two ids at the same time, and then thread 1 asks for the one of
thread 0. -/
def overlapping : List Act :=
  let turn (t : Tid) : Act := .step t ⟨true, true, true⟩
  [.call 0 5 1 1, .call 1 6 1 1, turn 0, turn 1, turn 0, turn 1, turn 0, turn 1,
    turn 0, turn 1, turn 0, turn 1, turn 0, turn 1,
    turn 0, turn 0, turn 0, .ret 0, turn 1, turn 1, turn 1, .ret 1,
    .call 1 5 2 2, turn 1, turn 1, turn 1, turn 1, turn 1, .ret 1]

theorem unique_ids_overlapping :
    ∃ s, machine.run overlapping = some s ∧ (s.list.map (·.id)).Nodup ∧
      successes overlapping = [5, 6] := by
  obtain ⟨s, hs⟩ := Option.isSome_iff_exists.mp
    (show (machine.run overlapping).isSome = true by decide)
  have hunique := unique_ids (meets_vacant [0, 1]
    (by simp [overlapping, Act.thread]) (by decide)) hs
  exact ⟨s, hs, hunique.1, by decide⟩

/-- Threads 0 and 1 create the same id; both look before either appends. -/
def twins : List Act :=
  let turn (t : Tid) : Act := .step t ⟨true, true, true⟩
  [.call 0 5 1 1, .call 1 5 1 1, turn 0, turn 1, turn 0, turn 1, turn 0, turn 1,
    turn 0, turn 1, turn 0, turn 1, turn 0, turn 1,
    turn 0, turn 0, turn 0, .ret 0, turn 1, turn 1, turn 1, .ret 1]

/-- The two calls of `twins` both succeed and leave two events with one id. -/
theorem ids_not_unique : ¬ ∀ (tr : List Act) (s : State), machine.run tr = some s →
    (s.list.map (·.id)).Nodup ∧ (successes tr).Nodup := by
  intro hall
  have hend : (machine.run twins).map (fun s => s.list.map (·.id)) = some [5, 5] := by decide
  obtain ⟨s, hs, hids⟩ := Option.map_eq_some_iff.mp hend
  have hdup := (hall twins s hs).1
  rw [hids] at hdup
  exact absurd hdup (by decide)

end Ems.Jobs
