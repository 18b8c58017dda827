import Ems.Jobs.Commits
import Ems.Jobs.Snapshots

/-!
# The list between complete reservations

`ledger` lists the calls whose effect on the list is complete, in the order in which they
came to that point; `replay` is the list that these calls make one after the other. The
list of the machine is always `replay` of the ledger, but for the one event whose
reservation is under way (`Booked`), and while nobody holds `seat_Lock` for writing not
even the seats of that one differ. So every `SHOW` shows a state between complete calls of
`ems_reserve` (`show_committed`).
-/

namespace Ems.Jobs.Programs

open Conc Conc.Program
open Server (Request)

variable {T : Type} [DecidableEq T]

/-- What a step shows: a call whose effect on the list is complete. -/
def commits (s : State T) : Crew.Act T Op Choice → List (Nat × Op)
  | .step t x =>
    match s.thread t with
    | some ⟨n, c, .unlock .event _⟩ => if s.held t .seat = some .write then [(n, c)] else []
    | some ⟨n, c, .act (.append _) _⟩ => if x.ok then [(n, c)] else []
    | _ => []
  | _ => []

/-- The calls that have changed the list for good. -/
def ledger (tr : List (Crew.Act T Op Choice)) : List (Nat × Op) := (machine T).log commits tr

/-- What a whole successful call does to the list. -/
def Op.effect : Op → EventList → EventList
  | .create id rows cols, list => appendToList list (newEvent id rows cols)
  | .reserve q, list => (Jobs.emsReserve list q).1
  | _, list => list

/-- These calls, one after the other. -/
def replay (calls : List (Nat × Op)) : EventList :=
  calls.foldl (fun list x => x.2.effect list) createList

/-! ## One event under way -/

/-- The list, but for the event of a reservation that is under way. -/
def current (list : EventList) : Option (T × Open) → EventList
  | none => list
  | some (_, o) => list.set o.e o.now

/-- The reservation of this thread. -/
def mine (cur : Option (T × Open)) (t : T) : Option Open :=
  cur.bind fun x => if x.1 = t then some x.2 else none

/-- The list of the machine; `cur` is the reservation under way, and whose it is. -/
structure Current (s : State T) (list : EventList) (cur : Option (T × Open)) : Prop where
  list_eq : s.store.list = current list cur
  base : ∀ t o, cur = some (t, o) → list[o.e]? = some o.base
  shape : ∀ t o, cur = some (t, o) → o.now.shape = o.base.shape
  event : ∀ t o, cur = some (t, o) → s.held t .event = some .write
  seat : ∀ t o, cur = some (t, o) → s.held t .seat ≠ some .write → o.now.data = o.base.data

/-- A call under way. -/
structure Booking (tr : List (Crew.Act T Op Choice)) (s : State T) (cur : Option (T × Open))
    (t : T) (r : Running Lock Action Answer Nat Op) (m : Book) : Prop where
  rest : r.rest.wp (books r.call) (Settled r.call) m
  held : m.held = s.held t
  found : ∀ id e, m.found = some (id, e) → getEvent s.store.list id = some e
  opened : m.opened = mine cur t
  committed : m.committed = true ↔ (r.no, r.call) ∈ ledger tr
  call : ∀ c, (r.no, c) ∈ ledger tr → c = r.call

/-- All calls. -/
structure Booked (tr : List (Crew.Act T Op Choice)) (s : State T) (cur : Option (T × Open)) :
    Prop where
  current : Current s (replay (ledger tr)) cur
  under : ∀ t r, s.thread t = some r → ∃ m, Booking tr s cur t r m
  fresh : ∀ x ∈ ledger tr, x.1 < s.calls
  nodup : ((ledger tr).map (·.1)).Nodup
  ended : ∀ x ∈ returns tr, (x.1, x.2.1) ∈ ledger tr ↔ x.2.1.changes = true ∧ x.2.2 = 0

section Mine

variable {cur : Option (T × Open)} {t u : T} {o : Open}

@[simp] theorem mine_none : mine (none : Option (T × Open)) t = none := rfl

@[simp] theorem mine_self : mine (some (t, o)) t = some o := by simp [mine]

theorem mine_other (h : u ≠ t) : mine (some (t, o)) u = none := by simp [mine, Ne.symm h]

theorem mine_eq_some : mine cur t = some o ↔ cur = some (t, o) := by
  constructor
  · intro h
    obtain ⟨⟨u, o'⟩, rfl, hif⟩ := Option.bind_eq_some_iff.mp h
    split at hif
    next hu =>
      cases hif
      cases hu
      rfl
    next => cases hif
  · rintro rfl
    exact mine_self

end Mine

section Current

variable {s s' : State T} {list : EventList} {cur : Option (T × Open)} {t : T} {o : Open}

/-- The event under way. -/
theorem Current.now (h : Current s list cur) (ho : cur = some (t, o)) :
    s.store.list[o.e]? = some o.now := by
  rw [h.list_eq, ho]
  exact List.getElem?_set_self (List.getElem?_eq_some_iff.mp (h.base t o ho)).1

/-- Nothing but the seats and the counter of one event differs. -/
theorem Current.shapes (h : Current s list cur) :
    s.store.list.map Event.shape = list.map Event.shape := by
  rw [h.list_eq]
  cases hc : cur with
  | none => rfl
  | some x =>
    obtain ⟨t, o⟩ := x
    have hbase := h.base t o hc
    have hsame : (list.map Event.shape)[o.e]? = some o.now.shape := by
      rw [List.getElem?_map, hbase, h.shape t o hc]
      rfl
    show (list.set o.e o.now).map Event.shape = _
    rw [List.map_set, Server.set_same hsame]

theorem Current.getEvent (h : Current s list cur) (id : UInt32) :
    Jobs.getEvent s.store.list id = Jobs.getEvent list id := by
  rw [getEvent_shape, getEvent_shape, h.shapes]

/-- The holder of `event_Lock` is the only one who reserves. -/
theorem Current.owner (h : Current s list cur) (hw : s.held t .event = some .write) {u : T}
    (ho : cur = some (u, o)) : u = t := by
  by_contra hne
  have hnone := Crew.held_alone hw hne
  rw [h.event u o ho] at hnone
  cases hnone

/-- The event under way gets a new value. -/
theorem Current.store (h : Current s list cur) (ho : cur = some (t, o)) {now : Event}
    (hlist : s'.store.list = s.store.list.set o.e now) (hheld : s'.held t = s.held t)
    (hshape : now.shape = o.now.shape)
    (hdata : s.held t .seat ≠ some .write → now.data = o.now.data) :
    Current s' list (some (t, { o with now := now })) := by
  have hbase := h.base t o ho
  refine ⟨?_, ?_, ?_, ?_, ?_⟩
  · rw [hlist, h.list_eq, ho]
    exact List.set_set ..
  · rintro _ _ ⟨⟩
    exact hbase
  · rintro _ _ ⟨⟩
    exact hshape.trans (h.shape t o ho)
  · rintro _ _ ⟨⟩
    rw [hheld]
    exact h.event t o ho
  · rintro _ _ ⟨⟩ hno
    rw [hheld] at hno
    exact (hdata hno).trans (h.seat t o ho hno)

/-- The list stays as it is; of the locks nothing changes that matters. -/
theorem Current.still (h : Current s list cur) (hlist : s'.store.list = s.store.list)
    (hheld : ∀ t o, cur = some (t, o) → s'.held t .event = some .write ∧
      (s'.held t .seat ≠ some .write → s.held t .seat = some .write → o.now.data = o.base.data)) :
    Current s' list cur where
  list_eq := hlist.trans h.list_eq
  base := h.base
  shape := h.shape
  event t o ho := (hheld t o ho).1
  seat t o ho hno := by
    by_cases hseat : s.held t .seat = some .write
    · exact (hheld t o ho).2 hno hseat
    · exact h.seat t o ho hseat

/-- A new event comes behind the one under way. -/
theorem Current.append (h : Current s list cur) {event : Event}
    (hlist : s'.store.list = appendToList s.store.list event)
    (hheld : ∀ t, s'.held t = s.held t) : Current s' (appendToList list event) cur := by
  have hget : ∀ t o, cur = some (t, o) → (appendToList list event)[o.e]? = some o.base := by
    intro t o ho
    have hbase := h.base t o ho
    exact (List.getElem?_append_left (List.getElem?_eq_some_iff.mp hbase).1).trans hbase
  refine ⟨?_, hget, h.shape, ?_, ?_⟩
  · rw [hlist, h.list_eq]
    cases hc : cur with
    | none => rfl
    | some x =>
      obtain ⟨t, o⟩ := x
      have hlt := (List.getElem?_eq_some_iff.mp (h.base t o hc)).1
      exact (List.set_append_left _ _ hlt).symm
  · intro t o ho
    rw [hheld]
    exact h.event t o ho
  · intro t o ho
    rw [hheld]
    exact h.seat t o ho

/-- A reservation begins. -/
theorem Current.bump (h : Current s list none) {e : Nat} {event : Event}
    (he : s.store.list[e]? = some event) (hw : s.held t .event = some .write)
    (hlist : s'.store.list = s.store.list.set e (bumpReservations event))
    (hheld : s'.held t = s.held t) :
    Current s' list (some (t, ⟨e, event, bumpReservations event⟩)) := by
  have hlist' : s.store.list = list := h.list_eq
  refine ⟨?_, ?_, ?_, ?_, ?_⟩
  · rw [hlist, hlist']
    rfl
  · rintro _ _ ⟨⟩
    rw [← hlist']
    exact he
  · rintro _ _ ⟨⟩
    rfl
  · rintro _ _ ⟨⟩
    rw [hheld]
    exact hw
  · rintro _ _ ⟨⟩ _
    rfl

/-- A reservation has failed. -/
theorem Current.rollback (h : Current s list cur) (ho : cur = some (t, o)) (hback : o.now = o.base)
    (hlist : s'.store.list = s.store.list) : Current s' list none := by
  refine ⟨?_, nofun, nofun, nofun, nofun⟩
  rw [hlist, h.list_eq, ho]
  show list.set o.e o.now = list
  rw [hback]
  exact Server.set_same (h.base t o ho)

/-- A reservation has succeeded. -/
theorem Current.commit (h : Current s list cur) (ho : cur = some (t, o)) {q : Request}
    (hfound : Jobs.getEvent s.store.list q.eventId = some o.e)
    (hdone : reserveSeats o.base q = (o.now, 0)) (hlist : s'.store.list = s.store.list) :
    Current s' ((Op.reserve q).effect list) none := by
  refine ⟨?_, nofun, nofun, nofun, nofun⟩
  rw [h.getEvent] at hfound
  rw [hlist, h.list_eq, ho]
  show list.set o.e o.now = (Jobs.emsReserve list q).1
  unfold Jobs.emsReserve
  simp only [hfound, h.base t o ho, hdone]

end Current

/-! ## Every run -/

section Steps

variable {tr : List (Crew.Act T Op Choice)} {s s' : State T} {a : Crew.Act T Op Choice}
  {cur cur' : Option (T × Open)} {t : T} {r : Running Lock Action Answer Nat Op} {m : Book}

theorem ledger_snoc (hrun : (machine T).run tr = some s) (h : Crew.step system s a = some s') :
    ledger (tr ++ [a]) = ledger tr ++ commits s a := (machine T).log_snoc _ hrun h

/-- The list grows. -/
theorem step_grows (h : Crew.Step system s a s') : Grows s.store.list s'.store.list := by
  cases h
  case act hr => exact (answer_cases hr).grows
  all_goals exact Grows.refl _

/-- The step completes nothing, or it completes the call of its thread, which was not
complete before. -/
def Completes (tr : List (Crew.Act T Op Choice)) (s : State T) (a : Crew.Act T Op Choice) :
    Prop :=
  commits s a = [] ∨ ∃ r, s.thread a.who = some r ∧ commits s a = [(r.no, r.call)] ∧
    (r.no, r.call) ∉ ledger tr

/-- Other calls are as complete as before. -/
theorem ledger_other (hrun : (machine T).run tr = some s) (h : Crew.step system s a = some s')
    (hc : Completes tr s a) {n : Nat} (hn : ∀ r, s.thread a.who = some r → r.no ≠ n) (c : Op) :
    (n, c) ∈ ledger (tr ++ [a]) ↔ (n, c) ∈ ledger tr := by
  rw [ledger_snoc hrun h, List.mem_append, or_iff_left]
  rcases hc with hc | ⟨r, hr, hc, -⟩
  · rw [hc]
    exact List.not_mem_nil
  · rw [hc, List.mem_singleton]
    intro heq
    cases heq
    exact hn r hr rfl

/-- A step: what there is to show is what it does to its own call and to the list. -/
theorem Booked.carry (hrun : (machine T).run tr = some s) (h : Crew.step system s a = some s')
    (hi : Booked tr s cur) (hc : Completes tr s a)
    (hcurrent : Current s' (replay (ledger (tr ++ [a]))) cur')
    (hself : ∀ r, s'.thread a.who = some r → ∃ m, Booking (tr ++ [a]) s' cur' a.who r m)
    (hmine : ∀ u, u ≠ a.who → mine cur' u = mine cur u)
    (hret : ∀ x ∈ Crew.returned s a,
      (x.1, x.2.1) ∈ ledger tr ↔ x.2.1.changes = true ∧ x.2.2 = 0) :
    Booked (tr ++ [a]) s' cur' := by
  have hstep := Crew.step_cases h
  have hnum := Crew.run_numbered hrun
  refine ⟨hcurrent, fun u r hu => ?_, fun x hx => ?_, ?_, fun x hx => ?_⟩
  · by_cases hua : u = a.who
    · subst hua
      exact hself r hu
    · rw [hstep.thread_other hua] at hu
      obtain ⟨m, hm⟩ := hi.under u r hu
      have hother := ledger_other hrun h hc (n := r.no) fun r' hr' heq =>
        -- two calls under way have different numbers
        hua (hnum.distinct _ _ _ _ hr' hu heq).symm
      refine ⟨m, hm.rest, hm.held.trans (hstep.held_other hua).symm, fun id e he => ?_,
        hm.opened.trans (hmine u hua).symm, hm.committed.trans (hother _).symm,
        fun c hc' => hm.call c ((hother c).mp hc')⟩
      exact (step_grows hstep).getEvent (hm.found id e he)
  · refine Nat.lt_of_lt_of_le ?_ hstep.calls_le
    rw [ledger_snoc hrun h] at hx
    rcases List.mem_append.mp hx with hx | hx
    · exact hi.fresh x hx
    · rcases hc with hc | ⟨r, hr, hc, -⟩
      · rw [hc] at hx
        exact absurd hx List.not_mem_nil
      · rw [hc, List.mem_singleton] at hx
        rw [hx]
        exact hnum.running _ _ hr
  · rw [ledger_snoc hrun h]
    rcases hc with hc | ⟨r, hr, hc, hno⟩
    · rw [hc, List.append_nil]
      exact hi.nodup
    · obtain ⟨m, hm⟩ := hi.under _ r hr
      rw [hc, List.map_append, List.nodup_append]
      refine ⟨hi.nodup, List.nodup_singleton _, fun n hn k hk heq => ?_⟩
      obtain ⟨⟨n', c⟩, hmem, rfl⟩ := List.mem_map.mp hn
      rw [List.map_singleton, List.mem_singleton] at hk
      dsimp only at hk heq
      rw [hk] at heq
      subst heq
      exact hno (hm.call c hmem ▸ hmem)
  · unfold returns at hx
    rw [Crew.returns_snoc hrun h] at hx
    rcases List.mem_append.mp hx with hx | hx
    · rw [ledger_other hrun h hc ((hnum.ended x hx).2 _)]
      exact hi.ended x hx
    · have ht := Crew.mem_returned hx
      cases a with
      | ret t =>
        have hled : ledger (tr ++ [.ret t]) = ledger tr := by
          rw [ledger_snoc hrun h]
          exact List.append_nil _
        rw [hled]
        exact hret x hx
      | _ => exact absurd hx List.not_mem_nil

/-- A step that completes nothing: the ledger stays as it is. -/
theorem ledger_still (hrun : (machine T).run tr = some s) (h : Crew.step system s a = some s')
    (hc : commits s a = []) : ledger (tr ++ [a]) = ledger tr := by
  rw [ledger_snoc hrun h, hc, List.append_nil]

/-- The call goes on and completes nothing. -/
theorem Booking.next {n : Nat} {c : Op} {p next : Code Nat} {m' : Book}
    (hrun : (machine T).run tr = some s) (h : Crew.step system s a = some s')
    (hc : commits s a = []) (hi : Booking tr s cur t ⟨n, c, p⟩ m)
    (hrest : next.wp (books c) (Settled c) m') (hheld : m'.held = s'.held t)
    (hfound : ∀ id e, m'.found = some (id, e) → getEvent s'.store.list id = some e)
    (hopened : m'.opened = mine cur' t) (hcommitted : m'.committed = m.committed) :
    Booking (tr ++ [a]) s' cur' t ⟨n, c, next⟩ m' := by
  have hled := ledger_still hrun h hc
  refine ⟨hrest, hheld, hfound, hopened, ?_, ?_⟩
  · rw [hcommitted, hled]
    exact hi.committed
  · rw [hled]
    exact hi.call

/-- A lock call. -/
theorem booked_lock {n : Nat} {c : Op} {l : Lock} {mode : Mode} {next : Code Nat} {k : RwLock T}
    {x : Choice} (hrun : (machine T).run tr = some s)
    (h : Crew.step system s (.step t x) = some s')
    (hs' : s' = { s with lock := Function.update s.lock l k }.goto t (some ⟨n, c, next⟩))
    (ht : s.thread t = some ⟨n, c, .lock l mode next⟩) (hk : (s.lock l).take t mode = some k)
    (hi : Booked tr s cur) : Booked (tr ++ [.step t x]) s' cur := by
  have hc : commits s (.step t x) = [] := by simp [commits, ht]
  have hstep := Crew.step_cases h
  have hheld : s'.held t = Function.update (s.held t) l (some mode) := by
    rw [hs', Crew.held_lock hk]
  have hlist : s'.store.list = s.store.list := by rw [hs']; rfl
  have hnot : ∀ u, s.held u l ≠ some .write := RwLock.held_before hk
  refine hi.carry hrun h (.inl hc) ?_ (fun r hr => ?_) (fun _ _ => rfl)
    fun _ hx => absurd hx List.not_mem_nil
  · rw [ledger_still hrun h hc]
    refine hi.current.still hlist fun u o ho => ?_
    have hevent := hi.current.event u o ho
    by_cases hut : u = t
    · subst hut
      have hl : Lock.event ≠ l := by
        -- a lock that can be taken has no writer
        rintro rfl
        exact hnot u hevent
      rw [hheld, Function.update_of_ne hl]
      refine ⟨hevent, fun hno hseat => ?_⟩
      have hl' : Lock.seat ≠ l := by
        rintro rfl
        exact hnot u hseat
      rw [Function.update_of_ne hl'] at hno
      exact absurd hseat hno
    · rw [hstep.held_other hut]
      exact ⟨hevent, fun hno hseat => absurd hseat hno⟩
  · rw [hs', Crew.Act.who, Crew.goto_self] at hr
    cases hr
    obtain ⟨m, hm⟩ := hi.under t _ ht
    refine ⟨_, hm.next hrun h hc hm.rest ?_ ?_ hm.opened rfl⟩
    · show Function.update m.held l (some mode) = _
      rw [hm.held]
      exact hheld.symm
    · rw [hlist]
      exact hm.found

/-- An unlock that ends no reservation. -/
theorem booked_unlock {n : Nat} {c : Op} {l : Lock} {next : Code Nat} {x : Choice}
    (hrun : (machine T).run tr = some s) (h : Crew.step system s (.step t x) = some s')
    (hs' : s' = { s with lock := Function.update s.lock l ((s.lock l).unlock t) }.goto t
      (some ⟨n, c, next⟩))
    (ht : s.thread t = some ⟨n, c, .unlock l next⟩) (hl : l ≠ .event)
    (hi : Booked tr s cur) : Booked (tr ++ [.step t x]) s' cur := by
  have hc : commits s (.step t x) = [] := by
    cases l <;> first | exact absurd rfl hl | simp [commits, ht]
  have hstep := Crew.step_cases h
  have hheld : s'.held t = Function.update (s.held t) l none := by
    rw [hs', Crew.held_unlock]
  have hlist : s'.store.list = s.store.list := by rw [hs']; rfl
  obtain ⟨m, hm⟩ := hi.under t _ ht
  have hrest : (l = .seat → ∀ o, m.opened = some o → o.now = o.base) ∧
      next.wp (books c) (Settled c) { m with held := Function.update m.held l none } := by
    have hrest := hm.rest
    cases l with
    | event => exact absurd rfl hl
    | seat => exact ⟨fun _ => hrest.1, hrest.2⟩
    | list => exact ⟨nofun, hrest⟩
    | file => exact ⟨nofun, hrest⟩
  refine hi.carry hrun h (.inl hc) ?_ (fun r hr => ?_) (fun _ _ => rfl)
    fun _ hx => absurd hx List.not_mem_nil
  · rw [ledger_still hrun h hc]
    refine hi.current.still hlist fun u o ho => ?_
    have hevent := hi.current.event u o ho
    by_cases hut : u = t
    · subst hut
      rw [hheld, Function.update_of_ne (Ne.symm hl)]
      refine ⟨hevent, fun hno hseat => ?_⟩
      -- when the seats are let go they are as they were, or the reservation is over
      by_cases hl' : l = .seat
      · rw [hrest.1 hl' o (hm.opened.trans (mine_eq_some.mpr ho))]
      · rw [Function.update_of_ne (Ne.symm hl')] at hno
        exact absurd hseat hno
    · rw [hstep.held_other hut]
      exact ⟨hevent, fun hno hseat => absurd hseat hno⟩
  · rw [hs', Crew.Act.who, Crew.goto_self] at hr
    cases hr
    refine ⟨_, hm.next hrun h hc hrest.2 ?_ ?_ hm.opened rfl⟩
    · show Function.update m.held l none = _
      rw [hm.held]
      exact hheld.symm
    · rw [hlist]
      exact hm.found

/-- The call goes on and is complete now. -/
theorem Booking.complete {n : Nat} {c : Op} {p next : Code Nat} {m' : Book}
    (hrun : (machine T).run tr = some s) (h : Crew.step system s a = some s')
    (hc : commits s a = [(n, c)]) (hi : Booking tr s cur t ⟨n, c, p⟩ m)
    (hrest : next.wp (books c) (Settled c) m') (hheld : m'.held = s'.held t)
    (hfound : ∀ id e, m'.found = some (id, e) → getEvent s'.store.list id = some e)
    (hopened : m'.opened = mine cur' t) (hcommitted : m'.committed = true) :
    Booking (tr ++ [a]) s' cur' t ⟨n, c, next⟩ m' := by
  refine ⟨hrest, hheld, hfound, hopened, iff_of_true hcommitted ?_, fun c' hc' => ?_⟩
  · rw [ledger_snoc hrun h, hc]
    exact List.mem_append_right _ (List.mem_singleton_self _)
  · rw [ledger_snoc hrun h, hc] at hc'
    rcases List.mem_append.mp hc' with hold | hnew
    · exact hi.call c' hold
    · cases List.mem_singleton.mp hnew
      rfl

/-- What is not complete is not in the ledger. -/
theorem Booking.not_mem (hi : Booking tr s cur t r m) (hno : m.committed = false) :
    (r.no, r.call) ∉ ledger tr := fun hmem => by
  rw [hi.committed.mpr hmem] at hno
  cases hno

theorem replay_snoc (calls : List (Nat × Op)) (n : Nat) (c : Op) :
    replay (calls ++ [(n, c)]) = c.effect (replay calls) := List.foldl_append

/-- `event_Lock` is given back: a reservation is over. -/
theorem booked_over {n : Nat} {c : Op} {next : Code Nat} {x : Choice}
    (hrun : (machine T).run tr = some s) (h : Crew.step system s (.step t x) = some s')
    (hs' : s' = { s with lock := Function.update s.lock .event ((s.lock .event).unlock t) }.goto t
      (some ⟨n, c, next⟩))
    (ht : s.thread t = some ⟨n, c, .unlock .event next⟩) (hi : Booked tr s cur) :
    ∃ cur', Booked (tr ++ [.step t x]) s' cur' := by
  have hstep := Crew.step_cases h
  have hheld : s'.held t = Function.update (s.held t) .event none := by
    rw [hs', Crew.held_unlock]
  have hlist : s'.store.list = s.store.list := by rw [hs']; rfl
  obtain ⟨m, hm⟩ := hi.under t _ ht
  have hheld' : Function.update m.held .event none = s'.held t := by rw [hheld, hm.held]
  have hfound : ∀ id e, m.found = some (id, e) → getEvent s'.store.list id = some e := by
    rw [hlist]
    exact hm.found
  have hthread : ∀ r, s'.thread t = some r → r = ⟨n, c, next⟩ := fun r hr => by
    rw [hs', Crew.goto_self] at hr
    exact (Option.some.inj hr).symm
  obtain ⟨hyes, hno⟩ := hm.rest
  by_cases hw : s.held t .seat = some .write
  · -- it has succeeded
    obtain ⟨o, q, ho, rfl, hf, hdone, hcom, hrest⟩ := hyes (by rw [hm.held]; exact hw)
    have hcur : cur = some (t, o) := mine_eq_some.mp (hm.opened.symm.trans ho)
    have hc : commits s (.step t x) = [(n, .reserve q)] := by simp [commits, ht, hw]
    refine ⟨none, hi.carry hrun h (.inr ⟨_, ht, hc, hm.not_mem hcom⟩) ?_ (fun r hr => ?_)
      (fun u hu => ?_) fun _ hx => absurd hx List.not_mem_nil⟩
    · rw [ledger_snoc hrun h, hc, replay_snoc]
      exact hi.current.commit hcur (hm.found _ _ hf) hdone hlist
    · rw [hthread r hr]
      exact ⟨_, hm.complete hrun h hc hrest hheld' hfound rfl rfl⟩
    · rw [hcur]
      exact (mine_other hu).symm
  · -- it has failed, or it was a look at the list
    obtain ⟨hback, hrest⟩ := hno (by rw [hm.held]; exact hw)
    have hc : commits s (.step t x) = [] := by simp [commits, ht, hw]
    cases hmine : mine cur t with
    | none =>
      refine ⟨cur, hi.carry hrun h (.inl hc) ?_ (fun r hr => ?_) (fun _ _ => rfl)
        fun _ hx => absurd hx List.not_mem_nil⟩
      · rw [ledger_still hrun h hc]
        refine hi.current.still hlist fun u o ho => ?_
        have hut : u ≠ t := by
          rintro rfl
          rw [mine_eq_some.mpr ho] at hmine
          cases hmine
        rw [hstep.held_other hut]
        exact ⟨hi.current.event u o ho, fun hno hseat => absurd hseat hno⟩
      · rw [hthread r hr]
        exact ⟨_, hm.next hrun h hc hrest hheld' hfound hmine.symm rfl⟩
    | some o =>
      have hcur := mine_eq_some.mp hmine
      refine ⟨none, hi.carry hrun h (.inl hc) ?_ (fun r hr => ?_) (fun u hu => ?_)
        fun _ hx => absurd hx List.not_mem_nil⟩
      · rw [ledger_still hrun h hc]
        exact hi.current.rollback hcur (hback o (hm.opened.trans hmine)) hlist
      · rw [hthread r hr]
        exact ⟨_, hm.next hrun h hc hrest hheld' hfound rfl rfl⟩
      · rw [hcur]
        exact (mine_other hu).symm

/-- An action that leaves the list as it is. -/
theorem booked_look {n : Nat} {c : Op} {e : Action} {next : Answer e → Code Nat} {v : Answer e}
    {store : Store} {x : Choice} (hrun : (machine T).run tr = some s)
    (h : Crew.step system s (.step t x) = some s')
    (hs' : s' = { s with store := store }.goto t (some ⟨n, c, next v⟩))
    (hlist : store.list = s.store.list)
    (hc : commits s (.step t x) = []) (hi : Booked tr s cur) (hm : Booking tr s cur t
      ⟨n, c, .act e next⟩ m)
    {found : Option (UInt32 × Nat)} (hrest : (next v).wp (books c) (Settled c) { m with found := found })
    (hfound : ∀ id k, found = some (id, k) → getEvent s.store.list id = some k) :
    Booked (tr ++ [.step t x]) s' cur := by
  have hlist' : s'.store.list = s.store.list := by rw [hs']; exact hlist
  have hheld : ∀ u, s'.held u = s.held u := fun u => by rw [hs']; rfl
  refine hi.carry hrun h (.inl hc) ?_ (fun r hr => ?_) (fun _ _ => rfl)
    fun _ hx => absurd hx List.not_mem_nil
  · rw [ledger_still hrun h hc]
    refine hi.current.still hlist' fun u o ho => ?_
    rw [hheld]
    exact ⟨hi.current.event u o ho, fun hno hseat => absurd hseat hno⟩
  · rw [hs', Crew.Act.who, Crew.goto_self] at hr
    cases hr
    refine ⟨_, hm.next hrun h hc hrest (hm.held.trans (hheld t).symm) ?_ hm.opened rfl⟩
    rw [hlist']
    exact hfound

/-- A store to the event under way. -/
theorem booked_store {n : Nat} {c : Op} {e : Action} {next : Answer e → Code Nat} {v : Answer e}
    {store : Store} {x : Choice} {o : Open} (now : Event) (hrun : (machine T).run tr = some s)
    (h : Crew.step system s (.step t x) = some s')
    (hs' : s' = { s with store := store }.goto t (some ⟨n, c, next v⟩))
    (hlist : store.list = s.store.list.set o.e now)
    (hc : commits s (.step t x) = []) (hi : Booked tr s cur) (hm : Booking tr s cur t
      ⟨n, c, .act e next⟩ m) (ho : m.opened = some o) (hshape : now.shape = o.now.shape)
    (hdata : s.held t .seat ≠ some .write → now.data = o.now.data)
    (hrest : (next v).wp (books c) (Settled c) { m with opened := some { o with now := now } }) :
    Booked (tr ++ [.step t x]) s' (some (t, { o with now := now })) := by
  have hcur : cur = some (t, o) := mine_eq_some.mp (hm.opened.symm.trans ho)
  have hlist' : s'.store.list = s.store.list.set o.e now := by rw [hs']; exact hlist
  have hheld : s'.held t = s.held t := by rw [hs']; rfl
  refine hi.carry hrun h (.inl hc) ?_ (fun r hr => ?_) (fun u hu => ?_)
    fun _ hx => absurd hx List.not_mem_nil
  · rw [ledger_still hrun h hc]
    exact hi.current.store hcur hlist' hheld hshape hdata
  · rw [hs', Crew.Act.who, Crew.goto_self] at hr
    cases hr
    refine ⟨_, hm.next hrun h hc hrest (hm.held.trans hheld.symm) (fun id k hk => ?_)
      mine_self.symm rfl⟩
    exact (step_grows (Crew.step_cases h)).getEvent (hm.found id k hk)
  · rw [hcur]
    exact (mine_other hu).trans (mine_other hu).symm

/-- Any action. -/
theorem booked_act {n : Nat} {c : Op} {e : Action} {next : Answer e → Code Nat} {v : Answer e}
    {store : Store} {x : Choice} (hrun : (machine T).run tr = some s)
    (h : Crew.step system s (.step t x) = some s')
    (hs' : s' = { s with store := store }.goto t (some ⟨n, c, next v⟩))
    (ht : s.thread t = some ⟨n, c, .act e next⟩) (hr : answer x e s.store = some (v, store))
    (hi : Booked tr s cur) : ∃ cur', Booked (tr ++ [.step t x]) s' cur' := by
  obtain ⟨m, hm⟩ := hi.under t _ ht
  have hquiet : (∀ event, e ≠ .append event) → commits s (.step t x) = [] := by
    intro hno
    cases e with
    | append event => exact absurd rfl (hno event)
    | _ => simp [commits, ht]
  have hwp := hm.rest
  cases answer_cases hr
  -- `append` completes a `CREATE`
  case append event hx =>
    obtain ⟨⟨id, rows, cols, rfl, rfl⟩, hnone, hcom, hrest, -⟩ := hwp
    have hc : commits s (.step t x) = [(n, .create id rows cols)] := by simp [commits, ht, hx]
    have hheld : ∀ u, s'.held u = s.held u := fun u => by rw [hs']; rfl
    refine ⟨cur, hi.carry hrun h (.inr ⟨_, ht, hc, hm.not_mem hcom⟩) ?_ (fun r hr => ?_)
      (fun _ _ => rfl) fun _ hx => absurd hx List.not_mem_nil⟩
    · rw [ledger_snoc hrun h, hc, replay_snoc]
      exact hi.current.append (by rw [hs']; rfl) hheld
    · rw [hs', Crew.Act.who, Crew.goto_self] at hr
      cases hr
      refine ⟨_, hm.complete hrun h hc hrest (hm.held.trans (hheld t).symm) (fun id k hk => ?_)
        hm.opened rfl⟩
      exact (step_grows (Crew.step_cases h)).getEvent (hm.found id k hk)
  -- a reservation begins: the writer of the event is the only one who has one
  case bump k event he =>
    obtain ⟨hw, hnone, hrest⟩ := hwp
    rw [hm.held] at hw
    have hcur : cur = none := by
      cases hcur : cur with
      | none => rfl
      | some y =>
        obtain ⟨u, o⟩ := y
        cases hi.current.owner hw hcur
        rw [hm.opened, mine_eq_some.mpr hcur] at hnone
        cases hnone
    subst hcur
    have hc := hquiet (by simp)
    have hheld : s'.held t = s.held t := by rw [hs']; rfl
    refine ⟨some (t, ⟨k, event, bumpReservations event⟩), hi.carry hrun h (.inl hc) ?_
      (fun r hr => ?_) (fun u hu => ?_) fun _ hx => absurd hx List.not_mem_nil⟩
    · rw [ledger_still hrun h hc]
      exact hi.current.bump he hw (by rw [hs']; rfl) hheld
    · rw [hs', Crew.Act.who, Crew.goto_self] at hr
      cases hr
      refine ⟨_, hm.next hrun h hc (hrest event) (hm.held.trans hheld.symm) (fun id k hk => ?_)
        mine_self.symm rfl⟩
      exact (step_grows (Crew.step_cases h)).getEvent (hm.found id k hk)
    · exact mine_other hu
  -- stores to the event under way: what is read is what has been left there
  case undo event he =>
    obtain ⟨o, ho, rfl, hrest⟩ := hwp
    have hnow := hi.current.now (mine_eq_some.mp (hm.opened.symm.trans ho))
    rw [he] at hnow
    cases hnow
    exact ⟨_, booked_store (undoReservations o.now) hrun h hs' rfl (hquiet (by simp)) hi hm ho
      rfl (fun _ => rfl) hrest⟩
  case writeSeat i value event hlt he =>
    obtain ⟨o, ho, rfl, hseat, hrest⟩ := hwp
    have hnow := hi.current.now (mine_eq_some.mp (hm.opened.symm.trans ho))
    rw [he] at hnow
    cases hnow
    rw [hm.held] at hseat
    exact ⟨_, booked_store (setSeat o.now i value) hrun h hs' rfl (hquiet (by simp)) hi hm ho
      rfl (fun hno => absurd hseat hno) (hrest hlt)⟩
  -- reads change nothing, and agree with what the code has seen
  case lookup id =>
    refine ⟨cur, booked_look hrun h hs' rfl (hquiet (by simp)) hi hm (hwp _) fun id' k hk => ?_⟩
    obtain ⟨k', hk', heq⟩ := Option.map_eq_some_iff.mp hk
    cases heq
    exact hk'
  case load k event he =>
    refine ⟨cur, booked_look hrun h hs' rfl (hquiet (by simp)) hi hm
      (hwp event fun o ho hk => ?_) hm.found⟩
    have hnow := hi.current.now (mine_eq_some.mp (hm.opened.symm.trans ho))
    rw [hk, he] at hnow
    exact Option.some.inj hnow
  case readSeat k i event seat hi' he =>
    refine ⟨cur, booked_look hrun h hs' rfl (hquiet (by simp)) hi hm
      (hwp seat fun o ho hk => ?_) hm.found⟩
    have hnow := hi.current.now (mine_eq_some.mp (hm.opened.symm.trans ho))
    rw [hk, he] at hnow
    cases hnow
    exact hi'
  case appendFails event hx =>
    exact ⟨cur, booked_look hrun h hs' rfl (by simp [commits, ht, hx]) hi hm hwp.2.2.2.2 hm.found⟩
  all_goals
    refine ⟨cur, booked_look hrun h hs' ?_ (hquiet (by simp)) hi hm (hwp _) hm.found⟩
    rfl

/-- A call begins. -/
theorem booked_call {c : Op} (hrun : (machine T).run tr = some s)
    (h : Crew.step system s (.call t c) = some s')
    (hs' : s' = { s with calls := s.calls + 1 }.goto t (some ⟨s.calls, c, c.code⟩))
    (hidle : ∃ f, s.held t = locks none none none f) (hi : Booked tr s cur) :
    Booked (tr ++ [.call t c]) s' cur := by
  obtain ⟨f, hf⟩ := hidle
  have hheld : ∀ u, s'.held u = s.held u := fun u => by rw [hs']; rfl
  -- a thread without a call holds no event lock, so it has no reservation under way
  have hnone : mine cur t = none := by
    cases hmine : mine cur t with
    | none => rfl
    | some o =>
      have hw := hi.current.event t o (mine_eq_some.mp hmine)
      rw [hf] at hw
      cases hw
  have hfresh : ∀ c', (s.calls, c') ∉ ledger tr := fun c' hmem =>
    absurd (hi.fresh _ hmem) (Nat.lt_irrefl _)
  have hled := ledger_still hrun h rfl
  refine hi.carry hrun h (.inl rfl) ?_ (fun r hr => ?_) (fun _ _ => rfl)
    fun _ hx => absurd hx List.not_mem_nil
  · rw [hled]
    refine hi.current.still (by rw [hs']; rfl) fun u o ho => ?_
    rw [hheld]
    exact ⟨hi.current.event u o ho, fun hno hseat => absurd hseat hno⟩
  · rw [hs', Crew.Act.who, Crew.goto_self] at hr
    cases hr
    refine ⟨⟨locks none none none f, none, none, false⟩, code_books c, ?_, (by simp), hnone.symm, ?_,
      fun c' hc' => ?_⟩
    · rw [Crew.Act.who, hheld]
      exact hf.symm
    · rw [hled]
      exact iff_of_false (by simp) (hfresh c)
    · rw [hled] at hc'
      exact absurd hc' (hfresh c')

/-- A call returns. -/
theorem booked_ret {n : Nat} {c : Op} {ret : Nat} (hrun : (machine T).run tr = some s)
    (h : Crew.step system s (.ret t) = some s') (hs' : s' = s.goto t none)
    (ht : s.thread t = some ⟨n, c, .done ret⟩) (hi : Booked tr s cur) :
    Booked (tr ++ [.ret t]) s' cur := by
  obtain ⟨m, hm⟩ := hi.under t _ ht
  have hdone : Settled c ret m := hm.rest
  refine hi.carry hrun h (.inl rfl) ?_ (fun r hr => ?_) (fun _ _ => rfl) fun x hx => ?_
  · rw [ledger_still hrun h rfl]
    refine hi.current.still (by rw [hs']; rfl) fun u o ho => ?_
    rw [hs']
    exact ⟨hi.current.event u o ho, fun hno hseat => absurd hseat hno⟩
  · rw [hs', Crew.Act.who, Crew.goto_self] at hr
    cases hr
  · simp only [Crew.returned, ht, List.mem_singleton] at hx
    subst hx
    rw [← hm.committed, hdone.committed]
    simp

/-- One step. -/
theorem step_booked (hrun : (machine T).run tr = some s)
    (h : Crew.step system s a = some s') (hi : ∃ cur, Booked tr s cur) :
    ∃ cur, Booked (tr ++ [a]) s' cur := by
  obtain ⟨cur, hi⟩ := hi
  have hw : Watched True tr s := run_watched hrun fun hno => absurd trivial hno
  cases Crew.step_cases h
  case call t c ht =>
    obtain ⟨f, hf, -⟩ := hw.idle t ht
    exact ⟨cur, booked_call hrun h rfl ⟨f, hf⟩ hi⟩
  case ret ht => exact ⟨cur, booked_ret hrun h rfl ht hi⟩
  case lock ht hk => exact ⟨cur, booked_lock hrun h rfl ht hk hi⟩
  case unlock t x n c l next ht =>
    by_cases hl : l = .event
    · subst hl
      exact booked_over hrun h rfl ht hi
    · exact ⟨cur, booked_unlock hrun h rfl ht hl hi⟩
  case act ht hr => exact booked_act hrun h rfl ht hr hi

/-- **Every run.** -/
theorem run_booked (hrun : (machine T).run tr = some s) : ∃ cur, Booked tr s cur :=
  (machine T).run_invariant (I := fun tr s => ∃ cur, Booked tr s cur)
    ⟨none, ⟨rfl, nofun, nofun, nofun, nofun⟩, nofun, nofun, List.nodup_nil, nofun⟩
    (fun _ _ _ _ hs hi h => step_booked hs h hi) tr s hrun

end Steps

/-! ## What a SHOW sees -/

/-- The matrix needs nothing of an event but its dimensions and its seats. -/
theorem matrixText_congr {event event' : Event} (hshape : event.shape = event'.shape)
    (hdata : event.data = event'.data) : matrixText event = matrixText event' := by
  cases event
  cases event'
  cases hshape
  cases hdata
  rfl

/-- While nobody holds `seat_Lock` for writing no reservation can be seen half done. -/
theorem Current.text {s : State T} {list : EventList} {cur : Option (T × Open)}
    (h : Current s list cur) (hfree : ∀ t, s.held t .seat ≠ some .write) (id : UInt32) :
    (Op.showEvent id).text s.store.list = (Op.showEvent id).text list := by
  unfold Op.text
  simp only [h.getEvent]
  cases Jobs.getEvent list id with
  | none => rfl
  | some e =>
    rw [h.list_eq]
    cases hc : cur with
    | none => rfl
    | some x =>
      obtain ⟨t, o⟩ := x
      have hbase := h.base t o hc
      by_cases he : e = o.e
      · subst he
        have hnow : (current list (some (t, o)))[o.e]? = some o.now :=
          List.getElem?_set_self (List.getElem?_eq_some_iff.mp hbase).1
        simp only [Option.bind_some, hnow, hbase, Option.elim_some]
        exact matrixText_congr (h.shape t o hc) (h.seat t o hc (hfree t))
      · have hnow : (current list (some (t, o)))[e]? = list[e]? :=
          List.getElem?_set_ne (Ne.symm he)
        simp only [Option.bind_some, hnow]

/-- What is complete stays so. -/
theorem ledger_mono {before after : List (Crew.Act T Op Choice)} {s : State T}
    (hrun : (machine T).run before = some s) {x : Nat × Op} (hx : x ∈ ledger before) :
    x ∈ ledger (before ++ after) := by
  unfold ledger
  rw [(machine T).log_append commits after hrun]
  exact List.mem_append_left _ hx

/-- **`SHOW` shows committed reservations only.** What a `SHOW` has rendered is the matrix of
its event, or a beginning of it when the call has failed, in the list that the calls in the
ledger make one after the other. It is the ledger at a moment while the `SHOW` was under
way: every reservation that had succeeded by then is in it, once and as a whole, and none
that fails, before or after. -/
theorem show_committed {tr : List (Crew.Act T Op Choice)} {s : State T}
    (hrun : (machine T).run tr = some s) {n : Nat} {id : UInt32} {ret : Nat}
    (hx : (n, .showEvent id, ret) ∈ returns tr) :
    ∃ before after s₀ t p, tr = before ++ after ∧ (machine T).run before = some s₀ ∧
      s₀.thread t = some ⟨n, .showEvent id, p⟩ ∧
      written tr n <+: (Op.showEvent id).text (replay (ledger before)) ∧
      (ret = 0 → written tr n = (Op.showEvent id).text (replay (ledger before))) ∧
      ((ledger before).map (·.1)).Nodup ∧
      (∀ k q, (k, .reserve q, 0) ∈ returns before → (k, .reserve q) ∈ ledger before) ∧
      (∀ k q ret, (k, .reserve q, ret) ∈ returns tr → ret ≠ 0 → (k, .reserve q) ∉ ledger before) := by
  have hw : Watched True tr s := run_watched hrun fun hno => absurd trivial hno
  obtain ⟨_, hi⟩ := run_booked hrun
  obtain ⟨reader, list, ⟨before, after, s₀, t, p, rfl, hbefore, ht, hlist, hreader⟩, hearly, hpre,
    hall, -⟩ := hw.ended _ hx
  obtain ⟨cur, hi₀⟩ := run_booked hbefore
  have hboth : written (before ++ after) n <+: (Op.showEvent id).text (replay (ledger before)) ∧
      (ret = 0 → written (before ++ after) n =
        (Op.showEvent id).text (replay (ledger before))) := by
    by_cases hr : reader = some (.seat, .read)
    · -- it held the lock of the seats for reading
      have hmine := hreader .seat .read hr
      have hfree : ∀ u, s₀.held u .seat ≠ some .write := by
        intro u hu
        by_cases hut : u = t
        · rw [hut, hmine] at hu
          cases hu
        · have hnone := Crew.held_alone hu (Ne.symm hut)
          rw [hmine] at hnone
          cases hnone
      have htext := hi₀.current.text hfree id
      rw [hlist] at htext
      rw [← htext]
      exact ⟨hpre, fun hret => (hall rfl hret).1⟩
    · refine ⟨?_, fun hret => absurd (hall rfl hret).2.2 hr⟩
      have hempty : written (before ++ after) n = [] := hearly hr
      rw [hempty]
      exact List.nil_prefix
  refine ⟨before, after, s₀, t, p, rfl, hbefore, ht, hboth.1, hboth.2, hi₀.nodup, ?_, ?_⟩
  · exact fun k q hk => (hi₀.ended _ hk).mpr ⟨rfl, rfl⟩
  · exact fun k q ret hk hret hmem =>
      hret ((hi.ended _ hk).mp (ledger_mono hbefore hmem)).2

/-- Two seats of event 1, in this order. -/
def twoSeats (a b : UInt64) : Request := ⟨1, 2, fun _ => 1, fun i => if i = 0 then a else b⟩

/-- A `SHOW` that comes while a reservation has marked one seat and not yet taken the mark
back. -/
def showMidway : List (Crew.Act Bool Op Choice) :=
  .call false (.create 1 1 3) :: steps false 11 ++ [.ret false, .call false (.reserve (twoSeats 1 2))] ++
    steps false 17 ++ [.ret false, .call true (.reserve (twoSeats 3 2))] ++ steps true 6 ++
    [.call false (.showEvent 1)] ++ steps false 6 ++ steps true 12 ++ steps false 17 ++
    steps true 1 ++ [.ret false, .ret true]

theorem show_committed_midway : ∃ before after, showMidway = before ++ after ∧
    "1 1 0\n".toList = (Op.showEvent 1).text (replay (ledger before)) := by
  obtain ⟨s, hs⟩ := Option.isSome_iff_exists.mp
    (show ((machine Bool).run showMidway).isSome = true by decide)
  have hret : (returns showMidway)[2]? = some (3, .showEvent 1, 0) := by rfl
  have hwritten : written showMidway 3 = "1 1 0\n".toList := by decide
  obtain ⟨before, after, -, -, -, htr, -, -, -, htext, -⟩ :=
    show_committed hs (List.mem_of_getElem? hret)
  rw [hwritten] at htext
  exact ⟨before, after, htr, htext rfl⟩

end Ems.Jobs.Programs
