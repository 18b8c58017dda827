import Ems.Jobs.Committed

/-!
# What the operations return

An operation decides what it returns while it holds `event_Lock`: `ems_create` and
`ems_show` when they look for the event, and `ems_reserve` when it finds none, or else when
it has the lock again and takes a number. No reservation is under way at such a moment but
its own, so the list is the one that the ledger makes (`list_of_reader`, `list_of_bump`).

`decides` follows one call, with the ledger at the last of these moments. A call returns what
it would return if it were run alone on the list that this ledger makes (`run_tried`). The
library calls have to succeed.
-/

namespace Ems.Jobs.Programs

open Conc Conc.Program
open Server (Request)

/-- What these calls make of the empty list when they succeed one after the other. -/
def made (ops : List Op) : EventList := ops.foldl (fun list c => c.effect list) createList

/-- One change more. -/
theorem made_snoc (ops : List Op) (c : Op) : made (ops ++ [c]) = c.effect (made ops) :=
  List.foldl_append

/-- What is replayed are the changes, whoever made them. -/
theorem replay_eq (calls : List (Nat × Op)) : replay calls = made (calls.map (·.2)) := by
  unfold replay made
  rw [List.foldl_map]

/-- What a whole call returns. -/
def Op.result : Op → EventList → Nat
  | .create id _ _, list => if (getEvent list id).isSome then 1 else 0
  | .reserve q, list => (Jobs.emsReserve list q).2
  | .showEvent id, list => if (getEvent list id).isSome then 0 else 1
  | .listEvents, _ => 0

/-! ## One call -/

/-- One call: its locks, the changes there were when it last looked, the event it has found,
and the one it is in the middle of. -/
structure Trial where
  held : Held Lock
  past : List Op
  found : Option (UInt32 × Nat)
  opened : Option (Nat × Event)

/-- An action. What is looked up is looked up in the list of some changes. -/
@[simp] def decidesAct (m : Trial) : (e : Action) → (Answer e → Trial → Prop) → Prop
  | .initialized, Q => Q true m
  | .lookup eventId, Q => m.held .event = some .read ∧ ∀ past,
      Q (getEvent (made past) eventId)
        { m with past := past, found := (getEvent (made past) eventId).map (eventId, ·) }
  | .load e, Q => ∀ event : Event, (∀ now, m.opened = some (e, now) → event = now) → Q event m
  | .malloc, Q => Q true m
  | .append _, Q => Q true m
  | .bump e, Q => m.held .event = some .write ∧ ∀ past base, (made past)[e]? = some base →
      (∀ id, m.found = some (id, e) → getEvent (made past) id = some e) →
      Q (base.reservations + 1) { m with past := past, opened := some (e, bumpReservations base) }
  | .undo e, Q => ∃ now, m.opened = some (e, now) ∧
      Q () { m with opened := some (e, undoReservations now) }
  | .readSeat e i, Q => ∀ seat : UInt32,
      (∀ now, m.opened = some (e, now) → now.data[i]? = some seat) → Q seat m
  | .writeSeat e i value, Q => ∃ now, m.opened = some (e, now) ∧
      Q () { m with opened := some (e, setSeat now i value) }
  | .nodes, Q => ∀ r, Q r m
  | .nodeId _, Q => ∀ r, Q r m
  | .snprintf, Q => Q true m
  | .write _, Q => ∀ i, Q (some i) m

/-- With `event_Lock` the event is given up. -/
def Trial.hold (m : Trial) (l : Lock) (mode : Option Mode) : Trial :=
  { m with held := Function.update m.held l mode, opened := if l = .event then none else m.opened }

/-- The steps of a call whose library calls succeed. -/
def decides : Spec Lock Action Answer Trial where
  lock l mode Q m := Q (m.hold l (some mode))
  unlock l Q m := Q (m.hold l none)
  act e Q m := decidesAct m e Q
  undefined _ := True
  lock_mono hQ h := hQ _ h
  unlock_mono hQ h := hQ _ h
  act_mono := by
    intro e Q Q' m hQ h
    cases e with
    | lookup => exact ⟨h.1, fun past => hQ _ _ (h.2 past)⟩
    | load => exact fun event he => hQ _ _ (h event he)
    | bump => exact ⟨h.1, fun past base hb hf => hQ _ _ (h.2 past base hb hf)⟩
    | undo =>
      obtain ⟨now, hnow, hpost⟩ := h
      exact ⟨now, hnow, hQ _ _ hpost⟩
    | readSeat => exact fun seat hs => hQ _ _ (h seat hs)
    | writeSeat =>
      obtain ⟨now, hnow, hpost⟩ := h
      exact ⟨now, hnow, hQ _ _ hpost⟩
    | nodes => exact fun r => hQ _ _ (h r)
    | nodeId => exact fun r => hQ _ _ (h r)
    | write => exact fun i => hQ _ _ (h i)
    | _ => exact hQ _ _ h

section Rules

variable {m : Trial}

/-- A lock that is taken is held. -/
@[simp] theorem decides_lock {l : Lock} {mode : Mode} {Q : Trial → Prop} :
    decides.lock l mode Q m = Q (m.hold l (some mode)) := rfl

/-- A lock that is given back is not. -/
@[simp] theorem decides_unlock {l : Lock} {Q : Trial → Prop} :
    decides.unlock l Q m = Q (m.hold l none) := rfl

/-- An action is answered from the list of some changes. -/
@[simp] theorem decides_act {e : Action} {Q : Answer e → Trial → Prop} :
    decides.act e Q m = decidesAct m e Q := rfl

/-- Nothing is said of undefined steps. -/
@[simp] theorem decides_undefined : decides.undefined m := trivial

/-- The lock is the only one that changes. -/
@[simp] theorem hold_held {l : Lock} {mode : Option Mode} :
    (m.hold l mode).held = Function.update m.held l mode := rfl

/-- Locking leaves the changes. -/
@[simp] theorem hold_past {l : Lock} {mode : Option Mode} : (m.hold l mode).past = m.past := rfl

/-- Locking leaves the event that was found. -/
@[simp] theorem hold_found {l : Lock} {mode : Option Mode} : (m.hold l mode).found = m.found := rfl

/-- Only the lock of the events closes the event. -/
@[simp] theorem hold_opened {l : Lock} {mode : Option Mode} :
    (m.hold l mode).opened = if l = .event then none else m.opened := rfl

end Rules

/-- A call returns what it would return if it were run alone then. -/
def Decided (c : Op) (ret : Nat) (m : Trial) : Prop := c.result (made m.past) = ret

/-- `ems_create` returns what it would return alone. -/
theorem create_decides (id : UInt32) (rows cols : UInt64) {m : Trial} :
    (emsCreate id rows cols).wp decides (Decided (.create id rows cols)) m := by
  unfold emsCreate
  simp [Decided, Op.result]
  refine fun past => ⟨fun hfound => if_pos hfound, fun hnone => if_neg ?_⟩
  exact Option.not_isSome_iff_eq_none.mpr hnone

section Loops

variable {q : Request} {e : Nat} {held : Held Lock} {past : List Op}
  {found : Option (UInt32 × Nat)}

/-- The first loop is `markFrom`. -/
theorem markSeats_decides {r : UInt32} {post : Nat → Trial → Prop} (n : Nat) :
    ∀ {i now}, (∀ now', post (markFrom now q r i n).2 ⟨held, past, found, some (e, now')⟩) →
      (markSeats e q r i n).wp decides post ⟨held, past, found, some (e, now)⟩ := by
  induction n with
  | zero => exact fun h => h _
  | succ n ih =>
    intro i now hpost
    unfold markFrom refused at hpost
    simp [markSeats]
    refine ⟨fun hout => ?_, fun hin seat hs => ⟨fun heq => ?_, fun hne => ?_⟩⟩
    · simpa [hout] using hpost now
    all_goals
      have hget : getSeat now (index now q i) = seat := by
        unfold getSeat
        rw [List.getD_eq_getElem?_getD, hs]
        rfl
    · subst heq
      exact ih (by simpa [hin, hget] using hpost)
    · simpa [hget, hne] using hpost now

/-- Undoing seats leaves the changes and the open event. -/
theorem clearSeats_decides {post : Unit → Trial → Prop}
    (hpost : ∀ now, post () ⟨held, past, found, some (e, now)⟩) (n : Nat) :
    ∀ {j now}, (clearSeats e q j n).wp decides post ⟨held, past, found, some (e, now)⟩ := by
  induction n with
  | zero => exact hpost _
  | succ n ih =>
    intro j now
    simp [clearSeats]
    exact ih

/-- It takes its number, and the matrix decides. -/
theorem reserveEvent_decides {m : Trial} (hfound : m.found = some (q.eventId, e)) :
    (reserveEvent e q).wp decides (Decided (.reserve q)) m := by
  simp [reserveEvent]
  intro past base hbase hget
  have hresult : (Jobs.emsReserve (made past) q).2 = (reserveSeats base q).2 := by
    unfold Jobs.emsReserve
    rw [hget _ hfound]
    dsimp only
    rw [hbase]
  refine wp_bind _ _ (markSeats_decides _ fun now => ?_)
  rw [wp_ite]
  refine ⟨fun hlt => ?_, fun hge => ?_⟩
  · simp
    refine wp_bind _ _ (clearSeats_decides (fun now' => ?_) _)
    simp [Decided, Op.result, hresult]
    unfold reserveSeats
    exact if_pos hlt ▸ rfl
  · simp [Decided, Op.result, hresult]
    unfold reserveSeats
    exact if_neg hge ▸ rfl

/-- `ems_reserve` returns what it would return alone. -/
theorem reserve_decides (q : Request) {m : Trial} : (emsReserve q).wp decides (Decided (.reserve q)) m := by
  unfold emsReserve
  simp
  intro past
  cases hfound : getEvent (made past) q.eventId with
  | none => simp [Decided, Op.result, Jobs.emsReserve, hfound]
  | some e =>
    exact reserveEvent_decides (by simp)

end Loops

/-! ## Output -/

section Output

variable {m : Trial} {past : List Op}

/-- A text is written to its end. -/
theorem safeWriteIn_decides {post : Bool → Trial → Prop} (hpost : post true m) (n : Nat) :
    ∀ {text}, (safeWriteIn n text).wp decides post m := by
  induction n with
  | zero => exact hpost
  | succ n ih =>
    intro text
    cases text with
    | nil => exact hpost
    | cons d text => exact fun i => ih

/-- Nothing is looked up on the way out. -/
theorem flush_decides {out : Output} {fail : Code Unit} {post : Option Output → Trial → Prop}
    (hm : m.past = past) (hpost : ∀ out' m', m'.past = past → post (some out') m') :
    (flush out fail).wp decides post m := by
  have hwrite : ∀ {m : Trial}, m.past = past → (safeWrite out.buffer >>= fun written =>
      if !written then fail >>= fun _ => pure none else pure (some ⟨[], true⟩)).wp decides post m :=
    fun hm => wp_bind _ _ (safeWriteIn_decides (hpost _ _ hm) _)
  unfold flush
  rw [wp_ite, wp_lockFile]
  exact ⟨fun _ => ⟨fun _ => hwrite hm, fun _ => hwrite hm⟩, fun _ => hpost out m hm⟩

/-- The last flush and the unlocks leave the changes. -/
theorem finish_decides {out : Output} {unlock : Code Unit} {post : Nat → Trial → Prop}
    (hunlock : ∀ {post : Unit → Trial → Prop} {m : Trial}, m.past = past →
      (∀ m' : Trial, m'.past = past → post () m') → unlock.wp decides post m)
    (hm : m.past = past) (hpost : ∀ m' : Trial, m'.past = past → post 0 m') :
    (finish out unlock).wp decides post m := by
  have hwrite : ∀ {m : Trial}, m.past = past → (safeWrite out.buffer >>= fun written =>
      if !written then unlock >>= fun _ => .unlock .file (pure 1)
      else .unlock .file (unlock >>= fun _ => pure 0)).wp decides post m := by
    intro m hm
    refine wp_bind _ _ (safeWriteIn_decides (wp_bind _ _ (hunlock (m := m.hold .file none) hm
      fun m' hm' => ?_)) _)
    exact hpost m' hm'
  unfold finish
  rw [wp_lockFile]
  exact ⟨fun _ => hwrite hm, fun _ => hwrite hm⟩

/-- What the loops of the operations that print end with. -/
def Through (past : List Op) (out : Option Output) (m : Trial) : Prop := out ≠ none ∧ m.past = past

variable {e : Nat} {event : Event}

/-- A row is printed to its end. -/
theorem showRow_decides {i : Nat} (n : Nat) : ∀ {j out m}, m.past = past →
    (showRow e event i j n out).wp decides (Through past) m := by
  induction n with
  | zero => exact fun h => ⟨by simp, h⟩
  | succ n ih =>
    intro j out m h
    simp [showRow]
    exact fun seat _ _ => wp_bind _ _ (flush_decides h fun out' m' h' => ih h')

/-- All rows are. -/
theorem showRows_decides (n : Nat) : ∀ {i out m}, m.past = past →
    (showRows e event i n out).wp decides (Through past) m := by
  induction n with
  | zero => exact fun h => ⟨by simp, h⟩
  | succ n ih =>
    intro i out m h
    simp only [showRows]
    refine wp_bind _ _ (wp_mono (fun row m' hrow => ?_) (showRow_decides _ h))
    cases row with
    | none => exact absurd rfl hrow.1
    | some out' =>
      simp
      exact fun _ => ih hrow.2

/-- `ems_show` returns what it would return alone. -/
theorem show_decides (id : UInt32) : (emsShow id).wp decides (Decided (.showEvent id)) m := by
  unfold emsShow
  simp
  intro past
  cases hfound : getEvent (made past) id with
  | none => simp [Decided, Op.result, hfound]
  | some e =>
    simp [showEvent]
    intro event
    refine wp_bind _ _ (wp_mono (fun text m' h => ?_) (showRows_decides _ (show _ = past by simp)))
    cases text with
    | none => exact absurd rfl h.1
    | some out =>
      simp
      refine finish_decides (fun hm hpost => hpost _ hm) h.2 fun m' hm' => ?_
      simp [Decided, Op.result, hm', hfound]

/-- The ids are printed to the end. -/
theorem listNodes_decides (n : Nat) : ∀ {i out m}, m.past = past →
    (listNodes i n out).wp decides (Through past) m := by
  induction n with
  | zero => exact fun h => ⟨by simp, h⟩
  | succ n ih =>
    intro i out m h
    simp [listNodes]
    exact fun id => fun _ => wp_bind _ _ (flush_decides h fun out' m' h' => ih h')

/-- `ems_list_events` returns what it would return alone. -/
theorem list_decides : emsListEvents.wp decides (Decided .listEvents) m := by
  have hfinish : ∀ {out : Output} {m : Trial},
      (finish out (release .list)).wp decides (Decided .listEvents) m := fun {out m} =>
    finish_decides (fun hm hpost => hpost _ hm) (rfl : m.past = _) fun m' _ => rfl
  unfold emsListEvents
  simp
  refine fun n => ⟨fun _ => hfinish, fun _ => ?_⟩
  refine wp_bind _ _ (wp_mono (fun text m' h => ?_) (listNodes_decides _ rfl))
  cases text with
  | none => exact absurd rfl h.1
  | some out => exact hfinish

end Output

/-- **One call**, whatever it has seen before. -/
theorem code_decides (c : Op) (m : Trial) : c.code.wp decides (Decided c) m := by
  cases c with
  | create id rows cols => exact create_decides id rows cols
  | reserve q => exact reserve_decides q
  | showEvent id => exact show_decides id
  | listEvents => exact list_decides

/-! ## All calls -/

variable {T : Type} [DecidableEq T]

/-- These were the changes at a moment while the call was under way. -/
def Moment (tr : List (Crew.Act T Op Choice)) (n : Nat) (c : Op) (past : List Op) : Prop :=
  ∃ before after s t p, tr = before ++ after ∧ (machine T).run before = some s ∧
    s.thread t = some ⟨n, c, p⟩ ∧ past = (ledger before).map (·.2)

/-- A call under way. -/
structure Trying (tr : List (Crew.Act T Op Choice)) (s : State T) (t : T)
    (r : Running Lock Action Answer Nat Op) (m : Trial) : Prop where
  rest : r.rest.wp decides (Decided r.call) m
  held : m.held = s.held t
  moment : Moment tr r.no r.call m.past
  found : ∀ id e, m.found = some (id, e) → getEvent s.store.list id = some e
  opened : ∀ e now, m.opened = some (e, now) →
    m.held .event = some .write ∧ s.store.list[e]? = some now

/-- All calls. -/
structure Tried (tr : List (Crew.Act T Op Choice)) (s : State T) : Prop where
  under : ∀ t r, s.thread t = some r → ∃ m, Trying tr s t r m
  ended : ∀ x ∈ returns tr, ∃ past, Moment tr x.1 x.2.1 past ∧ x.2.1.result (made past) = x.2.2

section Steps

variable {tr : List (Crew.Act T Op Choice)} {s s' : State T} {a : Crew.Act T Op Choice} {t : T}
  {r : Running Lock Action Answer Nat Op} {m : Trial}

/-- The moment at which a call was decided stays one. -/
theorem Moment.snoc {n : Nat} {c : Op} {past : List Op} (h : Moment tr n c past) :
    Moment (tr ++ [a]) n c past := by
  obtain ⟨before, after, s, t, p, rfl, hrest⟩ := h
  exact ⟨before, after ++ [a], s, t, p, List.append_assoc .., hrest⟩

/-! ### The list -/

/-- When no reservation is under way the list is what the ledger makes. -/
theorem list_of_idle (hrun : (machine T).run tr = some s)
    (hidle : ∀ cur, Booked tr s cur → cur = none) :
    s.store.list = made ((ledger tr).map (·.2)) := by
  obtain ⟨cur, hi⟩ := run_booked hrun
  have hlist := hi.current.list_eq
  rw [hidle cur hi] at hlist
  exact hlist.trans (replay_eq _)

/-- Nobody reserves while a thread looks for an event. -/
theorem list_of_reader (hrun : (machine T).run tr = some s) (h : s.held t .event = some .read) :
    s.store.list = made ((ledger tr).map (·.2)) := by
  refine list_of_idle hrun fun cur hi => ?_
  by_contra hcur
  obtain ⟨⟨u, o⟩, hcur⟩ := Option.ne_none_iff_exists'.mp hcur
  have hw := hi.current.event u o hcur
  by_cases hut : u = t
  · rw [hut, h] at hw
    cases hw
  · have hnone := Crew.held_alone hw (Ne.symm hut)
    rw [h] at hnone
    cases hnone

/-- A thread that takes a number is the only one that reserves, and has not begun. -/
theorem list_of_bump {n e : Nat} {c : Op} {next : UInt32 → Code Nat}
    (hrun : (machine T).run tr = some s) (ht : s.thread t = some ⟨n, c, .act (.bump e) next⟩) :
    s.store.list = made ((ledger tr).map (·.2)) := by
  refine list_of_idle hrun fun cur hi => ?_
  by_contra hcur
  obtain ⟨⟨u, o⟩, hcur⟩ := Option.ne_none_iff_exists'.mp hcur
  obtain ⟨m, hm⟩ := hi.under t _ ht
  obtain ⟨hw, hnone, -⟩ := hm.rest
  rw [hm.held] at hw
  cases hi.current.owner hw hcur
  rw [hm.opened, mine_eq_some.mpr hcur] at hnone
  cases hnone

/-! ### The event -/

/-- The actions that store to an event. -/
def Action.stores : Action → Bool
  | .bump _ => true
  | .undo _ => true
  | .writeSeat _ _ _ => true
  | _ => false

/-- Every other action leaves the events as they are. -/
theorem Answers.event {x : Choice} {e : Action} {r : Answer e} {store store' : Store}
    (h : Answers x e store r store') (hno : e.stores = false) {k : Nat} {event : Event}
    (hk : store.list[k]? = some event) : store'.list[k]? = some event := by
  cases h
  case append => exact (List.getElem?_append_left (List.getElem?_eq_some_iff.mp hk).1).trans hk
  case bump => cases hno
  case undo => cases hno
  case writeSeat => cases hno
  all_goals exact hk

/-- Only with `event_Lock` a thread stores to an event. -/
theorem Trying.writer {n : Nat} {c : Op} {e : Action} {next : Answer e → Code Nat}
    (hi : Trying tr s t ⟨n, c, .act e next⟩ m) (he : e.stores = true) :
    s.held t .event = some .write := by
  have hwp := hi.rest
  rw [← hi.held]
  cases e with
  | bump => exact hwp.1
  | undo =>
    obtain ⟨now, hnow, -⟩ := hwp
    exact (hi.opened _ _ hnow).1
  | writeSeat =>
    obtain ⟨now, hnow, -⟩ := hwp
    exact (hi.opened _ _ hnow).1
  | _ => cases he

/-- The event of a thread stays as it is while others move. -/
theorem opened_other (h : Crew.Step system s a s') (ht : t ≠ a.who)
    (hall : ∀ r, s.thread a.who = some r → ∃ m, Trying tr s a.who r m) {k : Nat} {now : Event}
    (hw : s.held t .event = some .write) (hk : s.store.list[k]? = some now) :
    s'.store.list[k]? = some now := by
  cases h
  case act hat hr =>
    refine (answer_cases hr).event (Bool.eq_false_of_not_eq_true fun hstores => ?_) hk
    obtain ⟨m, hm⟩ := hall _ hat
    have hnone := Crew.held_alone (hm.writer hstores) ht
    rw [hw] at hnone
    cases hnone
  all_goals exact hk

/-- A step of another thread. -/
theorem Trying.other (h : Crew.step system s a = some s') (ht : t ≠ a.who)
    (hall : ∀ r, s.thread a.who = some r → ∃ m, Trying tr s a.who r m)
    (hi : Trying tr s t r m) : Trying (tr ++ [a]) s' t r m := by
  have hstep := Crew.step_cases h
  refine ⟨hi.rest, hi.held.trans (hstep.held_other ht).symm, hi.moment.snoc, fun id e he => ?_,
    fun e now he => ?_⟩
  · exact (step_grows hstep).getEvent (hi.found id e he)
  · obtain ⟨hw, hk⟩ := hi.opened e now he
    exact ⟨hw, opened_other hstep ht hall (by rw [← hi.held]; exact hw) hk⟩

/-! ### One step -/

/-- A lock is taken or given back. -/
theorem Trying.hold {n : Nat} {c : Op} {l : Lock} {mode : Option Mode} {p next : Code Nat}
    (hi : Trying tr s t ⟨n, c, p⟩ m) (hrest : next.wp decides (Decided c) (m.hold l mode))
    (hheld : s'.held t = Function.update (s.held t) l mode) (hstore : s'.store = s.store) :
    Trying (tr ++ [a]) s' t ⟨n, c, next⟩ (m.hold l mode) := by
  refine ⟨hrest, ?_, hi.moment.snoc, ?_, fun e now he => ?_⟩
  · rw [hheld, ← hi.held]
    rfl
  · rw [hstore]
    exact hi.found
  · rw [hold_opened] at he
    split at he
    next => cases he
    next hl =>
      rw [hold_held, hstore, Function.update_of_ne (Ne.symm hl)]
      exact hi.opened e now he

/-- An action, and what is known behind it. -/
theorem Trying.act {n : Nat} {c : Op} {p next : Code Nat} {m' : Trial}
    (h : Crew.step system s a = some s') (hheld : s'.held t = s.held t)
    (hi : Trying tr s t ⟨n, c, p⟩ m) (hrest : next.wp decides (Decided c) m')
    (hm : m'.held = m.held) (hmoment : Moment (tr ++ [a]) n c m'.past)
    (hfound : ∀ id e, m'.found = some (id, e) → getEvent s.store.list id = some e)
    (hopened : ∀ e now, m'.opened = some (e, now) →
      m.held .event = some .write ∧ s'.store.list[e]? = some now) :
    Trying (tr ++ [a]) s' t ⟨n, c, next⟩ m' := by
  refine ⟨hrest, hm.trans (hi.held.trans hheld.symm), hmoment, fun id e he => ?_, ?_⟩
  · exact (step_grows (Crew.step_cases h)).getEvent (hfound id e he)
  · rw [hm]
    exact hopened

/-- Any action of the thread. -/
theorem trying_act {n : Nat} {c : Op} {e : Action} {next : Answer e → Code Nat} {v : Answer e}
    {store : Store} {x : Choice} (hrun : (machine T).run tr = some s)
    (h : Crew.step system s (.step t x) = some s')
    (hs' : s' = { s with store := store }.goto t (some ⟨n, c, next v⟩))
    (ht : s.thread t = some ⟨n, c, .act e next⟩) (hr : answer x e s.store = some (v, store))
    (hok : x.ok = true) (hi : Trying tr s t ⟨n, c, .act e next⟩ m) :
    ∃ m', Trying (tr ++ [.step t x]) s' t ⟨n, c, next v⟩ m' := by
  have hheld : s'.held t = s.held t := by rw [hs']; rfl
  have hlist : s'.store.list = store.list := by rw [hs']; rfl
  have hwp := hi.rest
  have hnow : Moment (tr ++ [.step t x]) n c ((ledger tr).map (·.2)) :=
    ⟨tr, [.step t x], s, t, _, rfl, hrun, ht, rfl⟩
  have hans := answer_cases hr
  -- an action that looks at nothing new
  have hquiet : e.stores = false → (next v).wp decides (Decided c) m →
      ∃ m', Trying (tr ++ [.step t x]) s' t ⟨n, c, next v⟩ m' := by
    intro hno hrest
    refine ⟨m, hi.act h hheld hrest rfl hi.moment.snoc hi.found fun k now hk => ?_⟩
    rw [hlist]
    exact ⟨(hi.opened k now hk).1, hans.event hno (hi.opened k now hk).2⟩
  cases hans
  case initialized => exact hquiet rfl hwp
  case lookup id =>
    obtain ⟨hread, hrest⟩ := hwp
    have hsame := list_of_reader hrun (by rw [← hi.held]; exact hread)
    rw [hsame]
    refine ⟨_, hi.act h hheld (hrest _) rfl hnow (fun id' k hk => ?_) fun k now hk => ?_⟩
    · obtain ⟨k', hk', heq⟩ := Option.map_eq_some_iff.mp hk
      cases heq
      rw [hsame]
      exact hk'
    · rw [hlist]
      exact hi.opened k now hk
  case load k event he =>
    refine hquiet rfl (hwp event fun now hk => ?_)
    rw [(hi.opened k now hk).2] at he
    exact (Option.some.inj he).symm
  case malloc =>
    rw [hok]
    rw [hok] at hquiet
    exact hquiet rfl hwp
  case append => exact hquiet rfl hwp
  case appendFails hx =>
    rw [hok] at hx
    cases hx
  case bump k event he =>
    obtain ⟨hwrite, hrest⟩ := hwp
    have hsame := list_of_bump hrun ht
    refine ⟨_, hi.act h hheld (hrest _ event (by rw [← hsame]; exact he) fun id hk => ?_) rfl hnow
      hi.found fun k' now hk => ?_⟩
    · rw [← hsame]
      exact hi.found id k hk
    · cases hk
      rw [hlist]
      exact ⟨hwrite, List.getElem?_set_self (List.getElem?_eq_some_iff.mp he).1⟩
  case undo k event he =>
    obtain ⟨now, hk, hrest⟩ := hwp
    obtain ⟨hwrite, hnow'⟩ := hi.opened k now hk
    rw [he] at hnow'
    cases hnow'
    refine ⟨_, hi.act h hheld hrest rfl hi.moment.snoc hi.found fun k' now' hk' => ?_⟩
    cases hk'
    rw [hlist]
    exact ⟨hwrite, List.getElem?_set_self (List.getElem?_eq_some_iff.mp he).1⟩
  case readSeat k i event seat hseat he =>
    refine hquiet rfl (hwp seat fun now hk => ?_)
    rw [(hi.opened k now hk).2] at he
    cases he
    exact hseat
  case writeSeat k i value event hlt he =>
    obtain ⟨now, hk, hrest⟩ := hwp
    obtain ⟨hwrite, hnow'⟩ := hi.opened k now hk
    rw [he] at hnow'
    cases hnow'
    refine ⟨_, hi.act h hheld hrest rfl hi.moment.snoc hi.found fun k' now' hk' => ?_⟩
    cases hk'
    rw [hlist]
    exact ⟨hwrite, List.getElem?_set_self (List.getElem?_eq_some_iff.mp he).1⟩
  case nodes => exact hquiet rfl (hwp _)
  case nodeId => exact hquiet rfl (hwp _)
  case snprintf =>
    rw [hok]
    rw [hok] at hquiet
    exact hquiet rfl hwp
  case write => exact hquiet rfl (hwp _)
  case writeFails hx =>
    rw [hok] at hx
    cases hx

/-- One step. -/
theorem step_tried (hrun : (machine T).run tr = some s) (h : Crew.step system s a = some s')
    (hok : ∀ t x, a = .step t x → x.ok = true) (hi : Tried tr s) : Tried (tr ++ [a]) s' := by
  have hstep := Crew.step_cases h
  constructor
  · intro u r hu
    by_cases hua : u = a.who
    · subst hua
      cases hstep
      case call t c ht =>
        have hafter : (machine T).run (tr ++ [.call t c]) = some _ :=
          (machine T).run_snoc.mpr ⟨s, hrun, h⟩
        simp only [Crew.Act.who, Crew.goto_self] at hu
        cases hu
        refine ⟨⟨s.held t, (ledger (tr ++ [.call t c])).map (·.2), none, none⟩,
          code_decides c _, rfl, ?_, by simp, by simp⟩
        exact ⟨tr ++ [.call t c], [], _, t, c.code, (List.append_nil _).symm, hafter,
          Crew.goto_self _, rfl⟩
      case ret =>
        simp only [Crew.Act.who, Crew.goto_self] at hu
        cases hu
      case lock ht hk =>
        simp only [Crew.Act.who, Crew.goto_self] at hu
        cases hu
        obtain ⟨m, hm⟩ := hi.under _ _ ht
        exact ⟨_, hm.hold hm.rest (Crew.held_lock hk _) rfl⟩
      case unlock ht =>
        simp only [Crew.Act.who, Crew.goto_self] at hu
        cases hu
        obtain ⟨m, hm⟩ := hi.under _ _ ht
        exact ⟨_, hm.hold hm.rest (Crew.held_unlock _) rfl⟩
      case act ht hr =>
        simp only [Crew.Act.who, Crew.goto_self] at hu
        cases hu
        obtain ⟨m, hm⟩ := hi.under _ _ ht
        exact trying_act hrun h rfl ht hr (hok _ _ rfl) hm
    · rw [hstep.thread_other hua] at hu
      obtain ⟨m, hm⟩ := hi.under u r hu
      exact ⟨m, hm.other h hua (hi.under _)⟩
  · intro x hx
    unfold returns at hx
    rw [Crew.returns_snoc hrun h] at hx
    rcases List.mem_append.mp hx with hx | hx
    · obtain ⟨past, hpast, hres⟩ := hi.ended x hx
      exact ⟨past, hpast.snoc, hres⟩
    · obtain ⟨m, hm⟩ := hi.under _ _ (Crew.mem_returned hx)
      exact ⟨m.past, hm.moment.snoc, hm.rest⟩

/-- **Every call** returns what it would return if it were run alone, at some moment while it
was under way. -/
theorem run_tried (hrun : (machine T).run tr = some s)
    (hok : ∀ t x, Crew.Act.step t x ∈ tr → x.ok = true) : Tried tr s := by
  refine (machine T).run_invariant
    (I := fun tr s => (∀ t x, Crew.Act.step t x ∈ tr → x.ok = true) → Tried tr s)
    (fun _ => ⟨nofun, nofun⟩) (fun tr s a s' hs hi h hall => ?_) tr s hrun hok
  refine step_tried hs h (fun t x ha => hall t x ?_)
    (hi fun t x ht => hall t x (List.mem_append_left _ ht))
  rw [ha]
  exact List.mem_append_right _ (List.mem_singleton_self _)

/-! ### Reservations -/

omit [DecidableEq T] in
/-- A step completes one call at most. -/
theorem commits_cases [DecidableEq T] (s : State T) (a : Crew.Act T Op Choice) :
    commits s a = [] ∨ ∃ x, commits s a = [x] := by
  cases a with
  | step t x =>
    simp only [commits]
    split
    next n c next _ =>
      split
      next => exact .inr ⟨_, rfl⟩
      next => exact .inl rfl
    next n c event next _ =>
      split
      next => exact .inr ⟨_, rfl⟩
      next => exact .inl rfl
    next => exact .inl rfl
  | _ => exact .inl rfl

/-- A reservation that is complete has been granted by the list as it was before. -/
theorem commit_granted {n : Nat} {q : Request} (hrun : (machine T).run tr = some s)
    (h : (n, Op.reserve q) ∈ commits s a) :
    (Jobs.emsReserve (made ((ledger tr).map (·.2))) q).2 = 0 := by
  obtain ⟨cur, hi⟩ := run_booked hrun
  cases a with
  | step t x =>
    simp only [commits] at h
    split at h
    next n' c next ht =>
      split at h
      next hw =>
        cases List.mem_singleton.mp h
        obtain ⟨m, hm⟩ := hi.under t _ ht
        obtain ⟨o, q', ho, hc, hfound, hdone, -, -⟩ := hm.rest.1 (by rw [hm.held]; exact hw)
        cases hc
        have hcur : cur = some (t, o) := mine_eq_some.mp (hm.opened.symm.trans ho)
        have hget := hm.found _ _ hfound
        rw [hi.current.getEvent] at hget
        rw [← replay_eq]
        unfold Jobs.emsReserve
        rw [hget]
        dsimp only
        rw [hi.current.base t o hcur]
        exact congrArg (·.2) hdone
      next => exact absurd h List.not_mem_nil
    next n' c event next ht =>
      split at h
      next =>
        cases List.mem_singleton.mp h
        -- only `ems_create` appends
        obtain ⟨m, hm⟩ := hi.under t _ ht
        obtain ⟨⟨_, _, _, hc, -⟩, -⟩ := hm.rest
        cases hc
      next => exact absurd h List.not_mem_nil
    next => exact absurd h List.not_mem_nil
  | _ => exact absurd h List.not_mem_nil

/-- **Every reservation** among the changes is granted by those before it. -/
theorem run_granted (hrun : (machine T).run tr = some s) : ∀ front q,
    front ++ [.reserve q] <+: (ledger tr).map (·.2) → (Jobs.emsReserve (made front) q).2 = 0 := by
  refine (machine T).run_invariant (I := fun tr _ => ∀ front q,
    front ++ [.reserve q] <+: (ledger tr).map (·.2) → (Jobs.emsReserve (made front) q).2 = 0)
    (fun front q h => by simp [ledger, Machine.log, Machine.logFrom] at h)
    (fun tr s a s' hs hi h front q hpre => ?_) tr s hrun
  rw [ledger_snoc hs h] at hpre
  rcases commits_cases s a with hc | ⟨x, hc⟩
  · rw [hc, List.append_nil] at hpre
    exact hi front q hpre
  · rw [hc, List.map_append, List.map_singleton, List.prefix_concat_iff] at hpre
    rcases hpre with heq | hold
    · obtain ⟨rfl, hx⟩ := List.append_inj' heq rfl
      obtain ⟨n, c⟩ := x
      cases hx
      exact commit_granted hs (by rw [hc]; exact List.mem_singleton_self _)
    · exact hi front q hold

end Steps

end Ems.Jobs.Programs
