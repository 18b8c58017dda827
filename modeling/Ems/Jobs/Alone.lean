import Ems.Jobs.Calls

/-!
# Calls that nobody disturbs

The machine of `Calls.lean` and the functions of `Operations.lean` are two readings of
the same source. When one thread makes its steps without pause, from free locks on, the
call comes to its end, every lock is free again, and the list and the result are those
of the function (`call_alone`). So what `emsCreate` and `emsReserve` do one after the
other is what the machine does in some run (`runs_alone`).
-/

namespace Ems.Jobs.Calls

open Conc Server

/-- What an operation does when it is run alone. -/
def Op.exec (alloc : Jobs.Alloc) (list : EventList) : Op → EventList × Nat
  | .create eventId numRows numCols => emsCreate alloc list eventId numRows numCols
  | .reserve q => emsReserve list q

/-- Thread `t` at `p`, the others where `pc` has them. -/
def placed (list : EventList) (listLock eventLock seatLock : RwLock Tid) (pc : Tid → Pc) (t : Tid)
    (p : Pc) : State :=
  ⟨list, listLock, eventLock, seatLock, Function.update pc t p⟩

section Steps

variable {list : EventList} {l₁ l₂ l₃ : RwLock Tid} {pc : Tid → Pc} {t : Tid}
  {alloc : Jobs.Alloc} {q : Request} {e i j : Nat} {r : UInt32} {event : Jobs.Event} {p p' : Pc}
  {s' : State}

theorem placed_pc : (placed list l₁ l₂ l₃ pc t p).pc t = p := Function.update_self ..

/-- A step of `ems_reserve`, and the rest of the way. -/
theorem reserve_head {list' : EventList} {l₁' l₂' l₃' : RwLock Tid}
    (h : Step (placed list l₁ l₂ l₃ pc t p) (.step t alloc)
      (State.goto ⟨list', l₁', l₂', l₃', (placed list l₁ l₂ l₃ pc t p).pc⟩ t p'))
    (hrest : machine.Repeats (.step t alloc) (placed list' l₁' l₂' l₃' pc t p') s') :
    machine.Repeats (.step t alloc) (placed list l₁ l₂ l₃ pc t p) s' := by
  refine .head (step_of_rule h) ?_
  unfold State.goto placed
  rw [Function.update_idem]
  exact hrest

theorem creates_placed {c : Jobs.Pc} :
    (placed list l₁ l₂ l₃ pc t (.create c)).creates.pc t = c := creates_pc placed_pc

/-- A step of `ems_create`, and the rest of the way. -/
theorem create_head {c c' : Jobs.Pc} {v : Jobs.State}
    (h : Jobs.Step (placed list l₁ l₂ l₃ pc t (.create c)).creates (.step t alloc) (v.goto t c'))
    (hrest : machine.Repeats (.step t alloc)
      (placed v.list v.listLock v.eventLock l₃ pc t (.create c')) s') :
    machine.Repeats (.step t alloc) (placed list l₁ l₂ l₃ pc t (.create c)) s' := by
  have hstep := Step.create placed_pc h
  rw [Jobs.goto_self] at hstep
  exact reserve_head hstep hrest

/-! ## ems_create -/

theorem create_alone (id : UInt32) (rows cols : UInt64) :
    machine.Repeats (.step t alloc)
      (placed list RwLock.free RwLock.free l₃ pc t (.create (.readList id rows cols)))
      (placed (emsCreate alloc list id rows cols).1 RwLock.free RwLock.free l₃ pc t
        (.create (.done id (emsCreate alloc list id rows cols).2))) := by
  obtain ⟨l, hlock, hunlock⟩ := RwLock.rdlock_free t
  obtain ⟨lw, hwlock, hwunlock⟩ := RwLock.wrlock_free t
  refine create_head (.readList creates_placed hlock) ?_
  refine create_head (.readEvent creates_placed hlock) ?_
  unfold emsCreate
  split
  next hfound =>
    refine create_head (.found creates_placed hfound) ?_
    refine create_head (.existsUnlist creates_placed) ?_
    refine create_head (.existsUnevent creates_placed) ?_
    show machine.Repeats _ (placed list (l.unlock t) (l.unlock t) l₃ pc t _) _
    rw [hunlock]
    exact .refl _ _
  next hfound =>
    refine create_head (.absent creates_placed (Option.not_isSome_iff_eq_none.mp hfound)) ?_
    refine create_head (.absentUnevent creates_placed) ?_
    refine create_head (.absentUnlist creates_placed) ?_
    -- both read locks have been given back, so the write lock is there to be had
    show machine.Repeats _ (placed list (l.unlock t) (l.unlock t) l₃ pc t _) _
    rw [hunlock]
    cases hbuild : buildEvent alloc id rows cols with
    | none =>
      refine create_head (.buildFails creates_placed hbuild) ?_
      exact .refl _ _
    | some event =>
      refine create_head (.build creates_placed hbuild) ?_
      refine create_head (.writeList creates_placed hwlock) ?_
      by_cases hnode : alloc.node = true
      · refine create_head (.append creates_placed hnode) ?_
        refine create_head (.unlist creates_placed) ?_
        show machine.Repeats _ (placed (appendToList list event) (lw.unlock t) _ l₃ pc t _) _
        rw [hwunlock, buildEvent_id hbuild]
        simp only [if_pos hnode]
        exact .refl _ _
      · refine create_head (.appendFails creates_placed (Bool.eq_false_of_not_eq_true hnode)) ?_
        refine create_head (.unlist creates_placed) ?_
        show machine.Repeats _ (placed list (lw.unlock t) _ l₃ pc t _) _
        rw [hwunlock, buildEvent_id hbuild]
        simp only [if_neg hnode]
        exact .refl _ _

/-! ## ems_reserve -/

section Loops

/-! The event at `e` is the only one the loops touch: `list` is what the others are. -/

/-- A step that writes the event, and the rest of the way. -/
theorem write_head {event' : Jobs.Event} (h : Step (placed (list.set e event) l₁ l₂ l₃ pc t p)
      (.step t alloc)
      ((State.setEvent (placed (list.set e event) l₁ l₂ l₃ pc t p) e event').goto t p'))
    (hrest : machine.Repeats (.step t alloc) (placed (list.set e event') l₁ l₂ l₃ pc t p') s') :
    machine.Repeats (.step t alloc) (placed (list.set e event) l₁ l₂ l₃ pc t p) s' := by
  refine reserve_head h ?_
  show machine.Repeats _ (placed ((list.set e event).set e event') l₁ l₂ l₃ pc t p') s'
  rw [List.set_set]
  exact hrest

/-- The first loop, from the `i`-th seat on. -/
theorem marks_alone (he : e < list.length) (n : Nat) : ∀ (event : Jobs.Event) (i : Nat),
    i + n = q.numSeats.toNat →
    machine.Repeats (.step t alloc)
      (placed (list.set e event) l₁ l₂ l₃ pc t (.seatCheck q e r i))
      (placed (list.set e (markFrom event q r i n).1) l₁ l₂ l₃ pc t
        (if (markFrom event q r i n).2 < q.numSeats.toNat then .undo q e (markFrom event q r i n).2
        else .commitUnevent e)) := by
  induction n with
  | zero =>
    intro event i hi
    have hat : (list.set e event)[e]? = some event := List.getElem?_set_self he
    rw [show markFrom event q r i 0 = (event, i) from rfl, if_neg (by show ¬ i < _; omega)]
    exact reserve_head (.commit placed_pc hat (by omega)) (.refl _ _)
  | succ n ih =>
    intro event i hi
    have hat : (list.set e event)[e]? = some event := List.getElem?_set_self he
    have hlt : i < q.numSeats.toNat := by omega
    cases hr : refused event q i with
    | true =>
      rw [show markFrom event q r i (n + 1) = (event, i) from if_pos hr, if_pos hlt]
      exact reserve_head (.refuse placed_pc hat hlt hr) (.refl _ _)
    | false =>
      have hnext : markFrom event q r i (n + 1) =
          markFrom (setSeat event (index event q i) r) q r (i + 1) n := by
        rw [markFrom, if_neg (by rw [hr]; exact Bool.false_ne_true)]
      rw [hnext]
      refine reserve_head (.pass placed_pc hat hlt hr) ?_
      exact write_head (.seatMark placed_pc hat) (ih _ (i + 1) (by omega))

/-- The second loop, from the `j`-th mark on. -/
theorem clears_alone (he : e < list.length) (n : Nat) : ∀ (event : Jobs.Event) (j : Nat),
    j + n = i →
    machine.Repeats (.step t alloc)
      (placed (list.set e event) l₁ l₂ l₃ pc t (.seatClear q e i j))
      (placed (list.set e (clearFrom event q j n)) l₁ l₂ l₃ pc t (.failUnseat e)) := by
  induction n with
  | zero =>
    intro event j hj
    have hat : (list.set e event)[e]? = some event := List.getElem?_set_self he
    exact reserve_head (.cleared placed_pc hat (by omega)) (.refl _ _)
  | succ n ih =>
    intro event j hj
    have hat : (list.set e event)[e]? = some event := List.getElem?_set_self he
    exact write_head (.seatClear placed_pc hat (by omega)) (ih _ (j + 1) (by omega))

/-- The section of `event_Lock`, from the count to the result. -/
theorem seats_alone (he : e < list.length) :
    machine.Repeats (.step t alloc)
      (placed (list.set e event) RwLock.free RwLock.free RwLock.free pc t (.writeEvent q e))
      (placed (list.set e (reserveSeats event q).1) RwLock.free RwLock.free RwLock.free pc t
        (.done (reserveSeats event q).2)) := by
  obtain ⟨lw, hlock, hunlock⟩ := RwLock.wrlock_free t
  have hat : ∀ event, (list.set e event)[e]? = some event := fun event => List.getElem?_set_self he
  refine reserve_head (.writeEvent placed_pc hlock) ?_
  refine write_head (.bump placed_pc (hat event)) ?_
  refine reserve_head (.writeSeats placed_pc hlock) ?_
  refine .trans (marks_alone he q.numSeats.toNat _ 0 (Nat.zero_add _)) ?_
  unfold reserveSeats
  dsimp only
  -- how the first loop ended decides which of the two ways out is taken
  generalize markFrom (Jobs.bumpReservations event) q (event.reservations + 1) 0
    q.numSeats.toNat = m
  by_cases hbreak : m.2 < q.numSeats.toNat
  · rw [if_pos hbreak, if_pos hbreak]
    refine write_head (.undo placed_pc (hat m.1)) ?_
    refine .trans (clears_alone he m.2 _ 0 (Nat.zero_add _)) ?_
    refine reserve_head (.failUnseat placed_pc) ?_
    refine reserve_head (.failUnevent placed_pc) ?_
    show machine.Repeats _ (placed _ _ (lw.unlock t) (lw.unlock t) pc t _) _
    rw [hunlock]
    exact .refl _ _
  · rw [if_neg hbreak, if_neg hbreak]
    refine reserve_head (.commitUnevent placed_pc) ?_
    refine reserve_head (.commitUnseat placed_pc) ?_
    show machine.Repeats _ (placed _ _ (lw.unlock t) (lw.unlock t) pc t _) _
    rw [hunlock]
    exact .refl _ _

end Loops

theorem reserve_alone (q : Request) :
    machine.Repeats (.step t alloc)
      (placed list RwLock.free RwLock.free RwLock.free pc t (.readList q))
      (placed (emsReserve list q).1 RwLock.free RwLock.free RwLock.free pc t
        (.done (emsReserve list q).2)) := by
  obtain ⟨l, hlock, hunlock⟩ := RwLock.rdlock_free t
  refine reserve_head (.readList placed_pc hlock) ?_
  refine reserve_head (.readEvent placed_pc hlock) ?_
  refine reserve_head (.lookup placed_pc) ?_
  refine reserve_head (.unevent placed_pc) ?_
  show machine.Repeats _
    (placed list l (l.unlock t) _ pc t (.unlist q (Jobs.getEvent list q.eventId))) _
  rw [hunlock]
  unfold emsReserve
  cases hfound : Jobs.getEvent list q.eventId with
  | none =>
    refine reserve_head (.missing placed_pc) ?_
    show machine.Repeats _ (placed list (l.unlock t) _ _ pc t _) _
    rw [hunlock]
    exact .refl _ _
  | some e =>
    refine reserve_head (.found placed_pc) ?_
    show machine.Repeats _ (placed list (l.unlock t) _ _ pc t _) _
    have hlen := Jobs.getEvent_lt hfound
    have he : list[e]? = some list[e] := List.getElem?_eq_getElem hlen
    -- the event as it is found is the one `seats_alone` starts from
    have hseats := @seats_alone list pc t alloc q e list[e] hlen
    rw [set_same he] at hseats
    rw [hunlock]
    simp only [he]
    exact hseats

end Steps

/-! ## Whole calls -/

/-- Every lock is free, and nobody is in a call. -/
def State.quiet (list : EventList) : State :=
  ⟨list, RwLock.free, RwLock.free, RwLock.free, fun _ => .idle⟩

/-- What a call that is over hands back. -/
def Pc.result : Pc → Option Nat
  | .create (.done _ ret) => some ret
  | .done ret => some ret
  | _ => none

/-- What a step shows: the result of a call that returns. -/
def returned (s : State) : Act → List Nat
  | .ret t => (s.pc t).result.toList
  | _ => []

/-- The operations one after the other, each with the answers of its allocator: the list
they leave, and what each of them returns. -/
def serial (list : EventList) : List (Tid × Jobs.Alloc × Op) → EventList × List Nat
  | [] => (list, [])
  | (_, alloc, op) :: calls =>
    ((serial (op.exec alloc list).1 calls).1,
      (op.exec alloc list).2 :: (serial (op.exec alloc list).1 calls).2)

/-- From its entry a call comes to its end. -/
theorem exec_alone (op : Op) (alloc : Jobs.Alloc) (list : EventList) (pc : Tid → Pc) (t : Tid) :
    ∃ p, p.result = some (op.exec alloc list).2 ∧
      machine.Repeats (.step t alloc)
        (placed list RwLock.free RwLock.free RwLock.free pc t op.entry)
        (placed (op.exec alloc list).1 RwLock.free RwLock.free RwLock.free pc t p) := by
  cases op with
  | create id rows cols => exact ⟨.create (.done id _), rfl, create_alone id rows cols⟩
  | reserve q => exact ⟨.done _, rfl, reserve_alone q⟩

theorem step_ret {s : State} {t : Tid} {ret : Nat} (h : (s.pc t).result = some ret) :
    machine.step s (.ret t) = some (s.goto t .idle) := by
  show step s (.ret t) = _
  cases hp : s.pc t with
  | create c =>
    cases c with
    | done id r => exact step_of_rule (.retCreate hp)
    | _ => rw [hp] at h; cases h
  | done r => exact step_of_rule (.ret hp)
  | _ => rw [hp] at h; cases h

/-- **A call alone** does what the function does, and leaves nothing behind. -/
theorem call_alone (op : Op) (alloc : Jobs.Alloc) (list : EventList) (t : Tid) :
    ∃ tr, machine.runFrom (.quiet list) tr = some (.quiet (op.exec alloc list).1) ∧
      machine.logFrom returned (.quiet list) tr = [(op.exec alloc list).2] := by
  obtain ⟨p, hp, n, hn⟩ := exec_alone op alloc list (fun _ => .idle) t
  have hcall : machine.step (.quiet list) (.call t op) =
      some (placed list RwLock.free RwLock.free RwLock.free (fun _ => .idle) t op.entry) := rfl
  have hret := step_ret (s := placed (op.exec alloc list).1 RwLock.free RwLock.free RwLock.free
    (fun _ => .idle) t p) (by rw [placed_pc]; exact hp)
  have hidle : (placed (op.exec alloc list).1 RwLock.free RwLock.free RwLock.free
      (fun _ => .idle) t p).goto t .idle = .quiet (op.exec alloc list).1 := by
    unfold State.goto placed State.quiet
    rw [Function.update_idem, Function.update_eq_self]
  rw [hidle] at hret
  refine ⟨.call t op :: (List.replicate n (.step t alloc) ++ [.ret t]), ?_, ?_⟩
  · rw [Machine.runFrom_cons, hcall]
    show machine.runFrom _ _ = _
    rw [Machine.runFrom_append, hn]
    show machine.runFrom _ [_] = _
    rw [Machine.runFrom_cons, hret]
    rfl
  · rw [Machine.logFrom, hcall]
    show returned _ (.call t op) ++ _ = _
    rw [machine.logFrom_append returned [.ret t] hn,
      machine.logFrom_replicate (fun _ => rfl) n]
    show machine.logFrom returned _ [.ret t] = _
    rw [Machine.logFrom, hret]
    show (Option.toList (Pc.result (State.pc _ t))) ++ [] = _
    rw [placed_pc, hp]
    rfl

/-- **Calls one after the other**: some run leaves what the functions leave, and its calls
return what the functions return. -/
theorem runs_alone (calls : List (Tid × Jobs.Alloc × Op)) : ∀ list : EventList,
    ∃ tr, machine.runFrom (.quiet list) tr = some (.quiet (serial list calls).1) ∧
      machine.logFrom returned (.quiet list) tr = (serial list calls).2 := by
  induction calls with
  | nil => exact fun list => ⟨[], rfl, rfl⟩
  | cons c calls ih =>
    intro list
    obtain ⟨t, alloc, op⟩ := c
    obtain ⟨tr, hrun, hlog⟩ := call_alone op alloc list t
    obtain ⟨tr', hrun', hlog'⟩ := ih (op.exec alloc list).1
    refine ⟨tr ++ tr', ?_, ?_⟩
    · rw [Machine.runFrom_append, hrun]
      exact hrun'
    · rw [machine.logFrom_append returned tr' hrun, hlog, hlog']
      rfl

end Ems.Jobs.Calls
