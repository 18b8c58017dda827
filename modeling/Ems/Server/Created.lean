import Ems.Server.Reached
import Ems.Server.Locks

/-!
# The list is the record of the creations

In every state of every run the list holds the events that were created, in the
order in which they were appended, with the dimensions they were created with;
the counter counts them and no id is there twice. The write lock is held from the
lookup of `ems_create` to its append, so what the lookup did not find is still
not there (`CreatedInv.gap`). `RESERVE` changes no id and no dimension.
-/

namespace Ems.Server

open Conc

/-- The event a step appends: its id and its dimensions. -/
def created (s : State) : Act → List (UInt32 × UInt64 × UInt64)
  | .step t c =>
    match s.pc t with
    | .createAppend id rows cols =>
      if (createEvent c.alloc s.list id rows cols).2 = 0 then [(id, rows, cols)] else []
    | _ => []
  | _ => []

/-- The successful creations of a run, in order. -/
def creations (tr : List Act) : List (UInt32 × UInt64 × UInt64) := machine.log created tr

/-- What of an event never changes. -/
def Event.shape (event : Event) : UInt32 × UInt64 × UInt64 := (event.id, event.rows, event.cols)

/-- The list is the record of the creations `log`, and nobody is about to append
an id that is in it. -/
structure CreatedInv (log : List (UInt32 × UInt64 × UInt64)) (s : State) : Prop where
  order : s.list.nodes.map Event.shape = log
  counted : s.list.eventNum = UInt64.ofNat s.list.nodes.length
  nodup : (s.list.nodes.map (·.id)).Nodup
  gap : ∀ t id rows cols, s.pc t = .createAppend id rows cols → getEvent s.list id = none

theorem ids_eq (list : EventList) :
    list.nodes.map (·.id) = (list.nodes.map Event.shape).map (·.1) := by
  rw [List.map_map]
  rfl

theorem getEvent_of_shape {list list' : EventList}
    (h : list'.nodes.map Event.shape = list.nodes.map Event.shape) (id : UInt32) :
    getEvent list' id = getEvent list id := by
  rw [getEvent_eq, getEvent_eq, ids_eq, ids_eq, h]

theorem shape_setEvent {s : State} {e : Nat} {event event' : Event}
    (he : s.list.nodes[e]? = some event) (hshape : event'.shape = event.shape) :
    (s.setEvent e event').list.nodes.map Event.shape = s.list.nodes.map Event.shape := by
  show (s.list.nodes.set e event').map Event.shape = s.list.nodes.map Event.shape
  rw [List.map_set, hshape]
  refine set_same ?_
  rw [List.getElem?_map, he]
  rfl

/-- A step of `t` that appends nothing. -/
theorem createdInv_goto {log : List (UInt32 × UInt64 × UInt64)} {s s' : State} {t : Tid} {pc : Pc}
    (hi : CreatedInv log s) (hl : s'.list.nodes.map Event.shape = s.list.nodes.map Event.shape)
    (hn : s'.list.eventNum = s.list.eventNum) (hp : s'.pc = Function.update s.pc t pc)
    (hpc : ∀ id rows cols, pc = .createAppend id rows cols → getEvent s.list id = none) :
    CreatedInv log s' where
  order := hl.trans hi.order
  counted := by
    have hlen := congrArg List.length hl
    rw [List.length_map, List.length_map] at hlen
    rw [hn, hlen]
    exact hi.counted
  nodup := by
    rw [ids_eq, hl, ← ids_eq]
    exact hi.nodup
  gap := by
    intro u id rows cols hu
    rw [getEvent_of_shape hl, hp] at *
    by_cases hut : u = t
    · subst hut
      rw [Function.update_self] at hu
      exact hpc id rows cols hu
    · rw [Function.update_of_ne hut] at hu
      exact hi.gap u id rows cols hu

/-- The append itself. Nobody else is between its lookup and its append. -/
theorem createdInv_append {log : List (UInt32 × UInt64 × UInt64)} {s : State} {t : Tid}
    {id : UInt32} {rows cols : UInt64} (hi : CreatedInv log s) (hr : RwlInv s)
    (h : s.pc t = .createAppend id rows cols) :
    CreatedInv (log ++ [(id, rows, cols)]) (State.goto
      { s with list := appendToList s.list (newEvent id rows cols) } t (.createUnlock 0)) where
  order := by
    show (s.list.nodes ++ [newEvent id rows cols]).map Event.shape = _
    rw [List.map_append, hi.order]
    rfl
  counted := by
    show s.list.eventNum + 1 = UInt64.ofNat (s.list.nodes ++ [newEvent id rows cols]).length
    rw [hi.counted, List.length_append, UInt64.ofNat_add]
    rfl
  nodup := by
    show ((s.list.nodes ++ [newEvent id rows cols]).map (·.id)).Nodup
    rw [List.map_append, List.nodup_append]
    refine ⟨hi.nodup, List.nodup_singleton _, ?_⟩
    intro a ha b hb hab
    obtain ⟨event, hevent, rfl⟩ := List.mem_map.mp ha
    have hne := List.findIdx?_eq_none_iff.mp (hi.gap t id rows cols h) event hevent
    rw [hab, List.mem_singleton.mp hb] at hne
    simp [newEvent] at hne
  gap := by
    intro u id' rows' cols' hu
    by_cases hut : u = t
    · subst hut
      rw [goto_self] at hu
      cases hu
    · rw [goto_other hut] at hu
      -- whoever else were there would have the write lock too
      have halone := (hr.alone (t := t) (by rw [h]; rfl) hut).2
      change (s.pc u).writing = false at halone
      rw [hu] at halone
      cases halone

theorem step_createdInv {log : List (UInt32 × UInt64 × UInt64)} {s s' : State} {a : Act}
    (hs : Step s a s') (hr : RwlInv s) (hi : CreatedInv log s) :
    CreatedInv (log ++ created s a) s' := by
  cases hs
  case call t op h =>
    rw [show created s (.call t op) = [] from rfl, List.append_nil]
    exact createdInv_goto hi rfl rfl rfl fun id rows cols hpc => by cases op <;> cases hpc
  case createAbsent t c id rows cols h he =>
    rw [show created s (.step t c) = [] by simp only [created, h], List.append_nil]
    exact createdInv_goto hi rfl rfl rfl fun _ _ _ hpc => by cases hpc; exact he
  case createAppend t c id rows cols h =>
    simp only [created, h]
    rcases createEvent_cases c.alloc s.list id rows cols with hc | hc
    · rw [hc, if_neg (show ¬ (1 : UInt32) = 0 by decide), List.append_nil]
      exact createdInv_goto hi rfl rfl rfl nofun
    · rw [hc, if_pos rfl]
      exact createdInv_append hi hr h
  case reserveAdmit t c q e event h he hq =>
    rw [show created s (.step t c) = [] by simp only [created, h], List.append_nil]
    exact createdInv_goto hi (shape_setEvent he rfl) rfl rfl nofun
  case reserveStore t c q e r i event h he hlt hin =>
    rw [show created s (.step t c) = [] by simp only [created, h], List.append_nil]
    exact createdInv_goto hi (shape_setEvent he rfl) rfl rfl nofun
  all_goals
    simp only [created, List.append_nil, *]
    exact createdInv_goto hi rfl rfl rfl nofun

theorem run_createdInv {tr : List Act} {s : State} (h : machine.run tr = some s) :
    CreatedInv (creations tr) s := by
  refine machine.run_invariant (I := fun tr s => CreatedInv (creations tr) s)
    ⟨rfl, rfl, List.nodup_nil, nofun⟩ ?_ tr s h
  intro tr s a s' hr hi hstep
  unfold creations
  rw [machine.log_snoc created hr hstep]
  exact step_createdInv (step_cases hstep) (run_rwlInv hr) hi

/-- No two events have one id, so the counter has not wrapped. -/
theorem CreatedInv.eventNum_toNat {log : List (UInt32 × UInt64 × UInt64)} {s : State}
    (h : CreatedInv log s) : s.list.eventNum.toNat = s.list.nodes.length :=
  counted_toNat h.counted h.nodup

/-! ## The events sessions point to -/

/-- The event a session has a pointer to. -/
def Pc.target : Pc → Option Nat
  | .reserveUnlist _ event => event
  | .reserveMutex _ e => some e
  | .reserveCheck _ e => some e
  | .reserveStore _ e _ _ => some e
  | .reserveRelease _ e _ => some e
  | .showUnlist event => event
  | .showHeader event => event
  | .showData e _ => some e
  | _ => none

/-- Every pointer to an event points to one of the list. -/
def TargetInv (s : State) : Prop := ∀ t e, (s.pc t).target = some e → e < s.list.nodes.length

/-- A step of `t` to a place that points to the same event, to none, or to one just
found in the list. -/
theorem targetInv_goto {s s' : State} {t : Tid} {pc : Pc} (hi : TargetInv s)
    (hl : s.list.nodes.length ≤ s'.list.nodes.length) (hp : s'.pc = Function.update s.pc t pc)
    (hpc : pc.target = none ∨ pc.target = (s.pc t).target ∨
      ∃ id, pc.target = getEvent s.list id) : TargetInv s' := by
  intro u e hu
  refine Nat.lt_of_lt_of_le ?_ hl
  rw [hp] at hu
  by_cases hut : u = t
  · subst hut
    rw [Function.update_self] at hu
    rcases hpc with hnone | hold | ⟨id, hfound⟩
    · rw [hnone] at hu
      cases hu
    · exact hi u e (hold.symm.trans hu)
    · exact getEvent_lt (hfound.symm.trans hu)
  · rw [Function.update_of_ne hut] at hu
    exact hi u e hu

theorem step_targetInv {s s' : State} {a : Act} (hs : Step s a s') (hi : TargetInv s) :
    TargetInv s' := by
  cases hs
  case call t op h =>
    exact targetInv_goto hi (Nat.le_refl _) rfl (Or.inl (by cases op <;> rfl))
  case createAppend t c id rows cols h =>
    refine targetInv_goto hi ?_ rfl (Or.inl rfl)
    show _ ≤ (createEvent c.alloc s.list id rows cols).1.nodes.length
    rcases createEvent_cases c.alloc s.list id rows cols with hc | hc <;> rw [hc]
    show _ ≤ (s.list.nodes ++ [_]).length
    rw [List.length_append]
    exact Nat.le_add_right _ _
  case reserveLookup t c q h =>
    exact targetInv_goto hi (Nat.le_refl _) rfl (Or.inr (Or.inr ⟨_, rfl⟩))
  case showLookup t c id h =>
    exact targetInv_goto hi (Nat.le_refl _) rfl (Or.inr (Or.inr ⟨_, rfl⟩))
  case reserveAdmit t c q e event h he hq =>
    exact targetInv_goto hi (Nat.le_of_eq (List.length_set ..).symm) rfl
      (Or.inr (Or.inl (by rw [h]; rfl)))
  case reserveStore t c q e r i event h he hlt hin =>
    exact targetInv_goto hi (Nat.le_of_eq (List.length_set ..).symm) rfl
      (Or.inr (Or.inl (by rw [h]; rfl)))
  all_goals exact targetInv_goto hi (Nat.le_refl _) rfl (by simp [*, Pc.target])

theorem run_targetInv {tr : List Act} {s : State} (h : machine.run tr = some s) : TargetInv s :=
  machine.run_invariant (I := fun _ s => TargetInv s) nofun
    (fun _ _ _ _ _ hi hstep => step_targetInv (step_cases hstep) hi) tr s h

end Ems.Server
