import Ems.Server.Linked

/-!
# Every run over the memory is a run over the sequence

Each step of the machine over the memory is a step of the machine over the sequence, or
no step at all while a node is being linked (`step_refines`), so that what was proved of
the one holds of the other.
-/

namespace Ems.Server.Nodes

open Conc Base

/-! ## The steps -/

/-- The step of the sequence an action stands for, if it stands for one: of
`append_to_list` that is the last statement. -/
def shadow (s : State) : Act → List Act
  | .step t c =>
    match s.pc t, s.vars t with
    | .createAppend _ _ _, .allocated _ => []
    | .createAppend _ _ _, .linked _ => []
    | .createAppend _ _ _, .appended => [.step t ⟨Alloc.allOk, c.chunk⟩]
    | .createAppend id rows cols, _ =>
      if (allocEvent c.alloc id rows cols).isSome then [] else [.step t c]
    | _, _ => [.step t c]
  | a => [a]

/-- The event an action completes the append of. -/
def created (s : State) : Act → List (UInt32 × UInt64 × UInt64)
  | .step t _ =>
    match s.pc t, s.vars t with
    | .createAppend id rows cols, .appended => [(id, rows, cols)]
    | _, _ => []
  | _ => []

/-- The successful creations of a run, in order. -/
def creations (tr : List Act) : List (UInt32 × UInt64 × UInt64) := machine.log created tr

/-- A step and its shadow. -/
def Simulates (s : State) (v : Server.State) (a : Act) (s' : State) : Prop :=
  ∃ v', Server.machine.runFrom v (shadow s a) = some v' ∧
    Server.machine.logFrom Server.created v (shadow s a) = created s a ∧ Refines s' v'

section Steps

variable {s s' : State} {v v' : Server.State} {a b : Act} {t : Tid} {c : Choice}

/-- A step that the sequence does not see. -/
theorem Simulates.stutter (hsh : shadow s a = []) (hc : created s a = []) (hr : Refines s' v) :
    Simulates s v a s' := by
  refine ⟨v, ?_, ?_, hr⟩
  · rw [hsh]; rfl
  · rw [hsh, hc]; rfl

/-- A step that is one of the sequence. -/
theorem Simulates.one {w : Server.State} (hsh : shadow s a = [b]) (hb : Server.step v b = some w)
    (hc : Server.created v b = created s a) (hr : Refines s' w) : Simulates s v a s' := by
  have hb' : Server.machine.step v b = some w := hb
  refine ⟨w, ?_, ?_, hr⟩
  · rw [hsh, Machine.runFrom_cons, hb']; rfl
  · rw [hsh, Machine.logFrom, hb']
    exact (List.append_nil _).trans hc

/-- Outside of `append_to_list` an action is its own shadow and completes nothing. -/
theorem shadow_step (h : appending (s.pc t) = false) : shadow s (.step t c) = [.step t c] := by
  simp only [shadow]
  generalize s.pc t = p at h ⊢
  cases p <;> first | rfl | cases h

/-- Outside `append_to_list` nothing is created. -/
theorem created_step (h : appending (s.pc t) = false) : created s (.step t c) = [] := by
  simp only [created]
  generalize s.pc t = p at h ⊢
  cases p <;> first | rfl | cases h

/-- Nor in the sequence. -/
theorem server_created_step (h : appending (v.pc t) = false) :
    Server.created v (.step t c) = [] := by
  simp only [Server.created]
  generalize v.pc t = p at h ⊢
  cases p <;> first | rfl | cases h

/-- A step outside of `append_to_list` that the sequence takes as well. -/
theorem Simulates.step {w : Server.State} (hr : Refines s v) (hout : appending (s.pc t) = false)
    (hb : Server.step v (.step t c) = some w) (hr' : Refines s' w) :
    Simulates s v (.step t c) s' := by
  refine .one (shadow_step hout) hb ?_ hr'
  rw [created_step hout, server_created_step (by rw [hr.pc]; exact hout)]

/-! ### The places of `ems_create` -/

/-- `ems_create` of the sequence asks for the same allocations. -/
theorem createEvent_eq (alloc : Alloc) (list : Server.EventList) (id : UInt32)
    (rows cols : UInt64) : createEvent alloc list id rows cols =
      match allocEvent alloc id rows cols with
      | none => (list, 1)
      | some event => (Server.appendToList list event, 0) := by
  unfold createEvent allocEvent
  cases alloc.event
  case false => rfl
  case true =>
    cases alloc.mutexInit
    case false => rfl
    case true =>
      cases calloc alloc.data (rows * cols)
      case none => rfl
      case some data => cases alloc.node <;> rfl

/-- A failed allocation leaves the sequence. -/
theorem allocEvent_eq_none {alloc : Alloc} {id : UInt32} {rows cols : UInt64}
    (h : allocEvent alloc id rows cols = none) (list : Server.EventList) :
    createEvent alloc list id rows cols = (list, 1) := by
  rw [createEvent_eq, h]

/-- The new event, with a block for its seats. -/
theorem allocEvent_eq_some {alloc : Alloc} {id : UInt32} {rows cols : UInt64} {event : Event}
    (h : allocEvent alloc id rows cols = some event) :
    event = newEvent id rows cols ∧ (newEvent id rows cols).Sized := by
  have hcreate := createEvent_eq alloc Server.createList id rows cols
  rw [h] at hcreate
  refine ⟨?_, createEvent_sized (congrArg Prod.snd hcreate)⟩
  rcases createEvent_cases alloc Server.createList id rows cols with hfail | hnew
  · rw [hfail] at hcreate
    cases congrArg Prod.snd hcreate
  · rw [hnew] at hcreate
    have hnodes := congrArg (fun r => r.1.nodes) hcreate
    exact (List.singleton_inj.mp hnodes).symm

/-- An event that fits is appended when every allocation is granted. -/
theorem createEvent_of_sized {id : UInt32} {rows cols : UInt64}
    (h : (newEvent id rows cols).Sized) (list : Server.EventList) :
    createEvent Alloc.allOk list id rows cols =
      (Server.appendToList list (newEvent id rows cols), 0) := by
  have hfits := h.fits
  rw [show (newEvent id rows cols).data.length = (rows * cols).toNat from
    List.length_replicate] at hfits
  rw [createEvent_allOk, if_pos hfits]

/-- `get_event` of `ems_create`. -/
theorem sim_createLookup {id : UInt32} {rows cols : UInt64} (hr : Refines s v) (hi : RwlInv v)
    (hp : s.pc t = .createLookup id rows cols) (h : advance s t c = some s') :
    Simulates s v (.step t c) s' := by
  have hvp : v.pc t = .createLookup id rows cols := by rw [hr.pc, hp]
  have hout : appending (s.pc t) = false := by rw [hp]; rfl
  have hal : ∀ u, u ≠ t → appending (s.pc u) = false ∧ walking (s.pc u) = false := by
    have := alone_of_writing hi (t := t) (by rw [hvp]; rfl)
    rwa [hr.pc] at this
  have hq : ∀ u, appending (s.pc u) = false := by
    intro u
    by_cases hu : u = t
    · rw [hu]; exact hout
    · exact (hal u hu).1
  simp only [advance, hp, hr.lookup hq, Option.map_some, Option.some.injEq] at h
  subst h
  by_cases hf : (Server.getEvent v.list id).isSome
  · rw [if_pos hf]
    refine .step hr hout (w := v.goto t (.createUnlock 1)) ?_ ?_
    · simp only [Server.step, Server.advance, hvp, hf, if_true]
    · exact hr.goto hout rfl rfl
  · rw [if_neg hf]
    refine .step hr hout (w := v.goto t (.createAppend id rows cols)) ?_ ?_
    · simp only [Server.step, Server.advance, hvp, hf, Bool.false_eq_true, if_false]
    · exact refines_alone hr hal hr.rwl hr.mutex rfl rfl rfl hr.eventNum hr.nodes
        (fun h => absurd h.symm Bool.false_ne_true)
        (fun _ _ _ _ => ⟨hr.quiet hq, Or.inl rfl⟩) rfl fun _ => rfl

/-- A session in `append_to_list` is alone at the list. -/
theorem alone_appending {id : UInt32} {rows cols : UInt64} (hr : Refines s v) (hi : RwlInv v)
    (hp : s.pc t = .createAppend id rows cols) :
    ∀ u, u ≠ t → appending (s.pc u) = false ∧ walking (s.pc u) = false := by
  have halone := alone_of_writing hi (t := t) (by rw [hr.pc, hp]; rfl)
  rwa [hr.pc] at halone

/-- `head` or the old tail's `next`: the sequence waits. -/
theorem sim_link {id : UInt32} {rows cols : UInt64} {new : Nat} (hr : Refines s v) (hi : RwlInv v)
    (hp : s.pc t = .createAppend id rows cols) (hw : s.vars t = .allocated new)
    (h : advance s t c = some s') : Simulates s v (.step t c) s' := by
  have hvp : v.pc t = .createAppend id rows cols := by rw [hr.pc, hp]
  obtain ⟨hlaid, hnew⟩ := hr.pending t id rows cols hp
  rw [hw] at hlaid hnew
  obtain ⟨list, hlink, hlaid', hnum, hevent⟩ := hlaid.link
  simp only [advance, hp, hw, hlink, Option.map_some, Option.some.injEq] at h
  subst h
  refine .stutter (by simp only [shadow, hp, hw]) (by simp only [created, hp, hw]) ?_
  refine refines_alone hr (alone_appending hr hi hp) hr.rwl hr.mutex rfl ?_ rfl ?_ ?_
    (fun h => absurd h.symm Bool.false_ne_true) ?_ rfl
    (fun h => absurd h.symm Bool.false_ne_true)
  · rw [← hvp, Function.update_eq_self]
  · exact hr.eventNum.trans hnum.symm
  · show _ = (List.range _).map list.event
    rw [hevent]
    exact hr.nodes
  · rintro _ _ _ ⟨⟩
    refine ⟨hlaid', Or.inr ?_⟩
    show list.event _ = _ ∧ _
    rw [hevent]
    exact hnew.resolve_left (by simp)

/-- `tail` is moved behind `head`'s chain: the sequence still waits. -/
theorem sim_setTail {id : UInt32} {rows cols : UInt64} {new : Nat} (hr : Refines s v)
    (hi : RwlInv v) (hp : s.pc t = .createAppend id rows cols) (hw : s.vars t = .linked new)
    (h : advance s t c = some s') : Simulates s v (.step t c) s' := by
  have hvp : v.pc t = .createAppend id rows cols := by rw [hr.pc, hp]
  obtain ⟨hlaid, hnew⟩ := hr.pending t id rows cols hp
  rw [hw] at hlaid hnew
  simp only [advance, hp, hw, Option.some.injEq] at h
  subst h
  refine .stutter (by simp only [shadow, hp, hw]) (by simp only [created, hp, hw]) ?_
  refine refines_alone hr (alone_appending hr hi hp) hr.rwl hr.mutex rfl ?_ rfl hr.eventNum
    hr.nodes (fun h => absurd h.symm Bool.false_ne_true) ?_ rfl
    (fun h => absurd h.symm Bool.false_ne_true)
  · rw [← hvp, Function.update_eq_self]
  · rintro _ _ _ ⟨⟩
    exact ⟨hlaid.setTail, Or.inr (hnew.resolve_left (by simp))⟩

/-- The counter: only now has the sequence its new event. -/
theorem sim_count {id : UInt32} {rows cols : UInt64} (hr : Refines s v) (hi : RwlInv v)
    (hp : s.pc t = .createAppend id rows cols) (hw : s.vars t = .appended)
    (h : advance s t c = some s') : Simulates s v (.step t c) s' := by
  have hvp : v.pc t = .createAppend id rows cols := by rw [hr.pc, hp]
  obtain ⟨hlaid, hnew⟩ := hr.pending t id rows cols hp
  rw [hw] at hlaid hnew
  obtain ⟨hevent, hsized⟩ := hnew.resolve_left (by simp)
  simp only [advance, hp, hw, Option.some.injEq] at h
  subst h
  have hcreate := createEvent_of_sized hsized v.list
  refine .one (b := .step t ⟨Alloc.allOk, c.chunk⟩) (by simp only [shadow, hp, hw])
    (w := Server.State.goto
      { v with list := Server.appendToList v.list (newEvent id rows cols) } t (.createUnlock 0))
    ?_ ?_ ?_
  · simp only [Server.step, Server.advance, hvp, hcreate]
  · simp only [Server.created, created, hvp, hp, hw, hcreate, if_true]
  · have hlen : (v.list.nodes ++ [newEvent id rows cols]).length = v.list.nodes.length + 1 := by
      rw [List.length_append]
      rfl
    refine refines_alone hr (alone_appending hr hi hp) hr.rwl hr.mutex rfl rfl rfl ?_ ?_
      (fun _ => ?_) (by simp) rfl fun _ => rfl
    · show v.list.eventNum + 1 = s.list.eventNum + 1
      rw [hr.eventNum]
    · show v.list.nodes ++ [newEvent id rows cols] =
        (List.range (v.list.nodes ++ [newEvent id rows cols]).length).map s.list.event
      rw [hlen, List.range_succ, List.map_append, ← hevent, List.map_singleton]
      exact congrArg (· ++ [s.list.event v.list.nodes.length]) hr.nodes
    · show Laid (count s.list) (v.list.nodes ++ [newEvent id rows cols]).length .nothing
      rw [hlen]
      exact hlaid.count

/-- The statements of `append_to_list`. The sequence moves with the last of them. -/
theorem sim_createAppend {id : UInt32} {rows cols : UInt64} (hr : Refines s v) (hi : RwlInv v)
    (hp : s.pc t = .createAppend id rows cols) (h : advance s t c = some s') :
    Simulates s v (.step t c) s' := by
  have hvp : v.pc t = .createAppend id rows cols := by rw [hr.pc, hp]
  have hal := alone_appending hr hi hp
  have hnext : ∀ n, (List.range n).map s.list.event =
      (List.range n).map (Function.update s.list.event n (newEvent id rows cols)) := by
    intro n
    refine List.map_congr_left fun a ha => ?_
    have hlt := List.mem_range.mp ha
    exact (Function.update_of_ne (by omega) ..).symm
  obtain ⟨hlaid, -⟩ := hr.pending t id rows cols hp
  cases hw : s.vars t
  case allocated new => exact sim_link hr hi hp hw h
  case linked new => exact sim_setTail hr hi hp hw h
  case appended => exact sim_count hr hi hp hw h
  -- not yet in `append_to_list`: the allocations
  all_goals
    have hquiet : Laid s.list v.list.nodes.length .nothing := by rw [hw] at hlaid; exact hlaid
    cases ha : allocEvent c.alloc id rows cols with
    | none =>
      simp only [advance, hp, hw, ha, Option.some.injEq] at h
      subst h
      have hcreate := allocEvent_eq_none ha v.list
      refine .one (b := .step t c) (by simp [shadow, hp, hw, ha])
        (w := v.goto t (.createUnlock 1)) ?_ ?_ ?_
      · simp only [Server.step, Server.advance, hvp, hcreate]
      · simp [Server.created, created, hvp, hp, hw, hcreate]
      · exact refines_alone hr hal hr.rwl hr.mutex rfl rfl rfl hr.eventNum hr.nodes
          (fun _ => hquiet) (by simp) rfl fun _ => rfl
    | some event =>
      obtain ⟨rfl, hsized⟩ := allocEvent_eq_some ha
      simp only [advance, hp, hw, ha, Option.some.injEq] at h
      subst h
      refine .stutter (by simp [shadow, hp, hw, ha]) (by simp only [created, hp, hw]) ?_
      refine refines_alone hr hal hr.rwl hr.mutex rfl ?_ rfl hr.eventNum ?_
        (fun h => absurd h.symm Bool.false_ne_true) ?_ rfl
        (fun h => absurd h.symm Bool.false_ne_true)
      · rw [← hvp, Function.update_eq_self]
      · show _ = (List.range _).map (Function.update s.list.event s.list.fresh _)
        rw [hquiet.1, ← hnext]
        exact hr.nodes
      · rintro _ _ _ ⟨⟩
        refine ⟨hquiet.newNode _, Or.inr ⟨?_, hsized⟩⟩
        show Function.update s.list.event s.list.fresh _ _ = _
        rw [hquiet.1, Function.update_self]

/-! ### The places that read -/

/-- `get_event` of `ems_reserve`. -/
theorem sim_reserveLookup {q : Request} (hr : Refines s v) (hi : RwlInv v)
    (hp : s.pc t = .reserveLookup q) (h : advance s t c = some s') :
    Simulates s v (.step t c) s' := by
  have hvp : v.pc t = .reserveLookup q := by rw [hr.pc, hp]
  have hq := quiet_of_reading hi (t := t) (by rw [hvp]; rfl)
  rw [hr.pc] at hq
  simp only [advance, hp, hr.lookup hq, Option.map_some, Option.some.injEq] at h
  subst h
  refine .step hr (hq t) (w := v.goto t (.reserveUnlist q (Server.getEvent v.list q.eventId)))
    ?_ ?_
  · simp only [Server.step, Server.advance, hvp]
  · exact hr.goto (hq t) rfl rfl

/-- `get_event` of `ems_show`. -/
theorem sim_showLookup {id : UInt32} (hr : Refines s v) (hi : RwlInv v)
    (hp : s.pc t = .showLookup id) (h : advance s t c = some s') :
    Simulates s v (.step t c) s' := by
  have hvp : v.pc t = .showLookup id := by rw [hr.pc, hp]
  have hq := quiet_of_reading hi (t := t) (by rw [hvp]; rfl)
  rw [hr.pc] at hq
  simp only [advance, hp, hr.lookup hq, Option.map_some, Option.some.injEq] at h
  subst h
  refine .step hr (hq t) (w := v.goto t (.showUnlist (Server.getEvent v.list id))) ?_ ?_
  · simp only [Server.step, Server.advance, hvp]
  · exact hr.goto (hq t) rfl rfl

/-- A `write()` of seats. -/
theorem sim_showData {e : Nat} {sent : List UInt8} (hr : Refines s v) (ht : TargetInv v)
    (hp : s.pc t = .showData e sent) (h : advance s t c = some s') :
    Simulates s v (.step t c) s' := by
  have hvp : v.pc t = .showData e sent := by rw [hr.pc, hp]
  have hout : appending (s.pc t) = false := by rw [hp]; rfl
  have he := hr.getElem? (ht t e (by rw [hvp]; rfl))
  simp only [advance, hp] at h
  split at h
  next hn =>
    split at h
    next hc =>
      cases h
      refine .step hr hout (w := v.goto t _) ?_ (hr.goto hout rfl rfl)
      simp only [Server.step, Server.advance, hvp, he, if_pos hn, if_pos hc]
    next => cases h
  next hn =>
    cases h
    refine .step hr hout (w := v.goto t _) ?_ (hr.goto hout rfl rfl)
    simp only [Server.step, Server.advance, hvp, he, if_neg hn]

/-! ### The places that write into an event -/

/-- The sequence of the events, with one of them changed. -/
theorem map_range_set (f : Nat → Event) {n e : Nat} (event : Event) :
    ((List.range n).map f).set e event = (List.range n).map (Function.update f e event) := by
  refine List.ext_getElem (by simp) fun i h1 h2 => ?_
  rw [List.getElem_set, List.getElem_map, List.getElem_map, List.getElem_range]
  by_cases hi : e = i
  · rw [if_pos hi, hi, Function.update_self]
  · rw [if_neg hi, Function.update_of_ne (Ne.symm hi)]

/-- A session changes the event it points to, in the memory and in the sequence. -/
theorem refines_setEvent {p : Pc} {e : Nat} (event : Event) (hr : Refines s v)
    (he : e < v.list.nodes.length) (hout : appending (s.pc t) = false)
    (happ : appending p = false) (hwalk : walking p = false) :
    Refines ((s.setEvent e event).goto t p) ((v.setEvent e event).goto t p) := by
  refine refines_goto hr hr.rwl hr.mutex rfl rfl rfl rfl rfl ?_ ?_ hout happ
    (fun num last ids heq => absurd heq (ne_listIds hwalk num last ids)) fun _ => rfl
  · show v.list.nodes.set e event = _
    rw [← map_range_set, ← hr.nodes]
  · exact Function.update_of_ne (by omega) ..

/-- The tests of `ems_reserve`. -/
theorem sim_reserveCheck {q : Request} {e : Nat} (hr : Refines s v) (ht : TargetInv v)
    (hp : s.pc t = .reserveCheck q e) (h : advance s t c = some s') :
    Simulates s v (.step t c) s' := by
  have hvp : v.pc t = .reserveCheck q e := by rw [hr.pc, hp]
  have hout : appending (s.pc t) = false := by rw [hp]; rfl
  have hlt := ht t e (by rw [hvp]; rfl)
  have he := hr.getElem? hlt
  simp only [advance, hp] at h
  split at h
  next hq =>
    cases h
    refine .step hr hout (w := (v.setEvent e _).goto t _) ?_
      (refines_setEvent _ hr hlt hout rfl rfl)
    simp only [Server.step, Server.advance, hvp, he, if_pos hq]
  next hq =>
    cases h
    refine .step hr hout (w := v.goto t (.reserveRelease q e 1)) ?_
      (hr.goto hout rfl rfl)
    simp only [Server.step, Server.advance, hvp, he, if_neg hq]

/-- A store of `ems_reserve`, inside the block. -/
theorem sim_reserveStore {q : Request} {e : Nat} {r : UInt32} {i : Nat} (hr : Refines s v)
    (ht : TargetInv v) (hp : s.pc t = .reserveStore q e r i) (h : advance s t c = some s') :
    Simulates s v (.step t c) s' := by
  have hvp : v.pc t = .reserveStore q e r i := by rw [hr.pc, hp]
  have hout : appending (s.pc t) = false := by rw [hp]; rfl
  have hlt := ht t e (by rw [hvp]; rfl)
  have he := hr.getElem? hlt
  simp only [advance, hp] at h
  split at h
  next hn =>
    split at h
    next hin =>
      cases h
      refine .step hr hout (w := (v.setEvent e _).goto t _) ?_
        (refines_setEvent _ hr hlt hout rfl rfl)
      simp only [Server.step, Server.advance, hvp, he, if_pos hn, if_pos hin]
    next => cases h
  next hn =>
    cases h
    refine .step hr hout (w := v.goto t (.reserveRelease q e 0)) ?_
      (hr.goto hout rfl rfl)
    simp only [Server.step, Server.advance, hvp, he, if_neg hn]

/-! ### The loop of `ems_list_events` -/

/-- The counter of `ems_list_events`. -/
theorem sim_listCount (hr : Refines s v) (hi : RwlInv v)
    (hcounted : v.list.eventNum = UInt64.ofNat v.list.nodes.length) (hp : s.pc t = .listCount)
    (h : advance s t c = some s') : Simulates s v (.step t c) s' := by
  have hvp : v.pc t = .listCount := by rw [hr.pc, hp]
  have hq := quiet_of_reading hi (t := t) (by rw [hvp]; rfl)
  rw [hr.pc] at hq
  simp only [advance, hp] at h
  split at h
  next hn =>
    cases h
    refine .step hr (hq t) (w := v.goto t (.listUnlock 0 [])) ?_
      (hr.goto (hq t) rfl rfl)
    simp only [Server.step, Server.advance, hvp, hr.eventNum, if_pos hn]
  next hn =>
    obtain ⟨k, hk⟩ : ∃ k, v.list.nodes.length = k + 1 := by
      refine Nat.exists_eq_succ_of_ne_zero fun hzero => hn ?_
      rw [← hr.eventNum, hcounted, hzero]
      rfl
    have hlinked := (hr.quiet hq).2
    rw [hk] at hlinked
    rw [hlinked.ends.1, hlinked.ends.2] at h
    cases h
    refine .step hr (hq t) (w := v.goto t (.listIds s.list.eventNum k [])) ?_ ?_
    · simp only [Server.step, Server.advance, hvp, hr.eventNum, if_neg hn, hk, Nat.add_sub_cancel]
    · refine refines_goto hr hr.rwl hr.mutex rfl rfl rfl rfl rfl hr.nodes rfl (hq t) rfl ?_
        (fun h => absurd h.symm Bool.false_ne_true)
      rintro _ _ _ ⟨⟩
      exact ⟨rfl, Nat.zero_le _, hk.symm⟩

/-- An id of `ems_list_events`. -/
theorem sim_listIds {num : UInt64} {last : Nat} {ids : List UInt32} (hr : Refines s v)
    (hi : RwlInv v) (hp : s.pc t = .listIds num last ids) (h : advance s t c = some s') :
    Simulates s v (.step t c) s' := by
  have hvp : v.pc t = .listIds num last ids := by rw [hr.pc, hp]
  have hq := quiet_of_reading hi (t := t) (by rw [hvp]; rfl)
  rw [hr.pc] at hq
  obtain ⟨hw, hle, hlast⟩ := hr.listing t num last ids hp
  have he := hr.getElem? (show ids.length < v.list.nodes.length by omega)
  simp only [advance, hp, hw] at h
  split at h
  next hto =>
    cases h
    refine .step hr (hq t) (w := v.goto t (.listUnlock num _)) ?_
      (hr.goto (hq t) rfl rfl)
    simp only [Server.step, Server.advance, hvp, he, if_pos hto]
  next hto =>
    have hnext := (hr.quiet hq).2.next_eq (a := ids.length) (by omega)
    rw [if_pos (by omega)] at hnext
    rw [hnext] at h
    cases h
    refine .step hr (hq t)
      (w := v.goto t (.listIds num last (ids ++ [(s.list.event ids.length).id]))) ?_ ?_
    · simp only [Server.step, Server.advance, hvp, he, if_neg hto]
    · refine refines_goto hr hr.rwl hr.mutex rfl rfl rfl rfl rfl hr.nodes rfl (hq t) rfl ?_
        (fun h => absurd h.symm Bool.false_ne_true)
      rintro _ _ _ ⟨⟩
      rw [List.length_append]
      exact ⟨rfl, by simp; omega, hlast⟩

/-! ### The other places -/

/-- The place touches the list, or an event. -/
def onList : Pc → Bool
  | .createLookup _ _ _ => true
  | .createAppend _ _ _ => true
  | .reserveLookup _ => true
  | .reserveCheck _ _ => true
  | .reserveStore _ _ _ _ => true
  | .showLookup _ => true
  | .showData _ _ => true
  | .listCount => true
  | .listIds _ _ _ => true
  | _ => false

/-- The action does not touch the list. -/
def Local (v : Server.State) : Act → Prop
  | .step t _ => onList (v.pc t) = false
  | _ => True

/-- What such an action does to the sequence: nothing. -/
theorem local_cases (hl : Local v a) (h : Server.step v a = some v') :
    v'.list = v.list ∧ ∃ t p, v'.pc = Function.update v.pc t p ∧ onList (v.pc t) = false ∧
      appending p = false ∧ walking p = false := by
  have hs := Server.step_cases h
  clear h
  cases hs
  case call t op hp =>
    exact ⟨rfl, t, _, rfl, by rw [hp]; rfl, by cases op <;> rfl, by cases op <;> rfl⟩
  case ret t r hp => exact ⟨rfl, t, _, rfl, by rw [hp]; rfl, rfl, rfl⟩
  all_goals
    first
    | exact ⟨rfl, _, _, rfl, hl, rfl, rfl⟩
    | simp [Local, onList, *] at hl

/-- Nor does it depend on the sequence. -/
theorem local_step (list : Server.EventList) (hl : Local v a) :
    Server.step v a =
      (Server.step { v with list := list } a).map fun w => { w with list := v.list } := by
  cases a with
  | call t op =>
    simp only [Server.step]
    cases v.pc t <;> rfl
  | ret t =>
    simp only [Server.step]
    cases v.pc t <;> rfl
  | step t c =>
    simp only [Server.step, Server.advance, Local] at hl ⊢
    cases hp : v.pc t <;> rw [hp] at hl
    case createLock => cases v.rwl.wrlock t <;> rfl
    case reserveLock => cases v.rwl.rdlock t <;> rfl
    case showLock => cases v.rwl.rdlock t <;> rfl
    case listLock => cases v.rwl.rdlock t <;> rfl
    case reserveMutex q e =>
      dsimp only
      split <;> rfl
    case showHeader event => cases event <;> rfl
    all_goals first | rfl | cases hl

/-- An action that does not touch the list is the same in both machines. -/
theorem sim_local (hr : Refines s v) (hl : Local v a) (hsh : shadow s a = [a])
    (hc : created s a = []) (hvc : Server.created v a = []) (h : lockStep s a = some s') :
    Simulates s v a s' := by
  obtain ⟨w, hw, rfl⟩ := Option.map_eq_some_iff.mp h
  have hlocks : s.locks = { v with list := Server.createList } := by
    unfold State.locks
    rw [← hr.rwl, ← hr.mutex, ← hr.pc]
  rw [hlocks] at hw
  have hstep := local_step Server.createList hl
  rw [hw] at hstep
  obtain ⟨hlist, t, p, hpc, hon, happ, hwalk⟩ := local_cases hl hstep
  have hout : appending (s.pc t) = false ∧ walking (s.pc t) = false := by
    rw [← hr.pc]
    generalize v.pc t = q at hon
    cases q <;> first | exact ⟨rfl, rfl⟩ | cases hon
  refine .one hsh hstep (hvc.trans hc.symm) ?_
  refine refines_goto (f := s.list.event) hr rfl rfl ?_ hpc ?_ rfl rfl hr.nodes rfl hout.1 happ
    (fun num last ids heq => absurd heq (ne_listIds hwalk num last ids))
    fun _ => hr.idle t hout.1 hout.2
  · rw [← hr.pc]; exact hpc
  · exact (Function.update_eq_self ..).symm

/-- **One step**: the sequence can follow. -/
theorem step_refines {log : List (UInt32 × UInt64 × UInt64)} (hr : Refines s v) (hi : RwlInv v)
    (hcr : CreatedInv log v) (ht : TargetInv v) (h : step s a = some s') :
    Simulates s v a s' := by
  cases a with
  | call t op => exact sim_local hr trivial rfl rfl rfl h
  | ret t => exact sim_local hr trivial rfl rfl rfl h
  | step t c =>
    change advance s t c = some s' at h
    cases hp : s.pc t
    case createLookup id rows cols => exact sim_createLookup hr hi hp h
    case createAppend id rows cols => exact sim_createAppend hr hi hp h
    case reserveLookup q => exact sim_reserveLookup hr hi hp h
    case reserveCheck q e => exact sim_reserveCheck hr ht hp h
    case reserveStore q e r i => exact sim_reserveStore hr ht hp h
    case showLookup id => exact sim_showLookup hr hi hp h
    case showData e sent => exact sim_showData hr ht hp h
    case listCount => exact sim_listCount hr hi hcr.counted hp h
    case listIds num last ids => exact sim_listIds hr hi hp h
    all_goals
      have hout : appending (s.pc t) = false := by rw [hp]; rfl
      refine sim_local hr ?_ (shadow_step hout) (created_step hout)
        (server_created_step (by rw [hr.pc]; exact hout)) ?_
      · show onList (v.pc t) = false
        rw [hr.pc, hp]
        rfl
      · simpa only [advance, hp] using h

end Steps

/-- **Every run**: what the sessions do over the memory they do over the sequence, with
the same creations. -/
theorem run_refines {tr : List Act} {s : State} (h : machine.run tr = some s) :
    ∃ v, Server.machine.run (machine.log shadow tr) = some v ∧
      Server.creations (machine.log shadow tr) = creations tr ∧ Refines s v := by
  refine machine.run_invariant (I := fun tr s => ∃ v,
    Server.machine.run (machine.log shadow tr) = some v ∧
      Server.creations (machine.log shadow tr) = creations tr ∧ Refines s v)
    ⟨_, rfl, rfl, refines_init⟩ ?_ tr s h
  rintro tr s a s' hs ⟨v, hv, hlog, hr⟩ hstep
  obtain ⟨v', hrun, hcreated, hr'⟩ :=
    step_refines hr (run_rwlInv hv) (run_createdInv hv) (run_targetInv hv) hstep
  refine ⟨v', ?_, ?_, hr'⟩
  · rw [machine.log_snoc shadow hs hstep, Server.machine.run_append hv, hrun]
  · unfold Server.creations creations at hlog ⊢
    rw [machine.log_snoc shadow hs hstep, machine.log_snoc created hs hstep,
      Server.machine.log_append Server.created _ hv, hlog, hcreated]

end Ems.Server.Nodes
