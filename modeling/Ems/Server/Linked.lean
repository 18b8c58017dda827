import Mathlib.Data.List.Range
import Ems.Server.Created
import Ems.Server.Nodes

/-!
# The list in memory is the sequence

`Linked list n` is what `append_to_list` keeps: from `head` the `n` nodes in the order
in which they were allocated, `tail` at the last of them. `Laid` says the same for every
point inside `append_to_list`. `Refines` relates the states of the two machines; which
moves keep it depends on who else is in the list (`refines_goto`, `refines_alone`).
-/

namespace Ems.Server.Nodes

open Conc Base

/-! ## One list -/

/-- The list is the first `n` nodes. -/
def Linked (list : EventList) (n : Nat) : Prop :=
  Chain list.next list.head (List.range n) ∧ list.tail = (List.range n).getLast?

/-- The list is the first `n` nodes, but for what `append_to_list` has done by now. -/
def Laid (list : EventList) (n : Nat) : Vars → Prop
  | .allocated new => new = n ∧ list.fresh = n + 1 ∧ list.next n = none ∧ Linked list n
  | .linked new => new = n ∧ list.fresh = n + 1 ∧
      Chain list.next list.head (List.range (n + 1)) ∧ list.tail = (List.range n).getLast?
  | .appended => list.fresh = n + 1 ∧ Linked list (n + 1)
  | _ => list.fresh = n ∧ Linked list n

/-- An empty list. -/
theorem laid_createList : Laid createList 0 .nothing := ⟨rfl, rfl, rfl⟩

/-- The last of the nodes. -/
theorem getLast?_range_succ (n : Nat) : (List.range (n + 1)).getLast? = some n := by
  rw [List.range_succ, List.getLast?_concat]

/-- A node nothing points to. -/
theorem Laid.newNode {list : EventList} {n : Nat} (h : Laid list n .nothing) (event : Event) :
    Laid (newNode list event) n (.allocated list.fresh) := by
  obtain ⟨hfresh, hchain, htail⟩ := h
  refine ⟨hfresh, congrArg (· + 1) hfresh, ?_, ?_, htail⟩
  · show Function.update list.next list.fresh none n = none
    rw [hfresh, Function.update_self]
  · refine hchain.congr fun a ha => ?_
    have hlt := List.mem_range.mp ha
    exact Function.update_of_ne (by omega) ..

/-- In a list with a head there is a tail to link the new node to. -/
theorem Laid.link {list : EventList} {n new : Nat} (h : Laid list n (.allocated new)) :
    ∃ list', link list new = some list' ∧ Laid list' n (.linked new) ∧
      list'.eventNum = list.eventNum ∧ list'.event = list.event := by
  obtain ⟨rfl, hfresh, hend, hchain, htail⟩ := h
  -- an empty list gets a head, any other a new end
  cases new with
  | zero =>
    have hhead : list.head = none := hchain
    unfold Nodes.link
    rw [hhead]
    exact ⟨_, rfl, ⟨rfl, hfresh, ⟨rfl, hend⟩, htail⟩, rfl, rfl⟩
  | succ k =>
    have hhead : ∃ a, list.head = some a := by
      rw [← Option.ne_none_iff_exists', ne_eq, hchain.eq_none_iff]
      simp
    obtain ⟨a, ha⟩ := hhead
    have hlast := htail
    rw [getLast?_range_succ] at hlast
    refine ⟨{ list with next := Function.update list.next k (some (k + 1)) }, ?_,
      ⟨rfl, hfresh, ?_, htail⟩, rfl, rfl⟩
    · unfold Nodes.link
      rw [ha, hlast]
      rfl
    rw [List.range_succ] at hchain
    rw [List.range_succ, List.range_succ]
    refine hchain.append_new ?_ (Function.update_self ..) fun b hb => ?_
    · exact (Function.update_of_ne (by omega) ..).trans hend
    · have hlt := List.mem_range.mp hb
      exact Function.update_of_ne (by omega) ..

/-- `tail` points to the new node. -/
theorem Laid.setTail {list : EventList} {n new : Nat} (h : Laid list n (.linked new)) :
    Laid (setTail list new) n .appended := by
  obtain ⟨rfl, hfresh, hchain, -⟩ := h
  exact ⟨hfresh, hchain, (getLast?_range_succ new).symm⟩

/-- The new node is counted. -/
theorem Laid.count {list : EventList} {n : Nat} (h : Laid list n .appended) :
    Laid (count list) (n + 1) .nothing := ⟨h.1, h.2.1, h.2.2⟩

/-- The links are all that matters. -/
theorem Laid.congr {list list' : EventList} {n : Nat} {w : Vars} (h : Laid list n w)
    (hhead : list'.head = list.head) (htail : list'.tail = list.tail)
    (hnext : list'.next = list.next) (hfresh : list'.fresh = list.fresh) : Laid list' n w := by
  cases w <;> simpa only [Laid, Linked, hhead, htail, hnext, hfresh] using h

/-- The nodes are numbered as the events are. -/
theorem find?_range (f : Nat → Event) (p : Event → Bool) (n : Nat) :
    (List.range n).find? (fun node => p (f node)) = ((List.range n).map f).findIdx? p := by
  induction n with
  | zero => rfl
  | succ n ih =>
    rw [List.range_succ, List.find?_append, ih, List.map_append, List.findIdx?_append,
      List.length_map, List.length_range]
    congr 1
    rw [List.map_singleton, List.find?_singleton, List.findIdx?_singleton]
    split
    next => rw [Option.map_some, Nat.zero_add]
    next => rfl

/-- Both pointers of a list that is not empty. -/
theorem Linked.ends {list : EventList} {k : Nat} (h : Linked list (k + 1)) :
    list.head = some 0 ∧ list.tail = some k := by
  obtain ⟨hchain, htail⟩ := h
  rw [List.range_succ_eq_map] at hchain
  rw [getLast?_range_succ] at htail
  exact ⟨hchain.1, htail⟩

/-- The node after another one. -/
theorem Linked.next_eq {list : EventList} {n a : Nat} (h : Linked list n) (ha : a < n) :
    list.next a = if a + 1 < n then some (a + 1) else none := by
  rw [h.1.next_eq (List.getElem?_range ha)]
  split
  next hlt => exact List.getElem?_range hlt
  next hge => exact List.getElem?_eq_none (by rw [List.length_range]; omega)

/-- `get_event` of the sequence. -/
theorem Linked.getEvent_eq {list : EventList} {n fuel : Nat} (h : Linked list n) (hf : n ≤ fuel)
    (id : UInt32) : getEvent list id list.head list.tail fuel =
      some (((List.range n).map list.event).findIdx? fun event => event.id == id) := by
  rw [← find?_range]
  cases n with
  | zero =>
    have hhead : list.head = none := h.1
    rw [hhead]
    rfl
  | succ k =>
    obtain ⟨hhead, htail⟩ := h.ends
    have hchain := h.1
    rw [hhead] at hchain
    rw [hhead, htail]
    exact hchain.search_eq List.nodup_range (getLast?_range_succ k) (by rwa [List.length_range])

/-! ## The state -/

/-- The place is inside `append_to_list`. -/
def appending : Pc → Bool
  | .createAppend _ _ _ => true
  | _ => false

/-- The place is in the loop of `ems_list_events`. -/
def walking : Pc → Bool
  | .listIds _ _ _ => true
  | _ => false

/-- What the memory of `s` means is the sequence of `v`. -/
structure Refines (s : State) (v : Server.State) : Prop where
  rwl : v.rwl = s.rwl
  mutex : v.mutex = s.mutex
  pc : v.pc = s.pc
  eventNum : v.list.eventNum = s.list.eventNum
  nodes : v.list.nodes = (List.range v.list.nodes.length).map s.list.event
  quiet : (∀ t, appending (s.pc t) = false) → Laid s.list v.list.nodes.length .nothing
  pending : ∀ t id rows cols, s.pc t = .createAppend id rows cols →
    Laid s.list v.list.nodes.length (s.vars t) ∧ (s.vars t = .nothing ∨
      s.list.event v.list.nodes.length = newEvent id rows cols ∧ (newEvent id rows cols).Sized)
  listing : ∀ t num last ids, s.pc t = .listIds num last ids →
    s.vars t = .listing ids.length ∧ ids.length ≤ last ∧ last + 1 = v.list.nodes.length
  idle : ∀ t, appending (s.pc t) = false → walking (s.pc t) = false → s.vars t = .nothing

/-- In the beginning. -/
theorem refines_init : Refines State.init Server.State.init where
  rwl := rfl
  mutex := rfl
  pc := rfl
  eventNum := rfl
  nodes := rfl
  quiet := fun _ => laid_createList
  pending := nofun
  listing := nofun
  idle := fun _ _ _ => rfl

section Moves

variable {s s' : State} {v v' : Server.State} {t : Tid} {p : Pc} {w : Vars}

/-- After a move of `t` a thread is `t` or where it was. -/
theorem moved (hpc : s'.pc = Function.update s.pc t p)
    (hvars : s'.vars = Function.update s.vars t w) (u : Tid) : (u = t ∧ s'.pc u = p ∧ s'.vars u = w) ∨
      (u ≠ t ∧ s'.pc u = s.pc u ∧ s'.vars u = s.vars u) := by
  rw [hpc, hvars]
  by_cases hu : u = t
  · rw [hu, Function.update_self, Function.update_self]
    exact Or.inl ⟨rfl, rfl, rfl⟩
  · rw [Function.update_of_ne hu, Function.update_of_ne hu]
    exact Or.inr ⟨hu, rfl, rfl⟩

/-- A session that does not walk is not in the loop. -/
theorem ne_listIds (h : walking p = false) (num : UInt64) (last : Nat) (ids : List UInt32) :
    p ≠ .listIds num last ids := by
  intro heq
  rw [heq] at h
  cases h

/-- A step of `t` outside of `append_to_list`: the links stay as they are. -/
theorem refines_goto {f : Nat → Event} (hr : Refines s v) (hrwl : v'.rwl = s'.rwl)
    (hmutex : v'.mutex = s'.mutex) (hpc : s'.pc = Function.update s.pc t p)
    (hvpc : v'.pc = Function.update v.pc t p) (hvars : s'.vars = Function.update s.vars t w)
    (hlist : s'.list = { s.list with event := f })
    (hnum : v'.list.eventNum = v.list.eventNum)
    (hnodes : v'.list.nodes = (List.range v.list.nodes.length).map f)
    (hnew : f v.list.nodes.length = s.list.event v.list.nodes.length)
    (hout : appending (s.pc t) = false) (hp : appending p = false)
    (hwalk : ∀ num last ids, p = .listIds num last ids →
      w = .listing ids.length ∧ ids.length ≤ last ∧ last + 1 = v.list.nodes.length)
    (hidle : walking p = false → w = .nothing) : Refines s' v' := by
  have hlen : v'.list.nodes.length = v.list.nodes.length := by
    rw [hnodes, List.length_map, List.length_range]
  have hlaid : ∀ {w : Vars}, Laid s.list v.list.nodes.length w →
      Laid s'.list v.list.nodes.length w := fun h =>
    h.congr (by rw [hlist]) (by rw [hlist]) (by rw [hlist]) (by rw [hlist])
  constructor
  · exact hrwl
  · exact hmutex
  · rw [hvpc, hpc, hr.pc]
  · rw [hnum, hr.eventNum, hlist]
  · rw [hlen, hnodes, hlist]
  · intro hall
    rw [hlen]
    -- nobody was in the middle of `append_to_list` before either
    refine hlaid (hr.quiet fun u => ?_)
    rcases moved hpc hvars u with ⟨rfl, -, -⟩ | ⟨-, hu, -⟩
    · exact hout
    · rw [← hu]
      exact hall u
  · intro u id rows cols hat
    rw [hlen]
    rcases moved hpc hvars u with ⟨-, hu, -⟩ | ⟨-, hu, huv⟩
    · rw [← hu, hat] at hp
      cases hp
    · obtain ⟨hl, hn⟩ := hr.pending u id rows cols (hu.symm.trans hat)
      rw [huv]
      refine ⟨hlaid hl, hn.imp_right fun ⟨hevent, hsized⟩ => ⟨?_, hsized⟩⟩
      rw [hlist]
      exact hnew.trans hevent
  · intro u num last ids hat
    rw [hlen]
    rcases moved hpc hvars u with ⟨-, hu, huv⟩ | ⟨-, hu, huv⟩
    · rw [huv]
      exact hwalk num last ids (hu.symm.trans hat)
    · rw [huv]
      exact hr.listing u num last ids (hu.symm.trans hat)
  · intro u happ hwlk
    rcases moved hpc hvars u with ⟨-, hu, huv⟩ | ⟨-, hu, huv⟩
    · rw [huv]
      exact hidle (hu ▸ hwlk)
    · rw [huv]
      exact hr.idle u (hu ▸ happ) (hu ▸ hwlk)

/-- The same move of `t` in both machines, and nothing else. -/
theorem Refines.goto (hr : Refines s v) (hout : appending (s.pc t) = false)
    (hp : appending p = false) (hwalk : walking p = false) : Refines (s.goto t p) (v.goto t p) :=
  refines_goto hr hr.rwl hr.mutex rfl rfl rfl rfl rfl hr.nodes rfl hout hp
    (fun num last ids heq => absurd heq (ne_listIds hwalk num last ids)) fun _ => rfl

/-- A step of `t` while nobody else is in the list. -/
theorem refines_alone (hr : Refines s v)
    (hal : ∀ u, u ≠ t → appending (s.pc u) = false ∧ walking (s.pc u) = false)
    (hrwl : v'.rwl = s'.rwl) (hmutex : v'.mutex = s'.mutex)
    (hpc : s'.pc = Function.update s.pc t p) (hvpc : v'.pc = Function.update v.pc t p)
    (hvars : s'.vars = Function.update s.vars t w) (hnum : v'.list.eventNum = s'.list.eventNum)
    (hnodes : v'.list.nodes = (List.range v'.list.nodes.length).map s'.list.event)
    (hquiet : appending p = false → Laid s'.list v'.list.nodes.length .nothing)
    (hpending : ∀ id rows cols, p = .createAppend id rows cols →
      Laid s'.list v'.list.nodes.length w ∧ (w = .nothing ∨
        s'.list.event v'.list.nodes.length = newEvent id rows cols ∧
          (newEvent id rows cols).Sized))
    (hp : walking p = false) (hidle : appending p = false → w = .nothing) : Refines s' v' := by
  have hself : s'.pc t = p := by rw [hpc, Function.update_self]
  constructor
  · exact hrwl
  · exact hmutex
  · rw [hvpc, hpc, hr.pc]
  · exact hnum
  · exact hnodes
  · exact fun hall => hquiet (hself ▸ hall t)
  · intro u id rows cols hat
    rcases moved hpc hvars u with ⟨-, hu, huv⟩ | ⟨hut, hu, -⟩
    · rw [huv]
      exact hpending id rows cols (hu.symm.trans hat)
    -- somebody else would be in the list as well
    · have hout := (hal u hut).1
      rw [← hu, hat] at hout
      cases hout
  · intro u num last ids hat
    rcases moved hpc hvars u with ⟨-, hu, -⟩ | ⟨hut, hu, -⟩
    · exact absurd (hu.symm.trans hat) (ne_listIds hp num last ids)
    · exact absurd (hu.symm.trans hat) (ne_listIds (hal u hut).2 num last ids)
  · intro u happ hwlk
    rcases moved hpc hvars u with ⟨-, hu, huv⟩ | ⟨-, hu, huv⟩
    · rw [huv]
      exact hidle (hu ▸ happ)
    · rw [huv]
      exact hr.idle u (hu ▸ happ) (hu ▸ hwlk)

end Moves

/-! ## Who is in the list -/

/-- Who appends has the lock for writing. -/
theorem writing_of_appending {p : Pc} (h : appending p = true) : p.writing = true := by
  cases p <;> first | rfl | cases h

/-- And not for reading. -/
theorem reading_of_appending {p : Pc} (h : appending p = true) : p.reading = false := by
  cases p <;> first | rfl | cases h

/-- Who walks has the lock for reading. -/
theorem reading_of_walking {p : Pc} (h : walking p = true) : p.reading = true := by
  cases p <;> first | rfl | cases h

section Exclusion

variable {s : State} {v : Server.State} {t : Tid}

/-- Nobody links a node or follows the links beside a writer. -/
theorem alone_of_writing (hi : RwlInv v) (ht : (v.pc t).writing = true) (u : Tid) (hu : u ≠ t) :
    appending (v.pc u) = false ∧ walking (v.pc u) = false := by
  obtain ⟨hread, hwrite⟩ := RwLock.Follows.alone hi ht hu
  constructor
  · refine Bool.eq_false_iff.mpr fun h => ?_
    rw [writing_of_appending h] at hwrite
    cases hwrite
  · refine Bool.eq_false_iff.mpr fun h => ?_
    rw [reading_of_walking h] at hread
    cases hread

/-- Nobody links a node beside a reader. -/
theorem quiet_of_reading (hi : RwlInv v) (ht : (v.pc t).reading = true) (u : Tid) :
    appending (v.pc u) = false := by
  refine Bool.eq_false_iff.mpr fun h => ?_
  by_cases hu : t = u
  · subst hu
    rw [reading_of_appending h] at ht
    cases ht
  · have hread := (RwLock.Follows.alone hi (writing_of_appending h) hu).1
    change (v.pc t).reading = false at hread
    rw [ht] at hread
    cases hread

/-- While no node is being linked a lookup finds what it finds in the sequence. -/
theorem Refines.lookup (hr : Refines s v) (hq : ∀ u, appending (s.pc u) = false) (id : UInt32) :
    getEvent s.list id s.list.head s.list.tail s.list.fresh =
      some (Server.getEvent v.list id) := by
  obtain ⟨hfresh, hlinked⟩ := hr.quiet hq
  rw [hlinked.getEvent_eq (Nat.le_of_eq hfresh.symm), ← hr.nodes]
  rfl

/-- The event of a node. -/
theorem Refines.node (hr : Refines s v) {e : Nat} {event : Event}
    (he : v.list.nodes[e]? = some event) : s.list.event e = event := by
  have hlt := (List.getElem?_eq_some_iff.mp he).1
  rw [hr.nodes, List.getElem?_map, List.getElem?_range hlt] at he
  exact Option.some.inj he

/-- Every node has one. -/
theorem Refines.getElem? (hr : Refines s v) {e : Nat} (he : e < v.list.nodes.length) :
    v.list.nodes[e]? = some (s.list.event e) := by
  rw [hr.nodes, List.getElem?_map, List.getElem?_range he]
  rfl

end Exclusion

end Ems.Server.Nodes
