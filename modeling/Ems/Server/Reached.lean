import Ems.Server.Snapshot

/-!
# The stores that can be reached

What the counter, the ids and the matrices are like after any operations, one after
the other.
-/

namespace Ems.Server

/-- The store after the operations. -/
def execOps (list : EventList) (ops : List Op) : EventList :=
  ops.foldl (fun list op => (op.exec list).2) list

/-- A store some operations lead to. -/
def EventList.Reached (list : EventList) : Prop := ∃ ops, execOps createList ops = list

/-- The counter counts the events, no id is there twice and every matrix has its size. -/
structure StoreInv (list : EventList) : Prop where
  counted : list.eventNum = UInt64.ofNat list.nodes.length
  nodup : (list.nodes.map (·.id)).Nodup
  sized : ∀ event ∈ list.nodes, event.Sized

theorem storeInv_createList : StoreInv createList :=
  ⟨rfl, List.nodup_nil, fun _ h => absurd h List.not_mem_nil⟩

/-- A booking keeps the id and the size. -/
theorem reserveSeats_keeps (event : Event) (q : Request) :
    (reserveSeats event q).1.id = event.id ∧ (event.Sized → (reserveSeats event q).1.Sized) := by
  have hstore : ∀ (n i : Nat) (r : UInt32) (event : Event), event.Sized →
      (storeFrom event q r i n).Sized := by
    intro n
    induction n with
    | zero => intro i r event h; exact h
    | succ n ih =>
      intro i r event h
      have hlen : (storeSeat event q r i).data.length = event.data.length := List.length_set ..
      exact ih (i + 1) r _ ⟨hlen.trans h.cells, by rw [hlen]; exact h.fits⟩
  unfold reserveSeats
  split
  next => exact ⟨storeFrom_id .., fun h => hstore _ _ _ _ ⟨h.cells, h.fits⟩⟩
  next => exact ⟨rfl, id⟩

theorem storeInv_append {list : EventList} {id : UInt32} {rows cols : UInt64} (h : StoreInv list)
    (hid : getEvent list id = none) (hsized : (newEvent id rows cols).Sized) :
    StoreInv (appendToList list (newEvent id rows cols)) := by
  constructor
  · show list.eventNum + 1 = UInt64.ofNat (list.nodes ++ [newEvent id rows cols]).length
    rw [h.counted, List.length_append, UInt64.ofNat_add]
    rfl
  · show ((list.nodes ++ [newEvent id rows cols]).map (·.id)).Nodup
    rw [List.map_append, List.nodup_append]
    refine ⟨h.nodup, List.nodup_singleton _, ?_⟩
    intro a ha b hb hab
    obtain ⟨event, hevent, rfl⟩ := List.mem_map.mp ha
    have hne := List.findIdx?_eq_none_iff.mp hid event hevent
    rw [hab, List.mem_singleton.mp hb] at hne
    simp [newEvent] at hne
  · intro event hevent
    rcases List.mem_append.mp hevent with hold | hnew
    · exact h.sized event hold
    · rw [List.mem_singleton.mp hnew]
      exact hsized

/-- An operation keeps the invariant. -/
theorem exec_storeInv (op : Op) {list : EventList} (h : StoreInv list) :
    StoreInv (op.exec list).2 := by
  cases op with
  | create id rows cols =>
    show StoreInv (emsCreate Alloc.allOk list id rows cols).1
    unfold emsCreate
    split
    next => exact h
    next hid =>
      rw [createEvent_allOk]
      split
      next hfit =>
        have hlen : (newEvent id rows cols).data.length = (rows * cols).toNat :=
          List.length_replicate
        exact storeInv_append h (Option.not_isSome_iff_eq_none.mp hid)
          ⟨hlen, by rw [hlen]; exact hfit⟩
      next => exact h
  | reserve q =>
    show StoreInv (emsReserve list q).1
    unfold emsReserve
    split
    next => exact h
    next e hfound =>
      split
      next => exact h
      next event he =>
        obtain ⟨hid, hsized⟩ := reserveSeats_keeps event q
        constructor
        · show list.eventNum = UInt64.ofNat (list.nodes.set e (reserveSeats event q).1).length
          rw [List.length_set]
          exact h.counted
        · show ((list.nodes.set e (reserveSeats event q).1).map (·.id)).Nodup
          have hsame : (list.nodes.map (·.id))[e]? = some event.id := by
            rw [List.getElem?_map, he]
            rfl
          obtain ⟨hlt, hget⟩ := List.getElem?_eq_some_iff.mp hsame
          rw [List.map_set, hid, ← hget, List.set_getElem_self]
          exact h.nodup
        · intro event' hevent'
          rcases List.mem_or_eq_of_mem_set hevent' with hold | rfl
          · exact h.sized event' hold
          · exact hsized (h.sized event (List.mem_of_getElem? he))
  | showEvent id => exact h
  | listEvents => exact h

/-- Every reached store satisfies it. -/
theorem EventList.Reached.storeInv {list : EventList} (h : list.Reached) : StoreInv list := by
  obtain ⟨ops, rfl⟩ := h
  have key : ∀ (ops : List Op) (list : EventList), StoreInv list → StoreInv (execOps list ops) := by
    intro ops
    induction ops with
    | nil => intro list h; exact h
    | cons op ops ih => intro list h; exact ih _ (exec_storeInv op h)
  exact key ops createList storeInv_createList

/-- There are no more events than ids. -/
theorem length_le_of_ids {nodes : List Event} (h : (nodes.map (·.id)).Nodup) :
    nodes.length ≤ 2 ^ 32 := by
  have hnodup : ((nodes.map (·.id)).map UInt32.toNat).Nodup :=
    h.map fun a b hab => UInt32.toNat_inj.mp hab
  have hsub : ((nodes.map (·.id)).map UInt32.toNat).toFinset ⊆ Finset.range (2 ^ 32) := by
    intro n hn
    obtain ⟨id, -, rfl⟩ := List.mem_map.mp (List.mem_toFinset.mp hn)
    exact Finset.mem_range.mpr id.toNat_lt
  have hcard := Finset.card_le_card hsub
  rw [List.toFinset_card_of_nodup hnodup, Finset.card_range, List.length_map,
    List.length_map] at hcard
  exact hcard

/-- So a counter that counts them has not wrapped. -/
theorem counted_toNat {list : EventList} (hcounted : list.eventNum = UInt64.ofNat list.nodes.length)
    (hnodup : (list.nodes.map (·.id)).Nodup) : list.eventNum.toNat = list.nodes.length := by
  have hle := length_le_of_ids hnodup
  rw [hcounted, UInt64.toNat_ofNat']
  exact Nat.mod_eq_of_lt (by omega)

theorem StoreInv.eventNum_toNat {list : EventList} (h : StoreInv list) :
    list.eventNum.toNat = list.nodes.length := counted_toNat h.counted h.nodup

end Ems.Server
