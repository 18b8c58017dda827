import Mathlib.Algebra.Group.Nat.Defs
import Mathlib.Data.List.Basic

/-!
# The job runner's store

`eventlist.c` of the first part and what `ems_create` of the first part computes
between its lock calls.

Mirroring notes:
- `unsigned int` is `UInt32`, `size_t` is `UInt64`; both wrap as in C.
- The list has no counter here: it is its nodes, from `head` on.
- `data` has the cells of the block `malloc` returned. The zeroing loop writes
  `num_rows * num_cols` cells; when that product does not fit the block, the
  writes past its end are not part of the event.
-/

namespace Ems.Jobs

/-- `struct Event`. -/
structure Event where
  id : UInt32
  reservations : UInt32
  cols : UInt64
  rows : UInt64
  data : List UInt32
deriving DecidableEq, Repr

/-- `struct EventList`: the events from `head` to the end. -/
abbrev EventList := List Event

/-- `create_list`. -/
def createList : EventList := []

/-- `append_to_list`, once its `malloc` has succeeded. -/
def appendToList (list : EventList) (event : Event) : EventList := list ++ [event]

/-- `get_event`: the position of the first event with that id. -/
def getEvent (list : EventList) (eventId : UInt32) : Option Nat :=
  list.findIdx? fun event => event.id == eventId

/-- What the allocator answers to the three allocations of `ems_create`. -/
structure Alloc where
  event : Bool
  data : Bool
  node : Bool
deriving DecidableEq, Repr

/-- `malloc(num_rows * num_cols * sizeof(unsigned int))` and the zeroing loop:
the block has as many cells as the wrapped byte count has room for. -/
def zeroedCells (numRows numCols : UInt64) : List UInt32 :=
  List.replicate ((numRows * numCols * 4).toNat / 4) 0

/-- The event `ems_create` builds between its two critical sections, if both
allocations succeed. -/
def buildEvent (alloc : Alloc) (eventId : UInt32) (numRows numCols : UInt64) : Option Event :=
  if alloc.event ∧ alloc.data then
    some { id := eventId, reservations := 0, cols := numCols, rows := numRows,
           data := zeroedCells numRows numCols }
  else none

/-- Without overflow there is a cell for every seat. -/
theorem zeroedCells_eq {numRows numCols : UInt64} (h : numRows.toNat * numCols.toNat * 4 < 2 ^ 64) :
    zeroedCells numRows numCols = List.replicate (numRows.toNat * numCols.toNat) 0 := by
  have hbytes : (numRows * numCols * 4).toNat = numRows.toNat * numCols.toNat * 4 := by
    rw [UInt64.toNat_mul, UInt64.toNat_mul,
      Nat.mod_eq_of_lt (show numRows.toNat * numCols.toNat < 2 ^ 64 by omega)]
    exact Nat.mod_eq_of_lt h
  unfold zeroedCells
  rw [hbytes, Nat.mul_div_cancel _ (by decide)]

theorem buildEvent_id {alloc : Alloc} {id : UInt32} {rows cols : UInt64} {event : Event}
    (h : buildEvent alloc id rows cols = some event) : event.id = id := by
  unfold buildEvent at h
  split at h
  · cases h; rfl
  · cases h

/-- The lookup fails exactly when the id is not in the list. -/
theorem getEvent_eq_none {list : EventList} {id : UInt32} :
    getEvent list id = none ↔ id ∉ list.map (·.id) := by
  unfold getEvent
  rw [List.findIdx?_eq_none_iff]
  simp only [beq_eq_false_iff_ne, ne_eq, List.mem_map, not_exists, not_and]

/-- A lookup that finds an event finds it inside the list. -/
theorem getEvent_lt {list : EventList} {id : UInt32} {e : Nat} (h : getEvent list id = some e) :
    e < list.length := by
  obtain ⟨he, -⟩ := List.findIdx?_eq_some_iff_getElem.mp h
  exact he

end Ems.Jobs
