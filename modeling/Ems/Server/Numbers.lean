import Ems.Server.Booking

/-!
# Reservation numbers

A reservation number is worth something only when it is on a seat. The ledger
of an event has no empty claims, so as long as its books are in order
(`run_books`) the numbers on its matrix are the numbers given out, none missing,
and there are no more of them than seats.

`ems_reserve` does not look at `num_seats`. For 0 its loops have nothing to
refuse and nothing to store: a number is used up, and the client is told of a
success (`empty_request`). The parsers of both clients treat an empty list of
seats as an invalid command; the server takes what comes off the pipe.
-/

namespace Ems.Server

open Conc Base

/-- The numbers the seats of an event carry. -/
def Event.numbers (event : Event) : Set Nat := {k | k ≠ 0 ∧ ∃ v ∈ event.data, v.toNat = k}

theorem value_getElem {event : Event} {c : Nat} (hc : c < event.data.length) :
    event.value c = event.data[c].toNat := by
  unfold Event.value
  rw [List.getD_eq_getElem?_getD, List.getElem?_eq_getElem hc]
  rfl

theorem mem_numbers {event : Event} {k : Nat} :
    k ∈ event.numbers ↔ k ≠ 0 ∧ ∃ c < event.data.length, event.value c = k := by
  have hvalue : (∃ v ∈ event.data, v.toNat = k) ↔ ∃ c < event.data.length, event.value c = k := by
    constructor
    · rintro ⟨v, hv, rfl⟩
      obtain ⟨c, hc, rfl⟩ := List.getElem_of_mem hv
      exact ⟨c, hc, value_getElem hc⟩
    · rintro ⟨c, hc, rfl⟩
      exact ⟨event.data[c], List.getElem_mem hc, (value_getElem hc).symm⟩
  exact and_congr_right fun _ => hvalue

/-- The table of a ledger shows every number it has given out. -/
theorem keeps_numbers {event : Event} {n : Nat} {l : Ledger (Finset.range n)}
    (hk : Keeps event l []) : event.numbers = {k | 1 ≤ k ∧ k ≤ event.reservations.toNat} := by
  ext k
  have hvalue : ∀ c, event.value c = l.owner c := fun c => hk.marked c List.not_mem_nil
  rw [mem_numbers, Set.mem_ofPred_eq, hk.count]
  constructor
  · rintro ⟨hk0, c, -, hc⟩
    obtain ⟨j, rfl⟩ := Nat.exists_eq_succ_of_ne_zero hk0
    rw [hvalue] at hc
    obtain ⟨claim, hclaim, -⟩ := Ledger.owner_eq_succ.mp hc
    obtain ⟨hj, -⟩ := List.getElem?_eq_some_iff.mp hclaim
    omega
  · rintro ⟨hk1, hle⟩
    obtain ⟨j, rfl⟩ : ∃ j, k = j + 1 := ⟨k - 1, by omega⟩
    have hj : j < l.claims.length := by omega
    -- a claim has a seat, and the seat carries its number
    obtain ⟨c, hc⟩ := l.nonempty _ (List.getElem_mem hj)
    have hroom := Finset.mem_range.mp (l.inside _ (List.getElem_mem hj) hc)
    refine ⟨Nat.succ_ne_zero j, c, by rw [hk.size]; exact hroom, ?_⟩
    rw [hvalue]
    exact Ledger.owner_eq_succ.mpr ⟨_, List.getElem?_eq_getElem hj, hc⟩

/-- **Every reservation number is on a seat**, in every run that checks no empty
request for the event: with its mutex free the numbers on an event with fewer
than 2^32 seats are those from 1 to `reservations`. The counter is the number of
successful `RESERVE`s and never exceeds the number of seats, so it does not wrap. -/
theorem numbers_backed {tr : List Act} {s : State} {e : Nat} {event : Event}
    (hback : machine.Meets (Backed e) tr) (hrun : machine.run tr = some s)
    (he : s.list.nodes[e]? = some event) (hcap : event.rows.toNat * event.cols.toNat < 2 ^ 32)
    (hfree : s.mutex e = none) :
    event.numbers = {k | 1 ≤ k ∧ k ≤ event.reservations.toNat} ∧
      event.reservations.toNat = (bookings e tr).length ∧
      event.reservations.toNat ≤ event.rows.toNat * event.cols.toNat := by
  have hbooks := (run_books hback hrun).after event he hcap
  have hin : s.inside e = none := by unfold State.inside; rw [hfree]; rfl
  rw [hin] at hbooks
  obtain ⟨l, hl, hkeep, -, -⟩ := hbooks
  simp only [Pc.granting, List.append_nil] at hl hkeep
  refine ⟨keeps_numbers hkeep, by rw [hkeep.count, hl, List.length_map], ?_⟩
  have hle := l.length_le
  rw [Finset.card_range] at hle
  rw [hkeep.count]
  exact hle

theorem numbers_backed_twoBookings :
    ∃ s event, machine.run twoBookings = some s ∧ s.list.nodes[0]? = some event ∧
      event.numbers = {k | 1 ≤ k ∧ k ≤ event.reservations.toNat} := by
  obtain ⟨s, hs⟩ := Option.isSome_iff_exists.mp
    (show (machine.run twoBookings).isSome = true by decide)
  have hend : (machine.run twoBookings).map (fun s => (s.list.nodes, s.mutex 0)) =
      some ([⟨7, 2, 2, 2, [2, 1, 2, 0]⟩], none) := by decide
  rw [hs, Option.map_some, Option.some.injEq, Prod.mk.injEq] at hend
  have he : s.list.nodes[0]? = some ⟨7, 2, 2, 2, [2, 1, 2, 0]⟩ := by rw [hend.1]; rfl
  have hback : machine.Meets (Backed 0) twoBookings :=
    backed_of_sane (by simp [twoBookings, Act.Sane]) 0
  exact ⟨s, _, hs, he, (numbers_backed hback hs he (by decide) hend.2).1⟩

/-- Session 0 creates an event of one seat and reserves no seats of it. -/
def emptyRequest : List Act :=
  let turn : Act := .step 0 ⟨Alloc.allOk, 1⟩
  [.call 0 (.create 7 1 1), turn, turn, turn, turn, .ret 0,
    .call 0 (.reserve ⟨7, 0, fun _ => 1, fun _ => 1⟩), turn, turn, turn, turn, turn, turn, turn]

/-- After `emptyRequest` the number 1 has been given out, and no seat carries it. -/
theorem empty_request : ¬ ∀ (tr : List Act) (s : State) (e : Nat) (event : Event),
    (∀ t q, .call t (.reserve q) ∈ tr → q.numSeats.toNat ≤ 256) → machine.run tr = some s →
    s.list.nodes[e]? = some event → event.rows.toNat * event.cols.toNat < 2 ^ 32 →
    s.mutex e = none → event.numbers = {k | 1 ≤ k ∧ k ≤ event.reservations.toNat} := by
  intro hall
  obtain ⟨s, hs⟩ := Option.isSome_iff_exists.mp
    (show (machine.run emptyRequest).isSome = true by decide)
  have hend : (machine.run emptyRequest).map (fun s => (s.list.nodes, s.mutex 0)) =
      some ([⟨7, 1, 1, 1, [0]⟩], none) := by decide
  rw [hs, Option.map_some, Option.some.injEq, Prod.mk.injEq] at hend
  have he : s.list.nodes[0]? = some ⟨7, 1, 1, 1, [0]⟩ := by rw [hend.1]; rfl
  have hsmall : ∀ t q, .call t (.reserve q) ∈ emptyRequest → q.numSeats.toNat ≤ 256 := by
    intro t q hq
    simp [emptyRequest] at hq
    rw [hq.2]
    decide
  have hnumbers := hall emptyRequest s 0 _ hsmall hs he (by decide) hend.2
  have hone : (1 : Nat) ∈ {k | 1 ≤ k ∧ k ≤ (1 : UInt32).toNat} := ⟨Nat.le_refl 1, by decide⟩
  rw [← hnumbers] at hone
  obtain ⟨-, v, hv, h1⟩ := hone
  rw [List.mem_singleton.mp hv] at h1
  cases h1

end Ems.Server
