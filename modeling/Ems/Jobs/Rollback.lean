import Ems.Jobs.Operations
import Ems.Server.Reserve

/-!
# A reservation that is taken back

`ems_reserve` of the first part marks its seats one by one, and at the first one that it
cannot have it sets the marked ones to 0 again. That is right because the number of a
reservation is not 0: a seat that is named again is found taken, so that what was marked
was free before, and only once. The call leaves no trace when it fails, and it fails when
one of the seats is out of range, taken or named before (`reserve_rolls_back`).
-/

namespace Ems.Jobs

open Server (Request Inside succ_ne_zero)

/-- The `i`-th seat of the request cannot be had. -/
def Refuses (event : Event) (q : Request) (i : Nat) : Prop :=
  ¬ Inside event.toServer (q.seat i) ∨ getSeat event (index event q i) ≠ 0 ∨
    ∃ j < i, q.seat j = q.seat i

section

variable {base : Event} {q : Request} {r : UInt32}

/-- The loop marks no seat twice, since a mark is not 0. -/
theorem extends_of_number (hsize : base.data.length = Server.capacity base.toServer)
    (hcap : Server.capacity base.toServer < 2 ^ 64) (hr : r ≠ 0) : Extends base q r := by
  intro i event hm hi href
  obtain ⟨hin, hfree⟩ := refused_eq_false.mp href
  rw [hm.index_eq] at hfree
  refine ⟨index_lt hsize hcap ((hm.inside_iff _).mp hin), fun j hj heq => ?_⟩
  apply hr
  rw [← hm.marked j (Nat.zero_le j) hj, heq, hfree]

/-- One seat has one cell. -/
theorem index_congr {i j : Nat} (h : q.seat i = q.seat j) : index base q i = index base q j := by
  have hrow : q.xs i = q.xs j := congrArg Prod.fst h
  have hcol : q.ys i = q.ys j := congrArg Prod.snd h
  unfold index
  rw [hrow, hcol]

/-- Behind all seats none of them is one that cannot be had. -/
theorem Marks.not_refuses {event : Event} {n i : Nat} (h : Marks base event q r 0 n)
    (hi : i < n) : ¬ Refuses base q i := by
  intro href
  rcases href with hout | hocc | ⟨j, hj, hsame⟩
  · exact hout (h.inside i hi)
  · exact hocc (h.free i hi)
  · have heq := h.distinct j (Nat.lt_trans hj hi) i hi (index_congr hsame)
    exact absurd hj (by rw [heq]; exact Nat.lt_irrefl i)

/-- A seat the loop refuses was taken before the call, or it is one of the marked ones. -/
theorem Marks.refuses {event : Event} {i : Nat}
    (hcap : Server.capacity base.toServer < 2 ^ 64) (h : Marks base event q r 0 i)
    (href : refused event q i = true) : Refuses base q i := by
  by_contra hno
  unfold Refuses at hno
  rw [not_or, not_or, not_not, not_not] at hno
  obtain ⟨hin, hfree, hnew⟩ := hno
  have hpass : refused event q i = false := by
    apply refused_eq_false.mpr
    refine ⟨(h.inside_iff _).mpr hin, ?_⟩
    rw [h.index_eq, h.others, hfree]
    intro j _ hj heq
    apply hnew
    exact ⟨j, hj, Server.seatIndex_inj hcap (h.inside j hj) hin heq⟩
  rw [hpass] at href
  cases href

/-- **A call on an event**: it fails exactly when one of its seats cannot be had, and then
the event is as it was. -/
theorem reserveSeats_rolls_back (hsize : base.data.length = Server.capacity base.toServer)
    (hcap : Server.capacity base.toServer < 2 ^ 64)
    (hcount : base.reservations.toNat < 2 ^ 32 - 1) (q : Request) :
    ((reserveSeats base q).2 = 1 ↔ ∃ i < q.numSeats.toNat, Refuses base q i) ∧
    ((reserveSeats base q).2 = 1 → (reserveSeats base q).1 = base) := by
  have hx : Extends base q (base.reservations + 1) :=
    extends_of_number hsize hcap (succ_ne_zero hcount)
  rcases reserveSeats_spec hx with ⟨event, hm, -, hret⟩ | ⟨event, i, hi, hm, href, hret⟩
  · rw [hret]
    constructor
    · apply iff_of_false
      · exact Nat.zero_ne_one
      · rintro ⟨i, hi, href⟩
        exact hm.not_refuses hi href
    · intro h
      exact absurd h Nat.zero_ne_one
  · rw [hret]
    exact ⟨iff_of_true rfl ⟨i, hi, hm.refuses hcap href⟩, fun _ => rfl⟩

end

/-- **A failed reservation is rolled back**: the call returns `EXIT_FAILURE` exactly when one
of the seats is out of range, taken or named before, and then no event has changed. -/
theorem reserve_rolls_back {list : EventList} {q : Request} {e : Nat} {event : Event}
    (hfound : getEvent list q.eventId = some e) (he : list[e]? = some event)
    (hsize : event.data.length = Server.capacity event.toServer)
    (hcap : Server.capacity event.toServer < 2 ^ 64)
    (hcount : event.reservations.toNat < 2 ^ 32 - 1) :
    ((emsReserve list q).2 = 1 ↔ ∃ i < q.numSeats.toNat, Refuses event q i) ∧
    ((emsReserve list q).2 = 1 → (emsReserve list q).1 = list) := by
  have hcall : emsReserve list q =
      (list.set e (reserveSeats event q).1, (reserveSeats event q).2) := by
    unfold emsReserve
    rw [hfound]
    dsimp only
    rw [he]
  obtain ⟨hiff, hback⟩ := reserveSeats_rolls_back hsize hcap hcount q
  rw [hcall]
  refine ⟨hiff, fun hret => ?_⟩
  dsimp only at hret ⊢
  rw [hback hret, Server.set_same he]

/-- The seats (1,1), (1,2) and (1,1): the third one is refused. -/
theorem reserve_rolls_back_again : (emsReserve [⟨7, 3, 2, 1, [0, 0]⟩]
    ⟨7, 3, fun _ => 1, fun i => if i = 1 then 2 else 1⟩).1 = [⟨7, 3, 2, 1, [0, 0]⟩] := by
  obtain ⟨hiff, hback⟩ := @reserve_rolls_back [⟨7, 3, 2, 1, [0, 0]⟩]
    ⟨7, 3, fun _ => 1, fun i => if i = 1 then 2 else 1⟩ 0 ⟨7, 3, 2, 1, [0, 0]⟩ rfl rfl rfl
    (by decide) (by decide)
  apply hback
  apply hiff.mpr
  exact ⟨2, by decide, Or.inr (Or.inr ⟨0, by decide, rfl⟩)⟩

end Ems.Jobs
