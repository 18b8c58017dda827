import Mathlib.Data.Finset.Card
import Ems.Server.Store

/-!
# One reservation

A call of the server's `ems_reserve`, compared with what it is for. The scan over all
cells says what looking at the requested seats one by one would say, and a call that is
refused has changed nothing (`reserve_all_or_nothing`). It does not compare the seats of
a request with each other, though: a seat that is named twice is booked once, and the
call succeeds with fewer seats than it was asked for (`gets_seats_iff`).
-/

namespace Ems.Server

/-- From the matrix of `base` to that of `event`: the first `n` seats of the request hold
`r`. -/
structure Stored (base event : Event) (q : Request) (r : UInt32) (n : Nat) : Prop where
  id : event.id = base.id
  rows : event.rows = base.rows
  cols : event.cols = base.cols
  length : event.data.length = base.data.length
  seats : ∀ i < n, q.index base i < base.data.length → event.data.getD (q.index base i) 0 = r
  others : ∀ c, (∀ i < n, q.index base i ≠ c) → event.data.getD c 0 = base.data.getD c 0

/-- `event` is `base` with the seats of the request booked, and nothing else has changed. -/
structure Booked (base event : Event) (q : Request) : Prop where
  id : event.id = base.id
  rows : event.rows = base.rows
  cols : event.cols = base.cols
  counted : event.reservations = base.reservations + 1
  length : event.data.length = base.data.length
  seats : ∀ i < q.numSeats.toNat, event.data.getD (q.index base i) 0 = base.reservations + 1
  others : ∀ c, (∀ i < q.numSeats.toNat, q.index base i ≠ c) →
    event.data.getD c 0 = base.data.getD c 0

/-- The `i`-th seat of the request cannot be had. -/
def Request.Refused (q : Request) (event : Event) (i : Nat) : Prop :=
  ¬ Inside event (q.seat i) ∨ event.data.getD (q.index event i) 0 ≠ 0

section Loop

variable {base event : Event} {q : Request} {r : UInt32} {i : Nat}

/-- One more seat. It may be one of the others. -/
theorem Stored.store (h : Stored base event q r i) : Stored base (storeSeat event q r i) q r (i + 1) := by
  have hindex : q.index event i = q.index base i := by
    unfold Request.index seatIndex
    rw [h.cols]
  constructor
  · exact h.id
  · exact h.rows
  · exact h.cols
  · exact (List.length_set ..).trans h.length
  · intro j hj hlt
    show (event.data.set _ r).getD _ 0 = r
    rw [getD_set, hindex, h.length]
    split
    next => rfl
    next hno =>
      apply h.seats j ?_ hlt
      rcases Nat.lt_succ_iff_lt_or_eq.mp hj with hold | rfl
      · exact hold
      · exact absurd ⟨rfl, hlt⟩ hno
  · intro c hc
    show (event.data.set _ r).getD c 0 = _
    rw [getD_set, hindex, if_neg fun hsame => hc i (Nat.lt_succ_self i) hsame.1.symm]
    exact h.others c fun j hj => hc j (Nat.lt_succ_of_lt hj)

/-- By induction on the seats that are left. -/
theorem Stored.storeFrom (n : Nat) : ∀ {event : Event} {i : Nat}, Stored base event q r i →
    Stored base (storeFrom event q r i n) q r (i + n) := by
  induction n with
  | zero => exact fun h => h
  | succ n ih =>
    intro event i h
    rw [storeFrom_succ, show i + (n + 1) = i + 1 + n by omega]
    exact ih h.store

theorem storeFrom_reservations (q : Request) (r : UInt32) (n : Nat) :
    ∀ (event : Event) (i : Nat), (storeFrom event q r i n).reservations = event.reservations := by
  induction n with
  | zero => exact fun _ _ => rfl
  | succ n ih => exact fun event i => ih (storeSeat event q r i) (i + 1)

end Loop

section Call

variable {event : Event} {q : Request}

/-- A seat inside the event has a cell. -/
theorem index_lt {i : Nat} (hcells : event.data.length = capacity event)
    (hcap : capacity event < 2 ^ 64) (hin : Inside event (q.seat i)) :
    q.index event i < event.data.length := by
  rw [hcells]
  exact seatIndex_lt hcap hin

/-- All seats of an admitted request are booked. -/
theorem reserveSeats_booked (hcells : event.data.length = capacity event)
    (hcap : capacity event < 2 ^ 64) (h : q.admitted event = true) :
    Booked event (reserveSeats event q).1 q := by
  have hstart : Stored event (bumpReservations event) q (event.reservations + 1) 0 :=
    ⟨rfl, rfl, rfl, rfl, fun _ h => absurd h (Nat.not_lt_zero _), fun _ _ => rfl⟩
  have hend := hstart.storeFrom q.numSeats.toNat
  rw [Nat.zero_add] at hend
  unfold reserveSeats
  rw [if_pos h]
  exact {
    id := hend.id
    rows := hend.rows
    cols := hend.cols
    counted := storeFrom_reservations ..
    length := hend.length
    seats := fun i hi =>
      hend.seats i hi (index_lt hcells hcap ((Request.admitted_iff hcap).mp h i hi).1)
    others := hend.others }

/-- **The direct check**: a call fails exactly when one of its seats cannot be had. -/
theorem reserveSeats_refused (hcap : capacity event < 2 ^ 64) :
    (reserveSeats event q).2 = 1 ↔ ∃ i < q.numSeats.toNat, q.Refused event i := by
  have hadmitted := @Request.admitted_iff q event hcap
  unfold reserveSeats
  split
  next h =>
    apply iff_of_false
    · exact UInt32.zero_ne_one
    · rintro ⟨i, hi, href⟩
      obtain ⟨hin, hfree⟩ := hadmitted.mp h i hi
      rcases href with hout | hocc
      · exact hout hin
      · exact hocc hfree
  next h =>
    apply iff_of_true rfl
    by_contra hall
    apply h
    rw [hadmitted]
    intro i hi
    by_contra hno
    apply hall
    refine ⟨i, hi, ?_⟩
    unfold Request.Refused
    by_contra hfree
    apply hno
    rw [not_or, not_not, not_not] at hfree
    exact hfree

/-- A call returns 0 or 1, and what it does is decided by that. -/
theorem reserveSeats_cases (event : Event) (q : Request) :
    ((reserveSeats event q).2 = 1 ∧ (reserveSeats event q).1 = event) ∨
    ((reserveSeats event q).2 = 0 ∧ q.admitted event = true) := by
  unfold reserveSeats
  split
  next h => exact Or.inr ⟨rfl, h⟩
  next => exact Or.inl ⟨rfl, rfl⟩

end Call

/-- **All or nothing**: a call of `ems_reserve` on an event whose seats can be counted
returns 1 exactly when one of the seats is out of range or taken, and has then changed
nothing; otherwise it returns 0 and has booked all the seats and nothing else. -/
theorem reserve_all_or_nothing {list : EventList} {q : Request} {e : Nat} {event : Event}
    (hfound : getEvent list q.eventId = some e) (he : list.nodes[e]? = some event)
    (hcells : event.data.length = capacity event) (hcap : capacity event < 2 ^ 64) :
    ((emsReserve list q).2 = 1 ↔ ∃ i < q.numSeats.toNat, q.Refused event i) ∧
    ((emsReserve list q).2 = 1 → (emsReserve list q).1 = list) ∧
    ((emsReserve list q).2 ≠ 1 → (emsReserve list q).2 = 0 ∧ ∃ event', Booked event event' q ∧
      (emsReserve list q).1 = { list with nodes := list.nodes.set e event' }) := by
  have hcall : emsReserve list q =
      ({ list with nodes := list.nodes.set e (reserveSeats event q).1 }, (reserveSeats event q).2) := by
    unfold emsReserve
    rw [hfound]
    dsimp only
    rw [he]
  rw [hcall]
  refine ⟨reserveSeats_refused hcap, ?_, ?_⟩
  · intro hret
    rcases reserveSeats_cases event q with ⟨-, hsame⟩ | ⟨hzero, -⟩
    · dsimp only
      rw [hsame, set_same he]
    · dsimp only at hret
      rw [hzero] at hret
      exact absurd hret (by decide)
  · intro hret
    rcases reserveSeats_cases event q with ⟨hone, -⟩ | ⟨hzero, hadm⟩
    · exact absurd hone hret
    · exact ⟨hzero, _, reserveSeats_booked hcells hcap hadm, rfl⟩

/-- A seat that is named twice. -/
theorem reserve_all_or_nothing_twice : ∃ event',
    Booked ⟨7, 0, 2, 1, [0, 0]⟩ event' ⟨7, 2, fun _ => 1, fun _ => 2⟩ := by
  obtain ⟨-, -, hbooked⟩ := @reserve_all_or_nothing ⟨1, [⟨7, 0, 2, 1, [0, 0]⟩]⟩
    ⟨7, 2, fun _ => 1, fun _ => 2⟩ 0 ⟨7, 0, 2, 1, [0, 0]⟩ rfl rfl rfl (by decide)
  obtain ⟨-, event', h, -⟩ := hbooked (by decide)
  exact ⟨event', h⟩

/-! ## The number of the seats -/

/-- The cells that differ. -/
def changed (event event' : Event) : Finset Nat :=
  (Finset.range event.data.length).filter fun c => event'.data.getD c 0 ≠ event.data.getD c 0

/-- A call that succeeds gets as many seats as it asked for: so many cells change, all of
them from 0 to the new number. -/
def GetsSeats (event : Event) (q : Request) : Prop :=
  (reserveSeats event q).2 = 0 →
    (changed event (reserveSeats event q).1).card = q.numSeats.toNat ∧
    ∀ c ∈ changed event (reserveSeats event q).1, event.data.getD c 0 = 0 ∧
      (reserveSeats event q).1.data.getD c 0 = event.reservations + 1

/-- No seat is named twice. -/
def Request.Distinct (q : Request) : Prop :=
  ∀ i < q.numSeats.toNat, ∀ j < q.numSeats.toNat, q.seat i = q.seat j → i = j

section Count

variable {event : Event} {q : Request}

/-- The counter does not come to 0. -/
theorem succ_ne_zero {n : UInt32} (h : n.toNat < 2 ^ 32 - 1) : n + 1 ≠ 0 := by
  intro hzero
  have hnat := congrArg UInt32.toNat hzero
  have hone : (1 : UInt32).toNat = 1 := rfl
  have hnil : (0 : UInt32).toNat = 0 := rfl
  rw [UInt32.toNat_add] at hnat
  omega

/-- What changes are the cells of the seats. -/
theorem changed_eq {event' : Event} (hcells : event.data.length = capacity event)
    (hcap : capacity event < 2 ^ 64) (hcount : event.reservations.toNat < 2 ^ 32 - 1)
    (hadm : q.admitted event = true) (h : Booked event event' q) :
    changed event event' = (Finset.range q.numSeats.toNat).image (q.index event) := by
  have hadm := (Request.admitted_iff hcap).mp hadm
  ext c
  simp only [changed, Finset.mem_filter, Finset.mem_range, Finset.mem_image]
  constructor
  · rintro ⟨_, hne⟩
    by_contra hno
    apply hne
    apply h.others
    intro i hi heq
    exact hno ⟨i, hi, heq⟩
  · rintro ⟨i, hi, heq⟩
    obtain ⟨hin, hfree⟩ := hadm i hi
    subst heq
    refine ⟨index_lt hcells hcap hin, ?_⟩
    rw [h.seats i hi, hfree]
    exact succ_ne_zero hcount

/-- The seats have different cells exactly when they are different. -/
theorem injOn_index (hcap : capacity event < 2 ^ 64)
    (hin : ∀ i < q.numSeats.toNat, Inside event (q.seat i)) :
    Set.InjOn (q.index event) (Finset.range q.numSeats.toNat : Set Nat) ↔ q.Distinct := by
  constructor
  · intro h i hi j hj heq
    apply h (by simpa using hi) (by simpa using hj)
    have hrow : q.xs i = q.xs j := congrArg Prod.fst heq
    have hcol : q.ys i = q.ys j := congrArg Prod.snd heq
    unfold Request.index
    rw [hrow, hcol]
  · intro h i hi j hj heq
    have hi : i < q.numSeats.toNat := by simpa using hi
    have hj : j < q.numSeats.toNat := by simpa using hj
    exact h i hi j hj (seatIndex_inj hcap (hin i hi) (hin j hj) heq)

end Count

/-- **As many seats as it asked for**: exactly when no seat is named twice, unless one of
them is out of range or taken and the call fails. -/
theorem gets_seats_iff {event : Event} (hcells : event.data.length = capacity event)
    (hcap : capacity event < 2 ^ 64) (hcount : event.reservations.toNat < 2 ^ 32 - 1)
    (q : Request) :
    GetsSeats event q ↔ q.Distinct ∨ ∃ i < q.numSeats.toNat, q.Refused event i := by
  rcases reserveSeats_cases event q with ⟨hone, -⟩ | ⟨hzero, hadm⟩
  · apply iff_of_true
    · intro hzero
      rw [hone] at hzero
      exact absurd hzero (by decide)
    · exact Or.inr ((reserveSeats_refused hcap).mp hone)
  · have hbooked := reserveSeats_booked hcells hcap hadm
    have hchanged := changed_eq hcells hcap hcount hadm hbooked
    have hfree := (Request.admitted_iff hcap).mp hadm
    -- distinct seats have distinct cells
    have hcard : (changed event (reserveSeats event q).1).card = q.numSeats.toNat ↔ q.Distinct := by
      have hiff := Finset.card_image_iff (s := Finset.range q.numSeats.toNat) (f := q.index event)
      rw [Finset.card_range] at hiff
      rw [hchanged, hiff, injOn_index hcap fun i hi => (hfree i hi).1]
    have hvalues : ∀ c ∈ changed event (reserveSeats event q).1, event.data.getD c 0 = 0 ∧
        (reserveSeats event q).1.data.getD c 0 = event.reservations + 1 := by
      intro c hc
      rw [hchanged] at hc
      obtain ⟨i, hi, rfl⟩ := Finset.mem_image.mp hc
      have hi := Finset.mem_range.mp hi
      exact ⟨(hfree i hi).2, hbooked.seats i hi⟩
    constructor
    · intro h
      exact Or.inl (hcard.mp (h hzero).1)
    · intro h _
      refine ⟨hcard.mpr (h.resolve_right ?_), hvalues⟩
      rw [← reserveSeats_refused hcap, hzero]
      decide

/-- The seats (1,1) and (1,2). -/
theorem gets_seats_iff_two :
    GetsSeats ⟨7, 0, 2, 1, [0, 0]⟩ ⟨7, 2, fun _ => 1, fun i => if i = 0 then 1 else 2⟩ := by
  apply (gets_seats_iff rfl (by decide) (by decide) _).mpr
  left
  unfold Request.Distinct
  decide

/-- The seat (1,1), and once more: the call succeeds with one seat. -/
theorem seat_named_twice :
    (reserveSeats ⟨7, 0, 2, 1, [0, 0]⟩ ⟨7, 2, fun _ => 1, fun _ => 1⟩) = (⟨7, 1, 2, 1, [1, 0]⟩, 0) ∧
    ¬ GetsSeats ⟨7, 0, 2, 1, [0, 0]⟩ ⟨7, 2, fun _ => 1, fun _ => 1⟩ := by
  constructor
  · decide
  · intro h
    have hcard := (h (by decide)).1
    revert hcard
    decide

end Ems.Server
