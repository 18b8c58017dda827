import Ems.Jobs.Store
import Ems.Server.Store

/-!
# The operations of the job runner

`ems_create` and `ems_reserve` of the first part, one call at a time. A reservation
marks its seats as it checks them and takes the marks back when a later seat is refused;
`Marks` says what the matrix is like at any point of that, in terms of the matrix before
the call, and `reserveSeats_spec` that a refused call leaves no trace.

Mirroring notes:
- The arguments of `ems_reserve` and the notions about seats that need only the
  dimensions are those of the second part; `Event.toServer` is the same `struct Event`
  there.
- `get_seat_with_delay` returns a pointer; `getSeat` and `setSeat` are the access
  through it. The delays and the messages are left out.
- `EXIT_SUCCESS` is 0 and `EXIT_FAILURE` is 1.
-/

namespace Ems.Jobs

open Server (Request Seat Inside)

/-- `seat_index`, in wrapping `size_t` arithmetic. -/
def seatIndex (event : Event) (row col : UInt64) : UInt64 := (row - 1) * event.cols + col - 1

/-- The bounds test of `ems_reserve`, as it is written. -/
def outOfBounds (event : Event) (row col : UInt64) : Bool :=
  row ≤ 0 || row > event.rows || col ≤ 0 || col > event.cols

/-- What a seat holds. -/
def getSeat (event : Event) (index : Nat) : UInt32 := event.data.getD index 0

/-- A store to a seat. -/
def setSeat (event : Event) (index : Nat) (value : UInt32) : Event :=
  { event with data := event.data.set index value }

/-- The index of the `i`-th seat of a request. -/
def index (event : Event) (q : Request) (i : Nat) : Nat :=
  (seatIndex event (q.xs i) (q.ys i)).toNat

/-- The loop of `ems_reserve` breaks at the `i`-th seat. -/
def refused (event : Event) (q : Request) (i : Nat) : Bool :=
  outOfBounds event (q.xs i) (q.ys i) || getSeat event (index event q i) != 0

/-- The loop from its `i`-th iteration on, of `n` that are left: the event, and the `i`
it ends with. -/
def markFrom (event : Event) (q : Request) (reservationId : UInt32) : Nat → Nat → Event × Nat
  | i, 0 => (event, i)
  | i, n + 1 =>
    if refused event q i then (event, i)
    else markFrom (setSeat event (index event q i) reservationId) q reservationId (i + 1) n

/-- The loop that frees the seats again, from the `j`-th on, `n` of them. -/
def clearFrom (event : Event) (q : Request) : Nat → Nat → Event
  | _, 0 => event
  | j, n + 1 => clearFrom (setSeat event (index event q j) 0) q (j + 1) n

/-- `++event->reservations`. -/
def bumpReservations (event : Event) : Event :=
  { event with reservations := event.reservations + 1 }

/-- `event->reservations--`. -/
def undoReservations (event : Event) : Event :=
  { event with reservations := event.reservations - 1 }

/-- `ems_reserve` while it holds `event_Lock`. -/
def reserveSeats (event : Event) (q : Request) : Event × Nat :=
  let r := markFrom (bumpReservations event) q (event.reservations + 1) 0 q.numSeats.toNat
  if r.2 < q.numSeats.toNat then (clearFrom (undoReservations r.1) q 0 r.2, 1)
  else (r.1, 0)

/-- `ems_reserve`, run alone. -/
def emsReserve (list : EventList) (q : Request) : EventList × Nat :=
  match getEvent list q.eventId with
  | none => (list, 1)
  | some e =>
    match list[e]? with
    | none => (list, 1)
    | some event => (list.set e (reserveSeats event q).1, (reserveSeats event q).2)

/-- `ems_create`, run alone. -/
def emsCreate (alloc : Alloc) (list : EventList) (eventId : UInt32) (numRows numCols : UInt64) :
    EventList × Nat :=
  if (getEvent list eventId).isSome then (list, 1)
  else
    match buildEvent alloc eventId numRows numCols with
    | none => (list, 1)
    | some event => if alloc.node then (appendToList list event, 0) else (list, 1)

/-- The event as the second part has it. -/
def Event.toServer (event : Event) : Server.Event :=
  ⟨event.id, event.reservations, event.cols, event.rows, event.data⟩

/-! ## Seats -/

theorem outOfBounds_eq_false {event : Event} {row col : UInt64} :
    outOfBounds event row col = false ↔ Inside event.toServer (row, col) :=
  @Server.outOfBounds_eq_false event.toServer row col

theorem index_eq (event : Event) (q : Request) (i : Nat) :
    index event q i = q.index event.toServer i := rfl

theorem refused_eq_false {event : Event} {q : Request} {i : Nat} :
    refused event q i = false ↔
      Inside event.toServer (q.seat i) ∧ getSeat event (index event q i) = 0 := by
  unfold refused
  rw [Bool.or_eq_false_iff, outOfBounds_eq_false, bne_eq_false_iff_eq]
  exact Iff.rfl

theorem getSeat_setSeat {event : Event} {i : Nat} {value : UInt32} (hi : i < event.data.length)
    (c : Nat) : getSeat (setSeat event i value) c = if c = i then value else getSeat event c := by
  unfold getSeat setSeat
  exact Server.getD_set_of_lt hi c value

/-! ## Marks -/

/-- From the matrix of `base` to that of `event`: the seats of `q` before the `hi`-th
were free, and those from the `lo`-th on hold `r`. -/
structure Marks (base event : Event) (q : Request) (r : UInt32) (lo hi : Nat) : Prop where
  id : event.id = base.id
  rows : event.rows = base.rows
  cols : event.cols = base.cols
  length : event.data.length = base.data.length
  inside : ∀ i < hi, Inside base.toServer (q.seat i)
  free : ∀ i < hi, getSeat base (index base q i) = 0
  room : ∀ i < hi, index base q i < base.data.length
  distinct : ∀ i < hi, ∀ j < hi, index base q i = index base q j → i = j
  marked : ∀ i, lo ≤ i → i < hi → getSeat event (index base q i) = r
  others : ∀ c, (∀ i, lo ≤ i → i < hi → index base q i ≠ c) → getSeat event c = getSeat base c

namespace Marks

variable {base event : Event} {q : Request} {r : UInt32} {lo hi i : Nat}

theorem index_eq (h : Marks base event q r lo hi) (i : Nat) :
    index event q i = index base q i := by
  unfold index seatIndex
  rw [h.cols]

theorem inside_iff (h : Marks base event q r lo hi) (p : Seat) :
    Inside event.toServer p ↔ Inside base.toServer p := by
  unfold Inside Event.toServer
  rw [h.rows, h.cols]

/-- Before the first mark. -/
theorem start (q : Request) (r : UInt32) (hid : event.id = base.id) (hrows : event.rows = base.rows)
    (hcols : event.cols = base.cols) (hdata : event.data = base.data) :
    Marks base event q r 0 0 where
  id := hid
  rows := hrows
  cols := hcols
  length := congrArg List.length hdata
  inside := fun _ h => absurd h (Nat.not_lt_zero _)
  free := fun _ h => absurd h (Nat.not_lt_zero _)
  room := fun _ h => absurd h (Nat.not_lt_zero _)
  distinct := fun _ h => absurd h (Nat.not_lt_zero _)
  marked := fun _ _ h => absurd h (Nat.not_lt_zero _)
  others := fun c _ => by
    unfold getSeat
    rw [hdata]

/-- One more seat. It is not one of the marked ones. -/
theorem mark (h : Marks base event q r 0 hi) (hr : refused event q hi = false)
    (hroom : index base q hi < base.data.length)
    (hnew : ∀ i < hi, index base q i ≠ index base q hi) :
    Marks base (setSeat event (index event q hi) r) q r 0 (hi + 1) := by
  obtain ⟨hin, hfree⟩ := refused_eq_false.mp hr
  rw [h.index_eq] at hfree ⊢
  have hbase : getSeat base (index base q hi) = 0 := by
    rw [← hfree, h.others]
    exact fun i _ hi => hnew i hi
  constructor
  · exact h.id
  · exact h.rows
  · exact h.cols
  · show (event.data.set _ _).length = _
    rw [List.length_set, h.length]
  · intro i hlt
    rcases Nat.lt_succ_iff_lt_or_eq.mp hlt with hold | rfl
    · exact h.inside i hold
    · exact (h.inside_iff _).mp hin
  · intro i hlt
    rcases Nat.lt_succ_iff_lt_or_eq.mp hlt with hold | rfl
    · exact h.free i hold
    · exact hbase
  · intro i hlt
    rcases Nat.lt_succ_iff_lt_or_eq.mp hlt with hold | rfl
    · exact h.room i hold
    · exact hroom
  · intro i hlt j hlt' heq
    -- an old seat and the new one cannot share a cell
    rcases Nat.lt_succ_iff_lt_or_eq.mp hlt with hold | rfl <;>
      rcases Nat.lt_succ_iff_lt_or_eq.mp hlt' with hold' | rfl
    · exact h.distinct i hold j hold' heq
    · exact absurd heq (hnew i hold)
    · exact absurd heq.symm (hnew j hold')
    · rfl
  · intro i _ hlt
    rw [getSeat_setSeat (by rw [h.length]; exact hroom)]
    rcases Nat.lt_succ_iff_lt_or_eq.mp hlt with hold | rfl
    · rw [if_neg (hnew i hold)]
      exact h.marked i (Nat.zero_le _) hold
    · rw [if_pos rfl]
  · intro c hc
    rw [getSeat_setSeat (by rw [h.length]; exact hroom),
      if_neg (Ne.symm (hc hi (Nat.zero_le _) (Nat.lt_succ_self _)))]
    exact h.others c fun i hlo hlt => hc i hlo (Nat.lt_succ_of_lt hlt)

/-- One mark less. -/
theorem clear (h : Marks base event q r lo hi) (hlt : lo < hi) :
    Marks base (setSeat event (index event q lo) 0) q r (lo + 1) hi := by
  rw [h.index_eq]
  constructor
  · exact h.id
  · exact h.rows
  · exact h.cols
  · show (event.data.set _ _).length = _
    rw [List.length_set, h.length]
  · exact h.inside
  · exact h.free
  · exact h.room
  · exact h.distinct
  · intro i hlo hi
    rw [getSeat_setSeat (by rw [h.length]; exact h.room lo hlt), if_neg]
    · exact h.marked i (Nat.le_of_succ_le hlo) hi
    · intro heq
      have := h.distinct i hi lo hlt heq
      omega
  · intro c hc
    rw [getSeat_setSeat (by rw [h.length]; exact h.room lo hlt)]
    by_cases hlast : c = index base q lo
    · rw [if_pos hlast, hlast, h.free lo hlt]
    · rw [if_neg hlast]
      refine h.others c fun i hlo hi heq => ?_
      rcases Nat.eq_or_lt_of_le hlo with rfl | hgt
      · exact hlast heq.symm
      · exact hc i hgt hi heq

/-- No mark is left. -/
theorem data_eq (h : Marks base event q r hi hi) : event.data = base.data := by
  refine List.ext_getElem h.length fun c h1 h2 => ?_
  have hseat := h.others c fun i hle hlt => absurd hlt (Nat.not_lt.mpr hle)
  unfold getSeat at hseat
  rwa [List.getD_eq_getElem?_getD, List.getD_eq_getElem?_getD, List.getElem?_eq_getElem h1,
    List.getElem?_eq_getElem h2] at hseat

/-- The counter is not part of the matrix. -/
theorem undo (h : Marks base event q r lo hi) : Marks base (undoReservations event) q r lo hi :=
  ⟨h.id, h.rows, h.cols, h.length, h.inside, h.free, h.room, h.distinct, h.marked, h.others⟩

/-- No mark and no number is left. -/
theorem eq_base (h : Marks base event q r hi hi) (hres : event.reservations = base.reservations) :
    event = base := by
  have hid := h.id
  have hrows := h.rows
  have hcols := h.cols
  have hdata := h.data_eq
  cases event
  cases base
  simp_all

end Marks

/-! ## A whole call -/

section Loops

variable {base event : Event} {q : Request} {r : UInt32}

/-- A seat the loop does not refuse is a seat of its own. -/
def Extends (base : Event) (q : Request) (r : UInt32) : Prop :=
  ∀ i event, Marks base event q r 0 i → i < q.numSeats.toNat → refused event q i = false →
    index base q i < base.data.length ∧ ∀ j < i, index base q j ≠ index base q i

/-- In a matrix of the right size an inside seat has a cell. -/
theorem index_lt {i : Nat} (hsize : base.data.length = Server.capacity base.toServer)
    (hcap : Server.capacity base.toServer < 2 ^ 64) (hin : Inside base.toServer (q.seat i)) :
    index base q i < base.data.length := by
  have hlt : q.index base.toServer i < Server.capacity base.toServer :=
    Server.seatIndex_lt hcap hin
  rwa [hsize, index_eq]

/-- The loop marks no seat twice when no seat is named twice. -/
theorem extends_of_distinct (hsize : base.data.length = Server.capacity base.toServer)
    (hcap : Server.capacity base.toServer < 2 ^ 64)
    (hseats : ∀ i < q.numSeats.toNat, ∀ j < q.numSeats.toNat, q.seat i = q.seat j → i = j) :
    Extends base q r := by
  intro i event hm hi href
  have hin := (hm.inside_iff _).mp (refused_eq_false.mp href).1
  refine ⟨index_lt hsize hcap hin, fun j hj heq => ?_⟩
  have hseat : q.seat j = q.seat i := Server.seatIndex_inj hcap (hm.inside j hj) hin
    (show q.index base.toServer j = q.index base.toServer i from heq)
  have := hseats j (by omega) i hi hseat
  omega

theorem markFrom_reservations (q : Request) (r : UInt32) (n : Nat) :
    ∀ (event : Event) (i : Nat), (markFrom event q r i n).1.reservations = event.reservations := by
  induction n with
  | zero => intro event i; rfl
  | succ n ih =>
    intro event i
    unfold markFrom
    split
    next => rfl
    next => exact ih _ _

theorem clearFrom_reservations (q : Request) (n : Nat) :
    ∀ (event : Event) (j : Nat), (clearFrom event q j n).reservations = event.reservations := by
  induction n with
  | zero => intro event j; rfl
  | succ n ih => intro event j; exact ih _ _

/-- The loop ends behind the last seat or at the first one it refuses. -/
theorem markFrom_marks (hx : Extends base q r) (n : Nat) :
    ∀ {event : Event} {i : Nat}, Marks base event q r 0 i → i + n = q.numSeats.toNat →
      Marks base (markFrom event q r i n).1 q r 0 (markFrom event q r i n).2 ∧
      (markFrom event q r i n).2 ≤ q.numSeats.toNat ∧
      ((markFrom event q r i n).2 < q.numSeats.toNat →
        refused (markFrom event q r i n).1 q (markFrom event q r i n).2 = true) := by
  induction n with
  | zero =>
    intro event i hm hi
    exact ⟨hm, Nat.le_of_eq hi, fun hlt => absurd hlt (by show ¬ i < _; omega)⟩
  | succ n ih =>
    intro event i hm hi
    unfold markFrom
    split
    next href => exact ⟨hm, by show i ≤ _; omega, fun _ => href⟩
    next hpass =>
      have href : refused event q i = false := by simpa using hpass
      obtain ⟨hroom, hnew⟩ := hx i event hm (by omega) href
      exact ih (hm.mark href hroom hnew) (by omega)

/-- The second loop takes every mark back. -/
theorem clearFrom_marks (n : Nat) : ∀ {event : Event} {j : Nat},
    Marks base event q r j (j + n) → Marks base (clearFrom event q j n) q r (j + n) (j + n) := by
  induction n with
  | zero => intro event j hm; exact hm
  | succ n ih =>
    intro event j hm
    have hstep := hm.clear (by omega)
    rw [show j + (n + 1) = j + 1 + n by omega] at hstep ⊢
    exact ih hstep

/-- **A call of `ems_reserve`**: it marks all its seats, or it comes to a seat it
refuses and leaves the event as it was. -/
theorem reserveSeats_spec (hx : Extends base q (base.reservations + 1)) :
    (∃ event, Marks base event q (base.reservations + 1) 0 q.numSeats.toNat ∧
      markFrom (bumpReservations base) q (base.reservations + 1) 0 q.numSeats.toNat =
        (event, q.numSeats.toNat) ∧ reserveSeats base q = (event, 0)) ∨
    (∃ event, ∃ i < q.numSeats.toNat, Marks base event q (base.reservations + 1) 0 i ∧
      refused event q i = true ∧ reserveSeats base q = (base, 1)) := by
  have hstart : Marks base (bumpReservations base) q (base.reservations + 1) 0 0 :=
    Marks.start q _ rfl rfl rfl rfl
  obtain ⟨hm, hle, href⟩ := markFrom_marks hx q.numSeats.toNat hstart (Nat.zero_add _)
  have hres := markFrom_reservations q (base.reservations + 1) q.numSeats.toNat
    (bumpReservations base) 0
  unfold reserveSeats
  generalize markFrom (bumpReservations base) q (base.reservations + 1) 0 q.numSeats.toNat = m
    at hm hle href hres
  obtain ⟨event, i⟩ := m
  dsimp only at hm hle href hres ⊢
  -- a break of the first loop is what the test behind it looks for
  by_cases hi : i < q.numSeats.toNat
  · refine Or.inr ⟨event, i, hi, hm, href hi, ?_⟩
    rw [if_pos hi]
    have hclear := @clearFrom_marks base q _ i (undoReservations event) 0 (by
      rw [Nat.zero_add]
      exact hm.undo)
    have hback : (clearFrom (undoReservations event) q 0 i).reservations = base.reservations := by
      rw [clearFrom_reservations]
      show event.reservations - 1 = _
      rw [hres]
      exact UInt32.add_sub_cancel _ _
    rw [hclear.eq_base hback]
  · have hend : i = q.numSeats.toNat := Nat.le_antisymm hle (Nat.le_of_not_lt hi)
    subst hend
    exact Or.inl ⟨event, hm, rfl, if_neg hi⟩

end Loops

end Ems.Jobs
