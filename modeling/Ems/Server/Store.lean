import Mathlib.Data.List.Basic
import Mathlib.Tactic.Ring
import Mathlib.Tactic.NormNum

/-!
# The server's store: events, seats and the four operations

`server/eventlist.c` and the bodies of `server/operations.c`, one call at a
time. Locks and interleavings are in `Sessions.lean`; what is here is what a
session computes while it holds the lock that protects the data it reads.

Mirroring notes:
- `unsigned int` is `UInt32`, `size_t` is `UInt64`; both wrap as in C.
- A `struct Event *` is the position of the event in the list. Events are never
  removed or moved, so a position stays good for ever, as the pointer does.
- `data` has as many cells as `calloc` was asked for, `num_rows * num_cols`
  computed in `size_t`.
- `xs` and `ys` are the memory the two pointers point to: a function of the
  index, since C reads whatever is there for any index.
- `storeSeat` is for a seat inside the block. What `ems_reserve` does to the memory
  behind it, when `num_rows * num_cols` has wrapped, is undefined; in `Sessions.lean` a
  session has no such step, so in a run no store is ever made outside.
- The delay of `get_event_with_delay` has no effect on the result and is left
  out, and so are the messages on stderr.
-/

namespace Ems.Server

/-- `struct Event`, without its mutex. -/
structure Event where
  id : UInt32
  reservations : UInt32
  cols : UInt64
  rows : UInt64
  data : List UInt32
deriving DecidableEq, Repr

/-- `struct EventList`: the separate counter and the nodes from `head` to
`tail`. -/
structure EventList where
  eventNum : UInt64
  nodes : List Event
deriving DecidableEq, Repr

/-- A seat as a request names it: its row and its column, both from 1. -/
abbrev Seat := UInt64 × UInt64

/-- The arguments of `ems_reserve`. -/
structure Request where
  eventId : UInt32
  numSeats : UInt64
  xs : Nat → UInt64
  ys : Nat → UInt64

/-- `create_list`. -/
def createList : EventList := ⟨0, []⟩

/-- `append_to_list`, with the outcome of its `malloc`. -/
def appendToList (list : EventList) (event : Event) : EventList :=
  { eventNum := list.eventNum + 1, nodes := list.nodes ++ [event] }

/-- `get_event(list, id, head, tail)`: the first event with that id. -/
def getEvent (list : EventList) (eventId : UInt32) : Option Nat :=
  list.nodes.findIdx? fun event => event.id == eventId

/-- `seat_index`, in wrapping `size_t` arithmetic. -/
def seatIndex (event : Event) (row col : UInt64) : UInt64 :=
  (row - 1) * event.cols + col - 1

/-- What the allocator answers to the three allocations of `ems_create`, and
whether `pthread_mutex_init` succeeds. -/
structure Alloc where
  event : Bool
  mutexInit : Bool
  data : Bool
  node : Bool
deriving DecidableEq, Repr

/-- Every allocation succeeds. -/
def Alloc.allOk : Alloc := ⟨true, true, true, true⟩

/-- `calloc(n, sizeof(unsigned int))`: `n` zeroed cells, or nothing when the
allocator has none or when `4 * n` bytes cannot be expressed in a `size_t`. -/
def calloc (ok : Bool) (n : UInt64) : Option (List UInt32) :=
  if ok ∧ n.toNat * 4 < 2 ^ 64 then some (List.replicate n.toNat 0) else none

/-- `ems_create` once its lookup has found no event: the new list and the value
it returns. -/
def createEvent (alloc : Alloc) (list : EventList) (eventId : UInt32) (numRows numCols : UInt64) :
    EventList × UInt32 :=
  if !alloc.event then (list, 1)
  else if !alloc.mutexInit then (list, 1)
  else
    match calloc alloc.data (numRows * numCols) with
    | none => (list, 1)
    | some data =>
      if !alloc.node then (list, 1)
      else
        (appendToList list
          { id := eventId, reservations := 0, cols := numCols, rows := numRows, data := data }, 0)

/-- `ems_create`, run alone. -/
def emsCreate (alloc : Alloc) (list : EventList) (eventId : UInt32) (numRows numCols : UInt64) :
    EventList × UInt32 :=
  if (getEvent list eventId).isSome then (list, 1)
  else createEvent alloc list eventId numRows numCols

/-- The bounds test `ems_reserve` makes for one seat, as it is written. -/
def outOfBounds (event : Event) (x y : UInt64) : Bool :=
  x ≤ 0 || x > event.rows || y ≤ 0 || y > event.cols

namespace Request

/-- The `i`-th seat of a request. -/
def seat (q : Request) (i : Nat) : Seat := (q.xs i, q.ys i)

/-- The cell of the `i`-th seat of a request. -/
def index (q : Request) (event : Event) (i : Nat) : Nat :=
  (seatIndex event (q.xs i) (q.ys i)).toNat

/-- The seats a request names, in order. -/
def seats (q : Request) : List Seat := (List.range q.numSeats.toNat).map q.seat

/-- The first loop of `ems_reserve`: every seat is inside the event. -/
def inBounds (q : Request) (event : Event) : Bool :=
  (List.range q.numSeats.toNat).all fun i => !outOfBounds event (q.xs i) (q.ys i)

/-- The second loop of `ems_reserve`: for every cell of the matrix, the first
requested seat with that index decides, and the loop stops at an occupied one. -/
def taken (q : Request) (event : Event) : Bool :=
  (List.range (event.rows * event.cols).toNat).any fun i =>
    match (List.range q.numSeats.toNat).find? fun j =>
        seatIndex event (q.xs j) (q.ys j) == UInt64.ofNat i with
    | some _ => event.data.getD i 0 != 0
    | none => false

/-- Both checks of `ems_reserve` pass. -/
def admitted (q : Request) (event : Event) : Bool := q.inBounds event && !q.taken event

end Request

/-- One iteration of the last loop of `ems_reserve`, for a seat inside the block: the
sessions make no other (`advance`). -/
def storeSeat (event : Event) (q : Request) (reservationId : UInt32) (i : Nat) : Event :=
  { event with data := event.data.set (q.index event i) reservationId }

/-- The iterations from `i` to the end of that loop, `n` of them. -/
def storeFrom (event : Event) (q : Request) (reservationId : UInt32) : Nat → Nat → Event
  | _, 0 => event
  | i, n + 1 => storeFrom (storeSeat event q reservationId i) q reservationId (i + 1) n

/-- `++event->reservations`. -/
def bumpReservations (event : Event) : Event :=
  { event with reservations := event.reservations + 1 }

/-- `ems_reserve` between locking and unlocking the event's mutex: the event it
leaves and the value it returns. -/
def reserveSeats (event : Event) (q : Request) : Event × UInt32 :=
  if q.admitted event then
    (storeFrom (bumpReservations event) q (event.reservations + 1) 0 q.numSeats.toNat, 0)
  else (event, 1)

/-- `ems_reserve`, run alone. -/
def emsReserve (list : EventList) (q : Request) : EventList × UInt32 :=
  match getEvent list q.eventId with
  | none => (list, 1)
  | some e =>
    match list.nodes[e]? with
    | none => (list, 1)
    | some event =>
      ({ list with nodes := list.nodes.set e (reserveSeats event q).1 }, (reserveSeats event q).2)

/-- What `ems_list_events` sends, run alone: the counter, and the ids from
`head` to `tail` unless the counter is 0. -/
def emsListEvents (list : EventList) : UInt64 × List UInt32 :=
  (list.eventNum, if list.eventNum = 0 then [] else list.nodes.map (·.id))

/-! ## The list -/

/-- `get_event` looks at nothing but the ids. -/
theorem getEvent_eq (list : EventList) (id : UInt32) :
    getEvent list id = (list.nodes.map (·.id)).findIdx? (· == id) := by
  unfold getEvent
  rw [List.findIdx?_map]
  rfl

theorem getEvent_lt {list : EventList} {id : UInt32} {e : Nat} (h : getEvent list id = some e) :
    e < list.nodes.length := by
  obtain ⟨he, -⟩ := List.findIdx?_eq_some_iff_getElem.mp h
  exact he

/-- An event that was found is found again after an append. -/
theorem getEvent_append {list : EventList} {event : Event} {id : UInt32} {e : Nat}
    (h : getEvent list id = some e) : getEvent (appendToList list event) id = some e := by
  unfold getEvent appendToList at *
  rw [List.findIdx?_append, h]
  rfl

/-- An event as `ems_create` makes it: no reservations, every seat free. -/
def newEvent (id : UInt32) (rows cols : UInt64) : Event :=
  { id := id, reservations := 0, cols := cols, rows := rows,
    data := List.replicate (rows * cols).toNat 0 }

/-- What `ems_create` does to the list once the lookup failed: nothing, or one
new event at the end. -/
theorem createEvent_cases (alloc : Alloc) (list : EventList) (id : UInt32)
    (rows cols : UInt64) :
    createEvent alloc list id rows cols = (list, 1) ∨
    createEvent alloc list id rows cols = (appendToList list (newEvent id rows cols), 0) := by
  unfold createEvent calloc
  split
  · exact Or.inl rfl
  · split
    · exact Or.inl rfl
    · split
      next => exact Or.inl rfl
      next hd =>
        split at hd
        · cases hd
          split
          · exact Or.inl rfl
          · exact Or.inr rfl
        · cases hd

/-- With every allocation granted only the size of the matrix decides. -/
theorem createEvent_allOk (list : EventList) (id : UInt32) (rows cols : UInt64) :
    createEvent Alloc.allOk list id rows cols =
      if (rows * cols).toNat * 4 < 2 ^ 64 then (appendToList list (newEvent id rows cols), 0)
      else (list, 1) := by
  unfold createEvent
  by_cases h : (rows * cols).toNat * 4 < 2 ^ 64
  · have hdata : calloc Alloc.allOk.data (rows * cols) =
        some (List.replicate (rows * cols).toNat 0) := if_pos ⟨rfl, h⟩
    rw [hdata, if_pos h]
    rfl
  · have hdata : calloc Alloc.allOk.data (rows * cols) = none := if_neg fun hc => h hc.2
    rw [hdata, if_neg h]
    rfl

/-- The matrix has the cells `calloc` was asked for, and its bytes can be
counted in a `size_t`. -/
structure Event.Sized (event : Event) : Prop where
  cells : event.data.length = (event.rows * event.cols).toNat
  fits : event.data.length * 4 < 2 ^ 64

/-- `calloc` would have failed otherwise. -/
theorem createEvent_sized {alloc : Alloc} {list : EventList} {id : UInt32} {rows cols : UInt64}
    (h : (createEvent alloc list id rows cols).2 = 0) : (newEvent id rows cols).Sized := by
  unfold createEvent calloc at h
  have hlen : (newEvent id rows cols).data.length = (rows * cols).toNat := List.length_replicate
  split at h
  · cases h
  · split at h
    · cases h
    · split at h
      next => cases h
      next hd =>
        split at hd
        next hfit => exact ⟨hlen, by rw [hlen]; exact hfit.2⟩
        next => cases hd

/-- Writing back what is there. -/
theorem set_same {α : Type} {l : List α} {i : Nat} {a : α} (h : l[i]? = some a) :
    l.set i a = l := by
  obtain ⟨hlt, rfl⟩ := List.getElem?_eq_some_iff.mp h
  exact List.set_getElem_self hlt

/-- A cell behind a store. -/
theorem getD_set (data : List UInt32) (k c : Nat) (value : UInt32) :
    (data.set k value).getD c 0 = if c = k ∧ k < data.length then value else data.getD c 0 := by
  rw [List.getD_eq_getElem?_getD, List.getElem?_set, List.getD_eq_getElem?_getD]
  by_cases hc : c = k
  · subst hc
    by_cases hk : c < data.length
    · simp [hk]
    · simp [hk]
  · rw [if_neg (Ne.symm hc), if_neg fun h => hc h.1]

theorem getD_set_of_lt {data : List UInt32} {k : Nat} (hk : k < data.length) (c : Nat)
    (value : UInt32) : (data.set k value).getD c 0 = if c = k then value else data.getD c 0 := by
  rw [getD_set]
  exact if_congr (and_iff_left hk) rfl rfl

/-! ## Seats and cells -/

/-- The seat is inside the event. -/
def Inside (event : Event) (p : Seat) : Prop :=
  1 ≤ p.1.toNat ∧ p.1.toNat ≤ event.rows.toNat ∧ 1 ≤ p.2.toNat ∧ p.2.toNat ≤ event.cols.toNat

/-- The number of seats of the event, not wrapped. -/
def capacity (event : Event) : Nat := event.rows.toNat * event.cols.toNat

theorem outOfBounds_eq_false {event : Event} {x y : UInt64} :
    outOfBounds event x y = false ↔ Inside event (x, y) := by
  unfold outOfBounds Inside
  simp only [Bool.or_eq_false_iff, decide_eq_false_iff_not, gt_iff_lt,
    UInt64.lt_iff_toNat_lt, UInt64.le_iff_toNat_le, UInt64.toNat_zero]
  omega

/-- An inside seat's row and column never overflow the index arithmetic. -/
theorem inside_mul_le {rows cols x y : Nat} (hx : 1 ≤ x) (hxr : x ≤ rows) (hyc : y ≤ cols) :
    (x - 1) * cols + y ≤ rows * cols := by
  have hstep : (x - 1) * cols + cols ≤ rows * cols := by
    rw [← Nat.succ_mul]
    exact Nat.mul_le_mul_right cols (by omega)
  omega

/-- `seat_index` of an inside seat, as a natural number. -/
theorem seatIndex_toNat {event : Event} {x y : UInt64} (hcap : capacity event < 2 ^ 64)
    (h : Inside event (x, y)) :
    (seatIndex event x y).toNat = (x.toNat - 1) * event.cols.toNat + (y.toNat - 1) := by
  obtain ⟨hx, hxr, hy, hyc⟩ := h
  dsimp only at hx hxr hy hyc
  have hle := inside_mul_le hx hxr hyc
  unfold capacity at hcap
  have hx1 : (x - 1).toNat = x.toNat - 1 :=
    UInt64.toNat_sub_of_le _ _ (by rw [UInt64.le_iff_toNat_le]; exact hx)
  have hmul : ((x - 1) * event.cols).toNat = (x.toNat - 1) * event.cols.toNat := by
    rw [UInt64.toNat_mul, hx1]
    exact Nat.mod_eq_of_lt (by omega)
  have hadd : ((x - 1) * event.cols + y).toNat = (x.toNat - 1) * event.cols.toNat + y.toNat := by
    rw [UInt64.toNat_add, hmul]
    exact Nat.mod_eq_of_lt (by omega)
  unfold seatIndex
  rw [UInt64.toNat_sub_of_le _ _ (by rw [UInt64.le_iff_toNat_le, hadd]; show 1 ≤ _; omega), hadd]
  show _ + _ - 1 = _
  omega

theorem seatIndex_lt {event : Event} {x y : UInt64} (hcap : capacity event < 2 ^ 64)
    (h : Inside event (x, y)) : (seatIndex event x y).toNat < capacity event := by
  rw [seatIndex_toNat hcap h]
  obtain ⟨hx, hxr, hy, hyc⟩ := h
  have := inside_mul_le hx hxr hyc
  dsimp only at this hy
  unfold capacity
  omega

/-- Different inside seats have different cells. -/
theorem seatIndex_inj {event : Event} {p p' : Seat} (hcap : capacity event < 2 ^ 64)
    (h : Inside event p) (h' : Inside event p')
    (heq : (seatIndex event p.1 p.2).toNat = (seatIndex event p'.1 p'.2).toNat) : p = p' := by
  rw [seatIndex_toNat hcap h, seatIndex_toNat hcap h'] at heq
  obtain ⟨hx, -, hy, hyc⟩ := h
  obtain ⟨hx', -, hy', hyc'⟩ := h'
  -- row and column are quotient and remainder by the number of columns
  have hdiv : ∀ a b c : Nat, b < c → (a * c + b) / c = a := by
    intro a b c hbc
    rw [Nat.mul_comm, Nat.mul_add_div (by omega), Nat.div_eq_of_lt hbc, Nat.add_zero]
  have hrow : p.1.toNat - 1 = p'.1.toNat - 1 := by
    have h1 := hdiv (p.1.toNat - 1) (p.2.toNat - 1) event.cols.toNat (by omega)
    rw [heq, hdiv _ _ _ (by omega)] at h1
    exact h1.symm
  rw [hrow] at heq
  apply Prod.ext
  · exact UInt64.toNat_inj.mp (by omega)
  · exact UInt64.toNat_inj.mp (by omega)

theorem Request.mem_seats {q : Request} {p : Seat} :
    p ∈ q.seats ↔ ∃ i < q.numSeats.toNat, q.seat i = p := by
  unfold Request.seats
  simp

theorem Request.inBounds_iff {q : Request} {event : Event} :
    q.inBounds event = true ↔ ∀ i < q.numSeats.toNat, Inside event (q.seat i) := by
  unfold Request.inBounds
  simp only [List.all_eq_true, List.mem_range, Bool.not_eq_true', outOfBounds_eq_false]
  exact Iff.rfl

/-- The scan over all cells finds exactly the occupied ones among the requested
seats. -/
theorem Request.taken_iff {q : Request} {event : Event} (hcap : capacity event < 2 ^ 64)
    (hin : q.inBounds event = true) :
    q.taken event = true ↔ ∃ i < q.numSeats.toNat, event.data.getD (q.index event i) 0 ≠ 0 := by
  have hprod : (event.rows * event.cols).toNat = capacity event := by
    rw [UInt64.toNat_mul]
    exact Nat.mod_eq_of_lt hcap
  have hlt : ∀ i < q.numSeats.toNat, q.index event i < capacity event :=
    fun i hi => seatIndex_lt hcap (Request.inBounds_iff.mp hin i hi)
  unfold Request.taken
  rw [hprod]
  simp only [List.any_eq_true, List.mem_range]
  constructor
  · rintro ⟨c, hc, hfound⟩
    split at hfound
    next j hj =>
      have hcell := List.find?_some hj
      have hmem := List.mem_range.mp (List.mem_of_find?_eq_some hj)
      simp only [beq_iff_eq] at hcell
      refine ⟨j, hmem, ?_⟩
      have hidx : q.index event j = c := by
        unfold Request.index
        rw [hcell, UInt64.toNat_ofNat']
        exact Nat.mod_eq_of_lt (by omega)
      rw [hidx]
      simpa using hfound
    next => exact absurd hfound (by simp)
  · rintro ⟨i, hi, hocc⟩
    refine ⟨q.index event i, hlt i hi, ?_⟩
    -- the inner loop finds some seat in that cell, perhaps an earlier one
    cases hj : (List.range q.numSeats.toNat).find? fun j =>
        seatIndex event (q.xs j) (q.ys j) == UInt64.ofNat (q.index event i) with
    | some j => simpa using hocc
    | none =>
      have := List.find?_eq_none.mp hj i (List.mem_range.mpr hi)
      simp [Request.index] at this

/-- Both checks pass exactly when every seat is inside and free. -/
theorem Request.admitted_iff {q : Request} {event : Event} (hcap : capacity event < 2 ^ 64) :
    q.admitted event = true ↔ ∀ i < q.numSeats.toNat,
      Inside event (q.seat i) ∧ event.data.getD (q.index event i) 0 = 0 := by
  unfold Request.admitted
  rw [Bool.and_eq_true]
  constructor
  · rintro ⟨hin, htak⟩ i hi
    refine ⟨Request.inBounds_iff.mp hin i hi, ?_⟩
    by_contra hocc
    have := (Request.taken_iff hcap hin).mpr ⟨i, hi, hocc⟩
    simp [this] at htak
  · intro h
    have hin : q.inBounds event = true := Request.inBounds_iff.mpr fun i hi => (h i hi).1
    refine ⟨hin, ?_⟩
    rw [Bool.not_eq_true', ← Bool.not_eq_true, Request.taken_iff hcap hin]
    rintro ⟨i, hi, hocc⟩
    exact hocc (h i hi).2

/-! ## The storing loop -/

@[simp] theorem storeSeat_id (event : Event) (q : Request) (r : UInt32) (i : Nat) :
    (storeSeat event q r i).id = event.id := rfl

theorem storeFrom_succ (event : Event) (q : Request) (r : UInt32) (i n : Nat) :
    storeFrom event q r i (n + 1) = storeFrom (storeSeat event q r i) q r (i + 1) n := rfl

theorem storeFrom_id (q : Request) (r : UInt32) (n : Nat) :
    ∀ (event : Event) (i : Nat), (storeFrom event q r i n).id = event.id := by
  induction n with
  | zero => intro event i; rfl
  | succ n ih => intro event i; rw [storeFrom_succ, ih, storeSeat_id]

end Ems.Server
