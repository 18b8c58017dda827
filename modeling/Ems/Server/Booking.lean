import Ems.Base.Ledger
import Ems.Server.Locks

/-!
# No double booking

The matrix of an event *is* a ledger (`Base.Ledger`): cell `c` holds the number
of the claim that took it, 0 while it is free, and the claims are the seats of
the successful `RESERVE`s in the order in which they held the event's mutex.
`Keeps` says this for one event, allowing for a last claim whose seats are still
being stored; `Books` says it for every state of a run, the last claim then
being the one of the session inside the critical section.

`ems_reserve` only ever grants a claim on free cells, so the ledger's own bound
applies: there are fewer claims than cells as long as a cell is free, and
`++event->reservations` cannot reach 2^32 in an event with fewer than 2^32
seats. That is the whole reason why a reservation number is never the 0 that
means "free".
-/

namespace Ems.Server

open Conc Base

/-- The cell of a seat. -/
def cell (event : Event) (p : Seat) : Nat := (seatIndex event p.1 p.2).toNat

/-- The cells of a list of seats. -/
def cells (event : Event) (seats : List Seat) : Finset Nat := (seats.map (cell event)).toFinset

/-- What a cell holds, as a number. -/
def Event.value (event : Event) (c : Nat) : Nat := (event.data.getD c 0).toNat

/-- The cells of the seats of a request from the `i`-th on. -/
def Request.cellsFrom (q : Request) (event : Event) (i : Nat) : List Nat :=
  (List.range' i (q.numSeats.toNat - i)).map (q.index event)

/-- The event is the table of the ledger `l`, except that the cells in `late`
belong to its last claim and may not be marked yet. -/
structure Keeps (event : Event) {n : Nat} (l : Ledger (Finset.range n)) (late : List Nat) :
    Prop where
  size : event.data.length = n
  count : event.reservations.toNat = l.claims.length
  marked : ∀ c, c ∉ late → event.value c = l.owner c
  pending : ∀ c ∈ late, l.owner c = l.claims.length ∧
    (event.value c = 0 ∨ event.value c = l.claims.length)

/-- The cell that is stored next, and those behind it. -/
theorem Request.cellsFrom_lt {q : Request} {event : Event} {i : Nat}
    (h : i < q.numSeats.toNat) :
    q.cellsFrom event i = q.index event i :: q.cellsFrom event (i + 1) := by
  unfold Request.cellsFrom
  rw [show q.numSeats.toNat - i = (q.numSeats.toNat - (i + 1)) + 1 by omega, List.range'_succ]
  rfl

/-- None is left. -/
theorem Request.cellsFrom_ge {q : Request} {event : Event} {i : Nat}
    (h : q.numSeats.toNat ≤ i) : q.cellsFrom event i = [] := by
  unfold Request.cellsFrom
  rw [show q.numSeats.toNat - i = 0 by omega]
  rfl

/-- The cells of a request are those of its seats. -/
theorem Request.mem_cells {q : Request} {event : Event} {c : Nat} :
    c ∈ cells event q.seats ↔ ∃ i < q.numSeats.toNat, q.index event i = c := by
  unfold cells Request.seats
  simp only [List.map_map, List.mem_toFinset, List.mem_map, List.mem_range]
  exact Iff.rfl

/-- In the beginning all of them are left. -/
theorem Request.mem_cellsFrom_zero {q : Request} {event : Event} {c : Nat} :
    c ∈ q.cellsFrom event 0 ↔ c ∈ cells event q.seats := by
  rw [Request.mem_cells]
  unfold Request.cellsFrom
  simp only [Nat.sub_zero, List.mem_map, List.mem_range'_1, Nat.zero_le, Nat.zero_add, true_and]

/-! ## The three things a session does to an event -/

/-- The seats of a new event are free. -/
theorem value_replicate (event : Event) {n : Nat} (h : event.data = List.replicate n 0) (c : Nat) :
    event.value c = 0 := by
  unfold Event.value
  rw [h, List.getD_eq_getElem?_getD, List.getElem?_replicate]
  split <;> rfl

/-- A new event keeps the blank ledger. -/
theorem keeps_blank {event : Event} {n : Nat} (hr : event.reservations = 0)
    (hd : event.data = List.replicate n 0) : Keeps event (Ledger.blank (Finset.range n)) [] where
  size := by rw [hd, List.length_replicate]
  count := by rw [hr]; rfl
  marked := by
    intro c _
    rw [value_replicate event hd]
    exact (Ledger.owner_eq_zero.mpr (by simp [Ledger.blank])).symm
  pending := by simp

/-- `++event->reservations` after the checks grants a claim, and does not wrap. -/
theorem keeps_grant {event : Event} {l : Ledger (Finset.range (capacity event))} {q : Request}
    (hcap : capacity event < 2 ^ 32) (hk : Keeps event l []) (hq : q.admitted event = true)
    (hn : 1 ≤ q.numSeats.toNat) :
    ∃ l' : Ledger (Finset.range (capacity event)),
      l'.claims = l.claims ++ [cells event q.seats] ∧
      (event.reservations + 1).toNat = l'.claims.length ∧
      Keeps (bumpReservations event) l' (q.cellsFrom event 0) := by
  have hadm := (Request.admitted_iff (by omega)).mp hq
  have hroom : ∀ i < q.numSeats.toNat, q.index event i ∈ Finset.range (capacity event) :=
    fun i hi => Finset.mem_range.mpr (seatIndex_lt (by omega) (hadm i hi).1)
  have hfree : ∀ i < q.numSeats.toNat, l.owner (q.index event i) = 0 := by
    intro i hi
    rw [← hk.marked _ List.not_mem_nil]
    unfold Event.value
    rw [(hadm i hi).2]
    rfl
  have hne : (cells event q.seats).Nonempty :=
    ⟨q.index event 0, Request.mem_cells.mpr ⟨0, by omega, rfl⟩⟩
  have hin : cells event q.seats ⊆ Finset.range (capacity event) := by
    intro c hc
    obtain ⟨i, hi, rfl⟩ := Request.mem_cells.mp hc
    exact hroom i hi
  have hfree' : ∀ c ∈ cells event q.seats, l.owner c = 0 := by
    intro c hc
    obtain ⟨i, hi, rfl⟩ := Request.mem_cells.mp hc
    exact hfree i hi
  -- the first requested cell is still free, so there is a number left for it
  have hlen : l.claims.length < capacity event := by
    have := l.length_lt_of_free (hroom 0 (by omega)) (hfree 0 (by omega))
    rwa [Finset.card_range] at this
  have hnum : (event.reservations + 1).toNat = l.claims.length + 1 := by
    rw [UInt32.toNat_add, hk.count]
    exact Nat.mod_eq_of_lt (show l.claims.length + 1 < 2 ^ 32 by omega)
  refine ⟨l.grant _ hne hin hfree', rfl, by rw [hnum]; simp [Ledger.grant], ?_⟩
  constructor
  · exact hk.size
  · show (event.reservations + 1).toNat = _
    rw [hnum]
    simp [Ledger.grant]
  · intro c hc
    rw [Ledger.owner_grant, if_neg (fun h => hc (Request.mem_cellsFrom_zero.mpr h))]
    exact hk.marked c List.not_mem_nil
  · intro c hc
    have hmem := Request.mem_cellsFrom_zero.mp hc
    rw [Ledger.owner_grant, if_pos hmem]
    refine ⟨by simp [Ledger.grant], Or.inl ?_⟩
    show event.value c = 0
    rw [hk.marked c List.not_mem_nil]
    exact hfree' c hmem

/-- A store changes its own cell. -/
theorem value_storeSeat {event : Event} {q : Request} {r : UInt32} {i : Nat}
    (h : q.index event i < event.data.length) (c : Nat) :
    (storeSeat event q r i).value c = if c = q.index event i then r.toNat else event.value c := by
  unfold Event.value storeSeat
  rw [getD_set_of_lt h]
  exact apply_ite UInt32.toNat ..

/-- Storing a seat marks one more cell of the last claim. -/
theorem keeps_store {event : Event} {n : Nat} {l : Ledger (Finset.range n)} {q : Request}
    {r : UInt32} {i : Nat} {late : List Nat} (hk : Keeps event l (q.index event i :: late))
    (hpos : 0 < l.claims.length) (hr : r.toNat = l.claims.length) :
    Keeps (storeSeat event q r i) l late := by
  have hown := (hk.pending _ (List.mem_cons_self ..)).1
  have hlt : q.index event i < event.data.length := by
    rw [hk.size, ← Finset.mem_range]
    by_contra hout
    have := Ledger.owner_eq_zero.mpr fun d hd (hmem : q.index event i ∈ d) =>
      hout (l.inside d hd hmem)
    omega
  constructor
  · show (event.data.set _ _).length = n
    rw [List.length_set, hk.size]
  · exact hk.count
  · intro c hc
    rw [value_storeSeat hlt]
    by_cases hci : c = q.index event i
    · rw [if_pos hci, hr, hci, hown]
    · rw [if_neg hci]
      exact hk.marked c (by simp [hci, hc])
  · intro c hc
    have hp := hk.pending c (List.mem_cons_of_mem _ hc)
    refine ⟨hp.1, ?_⟩
    rw [value_storeSeat hlt]
    by_cases hci : c = q.index event i
    · rw [if_pos hci]; exact Or.inr hr
    · rw [if_neg hci]; exact hp.2

/-! ## Every state of a run -/

/-- A request a client of `api.c` can send: between 1 and
`MAX_RESERVATION_SIZE` seats, repeats allowed. -/
def Act.Sane : Act → Prop
  | .call _ (.reserve q) => 1 ≤ q.numSeats.toNat ∧ q.numSeats.toNat ≤ 256
  | _ => True

/-- What a step shows of the event at `e`: a session that gives back its mutex
and returns 0 has reserved its seats. -/
def reserved (e : Nat) (s : State) : Act → List (List Seat)
  | .step t _ =>
    match s.pc t with
    | .reserveRelease q e' ret => if e' = e ∧ ret = 0 then [q.seats] else []
    | _ => []
  | _ => []

/-- The seats of the successful `RESERVE`s of the event at `e`, in the order in
which they held its mutex. -/
def bookings (e : Nat) (tr : List Act) : List (List Seat) := machine.log (reserved e) tr

/-- Where the session that holds the mutex of `e` is. -/
def State.inside (s : State) (e : Nat) : Option Pc := (s.mutex e).map s.pc

/-- The claim a session is granting, if any: its seats and, while it stores
them, the cells still to come and the number it stores. -/
def Pc.granting (event : Event) : Option Pc → List (List Seat) × List Nat × Option UInt32
  | some (.reserveStore q _ r i) => ([q.seats], q.cellsFrom event i, some r)
  | some (.reserveRelease q _ ret) => (if ret = 0 then [q.seats] else [], [], none)
  | _ => ([], [], none)

/-- The event keeps the ledger of the claims `hist`, the last of which may be
in progress. -/
def KeepsBooks (hist : List (List Seat)) (event : Event)
    (g : List (List Seat) × List Nat × Option UInt32) : Prop :=
  ∃ l : Ledger (Finset.range (capacity event)),
    l.claims = (hist ++ g.1).map (cells event) ∧
    Keeps event l g.2.1 ∧
    (∀ seats ∈ hist ++ g.1, ∀ p ∈ seats, Inside event p) ∧
    (∀ r, g.2.2 = some r → 0 < l.claims.length ∧ r.toNat = l.claims.length)

/-- The books of the event at `e` are in order: nothing is booked before it
exists, and from then on it keeps the ledger of its bookings. -/
structure Books (e : Nat) (hist : List (List Seat)) (s : State) : Prop where
  before : s.list.nodes.length ≤ e → hist = [] ∧ s.mutex e = none
  after : ∀ event, s.list.nodes[e]? = some event → capacity event < 2 ^ 32 →
    KeepsBooks hist event (Pc.granting event (s.inside e))

/-- The request a session is about to check for the event at `e` names a seat. -/
def Backed (e : Nat) (s : State) : Act → Prop
  | .step t _ =>
    match s.pc t with
    | .reserveCheck q e' => e' = e → 1 ≤ q.numSeats.toNat
    | _ => True
  | _ => True

/-- The request of a session whose seats are not yet checked. -/
def Pc.asked : Pc → Option Request
  | .reserveLock q => some q
  | .reserveLookup q => some q
  | .reserveUnlist q _ => some q
  | .reserveMutex q _ => some q
  | .reserveCheck q _ => some q
  | _ => none

/-- The requests under way name at least one seat. -/
def SaneInv (s : State) : Prop := ∀ t q, (s.pc t).asked = some q → 1 ≤ q.numSeats.toNat

/-- A session moves on with its request. -/
theorem saneInv_goto {s s' : State} {t : Tid} {pc : Pc} (hi : SaneInv s)
    (hp : s'.pc = Function.update s.pc t pc)
    (hq : ∀ q, pc.asked = some q → 1 ≤ q.numSeats.toNat) : SaneInv s' := by
  intro u q hu
  rw [hp] at hu
  by_cases hut : u = t
  · subst hut
    rw [Function.update_self] at hu
    exact hq q hu
  · rw [Function.update_of_ne hut] at hu
    exact hi u q hu

/-- The requests stay those `handle_requests` lets through. -/
theorem step_saneInv {s s' : State} {a : Act} (hs : Step s a s') (ha : a.Sane)
    (hi : SaneInv s) : SaneInv s' := by
  cases hs
  case call t op h =>
    refine saneInv_goto hi rfl fun q hq => ?_
    cases op <;> cases hq
    exact ha.1
  case reserveLock t c q l h hl =>
    exact saneInv_goto hi rfl fun q' hq => hi t q' (by rw [h]; exact hq)
  case reserveLookup t c q h =>
    exact saneInv_goto hi rfl fun q' hq => hi t q' (by rw [h]; exact hq)
  case reserveFound t c q e h =>
    exact saneInv_goto hi rfl fun q' hq => hi t q' (by rw [h]; exact hq)
  case reserveMutex t c q e h hm =>
    exact saneInv_goto hi rfl fun q' hq => hi t q' (by rw [h]; exact hq)
  all_goals exact saneInv_goto hi rfl (by simp [Pc.asked])

/-- What is inside the critical section of `e` is not touched by a session that
is not there. -/
theorem inside_of_other {s s' : State} {e : Nat} {t : Tid} {pc : Pc} (hi : MutexInv s)
    (hm : s'.mutex e = s.mutex e) (hp : s'.pc = Function.update s.pc t pc)
    (hh : (s.pc t).holding ≠ some e) : s'.inside e = s.inside e := by
  unfold State.inside
  rw [hm]
  cases hme : s.mutex e with
  | none => rfl
  | some u =>
    have hut : u ≠ t := by
      rintro rfl
      exact hh ((hi e u).mp hme)
    simp only [Option.map_some, hp, Function.update_of_ne hut]

/-- Steps that concern another event, or none. -/
theorem books_other {s s' : State} {e : Nat} {hist : List (List Seat)} {t : Tid} {pc : Pc}
    (hb : Books e hist s) (hi : MutexInv s) (hm : s'.mutex e = s.mutex e)
    (hp : s'.pc = Function.update s.pc t pc) (hh : (s.pc t).holding ≠ some e)
    (hlen : s.list.nodes.length ≤ s'.list.nodes.length)
    (hnode : s'.list.nodes[e]? = s.list.nodes[e]?) : Books e hist s' := by
  constructor
  · intro hle
    obtain ⟨hh, hmut⟩ := hb.before (Nat.le_trans hlen hle)
    exact ⟨hh, hm.trans hmut⟩
  · intro event he hcap
    rw [inside_of_other hi hm hp hh]
    exact hb.after event (hnode.symm.trans he) hcap

/-- The session inside the critical section of `e` moves on. -/
theorem books_inside {s s' : State} {e : Nat} {hist hist' : List (List Seat)} {t : Tid} {pc : Pc}
    {event : Event} (hb : Books e hist s) (hown : s.mutex e = some t) (hpc : s.pc t = pc)
    (he : s.list.nodes[e]? = some event) {event' : Event}
    (he' : s'.list.nodes[e]? = some event')
    (hcap : capacity event' = capacity event)
    (hkeep : capacity event < 2 ^ 32 → KeepsBooks hist event (Pc.granting event (some pc)) →
      KeepsBooks hist' event' (Pc.granting event' (s'.inside e))) : Books e hist' s' := by
  constructor
  · intro hle
    rw [List.getElem?_eq_none hle] at he'
    cases he'
  · intro event'' he'' hcap''
    rw [he'] at he''
    cases he''
    rw [hcap] at hcap''
    have hin : s.inside e = some pc := by unfold State.inside; rw [hown, ← hpc]; rfl
    have hold := hb.after event he hcap''
    rw [hin] at hold
    exact hkeep hcap'' hold

/-- The event has been replaced. -/
theorem getElem?_setEvent_self {s : State} {e : Nat} {event event' : Event}
    (he : s.list.nodes[e]? = some event) : (s.setEvent e event').list.nodes[e]? = some event' := by
  show (s.list.nodes.set e event')[e]? = some event'
  obtain ⟨hlt, -⟩ := List.getElem?_eq_some_iff.mp he
  rw [List.getElem?_set_self hlt]

/-- The other events have not. -/
theorem getElem?_setEvent_of_ne {s : State} {e e' : Nat} {event' : Event} (h : e ≠ e') :
    (s.setEvent e' event').list.nodes[e]? = s.list.nodes[e]? := by
  show (s.list.nodes.set e' event')[e]? = s.list.nodes[e]?
  rw [List.getElem?_set_ne (Ne.symm h)]

/-- A new event starts with blank books. -/
theorem keepsBooks_new {id : UInt32} {rows cols : UInt64}
    (hcap : capacity (newEvent id rows cols) < 2 ^ 32) :
    KeepsBooks [] (newEvent id rows cols) ([], [], none) := by
  have hn : (rows * cols).toNat = capacity (newEvent id rows cols) := by
    rw [UInt64.toNat_mul]
    exact Nat.mod_eq_of_lt (Nat.lt_trans hcap (by decide))
  refine ⟨Ledger.blank _, rfl, keeps_blank rfl ?_, by simp, by simp⟩
  rw [← hn]
  rfl

/-- Only a session inside a critical section shows anything. -/
theorem reserved_quiet {e : Nat} {s : State} {t : Tid} {c : Choice}
    (h : (s.pc t).holding ≠ some e) : reserved e s (.step t c) = [] := by
  simp only [reserved]
  split
  next q e' ret hpc =>
    rw [hpc] at h
    exact if_neg fun hc => h (by rw [← hc.1]; rfl)
  next => rfl

/-- The place of the session that holds the mutex and has just moved. -/
theorem inside_goto {s : State} {e : Nat} {t : Tid} {pc : Pc} (h : s.mutex e = some t) :
    (s.goto t pc).inside e = some pc := by
  simp [State.inside, h]

section Granting

variable {hist : List (List Seat)} {event : Event} {q : Request} {e i : Nat} {r : UInt32}

/-- An admitted request is granted the next number. -/
theorem keepsBooks_admit (hcap : capacity event < 2 ^ 32) (hq : q.admitted event = true)
    (hn : 1 ≤ q.numSeats.toNat)
    (hk : KeepsBooks hist event (Pc.granting event (some (.reserveCheck q e)))) :
    KeepsBooks hist (bumpReservations event) (Pc.granting (bumpReservations event)
      (some (.reserveStore q e (event.reservations + 1) 0))) := by
  obtain ⟨l, hl, hkeep, hins, -⟩ := hk
  obtain ⟨l', hl', hnum, hkeep'⟩ := keeps_grant hcap hkeep hq hn
  refine ⟨l', ?_, hkeep', ?_, ?_⟩
  · rw [hl', hl]
    simp only [Pc.granting, List.append_nil, List.map_append]
    rfl
  · intro seats hseats p hp
    simp only [Pc.granting, List.append_nil] at hins
    rcases List.mem_append.mp hseats with hold | hnew
    · exact hins seats hold p hp
    · have hadm := (Request.admitted_iff (by omega)).mp hq
      rw [List.mem_singleton.mp hnew, Request.mem_seats] at hp
      obtain ⟨i, hi, rfl⟩ := hp
      exact (hadm i hi).1
  · intro r hr
    cases hr
    exact ⟨by rw [hl']; simp, hnum⟩

/-- One of its seats is stored. -/
theorem keepsBooks_store (hi : i < q.numSeats.toNat)
    (hk : KeepsBooks hist event (Pc.granting event (some (.reserveStore q e r i)))) :
    KeepsBooks hist (storeSeat event q r i) (Pc.granting (storeSeat event q r i)
      (some (.reserveStore q e r (i + 1)))) := by
  obtain ⟨l, hl, hkeep, hins, hnum⟩ := hk
  obtain ⟨hpos, hr⟩ := hnum r rfl
  simp only [Pc.granting, Request.cellsFrom_lt hi] at hkeep
  exact ⟨l, hl, keeps_store hkeep hpos hr, hins, hnum⟩

/-- All of its seats are stored. -/
theorem keepsBooks_stored (hi : q.numSeats.toNat ≤ i)
    (hk : KeepsBooks hist event (Pc.granting event (some (.reserveStore q e r i)))) :
    KeepsBooks hist event (Pc.granting event (some (.reserveRelease q e 0))) := by
  obtain ⟨l, hl, hkeep, hins, -⟩ := hk
  simp only [Pc.granting, Request.cellsFrom_ge hi] at hkeep
  exact ⟨l, hl, hkeep, hins, by simp [Pc.granting]⟩

/-- What was granted becomes a booking, and what was refused none. -/
theorem keepsBooks_release {ret : UInt32}
    (hk : KeepsBooks hist event (Pc.granting event (some (.reserveRelease q e ret)))) :
    KeepsBooks (hist ++ if ret = 0 then [q.seats] else []) event (Pc.granting event none) := by
  obtain ⟨l, hl, hkeep, hins, -⟩ := hk
  simp only [Pc.granting] at hl hkeep hins
  exact ⟨l, by simpa [Pc.granting] using hl, hkeep, by simpa [Pc.granting] using hins,
    by simp [Pc.granting]⟩

end Granting

section Steps

variable {s : State} {e : Nat} {hist : List (List Seat)} {t : Tid}

/-- An event is appended: nothing was booked at its position before. -/
theorem books_append {id : UInt32} {rows cols : UInt64} {pc : Pc} (hb : Books e hist s)
    (hm : MutexInv s) (hout : (s.pc t).holding ≠ some e) :
    Books e hist
      (State.goto { s with list := appendToList s.list (newEvent id rows cols) } t pc) := by
  constructor
  · intro hle
    refine hb.before (Nat.le_trans ?_ hle)
    simp [appendToList]
  · intro event he hcap
    have hsame : (State.goto { s with list := appendToList s.list (newEvent id rows cols) } t
        pc).inside e = s.inside e := inside_of_other hm rfl rfl hout
    rw [hsame]
    rcases Nat.lt_or_ge e s.list.nodes.length with hlt | hge
    · refine hb.after event ?_ hcap
      rw [← he]
      exact (List.getElem?_append_left hlt).symm
    · obtain ⟨rfl, hfree⟩ := hb.before hge
      have hin : s.inside e = none := by unfold State.inside; rw [hfree]; rfl
      rw [hin]
      have hev : (s.list.nodes ++ [newEvent id rows cols])[e]? = some event := he
      rw [List.getElem?_append_right hge, List.getElem?_singleton] at hev
      split at hev
      next => cases hev; exact keepsBooks_new hcap
      next => cases hev

/-- A session takes the mutex, and grants nothing yet. -/
theorem books_take {q : Request} (hb : Books e hist s) (hlt : e < s.list.nodes.length)
    (hfree : s.mutex e = none) :
    Books e hist (State.goto { s with mutex := Function.update s.mutex e (some t) } t
      (.reserveCheck q e)) := by
  constructor
  · intro hle
    exact absurd hlt (Nat.not_lt.mpr hle)
  · intro event he hcap
    have hold := hb.after event he hcap
    have hnone : s.inside e = none := by unfold State.inside; rw [hfree]; rfl
    rw [hnone] at hold
    rw [inside_goto (by simp)]
    exact hold

end Steps

/-- A step keeps the account of the seats. -/
theorem step_books {s s' : State} {a : Act} {e : Nat} {hist : List (List Seat)}
    (hs : Step s a s') (hm : MutexInv s) (haim : AimInv s) (hback : Backed e s a)
    (hb : Books e hist s) : Books e (hist ++ reserved e s a) s' := by
  cases hs
  case createAppend t c id rows cols h =>
    have hout : (s.pc t).holding ≠ some e := by rw [h]; simp [Pc.holding]
    rw [show reserved e s (.step t c) = [] from reserved_quiet hout, List.append_nil]
    rcases createEvent_cases c.alloc s.list id rows cols with hc | hc
    · rw [hc]
      exact books_other hb hm rfl rfl hout (Nat.le_refl _) rfl
    · rw [hc]
      exact books_append hb hm hout
  case reserveMutex t c q e' h hfree =>
    rw [show reserved e s (.step t c) = [] by simp [reserved, h], List.append_nil]
    by_cases hee : e = e'
    · subst hee
      exact books_take hb (getEvent_lt (haim t q.eventId e (by rw [h]; rfl))) hfree
    · exact books_other hb hm (Function.update_of_ne hee ..) rfl (by rw [h]; simp [Pc.holding])
        (Nat.le_refl _) rfl
  case reserveAdmit t c q e' event h he hq =>
    rw [show reserved e s (.step t c) = [] by simp [reserved, h], List.append_nil]
    by_cases hee : e = e'
    · subst hee
      have hown : s.mutex e = some t := (hm e t).mpr (by rw [h]; rfl)
      have hn : 1 ≤ q.numSeats.toNat := by simpa only [Backed, h, forall_const] using hback
      refine books_inside hb hown h he (getElem?_setEvent_self he) rfl fun hcap hk => ?_
      rw [inside_goto (show (s.setEvent e _).mutex e = some t from hown)]
      exact keepsBooks_admit hcap hq hn hk
    · exact books_other hb hm rfl rfl (by rw [h]; simp [Pc.holding, Ne.symm hee])
        (by simp [State.setEvent]) (getElem?_setEvent_of_ne hee)
  case reserveRefuse t c q e' event h he hq =>
    rw [show reserved e s (.step t c) = [] by simp [reserved, h], List.append_nil]
    by_cases hee : e = e'
    · subst hee
      have hown : s.mutex e = some t := (hm e t).mpr (by rw [h]; rfl)
      refine books_inside hb hown h he he rfl fun _ hk => ?_
      rw [inside_goto hown]
      exact hk
    · exact books_other hb hm rfl rfl (by rw [h]; simp [Pc.holding, Ne.symm hee])
        (Nat.le_refl _) rfl
  case reserveStore t c q e' r i event h he hi hin =>
    rw [show reserved e s (.step t c) = [] by simp [reserved, h], List.append_nil]
    by_cases hee : e = e'
    · subst hee
      have hown : s.mutex e = some t := (hm e t).mpr (by rw [h]; rfl)
      refine books_inside hb hown h he (getElem?_setEvent_self he) rfl fun _ hk => ?_
      rw [inside_goto (show (s.setEvent e _).mutex e = some t from hown)]
      exact keepsBooks_store hi hk
    · exact books_other hb hm rfl rfl (by rw [h]; simp [Pc.holding, Ne.symm hee])
        (by simp [State.setEvent]) (getElem?_setEvent_of_ne hee)
  case reserveStored t c q e' r i event h he hi =>
    rw [show reserved e s (.step t c) = [] by simp [reserved, h], List.append_nil]
    by_cases hee : e = e'
    · subst hee
      have hown : s.mutex e = some t := (hm e t).mpr (by rw [h]; rfl)
      refine books_inside hb hown h he he rfl fun _ hk => ?_
      rw [inside_goto hown]
      exact keepsBooks_stored hi hk
    · exact books_other hb hm rfl rfl (by rw [h]; simp [Pc.holding, Ne.symm hee])
        (Nat.le_refl _) rfl
  case reserveRelease t c q e' ret h =>
    by_cases hee : e = e'
    · subst hee
      have hown : s.mutex e = some t := (hm e t).mpr (by rw [h]; rfl)
      have hlt := getEvent_lt (haim t q.eventId e (by rw [h]; rfl))
      rw [show reserved e s (.step t c) = if ret = 0 then [q.seats] else [] by simp [reserved, h]]
      have he : s.list.nodes[e]? = some s.list.nodes[e] := List.getElem?_eq_getElem hlt
      refine books_inside hb hown h he he rfl fun _ hk => ?_
      have hnone : (State.goto { s with mutex := Function.update s.mutex e none } t
          (.done (.status ret))).inside e = none := by simp [State.inside]
      rw [hnone]
      exact keepsBooks_release hk
    · rw [show reserved e s (.step t c) = [] by simp [reserved, h, Ne.symm hee], List.append_nil]
      exact books_other hb hm (Function.update_of_ne hee ..) rfl
        (by rw [h]; simp [Pc.holding, Ne.symm hee]) (Nat.le_refl _) rfl
  case call t op h =>
    rw [show reserved e s (.call t op) = [] from rfl, List.append_nil]
    exact books_other hb hm rfl rfl (by rw [h]; simp [Pc.holding]) (Nat.le_refl _) rfl
  case ret t r h =>
    rw [show reserved e s (.ret t) = [] from rfl, List.append_nil]
    exact books_other hb hm rfl rfl (by rw [h]; simp [Pc.holding]) (Nat.le_refl _) rfl
  -- the lookups, the list lock, the output of SHOW and LIST
  all_goals
    rw [reserved_quiet (by simp [*, Pc.holding]), List.append_nil]
    exact books_other hb hm rfl rfl (by simp [*, Pc.holding]) (Nat.le_refl _) rfl

/-- In every state of a run that checks no empty request for the event at `e` its
books are in order. -/
theorem run_books {tr : List Act} {s : State} {e : Nat} (hback : machine.Meets (Backed e) tr)
    (h : machine.run tr = some s) : Books e (bookings e tr) s := by
  refine machine.run_invariant_of_meets (C := Backed e) (I := fun tr s => Books e (bookings e tr) s)
    ?_ ?_ tr s hback h
  · refine ⟨fun _ => ⟨rfl, rfl⟩, ?_⟩
    intro event he
    cases he
  · intro tr s a s' hrun ha hi hstep
    unfold bookings
    rw [machine.log_snoc (reserved e) hrun hstep]
    exact step_books (step_cases hstep) (run_mutexInv hrun) (run_aimInv hrun) ha hi

/-- Sane requests are never empty. -/
theorem backed_of_sane {tr : List Act} (hsane : ∀ a ∈ tr, a.Sane) (e : Nat) :
    machine.Meets (Backed e) tr := by
  intro before a after s htr hrun
  have hinv : SaneInv s := by
    refine machine.run_invariant_of_meets (C := fun _ a => a.Sane) (I := fun _ s => SaneInv s)
      (fun _ _ hq => by cases hq) (fun _ _ _ _ _ ha hi hstep => step_saneInv (step_cases hstep) ha hi)
      before s (machine.meets_of_forall fun b hb => hsane b (by rw [htr]; simp [hb])) hrun
  unfold Backed
  split
  · split
    next q e' hpc => exact fun _ => hinv _ q (by rw [hpc]; rfl)
    next => trivial
  · trivial

/-- Nothing marked in `s` is marked differently in `s'`. -/
def Frozen (e : Nat) (s s' : State) : Prop :=
  ∀ event, s.list.nodes[e]? = some event → capacity event < 2 ^ 32 →
    ∃ event', s'.list.nodes[e]? = some event' ∧ capacity event' = capacity event ∧
      ∀ (c : Nat) (v : UInt32), event.data[c]? = some v → v ≠ 0 → event'.data[c]? = some v

/-- Nothing has happened. -/
theorem frozen_refl (e : Nat) (s : State) : Frozen e s s :=
  fun event he _ => ⟨event, he, rfl, fun _ _ hv _ => hv⟩

/-- One after the other. -/
theorem frozen_trans {e : Nat} {s s' s'' : State} (h : Frozen e s s') (h' : Frozen e s' s'') :
    Frozen e s s'' := by
  intro event he hcap
  obtain ⟨event', he', hc, hv⟩ := h event he hcap
  obtain ⟨event'', he'', hc', hv'⟩ := h' event' he' (by omega)
  exact ⟨event'', he'', hc'.trans hc, fun c v h1 h2 => hv' c v (hv c v h1 h2) h2⟩

/-- A step that leaves the event at `e` as it is. -/
theorem frozen_same {e : Nat} {s s' : State} (h : ∀ event, s.list.nodes[e]? = some event →
    s'.list.nodes[e]? = some event) : Frozen e s s' :=
  fun event he _ => ⟨event, h event he, rfl, fun _ _ hv _ => hv⟩

/-- The storing loop writes a cell that is free or already carries its number. -/
theorem step_frozen {s s' : State} {a : Act} {e : Nat} {hist : List (List Seat)}
    (hs : Step s a s') (hm : MutexInv s) (hb : Books e hist s) : Frozen e s s' := by
  cases hs
  case createAppend t c id rows cols h =>
    refine frozen_same fun event he => ?_
    show (createEvent c.alloc s.list id rows cols).1.nodes[e]? = some event
    rcases createEvent_cases c.alloc s.list id rows cols with hc | hc
    · rw [hc]; exact he
    · obtain ⟨hlt, -⟩ := List.getElem?_eq_some_iff.mp he
      rw [hc]
      exact (List.getElem?_append_left hlt).trans he
  -- the counter goes up, the cells stay
  case reserveAdmit t c q e' event h he hq =>
    by_cases hee : e = e'
    · subst hee
      intro event' he' _
      rw [he] at he'
      cases he'
      exact ⟨_, getElem?_setEvent_self he, rfl, fun _ _ hv _ => hv⟩
    · exact frozen_same fun event' he' => (getElem?_setEvent_of_ne hee).trans he'
  case reserveStore t c q e' r i event h he hi hin =>
    by_cases hee : e = e'
    · subst hee
      intro event' he' hcap
      rw [he] at he'
      cases he'
      refine ⟨_, getElem?_setEvent_self he, rfl, fun c v hv hne => ?_⟩
      have hown : s.mutex e = some t := (hm e t).mpr (by rw [h]; rfl)
      have hold := hb.after event he hcap
      have hin : s.inside e = some (.reserveStore q e r i) := by
        unfold State.inside; rw [hown, ← h]; rfl
      rw [hin] at hold
      obtain ⟨l, -, hkeep, -, hnum⟩ := hold
      simp only [Pc.granting, Request.cellsFrom_lt hi] at hkeep
      by_cases hci : q.index event i = c
      · subst hci
        -- the cell of this store is free or already has this number
        have hp := (hkeep.pending _ (List.mem_cons_self ..)).2
        have hval : event.value (q.index event i) = v.toNat := by
          unfold Event.value
          rw [List.getD_eq_getElem?_getD, hv]
          rfl
        have hvr : v = r := by
          apply UInt32.toNat_inj.mp
          rw [(hnum r rfl).2, ← hval]
          refine hp.resolve_left fun h0 => hne ?_
          exact UInt32.toNat_inj.mp (hval.symm.trans h0)
        obtain ⟨hlt, -⟩ := List.getElem?_eq_some_iff.mp hv
        show (event.data.set _ r)[q.index event i]? = some v
        rw [List.getElem?_set_self hlt, hvr]
      · show (event.data.set _ r)[c]? = some v
        rw [List.getElem?_set_ne hci, hv]
    · exact frozen_same fun event' he' => (getElem?_setEvent_of_ne hee).trans he'
  all_goals exact frozen_same fun event he => he

/-- The number a seat carries. -/
def Event.seat (event : Event) (p : Seat) : Nat := event.value (cell event p)

/-- The seats that carry `k` are those of the `k`-th claim. -/
theorem keeps_seats {event : Event} {hist : List (List Seat)}
    {l : Ledger (Finset.range (capacity event))} (hcap : capacity event < 2 ^ 64)
    (hl : l.claims = hist.map (cells event)) (hkeep : Keeps event l [])
    (hins : ∀ seats ∈ hist, ∀ p ∈ seats, Inside event p) {k : Nat} (hk : 1 ≤ k) :
    {p : Seat | Inside event p ∧ event.seat p = k} = {p | p ∈ hist.getD (k - 1) []} := by
  obtain ⟨k, rfl⟩ : ∃ j, k = j + 1 := ⟨k - 1, by omega⟩
  ext p
  simp only [Set.mem_ofPred_eq, Nat.add_sub_cancel, List.getD_eq_getElem?_getD]
  have hseat : event.seat p = l.owner (cell event p) := hkeep.marked _ List.not_mem_nil
  rw [hseat, Ledger.owner_eq_succ, hl, List.getElem?_map]
  cases hget : hist[k]? with
  | none => simp
  | some seats =>
    have hseats := hins seats (List.mem_of_getElem? hget)
    simp only [Option.map_some, Option.some.injEq, Option.getD_some, exists_eq_left']
    unfold cells
    simp only [List.mem_toFinset, List.mem_map]
    constructor
    · rintro ⟨hp, p', hp', hcell⟩
      exact seatIndex_inj hcap (hseats p' hp') hp hcell ▸ hp'
    · intro hp
      exact ⟨hseats p hp, p, hp, rfl⟩

/-- **No double booking.** In every run of sane requests and for every event
with fewer than 2^32 seats: a marked cell keeps its value in every later state,
and whenever the event's mutex is free its counter is the number of successful
reservations and the seats that carry `k` are the seats of the `k`-th one. -/
theorem no_double_booking {tr : List Act} {s : State} (hsane : ∀ a ∈ tr, a.Sane)
    (hrun : machine.run tr = some s) {e : Nat} {event : Event}
    (he : s.list.nodes[e]? = some event)
    (hcap : event.rows.toNat * event.cols.toNat < 2 ^ 32) :
    (∀ tr' s', (∀ a ∈ tr', a.Sane) → machine.runFrom s tr' = some s' →
      ∃ event', s'.list.nodes[e]? = some event' ∧
        ∀ (c : Nat) (v : UInt32), event.data[c]? = some v → v ≠ 0 → event'.data[c]? = some v) ∧
    (s.mutex e = none →
      event.reservations.toNat = (bookings e tr).length ∧
      ∀ k, 1 ≤ k → {p : Seat | Inside event p ∧ event.seat p = k} =
        {p | p ∈ (bookings e tr).getD (k - 1) []}) := by
  constructor
  · intro tr' s' hsane' hrun'
    -- step by step, in states that sane runs reach
    have hfrozen : Frozen e s s' := by
      refine machine.runFrom_rel (I := fun s => ∃ tr, (∀ a ∈ tr, a.Sane) ∧
          machine.run tr = some s) (P := Act.Sane) (frozen_refl e) frozen_trans ?_ ?_
        tr' s s' hsane' ⟨tr, hsane, hrun⟩ hrun'
      · rintro s1 a s2 ha ⟨tr1, hsane1, hrun1⟩ hstep
        refine ⟨tr1 ++ [a], ?_, machine.run_snoc.mpr ⟨s1, hrun1, hstep⟩⟩
        intro b hb
        rcases List.mem_append.mp hb with h | h
        · exact hsane1 b h
        · rw [List.mem_singleton.mp h]; exact ha
      · rintro s1 a s2 _ ⟨tr1, hsane1, hrun1⟩ hstep
        exact step_frozen (step_cases hstep) (run_mutexInv hrun1)
          (run_books (backed_of_sane hsane1 e) hrun1)
    obtain ⟨event', he', -, hv⟩ := hfrozen event he hcap
    exact ⟨event', he', hv⟩
  · intro hfree
    have hold := (run_books (backed_of_sane hsane e) hrun).after event he hcap
    -- no session is inside: nothing of the last claim is still to be stored
    have hin : s.inside e = none := by unfold State.inside; rw [hfree]; rfl
    rw [hin] at hold
    obtain ⟨l, hl, hkeep, hins, -⟩ := hold
    simp only [Pc.granting, List.append_nil] at hl hkeep hins
    refine ⟨by rw [hkeep.count, hl, List.length_map], fun k hk => ?_⟩
    exact keeps_seats (Nat.lt_trans hcap (by decide)) hl hkeep hins hk

/-- Session 0 creates a 2 × 2 event; sessions 1 and 2 look it up together and
book disjoint seats of it, session 2 first. -/
def twoBookings : List Act :=
  let turn (t : Tid) : Act := .step t ⟨Alloc.allOk, 1⟩
  [.call 0 (.create 7 2 2), turn 0, turn 0, turn 0, turn 0, .ret 0,
    .call 1 (.reserve ⟨7, 2, fun i => if i = 0 then 1 else 2, fun _ => 1⟩),
    .call 2 (.reserve ⟨7, 1, fun _ => 1, fun _ => 2⟩),
    turn 1, turn 2, turn 1, turn 2, turn 1, turn 2, turn 2, turn 2, turn 2, turn 2, turn 2,
    turn 1, turn 1, turn 1, turn 1, turn 1, turn 1]

/-- Two sessions book at the same event. -/
theorem no_double_booking_twoBookings :
    ∃ s event, machine.run twoBookings = some s ∧ s.list.nodes[0]? = some event ∧
      event.reservations.toNat = 2 ∧
      {p : Seat | Inside event p ∧ event.seat p = 2} = {p | p ∈ [((1, 1) : Seat), (2, 1)]} := by
  obtain ⟨s, hs⟩ := Option.isSome_iff_exists.mp
    (show (machine.run twoBookings).isSome = true by decide)
  have hend : (machine.run twoBookings).map (fun s => (s.list.nodes, s.mutex 0)) =
      some ([⟨7, 2, 2, 2, [2, 1, 2, 0]⟩], none) := by decide
  rw [hs, Option.map_some, Option.some.injEq, Prod.mk.injEq] at hend
  have he : s.list.nodes[0]? = some ⟨7, 2, 2, 2, [2, 1, 2, 0]⟩ := by rw [hend.1]; rfl
  have hlog : bookings 0 twoBookings = [[(1, 2)], [(1, 1), (2, 1)]] := by decide
  have hbooked := (no_double_booking (by simp [twoBookings, Act.Sane]) hs he (by decide)).2 hend.2
  rw [hlog] at hbooked
  exact ⟨s, _, hs, he, hbooked.1, hbooked.2 2 (by decide)⟩

end Ems.Server
